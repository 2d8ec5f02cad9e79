import Niladic.Code.Draft
import Mathlib.Data.List.Basic

namespace Niladic

namespace Operation

def operands : Operation → List ValueId
  | .const _ | .address _ | .slot | .call _ | .ret none => []
  | .arith _ left right => [left, right]
  | .load pointer => [pointer]
  | .store value pointer => [value, pointer]
  | .ret (some value) => [value]

end Operation

namespace Code

def withConst (code : Code) (x : Float) : Code :=
  { code with values := code.values.push ⟨"", .const x, none⟩ }

def withInstruction (code : Code) (b : BlockId) (name : String) (op : Operation) : Code :=
  { code with
    values := code.values.push ⟨name, op, some b⟩
    blocks := code.blocks.modify b.index fun block =>
      { block with body := block.body.push ⟨code.values.size⟩ } }

def withFunction (code : Code) (name : String) (returns : Returns) : Code :=
  { code with functions := code.functions.push ⟨name, returns, #[]⟩ }

def withBlock (code : Code) (name : String) (f : FuncId) : Code :=
  { code with
    blocks := code.blocks.push ⟨name, f, #[]⟩
    functions := code.functions.modify f.index fun function =>
      { function with blocks := function.blocks.push ⟨code.blocks.size⟩ } }

def withGlobal (code : Code) (name : String) : Code :=
  { code with
    values := code.values.push ⟨name, .address ⟨code.globals.size⟩, none⟩
    globals := code.globals.push ⟨name, 0.0, true, ⟨code.values.size⟩⟩ }

def withProcedure (code : Code) (name : String) (returns : Returns) : Code :=
  (code.withFunction name returns).withBlock "entry" ⟨code.functions.size⟩

variable {code code' code'' : Code}

theorem value_lt {v : ValueId} {value : Value} (h : code.value? v = some value) :
    v.index < code.values.size := by
  obtain ⟨hlt, -⟩ := Array.getElem?_eq_some_iff.mp h
  exact hlt

theorem block_lt {b : BlockId} {block : Block} (h : code.block? b = some block) :
    b.index < code.blocks.size := by
  obtain ⟨hlt, -⟩ := Array.getElem?_eq_some_iff.mp h
  exact hlt

theorem func_lt {f : FuncId} {function : Func} (h : code.func? f = some function) :
    f.index < code.functions.size := by
  obtain ⟨hlt, -⟩ := Array.getElem?_eq_some_iff.mp h
  exact hlt

theorem global_lt {g : GlobalId} {global : Global} (h : code.global? g = some global) :
    g.index < code.globals.size := by
  obtain ⟨hlt, -⟩ := Array.getElem?_eq_some_iff.mp h
  exact hlt

theorem operation_of_value {v : ValueId} {value : Value} (h : code.value? v = some value) :
    code.operation? v = some value.operation := by
  simp [operation?, h]

theorem value_of_operation {v : ValueId} {op : Operation} (h : code.operation? v = some op) :
    ∃ value, code.value? v = some value ∧ value.operation = op := by
  simpa [operation?] using h

theorem value?_withConst (x : Float) (v : ValueId) :
    (code.withConst x).value? v =
      if v.index = code.values.size then some ⟨"", .const x, none⟩ else code.value? v := by
  simp [value?, withConst, Array.getElem?_push]

theorem operation?_withConst_self (x : Float) :
    (code.withConst x).operation? ⟨code.values.size⟩ = some (.const x) := by
  rw [operation?, value?_withConst, if_pos rfl]
  rfl

theorem value?_withInstruction (b : BlockId) (name : String) (op : Operation) (v : ValueId) :
    (code.withInstruction b name op).value? v =
      if v.index = code.values.size then some ⟨name, op, some b⟩ else code.value? v := by
  simp [value?, withInstruction, Array.getElem?_push]

theorem operation?_withInstruction_self (b : BlockId) (name : String) (op : Operation) :
    (code.withInstruction b name op).operation? ⟨code.values.size⟩ = some op := by
  rw [operation?, value?_withInstruction, if_pos rfl]
  rfl

theorem block?_withInstruction (b b' : BlockId) (name : String) (op : Operation) :
    (code.withInstruction b name op).block? b' =
      if b' = b then (code.block? b).map fun block =>
        { block with body := block.body.push ⟨code.values.size⟩ }
      else code.block? b' := by
  obtain ⟨i⟩ := b
  obtain ⟨j⟩ := b'
  by_cases h : j = i
  · subst h
    simp [block?, withInstruction, Array.getElem?_modify]
  · simp [block?, withInstruction, Array.getElem?_modify, h, Ne.symm h]

theorem block?_withInstruction_self {b : BlockId} {block : Block} (h : code.block? b = some block)
    (name : String) (op : Operation) : (code.withInstruction b name op).block? b =
      some { block with body := block.body.push ⟨code.values.size⟩ } := by
  rw [block?_withInstruction, if_pos rfl, h]
  rfl

theorem block?_withInstruction_of_ne {b b' : BlockId} (h : b' ≠ b) (name : String)
    (op : Operation) : (code.withInstruction b name op).block? b' = code.block? b' := by
  rw [block?_withInstruction, if_neg h]

theorem value?_withGlobal (name : String) (v : ValueId) :
    (code.withGlobal name).value? v =
      if v.index = code.values.size then some ⟨name, .address ⟨code.globals.size⟩, none⟩
      else code.value? v := by
  simp [value?, withGlobal, Array.getElem?_push]

theorem global?_withGlobal (name : String) (g : GlobalId) :
    (code.withGlobal name).global? g =
      if g.index = code.globals.size then some ⟨name, 0.0, true, ⟨code.values.size⟩⟩
      else code.global? g := by
  simp [global?, withGlobal, Array.getElem?_push]

theorem func?_withFunction (name : String) (returns : Returns) (f : FuncId) :
    (code.withFunction name returns).func? f =
      if f.index = code.functions.size then some ⟨name, returns, #[]⟩ else code.func? f := by
  simp [func?, withFunction, Array.getElem?_push]

theorem func?_withBlock (name : String) (f f' : FuncId) :
    (code.withBlock name f).func? f' =
      if f' = f then (code.func? f).map fun function =>
        { function with blocks := function.blocks.push ⟨code.blocks.size⟩ }
      else code.func? f' := by
  obtain ⟨i⟩ := f
  obtain ⟨j⟩ := f'
  by_cases h : j = i
  · subst h
    simp [func?, withBlock, Array.getElem?_modify]
  · simp [func?, withBlock, Array.getElem?_modify, h, Ne.symm h]

theorem block?_withBlock (name : String) (f : FuncId) (b : BlockId) :
    (code.withBlock name f).block? b =
      if b.index = code.blocks.size then some ⟨name, f, #[]⟩ else code.block? b := by
  simp [block?, withBlock, Array.getElem?_push]

theorem func?_withProcedure (name : String) (returns : Returns) (f : FuncId) :
    (code.withProcedure name returns).func? f =
      if f.index = code.functions.size then some ⟨name, returns, #[⟨code.blocks.size⟩]⟩
      else code.func? f := by
  obtain ⟨i⟩ := f
  unfold withProcedure
  rw [func?_withBlock]
  by_cases hi : i = code.functions.size
  · subst hi
    rw [if_pos rfl, if_pos rfl, func?_withFunction, if_pos rfl]
    rfl
  · have hne : FuncId.mk i ≠ ⟨code.functions.size⟩ := fun h => hi (congrArg FuncId.index h)
    rw [if_neg hne, if_neg hi, func?_withFunction, if_neg hi]

theorem block?_withProcedure (name : String) (returns : Returns) (b : BlockId) :
    (code.withProcedure name returns).block? b =
      if b.index = code.blocks.size then some ⟨"entry", ⟨code.functions.size⟩, #[]⟩
      else code.block? b :=
  block?_withBlock ..

structure Extends (code code' : Code) : Prop where
  func : ∀ {f function}, code.func? f = some function → ∃ function',
    code'.func? f = some function' ∧ function'.name = function.name ∧
      function'.returns = function.returns ∧ function.blocks.toList <+: function'.blocks.toList
  block : ∀ {b block}, code.block? b = some block → ∃ block',
    code'.block? b = some block' ∧ block'.name = block.name ∧ block'.owner = block.owner ∧
      block.body.toList <+: block'.body.toList
  value : ∀ {v value}, code.value? v = some value → code'.value? v = some value
  global : ∀ {g global}, code.global? g = some global → code'.global? g = some global

namespace Extends

theorem refl (code : Code) : Extends code code where
  func h := ⟨_, h, rfl, rfl, List.prefix_rfl⟩
  block h := ⟨_, h, rfl, rfl, List.prefix_rfl⟩
  value h := h
  global h := h

theorem trans (h : Extends code code') (h' : Extends code' code'') : Extends code code'' where
  func hf := by
    obtain ⟨function', hf', hname, hreturns, hblocks⟩ := h.func hf
    obtain ⟨function'', hf'', hname', hreturns', hblocks'⟩ := h'.func hf'
    exact ⟨function'', hf'', hname'.trans hname, hreturns'.trans hreturns, hblocks.trans hblocks'⟩
  block hb := by
    obtain ⟨block', hb', hname, howner, hbody⟩ := h.block hb
    obtain ⟨block'', hb'', hname', howner', hbody'⟩ := h'.block hb'
    exact ⟨block'', hb'', hname'.trans hname, howner'.trans howner, hbody.trans hbody'⟩
  value hv := h'.value (h.value hv)
  global hg := h'.global (h.global hg)

theorem operation (h : Extends code code') {v : ValueId} {op : Operation}
    (hv : code.operation? v = some op) : code'.operation? v = some op := by
  obtain ⟨value, hvalue, rfl⟩ := value_of_operation hv
  exact operation_of_value (h.value hvalue)

theorem isNumeric (h : Extends code code') {v : ValueId} {numeric : Bool}
    (hv : code.isNumeric? v = some numeric) : code'.isNumeric? v = some numeric := by
  unfold isNumeric? at hv ⊢
  cases hop : code.operation? v with
  | none => simp [hop] at hv
  | some op =>
      rw [h.operation hop]
      rw [hop] at hv
      cases op with
      | call f =>
          simp only [Option.map_eq_some_iff] at hv ⊢
          obtain ⟨function, hf, hreturns⟩ := hv
          obtain ⟨function', hf', -, hreturns', -⟩ := h.func hf
          exact ⟨function', hf', by rw [hreturns']; exact hreturns⟩
      | _ => exact hv

end Extends

theorem extends_withConst (code : Code) (x : Float) : Extends code (code.withConst x) where
  func h := ⟨_, h, rfl, rfl, List.prefix_rfl⟩
  block h := ⟨_, h, rfl, rfl, List.prefix_rfl⟩
  value h := by
    rw [value?_withConst, if_neg (Nat.ne_of_lt (value_lt h))]
    exact h
  global h := h

theorem extends_withInstruction (code : Code) (b : BlockId) (name : String) (op : Operation) :
    Extends code (code.withInstruction b name op) where
  func h := ⟨_, h, rfl, rfl, List.prefix_rfl⟩
  block {b' block} h := by
    rw [block?_withInstruction]
    split
    next heq =>
      subst heq
      rw [h]
      exact ⟨_, rfl, rfl, rfl, by simp⟩
    next => exact ⟨_, h, rfl, rfl, List.prefix_rfl⟩
  value h := by
    rw [value?_withInstruction, if_neg (Nat.ne_of_lt (value_lt h))]
    exact h
  global h := h

theorem extends_withFunction (code : Code) (name : String) (returns : Returns) :
    Extends code (code.withFunction name returns) where
  func h := by
    rw [func?_withFunction, if_neg (Nat.ne_of_lt (func_lt h))]
    exact ⟨_, h, rfl, rfl, List.prefix_rfl⟩
  block h := ⟨_, h, rfl, rfl, List.prefix_rfl⟩
  value h := h
  global h := h

theorem extends_withBlock (code : Code) (name : String) (f : FuncId) :
    Extends code (code.withBlock name f) where
  func {f' function} h := by
    rw [func?_withBlock]
    split
    next heq =>
      subst heq
      rw [h]
      exact ⟨_, rfl, rfl, rfl, by simp⟩
    next => exact ⟨_, h, rfl, rfl, List.prefix_rfl⟩
  block h := by
    rw [block?_withBlock, if_neg (Nat.ne_of_lt (block_lt h))]
    exact ⟨_, h, rfl, rfl, List.prefix_rfl⟩
  value h := h
  global h := h

theorem extends_withGlobal (code : Code) (name : String) : Extends code (code.withGlobal name) where
  func h := ⟨_, h, rfl, rfl, List.prefix_rfl⟩
  block h := ⟨_, h, rfl, rfl, List.prefix_rfl⟩
  value h := by
    rw [value?_withGlobal, if_neg (Nat.ne_of_lt (value_lt h))]
    exact h
  global h := by
    rw [global?_withGlobal, if_neg (Nat.ne_of_lt (global_lt h))]
    exact h

theorem extends_withProcedure (code : Code) (name : String) (returns : Returns) :
    Extends code (code.withProcedure name returns) :=
  (extends_withFunction code name returns).trans (extends_withBlock _ _ _)

def IsNumber (code : Code) (v : ValueId) : Prop := code.isNumeric? v = some true

def IsPointer (code : Code) (p : ValueId) : Prop :=
  ∃ op, code.operation? p = some op ∧ op.isPointer = true

def Returning (code : Code) (f : FuncId) (returns : Returns) : Prop :=
  ∃ function, code.func? f = some function ∧ function.returns = returns

def Admits (code : Code) (f : FuncId) : Operation → Prop
  | .const _ | .address _ => False
  | .arith _ left right => code.IsNumber left ∧ code.IsNumber right
  | .slot => True
  | .load pointer => code.IsPointer pointer
  | .store value pointer => code.IsNumber value ∧ code.IsPointer pointer
  | .call callee => ∃ function, code.func? callee = some function
  | .ret none => code.Returning f .void
  | .ret (some value) => code.Returning f .number ∧ code.IsNumber value

theorem value_of_isNumber {v : ValueId} (h : code.IsNumber v) :
    ∃ value, code.value? v = some value := by
  unfold IsNumber isNumeric? at h
  cases hop : code.operation? v with
  | none => simp [hop] at h
  | some op =>
      obtain ⟨value, hvalue, -⟩ := value_of_operation hop
      exact ⟨value, hvalue⟩

theorem value_of_isPointer {p : ValueId} (h : code.IsPointer p) :
    ∃ value, code.value? p = some value := by
  obtain ⟨op, hop, -⟩ := h
  obtain ⟨value, hvalue, -⟩ := value_of_operation hop
  exact ⟨value, hvalue⟩

theorem isInstruction_of_admits {f : FuncId} {op : Operation} (h : code.Admits f op) :
    op.isInstruction = true := by
  cases op with
  | const | address => exact h.elim
  | _ => rfl

theorem operand_lt {f : FuncId} {op : Operation} (h : code.Admits f op) :
    ∀ u ∈ op.operands, u.index < code.values.size := by
  have hnumber {v : ValueId} (hv : code.IsNumber v) : v.index < code.values.size := by
    obtain ⟨value, hvalue⟩ := value_of_isNumber hv
    exact value_lt hvalue
  have hpointer {p : ValueId} (hp : code.IsPointer p) : p.index < code.values.size := by
    obtain ⟨value, hvalue⟩ := value_of_isPointer hp
    exact value_lt hvalue
  intro u hu
  cases op with
  | const x => simp [Operation.operands] at hu
  | address g => simp [Operation.operands] at hu
  | arith op left right =>
      simp only [Operation.operands, List.mem_cons, List.not_mem_nil, or_false] at hu
      rcases hu with rfl | rfl
      · exact hnumber h.1
      · exact hnumber h.2
  | slot => simp [Operation.operands] at hu
  | load pointer =>
      simp only [Operation.operands, List.mem_singleton] at hu
      subst hu
      exact hpointer h
  | store value pointer =>
      simp only [Operation.operands, List.mem_cons, List.not_mem_nil, or_false] at hu
      rcases hu with rfl | rfl
      · exact hnumber h.1
      · exact hpointer h.2
  | call callee => simp [Operation.operands] at hu
  | ret value =>
      cases value with
      | none => simp [Operation.operands] at hu
      | some value =>
          simp only [Operation.operands, List.mem_singleton] at hu
          subst hu
          exact hnumber h.2

namespace Extends

theorem isPointer (h : Extends code code') {p : ValueId} (hp : code.IsPointer p) :
    code'.IsPointer p := by
  obtain ⟨op, hop, hpointer⟩ := hp
  exact ⟨op, h.operation hop, hpointer⟩

theorem returning (h : Extends code code') {f : FuncId} {returns : Returns}
    (hf : code.Returning f returns) : code'.Returning f returns := by
  obtain ⟨function, hfunction, hreturns⟩ := hf
  obtain ⟨function', hfunction', -, hreturns', -⟩ := h.func hfunction
  exact ⟨function', hfunction', hreturns'.trans hreturns⟩

theorem admits (h : Extends code code') {f : FuncId} {op : Operation} (hop : code.Admits f op) :
    code'.Admits f op := by
  cases op with
  | const x => exact hop
  | address g => exact hop
  | arith op left right => exact ⟨h.isNumeric hop.1, h.isNumeric hop.2⟩
  | slot => trivial
  | load pointer => exact h.isPointer hop
  | store value pointer => exact ⟨h.isNumeric hop.1, h.isPointer hop.2⟩
  | call callee =>
      obtain ⟨function, hf⟩ := hop
      obtain ⟨function', hf', -⟩ := h.func hf
      exact ⟨function', hf'⟩
  | ret value =>
      cases value with
      | none => exact h.returning hop
      | some value => exact ⟨h.returning hop.1, h.isNumeric hop.2⟩

end Extends

structure Ordered (code : Code) : Prop where
  placed : ∀ {b block v}, code.block? b = some block → v ∈ block.body.toList →
    ∃ value, code.value? v = some value ∧ value.block = some b
  listed : ∀ {v value b}, code.value? v = some value → value.block = some b →
    ∃ block, code.block? b = some block ∧ v ∈ block.body.toList ∧
      code.Admits block.owner value.operation ∧
      ∀ u ∈ value.operation.operands, u.index < v.index
  loose : ∀ {v value}, code.value? v = some value → value.block = none →
    (∃ x, value.operation = .const x) ∨
      ∃ g global, value.operation = .address g ∧ code.global? g = some global
  ascending : ∀ {b block}, code.block? b = some block →
    block.body.toList.Pairwise fun u v => u.index < v.index
  addressed : ∀ {g global}, code.global? g = some global →
    code.operation? global.address = some (.address g)
  zeroed : ∀ {g global}, code.global? g = some global → global.initial = 0.0

theorem ordered_empty (name : String) : Ordered { name } where
  placed h := by simp [block?] at h
  listed h := by simp [value?] at h
  loose h := by simp [value?] at h
  ascending h := by simp [block?] at h
  addressed h := by simp [global?] at h
  zeroed h := by simp [global?] at h

namespace Ordered

theorem index_lt (h : code.Ordered) {b : BlockId} {block : Block} {v : ValueId}
    (hb : code.block? b = some block) (hv : v ∈ block.body.toList) :
    v.index < code.values.size := by
  obtain ⟨value, hvalue, -⟩ := h.placed hb hv
  exact value_lt hvalue

theorem admitted (h : code.Ordered) {b : BlockId} {block : Block} {v : ValueId}
    (hb : code.block? b = some block) (hv : v ∈ block.body.toList) :
    ∃ op, code.operation? v = some op ∧ code.Admits block.owner op ∧
      ∀ u ∈ op.operands, u.index < v.index := by
  obtain ⟨value, hvalue, hblock⟩ := h.placed hb hv
  obtain ⟨block', hb', -, hadmits, hlt⟩ := h.listed hvalue hblock
  rw [hb] at hb'
  cases hb'
  exact ⟨value.operation, operation_of_value hvalue, hadmits, hlt⟩

theorem withConst (h : code.Ordered) (x : Float) : (code.withConst x).Ordered where
  placed hb hv := by
    obtain ⟨value, hvalue, hblock⟩ := h.placed hb hv
    exact ⟨value, (extends_withConst code x).value hvalue, hblock⟩
  listed hv hb := by
    rw [value?_withConst] at hv
    split at hv
    · cases hv
      cases hb
    · obtain ⟨block, hblock, hmem, hadmits, hlt⟩ := h.listed hv hb
      exact ⟨block, hblock, hmem, (extends_withConst code x).admits hadmits, hlt⟩
  loose hv hb := by
    rw [value?_withConst] at hv
    split at hv
    · cases hv
      exact .inl ⟨x, rfl⟩
    · exact h.loose hv hb
  ascending hb := h.ascending hb
  addressed hg := (extends_withConst code x).operation (h.addressed hg)
  zeroed hg := h.zeroed hg

theorem withGlobal (h : code.Ordered) (name : String) : (code.withGlobal name).Ordered where
  placed hb hv := by
    obtain ⟨value, hvalue, hblock⟩ := h.placed hb hv
    exact ⟨value, (extends_withGlobal code name).value hvalue, hblock⟩
  listed hv hb := by
    rw [value?_withGlobal] at hv
    split at hv
    · cases hv
      cases hb
    · obtain ⟨block, hblock, hmem, hadmits, hlt⟩ := h.listed hv hb
      exact ⟨block, hblock, hmem, (extends_withGlobal code name).admits hadmits, hlt⟩
  loose hv hb := by
    rw [value?_withGlobal] at hv
    split at hv
    · cases hv
      exact .inr ⟨_, _, rfl, by rw [global?_withGlobal, if_pos rfl]⟩
    · rcases h.loose hv hb with hconst | ⟨g, global, haddress, hglobal⟩
      · exact .inl hconst
      · exact .inr ⟨g, global, haddress, (extends_withGlobal code name).global hglobal⟩
  ascending hb := h.ascending hb
  addressed {g global} hg := by
    rw [global?_withGlobal] at hg
    split at hg
    next hindex =>
      cases hg
      obtain ⟨i⟩ := g
      subst hindex
      simp [operation?, value?_withGlobal]
    next => exact (extends_withGlobal code name).operation (h.addressed hg)
  zeroed hg := by
    rw [global?_withGlobal] at hg
    split at hg
    · cases hg
      rfl
    · exact h.zeroed hg

theorem withFunction (h : code.Ordered) (name : String) (returns : Returns) :
    (code.withFunction name returns).Ordered where
  placed hb hv := h.placed hb hv
  listed hv hb := by
    obtain ⟨block, hblock, hmem, hadmits, hlt⟩ := h.listed hv hb
    exact ⟨block, hblock, hmem, (extends_withFunction code name returns).admits hadmits, hlt⟩
  loose hv hb := h.loose hv hb
  ascending hb := h.ascending hb
  addressed hg := h.addressed hg
  zeroed hg := h.zeroed hg

theorem withBlock (h : code.Ordered) (name : String) (f : FuncId) :
    (code.withBlock name f).Ordered where
  placed hb hv := by
    rw [block?_withBlock] at hb
    split at hb
    · cases hb
      simp at hv
    · exact h.placed hb hv
  listed hv hb := by
    obtain ⟨block, hblock, hmem, hadmits, hlt⟩ := h.listed hv hb
    refine ⟨block, ?_, hmem, (extends_withBlock code name f).admits hadmits, hlt⟩
    rw [block?_withBlock, if_neg (Nat.ne_of_lt (block_lt hblock))]
    exact hblock
  loose hv hb := h.loose hv hb
  ascending hb := by
    rw [block?_withBlock] at hb
    split at hb
    · cases hb
      exact .nil
    · exact h.ascending hb
  addressed hg := h.addressed hg
  zeroed hg := h.zeroed hg

theorem withInstruction (h : code.Ordered) {b : BlockId} {block : Block} {op : Operation}
    (hb : code.block? b = some block) (hop : code.Admits block.owner op) (name : String) :
    (code.withInstruction b name op).Ordered where
  placed {b' block' v} hb' hv := by
    have hextends := extends_withInstruction code b name op
    rw [block?_withInstruction] at hb'
    split at hb'
    next heq =>
      subst heq
      rw [hb] at hb'
      cases hb'
      simp only [Array.toList_push, List.mem_append, List.mem_singleton] at hv
      rcases hv with hv | rfl
      · obtain ⟨value, hvalue, hblock⟩ := h.placed hb hv
        exact ⟨value, hextends.value hvalue, hblock⟩
      · exact ⟨_, by rw [value?_withInstruction, if_pos rfl], rfl⟩
    next =>
      obtain ⟨value, hvalue, hblock⟩ := h.placed hb' hv
      exact ⟨value, hextends.value hvalue, hblock⟩
  listed {v value b'} hv hb' := by
    have hextends := extends_withInstruction code b name op
    rw [value?_withInstruction] at hv
    split at hv
    next hindex =>
      cases hv
      cases hb'
      refine ⟨_, block?_withInstruction_self hb name op, ?_, hextends.admits hop, ?_⟩
      · obtain ⟨i⟩ := v
        subst hindex
        simp
      · intro u hu
        rw [hindex]
        exact operand_lt hop u hu
    next =>
      obtain ⟨block', hblock', hmem, hadmits, hlt⟩ := h.listed hv hb'
      obtain ⟨block'', hblock'', -, howner, hbody⟩ := hextends.block hblock'
      refine ⟨block'', hblock'', hbody.subset hmem, ?_, hlt⟩
      rw [howner]
      exact hextends.admits hadmits
  loose hv hnone := by
    rw [value?_withInstruction] at hv
    split at hv
    · cases hv
      cases hnone
    · exact h.loose hv hnone
  ascending {b' block'} hb' := by
    rw [block?_withInstruction] at hb'
    split at hb'
    next heq =>
      subst heq
      rw [hb] at hb'
      cases hb'
      simp only [Array.toList_push]
      refine List.pairwise_append.mpr ⟨h.ascending hb, List.pairwise_singleton _ _, ?_⟩
      intro u hu v hv
      rw [List.mem_singleton.mp hv]
      exact h.index_lt hb hu
    next => exact h.ascending hb'
  addressed hg := (extends_withInstruction code b name op).operation (h.addressed hg)
  zeroed hg := h.zeroed hg

end Ordered

end Code

end Niladic
