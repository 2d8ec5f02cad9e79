import Niladic.Proofs.Requests
import Mathlib.Data.List.Nodup

namespace Niladic

section Tables

variable {α β : Type}

theorem findIdx?_name_eq_none_iff {table : Array α} {nameOf : α → String} {n : String} :
    table.findIdx? (nameOf · == n) = none ↔ n ∉ table.toList.map nameOf := by
  simp [Array.findIdx?_eq_none_iff]

theorem findIdx?_name_eq_some_iff {table : Array α} {nameOf : α → String}
    (h : (table.toList.map nameOf).Nodup) {n : String} {i : Nat} :
    table.findIdx? (nameOf · == n) = some i ↔ ∃ a, table[i]? = some a ∧ nameOf a = n := by
  rw [Array.findIdx?_eq_some_iff_getElem]
  constructor
  · rintro ⟨hi, hname, -⟩
    exact ⟨table[i], Array.getElem?_eq_getElem hi, by simpa using hname⟩
  · rintro ⟨a, ha, hname⟩
    obtain ⟨hi, rfl⟩ := Array.getElem?_eq_some_iff.mp ha
    refine ⟨hi, by simpa using hname, fun j hj hother => ?_⟩
    have hj' : j < table.size := Nat.lt_trans hj hi
    have hsame : (table.toList.map nameOf)[j]? = (table.toList.map nameOf)[i]? := by
      simpa [hj', hi, hname] using hother
    exact List.nodup_iff_getElem?_ne_getElem?.mp h j i hj (by simpa using hi) hsame

theorem nodup_flatMap_of_apart {rows : List α} {entries : α → List β}
    (hnodup : ∀ row ∈ rows, (entries row).Nodup)
    (hapart : ∀ {i j : Nat} {row row' x}, rows[i]? = some row → rows[j]? = some row' →
      x ∈ entries row → x ∈ entries row' → i = j) : (rows.flatMap entries).Nodup := by
  refine List.nodup_flatMap.mpr ⟨hnodup, List.pairwise_iff_getElem.mpr ?_⟩
  intro i j hi hj hlt x hx hx'
  have hindex := hapart (List.getElem?_eq_getElem hi) (List.getElem?_eq_getElem hj) hx hx'
  omega

end Tables

namespace Code

variable {code : Code}

def functionNames (code : Code) : List String := code.functions.toList.map Func.name

def globalNames (code : Code) : List String := code.globals.toList.map Global.name

def listedBlocks (code : Code) : List BlockId :=
  code.functions.toList.flatMap fun function => function.blocks.toList

def listedValues (code : Code) : List ValueId :=
  code.blocks.toList.flatMap fun block => block.body.toList

structure WellMade (code : Code) : Prop where
  names : (code.functionNames ++ code.globalNames).Nodup
  functions : ∀ {n f}, code.findFunction? n = some f ↔
    ∃ function, code.func? f = some function ∧ function.name = n
  globals : ∀ {n g}, code.findGlobal? n = some g ↔
    ∃ global, code.global? g = some global ∧ global.name = n
  blocks : ∀ {b block}, code.block? b = some block → code.listedBlocks.count b = 1 ∧
    ∃ function, code.func? block.owner = some function ∧ b ∈ function.blocks.toList
  loose : ∀ {v value}, code.value? v = some value →
    (value.block = none ↔ (∃ x, value.operation = .const x) ∨ ∃ g, value.operation = .address g)
  placed : ∀ {v value b}, code.value? v = some value → value.block = some b →
    code.listedValues.count v = 1 ∧ ∃ block, code.block? b = some block ∧ v ∈ block.body.toList
  ascending : ∀ {b block}, code.block? b = some block →
    block.body.toList.Pairwise fun u v => u.index < v.index
  operands : ∀ {v value}, code.value? v = some value →
    ∀ u ∈ value.operation.operands, u.index < v.index
  callees : ∀ {v value f}, code.value? v = some value → value.operation = .call f →
    ∃ function, code.func? f = some function
  addresses : ∀ {g global}, code.global? g = some global →
    code.operation? global.address = some (.address g)

structure Distinct (code : Code) : Prop where
  housed : code.Housed
  names : (code.functionNames ++ code.globalNames).Nodup
  blocks : ∀ {f function}, code.func? f = some function → function.blocks.toList.Nodup

theorem distinct_empty (name : String) : Distinct { name } where
  housed := housed_empty name
  names := List.nodup_nil
  blocks h := by simp [func?] at h

theorem findFunction?_eq_none_iff {n : String} :
    code.findFunction? n = none ↔ n ∉ code.functionNames := by
  rw [findFunction?, Option.map_eq_none_iff]
  exact findIdx?_name_eq_none_iff

theorem findGlobal?_eq_none_iff {n : String} :
    code.findGlobal? n = none ↔ n ∉ code.globalNames := by
  rw [findGlobal?, Option.map_eq_none_iff]
  exact findIdx?_name_eq_none_iff

theorem name_free {n : String} (hf : code.findFunction? n = none)
    (hg : code.findGlobal? n = none) : n ∉ code.functionNames ++ code.globalNames := by
  rw [List.mem_append, not_or]
  exact ⟨findFunction?_eq_none_iff.mp hf, findGlobal?_eq_none_iff.mp hg⟩

theorem functionNames_withFunction (n : String) (returns : Returns) :
    (code.withFunction n returns).functionNames = code.functionNames ++ [n] := by
  simp [functionNames, withFunction]

theorem globalNames_withGlobal (n : String) :
    (code.withGlobal n).globalNames = code.globalNames ++ [n] := by
  simp [globalNames, withGlobal]

theorem functionNames_withBlock (name : String) (f : FuncId) :
    (code.withBlock name f).functionNames = code.functionNames := by
  refine List.ext_getElem? fun i => ?_
  simp only [functionNames, withBlock, List.getElem?_map, Array.getElem?_toList,
    Array.getElem?_modify]
  split
  · cases code.functions[i]? <;> rfl
  · rfl

namespace Distinct

theorem withConst (h : code.Distinct) (x : Float) : (code.withConst x).Distinct where
  housed := h.housed.withConst x
  names := h.names
  blocks := h.blocks

theorem withInstruction (h : code.Distinct) {b : BlockId} {block : Block} {op : Operation}
    (hb : code.block? b = some block) (hop : code.Admits block.owner op) (name : String) :
    (code.withInstruction b name op).Distinct where
  housed := h.housed.withInstruction hb hop name
  names := h.names
  blocks := h.blocks

theorem withFunction (h : code.Distinct) {n : String} (hf : code.findFunction? n = none)
    (hg : code.findGlobal? n = none) (returns : Returns) :
    (code.withFunction n returns).Distinct where
  housed := h.housed.withFunction n returns
  names := by
    rw [functionNames_withFunction, List.append_assoc, List.singleton_append]
    exact List.nodup_middle.mpr (List.nodup_cons.mpr ⟨name_free hf hg, h.names⟩)
  blocks hf' := by
    rw [func?_withFunction] at hf'
    split at hf'
    · cases hf'
      exact List.nodup_nil
    · exact h.blocks hf'

theorem withGlobal (h : code.Distinct) {n : String} (hg : code.findGlobal? n = none)
    (hf : code.findFunction? n = none) : (code.withGlobal n).Distinct where
  housed := h.housed.withGlobal n
  names := by
    rw [globalNames_withGlobal, ← List.append_assoc]
    exact List.nodup_append_comm.mp (List.nodup_cons.mpr ⟨name_free hf hg, h.names⟩)
  blocks := h.blocks

theorem withBlock (h : code.Distinct) {f : FuncId} (hf : f.index < code.functions.size)
    (name : String) : (code.withBlock name f).Distinct where
  housed := h.housed.withBlock name hf
  names := by
    rw [functionNames_withBlock]
    exact h.names
  blocks {f' function} hf' := by
    rw [func?_withBlock] at hf'
    split at hf'
    next heq =>
      subst heq
      obtain ⟨function', hfunction', rfl⟩ := Option.map_eq_some_iff.mp hf'
      have hnew : (⟨code.blocks.size⟩ : BlockId) ∉ function'.blocks.toList := by
        intro hmem
        obtain ⟨block, hb, -⟩ := h.housed.owned hfunction' hmem
        exact absurd (block_lt hb) (Nat.lt_irrefl _)
      rw [Array.toList_push]
      exact List.nodup_append_comm.mp (List.nodup_cons.mpr ⟨hnew, h.blocks hfunction'⟩)
    next => exact h.blocks hf'

theorem nodup_listedBlocks (h : code.Distinct) : code.listedBlocks.Nodup := by
  refine nodup_flatMap_of_apart (fun function hfunction => ?_) ?_
  · obtain ⟨i, hi⟩ := List.mem_iff_getElem?.mp hfunction
    rw [Array.getElem?_toList] at hi
    exact h.blocks (f := ⟨i⟩) hi
  · intro i j function function' b hi hj hb hb'
    rw [Array.getElem?_toList] at hi hj
    obtain ⟨block, hblock, howner⟩ := h.housed.owned (f := ⟨i⟩) hi hb
    obtain ⟨block', hblock', howner'⟩ := h.housed.owned (f := ⟨j⟩) hj hb'
    rw [hblock] at hblock'
    cases hblock'
    rw [howner] at howner'
    exact congrArg FuncId.index howner'

end Distinct

namespace Ordered

theorem nodup_listedValues (h : code.Ordered) : code.listedValues.Nodup := by
  refine nodup_flatMap_of_apart (fun block hblock => ?_) ?_
  · obtain ⟨i, hi⟩ := List.mem_iff_getElem?.mp hblock
    rw [Array.getElem?_toList] at hi
    refine (h.ascending (b := ⟨i⟩) hi).imp fun hlt heq => ?_
    rw [heq] at hlt
    exact Nat.lt_irrefl _ hlt
  · intro i j block block' v hi hj hv hv'
    rw [Array.getElem?_toList] at hi hj
    obtain ⟨value, hvalue, hplaced⟩ := h.placed (b := ⟨i⟩) hi hv
    obtain ⟨value', hvalue', hplaced'⟩ := h.placed (b := ⟨j⟩) hj hv'
    rw [hvalue] at hvalue'
    cases hvalue'
    rw [hplaced] at hplaced'
    exact congrArg BlockId.index (Option.some.inj hplaced')

theorem loose_iff (h : code.Ordered) {v : ValueId} {value : Value}
    (hv : code.value? v = some value) : value.block = none ↔
      (∃ x, value.operation = .const x) ∨ ∃ g, value.operation = .address g := by
  constructor
  · intro hnone
    rcases h.loose hv hnone with hconst | ⟨g, -, haddress, -⟩
    · exact .inl hconst
    · exact .inr ⟨g, haddress⟩
  · intro hloose
    cases hblock : value.block with
    | none => rfl
    | some b =>
        obtain ⟨block, -, -, hadmits, -⟩ := h.listed hv hblock
        rcases hloose with ⟨x, hop⟩ | ⟨g, hop⟩
        · rw [hop] at hadmits
          exact hadmits.elim
        · rw [hop] at hadmits
          exact hadmits.elim

theorem operands_lt (h : code.Ordered) {v : ValueId} {value : Value}
    (hv : code.value? v = some value) : ∀ u ∈ value.operation.operands, u.index < v.index := by
  cases hblock : value.block with
  | none =>
      rcases (h.loose_iff hv).mp hblock with ⟨x, hop⟩ | ⟨g, hop⟩
      · simp [hop, Operation.operands]
      · simp [hop, Operation.operands]
  | some b =>
      obtain ⟨block, -, -, -, hlt⟩ := h.listed hv hblock
      exact hlt

theorem callee (h : code.Ordered) {v : ValueId} {value : Value} {f : FuncId}
    (hv : code.value? v = some value) (hop : value.operation = .call f) :
    ∃ function, code.func? f = some function := by
  cases hblock : value.block with
  | none =>
      rcases (h.loose_iff hv).mp hblock with ⟨x, hconst⟩ | ⟨g, haddress⟩
      · rw [hop] at hconst
        cases hconst
      · rw [hop] at haddress
        cases haddress
  | some b =>
      obtain ⟨block, -, -, hadmits, -⟩ := h.listed hv hblock
      rw [hop] at hadmits
      exact hadmits

theorem isNumeric (h : code.Ordered) {v : ValueId} {value : Value}
    (hv : code.value? v = some value) : ∃ numeric, code.isNumeric? v = some numeric := by
  unfold isNumeric?
  rw [operation_of_value hv]
  cases hop : value.operation with
  | call f =>
      obtain ⟨function, hf⟩ := h.callee hv hop
      exact ⟨function.returns == .number, by simp [hf]⟩
  | _ => exact ⟨_, rfl⟩

end Ordered

theorem Distinct.wellMade (h : code.Distinct) : code.WellMade where
  names := h.names
  functions {n f} := by
    have hnodup := (List.nodup_append.mp h.names).1
    rw [findFunction?, Option.map_eq_some_iff]
    constructor
    · rintro ⟨i, hi, rfl⟩
      exact (findIdx?_name_eq_some_iff hnodup).mp hi
    · intro hf
      exact ⟨f.index, (findIdx?_name_eq_some_iff hnodup).mpr hf, rfl⟩
  globals {n g} := by
    have hnodup := (List.nodup_append.mp h.names).2.1
    rw [findGlobal?, Option.map_eq_some_iff]
    constructor
    · rintro ⟨i, hi, rfl⟩
      exact (findIdx?_name_eq_some_iff hnodup).mp hi
    · intro hg
      exact ⟨g.index, (findIdx?_name_eq_some_iff hnodup).mpr hg, rfl⟩
  blocks {b block} hb := by
    obtain ⟨function, hf, hmem⟩ := h.housed.listed hb
    have hlisted : b ∈ code.listedBlocks := by
      refine List.mem_flatMap.mpr ⟨function, ?_, hmem⟩
      simpa using Array.mem_of_getElem? hf
    exact ⟨List.count_eq_one_of_mem h.nodup_listedBlocks hlisted, function, hf, hmem⟩
  loose hv := h.housed.ordered.loose_iff hv
  placed {v value b} hv hblock := by
    obtain ⟨block, hb, hmem, -⟩ := h.housed.ordered.listed hv hblock
    have hlisted : v ∈ code.listedValues := by
      refine List.mem_flatMap.mpr ⟨block, ?_, hmem⟩
      simpa using Array.mem_of_getElem? hb
    exact ⟨List.count_eq_one_of_mem h.housed.ordered.nodup_listedValues hlisted, block, hb, hmem⟩
  ascending hb := h.housed.ordered.ascending hb
  operands hv := h.housed.ordered.operands_lt hv
  callees hv hop := h.housed.ordered.callee hv hop
  addresses hg := h.housed.ordered.addressed hg

end Code

namespace Draft

open Niladic.Action

variable {d d' : Draft}

theorem Grows.code (h : d.Grows d') : d.code.Extends d'.code := by
  cases h with
  | emits h => exact h.code
  | moved cursor => exact .refl _
  | function hf hg returns => exact Code.extends_withFunction ..
  | block hf name => exact Code.extends_withBlock ..
  | global hg hf => exact Code.extends_withGlobal ..

theorem Grows.distinct (h : d.Grows d') (hd : d.code.Distinct) : d'.code.Distinct := by
  cases h with
  | emits h =>
      cases h with
      | idle => exact hd
      | const x => exact hd.withConst x
      | instruction hc hb hop name => exact hd.withInstruction hb hop _
  | moved cursor => exact hd
  | function hf hg returns => exact hd.withFunction hf hg returns
  | block hf name => exact hd.withBlock hf name
  | global hg hf => exact hd.withGlobal hg hf

inductive Handle where
  | function (f : FuncId)
  | block (b : BlockId)
  | value (v : ValueId)
  | global (g : GlobalId)
deriving DecidableEq

def Handle.Points (code : Code) : Handle → Prop
  | .function f => ∃ function, code.func? f = some function
  | .block b => ∃ block, code.block? b = some block
  | .value v => ∃ value, code.value? v = some value
  | .global g => ∃ global, code.global? g = some global

theorem Handle.Points.mono {code code' : Code} {handle : Handle} (h : handle.Points code)
    (hcode : code.Extends code') : handle.Points code' := by
  cases handle with
  | function f =>
      obtain ⟨function, hf⟩ := h
      obtain ⟨function', hf', -⟩ := hcode.func hf
      exact ⟨function', hf'⟩
  | block b =>
      obtain ⟨block, hb⟩ := h
      obtain ⟨block', hb', -⟩ := hcode.block hb
      exact ⟨block', hb'⟩
  | value v =>
      obtain ⟨value, hv⟩ := h
      exact ⟨value, hcode.value hv⟩
  | global g =>
      obtain ⟨global, hg⟩ := h
      exact ⟨global, hcode.global hg⟩

def Held (d : Draft) : Prop := ∀ b, d.cursor = some b → (Handle.block b).Points d.code

theorem held_of_none (h : d.cursor = none) : d.Held := by
  intro b hb
  rw [h] at hb
  cases hb

theorem Held.mono (h : d.Held) (hcode : d.code.Extends d'.code) (hcursor : d'.cursor = d.cursor) :
    d'.Held := by
  intro b hb
  rw [hcursor] at hb
  exact (h b hb).mono hcode

section Atomic

variable {α : Type}

def Yields (handle : α → Handle) (a : α) (d : Draft) : Prop := d.Held ∧ (handle a).Points d.code

theorem append_atomic (h : d.Held) (name : String) (op : Operation) :
    Atomic (Yields .value) d (append name op d) := by
  rcases here_cases d with ⟨b, hc, hhere⟩ | ⟨e, hhere⟩
  · obtain ⟨block, hb⟩ := h b hc
    rw [append_eq hc hb]
    exact ⟨h.mono (Code.extends_withInstruction ..) rfl, _,
      (Code.value?_withInstruction ..).trans (if_pos rfl)⟩
  · exact .of_error (bind_of_error hhere)

theorem append_discard_atomic (h : d.Held) (name : String) (op : Operation) :
    Atomic (fun _ d' => d'.Held) d (discard (append name op) d) :=
  (append_atomic h name op).discard fun _ _ hyields => hyields.1

theorem expectNumeric_atomic (h : d.code.Ordered) {v : ValueId}
    (hv : (Handle.value v).Points d.code) (user : String) :
    Atomic (fun _ d' => d' = d) d (expectNumeric user v d) := by
  obtain ⟨value, hvalue⟩ := hv
  obtain ⟨numeric, hnumeric⟩ := h.isNumeric hvalue
  unfold expectNumeric
  rw [bind_of_ok (get_apply d), hnumeric, Code.operation_of_value hvalue]
  cases numeric with
  | true => exact rfl
  | false => exact rfl

theorem expectPointer_atomic {p : ValueId} (hp : (Handle.value p).Points d.code) :
    Atomic (fun _ d' => d' = d) d (expectPointer p d) := by
  obtain ⟨value, hvalue⟩ := hp
  unfold expectPointer
  rw [bind_of_ok (get_apply d), Code.operation_of_value hvalue, resolve_some,
    bind_of_ok (pure_apply _ d)]
  split
  · exact rfl
  · exact rfl

theorem returns_atomic (h : d.code.Housed) (hd : d.Held) :
    Atomic (fun _ d' => d' = d) d (returns d) := by
  rcases here_cases d with ⟨b, hc, hhere⟩ | ⟨e, hhere⟩
  · obtain ⟨block, hb⟩ := hd b hc
    obtain ⟨function, hf, -⟩ := h.listed hb
    rw [returns_eq hc hb hf]
    exact rfl
  · exact .of_error (bind_of_error hhere)

theorem function_atomic (h : d.Held) (name : String) (returns : Returns) :
    Atomic (Yields .function) d (function name returns d) := by
  rcases function_cases name returns d with ⟨hf, hg⟩ | ⟨e, heq⟩
  · rw [function_eq hf hg]
    exact ⟨h.mono (Code.extends_withFunction ..) rfl, _,
      (Code.func?_withFunction ..).trans (if_pos rfl)⟩
  · exact .of_error heq

theorem block_atomic (h : d.Held) (name : String) (f : FuncId) :
    Atomic (Yields .block) d (Draft.block name f d) := by
  rcases block_cases name f d with hf | ⟨e, heq⟩
  · rw [block_eq hf]
    exact ⟨h.mono (Code.extends_withBlock ..) rfl, _,
      (Code.block?_withBlock ..).trans (if_pos rfl)⟩
  · exact .of_error heq

theorem global_atomic (h : d.Held) (name : String) :
    Atomic (Yields .global) d (global name d) := by
  rcases global_cases name d with ⟨hg, hf⟩ | ⟨e, heq⟩
  · rw [global_eq hg hf]
    exact ⟨h.mono (Code.extends_withGlobal ..) rfl, _,
      (Code.global?_withGlobal ..).trans (if_pos rfl)⟩
  · exact .of_error heq

theorem const_atomic (h : d.Held) (x : Float) : Atomic (Yields .value) d (const x d) := by
  rw [const_eq]
  exact ⟨h.mono (Code.extends_withConst ..) rfl, _,
    (Code.value?_withConst ..).trans (if_pos rfl)⟩

theorem pointer_atomic (h : d.code.Ordered) (hd : d.Held) {g : GlobalId}
    (hg : (Handle.global g).Points d.code) : Atomic (Yields .value) d (pointer g d) := by
  obtain ⟨global, hglobal⟩ := hg
  obtain ⟨value, hvalue, -⟩ := Code.value_of_operation (h.addressed hglobal)
  rw [pointer_eq hglobal]
  exact ⟨hd, value, hvalue⟩

theorem arith_atomic (h : d.code.Ordered) (hd : d.Held) {left right : ValueId}
    (hl : (Handle.value left).Points d.code) (hr : (Handle.value right).Points d.code)
    (op : Operator) : Atomic (Yields .value) d (arith op left right d) :=
  (expectNumeric_atomic h hl _).bind fun _ =>
    (expectNumeric_atomic h hr _).bind fun _ => append_atomic hd _ _

theorem load_atomic (hd : d.Held) {p : ValueId} (hp : (Handle.value p).Points d.code)
    (name : String) : Atomic (Yields .value) d (load p name d) :=
  (expectPointer_atomic hp).bind fun _ => append_atomic hd _ _

theorem store_atomic (h : d.code.Ordered) (hd : d.Held) {v p : ValueId}
    (hv : (Handle.value v).Points d.code) (hp : (Handle.value p).Points d.code) :
    Atomic (fun _ d' => d'.Held) d (store v p d) :=
  (expectNumeric_atomic h hv _).bind fun _ =>
    (expectPointer_atomic hp).bind fun _ => append_discard_atomic hd _ _

theorem call_atomic (hd : d.Held) {f : FuncId} (hf : (Handle.function f).Points d.code) :
    Atomic (Yields .value) d (call f d) := by
  obtain ⟨function, hfunction⟩ := hf
  rw [call_unfold hfunction]
  exact append_atomic hd _ _

theorem ret_atomic (h : d.code.Housed) (hd : d.Held) {v : ValueId}
    (hv : (Handle.value v).Points d.code) : Atomic (fun _ d' => d'.Held) d (ret v d) := by
  refine (returns_atomic h hd).bind fun returns => ?_
  cases returns with
  | void => exact rfl
  | number =>
      exact (expectNumeric_atomic h.ordered hv _).bind fun _ => append_discard_atomic hd _ _

theorem retVoid_atomic (h : d.code.Housed) (hd : d.Held) :
    Atomic (fun _ d' => d'.Held) d (retVoid d) := by
  refine (returns_atomic h hd).bind fun returns => ?_
  cases returns with
  | void => exact append_discard_atomic hd _ _
  | number => exact rfl

end Atomic

namespace Request

/-- The handles that a request uses. The function of a new block is not among them: it need not
exist. -/
def handles : Request → List Handle
  | .function .. | .block .. | .global _ | .clear | .const _ | .slot _ | .retVoid => []
  | .position b => [.block b]
  | .pointer g => [.global g]
  | .arith _ left right => [.value left, .value right]
  | .load p _ => [.value p]
  | .store value p => [.value value, .value p]
  | .call f => [.function f]
  | .ret value => [.value value]

def gives {α : Type} (handle : α → Handle) (x : Action Draft α) : Action Draft (List Handle) := do
  return [handle (← x)]

def givesNothing (x : Action Draft Unit) : Action Draft (List Handle) := do
  x
  return []

def answer : Request → Action Draft (List Handle)
  | .function name returns => gives .function (Draft.function name returns)
  | .block name f => gives .block (Draft.block name f)
  | .global name => gives .global (Draft.global name)
  | .position b => givesNothing (Draft.position b)
  | .clear => givesNothing Draft.clear
  | .const x => gives .value (Draft.const x)
  | .pointer g => gives .value (Draft.pointer g)
  | .slot name => gives .value (Draft.slot name)
  | .arith op left right => gives .value (Draft.arith op left right)
  | .load p name => gives .value (Draft.load p name)
  | .store value p => givesNothing (Draft.store value p)
  | .call f => gives .value (Draft.call f)
  | .ret value => givesNothing (Draft.ret value)
  | .retVoid => givesNothing Draft.retVoid

def Grants (new : List Handle) (d : Draft) : Prop :=
  d.Held ∧ ∀ handle ∈ new, handle.Points d.code

theorem gives_atomic {α : Type} {handle : α → Handle} {x : Action Draft α}
    (hx : Atomic (Yields handle) d (x d)) : Atomic Grants d (gives handle x d) := by
  refine hx.map fun a d' hyields => ⟨hyields.1, fun other hother => ?_⟩
  rw [List.mem_singleton.mp hother]
  exact hyields.2

theorem givesNothing_atomic {x : Action Draft Unit} (hx : Atomic (fun _ d' => d'.Held) d (x d)) :
    Atomic Grants d (givesNothing x d) :=
  hx.map fun _ _ hheld => ⟨hheld, fun _ hmem => absurd hmem List.not_mem_nil⟩

theorem answer_atomic {request : Request} (h : d.code.Housed) (hd : d.Held)
    (hpoints : ∀ handle ∈ request.handles, handle.Points d.code) :
    Atomic Grants d (request.answer d) := by
  cases request with
  | function name returns => exact gives_atomic (function_atomic hd name returns)
  | block name f => exact gives_atomic (block_atomic hd name f)
  | global name => exact gives_atomic (global_atomic hd name)
  | position b =>
      refine givesNothing_atomic fun b' hb' => ?_
      cases hb'
      exact hpoints (.block b) (by simp [handles])
  | clear => exact givesNothing_atomic (x := Draft.clear) (held_of_none rfl)
  | const x => exact gives_atomic (const_atomic hd x)
  | pointer g =>
      exact gives_atomic (pointer_atomic h.ordered hd (hpoints (.global g) (by simp [handles])))
  | slot name => exact gives_atomic (append_atomic hd name _)
  | arith op left right =>
      exact gives_atomic (arith_atomic h.ordered hd (hpoints (.value left) (by simp [handles]))
        (hpoints (.value right) (by simp [handles])) op)
  | load p name =>
      exact gives_atomic (load_atomic hd (hpoints (.value p) (by simp [handles])) name)
  | store value p =>
      exact givesNothing_atomic (store_atomic h.ordered hd
        (hpoints (.value value) (by simp [handles])) (hpoints (.value p) (by simp [handles])))
  | call f => exact gives_atomic (call_atomic hd (hpoints (.function f) (by simp [handles])))
  | ret value =>
      exact givesNothing_atomic (ret_atomic h hd (hpoints (.value value) (by simp [handles])))
  | retVoid => exact givesNothing_atomic (retVoid_atomic h hd)

theorem run_of_answer {request : Request} {new : List Handle}
    (h : request.answer d = .ok new d') : request.run d = .ok () d' := by
  cases request with
  | position b | clear | store value p | ret value | retVoid =>
      obtain ⟨_, d₁, hok, hpure⟩ := bind_eq_ok h
      cases hpure
      exact hok
  | _ =>
      obtain ⟨a, d₁, hok, hpure⟩ := bind_eq_ok h
      cases hpure
      exact discard_of_ok hok

/-- Makes the requests one after another, each of which may be refused. A request that uses a handle
that was not given out is left out. -/
def session (given : List Handle) : List Request → Action Draft (List Handle)
  | [] => return given
  | request :: rest => do
      if request.handles.all given.contains then
        let result ← attempt request.answer
        session (result.toOption.getD [] ++ given) rest
      else session given rest

end Request

structure Sound (given : List Handle) (d : Draft) : Prop where
  distinct : d.code.Distinct
  held : d.Held
  points : ∀ handle ∈ given, handle.Points d.code

namespace Sound

variable {given : List Handle}

theorem answered_or_refused (h : Sound given d) {request : Request}
    (hhandles : request.handles ⊆ given) :
    (∃ new d', request.answer d = .ok new d' ∧ Sound (new ++ given) d') ∨
      ∃ e, request.answer d = .error (.error e) d := by
  have hatomic := Request.answer_atomic h.distinct.housed h.held fun handle hmem =>
    h.points handle (hhandles hmem)
  rcases hatomic.cases with ⟨new, d', hok, hheld, hnew⟩ | herror
  · have hgrows := request.run_grows.of_ok (Request.run_of_answer hok)
    refine .inl ⟨new, d', hok, hgrows.distinct h.distinct, hheld, fun handle hmem => ?_⟩
    rcases List.mem_append.mp hmem with hmem | hmem
    · exact hnew handle hmem
    · exact (h.points handle hmem).mono hgrows.code
  · exact .inr herror

theorem session (h : Sound given d) (requests : List Request) :
    ∃ given' d', Request.session given requests d = .ok given' d' ∧ Sound given' d' := by
  induction requests generalizing given d with
  | nil => exact ⟨given, d, rfl, h⟩
  | cons request rest ih =>
      rw [Request.session]
      split
      next hall =>
        have hhandles : request.handles ⊆ given := by
          intro handle hmem
          exact List.contains_iff_mem.mp (List.all_eq_true.mp hall handle hmem)
        rcases h.answered_or_refused hhandles with ⟨new, d', hok, hsound⟩ | ⟨e, herror⟩
        · rw [bind_of_ok (attempt_of_ok hok)]
          exact ih hsound
        · rw [bind_of_ok (attempt_of_error herror)]
          exact ih h
      next => exact ih h

end Sound

theorem start_sound (name : String) (depth : Nat) : Sound [] { code := { name }, depth } where
  distinct := Code.distinct_empty name
  held := held_of_none rfl
  points _ hmem := absurd hmem List.not_mem_nil

/-- Every session goes through and leaves well-made code. Whatever could be asked for next is either
answered, or it is refused and nothing has changed. -/
theorem sessions_leave_well_made_code (name : String) (depth : Nat) (requests : List Request) :
    ∃ given d, Request.session [] requests { code := { name }, depth } = .ok given d ∧
      d.code.WellMade ∧ ∀ request : Request, request.handles ⊆ given →
        (∃ new d', request.answer d = .ok new d') ∨
          ∃ e, request.answer d = .error (.error e) d := by
  obtain ⟨given, d, hsession, hsound⟩ := (start_sound name depth).session requests
  refine ⟨given, d, hsession, hsound.distinct.wellMade, fun request hhandles => ?_⟩
  rcases hsound.answered_or_refused hhandles with ⟨new, d', hok, -⟩ | herror
  · exact .inl ⟨new, d', hok⟩
  · exact .inr herror

-- The second name is refused, and the store through a handle of nothing is left out.
example : (Request.session [] [.function "f" .void, .global "f", .block "entry" ⟨0⟩, .position ⟨0⟩,
    .const 1.0, .store ⟨0⟩ ⟨7⟩, .slot "x", .store ⟨0⟩ ⟨1⟩]).outcome { code := { name := "m" } } =
      .ok [.value ⟨1⟩, .value ⟨0⟩, .block ⟨0⟩, .function ⟨0⟩] := by
  decide +kernel

end Draft

end Niladic
