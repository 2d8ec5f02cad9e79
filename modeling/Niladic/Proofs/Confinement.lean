import Niladic.Proofs.Checking
import Niladic.Proofs.Recursion

namespace Niladic

namespace Code

structure Runnable (code : Code) : Prop where
  entered : ∀ {f function b}, code.func? f = some function → function.blocks[0]? = some b →
    ∃ block, code.block? b = some block ∧ code.Closed f block.body.toList ∧
      ∀ v ∈ block.body.toList, ∃ op, code.operation? v = some op ∧ code.Admits f op
  addressed : ∀ {p g}, code.operation? p = some (.address g) → g.index < code.globals.size

variable {code : Code} {b : BlockId} {block : Block}

theorem Ordered.addressed_lt (h : code.Ordered) {p : ValueId} {g : GlobalId}
    (hp : code.operation? p = some (.address g)) : g.index < code.globals.size := by
  obtain ⟨value, hvalue, hop⟩ := value_of_operation hp
  cases hblock : value.block with
  | some b =>
      obtain ⟨block, -, -, hadmits, -⟩ := h.listed hvalue hblock
      rw [hop] at hadmits
      exact hadmits.elim
  | none =>
      rcases h.loose hvalue hblock with ⟨x, hx⟩ | ⟨g', global, hg', hglobal⟩
      · rw [hop] at hx
        cases hx
      · rw [hop] at hg'
        cases hg'
        exact global_lt hglobal

theorem Ordered.loose_or_mem (h : code.Ordered) (hb : code.block? b = some block)
    (hsole : ∀ {b' block'}, code.block? b' = some block' → block'.owner = block.owner → b' = b)
    {u : ValueId} (hu : code.Local block.owner u) : code.Loose u ∨ u ∈ block.body.toList := by
  unfold Local owner? at hu
  cases hvalue : code.value? u with
  | none => simp [hvalue] at hu
  | some value =>
      cases hblock : value.block with
      | none =>
          have hop := operation_of_value hvalue
          rcases h.loose hvalue hblock with ⟨x, hx⟩ | ⟨g, global, hg, hglobal⟩
          · exact .inl (.inl ⟨x, hx ▸ hop⟩)
          · exact .inl (.inr ⟨g, global, hg ▸ hop, hglobal⟩)
      | some b' =>
          obtain ⟨block', hb', hmem, -⟩ := h.listed hvalue hblock
          simp only [hvalue, hblock, hb', Option.map_some, Option.some.injEq, reduceCtorEq,
            false_or] at hu
          have hsame := hsole hb' hu
          subst hsame
          rw [hb] at hb'
          cases hb'
          exact .inr hmem

theorem Ordered.operand_before (h : code.Ordered) (hb : code.block? b = some block)
    (hsole : ∀ {b' block'}, code.block? b' = some block' → block'.owner = block.owner → b' = b)
    (hclosed : code.Closed block.owner block.body.toList) {v u : ValueId} {op : Operation}
    {done rest : List ValueId} (hbody : block.body.toList = done ++ v :: rest)
    (hop : code.operation? v = some op) (hu : u ∈ op.operands) : code.Loose u ∨ u ∈ done := by
  have hv : v ∈ block.body.toList := by simp [hbody]
  rcases h.loose_or_mem hb hsole (hclosed.localOperands v hv op hop u hu) with hloose | hmem
  · exact .inl hloose
  · obtain ⟨op', hop', -, hlt⟩ := h.admitted hb hv
    rw [hop] at hop'
    cases hop'
    have hlt := hlt u hu
    have hascending := h.ascending hb
    rw [hbody, List.pairwise_append] at hascending
    rw [hbody, List.mem_append, List.mem_cons] at hmem
    rcases hmem with hdone | rfl | hrest
    · exact .inr hdone
    · exact absurd hlt (Nat.lt_irrefl _)
    · have hgt := (List.pairwise_cons.mp hascending.2.1).1 u hrest
      omega

end Code

namespace Machine

open Niladic.Action Code

variable {code : Code} {frame : Frame} {cells : Array Float} {done : List ValueId} {P : Trap → Prop}

structure Holds (code : Code) (frame : Frame) (done : List ValueId) : Prop where
  numbers : ∀ v ∈ done, code.IsNumber v → ∃ x, frame.values[v]? = some x
  slots : ∀ v ∈ done, code.operation? v = some .slot → ∃ x, frame.slots[v]? = some x

theorem Holds.nil (code : Code) (frame : Frame) : Holds code frame [] where
  numbers _ hv := absurd hv List.not_mem_nil
  slots _ hv := absurd hv List.not_mem_nil

theorem Holds.append {frame' : Frame} {v : ValueId} (hframe : Holds code frame done)
    (hvalues : ∀ u : ValueId, (∃ x, frame.values[u]? = some x) → ∃ x, frame'.values[u]? = some x)
    (hslots : ∀ u : ValueId, (∃ x, frame.slots[u]? = some x) → ∃ x, frame'.slots[u]? = some x)
    (hnumber : code.IsNumber v → ∃ x, frame'.values[v]? = some x)
    (hslot : code.operation? v = some .slot → ∃ x, frame'.slots[v]? = some x) :
    Holds code frame' (done ++ [v]) where
  numbers u hu hnumeric := by
    rcases List.mem_append.mp hu with hu | hu
    · exact hvalues u (hframe.numbers u hu hnumeric)
    · rw [List.mem_singleton] at hu
      subst hu
      exact hnumber hnumeric
  slots u hu hop := by
    rcases List.mem_append.mp hu with hu | hu
    · exact hslots u (hframe.slots u hu hop)
    · rw [List.mem_singleton] at hu
      subst hu
      exact hslot hop

theorem getElem?_insert_some (map : Std.HashMap ValueId Float) (v : ValueId) (x : Float)
    {u : ValueId} (hu : u = v ∨ ∃ y, map[u]? = some y) : ∃ y, (map.insert v x)[u]? = some y := by
  rw [Std.HashMap.getElem?_insert]
  split
  · exact ⟨x, rfl⟩
  next hne =>
    rcases hu with rfl | hu
    · simp at hne
    · exact hu

theorem Holds.define {v : ValueId} (hframe : Holds code frame done)
    (hslot : code.operation? v ≠ some .slot) (x : Float) :
    Holds code (frame.advance.define v x) (done ++ [v]) :=
  hframe.append (fun _ hu => getElem?_insert_some _ v x (.inr hu)) (fun _ hu => hu)
    (fun _ => getElem?_insert_some _ v x (.inl rfl)) (fun h => (hslot h).elim)

theorem Holds.allocate {v : ValueId} (hframe : Holds code frame done)
    (hslot : code.operation? v = some .slot) (x : Float) :
    Holds code (frame.advance.setSlot v x) (done ++ [v]) :=
  hframe.append (fun _ hu => hu) (fun _ hu => getElem?_insert_some _ v x (.inr hu))
    (fun h => by simp [IsNumber, isNumeric?, hslot] at h)
    (fun _ => getElem?_insert_some _ v x (.inl rfl))

theorem Holds.advance {v : ValueId} (hframe : Holds code frame done) (hnumber : ¬ code.IsNumber v)
    (hslot : code.operation? v ≠ some .slot) : Holds code frame.advance (done ++ [v]) :=
  hframe.append (fun _ hu => hu) (fun _ hu => hu) (fun h => (hnumber h).elim)
    (fun h => (hslot h).elim)

theorem Holds.setSlot {v : ValueId} (hframe : Holds code frame done) (hnumber : ¬ code.IsNumber v)
    (hslot : code.operation? v ≠ some .slot) (p : ValueId) (x : Float) :
    Holds code (frame.advance.setSlot p x) (done ++ [v]) :=
  hframe.append (fun _ hu => hu) (fun _ hu => getElem?_insert_some _ p x (.inr hu))
    (fun h => (hnumber h).elim) (fun h => (hslot h).elim)

inductive Missing (code : Code) (frame : Frame) : ValueId → Trap → Prop
  | undefined {u : ValueId} (hnumber : code.IsNumber u)
      (hconst : ∀ x, code.operation? u ≠ some (.const x)) (hvalue : frame.values[u]? = none) :
      Missing code frame u (.undefined u)
  | readEarly {p : ValueId} (hop : code.operation? p = some .slot) (hslot : frame.slots[p]? = none) :
      Missing code frame p (.readEarly p)
  | writtenEarly {p : ValueId} (hop : code.operation? p = some .slot)
      (hslot : frame.slots[p]? = none) : Missing code frame p (.writtenEarly p)

theorem Holds.not_missing (hframe : Holds code frame done) {u : ValueId} {t : Trap}
    (hu : code.Loose u ∨ u ∈ done) : ¬ Missing code frame u t := by
  intro hmissing
  cases hmissing with
  | undefined hnumber hconst hvalue =>
      rcases hu with (⟨x, hx⟩ | ⟨g, global, hg, -⟩) | hdone
      · exact hconst x hx
      · simp [IsNumber, isNumeric?, hg] at hnumber
      · obtain ⟨x, hx⟩ := hframe.numbers u hdone hnumber
        simp [hvalue] at hx
  | readEarly hop hslot | writtenEarly hop hslot =>
      rcases hu with (⟨x, hx⟩ | ⟨g, global, hg, -⟩) | hdone
      · simp [hop] at hx
      · simp [hop] at hg
      · obtain ⟨x, hx⟩ := hframe.slots u hdone hop
        simp [hslot] at hx

theorem operand_or_missing (frame : Frame) {u : ValueId} (hu : code.IsNumber u) :
    (∃ x, operand code frame u = .ok x) ∨
      ∃ t, Missing code frame u t ∧ operand code frame u = trap t := by
  obtain ⟨value, hvalue⟩ := value_of_isNumber hu
  have hop := operation_of_value hvalue
  by_cases hconst : ∃ x, value.operation = .const x
  · obtain ⟨x, hx⟩ := hconst
    refine .inl ⟨x, ?_⟩
    simp only [operand, hop, hx, resolve, bind, Except.bind]
  · have hdefined : operand code frame u =
        frame.values[u]?.elim (trap (.undefined u)) Except.ok := by
      unfold operand
      rw [hop]
      cases hcase : value.operation with
      | const x => exact absurd ⟨x, hcase⟩ hconst
      | _ => cases frame.values[u]? <;> rfl
    rw [hdefined]
    cases hframe : frame.values[u]? with
    | some x => exact .inl ⟨x, rfl⟩
    | none =>
        refine .inr ⟨.undefined u, .undefined hu (fun x hx => hconst ⟨x, ?_⟩) hframe, rfl⟩
        rw [hop] at hx
        exact Option.some.inj hx

theorem isPointer_cases {p : ValueId} (hp : code.IsPointer p) :
    (∃ g, code.operation? p = some (.address g)) ∨ code.operation? p = some .slot := by
  obtain ⟨op, hop, hpointer⟩ := hp
  cases op with
  | address g => exact .inl ⟨g, hop⟩
  | slot => exact .inr hop
  | _ => simp [Operation.isPointer] at hpointer

theorem read_or_missing (h : code.Runnable) (frame : Frame) {p : ValueId} (hp : code.IsPointer p)
    (hcells : cells.size = code.globals.size) :
    (∃ x, read code cells frame p = .ok x) ∨
      ∃ t, Missing code frame p t ∧ read code cells frame p = trap t := by
  unfold read
  rcases isPointer_cases hp with ⟨g, hop⟩ | hop
  · have hlt : g.index < cells.size := hcells ▸ h.addressed hop
    exact .inl ⟨cells[g.index], by simp [hop, resolve, bind, Except.bind, hlt]⟩
  · cases hslot : frame.slots[p]? with
    | some x => exact .inl ⟨x, by simp [hop, resolve, bind, Except.bind]⟩
    | none =>
        exact .inr ⟨.readEarly p, .readEarly hop hslot, by simp [hop, resolve, bind, Except.bind]⟩

theorem write_or_missing (h : code.Runnable) (frame : Frame) {p : ValueId} (hp : code.IsPointer p)
    (hcells : cells.size = code.globals.size) (x : Float) :
    (∃ g, write code cells frame p x = .ok (.setGlobal g x)) ∨
      write code cells frame p x = .ok (.setSlot p x) ∨
      ∃ t, Missing code frame p t ∧ write code cells frame p x = trap t := by
  unfold write
  rcases isPointer_cases hp with ⟨g, hop⟩ | hop
  · have hlt : g.index < cells.size := hcells ▸ h.addressed hop
    exact .inl ⟨g, by simp [hop, resolve, bind, Except.bind, hlt]⟩
  · right
    rw [Std.HashMap.contains_eq_isSome_getElem?]
    cases hslot : frame.slots[p]? with
    | some y => exact .inl (by simp [hop, resolve, bind, Except.bind])
    | none =>
        exact .inr ⟨.writtenEarly p, .writtenEarly hop hslot,
          by simp [hop, resolve, bind, Except.bind]⟩

def Fits : Operation → Effect → Prop
  | .arith .., .define _ | .load _, .define _ | .slot, .allocate | .store .., .setGlobal ..
  | .store .., .setSlot .. | .ret none, .leave none | .ret (some _), .leave (some _) => True
  | .call callee, .call callee' => callee' = callee
  | _, _ => False

theorem effect_or_missing (h : code.Runnable) (frame : Frame) {f : FuncId} {v : ValueId}
    {op : Operation} (hop : code.operation? v = some op) (hadmits : code.Admits f op)
    (hcells : cells.size = code.globals.size) :
    (∃ e, effect code cells frame v = .ok e ∧ Fits op e) ∨
      ∃ u ∈ op.operands, ∃ t, Missing code frame u t ∧ effect code cells frame v = trap t := by
  unfold effect
  rw [hop]
  simp only [resolve, bind, Except.bind]
  cases op with
  | const x => exact hadmits.elim
  | address g => exact hadmits.elim
  | arith op left right =>
      rcases operand_or_missing frame hadmits.1 with ⟨x, hx⟩ | ⟨t, hmissing, ht⟩
      · rcases operand_or_missing frame hadmits.2 with ⟨y, hy⟩ | ⟨t, hmissing, ht⟩
        · exact .inl ⟨.define (op.apply x y), by simp [hx, hy], trivial⟩
        · exact .inr ⟨right, by simp [Operation.operands], t, hmissing, by simp [hx, ht, trap]⟩
      · exact .inr ⟨left, by simp [Operation.operands], t, hmissing, by simp [ht, trap]⟩
  | slot => exact .inl ⟨.allocate, rfl, trivial⟩
  | load pointer =>
      rcases read_or_missing h frame hadmits hcells with ⟨x, hx⟩ | ⟨t, hmissing, ht⟩
      · exact .inl ⟨.define x, by simp [hx], trivial⟩
      · exact .inr ⟨pointer, by simp [Operation.operands], t, hmissing, by simp [ht, trap]⟩
  | store value pointer =>
      rcases operand_or_missing frame hadmits.1 with ⟨x, hx⟩ | ⟨t, hmissing, ht⟩
      · rcases write_or_missing h frame hadmits.2 hcells x with
          ⟨g, hg⟩ | hslot | ⟨t, hmissing, ht⟩
        · exact .inl ⟨.setGlobal g x, by simp [hx, hg], trivial⟩
        · exact .inl ⟨.setSlot pointer x, by simp [hx, hslot], trivial⟩
        · exact .inr ⟨pointer, by simp [Operation.operands], t, hmissing, by simp [hx, ht]⟩
      · exact .inr ⟨value, by simp [Operation.operands], t, hmissing, by simp [ht, trap]⟩
  | call callee => exact .inl ⟨.call callee, rfl, rfl⟩
  | ret value =>
      cases value with
      | none => exact .inl ⟨.leave none, rfl, trivial⟩
      | some value =>
          rcases operand_or_missing frame hadmits.2 with ⟨x, hx⟩ | ⟨t, hmissing, ht⟩
          · exact .inl ⟨.leave (some x), by simp [hx], trivial⟩
          · exact .inr ⟨value, by simp [Operation.operands], t, hmissing, by simp [ht, trap]⟩

structure TrapsOnly (code : Code) (limit : Nat) (P : Trap → Prop) : Prop where
  runnable : code.Runnable
  depth : ∀ {f function}, code.func? f = some function → P (.depth limit function.name)
  noBody : ∀ {f function}, code.func? f = some function → function.blocks[0]? = none →
    P (.noBody function.name)
  missing : ∀ {f function b block done v rest op u t frame}, code.func? f = some function →
    function.blocks[0]? = some b → code.block? b = some block →
    block.body.toList = done ++ v :: rest → Holds code frame done → code.operation? v = some op →
    u ∈ op.operands → Missing code frame u t → P t

/-- A call that ends with a number if the function returns one, or in a trap of which `P` holds. The
globals keep their cells. -/
def Settles (code : Code) (P : Trap → Prop) (returns : Returns) :
    EStateM.Result Stop (Logged Memory) (Option Float) → Prop
  | .ok result m => m.state.cells.size = code.globals.size ∧
      (returns = .number → ∃ x, result = some x)
  | .error stop m => m.state.cells.size = code.globals.size ∧
      ∃ t, stop = .error (.backend (.trapped t)) ∧ P t

theorem Settles.bind {returns returns' : Returns} {x : Run} {g : Option Float → Run}
    {m : Logged Memory} (hx : Settles code P returns (x m))
    (hg : ∀ result m', m'.state.cells.size = code.globals.size →
      (returns = .number → ∃ x, result = some x) → Settles code P returns' (g result m')) :
    Settles code P returns' ((x >>= g) m) := by
  cases hm : x m with
  | ok result m' =>
      rw [hm] at hx
      rw [bind_of_ok hm]
      exact hg result m' hx.1 hx.2
  | error stop m' =>
      rw [hm] at hx
      rw [bind_of_error hm]
      exact hx

section

variable {limit : Nat} {call : ValueId → FuncId → Run}

def CallsSettle (code : Code) (P : Trap → Prop) (call : ValueId → FuncId → Run) : Prop :=
  ∀ v callee function m, code.func? callee = some function →
    m.state.cells.size = code.globals.size → Settles code P function.returns (call v callee m)

theorem proceed_settles (hcall : CallsSettle code P call) {next : Frame → Run} {v : ValueId}
    {f : FuncId} {op : Operation} {e : Effect} {returns : Returns}
    (hop : code.operation? v = some op) (hadmits : code.Admits f op)
    (hterminator : op.isTerminator = false) (hfits : Fits op e) (hframe : Holds code frame done)
    (hnext : ∀ frame' m', Holds code frame' (done ++ [v]) →
      m'.state.cells.size = code.globals.size → Settles code P returns (next frame' m'))
    {m : Logged Memory} (hcells : m.state.cells.size = code.globals.size) :
    Settles code P returns (proceed call next v frame e m) := by
  have hslot (h : op ≠ .slot) : code.operation? v ≠ some .slot := by
    rw [hop]
    exact fun heq => h (Option.some.inj heq)
  cases op with
  | const x => exact hadmits.elim
  | address g => exact hadmits.elim
  | arith op left right =>
      cases e with
      | define x => exact hnext _ _ (hframe.define (hslot nofun) x) hcells
      | _ => exact hfits.elim
  | slot =>
      cases e with
      | allocate => exact hnext _ _ (hframe.allocate hop 0.0) hcells
      | _ => exact hfits.elim
  | load pointer =>
      cases e with
      | define x => exact hnext _ _ (hframe.define (hslot nofun) x) hcells
      | _ => exact hfits.elim
  | store value pointer =>
      have hnumber : ¬ code.IsNumber v := by simp [IsNumber, isNumeric?, hop]
      cases e with
      | setGlobal g x =>
          refine hnext _ _ (hframe.advance hnumber (hslot nofun)) ?_
          simpa using hcells
      | setSlot p x => exact hnext _ _ (hframe.setSlot hnumber (hslot nofun) p x) hcells
      | _ => exact hfits.elim
  | call callee =>
      cases e with
      | call callee' =>
          cases hfits
          obtain ⟨function, hfunction⟩ := hadmits
          refine Settles.bind (hcall v callee function m hfunction hcells) ?_
          intro result m' hcells' hresult
          refine hnext _ _ ?_ hcells'
          cases result with
          | some x => exact hframe.define (hslot nofun) x
          | none =>
              refine hframe.advance (fun hnumber => ?_) (hslot nofun)
              simp only [IsNumber, isNumeric?, hop, hfunction, Option.map_some, Option.some.injEq,
                beq_iff_eq] at hnumber
              obtain ⟨x, hx⟩ := hresult hnumber
              cases hx
      | _ => exact hfits.elim
  | ret value => simp [Operation.isTerminator] at hterminator

variable {f : FuncId} {function : Func} {b : BlockId} {block : Block}

theorem leave_settles {next : Frame → Run} {v : ValueId} {op : Operation} {e : Effect}
    (hf : code.func? f = some function) (hadmits : code.Admits f op)
    (hterminator : op.isTerminator = true) (hfits : Fits op e) {m : Logged Memory}
    (hcells : m.state.cells.size = code.globals.size) :
    Settles code P function.returns (proceed call next v frame e m) := by
  cases op with
  | ret value =>
      cases e with
      | leave result =>
          refine ⟨hcells, fun hreturns => ?_⟩
          cases value with
          | none =>
              obtain ⟨function', hf', hvoid⟩ := hadmits
              rw [hf] at hf'
              cases hf'
              rw [hreturns] at hvoid
              cases hvoid
          | some value =>
              cases result with
              | none => exact hfits.elim
              | some x => exact ⟨x, rfl⟩
      | _ => cases value <;> exact hfits.elim
  | _ => simp [Operation.isTerminator] at hterminator

theorem runBody_cons_settles (h : TrapsOnly code limit P) (hf : code.func? f = some function)
    (hfirst : function.blocks[0]? = some b) (hb : code.block? b = some block) {v : ValueId}
    {rest : List ValueId} (hbody : block.body.toList = done ++ v :: rest)
    (hframe : Holds code frame done) {m : Logged Memory}
    (hcells : m.state.cells.size = code.globals.size)
    (hproceed : ∀ op e, code.operation? v = some op → code.Admits f op →
      op.isTerminator = rest.isEmpty → Fits op e →
      Settles code P function.returns (proceed call (runBody code call rest) v frame e (ticked m))) :
    Settles code P function.returns (runBody code call (v :: rest) frame m) := by
  obtain ⟨block', hb', hclosed, hadmitted⟩ := h.runnable.entered hf hfirst
  rw [hb] at hb'
  cases hb'
  obtain ⟨op, hop, hadmits⟩ := hadmitted v (by simp [hbody])
  rcases effect_or_missing h.runnable frame hop hadmits hcells with
    ⟨e, he, hfits⟩ | ⟨u, hu, t, hmissing, ht⟩
  · rw [runBody_cons_ok he]
    exact hproceed op e hop hadmits ((hbody ▸ hclosed).isTerminator hop) hfits
  · rw [runBody_cons_error ht]
    exact ⟨hcells, t, rfl, h.missing hf hfirst hb hbody hframe hop hu hmissing⟩

theorem runBody_settles (h : TrapsOnly code limit P) (hcall : CallsSettle code P call)
    (hf : code.func? f = some function) (hfirst : function.blocks[0]? = some b)
    (hb : code.block? b = some block) {v : ValueId} {rest : List ValueId}
    (hbody : block.body.toList = done ++ v :: rest) (hframe : Holds code frame done)
    {m : Logged Memory} (hcells : m.state.cells.size = code.globals.size) :
    Settles code P function.returns (runBody code call (v :: rest) frame m) := by
  -- Over the instructions to come: all but the last go on with a frame that holds one more.
  induction rest generalizing done v frame m with
  | nil =>
      refine runBody_cons_settles h hf hfirst hb hbody hframe hcells ?_
      intro op e hop hadmits hterminator hfits
      exact leave_settles hf hadmits hterminator hfits hcells
  | cons w rest ih =>
      refine runBody_cons_settles h hf hfirst hb hbody hframe hcells ?_
      intro op e hop hadmits hterminator hfits
      refine proceed_settles hcall hop hadmits hterminator hfits hframe ?_ hcells
      exact fun frame' m' hframe' hcells' => ih (by simp [hbody]) hframe' hcells'

theorem runEntered_settles (h : TrapsOnly code limit P) (hcall : CallsSettle code P call)
    (hf : code.func? f = some function) (site : Option ValueId) {m : Logged Memory}
    (hcells : m.state.cells.size = code.globals.size) :
    Settles code P function.returns (runEntered code call f site m) := by
  cases hfirst : function.blocks[0]? with
  | none =>
      rw [runEntered_noBody hf hfirst]
      exact ⟨hcells, .noBody function.name, rfl, h.noBody hf hfirst⟩
  | some b =>
      obtain ⟨block, hb, hclosed, -⟩ := h.runnable.entered hf hfirst
      rw [runEntered_block hf hfirst hb]
      obtain ⟨front, last, hbody, -⟩ := hclosed.ended
      cases hstart : block.body.toList with
      | nil => simp [hstart] at hbody
      | cons v rest =>
          have hsplit : block.body.toList = [] ++ v :: rest := hstart
          exact runBody_settles h hcall hf hfirst hb hsplit (Holds.nil code _) hcells

theorem nested_settles (h : TrapsOnly code limit P) (frames : Nat) (v : ValueId)
    (hf : code.func? f = some function) {m : Logged Memory}
    (hcells : m.state.cells.size = code.globals.size) :
    Settles code P function.returns (nested code limit frames v f m) := by
  induction frames using frames_induction limit generalizing v f function m with
  | deep frames hlimit =>
      rw [nested_of_not_lt hlimit]
      exact ⟨hcells, .depth limit function.name, by simp [tooDeep, hf], h.depth hf⟩
  | call frames hlimit ih =>
      rw [nested_of_lt hlimit]
      refine runEntered_settles h ?_ hf (some v) hcells
      exact fun v' callee function' m' hf' hcells' => ih v' hf' hcells'

theorem callFunction_settles (h : TrapsOnly code limit P) (hf : code.func? f = some function)
    {m : Logged Memory} (hcells : m.state.cells.size = code.globals.size) :
    Settles code P function.returns (callFunction code limit f m) := by
  rw [callFunction_eq]
  refine runEntered_settles h ?_ hf none hcells
  exact fun v _ _ _ hf' hcells' => nested_settles h 1 v hf' hcells'

end

inductive Answers (code : Code) (P : Trap → Prop) (entry : String) : Except Error Float → Prop
  | number (x : Float) : Answers code P entry (.ok x)
  | unknown (hfind : code.findFunction? entry = none) :
      Answers code P entry (.error (.backend (.trapped (.noEntry entry))))
  | void {f : FuncId} (hfind : code.findFunction? entry = some f) (hf : code.Returning f .void) :
      Answers code P entry (.error (.backend (.trapped (.voidEntry entry))))
  | trapped {t : Trap} (ht : P t) : Answers code P entry (.error (.backend (.trapped t)))

theorem run_answers {limit : Nat} (h : TrapsOnly code limit P) (entry : String) (log : Log)
    {memory : Memory} (hcells : memory.cells.size = code.globals.size) :
    ∃ result log' memory', attempt (run entry) ⟨log, code, limit, memory⟩ =
        .ok result ⟨log', code, limit, memory'⟩ ∧
      Answers code P entry result ∧ memory'.cells.size = code.globals.size := by
  cases hfind : code.findFunction? entry with
  | none => exact ⟨_, _, _, attempt_of_error (run_unknown hfind), .unknown hfind, hcells⟩
  | some f =>
      obtain ⟨function, hf⟩ := func_of_findFunction hfind
      cases hreturns : function.returns with
      | void =>
          exact ⟨_, _, _, attempt_of_error (run_void hfind hf hreturns),
            .void hfind ⟨function, hf, hreturns⟩, hcells⟩
      | number =>
          have hsettles := callFunction_settles h hf (m := ⟨log, memory⟩) hcells
          cases hcall : callFunction code limit f ⟨log, memory⟩ with
          | ok result m =>
              rw [hcall] at hsettles
              obtain ⟨x, rfl⟩ := hsettles.2 hreturns
              exact ⟨_, _, _, attempt_of_ok (run_number_ok hfind hf hreturns hcall), .number x,
                hsettles.1⟩
          | error stop m =>
              rw [hcall] at hsettles
              obtain ⟨hcells', t, rfl, ht⟩ := hsettles
              exact ⟨_, _, _, attempt_of_error (run_number_error hfind hf hreturns hcall),
                .trapped ht, hcells'⟩

theorem booted_answers {limit : Nat} (h : TrapsOnly code limit P) (entry : String) {σ : Type}
    (l : Logged σ) : ∃ result, (attempt (code.run limit entry)).outcome l = .ok result ∧
      Answers code P entry result := by
  have hcells : (blank code).cells.size = code.globals.size := by simp [blank]
  obtain ⟨result, log, memory, hrun, hanswers, -⟩ :=
    run_answers h entry (l.log.push (.machineReady code.name)) hcells
  refine ⟨result, ?_, hanswers⟩
  cases result with
  | ok x => exact outcome_of_ok (attempt_of_ok (booted_of_ok (of_attempt_ok hrun)))
  | error e => exact outcome_of_ok (attempt_of_error (booted_of_error (of_attempt_error hrun)))

end Machine

end Niladic
