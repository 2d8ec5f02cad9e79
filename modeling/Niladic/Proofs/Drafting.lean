import Niladic.Proofs.Actions
import Niladic.Proofs.Growth

namespace Niladic.Draft

open Niladic.Action

def nextName (d : Draft) (f : FuncId) (name : String) : String :=
  if name.isEmpty then ""
  else if d.uses.getD (f, name) 0 = 0 then name
  else name ++ toString (d.uses.getD (f, name) 0)

def nextUses (d : Draft) (f : FuncId) (name : String) :
    Std.TreeMap (FuncId × String) Nat useOrder :=
  if name.isEmpty then d.uses else d.uses.insert (f, name) (d.uses.getD (f, name) 0 + 1)

def appended (d : Draft) (b : BlockId) (f : FuncId) (name : String) (op : Operation) : Draft :=
  { d with code := d.code.withInstruction b (d.nextName f name) op, uses := d.nextUses f name }

variable {d : Draft} {b : BlockId} {block : Block}

theorem uniqueName_eq (hb : d.code.block? b = some block) (name : String) :
    uniqueName b name d =
      .ok (d.nextName block.owner name) { d with uses := d.nextUses block.owner name } := by
  unfold uniqueName nextName nextUses
  split
  · rfl
  · simp only [bind_apply, get_apply, hb, resolve_some, pure_apply, modify_apply]

theorem pushInstruction_eq (hb : b.index < d.code.blocks.size) (v : ValueId) :
    pushInstruction b v d = .ok () { d with code := { d.code with
      blocks := d.code.blocks.modify b.index fun block =>
        { block with body := block.body.push v } } } := by
  unfold pushInstruction
  rw [bind_of_ok (get_apply d), if_pos hb]
  rfl

theorem pushInstruction_bad (hb : ¬ b.index < d.code.blocks.size) (v : ValueId) :
    pushInstruction b v d = .error .badHandle d := by
  unfold pushInstruction
  rw [bind_of_ok (get_apply d), if_neg hb]
  rfl

theorem pushValue_eq (value : Value) :
    pushValue value d = .ok ⟨d.code.values.size⟩
      { d with code := { d.code with values := d.code.values.push value } } := rfl

theorem here_eq (hc : d.cursor = some b) : here d = .ok b d := by
  unfold here
  rw [bind_of_ok (get_apply d), hc]
  rfl

theorem append_eq (hc : d.cursor = some b) (hb : d.code.block? b = some block) (name : String)
    (op : Operation) :
    append name op d = .ok ⟨d.code.values.size⟩ (d.appended b block.owner name op) := by
  unfold append
  rw [bind_of_ok (here_eq hc), bind_of_ok (uniqueName_eq hb name), bind_of_ok (pushValue_eq _)]
  refine (bind_of_ok (pushInstruction_eq ?_ _)).trans rfl
  exact Code.block_lt hb

theorem here_cases (d : Draft) :
    (∃ b, d.cursor = some b ∧ here d = .ok b d) ∨ ∃ e, here d = .error (.error e) d := by
  cases hc : d.cursor with
  | none =>
      refine .inr ⟨.backend .noPosition, ?_⟩
      unfold here
      rw [bind_of_ok (get_apply d), hc]
      rfl
  | some b => exact .inl ⟨b, rfl, here_eq hc⟩

theorem append_cases (name : String) (op : Operation) (d : Draft) :
    (∃ b block, d.cursor = some b ∧ d.code.block? b = some block ∧
      append name op d = .ok ⟨d.code.values.size⟩ (d.appended b block.owner name op)) ∨
    (∃ e, append name op d = .error (.error e) d) ∨
    ∃ d', append name op d = .error .badHandle d' := by
  rcases here_cases d with ⟨b, hc, hhere⟩ | ⟨e, hhere⟩
  · cases hb : d.code.block? b with
    | some block => exact .inl ⟨b, block, hc, hb, append_eq hc hb name op⟩
    | none =>
        refine .inr (.inr ?_)
        have hsize : ¬ b.index < d.code.blocks.size := by
          have hnone : d.code.blocks[b.index]? = none := hb
          exact Nat.not_lt.mpr (Array.getElem?_eq_none_iff.mp hnone)
        unfold append
        rw [bind_of_ok hhere]
        unfold uniqueName
        split
        · rw [bind_of_ok (pure_apply "" d), bind_of_ok (pushValue_eq _)]
          refine ⟨_, bind_of_error (pushInstruction_bad ?_ _)⟩
          exact hsize
        · refine ⟨d, bind_of_error ?_⟩
          rw [bind_of_ok (get_apply d), hb]
          rfl
  · exact .inr (.inl ⟨e, bind_of_error hhere⟩)

theorem expectNumeric_eq {v : ValueId} (hv : d.code.IsNumber v) (user : String) :
    expectNumeric user v d = .ok () d := by
  have hv' : d.code.isNumeric? v = some true := hv
  unfold expectNumeric
  rw [bind_of_ok (get_apply d), hv']
  rfl

theorem expectNumeric_cases (user : String) (v : ValueId) (d : Draft) :
    (d.code.IsNumber v ∧ expectNumeric user v d = .ok () d) ∨
      ∃ stop, expectNumeric user v d = .error stop d := by
  cases hv : d.code.isNumeric? v with
  | none =>
      refine .inr ⟨.badHandle, ?_⟩
      unfold expectNumeric
      rw [bind_of_ok (get_apply d), hv]
      rfl
  | some numeric =>
      cases numeric with
      | true => exact .inl ⟨hv, expectNumeric_eq hv user⟩
      | false =>
          right
          unfold expectNumeric
          rw [bind_of_ok (get_apply d), hv]
          cases hop : d.code.operation? v with
          | none => exact ⟨.badHandle, rfl⟩
          | some op => exact ⟨.error (.backend (.notNumeric user op)), rfl⟩

theorem expectPointer_eq {p : ValueId} (hp : d.code.IsPointer p) : expectPointer p d = .ok () d := by
  obtain ⟨op, hop, hpointer⟩ := hp
  unfold expectPointer
  rw [bind_of_ok (get_apply d), hop, resolve_some, bind_of_ok (pure_apply op d), if_pos hpointer]
  rfl

theorem expectPointer_cases (p : ValueId) (d : Draft) :
    (d.code.IsPointer p ∧ expectPointer p d = .ok () d) ∨
      ∃ stop, expectPointer p d = .error stop d := by
  cases hop : d.code.operation? p with
  | none =>
      refine .inr ⟨.badHandle, ?_⟩
      unfold expectPointer
      rw [bind_of_ok (get_apply d), hop]
      rfl
  | some op =>
      by_cases hpointer : op.isPointer = true
      · exact .inl ⟨⟨op, hop, hpointer⟩, expectPointer_eq ⟨op, hop, hpointer⟩⟩
      · refine .inr ⟨.error (.backend (.notPointer op)), ?_⟩
        unfold expectPointer
        rw [bind_of_ok (get_apply d), hop, resolve_some, bind_of_ok (pure_apply op d),
          if_neg hpointer]
        rfl

theorem returns_eq {function : Func} (hc : d.cursor = some b) (hb : d.code.block? b = some block)
    (hf : d.code.func? block.owner = some function) : returns d = .ok function.returns d := by
  unfold returns
  rw [bind_of_ok (here_eq hc), bind_of_ok (get_apply d), hb, resolve_some,
    bind_of_ok (pure_apply block d), hf]
  rfl

theorem returns_cases (d : Draft) :
    (∃ b block function, d.cursor = some b ∧ d.code.block? b = some block ∧
      d.code.func? block.owner = some function ∧ returns d = .ok function.returns d) ∨
    ∃ stop, returns d = .error stop d := by
  rcases here_cases d with ⟨b, hc, hhere⟩ | ⟨e, hhere⟩
  · cases hb : d.code.block? b with
    | none =>
        refine .inr ⟨.badHandle, ?_⟩
        unfold returns
        rw [bind_of_ok hhere, bind_of_ok (get_apply d), hb]
        rfl
    | some block =>
        cases hf : d.code.func? block.owner with
        | none =>
            refine .inr ⟨.badHandle, ?_⟩
            unfold returns
            rw [bind_of_ok hhere, bind_of_ok (get_apply d), hb, resolve_some,
              bind_of_ok (pure_apply block d), hf]
            rfl
        | some function => exact .inl ⟨b, block, function, hc, hb, hf, returns_eq hc hb hf⟩
  · exact .inr ⟨.error e, bind_of_error hhere⟩

theorem const_eq (x : Float) :
    const x d = .ok ⟨d.code.values.size⟩ { d with code := d.code.withConst x } := rfl

theorem arith_eq {left right : ValueId} (hc : d.cursor = some b)
    (hb : d.code.block? b = some block) (hl : d.code.IsNumber left) (hr : d.code.IsNumber right)
    (op : Operator) : arith op left right d = .ok ⟨d.code.values.size⟩
      (d.appended b block.owner op.resultName (.arith op left right)) := by
  unfold arith
  rw [bind_of_ok (expectNumeric_eq hl _), bind_of_ok (expectNumeric_eq hr _)]
  exact append_eq hc hb _ _

theorem slot_eq (hc : d.cursor = some b) (hb : d.code.block? b = some block) (name : String) :
    slot name d = .ok ⟨d.code.values.size⟩ (d.appended b block.owner name .slot) :=
  append_eq hc hb _ _

theorem store_eq {value pointer : ValueId} (hc : d.cursor = some b)
    (hb : d.code.block? b = some block) (hv : d.code.IsNumber value)
    (hp : d.code.IsPointer pointer) :
    store value pointer d = .ok () (d.appended b block.owner "" (.store value pointer)) := by
  unfold store
  rw [bind_of_ok (expectNumeric_eq hv _), bind_of_ok (expectPointer_eq hp)]
  exact discard_of_ok (append_eq hc hb _ _)

theorem load_eq {pointer : ValueId} (hc : d.cursor = some b)
    (hb : d.code.block? b = some block) (hp : d.code.IsPointer pointer) (name : String) :
    load pointer name d = .ok ⟨d.code.values.size⟩
      (d.appended b block.owner name (.load pointer)) := by
  unfold load
  rw [bind_of_ok (expectPointer_eq hp)]
  exact append_eq hc hb _ _

def callName : Returns → String
  | .number => "calltmp"
  | .void => ""

theorem call_unfold {f : FuncId} {function : Func} (hf : d.code.func? f = some function) :
    call f d = append (callName function.returns) (.call f) d := by
  unfold call
  rw [bind_of_ok (get_apply d), hf, resolve_some, bind_of_ok (pure_apply function d)]
  cases function.returns <;> rfl

theorem call_eq {f : FuncId} {function : Func} (hc : d.cursor = some b)
    (hb : d.code.block? b = some block) (hf : d.code.func? f = some function) :
    call f d = .ok ⟨d.code.values.size⟩
      (d.appended b block.owner (callName function.returns) (.call f)) := by
  rw [call_unfold hf]
  exact append_eq hc hb _ _

theorem ret_eq {value : ValueId} (hc : d.cursor = some b) (hb : d.code.block? b = some block)
    (hf : d.code.Returning block.owner .number) (hv : d.code.IsNumber value) :
    ret value d = .ok () (d.appended b block.owner "" (.ret (some value))) := by
  obtain ⟨function, hfunction, hreturns⟩ := hf
  unfold ret
  rw [bind_of_ok (returns_eq hc hb hfunction), hreturns]
  exact (bind_of_ok (expectNumeric_eq hv _)).trans (discard_of_ok (append_eq hc hb _ _))

theorem ret_ok {value : ValueId} {d' : Draft} (h : ret value d = .ok () d') :
    ∃ f, d.code.Returning f .number := by
  unfold ret at h
  rcases returns_cases d with ⟨b, block, function, -, -, hf, heq⟩ | ⟨stop, heq⟩
  · rw [bind_of_ok heq] at h
    cases hreturns : function.returns with
    | void =>
        rw [hreturns] at h
        cases h
    | number => exact ⟨block.owner, function, hf, hreturns⟩
  · rw [bind_of_error heq] at h
    cases h

theorem retVoid_eq (hc : d.cursor = some b) (hb : d.code.block? b = some block)
    (hf : d.code.Returning block.owner .void) :
    retVoid d = .ok () (d.appended b block.owner "" (.ret none)) := by
  obtain ⟨function, hfunction, hreturns⟩ := hf
  unfold retVoid
  rw [bind_of_ok (returns_eq hc hb hfunction), hreturns]
  exact discard_of_ok (append_eq hc hb _ _)

theorem pointer_eq {g : GlobalId} {global : Global} (hg : d.code.global? g = some global) :
    pointer g d = .ok global.address d := by
  unfold pointer
  rw [bind_of_ok (get_apply d), hg]
  rfl

theorem function_eq {n : String} (hf : d.code.findFunction? n = none)
    (hg : d.code.findGlobal? n = none) (returns : Returns) :
    function n returns d = .ok ⟨d.code.functions.size⟩
      { d with code := d.code.withFunction n returns } := by
  unfold function
  rw [bind_of_ok (get_apply d), hf, hg]
  rfl

theorem function_of_global {n : String} {g : GlobalId} (hf : d.code.findFunction? n = none)
    (hg : d.code.findGlobal? n = some g) (returns : Returns) :
    function n returns d = .error (.error (.duplicate .global n)) d := by
  unfold function
  rw [bind_of_ok (get_apply d), hf, hg]
  rfl

theorem function_cases (n : String) (returns : Returns) (d : Draft) :
    (d.code.findFunction? n = none ∧ d.code.findGlobal? n = none) ∨
      ∃ e, function n returns d = .error (.error e) d := by
  cases hf : d.code.findFunction? n with
  | some f =>
      refine .inr ⟨.duplicate .function n, ?_⟩
      unfold function
      rw [bind_of_ok (get_apply d), hf]
      rfl
  | none =>
      cases hg : d.code.findGlobal? n with
      | some g => exact .inr ⟨_, function_of_global hf hg returns⟩
      | none => exact .inl ⟨rfl, rfl⟩

theorem block_eq {f : FuncId} (hf : f.index < d.code.functions.size) (name : String) :
    Draft.block name f d = .ok ⟨d.code.blocks.size⟩ { d with code := d.code.withBlock name f } := by
  unfold Draft.block
  rw [bind_of_ok (get_apply d), bind_of_ok (get_apply d), if_pos hf]
  rfl

theorem block_cases (name : String) (f : FuncId) (d : Draft) :
    f.index < d.code.functions.size ∨ ∃ e, Draft.block name f d = .error (.error e) d := by
  by_cases hf : f.index < d.code.functions.size
  · exact .inl hf
  · refine .inr ⟨.backend (.unknownFunction f), ?_⟩
    unfold Draft.block
    rw [bind_of_ok (get_apply d), bind_of_ok (get_apply d), if_neg hf]
    rfl

theorem global_eq {n : String} (hg : d.code.findGlobal? n = none)
    (hf : d.code.findFunction? n = none) :
    global n d = .ok ⟨d.code.globals.size⟩ { d with code := d.code.withGlobal n } := by
  unfold global
  rw [bind_of_ok (get_apply d), hg, hf]
  rfl

theorem global_of_function {n : String} {f : FuncId} (hg : d.code.findGlobal? n = none)
    (hf : d.code.findFunction? n = some f) :
    global n d = .error (.error (.duplicate .function n)) d := by
  unfold global
  rw [bind_of_ok (get_apply d), hg, hf]
  rfl

theorem global_cases (n : String) (d : Draft) :
    (d.code.findGlobal? n = none ∧ d.code.findFunction? n = none) ∨
      ∃ e, global n d = .error (.error e) d := by
  cases hg : d.code.findGlobal? n with
  | some g =>
      refine .inr ⟨.duplicate .global n, ?_⟩
      unfold global
      rw [bind_of_ok (get_apply d), hg]
      rfl
  | none =>
      cases hf : d.code.findFunction? n with
      | some f => exact .inr ⟨_, global_of_function hg hf⟩
      | none => exact .inl ⟨rfl, rfl⟩

inductive Writes (name : String) (op : Operation) (d : Draft) : Draft → Prop
  | idle : Writes name op d d
  | instruction {b : BlockId} {block : Block} (hc : d.cursor = some b)
      (hb : d.code.block? b = some block) (hop : d.code.Admits block.owner op) :
      Writes name op d (d.appended b block.owner name op)

inductive Emits (d : Draft) : Draft → Prop
  | idle : Emits d d
  | const (x : Float) : Emits d { d with code := d.code.withConst x }
  | instruction {b : BlockId} {block : Block} {op : Operation} (hc : d.cursor = some b)
      (hb : d.code.block? b = some block) (hop : d.code.Admits block.owner op) (name : String) :
      Emits d (d.appended b block.owner name op)

theorem Writes.emits {name : String} {op : Operation} {d' : Draft} (h : d.Writes name op d') :
    d.Emits d' := by
  cases h with
  | idle => exact .idle
  | instruction hc hb hop => exact .instruction hc hb hop name

theorem Emits.cursor {d' : Draft} (h : d.Emits d') : d'.cursor = d.cursor := by
  cases h <;> rfl

theorem Emits.depth {d' : Draft} (h : d.Emits d') : d'.depth = d.depth := by
  cases h <;> rfl

theorem Emits.functions {d' : Draft} (h : d.Emits d') : d'.code.functions = d.code.functions := by
  cases h <;> rfl

theorem Emits.code {d' : Draft} (h : d.Emits d') : d.code.Extends d'.code := by
  cases h with
  | idle => exact .refl _
  | const x => exact Code.extends_withConst _ x
  | instruction _ _ _ name => exact Code.extends_withInstruction _ _ _ _

inductive Appends (name : String) (op : Operation) (d : Draft) {α : Type} :
    EStateM.Result Stop Draft α → Prop
  | ok {a : α} {b : BlockId} {block : Block} (hc : d.cursor = some b)
      (hb : d.code.block? b = some block) (hop : d.code.Admits block.owner op) :
      Appends name op d (.ok a (d.appended b block.owner name op))
  | error (e : Error) : Appends name op d (.error (.error e) d)
  | badHandle (d' : Draft) : Appends name op d (.error .badHandle d')

namespace Appends

variable {name : String} {op : Operation} {α β : Type}

theorem writes {r : EStateM.Result Stop Draft α} (h : Appends name op d r) :
    Ends (Writes name op) d r := by
  cases h with
  | ok hc hb hop => exact .instruction hc hb hop
  | error e => exact .idle
  | badHandle d' => trivial

theorem of_stop (stop : Stop) : Appends name op d (.error stop d : EStateM.Result Stop Draft α) := by
  cases stop with
  | error e => exact .error e
  | badHandle => exact .badHandle d

theorem discard {x : Action Draft α} (h : Appends name op d (x d)) :
    Appends name op d ((Functor.discard x) d) := by
  generalize hx : x d = r at h
  cases h with
  | ok hc hb hop =>
      rw [discard_of_ok hx]
      exact .ok hc hb hop
  | error e =>
      rw [discard_of_error hx]
      exact .error e
  | badHandle d' =>
      rw [discard_of_error hx]
      exact .badHandle d'

theorem guard {P : Prop} {x : Action Draft Unit} {y : Unit → Action Draft α}
    (hx : (P ∧ x d = .ok () d) ∨ ∃ stop, x d = .error stop d)
    (hy : P → Appends name op d (y () d)) : Appends name op d ((x >>= y) d) := by
  rcases hx with ⟨hP, hok⟩ | ⟨stop, herror⟩
  · rw [bind_of_ok hok]
    exact hy hP
  · rw [bind_of_error herror]
    exact of_stop stop

end Appends

theorem append_appends {name : String} {op : Operation}
    (hop : ∀ b block, d.cursor = some b → d.code.block? b = some block →
      d.code.Admits block.owner op) : Appends name op d (append name op d) := by
  rcases append_cases name op d with ⟨b, block, hc, hb, heq⟩ | ⟨e, heq⟩ | ⟨d', heq⟩
  · rw [heq]
    exact .ok hc hb (hop b block hc hb)
  · rw [heq]
    exact .error e
  · rw [heq]
    exact .badHandle d'

theorem append_appends_at {name : String} {op : Operation} (hc : d.cursor = some b)
    (hb : d.code.block? b = some block) (hop : d.code.Admits block.owner op) :
    Appends name op d (append name op d) := by
  refine append_appends fun b' block' hc' hb' => ?_
  rw [hc] at hc'
  cases hc'
  rw [hb] at hb'
  cases hb'
  exact hop

theorem slot_appends (name : String) (d : Draft) : Appends name .slot d (slot name d) :=
  append_appends fun _ _ _ _ => trivial

theorem arith_appends (op : Operator) (left right : ValueId) (d : Draft) :
    Appends op.resultName (.arith op left right) d (arith op left right d) :=
  .guard (expectNumeric_cases _ left d) fun hl =>
    .guard (expectNumeric_cases _ right d) fun hr => append_appends fun _ _ _ _ => ⟨hl, hr⟩

theorem store_appends (value pointer : ValueId) (d : Draft) :
    Appends "" (.store value pointer) d (store value pointer d) :=
  .guard (expectNumeric_cases _ value d) fun hv =>
    .guard (expectPointer_cases pointer d) fun hp =>
      .discard (append_appends fun _ _ _ _ => ⟨hv, hp⟩)

theorem load_appends (pointer : ValueId) (name : String) (d : Draft) :
    Appends name (.load pointer) d (load pointer name d) :=
  .guard (expectPointer_cases pointer d) fun hp => append_appends fun _ _ _ _ => hp

theorem call_appends {f : FuncId} {function : Func} (hf : d.code.func? f = some function) :
    Appends (callName function.returns) (.call f) d (call f d) := by
  rw [call_unfold hf]
  exact append_appends fun _ _ _ _ => ⟨function, hf⟩

theorem call_of_none {f : FuncId} (hf : d.code.func? f = none) :
    call f d = .error .badHandle d := by
  unfold call
  rw [bind_of_ok (get_apply d), hf]
  rfl

theorem ret_appends (value : ValueId) (d : Draft) :
    Appends "" (.ret (some value)) d (ret value d) := by
  unfold ret
  rcases returns_cases d with ⟨b, block, function, hc, hb, hf, heq⟩ | ⟨stop, heq⟩
  · rw [bind_of_ok heq]
    cases hreturns : function.returns with
    | void => exact .error _
    | number =>
        exact .guard (expectNumeric_cases _ value d) fun hv =>
          .discard (append_appends_at hc hb ⟨⟨function, hf, hreturns⟩, hv⟩)
  · rw [bind_of_error heq]
    exact .of_stop stop

theorem retVoid_appends (d : Draft) : Appends "" (.ret none) d (retVoid d) := by
  unfold retVoid
  rcases returns_cases d with ⟨b, block, function, hc, hb, hf, heq⟩ | ⟨stop, heq⟩
  · rw [bind_of_ok heq]
    cases hreturns : function.returns with
    | number => exact .error _
    | void => exact .discard (append_appends_at hc hb ⟨function, hf, hreturns⟩)
  · rw [bind_of_error heq]
    exact .of_stop stop

theorem slot_writes (name : String) : Relates (Writes name .slot) (slot name) :=
  fun d => (slot_appends name d).writes

theorem arith_writes (op : Operator) (left right : ValueId) :
    Relates (Writes op.resultName (.arith op left right)) (arith op left right) :=
  fun d => (arith_appends op left right d).writes

theorem store_writes (value pointer : ValueId) :
    Relates (Writes "" (.store value pointer)) (store value pointer) :=
  fun d => (store_appends value pointer d).writes

theorem load_writes (pointer : ValueId) (name : String) :
    Relates (Writes name (.load pointer)) (load pointer name) :=
  fun d => (load_appends pointer name d).writes

theorem call_writes (f : FuncId) : Relates (fun d d' => ∃ function, d.code.func? f = some function ∧
    d.Writes (callName function.returns) (.call f) d') (call f) := by
  intro d
  cases hf : d.code.func? f with
  | none =>
      rw [call_of_none hf]
      trivial
  | some function => exact (call_appends hf).writes.mono fun h => ⟨function, hf, h⟩

theorem ret_writes (value : ValueId) : Relates (Writes "" (.ret (some value))) (ret value) :=
  fun d => (ret_appends value d).writes

theorem retVoid_writes : Relates (Writes "" (.ret none)) retVoid :=
  fun d => (retVoid_appends d).writes

theorem pointer_of_none {g : GlobalId} (hg : d.code.global? g = none) :
    pointer g d = .error .badHandle d := by
  unfold pointer
  rw [bind_of_ok (get_apply d), hg]
  rfl

theorem pointer_idle (g : GlobalId) : Relates Eq (pointer g) := by
  intro d
  cases hg : d.code.global? g with
  | none =>
      rw [pointer_of_none hg]
      trivial
  | some global =>
      rw [pointer_eq hg]
      exact rfl

theorem const_emits (x : Float) : Relates Emits (const x) := fun _ => .const x

theorem slot_emits (name : String) : Relates Emits (slot name) := (slot_writes name).mono Writes.emits

theorem arith_emits (op : Operator) (left right : ValueId) : Relates Emits (arith op left right) :=
  (arith_writes op left right).mono Writes.emits

theorem store_emits (value pointer : ValueId) : Relates Emits (store value pointer) :=
  (store_writes value pointer).mono Writes.emits

theorem load_emits (pointer : ValueId) (name : String) : Relates Emits (load pointer name) :=
  (load_writes pointer name).mono Writes.emits

theorem call_emits (f : FuncId) : Relates Emits (call f) :=
  (call_writes f).mono fun ⟨_, _, h⟩ => h.emits

theorem pointer_emits (g : GlobalId) : Relates Emits (pointer g) :=
  (pointer_idle g).mono fun h => h ▸ .idle

theorem ret_emits (value : ValueId) : Relates Emits (ret value) :=
  (ret_writes value).mono Writes.emits

theorem retVoid_emits : Relates Emits retVoid := retVoid_writes.mono Writes.emits

end Niladic.Draft
