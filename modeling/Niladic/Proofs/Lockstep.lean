import Niladic.Proofs.Recursion

/-!
Two runs of one code in lockstep. Which instruction comes next depends on the values and slots that
the frames have, never on the numbers in them, so runs over memories of one size take up as many
instructions as each other and end alike.
-/

namespace Niladic

theorem isSome_cases {α : Type} {o o' : Option α} (h : o.isSome = o'.isSome) :
    (o = none ∧ o' = none) ∨ ∃ a a', o = some a ∧ o' = some a' := by
  cases o with
  | none =>
      cases o' with
      | none => exact .inl ⟨rfl, rfl⟩
      | some a' => cases h
  | some a =>
      cases o' with
      | none => cases h
      | some a' => exact .inr ⟨a, a', rfl, rfl⟩

structure Frame.Alike (f f' : Frame) : Prop where
  func : f.func = f'.func
  block : f.block = f'.block
  next : f.next = f'.next
  values : ∀ v, v ∈ f.values ↔ v ∈ f'.values
  slots : ∀ v, v ∈ f.slots ↔ v ∈ f'.slots

namespace Frame.Alike

variable {f f' : Frame}

theorem refl (f : Frame) : Alike f f := ⟨rfl, rfl, rfl, fun _ => .rfl, fun _ => .rfl⟩

theorem advance (h : Alike f f') : Alike f.advance f'.advance where
  func := h.func
  block := h.block
  next := congrArg (· + 1) h.next
  values := h.values
  slots := h.slots

theorem define (h : Alike f f') (v : ValueId) (x x' : Float) :
    Alike (f.define v x) (f'.define v x') where
  func := h.func
  block := h.block
  next := h.next
  values u := by simp only [Frame.define, Std.HashMap.mem_insert, h.values u]
  slots := h.slots

theorem setSlot (h : Alike f f') (v : ValueId) (x x' : Float) :
    Alike (f.setSlot v x) (f'.setSlot v x') where
  func := h.func
  block := h.block
  next := h.next
  values := h.values
  slots u := by simp only [Frame.setSlot, Std.HashMap.mem_insert, h.slots u]

theorem receive (h : Alike f f') (v : ValueId) {result result' : Option Float}
    (hresult : result.isSome = result'.isSome) :
    Alike (f.receive (some v) result) (f'.receive (some v) result') := by
  rcases isSome_cases hresult with ⟨rfl, rfl⟩ | ⟨x, x', rfl, rfl⟩
  · exact h
  · exact h.define v x x'

end Frame.Alike

namespace Machine

open Niladic.Action

section

variable {α α' β β' : Type} {S : Stop → Stop → Prop} {R : α → α' → Prop} {Q : β → β' → Prop}

inductive Matched (S : Stop → Stop → Prop) (R : α → α' → Prop) :
    Except Stop α → Except Stop α' → Prop
  | ok {a : α} {a' : α'} (h : R a a') : Matched S R (.ok a) (.ok a')
  | error {stop stop' : Stop} (h : S stop stop') : Matched S R (.error stop) (.error stop')

theorem Matched.bind {x : Except Stop α} {x' : Except Stop α'} {g : α → Except Stop β}
    {g' : α' → Except Stop β'} (hx : Matched S R x x')
    (hg : ∀ a a', R a a' → Matched S Q (g a) (g' a')) : Matched S Q (x >>= g) (x' >>= g') := by
  cases hx with
  | ok h => exact hg _ _ h
  | error h => exact .error h

theorem Matched.resolve (o : Option α) : Matched Eq Eq (resolve o) (resolve o) := by
  cases o with
  | none => exact .error rfl
  | some a => exact .ok rfl

end

inductive Effect.Alike : Effect → Effect → Prop
  | define (x x' : Float) : Alike (.define x) (.define x')
  | allocate : Alike .allocate .allocate
  | setGlobal (g : GlobalId) (x x' : Float) : Alike (.setGlobal g x) (.setGlobal g x')
  | setSlot (p : ValueId) (x x' : Float) : Alike (.setSlot p x) (.setSlot p x')
  | call (callee : FuncId) : Alike (.call callee) (.call callee)
  | leave {result result' : Option Float} (h : result.isSome = result'.isSome) :
      Alike (.leave result) (.leave result')

section

variable {code : Code} {cells cells' : Array Float} {frame frame' : Frame}

theorem isSome_getElem?_eq {values values' : Std.HashMap ValueId Float}
    (h : ∀ v, v ∈ values ↔ v ∈ values') (v : ValueId) :
    values[v]?.isSome = values'[v]?.isSome := by
  rw [Bool.eq_iff_iff, Std.HashMap.isSome_getElem?_iff_mem, Std.HashMap.isSome_getElem?_iff_mem]
  exact h v

theorem operand_matched (hframe : frame.Alike frame') (v : ValueId) :
    Matched Eq (fun _ _ => True) (operand code frame v) (operand code frame' v) := by
  refine (Matched.resolve _).bind ?_
  rintro op _ rfl
  cases op with
  | const x => exact .ok trivial
  | _ =>
      dsimp only
      rcases isSome_cases (isSome_getElem?_eq hframe.values v) with ⟨hv, hv'⟩ | ⟨x, x', hv, hv'⟩
      · rw [hv, hv']
        exact .error rfl
      · rw [hv, hv']
        exact .ok trivial

theorem read_matched (hcells : cells.size = cells'.size) (hframe : frame.Alike frame')
    (p : ValueId) :
    Matched Eq (fun _ _ => True) (read code cells frame p) (read code cells' frame' p) := by
  refine (Matched.resolve _).bind ?_
  rintro op _ rfl
  cases op with
  | address g =>
      have hcell : cells[g.index]?.isSome = cells'[g.index]?.isSome := by
        rw [Bool.eq_iff_iff, isSome_getElem?, isSome_getElem?, hcells]
      dsimp only
      rcases isSome_cases hcell with ⟨hg, hg'⟩ | ⟨x, x', hg, hg'⟩
      · rw [hg, hg']
        exact .error rfl
      · rw [hg, hg']
        exact .ok trivial
  | slot =>
      dsimp only
      rcases isSome_cases (isSome_getElem?_eq hframe.slots p) with ⟨hp, hp'⟩ | ⟨x, x', hp, hp'⟩
      · rw [hp, hp']
        exact .error rfl
      · rw [hp, hp']
        exact .ok trivial
  | _ => exact .error rfl

theorem write_matched (hcells : cells.size = cells'.size) (hframe : frame.Alike frame')
    (p : ValueId) (x x' : Float) :
    Matched Eq Effect.Alike (write code cells frame p x) (write code cells' frame' p x') := by
  refine (Matched.resolve _).bind ?_
  rintro op _ rfl
  cases op with
  | address g =>
      dsimp only
      rw [← hcells]
      split
      · exact .ok (.setGlobal g x x')
      · exact .error rfl
  | slot =>
      have hslots : frame'.slots.contains p = frame.slots.contains p := by
        rw [Bool.eq_iff_iff, Std.HashMap.contains_iff_mem, Std.HashMap.contains_iff_mem]
        exact (hframe.slots p).symm
      dsimp only
      rw [hslots]
      split
      · exact .ok (.setSlot p x x')
      · exact .error rfl
  | _ => exact .error rfl

theorem effect_matched (hcells : cells.size = cells'.size) (hframe : frame.Alike frame')
    (v : ValueId) :
    Matched Eq Effect.Alike (effect code cells frame v) (effect code cells' frame' v) := by
  refine (Matched.resolve _).bind ?_
  rintro op _ rfl
  cases op with
  | arith op left right =>
      refine (operand_matched hframe left).bind fun x x' _ => ?_
      refine (operand_matched hframe right).bind fun y y' _ => ?_
      exact .ok (.define _ _)
  | slot => exact .ok .allocate
  | load pointer =>
      exact (read_matched hcells hframe pointer).bind fun x x' _ => .ok (.define x x')
  | store value pointer =>
      exact (operand_matched hframe value).bind fun x x' _ =>
        write_matched hcells hframe pointer x x'
  | call callee => exact .ok (.call callee)
  | ret value =>
      cases value with
      | none => exact .ok (.leave rfl)
      | some value =>
          exact (operand_matched hframe value).bind fun x x' _ => .ok (.leave rfl)
  | const x => exact .error rfl
  | address g => exact .error rfl

end

structure Paced (k k' : Nat) (m m' : Logged Memory) : Prop where
  size : m.state.cells.size = m'.state.cells.size
  executed : ∃ n, m.state.executed = k + n ∧ m'.state.executed = k' + n

theorem Paced.ticked {k k' : Nat} {m m' : Logged Memory} (h : Paced k k' m m') :
    Paced k k' (ticked m) (ticked m') where
  size := h.size
  executed := by
    obtain ⟨n, hn, hn'⟩ := h.executed
    exact ⟨n + 1, congrArg (· + 1) hn, congrArg (· + 1) hn'⟩

inductive EndsTogether (k k' : Nat) :
    EStateM.Result Stop (Logged Memory) (Option Float) →
      EStateM.Result Stop (Logged Memory) (Option Float) → Prop
  | ok {result result' : Option Float} {m m' : Logged Memory}
      (hresult : result.isSome = result'.isSome) (h : Paced k k' m m') :
      EndsTogether k k' (.ok result m) (.ok result' m')
  | error (stop : Stop) {m m' : Logged Memory} (h : Paced k k' m m') :
      EndsTogether k k' (.error stop m) (.error stop m')

def Together (x x' : Run) : Prop :=
  ∀ k k' m m', Paced k k' m m' → EndsTogether k k' (x m) (x' m')

namespace Together

theorem pure {result result' : Option Float} (h : result.isSome = result'.isSome) :
    Together (Pure.pure result) (Pure.pure result') :=
  fun _ _ _ _ hm => .ok h hm

theorem throw (stop : Stop) : Together (MonadExcept.throw stop) (MonadExcept.throw stop) :=
  fun _ _ _ _ hm => .error stop hm

theorem bind {x x' : Run} {g g' : Option Float → Run} (hx : Together x x')
    (hg : ∀ result result' : Option Float, result.isSome = result'.isSome →
      Together (g result) (g' result')) :
    Together (x >>= g) (x' >>= g') := by
  intro k k' m m' hm
  have hends := hx k k' m m' hm
  generalize hxm : x m = r, hxm' : x' m' = r' at hends
  cases hends with
  | ok hresult ht =>
      rw [bind_of_ok hxm, bind_of_ok hxm']
      exact hg _ _ hresult k k' _ _ ht
  | error stop ht =>
      rw [bind_of_error hxm, bind_of_error hxm']
      exact .error stop ht

end Together

variable {code : Code} {call : ValueId → FuncId → Run}

def CallsTogether (call : ValueId → FuncId → Run) : Prop :=
  ∀ v callee, Together (call v callee) (call v callee)

theorem proceed_together (hcall : CallsTogether call) {next : Frame → Run}
    (hnext : ∀ f f', Frame.Alike f f' → Together (next f) (next f')) (v : ValueId)
    {frame frame' : Frame} (hframe : frame.Alike frame') {e e' : Effect} (he : e.Alike e') :
    Together (proceed call next v frame e) (proceed call next v frame' e') := by
  cases he with
  | define x x' => exact hnext _ _ (hframe.advance.define v x x')
  | allocate => exact hnext _ _ (hframe.advance.setSlot v _ _)
  | setGlobal g x x' =>
      intro k k' m m' hm
      have hset : Paced k k' { m with state.cells := m.state.cells.setIfInBounds g.index x }
          { m' with state.cells := m'.state.cells.setIfInBounds g.index x' } :=
        ⟨by simpa using hm.size, hm.executed⟩
      exact hnext _ _ hframe.advance k k' _ _ hset
  | setSlot p x x' => exact hnext _ _ (hframe.advance.setSlot p x x')
  | call callee =>
      exact (hcall v callee).bind fun result result' hresult =>
        hnext _ _ (hframe.advance.receive v hresult)
  | leave hresult => exact .pure hresult

theorem fallOff_alike {frame frame' : Frame} (h : frame.Alike frame') :
    fallOff code frame = fallOff code frame' := by
  unfold fallOff
  rw [h.block, h.func]

theorem runBody_together (hcall : CallsTogether call) (body : List ValueId) {frame frame' : Frame}
    (hframe : frame.Alike frame') :
    Together (runBody code call body frame) (runBody code call body frame') := by
  induction body generalizing frame frame' with
  | nil =>
      unfold runBody
      rw [fallOff_alike hframe]
      exact .throw _
  | cons v rest ih =>
      intro k k' m m' hm
      have he : Matched Eq Effect.Alike (effect code m.state.cells frame v)
        (effect code m'.state.cells frame' v) := effect_matched hm.size hframe v
      generalize hv : effect code m.state.cells frame v = r,
        hv' : effect code m'.state.cells frame' v = r' at he
      cases he with
      | ok he =>
          rw [runBody_cons_ok hv, runBody_cons_ok hv']
          exact proceed_together hcall (fun f f' => ih) v hframe he k k' _ _ hm.ticked
      | @error stop _ hstop =>
          cases hstop
          rw [runBody_cons_error hv, runBody_cons_error hv']
          exact .error stop hm.ticked

theorem runFrame_together (hcall : CallsTogether call) (frame : Frame) :
    Together (runFrame code call frame) (runFrame code call frame) := by
  unfold runFrame
  split
  · exact .throw _
  · exact runBody_together hcall _ (.refl frame)

theorem runEntered_together (hcall : CallsTogether call) (f : FuncId) (site : Option ValueId) :
    Together (runEntered code call f site) (runEntered code call f site) := by
  unfold runEntered
  split
  · exact .throw _
  · intro k k' m m' hm
    exact runFrame_together hcall _ k k' _ _ ⟨hm.size, hm.executed⟩

theorem nested_together (code : Code) (limit frames : Nat) :
    CallsTogether (nested code limit frames) := by
  induction frames using frames_induction limit with
  | deep frames h =>
      intro v callee
      rw [nested_of_not_lt h]
      exact .throw _
  | call frames h ih =>
      intro v callee
      rw [nested_of_lt h]
      exact runEntered_together ih callee (some v)

theorem callFunction_together (code : Code) (limit : Nat) (f : FuncId) :
    Together (callFunction code limit f) (callFunction code limit f) := by
  rw [callFunction_eq]
  exact runEntered_together (nested_together code limit 1) f none

theorem run_lockstep (code : Code) (limit : Nat) (entry : String) (log log' : Log)
    {memory memory' : Memory} (hsize : memory.cells.size = memory'.cells.size) :
    ∃ (n : Nat) (m m' : Logged Memory), m.state.executed = memory.executed + n ∧
      m'.state.executed = memory'.executed + n ∧ m.state.cells.size = m'.state.cells.size ∧
      ((∃ x x', run entry ⟨log, code, limit, memory⟩ = .ok x ⟨m.log, code, limit, m.state⟩ ∧
          run entry ⟨log', code, limit, memory'⟩ = .ok x' ⟨m'.log, code, limit, m'.state⟩) ∨
        ∃ stop, run entry ⟨log, code, limit, memory⟩ = .error stop ⟨m.log, code, limit, m.state⟩ ∧
          run entry ⟨log', code, limit, memory'⟩ = .error stop ⟨m'.log, code, limit, m'.state⟩) := by
  cases hfind : code.findFunction? entry with
  | none =>
      exact ⟨0, ⟨_, memory⟩, ⟨_, memory'⟩, rfl, rfl, hsize,
        .inr ⟨_, run_unknown hfind, run_unknown hfind⟩⟩
  | some f =>
      obtain ⟨function, hf⟩ := func_of_findFunction hfind
      cases hreturns : function.returns with
      | void =>
          exact ⟨0, ⟨log, memory⟩, ⟨log', memory'⟩, rfl, rfl, hsize,
            .inr ⟨_, run_void hfind hf hreturns, run_void hfind hf hreturns⟩⟩
      | number =>
          have hends := callFunction_together code limit f memory.executed memory'.executed
            ⟨log, memory⟩ ⟨log', memory'⟩ ⟨hsize, 0, rfl, rfl⟩
          generalize hcall : callFunction code limit f ⟨log, memory⟩ = r,
            hcall' : callFunction code limit f ⟨log', memory'⟩ = r' at hends
          cases hends with
          | error stop hm =>
              obtain ⟨n, hn, hn'⟩ := hm.executed
              exact ⟨n, _, _, hn, hn', hm.size, .inr ⟨stop, run_number_error hfind hf hreturns hcall,
                run_number_error hfind hf hreturns hcall'⟩⟩
          | @ok _ _ m m' hresult hm =>
              obtain ⟨n, hn, hn'⟩ := hm.executed
              rcases isSome_cases hresult with ⟨rfl, rfl⟩ | ⟨x, x', rfl, rfl⟩
              · refine ⟨n, ⟨m.log.push (.executed m.state.executed entry none), m.state⟩,
                  ⟨m'.log.push (.executed m'.state.executed entry none), m'.state⟩, hn, hn', hm.size, ?_⟩
                exact .inr ⟨_, run_number_none hfind hf hreturns hcall,
                  run_number_none hfind hf hreturns hcall'⟩
              · refine ⟨n, ⟨m.log.push (.executed m.state.executed entry (some x)), m.state⟩,
                  ⟨m'.log.push (.executed m'.state.executed entry (some x')), m'.state⟩, hn, hn',
                  hm.size, ?_⟩
                exact .inl ⟨x, x', run_number_ok hfind hf hreturns hcall,
                  run_number_ok hfind hf hreturns hcall'⟩

def counting : Code where
  name := "counting"
  functions := #[⟨"run", .number, #[⟨0⟩]⟩]
  blocks := #[⟨"entry", ⟨0⟩, #[⟨2⟩, ⟨3⟩, ⟨4⟩, ⟨5⟩]⟩]
  values := #[⟨"g", .address ⟨0⟩, none⟩, ⟨"", .const 1.0, none⟩, ⟨"g.load", .load ⟨0⟩, some ⟨0⟩⟩,
    ⟨"sum", .arith .add ⟨2⟩ ⟨1⟩, some ⟨0⟩⟩, ⟨"", .store ⟨3⟩ ⟨0⟩, some ⟨0⟩⟩,
    ⟨"", .ret (some ⟨3⟩), some ⟨0⟩⟩]
  globals := #[⟨"g", 0.0, true, ⟨0⟩⟩]

theorem counting_lockstep : (Memory.mk #[0.0] 0).cells.size = (Memory.mk #[1.0] 4).cells.size ∧
    ∃ (n : Nat) (m m' : Logged Memory), m.state.executed = 0 + n ∧ m'.state.executed = 4 + n ∧
      m.state.cells.size = m'.state.cells.size ∧
      ((∃ x x', run "run" ⟨#[], counting, 8, #[0.0], 0⟩ = .ok x ⟨m.log, counting, 8, m.state⟩ ∧
          run "run" ⟨#[], counting, 8, #[1.0], 4⟩ = .ok x' ⟨m'.log, counting, 8, m'.state⟩) ∨
        ∃ stop, run "run" ⟨#[], counting, 8, #[0.0], 0⟩ =
            .error stop ⟨m.log, counting, 8, m.state⟩ ∧
          run "run" ⟨#[], counting, 8, #[1.0], 4⟩ =
            .error stop ⟨m'.log, counting, 8, m'.state⟩) :=
  have hsize : (Memory.mk #[0.0] 0).cells.size = (Memory.mk #[1.0] 4).cells.size := rfl
  ⟨hsize, run_lockstep counting 8 "run" #[] #[] hsize⟩

end Machine

end Niladic
