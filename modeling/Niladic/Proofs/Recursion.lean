import Niladic.Machine
import Niladic.Proofs.Actions
import Mathlib.Data.List.Basic

namespace Niladic.Machine

open Niladic.Action

abbrev Run := Action (Logged Memory) (Option Float)

def ticked (m : Logged Memory) : Logged Memory :=
  { m with state.executed := m.state.executed + 1 }

def setCell (g : GlobalId) (x : Float) : Action (Logged Memory) Unit :=
  modify fun m => { m with state.cells := m.state.cells.setIfInBounds g.index x }

def fallOff (code : Code) (frame : Frame) : Stop :=
  match code.block? frame.block, code.func? frame.func with
  | some block, some function => .error (.backend (.trapped (.fellOff block.name function.name)))
  | _, _ => .badHandle

def tooDeep (code : Code) (limit : Nat) (callee : FuncId) : Stop :=
  match code.func? callee with
  | some function => .error (.backend (.trapped (.depth limit function.name)))
  | none => .badHandle

def proceed (call : ValueId → FuncId → Run) (next : Frame → Run) (v : ValueId) (frame : Frame) :
    Effect → Run
  | .define x => next (frame.advance.define v x)
  | .allocate => next (frame.advance.setSlot v 0.0)
  | .setGlobal g x => do
      setCell g x
      next frame.advance
  | .setSlot p x => next (frame.advance.setSlot p x)
  | .call callee => do next (frame.advance.receive (some v) (← call v callee))
  | .leave result => pure result

def runBody (code : Code) (call : ValueId → FuncId → Run) : List ValueId → Frame → Run
  | [], frame => throw (fallOff code frame)
  | v :: rest, frame => fun m =>
      match effect code m.state.cells frame v with
      | .error stop => .error stop (ticked m)
      | .ok effect =>
          proceed call (fun frame => runBody code call rest frame) v frame effect (ticked m)

theorem runBody_cons_error {code : Code} {frame : Frame} {v : ValueId} {m : Logged Memory}
    {stop : Stop} (h : effect code m.state.cells frame v = .error stop)
    (call : ValueId → FuncId → Run) (rest : List ValueId) :
    runBody code call (v :: rest) frame m = .error stop (ticked m) := by
  simp only [runBody, h]

theorem runBody_cons_ok {code : Code} {frame : Frame} {v : ValueId} {m : Logged Memory}
    {e : Effect} (h : effect code m.state.cells frame v = .ok e)
    (call : ValueId → FuncId → Run) (rest : List ValueId) :
    runBody code call (v :: rest) frame m =
      proceed call (runBody code call rest) v frame e (ticked m) := by
  simp only [runBody, h]

def runFrame (code : Code) (call : ValueId → FuncId → Run) (frame : Frame) : Run :=
  match code.block? frame.block with
  | none => throw .badHandle
  | some block => runBody code call (block.body.toList.drop frame.next) frame

def runEntered (code : Code) (call : ValueId → FuncId → Run) (f : FuncId)
    (site : Option ValueId) : Run :=
  match enter code f site with
  | .error stop => throw stop
  | .ok (frame, name) => do
      Logged.emit (.entering name)
      runFrame code call frame

theorem runEntered_block {code : Code} {call : ValueId → FuncId → Run} {f : FuncId}
    {function : Func} {b : BlockId} {block : Block} {site : Option ValueId} {m : Logged Memory}
    (hf : code.func? f = some function) (hfirst : function.blocks[0]? = some b)
    (hb : code.block? b = some block) : runEntered code call f site m =
      runBody code call block.body.toList { func := f, block := b, site }
        { m with log := m.log.push (.entering function.name) } := by
  have henter : enter code f site = .ok ({ func := f, block := b, site }, function.name) := by
    simp [enter, hf, hfirst, resolve, bind, Except.bind]
  unfold runEntered
  rw [henter]
  simp only [runFrame, hb, List.drop_zero]
  exact bind_of_ok (Logged.emit_apply ..)

theorem runEntered_noBody {code : Code} {call : ValueId → FuncId → Run} {f : FuncId}
    {function : Func} {site : Option ValueId} {m : Logged Memory}
    (hf : code.func? f = some function) (hfirst : function.blocks[0]? = none) :
    runEntered code call f site m =
      .error (.error (.backend (.trapped (.noBody function.name)))) m := by
  have henter : enter code f site = trap (.noBody function.name) := by
    simp [enter, hf, hfirst, resolve, bind, Except.bind]
  unfold runEntered
  rw [henter]
  rfl

theorem runEntered_eq {code : Code} {call : ValueId → FuncId → Run} {f : FuncId} {function : Func}
    {block : Block} {site : Option ValueId} {m : Logged Memory}
    (hf : code.func? f = some function) (hblocks : function.blocks = #[⟨f.index⟩])
    (hb : code.block? ⟨f.index⟩ = some block) : runEntered code call f site m =
      runBody code call block.body.toList { func := f, block := ⟨f.index⟩, site }
        { m with log := m.log.push (.entering function.name) } :=
  runEntered_block hf (by rw [hblocks]; rfl) hb

def nested (code : Code) (limit frames : Nat) (v : ValueId) (callee : FuncId) : Run :=
  if frames < limit then runEntered code (nested code limit (frames + 1)) callee (some v)
  else throw (tooDeep code limit callee)
termination_by limit - frames

theorem nested_of_lt {code : Code} {limit frames : Nat} (h : frames < limit) (v : ValueId)
    (callee : FuncId) : nested code limit frames v callee =
      runEntered code (nested code limit (frames + 1)) callee (some v) := by
  rw [nested, if_pos h]

theorem nested_of_not_lt {code : Code} {limit frames : Nat} (h : ¬ frames < limit) (v : ValueId)
    (callee : FuncId) : nested code limit frames v callee = throw (tooDeep code limit callee) := by
  rw [nested, if_neg h]

theorem frames_induction (limit : Nat) {motive : Nat → Prop}
    (deep : ∀ frames, ¬ frames < limit → motive frames)
    (call : ∀ frames, frames < limit → motive (frames + 1) → motive frames) (frames : Nat) :
    motive frames := by
  -- Each call leaves one frame less below the limit.
  induction hn : limit - frames using Nat.strongRecOn generalizing frames with
  | ind n ih =>
      by_cases hlimit : frames < limit
      · exact call frames hlimit (ih (limit - (frames + 1)) (by omega) (frames + 1) rfl)
      · exact deep frames hlimit

variable {code : Code} {limit : Nat} {s : Stack} {m : Logged Memory}

theorem execute_unfetched {stop : Stop}
    (h : step code limit m.state.cells s = .unfetched stop) :
    execute code limit s m = .error stop m := by
  rw [execute]
  split <;> simp_all

theorem execute_failed {stop : Stop} (h : step code limit m.state.cells s = .failed stop) :
    execute code limit s m =
      .error stop { m with state.executed := m.state.executed + 1 } := by
  rw [execute]
  split <;> simp_all

theorem execute_finished {result : Option Float}
    (h : step code limit m.state.cells s = .finished result) :
    execute code limit s m =
      .ok result { m with state.executed := m.state.executed + 1 } := by
  rw [execute]
  split <;> simp_all

def entered (log : Log) : Option String → Log
  | some name => log.push (.entering name)
  | none => log

theorem execute_moved {s' : Stack} {cells : Array Float} {name : Option String}
    (h : step code limit m.state.cells s = .moved s' cells name) :
    execute code limit s m =
      execute code limit s' ⟨entered m.log name, cells, m.state.executed + 1⟩ := by
  rw [execute]
  split
  next stop heq => simp [h] at heq
  next stop heq => simp [h] at heq
  next result heq => simp [h] at heq
  next stack' cells' name' heq =>
    rw [h] at heq
    cases heq
    cases name <;> rfl

def stackOf (top : Frame) (callers : List Frame) : Stack := ⟨top, callers, callers.length + 1, rfl⟩

theorem receive_eq (frame : Frame) (site : Option ValueId) (result : Option Float) :
    (frame.receive site result).block = frame.block ∧
      (frame.receive site result).next = frame.next ∧
      (frame.receive site result).site = frame.site := by
  cases site <;> cases result <;> exact ⟨rfl, rfl, rfl⟩

def resume (code : Code) (limit : Nat) (site : Option ValueId) (callers : List Frame)
    (result : Option Float) : Run :=
  match callers with
  | [] => pure result
  | caller :: rest => execute code limit (stackOf (caller.receive site result) rest)

theorem step_stackOf {top : Frame} {block : Block} {v : ValueId} {rest : List ValueId}
    (callers : List Frame) (cells : Array Float) (hb : code.block? top.block = some block)
    (hrest : block.body.toList.drop top.next = v :: rest) :
    step code limit cells (stackOf top callers) =
      match effect code cells top v with
      | .ok effect => perform code limit cells (stackOf top callers) v effect
      | .error stop => .failed stop := by
  have hv : block.body[top.next]? = some v := by
    rw [← Array.getElem?_toList, ← List.head?_drop, hrest]
    rfl
  cases heffect : effect code cells top v <;> simp [step, stackOf, hb, hv, heffect]

theorem step_ended {top : Frame} {callers : List Frame} {block : Block} {cells : Array Float}
    (hb : code.block? top.block = some block) (hrest : block.body.toList.drop top.next = []) :
    step code limit cells (stackOf top callers) = .unfetched (fallOff code top) := by
  have hv : block.body[top.next]? = none := by
    rw [← Array.getElem?_toList, ← List.head?_drop, hrest]
    rfl
  unfold step fallOff
  simp only [stackOf, hb, hv]
  cases code.func? top.func <;> rfl

theorem perform_call_deep {callers : List Frame} (h : ¬ callers.length + 1 < limit)
    (cells : Array Float) (top : Frame) (v : ValueId) (callee : FuncId) :
    perform code limit cells (stackOf top callers) v (.call callee) =
      .failed (tooDeep code limit callee) := by
  have hheight : limit ≤ (stackOf top callers).height := Nat.not_lt.mp h
  simp only [perform, tooDeep, if_pos hheight]
  cases code.func? callee <;> rfl

theorem perform_call_error {callers : List Frame} {callee : FuncId} {v : ValueId} {stop : Stop}
    (h : callers.length + 1 < limit) (henter : enter code callee (some v) = .error stop)
    (cells : Array Float) (top : Frame) :
    perform code limit cells (stackOf top callers) v (.call callee) = .failed stop := by
  have hheight : ¬ limit ≤ (stackOf top callers).height := Nat.not_le.mpr h
  simp only [perform, if_neg hheight, henter]

theorem perform_call_ok {callers : List Frame} {callee : FuncId} {v : ValueId} {frame : Frame}
    {name : String} (h : callers.length + 1 < limit)
    (henter : enter code callee (some v) = .ok (frame, name)) (cells : Array Float) (top : Frame) :
    perform code limit cells (stackOf top callers) v (.call callee) =
      .moved (stackOf frame (top.advance :: callers)) cells (some name) := by
  have hheight : ¬ limit ≤ (stackOf top callers).height := Nat.not_le.mpr h
  simp only [perform, if_neg hheight, henter]
  rfl

theorem enter_ok {f : FuncId} {site : Option ValueId} {frame : Frame} {name : String}
    (h : enter code f site = .ok (frame, name)) : frame.site = site := by
  unfold enter at h
  cases hf : code.func? f with
  | none => simp [hf, resolve, bind, Except.bind] at h
  | some function =>
      cases hb : function.blocks[0]? with
      | none => simp [hf, hb, resolve, bind, Except.bind, trap] at h
      | some b =>
          simp only [hf, hb, resolve, bind, Except.bind, Except.ok.injEq, Prod.mk.injEq] at h
          rw [← h.1]

def CallsRecur (code : Code) (limit : Nat) (callers : List Frame) : Prop :=
  callers.length + 1 < limit → ∀ frame caller,
    execute code limit (stackOf frame (caller :: callers)) =
      runFrame code (nested code limit (callers.length + 2)) frame >>=
        resume code limit frame.site (caller :: callers)

theorem execute_call {callers : List Frame} (hcalls : CallsRecur code limit callers) {top : Frame}
    {v : ValueId} {callee : FuncId} (hstep : step code limit m.state.cells (stackOf top callers) =
      perform code limit m.state.cells (stackOf top callers) v (.call callee)) :
    execute code limit (stackOf top callers) m =
      (nested code limit (callers.length + 1) v callee >>= fun result =>
        execute code limit (stackOf (top.advance.receive (some v) result) callers)) (ticked m) := by
  by_cases hlimit : callers.length + 1 < limit
  · rw [nested_of_lt hlimit, runEntered]
    cases henter : enter code callee (some v) with
    | error stop => exact execute_failed (hstep.trans (perform_call_error hlimit henter _ _))
    | ok entry =>
        obtain ⟨frame, name⟩ := entry
        rw [execute_moved (hstep.trans (perform_call_ok hlimit henter _ _)), hcalls hlimit,
          enter_ok henter]
        rfl
  · rw [nested_of_not_lt hlimit]
    exact execute_failed (hstep.trans (perform_call_deep hlimit _ _ _ _))

theorem execute_body {callers : List Frame} (hcalls : CallsRecur code limit callers)
    {block : Block} {rest : List ValueId} {top : Frame}
    (hb : code.block? top.block = some block) (hrest : block.body.toList.drop top.next = rest) :
    execute code limit (stackOf top callers) =
      runBody code (nested code limit (callers.length + 1)) rest top >>=
        resume code limit top.site callers := by
  induction rest generalizing top with
  | nil =>
      funext m
      exact (execute_unfetched (step_ended hb hrest)).trans (bind_of_error rfl).symm
  | cons v rest ih =>
      have hnext : block.body.toList.drop top.advance.next = rest := by
        change block.body.toList.drop (top.next + 1) = rest
        rw [← List.tail_drop, hrest]
        rfl
      funext m
      have hstep : step code limit m.state.cells (stackOf top callers) = _ :=
        step_stackOf callers m.state.cells hb hrest
      cases heffect : effect code m.state.cells top v with
      | error stop =>
          rw [heffect] at hstep
          rw [bind_of_error (runBody_cons_error heffect _ rest)]
          exact execute_failed hstep
      | ok e =>
          rw [heffect] at hstep
          rw [bind_apply, runBody_cons_ok heffect, ← bind_apply]
          cases e with
          | define x =>
              rw [execute_moved hstep]
              exact congrFun (@ih (top.advance.define v x) hb hnext) (ticked m)
          | allocate =>
              rw [execute_moved hstep]
              exact congrFun (@ih (top.advance.setSlot v 0.0) hb hnext) (ticked m)
          | setGlobal g x =>
              rw [execute_moved hstep]
              exact congrFun (@ih top.advance hb hnext) _
          | setSlot p x =>
              rw [execute_moved hstep]
              exact congrFun (@ih (top.advance.setSlot p x) hb hnext) (ticked m)
          | call callee =>
              have hresumed (result : Option Float) :
                  execute code limit (stackOf (top.advance.receive (some v) result) callers) =
                    runBody code (nested code limit (callers.length + 1)) rest
                      (top.advance.receive (some v) result) >>=
                        resume code limit top.site callers := by
                obtain ⟨hblock, hindex, hsite⟩ := receive_eq top.advance (some v) result
                have hih := @ih (top.advance.receive (some v) result)
                  (by rw [hblock]; exact hb) (by rw [hindex]; exact hnext)
                rwa [hsite] at hih
              change _ = ((nested code limit (callers.length + 1) v callee >>= fun result =>
                runBody code (nested code limit (callers.length + 1)) rest
                  (top.advance.receive (some v) result)) >>=
                    resume code limit top.site callers) (ticked m)
              rw [bind_assoc, execute_call hcalls hstep]
              simp only [hresumed]
          | leave result =>
              cases callers with
              | nil => exact execute_finished hstep
              | cons caller callers => exact execute_moved hstep

theorem execute_stackOf (code : Code) (limit : Nat) (top : Frame) (callers : List Frame) :
    execute code limit (stackOf top callers) =
      runFrame code (nested code limit (callers.length + 1)) top >>=
        resume code limit top.site callers := by
  -- A call leaves one frame less below the limit, so the calls of a body are runs by hypothesis.
  induction hn : limit - callers.length using Nat.strongRecOn generalizing top callers with
  | ind n ih =>
      unfold runFrame
      cases hb : code.block? top.block with
      | none =>
          funext m
          refine execute_unfetched ?_
          simp only [step, stackOf, hb]
      | some block =>
          refine execute_body (fun hlimit frame caller => ?_) hb rfl
          refine ih (limit - (callers.length + 1)) (by omega) frame (caller :: callers) rfl

theorem callFunction_eq (code : Code) (limit : Nat) (f : FuncId) :
    callFunction code limit f = runEntered code (nested code limit 1) f none := by
  unfold callFunction runEntered
  cases enter code f none with
  | error stop => rfl
  | ok entry =>
      obtain ⟨frame, name⟩ := entry
      have hexecute : execute code limit (Stack.single frame) =
          runFrame code (nested code limit 1) frame >>= pure :=
        execute_stackOf code limit frame []
      simp only [hexecute, bind_pure]

section

variable {σ : Type} {f : FuncId} {function : Func} {name : String}

def blank (code : Code) : Memory := { cells := code.globals.map Global.initial }

theorem withMemory_of_ok {α : Type} {x : Action (Logged Memory) α} {l : Logged Machine} {a : α}
    {m : Logged Memory} (h : x ⟨l.log, l.state.memory⟩ = .ok a m) :
    withMemory x l = .ok a ⟨m.log, { l.state with memory := m.state }⟩ := by
  unfold withMemory Logged.focus Action.focus
  simp only [h]

theorem withMemory_of_error {α : Type} {x : Action (Logged Memory) α} {l : Logged Machine}
    {stop : Stop} {m : Logged Memory} (h : x ⟨l.log, l.state.memory⟩ = .error stop m) :
    withMemory x l = .error stop ⟨m.log, { l.state with memory := m.state }⟩ := by
  unfold withMemory Logged.focus Action.focus
  simp only [h]

variable {memory : Memory} {log : Log}

theorem func_of_findFunction (hfind : code.findFunction? name = some f) :
    ∃ function, code.func? f = some function := by
  unfold Code.findFunction? at hfind
  obtain ⟨i, hi, rfl⟩ := Option.map_eq_some_iff.mp hfind
  obtain ⟨hlt, -⟩ := Array.findIdx?_eq_some_iff_getElem.mp hi
  exact ⟨_, Array.getElem?_eq_getElem hlt⟩

theorem run_unknown (hfind : code.findFunction? name = none) :
    run name ⟨log, code, limit, memory⟩ = .error (.error (.backend (.trapped (.noEntry name))))
      ⟨log.push (.entryNotFound name), code, limit, memory⟩ := by
  unfold run
  rw [bind_of_ok (get_apply _)]
  simp only [hfind]
  rfl

theorem run_void (hfind : code.findFunction? name = some f) (hf : code.func? f = some function)
    (hreturns : function.returns = .void) :
    run name ⟨log, code, limit, memory⟩ = .error (.error (.backend (.trapped (.voidEntry name))))
      ⟨log, code, limit, memory⟩ := by
  unfold run
  rw [bind_of_ok (get_apply _)]
  simp only [hfind, hf, resolve_some, pure_bind, hreturns]
  rfl

theorem run_number_ok {x : Float} (hfind : code.findFunction? name = some f)
    (hf : code.func? f = some function) (hreturns : function.returns = .number)
    (hcall : callFunction code limit f ⟨log, memory⟩ = .ok (some x) m) :
    run name ⟨log, code, limit, memory⟩ = .ok x
      ⟨m.log.push (.executed m.state.executed name (some x)), code, limit, m.state⟩ := by
  unfold run
  rw [bind_of_ok (get_apply _)]
  simp only [hfind, hf, resolve_some, pure_bind, hreturns]
  rw [bind_of_ok (withMemory_of_ok hcall)]
  rfl

theorem run_number_none (hfind : code.findFunction? name = some f)
    (hf : code.func? f = some function) (hreturns : function.returns = .number)
    (hcall : callFunction code limit f ⟨log, memory⟩ = .ok none m) :
    run name ⟨log, code, limit, memory⟩ = .error (.error (.backend (.trapped (.noResult name))))
      ⟨m.log.push (.executed m.state.executed name none), code, limit, m.state⟩ := by
  unfold run
  rw [bind_of_ok (get_apply _)]
  simp only [hfind, hf, resolve_some, pure_bind, hreturns]
  rw [bind_of_ok (withMemory_of_ok hcall)]
  rfl

theorem run_number_error {stop : Stop} (hfind : code.findFunction? name = some f)
    (hf : code.func? f = some function) (hreturns : function.returns = .number)
    (hcall : callFunction code limit f ⟨log, memory⟩ = .error stop m) :
    run name ⟨log, code, limit, memory⟩ = .error stop ⟨m.log, code, limit, m.state⟩ := by
  unfold run
  rw [bind_of_ok (get_apply _)]
  simp only [hfind, hf, resolve_some, pure_bind, hreturns]
  exact bind_of_error (withMemory_of_error hcall)

def booted {α : Type} (code : Code) (limit : Nat) (x : Action (Logged Machine) α) :
    Action (Logged σ) α := do
  let machine ← boot code limit
  Logged.borrow machine x

theorem booted_of_ok {α : Type} {x : Action (Logged Machine) α} {l : Logged σ} {a : α}
    {final : Logged Machine}
    (h : x ⟨l.log.push (.machineReady code.name), code, limit, blank code⟩ = .ok a final) :
    booted code limit x l = .ok a ⟨final.log, l.state⟩ := by
  change Logged.borrow _ _ _ = _
  simp only [Logged.borrow, blank] at h ⊢
  rw [h]

theorem booted_of_error {α : Type} {x : Action (Logged Machine) α} {l : Logged σ} {stop : Stop}
    {final : Logged Machine}
    (h : x ⟨l.log.push (.machineReady code.name), code, limit, blank code⟩ = .error stop final) :
    booted code limit x l = .error stop ⟨final.log, l.state⟩ := by
  change Logged.borrow _ _ _ = _
  simp only [Logged.borrow, blank] at h ⊢
  rw [h]

theorem run_of_ok {l : Logged σ} {x : Float} (hfind : code.findFunction? name = some f)
    (hf : code.func? f = some function) (hreturns : function.returns = .number)
    (hcall : callFunction code limit f ⟨l.log.push (.machineReady code.name), blank code⟩ =
      .ok (some x) m) : (code.run limit name).outcome l = .ok x :=
  outcome_of_ok (booted_of_ok (run_number_ok hfind hf hreturns hcall))

theorem run_of_error {l : Logged σ} {stop : Stop} (hfind : code.findFunction? name = some f)
    (hf : code.func? f = some function) (hreturns : function.returns = .number)
    (hcall : callFunction code limit f ⟨l.log.push (.machineReady code.name), blank code⟩ =
      .error stop m) : (code.run limit name).outcome l = .error stop :=
  outcome_of_error (booted_of_error (run_number_error hfind hf hreturns hcall))

/-- Two runs that return the same number, or that the limit stops at the same call, and that leave
the same globals with the same numbers. -/
inductive AnswersAlike (limit : Nat) : EStateM.Result Stop (Logged Machine) Float →
    EStateM.Result Stop (Logged Machine) Float → Prop
  | number (x : Float) {l l' : Logged Machine}
      (h : ∀ n, l.state.globalValue? n = l'.state.globalValue? n) :
      AnswersAlike limit (.ok x l) (.ok x l')
  | depth (callee : String) {l l' : Logged Machine}
      (h : ∀ n, l.state.globalValue? n = l'.state.globalValue? n) :
      AnswersAlike limit (.error (.error (.backend (.trapped (.depth limit callee)))) l)
        (.error (.error (.backend (.trapped (.depth limit callee)))) l')

theorem outcome_eq_of_alike {code code' : Code} {entry : String} {limit : Nat}
    (h : ∀ log log', AnswersAlike limit (run entry ⟨log, code, limit, blank code⟩)
      (run entry ⟨log', code', limit, blank code'⟩)) (l l' : Logged σ) :
    (code.run limit entry).outcome l = (code'.run limit entry).outcome l' := by
  have hends := h (l.log.push (.machineReady code.name)) (l'.log.push (.machineReady code'.name))
  generalize hrun : run entry ⟨l.log.push (.machineReady code.name), _⟩ = r,
    hrun' : run entry ⟨l'.log.push (.machineReady code'.name), _⟩ = r' at hends
  cases hends with
  | number x =>
      exact (outcome_of_ok (booted_of_ok hrun)).trans (outcome_of_ok (booted_of_ok hrun')).symm
  | depth callee =>
      exact (outcome_of_error (booted_of_error hrun)).trans
        (outcome_of_error (booted_of_error hrun')).symm

end

end Niladic.Machine
