import Niladic.Action
import Niladic.Machine.Frame

namespace Niladic.Machine

inductive Effect where
  | define (x : Float)
  | allocate
  | setGlobal (g : GlobalId) (x : Float)
  | setSlot (slot : ValueId) (x : Float)
  | call (callee : FuncId)
  | leave (result : Option Float)

def trap {α : Type} (t : Trap) : Except Stop α := .error (.error (.backend (.trapped t)))

def resolve {α : Type} : Option α → Except Stop α
  | some a => .ok a
  | none => .error .badHandle

def operand (code : Code) (frame : Frame) (v : ValueId) : Except Stop Float := do
  match ← resolve (code.operation? v) with
  | .const x => .ok x
  | _ =>
      match frame.values[v]? with
      | some x => .ok x
      | none => trap (.undefined v)

def read (code : Code) (cells : Array Float) (frame : Frame) (p : ValueId) : Except Stop Float := do
  match ← resolve (code.operation? p) with
  | .address g => resolve cells[g.index]?
  | .slot =>
      match frame.slots[p]? with
      | some x => .ok x
      | none => trap (.readEarly p)
  | _ => trap (.badLoad p)

def write (code : Code) (cells : Array Float) (frame : Frame) (p : ValueId) (x : Float) :
    Except Stop Effect := do
  match ← resolve (code.operation? p) with
  | .address g => if g.index < cells.size then .ok (.setGlobal g x) else .error .badHandle
  | .slot => if frame.slots.contains p then .ok (.setSlot p x) else trap (.writtenEarly p)
  | _ => trap (.badStore p)

def effect (code : Code) (cells : Array Float) (frame : Frame) (v : ValueId) :
    Except Stop Effect := do
  match ← resolve (code.operation? v) with
  | .arith op left right =>
      let x ← operand code frame left
      let y ← operand code frame right
      .ok (.define (op.apply x y))
  | .slot => .ok .allocate
  | .load pointer => do .ok (.define (← read code cells frame pointer))
  | .store value pointer => do write code cells frame pointer (← operand code frame value)
  | .call callee => .ok (.call callee)
  | .ret none => .ok (.leave none)
  | .ret (some value) => do .ok (.leave (some (← operand code frame value)))
  | .const _ | .address _ => trap (.notInstruction v)

def enter (code : Code) (f : FuncId) (site : Option ValueId) : Except Stop (Frame × String) := do
  let function ← resolve (code.func? f)
  match function.blocks[0]? with
  | some block => .ok ({ func := f, block, site }, function.name)
  | none => trap (.noBody function.name)

inductive Step where
  | unfetched (stop : Stop)
  | failed (stop : Stop)
  | finished (result : Option Float)
  | moved (stack : Stack) (cells : Array Float) (entered : Option String)

def perform (code : Code) (limit : Nat) (cells : Array Float) (s : Stack) (v : ValueId) :
    Effect → Step
  | .define x => .moved (s.mapTop (·.advance.define v x)) cells none
  | .allocate => .moved (s.mapTop (·.advance.setSlot v 0.0)) cells none
  | .setGlobal g x => .moved (s.mapTop (·.advance)) (cells.setIfInBounds g.index x) none
  | .setSlot p x => .moved (s.mapTop (·.advance.setSlot p x)) cells none
  | .call callee =>
      if limit ≤ s.height then
        match code.func? callee with
        | some function => .failed (.error (.backend (.trapped (.depth limit function.name))))
        | none => .failed .badHandle
      else
        match enter code callee (some v) with
        | .ok (frame, name) => .moved ((s.mapTop (·.advance)).push frame) cells (some name)
        | .error stop => .failed stop
  | .leave result =>
      match h : s.callers with
      | [] => .finished result
      | caller :: rest =>
          .moved ⟨caller.receive s.top.site result, rest, s.height - 1, by simp [s.height_eq, h]⟩
            cells none

def step (code : Code) (limit : Nat) (cells : Array Float) (s : Stack) : Step :=
  match code.block? s.top.block with
  | none => .unfetched .badHandle
  | some block =>
      match block.body[s.top.next]? with
      | none =>
          match code.func? s.top.func with
          | some function =>
              .unfetched (.error (.backend (.trapped (.fellOff block.name function.name))))
          | none => .unfetched .badHandle
      | some v =>
          match effect code cells s.top v with
          | .ok effect => perform code limit cells s v effect
          | .error stop => .failed stop

theorem weight_perform_lt {code : Code} {limit : Nat} {cells cells' : Array Float} {s s' : Stack}
    {v : ValueId} {effect : Effect} {entered : Option String}
    (hnext : s.top.advance.remaining code < s.top.remaining code)
    (h : perform code limit cells s v effect = .moved s' cells' entered) :
    s'.weight code limit < s.weight code limit := by
  cases effect with
  | define x =>
      simp only [perform, Step.moved.injEq] at h
      rw [← h.1]
      exact Stack.weight_mapTop_lt (by rwa [Frame.remaining_define])
  | allocate =>
      simp only [perform, Step.moved.injEq] at h
      rw [← h.1]
      exact Stack.weight_mapTop_lt (by rwa [Frame.remaining_setSlot])
  | setGlobal g x =>
      simp only [perform, Step.moved.injEq] at h
      rw [← h.1]
      exact Stack.weight_mapTop_lt hnext
  | setSlot p x =>
      simp only [perform, Step.moved.injEq] at h
      rw [← h.1]
      exact Stack.weight_mapTop_lt (by rwa [Frame.remaining_setSlot])
  | call callee =>
      simp only [perform] at h
      split at h
      · split at h <;> simp at h
      next hlimit =>
        split at h
        · simp only [Step.moved.injEq] at h
          rw [← h.1]
          exact Stack.weight_push_lt (by omega) hnext
        · simp at h
  | leave result =>
      simp only [perform] at h
      split at h
      · simp at h
      next caller rest hcallers =>
        simp only [Step.moved.injEq] at h
        rw [← h.1]
        exact Stack.weight_pop_lt hcallers (Frame.remaining_receive ..) (by omega)

theorem weight_step_lt {code : Code} {limit : Nat} {cells cells' : Array Float} {s s' : Stack}
    {entered : Option String} (h : step code limit cells s = .moved s' cells' entered) :
    s'.weight code limit < s.weight code limit := by
  unfold step at h
  split at h
  · simp at h
  next block hblock =>
    split at h
    · split at h <;> simp at h
    next v hv =>
      split at h
      · have hnext : s.top.next < block.body.size := by
          rcases Array.getElem?_eq_some_iff.mp hv with ⟨hlt, _⟩
          exact hlt
        have hrem := Frame.remaining_advance hblock hnext
        exact weight_perform_lt (by omega) h
      · simp at h

end Niladic.Machine
