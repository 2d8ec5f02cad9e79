import Niladic.Proofs.Recursion

/-!
Code evaluated directly. A function is the instructions of its first block in order, with numbers of
its own, and a call is the evaluation of its callee. Nothing is kept of a call but what it returns:
there are no frames, and nothing says where to go on.
-/

namespace Niladic

structure Locals where
  values : ValueId → Option Float := fun _ => none
  slots : ValueId → Option Float := fun _ => none

namespace Locals

def define (locals : Locals) (v : ValueId) (x : Float) : Locals :=
  { locals with values := fun u => if u = v then some x else locals.values u }

def setSlot (locals : Locals) (p : ValueId) (x : Float) : Locals :=
  { locals with slots := fun u => if u = p then some x else locals.slots u }

end Locals

namespace Code

open Niladic.Action

abbrev Evaluation := Action Memory

def halt {α : Type} (t : Trap) : Evaluation α := Action.fail (.backend (.trapped t))

def number (code : Code) (locals : Locals) (v : ValueId) : Evaluation Float := do
  match ← resolve (code.operation? v) with
  | .const x => return x
  | _ =>
      match locals.values v with
      | some x => return x
      | none => halt (.undefined v)

def fetch (code : Code) (locals : Locals) (p : ValueId) : Evaluation Float := do
  match ← resolve (code.operation? p) with
  | .address g => resolve (← get).cells[g.index]?
  | .slot =>
      match locals.slots p with
      | some x => return x
      | none => halt (.readEarly p)
  | _ => halt (.badLoad p)

def put (code : Code) (locals : Locals) (p : ValueId) (x : Float) : Evaluation Locals := do
  match ← resolve (code.operation? p) with
  | .address g =>
      if g.index < (← get).cells.size then
        modify fun m => { m with cells := m.cells.setIfInBounds g.index x }
        return locals
      else throw .badHandle
  | .slot => if (locals.slots p).isSome then return locals.setSlot p x else halt (.writtenEarly p)
  | _ => halt (.badStore p)

def evaluateBody (code : Code) (call : FuncId → Evaluation (Option Float)) (ended : Stop) :
    List ValueId → Locals → Evaluation (Option Float)
  | [], _ => throw ended
  | v :: rest, locals => do
      modify fun m => { m with executed := m.executed + 1 }
      match ← resolve (code.operation? v) with
      | .arith op left right =>
          let x ← code.number locals left
          let y ← code.number locals right
          code.evaluateBody call ended rest (locals.define v (op.apply x y))
      | .slot => code.evaluateBody call ended rest (locals.setSlot v 0.0)
      | .load pointer =>
          let x ← code.fetch locals pointer
          code.evaluateBody call ended rest (locals.define v x)
      | .store value pointer =>
          let x ← code.number locals value
          let locals ← code.put locals pointer x
          code.evaluateBody call ended rest locals
      | .call callee =>
          match ← call callee with
          | some x => code.evaluateBody call ended rest (locals.define v x)
          | none => code.evaluateBody call ended rest locals
      | .ret none => return none
      | .ret (some value) => return some (← code.number locals value)
      | .const _ | .address _ => halt (.notInstruction v)

def evaluateFunction (code : Code) (call : FuncId → Evaluation (Option Float)) (f : FuncId) :
    Evaluation (Option Float) := do
  let function ← resolve (code.func? f)
  match function.blocks[0]? with
  | none => halt (.noBody function.name)
  | some b =>
      let block ← resolve (code.block? b)
      let ended : Stop := .error (.backend (.trapped (.fellOff block.name function.name)))
      code.evaluateBody call ended block.body.toList {}

def evaluateCall (code : Code) (limit active : Nat) (callee : FuncId) :
    Evaluation (Option Float) :=
  if limit ≤ active then do
    let function ← resolve (code.func? callee)
    halt (.depth limit function.name)
  else code.evaluateFunction (code.evaluateCall limit (active + 1)) callee
termination_by limit - active

def evaluate (code : Code) (limit : Nat) (f : FuncId) : Evaluation (Option Float) :=
  code.evaluateFunction (code.evaluateCall limit 1) f

end Code

namespace Logged

variable {σ α β : Type}

def unlogged : EStateM.Result Stop (Logged σ) α → EStateM.Result Stop σ α
  | .ok a l => .ok a l.state
  | .error stop l => .error stop l.state

def Does (x : Action (Logged σ) α) (y : Action σ α) : Prop := ∀ l, unlogged (x l) = y l.state

theorem Does.throw (stop : Stop) : Does (throw stop : Action (Logged σ) α) (throw stop) :=
  fun _ => rfl

theorem Does.emit {x : Action (Logged σ) α} {y : Action σ α} (h : Does x y) (e : Event) :
    Does (do Logged.emit e; x) y := by
  intro l
  rw [Action.bind_of_ok (emit_apply e l)]
  exact h _

theorem Does.bind {x : Action (Logged σ) α} {y : Action σ α} {g : α → Action (Logged σ) β}
    {g' : α → Action σ β} (hx : Does x y) (hg : ∀ a, Does (g a) (g' a)) :
    Does (x >>= g) (y >>= g') := by
  intro l
  have hl := hx l
  cases hresult : x l with
  | ok a l' =>
      rw [hresult] at hl
      rw [Action.bind_of_ok hresult, Action.bind_of_ok hl.symm]
      exact hg a l'
  | error stop l' =>
      rw [hresult] at hl
      rw [Action.bind_of_error hresult, Action.bind_of_error hl.symm]
      rfl

end Logged

def Frame.locals (frame : Frame) : Locals :=
  ⟨fun v => frame.values[v]?, fun v => frame.slots[v]?⟩

namespace Frame

theorem locals_new (f : FuncId) (b : BlockId) (site : Option ValueId) :
    Frame.locals { func := f, block := b, site } = {} := by
  simp only [locals, Std.HashMap.getElem?_empty]

theorem getElem?_insert_eq (map : Std.HashMap ValueId Float) (v : ValueId) (x : Float) :
    (fun u => (map.insert v x)[u]?) = fun u => if u = v then some x else map[u]? := by
  funext u
  rw [Std.HashMap.getElem?_insert]
  by_cases hu : u = v
  · simp [hu]
  · simp [hu, Ne.symm hu]

theorem locals_define (frame : Frame) (v : ValueId) (x : Float) :
    (frame.define v x).locals = frame.locals.define v x := by
  simp only [locals, define, Locals.define, getElem?_insert_eq]

theorem locals_setSlot (frame : Frame) (p : ValueId) (x : Float) :
    (frame.setSlot p x).locals = frame.locals.setSlot p x := by
  simp only [locals, setSlot, Locals.setSlot, getElem?_insert_eq]

end Frame

namespace Machine

open Niladic.Action Logged

variable {code : Code} {frame : Frame}

theorem resolve_bind {α β : Type} (a : α) (g : α → Except Stop β) :
    (resolve (some a) >>= g) = g a := rfl

theorem number_locals (code : Code) (frame : Frame) (v : ValueId) (m : Memory) :
    code.number frame.locals v m = match operand code frame v with
      | .ok x => .ok x m
      | .error stop => .error stop m := by
  unfold Code.number operand
  cases hop : code.operation? v with
  | none => rfl
  | some op =>
      rw [resolve_some, pure_bind, resolve_bind]
      cases op with
      | const x => rfl
      | _ =>
          change (match frame.values[v]? with | some x => _ | none => _ : Code.Evaluation Float) m = _
          cases hvalue : frame.values[v]? <;> rfl

theorem fetch_locals (code : Code) (frame : Frame) (p : ValueId) (m : Memory) :
    code.fetch frame.locals p m = match read code m.cells frame p with
      | .ok x => .ok x m
      | .error stop => .error stop m := by
  unfold Code.fetch read
  cases hop : code.operation? p with
  | none => rfl
  | some op =>
      rw [resolve_some, pure_bind, resolve_bind]
      cases op with
      | address g =>
          dsimp only
          rw [bind_of_ok (get_apply m)]
          cases m.cells[g.index]? <;> rfl
      | slot =>
          change (match frame.slots[p]? with | some x => _ | none => _ : Code.Evaluation Float) m = _
          cases frame.slots[p]? <;> rfl
      | _ => rfl

section

variable {next : Frame → Run} {next' : Locals → Code.Evaluation (Option Float)}

theorem put_does (call : ValueId → FuncId → Run)
    (hnext : ∀ frame' : Frame, frame'.block = frame.block → frame'.func = frame.func →
      Does (next frame') (next' frame'.locals)) (v p : ValueId) (x : Float) (m : Logged Memory) :
    (unlogged <| match write code m.state.cells frame p x with
      | .error stop => .error stop m
      | .ok e => proceed call next v frame e m) = (code.put frame.locals p x >>= next') m.state := by
  unfold write Code.put
  cases hop : code.operation? p with
  | none => rfl
  | some op =>
      rw [resolve_some, pure_bind, resolve_bind]
      cases op with
      | address g =>
          dsimp only
          by_cases hg : g.index < m.state.cells.size
          · rw [if_pos hg, bind_assoc, bind_of_ok (get_apply m.state), if_pos hg]
            exact hnext frame.advance rfl rfl _
          · rw [if_neg hg, bind_assoc, bind_of_ok (get_apply m.state), if_neg hg]
            rfl
      | slot =>
          dsimp only
          rw [Std.HashMap.contains_eq_isSome_getElem?]
          change _ = ((if frame.slots[p]?.isSome then _ else _) >>= next') m.state
          cases frame.slots[p]? with
          | none => rfl
          | some y =>
              have hslot := hnext (frame.advance.setSlot p x) rfl rfl m
              rw [Frame.locals_setSlot] at hslot
              exact hslot
      | _ => rfl

theorem fallOff_congr {frame' : Frame} (hblock : frame'.block = frame.block)
    (hfunc : frame'.func = frame.func) : fallOff code frame' = fallOff code frame := by
  unfold fallOff
  rw [hblock, hfunc]

theorem runBody_does {call : ValueId → FuncId → Run} {call' : FuncId → Code.Evaluation (Option Float)}
    (hcall : ∀ v callee, Does (call v callee) (call' callee)) (vs : List ValueId) (frame : Frame) :
    Does (runBody code call vs frame)
      (code.evaluateBody call' (fallOff code frame) vs frame.locals) := by
  induction vs generalizing frame with
  | nil => exact Does.throw _
  | cons v rest ih =>
      have hnext (frame' : Frame) (hblock : frame'.block = frame.block)
          (hfunc : frame'.func = frame.func) : Does (runBody code call rest frame')
            (code.evaluateBody call' (fallOff code frame) rest frame'.locals) := by
        rw [← fallOff_congr hblock hfunc]
        exact ih frame'
      have hdefine (x : Float) : Does (runBody code call rest (frame.advance.define v x))
          (code.evaluateBody call' (fallOff code frame) rest (frame.locals.define v x)) := by
        have hlocals : (frame.advance.define v x).locals = frame.locals.define v x :=
          Frame.locals_define frame.advance v x
        rw [← hlocals]
        exact hnext (frame.advance.define v x) rfl rfl
      intro m
      rw [Code.evaluateBody, bind_of_ok (modify_apply _ _)]
      change (unlogged <| match effect code m.state.cells frame v with
        | .error stop => .error stop (ticked m)
        | .ok e => proceed call (runBody code call rest) v frame e (ticked m)) = _
      unfold effect
      cases hop : code.operation? v with
      | none => rfl
      | some op =>
          rw [resolve_some, pure_bind, resolve_bind]
          cases op with
          | const x => rfl
          | address g => rfl
          | arith op left right =>
              dsimp only
              rw [bind_apply, number_locals]
              cases operand code frame left with
              | error stop => rfl
              | ok x =>
                  dsimp only
                  rw [bind_apply, number_locals]
                  cases operand code frame right with
                  | error stop => rfl
                  | ok y => exact hdefine (op.apply x y) (ticked m)
          | slot =>
              have hslot := hnext (frame.advance.setSlot v 0.0) rfl rfl (ticked m)
              rw [Frame.locals_setSlot] at hslot
              exact hslot
          | load pointer =>
              dsimp only
              rw [bind_apply, fetch_locals]
              cases read code m.state.cells frame pointer with
              | error stop => rfl
              | ok x => exact hdefine x (ticked m)
          | store value pointer =>
              dsimp only
              rw [bind_apply, number_locals]
              cases operand code frame value with
              | error stop => rfl
              | ok x => exact put_does call hnext v pointer x (ticked m)
          | call callee =>
              refine Does.bind (hcall v callee) (fun result => ?_) (ticked m)
              cases result with
              | none => exact hnext frame.advance rfl rfl
              | some x => exact hdefine x
          | ret value =>
              cases value with
              | none => rfl
              | some value =>
                  dsimp only
                  rw [bind_apply, number_locals]
                  cases operand code frame value <;> rfl

end

theorem runEntered_does {call : ValueId → FuncId → Run}
    {call' : FuncId → Code.Evaluation (Option Float)}
    (hcall : ∀ v callee, Does (call v callee) (call' callee)) (f : FuncId)
    (site : Option ValueId) :
    Does (runEntered code call f site) (code.evaluateFunction call' f) := by
  unfold runEntered enter Code.evaluateFunction
  cases hf : code.func? f with
  | none => exact Does.throw _
  | some function =>
      rw [resolve_some, pure_bind, resolve_bind]
      cases hfirst : function.blocks[0]? with
      | none => exact Does.throw _
      | some b =>
          refine Does.emit ?_ (.entering function.name)
          unfold runFrame
          dsimp only
          cases hb : code.block? b with
          | none => exact Does.throw _
          | some block =>
              rw [resolve_some, pure_bind]
              have hbody : Does (runBody code call block.body.toList _) _ :=
                runBody_does hcall block.body.toList { func := f, block := b, site }
              have hended : fallOff code { func := f, block := b, site } =
                  .error (.backend (.trapped (.fellOff block.name function.name))) := by
                simp only [fallOff, hb, hf]
              rw [hended, Frame.locals_new] at hbody
              exact hbody

theorem nested_does (code : Code) (limit active : Nat) (v : ValueId) (callee : FuncId) :
    Does (nested code limit active v callee) (code.evaluateCall limit active callee) := by
  induction active using frames_induction limit generalizing v callee with
  | deep active hlimit =>
      rw [nested_of_not_lt hlimit, Code.evaluateCall, if_pos (Nat.not_lt.mp hlimit)]
      unfold tooDeep
      cases code.func? callee <;> exact Does.throw _
  | call active hlimit ih =>
      rw [nested_of_lt hlimit, Code.evaluateCall, if_neg (Nat.not_le.mpr hlimit)]
      exact runEntered_does ih callee (some v)

theorem unlogged_callFunction_eq_evaluate (code : Code) (limit : Nat) (f : FuncId)
    (m : Logged Memory) :
    unlogged (callFunction code limit f m) = code.evaluate limit f m.state := by
  rw [callFunction_eq]
  exact runEntered_does (nested_does code limit 1) f none m

end Machine

end Niladic
