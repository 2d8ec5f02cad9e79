import Std.Data.HashMap
import Niladic.Code

/-!
Frames and stacks. A frame is one call in progress: the block it runs, the next instruction, and the
values and slots of its own. The weight of a stack bounds what it can still do: a call takes an
instruction from the caller's frame and adds a frame that is worth less.
-/

namespace Niladic

structure Frame where
  func : FuncId
  block : BlockId
  next : Nat := 0
  site : Option ValueId := none
  values : Std.HashMap ValueId Float := ∅
  slots : Std.HashMap ValueId Float := ∅

namespace Frame

def advance (f : Frame) : Frame := { f with next := f.next + 1 }

def define (f : Frame) (v : ValueId) (x : Float) : Frame := { f with values := f.values.insert v x }

def setSlot (f : Frame) (v : ValueId) (x : Float) : Frame := { f with slots := f.slots.insert v x }

def receive (f : Frame) (site : Option ValueId) (result : Option Float) : Frame :=
  match site, result with
  | some v, some x => f.define v x
  | _, _ => f

def remaining (code : Code) (f : Frame) : Nat :=
  match code.block? f.block with
  | some block => block.body.size - f.next
  | none => 0

theorem remaining_define (code : Code) (f : Frame) (v : ValueId) (x : Float) :
    (f.define v x).remaining code = f.remaining code := rfl

theorem remaining_setSlot (code : Code) (f : Frame) (v : ValueId) (x : Float) :
    (f.setSlot v x).remaining code = f.remaining code := rfl

theorem remaining_receive (code : Code) (f : Frame) (site : Option ValueId)
    (result : Option Float) : (f.receive site result).remaining code = f.remaining code := by
  cases site <;> cases result <;> rfl

theorem remaining_advance {code : Code} {f : Frame} {block : Block}
    (hb : code.block? f.block = some block) (hn : f.next < block.body.size) :
    f.advance.remaining code + 1 = f.remaining code := by
  simp only [remaining, advance, hb]
  omega

end Frame

def Code.longest (code : Code) : Nat :=
  code.blocks.toList.foldr (fun block n => max block.body.size n) 0

theorem Code.size_le_longest {code : Code} {b : BlockId} {block : Block}
    (h : code.block? b = some block) : block.body.size ≤ code.longest := by
  have hmem : block ∈ code.blocks.toList := by
    simpa using Array.mem_of_getElem? h
  unfold Code.longest
  generalize code.blocks.toList = blocks at hmem
  induction blocks with
  | nil => simp at hmem
  | cons first rest ih =>
      simp only [List.foldr_cons]
      rcases List.mem_cons.mp hmem with h | h
      · subst h
        exact Nat.le_max_left _ _
      · exact Nat.le_trans (ih h) (Nat.le_max_right _ _)

theorem Frame.remaining_le_longest (code : Code) (f : Frame) : f.remaining code ≤ code.longest := by
  unfold Frame.remaining
  split
  next block h => exact Nat.le_trans (Nat.sub_le _ _) (Code.size_le_longest h)
  next => exact Nat.zero_le _

structure Stack where
  top : Frame
  callers : List Frame
  height : Nat
  height_eq : height = callers.length + 1

namespace Stack

def single (f : Frame) : Stack := ⟨f, [], 1, rfl⟩

def mapTop (g : Frame → Frame) : Stack → Stack
  | ⟨top, callers, height, h⟩ => ⟨g top, callers, height, h⟩

def push (s : Stack) (f : Frame) : Stack :=
  ⟨f, s.top :: s.callers, s.height + 1, by simp [s.height_eq]⟩

/-- How often a frame counts each of its instructions, by the number of frames below it. -/
def share (code : Code) (limit below : Nat) : Nat := Nat.pow (code.longest + 1) (limit - below)

theorem share_pos (code : Code) (limit below : Nat) : 0 < share code limit below :=
  Nat.pow_pos (Nat.succ_pos _)

theorem share_eq (code : Code) {limit below : Nat} (h : below < limit) :
    share code limit below = (code.longest + 1) * share code limit (below + 1) := by
  have hexp : limit - below = limit - (below + 1) + 1 := by omega
  rw [share, hexp, Nat.mul_comm]
  rfl

def weightOf (code : Code) (limit : Nat) : List Frame → Nat
  | [] => 0
  | f :: below => f.remaining code * share code limit below.length + weightOf code limit below

def weight (code : Code) (limit : Nat) (s : Stack) : Nat := weightOf code limit (s.top :: s.callers)

theorem weight_mapTop_lt {code : Code} {limit : Nat} {s : Stack} {g : Frame → Frame}
    (h : (g s.top).remaining code < s.top.remaining code) :
    (s.mapTop g).weight code limit < s.weight code limit := by
  have hmul := Nat.mul_lt_mul_of_pos_right h (share_pos code limit s.callers.length)
  simp only [weight, mapTop, weightOf]
  omega

theorem weight_push_lt {code : Code} {limit : Nat} {s : Stack} {f : Frame} {g : Frame → Frame}
    (hlimit : s.height < limit) (h : (g s.top).remaining code < s.top.remaining code) :
    ((s.mapTop g).push f).weight code limit < s.weight code limit := by
  have hheight := s.height_eq
  have hnew := Nat.mul_lt_mul_of_pos_right
    (Nat.lt_add_one_of_le (Frame.remaining_le_longest code f))
    (share_pos code limit (s.callers.length + 1))
  have hold := Nat.mul_le_mul_right (share code limit s.callers.length) (Nat.succ_le_of_lt h)
  rw [Nat.succ_mul] at hold
  have hshare : share code limit s.callers.length = _ := share_eq code (by omega)
  simp only [weight, push, mapTop, weightOf, List.length_cons]
  omega

theorem weight_pop_lt {code : Code} {limit : Nat} {s : Stack} {f caller : Frame}
    {rest : List Frame} {hheight : s.height - 1 = rest.length + 1}
    (hcallers : s.callers = caller :: rest) (hf : f.remaining code = caller.remaining code)
    (h : 0 < s.top.remaining code) :
    (Stack.mk f rest (s.height - 1) hheight).weight code limit < s.weight code limit := by
  have hmul := Nat.mul_pos h (share_pos code limit s.callers.length)
  simp only [weight, weightOf, hcallers, hf] at *
  omega

end Stack

end Niladic
