import Mathlib.Data.List.Lex
import Mathlib.Logic.Relation
import Niladic.Proofs.Recursion

/-!
Every run ends. Each round of the machine leaves the bottommost frame that it changes with fewer
instructions, or takes a frame away, and the number of frames is bounded.
-/

namespace Niladic

def Descends (n : Nat) (xs ys : List Nat) : Prop := xs.length ≤ n ∧ List.Lex (· < ·) xs ys

theorem acc_descends_cons {n : Nat} (h : ∀ xs, xs.length ≤ n → Acc (Descends n) xs) (x : Nat)
    (xs : List Nat) (hxs : xs.length ≤ n) : Acc (Descends (n + 1)) (x :: xs) := by
  induction x using Nat.strongRecOn generalizing xs with
  | ind x ihx =>
      induction h xs hxs with
      | intro xs _ ih =>
          constructor
          rintro ys ⟨hlength, hlex⟩
          cases hlex with
          | nil => exact ⟨_, fun _ hbelow => nomatch hbelow.2⟩
          | rel hlt => exact ihx _ hlt _ (Nat.le_of_succ_le_succ hlength)
          | cons hlex =>
              have hys := Nat.le_of_succ_le_succ hlength
              exact ih _ ⟨hys, hlex⟩ hys

theorem acc_descends (n : Nat) (xs : List Nat) (h : xs.length ≤ n) : Acc (Descends n) xs := by
  induction n generalizing xs with
  | zero =>
      rw [List.eq_nil_of_length_eq_zero (Nat.le_zero.mp h)]
      exact ⟨_, fun _ hbelow => nomatch hbelow.2⟩
  | succ n ih =>
      cases xs with
      | nil => exact ⟨_, fun _ hbelow => nomatch hbelow.2⟩
      | cons x xs => exact acc_descends_cons ih x xs (Nat.le_of_succ_le_succ h)

theorem wellFounded_descends (n : Nat) : WellFounded (Descends n) :=
  ⟨fun _ => ⟨_, fun ys h => acc_descends n ys h.1⟩⟩

namespace Stack

def frames (s : Stack) : List Frame := (s.top :: s.callers).reverse

def remaining (code : Code) (s : Stack) : List Nat := s.frames.map (Frame.remaining code)

theorem length_frames (s : Stack) : s.frames.length = s.height := by
  simp [frames, s.height_eq]

theorem length_remaining (code : Code) (s : Stack) : (s.remaining code).length = s.height := by
  rw [remaining, List.length_map, length_frames]

theorem remaining_eq (code : Code) (s : Stack) :
    s.remaining code =
      s.callers.reverse.map (Frame.remaining code) ++ [s.top.remaining code] := by
  simp [remaining, frames]

end Stack

namespace Machine

open Niladic.Action

variable {code : Code} {limit : Nat}

inductive Moves (code : Code) (limit : Nat) (s : Stack) : Stack → Prop
  | work {g : Frame → Frame} (h : (g s.top).remaining code < s.top.remaining code) :
      Moves code limit s (s.mapTop g)
  | call {g : Frame → Frame} (hheight : s.height < limit)
      (h : (g s.top).remaining code < s.top.remaining code) (frame : Frame) :
      Moves code limit s ((s.mapTop g).push frame)
  | leave {caller frame : Frame} {rest : List Frame} {height : Nat}
      {hheight : height = rest.length + 1} (hcallers : s.callers = caller :: rest)
      (hframe : frame.remaining code = caller.remaining code) :
      Moves code limit s ⟨frame, rest, height, hheight⟩

theorem moves_of_perform {cells cells' : Array Float} {s s' : Stack} {v : ValueId} {e : Effect}
    {name : Option String} (hnext : s.top.advance.remaining code < s.top.remaining code)
    (h : perform code limit cells s v e = .moved s' cells' name) : Moves code limit s s' := by
  cases e with
  | define x =>
      cases h
      exact .work hnext
  | allocate =>
      cases h
      exact .work hnext
  | setGlobal g x =>
      cases h
      exact .work hnext
  | setSlot p x =>
      cases h
      exact .work hnext
  | call callee =>
      simp only [perform] at h
      split at h
      · split at h <;> cases h
      next hlimit =>
        split at h
        · cases h
          exact .call (Nat.not_le.mp hlimit) hnext _
        · cases h
  | leave result =>
      simp only [perform] at h
      split at h
      · cases h
      next caller rest hcallers =>
        cases h
        exact .leave hcallers (Frame.remaining_receive ..)

theorem moves_of_step {cells cells' : Array Float} {s s' : Stack} {name : Option String}
    (h : step code limit cells s = .moved s' cells' name) : Moves code limit s s' := by
  unfold step at h
  split at h
  · cases h
  next block hblock =>
    split at h
    · split at h <;> cases h
    next v hv =>
      split at h
      · obtain ⟨hnext, -⟩ := Array.getElem?_eq_some_iff.mp hv
        have hremaining := Frame.remaining_advance hblock hnext
        exact moves_of_perform (by omega) h
      · cases h

namespace Moves

variable {s s' : Stack}

theorem height_le (h : Moves code limit s s') (hs : s.height ≤ max 1 limit) :
    s'.height ≤ max 1 limit := by
  cases h with
  | work _ => exact hs
  | call hheight _ frame =>
      have hpush (t : Stack) : (t.push frame).height = t.height + 1 := rfl
      rw [hpush]
      exact Nat.le_trans hheight (Nat.le_max_right 1 limit)
  | @leave caller _ rest height hheight hcallers _ =>
      have hlength := s.height_eq
      rw [hcallers, List.length_cons] at hlength
      change height ≤ max 1 limit
      omega

theorem lex_remaining (h : Moves code limit s s') :
    List.Lex (· < ·) (s'.remaining code) (s.remaining code) := by
  rw [Stack.remaining_eq, Stack.remaining_eq]
  cases h with
  | work hlt => exact List.Lex.append_left _ (.rel hlt) _
  | call _ hlt frame =>
      simp only [Stack.push, Stack.mapTop, List.reverse_cons, List.map_append, List.append_assoc]
      exact List.Lex.append_left _ (.rel hlt) _
  | leave hcallers hframe =>
      simp only [hcallers, hframe, List.reverse_cons, List.map_append, List.map_cons, List.map_nil]
      have hnil : List.Lex (· < ·) [] [s.top.remaining code] := .nil
      simpa only [List.append_nil] using List.Lex.append_left _ hnil _

theorem descends (h : Moves code limit s s') (hs : s.height ≤ max 1 limit) :
    Descends (max 1 limit) (s'.remaining code) (s.remaining code) := by
  refine ⟨?_, h.lex_remaining⟩
  rw [Stack.length_remaining]
  exact h.height_le hs

end Moves

abbrev Ended := EStateM.Result Stop (Logged Memory) (Option Float)

def round (code : Code) (limit : Nat) (s : Stack) (m : Logged Memory) :
    Ended ⊕ (Stack × Logged Memory) :=
  match step code limit m.state.cells s with
  | .unfetched stop => .inl (.error stop m)
  | .failed stop => .inl (.error stop (ticked m))
  | .finished result => .inl (.ok result (ticked m))
  | .moved s' cells name => .inr (s', ⟨entered m.log name, cells, m.state.executed + 1⟩)

def rounds (code : Code) (limit : Nat) : Nat → Stack → Logged Memory → Option Ended
  | 0, _, _ => none
  | n + 1, s, m => (round code limit s m).elim some fun next => rounds code limit n next.1 next.2

def GoesOn (code : Code) (limit : Nat) (x y : Stack × Logged Memory) : Prop :=
  round code limit x.1 x.2 = .inr y

theorem GoesOn.moves {x y : Stack × Logged Memory} (h : GoesOn code limit x y) :
    Moves code limit x.1 y.1 := by
  unfold GoesOn round at h
  cases hstep : step code limit x.2.state.cells x.1 with
  | moved s' cells name =>
      rw [hstep] at h
      cases h
      exact moves_of_step hstep
  | unfetched stop =>
      rw [hstep] at h
      cases h
  | failed stop =>
      rw [hstep] at h
      cases h
  | finished result =>
      rw [hstep] at h
      cases h

theorem execute_eq_round (s : Stack) (m : Logged Memory) :
    execute code limit s m =
      (round code limit s m).elim id fun next => execute code limit next.1 next.2 := by
  unfold round
  cases hstep : step code limit m.state.cells s with
  | unfetched stop => exact execute_unfetched hstep
  | failed stop => exact execute_failed hstep
  | finished result => exact execute_finished hstep
  | moved s' cells name => exact execute_moved hstep

theorem rounds_succ_of_ended {s : Stack} {m : Logged Memory} {r : Ended}
    (h : round code limit s m = .inl r) (n : Nat) : rounds code limit (n + 1) s m = some r := by
  rw [rounds, h]
  rfl

theorem rounds_succ_of_goesOn {s s' : Stack} {m m' : Logged Memory}
    (h : round code limit s m = .inr (s', m')) (n : Nat) :
    rounds code limit (n + 1) s m = rounds code limit n s' m' := by
  rw [rounds, h]
  rfl

theorem exists_rounds (s : Stack) (m : Logged Memory) (hs : s.height ≤ max 1 limit) :
    ∃ n, rounds code limit n s m = some (execute code limit s m) := by
  -- The instructions that are still to come, frame by frame, descend in every round.
  induction hremaining : s.remaining code using (wellFounded_descends (max 1 limit)).induction
    generalizing s m with
  | _ remaining ih =>
      subst hremaining
      rw [execute_eq_round]
      cases hround : round code limit s m with
      | inl r => exact ⟨1, rounds_succ_of_ended hround 0⟩
      | inr next =>
          have hmoves : Moves code limit s next.1 := GoesOn.moves (x := (s, m)) hround
          obtain ⟨n, hn⟩ := ih _ (hmoves.descends hs) next.1 next.2 (hmoves.height_le hs) rfl
          exact ⟨n + 1, (rounds_succ_of_goesOn hround n).trans hn⟩

theorem height_le_of_reachable {x y : Stack × Logged Memory}
    (h : Relation.ReflTransGen (GoesOn code limit) x y) (hx : x.1.height ≤ max 1 limit) :
    y.1.height ≤ max 1 limit := by
  induction h with
  | refl => exact hx
  | tail _ hround ih => exact hround.moves.height_le ih

theorem callFunction_of_enter_error {f : FuncId} {stop : Stop}
    (h : enter code f none = .error stop) (m : Logged Memory) :
    callFunction code limit f m = .error stop m := by
  unfold callFunction
  rw [h]
  rfl

theorem callFunction_of_enter_ok {f : FuncId} {frame : Frame} {name : String}
    (h : enter code f none = .ok (frame, name)) (m : Logged Memory) :
    callFunction code limit f m =
      execute code limit (Stack.single frame) { m with log := m.log.push (.entering name) } := by
  unfold callFunction
  rw [h]
  rfl

/-- A call that cannot be entered ends at once. In any other there are never more frames than the
limit allows, the instructions still to come descend from round to round in a well-founded order,
and after finitely many rounds the call has its outcome. -/
theorem every_call_ends (code : Code) (limit : Nat) (f : FuncId) (m : Logged Memory) :
    WellFounded (Descends (max 1 limit)) ∧
    (∀ stop, enter code f none = .error stop → callFunction code limit f m = .error stop m) ∧
    ∀ frame name, enter code f none = .ok (frame, name) →
      (∃ n, rounds code limit n (Stack.single frame)
        { m with log := m.log.push (.entering name) } = some (callFunction code limit f m)) ∧
      ∀ x, Relation.ReflTransGen (GoesOn code limit)
          (Stack.single frame, { m with log := m.log.push (.entering name) }) x →
        x.1.frames.length ≤ max 1 limit ∧
        ∀ y, GoesOn code limit x y →
          Descends (max 1 limit) (y.1.remaining code) (x.1.remaining code) := by
  refine ⟨wellFounded_descends _, fun stop henter => callFunction_of_enter_error henter m,
    fun frame name henter => ⟨?_, fun x hx => ?_⟩⟩
  · rw [callFunction_of_enter_ok henter]
    exact exists_rounds _ _ (Nat.le_max_left 1 limit)
  · have hheight := height_le_of_reachable hx (Nat.le_max_left 1 limit)
    exact ⟨by rwa [Stack.length_frames], fun y hround => hround.moves.descends hheight⟩

end Machine

end Niladic
