import Niladic.Proofs.Traversal

namespace Niladic.Compiler

open Niladic.Action

theorem carries_advances : Carries (fun _ => True) (fun _ => True) Advances where
  refl := Advances.refl
  trans := Advances.trans
  emitted _ _ := .of_same rfl rfl rfl rfl rfl rfl id
  counted _ _ := .of_same rfl rfl rfl rfl rfl rfl id
  drafts hx := drafting_advances hx.emits
  global _ := globalNamed_advances _
  procedure _ hx hy := bind_advances (declareProcedure_advances _) fun d =>
    bind_advances (within_advances d.2 hx) fun _ => hy d.1

theorem lower_advances (t : Tree) : Relates Advances (lower t) :=
  carries_advances.lower t (fun _ _ => trivial) fun _ _ => trivial

theorem lowerItems_advances (anchor : ValueId) (last : Option Lowered) (items : List Tree) :
    Relates Advances (lowerItems anchor last items) :=
  carries_advances.lowerItems anchor last items (fun _ _ => trivial) fun _ _ => trivial

theorem lowerProgramItems_advances (items : List Tree) :
    Relates Advances (lowerProgramItems items) := by
  rw [lowerProgramItems_eq]
  exact bind_advances enterEntry_advances fun anchor =>
    carries_advances.lowerEntered drafting_advances (fun _ _ => trivial) anchor

theorem lowerProgram_advances (root : Tree) : Relates Advances (lowerProgram root) := by
  unfold lowerProgram
  split
  · exact Relates.fail Advances.refl _
  · exact lowerProgramItems_advances _
  · exact Relates.fail Advances.refl _

theorem setRoot_advances (root : Option Tree) : Relates Advances (setRoot root) :=
  fun _ => .of_same rfl rfl rfl rfl rfl rfl id

theorem generateFrom_advances (root : Tree) : Relates Advances (generateFrom root) := by
  unfold generateFrom
  refine bind_advances (setRoot_advances none) fun _ =>
    bind_advances (lowerProgram_advances root).attempt fun result =>
      bind_advances (setRoot_advances _) fun _ => ?_
  split
  · refine bind_advances (fun _ => .of_same rfl rfl rfl rfl rfl rfl fun _ => rfl) fun _ =>
      bind_advances (Relates.get Advances.refl) fun s => emit_advances _
  · exact reject_advances _ _

theorem generate_advances : Relates Advances generate := by
  unfold generate
  refine bind_advances (Relates.get Advances.refl) fun s =>
    bind_advances (emit_advances _) fun _ => ?_
  split
  · exact Relates.fail Advances.refl _
  · split
    · exact reject_advances _ _
    · exact generateFrom_advances _

theorem lowerProgram_ok {root : Tree} {s s' : Logged Compiler}
    (h : lowerProgram root s = .ok () s') :
    ∃ items, root = .program items ∧ lowerProgramItems items s = .ok () s' := by
  unfold lowerProgram at h
  split at h
  · cases h
  · exact ⟨_, rfl, h⟩
  · cases h

theorem generate_ok {s s' : Logged Compiler} (h : generate s = .ok () s') :
    ∃ items s₀ s₁, s.state.root = some (.program items) ∧ s₀.state = { s.state with root := none } ∧
      lowerProgramItems items s₀ = .ok () s₁ ∧
      s'.state = { s₁.state with root := some (.program items), generated := true } := by
  unfold generate at h
  rw [bind_of_ok (get_apply s), bind_of_ok (Logged.emit_apply ..)] at h
  cases hgenerated : s.state.generated with
  | true =>
      simp only [hgenerated, if_true] at h
      cases h
  | false =>
      cases hroot : s.state.root with
      | none =>
          simp only [hgenerated, hroot] at h
          cases h
      | some root =>
          simp only [hgenerated, hroot, Bool.false_eq_true, if_false, generateFrom] at h
          obtain ⟨_, s₀, hs₀, h⟩ := bind_eq_ok h
          cases hs₀
          obtain ⟨result, s₁, hs₁, h⟩ := bind_eq_ok h
          obtain ⟨_, s₂, hs₂, h⟩ := bind_eq_ok h
          cases hs₂
          cases result with
          | error e => cases h
          | ok _ =>
              cases h
              obtain ⟨items, rfl, hitems⟩ := lowerProgram_ok (of_attempt_ok hs₁)
              exact ⟨items, _, s₁, rfl, rfl, hitems, rfl⟩

theorem generated_of_generate {s s' : Logged Compiler} (h : generate s = .ok () s') :
    s'.state.generated = true := by
  obtain ⟨items, s₀, s₁, -, -, -, hstate⟩ := generate_ok h
  rw [hstate]

theorem verify_ok {code : Code} {s s' : Logged Compiler} (h : code.verify s = .ok () s') :
    s' = s ∧ code.check = .ok () := by
  unfold Code.verify at h
  cases hcheck : code.check with
  | ok _ =>
      rw [hcheck] at h
      cases h
      exact ⟨rfl, rfl⟩
  | error finding =>
      rw [hcheck] at h
      cases finding <;> cases h

theorem lowerEntered_ok {items : List Tree} {anchor : ValueId} {s s' : Logged Compiler}
    (h : lowerEntered items anchor s = .ok () s') : ∃ last s₁ g s₂ value d d',
      lowerItems anchor none items s = .ok last s₁ ∧
      globalNamed s₁.state.config.result s₁ = .ok g s₂ ∧ s₂.state.draft.Emits d ∧
      Draft.ret value d = .ok () d' ∧ s' = { s₂ with state.draft := d' } ∧
      d'.code.check = .ok () := by
  unfold lowerEntered at h
  obtain ⟨last, s₁, hlower, h⟩ := bind_eq_ok h
  rw [bind_of_ok (get_apply s₁)] at h
  obtain ⟨g, s₂, hglobal, h⟩ := bind_eq_ok h
  obtain ⟨pointer, s₃, hpointer, h⟩ := bind_eq_ok h
  obtain ⟨d₀, hd₀, rfl⟩ := drafting_eq_ok hpointer
  cases (Draft.pointer_idle g).of_ok hd₀
  obtain ⟨value, s₄, hload, h⟩ := bind_eq_ok h
  obtain ⟨d, hd, rfl⟩ := drafting_eq_ok hload
  split at h
  · cases h
  · obtain ⟨_, s₅, hret, h⟩ := bind_eq_ok h
    obtain ⟨d', hd', rfl⟩ := drafting_eq_ok hret
    rw [bind_of_ok (code_apply _)] at h
    obtain ⟨rfl, hcheck⟩ := verify_ok h
    exact ⟨last, s₁, g, s₂, value, d, d', hlower, hglobal,
      (Draft.load_emits pointer _).of_ok hd, hd', rfl, hcheck⟩

theorem lowerProgramItems_ok {items : List Tree} {s s' : Logged Compiler}
    (h : lowerProgramItems items s = .ok () s') : s'.state.draft.code.check = .ok () ∧
      ∃ f, s'.state.draft.code.Returning f .number := by
  rw [lowerProgramItems_eq] at h
  obtain ⟨anchor, s₁, -, h⟩ := bind_eq_ok h
  obtain ⟨last, s₂, g, s₃, value, d, d', -, -, -, hret, rfl, hcheck⟩ := lowerEntered_ok h
  obtain ⟨f, hf⟩ := Draft.ret_ok hret
  exact ⟨hcheck, f, ((Draft.ret_emits value).of_ok hret).code.returning hf⟩

inductive Command where
  | enter
  | lower (t : Tree)
  | within (b : BlockId) (commands : List Command) (fault : Option Error)
  | generate

namespace Command

def verdict : Option Error → Compile Unit
  | none => pure ()
  | some e => Action.fail e

mutual

def run : Command → Compile Unit
  | .enter => discard (attempt enterEntry)
  | .lower t => discard (attempt (Compiler.lower t))
  | .within b commands fault => discard (attempt (Compiler.within b do
      runAll commands
      verdict fault))
  | .generate => discard (attempt Compiler.generate)

def runAll : List Command → Compile Unit
  | [] => pure ()
  | command :: rest => do
      run command
      runAll rest

end

theorem verdict_advances (fault : Option Error) : Relates Advances (verdict fault) := by
  cases fault with
  | none => exact Relates.pure Advances.refl ()
  | some e => exact Relates.fail Advances.refl e

mutual

theorem run_advances : ∀ command : Command, Relates Advances command.run
  | .enter => by
      rw [run]
      exact enterEntry_advances.attempt.discard
  | .lower t => by
      rw [run]
      exact (lower_advances t).attempt.discard
  | .within b commands fault => by
      rw [run]
      exact (within_advances b (bind_advances (runAll_advances commands) fun _ =>
        verdict_advances fault)).attempt.discard
  | .generate => by
      rw [run]
      exact generate_advances.attempt.discard

theorem runAll_advances : ∀ commands : List Command, Relates Advances (runAll commands)
  | [] => by
      rw [runAll]
      exact Relates.pure Advances.refl ()
  | command :: rest => by
      rw [runAll]
      exact bind_advances (run_advances command) fun _ => runAll_advances rest

end

end Command

end Niladic.Compiler
