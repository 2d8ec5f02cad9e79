import Niladic.Proofs.Confinement
import Niladic.Proofs.Sessions

namespace Niladic

namespace Code

structure Sound (code : Code) : Prop where
  ordered : code.Ordered
  owns : ∀ {f function}, code.func? f = some function → function.blocks = #[⟨f.index⟩]
  owned : ∀ {b block}, code.block? b = some block → block.owner = ⟨b.index⟩
  filled : ∀ {f function}, code.func? f = some function → ∃ block, code.block? ⟨f.index⟩ = some block
  closed : ∀ {b block}, code.block? b = some block → code.Closed ⟨b.index⟩ block.body.toList

theorem sound_of_check {c : Compiler} (h : c.Coherent) (hcheck : c.draft.code.check = .ok ()) :
    c.draft.code.Sound where
  ordered := h.ordered
  owns hf := h.owns hf
  owned hb := (h.owned hb).1
  filled hf := h.block_of_func hf
  closed hb := h.check_ok_iff.mp hcheck _ _ hb

variable {code : Code}

theorem Sound.admitted (h : code.Sound) {b : BlockId} {block : Block} {v : ValueId}
    (hb : code.block? b = some block) (hv : v ∈ block.body.toList) :
    ∃ op, code.operation? v = some op ∧ code.Admits ⟨b.index⟩ op := by
  obtain ⟨op, hop, hadmits, -⟩ := h.ordered.admitted hb hv
  rw [h.owned hb] at hadmits
  exact ⟨op, hop, hadmits⟩

theorem Sound.runnable (h : code.Sound) : code.Runnable where
  entered {f function b} hf hfirst := by
    rw [h.owns hf] at hfirst
    cases hfirst
    obtain ⟨block, hb⟩ := h.filled hf
    exact ⟨block, hb, h.closed hb, fun v hv => h.admitted hb hv⟩
  addressed hp := h.ordered.addressed_lt hp

end Code

namespace Machine

open Niladic.Action Code

variable {code : Code}

theorem trapsOnly_of_sound (h : code.Sound) (limit : Nat) :
    TrapsOnly code limit fun t => ∃ callee, t = .depth limit callee where
  runnable := h.runnable
  depth _ := ⟨_, rfl⟩
  noBody hf hfirst := by
    rw [h.owns hf] at hfirst
    cases hfirst
  missing {f function b block done v rest op u t frame} hf hfirst hb hbody hframe hop hu hmissing := by
    have hsole {b' : BlockId} {block' : Block} (hb' : code.block? b' = some block')
        (howner : block'.owner = block.owner) : b' = b := by
      rw [h.owned hb, h.owned hb', FuncId.mk.injEq] at howner
      exact congrArg BlockId.mk howner
    have hclosed : code.Closed block.owner block.body.toList := by
      rw [h.owned hb]
      exact h.closed hb
    exact absurd hmissing
      (hframe.not_missing (h.ordered.operand_before hb hsole hclosed hbody hop hu))

theorem run_safe {f : FuncId} {function : Func} {name : String} (h : code.Sound)
    (hfind : code.findFunction? name = some f) (hf : code.func? f = some function)
    (hreturns : function.returns = .number) (limit : Nat) {σ : Type} (l : Logged σ) :
    (∃ x, (code.run limit name).outcome l = .ok x) ∨ ∃ callee,
      (code.run limit name).outcome l =
        .error (.error (.backend (.trapped (.depth limit callee)))) := by
  have hsettles := callFunction_settles (trapsOnly_of_sound h limit) hf
    (m := ⟨l.log.push (.machineReady code.name), blank code⟩) (by simp [blank])
  cases hcall : callFunction code limit f ⟨l.log.push (.machineReady code.name), blank code⟩ with
  | ok result m =>
      rw [hcall] at hsettles
      obtain ⟨x, rfl⟩ := hsettles.2 hreturns
      exact .inl ⟨x, run_of_ok hfind hf hreturns hcall⟩
  | error stop m =>
      rw [hcall] at hsettles
      obtain ⟨-, t, rfl, callee, rfl⟩ := hsettles
      exact .inr ⟨callee, run_of_error hfind hf hreturns hcall⟩

end Machine

namespace Compiler

open Niladic.Action

variable {s s' : Logged Compiler}

theorem generate_sound (h : s.state.Coherent) (hgenerate : generate s = .ok () s') :
    s'.state.draft.code.Sound ∧ ∃ f function,
      s'.state.draft.code.findFunction? s'.state.config.entry = some f ∧
      s'.state.draft.code.func? f = some function ∧ function.returns = .number := by
  have hlater := generate_advances.of_ok hgenerate h
  obtain ⟨items, s₀, s₁, -, -, hitems, hstate⟩ := generate_ok hgenerate
  obtain ⟨hcheck, f, function, hf, hreturns⟩ := lowerProgramItems_ok hitems
  have hdraft : s'.state.draft = s₁.state.draft := by rw [hstate]
  rw [← hdraft] at hcheck hf
  refine ⟨Code.sound_of_check hlater.coherent hcheck, f, function, ?_, hf, hreturns⟩
  rw [hlater.coherent.findFunction?_eq]
  exact hlater.coherent.functions_iff.mpr ⟨function, hf, hlater.coherent.numbers hf hreturns⟩

theorem runProgram_outcome (hgenerated : s.state.generated = true) :
    ∃ l : Logged Compiler, runProgram.outcome s =
      ((s.state.draft.code.run s.state.draft.depth s.state.config.entry).outcome l).map
        Number.toResult := by
  refine ⟨{ s with log := s.log.push (.running s.state.config.entry) }, ?_⟩
  unfold runProgram
  simp only [outcome, bind_of_ok (get_apply s), hgenerated, if_true,
    bind_of_ok (Logged.emit_apply (.running s.state.config.entry) s)]
  cases hrun : s.state.draft.code.run s.state.draft.depth s.state.config.entry
      { s with log := s.log.push (.running s.state.config.entry) } with
  | ok x l =>
      rw [bind_of_ok (attempt_of_ok hrun)]
      rfl
  | error stop l =>
      cases stop with
      | error e =>
          rw [bind_of_ok (attempt_of_error hrun)]
          rfl
      | badHandle =>
          rw [bind_of_error (attempt_of_badHandle hrun)]
          rfl

/-- Whatever was done before, and whether or not it failed: once code is generated, a run of it ends
with a number or at the limit on calls. -/
theorem generated_runs_fail_only_at_depth {config : Config} {root : Option Tree} {name : String}
    {depth : Nat} {log : Log} {commands : List Command}
    (hsession : Command.runAll commands ⟨log, fresh config root name depth⟩ = .ok () s)
    (hgenerate : generate s = .ok () s') :
    ((∃ n, runProgram.outcome s' = .ok n) ∨ ∃ callee, runProgram.outcome s' =
      .error (.error (.backend (.trapped (.depth depth callee))))) ∧
    ∀ (limit : Nat) {σ : Type} (l : Logged σ),
      (∃ x, (s'.state.draft.code.run limit config.entry).outcome l = .ok x) ∨
      ∃ callee, (s'.state.draft.code.run limit config.entry).outcome l =
        .error (.error (.backend (.trapped (.depth limit callee)))) := by
  have hlater := (Command.runAll_advances commands).of_ok hsession (fresh_coherent ..)
  have hlater' := generate_advances.of_ok hgenerate hlater.coherent
  have hconfig : s'.state.config = config := hlater'.config.trans hlater.config
  have hdepth : s'.state.draft.depth = depth := hlater'.depth.trans hlater.depth
  have hgenerated := generated_of_generate hgenerate
  obtain ⟨hsound, f, function, hfind, hf, hreturns⟩ := generate_sound hlater.coherent hgenerate
  rw [hconfig] at hfind
  refine ⟨?_, fun limit _ l => Machine.run_safe hsound hfind hf hreturns limit l⟩
  obtain ⟨l, houtcome⟩ := runProgram_outcome hgenerated
  rw [houtcome, hconfig, hdepth]
  rcases Machine.run_safe hsound hfind hf hreturns depth l with ⟨x, hx⟩ | ⟨callee, hcallee⟩
  · exact .inl ⟨Number.toResult x, by rw [hx]; rfl⟩
  · exact .inr ⟨callee, by rw [hcallee]; rfl⟩

theorem retried_generation_fails_only_at_depth :
    ∃ s s', Command.runAll [.generate, .lower (.procedure "p" (.body [.call "p"]))]
        ⟨#[], fresh {} (some (.program [.call "p"])) "m" 3⟩ = .ok () s ∧
      generate s = .ok () s' ∧
      ((∃ n, runProgram.outcome s' = .ok n) ∨ ∃ callee, runProgram.outcome s' =
        .error (.error (.backend (.trapped (.depth 3 callee))))) := by
  have houtcome : Action.outcome (do
      Command.runAll [.generate, .lower (.procedure "p" (.body [.call "p"]))]
      generate) ⟨#[], fresh {} (some (.program [.call "p"])) "m" 3⟩ = .ok () := by
    decide +kernel
  obtain ⟨s', h⟩ := of_outcome_ok houtcome
  obtain ⟨_, s, hsession, hgenerate⟩ := bind_eq_ok h
  exact ⟨s, s', hsession, hgenerate, (generated_runs_fail_only_at_depth hsession hgenerate).1⟩

end Compiler

end Niladic
