import Niladic.Proofs.Tracing

namespace Niladic

namespace Tree

mutual

def exec (call : String → Store → Except Halt Store) : Tree → Store → Except Halt Store
  | .number _, store | .binary .., store | .procedure .., store => .ok store
  | .assign name value, store =>
      match value.value? with
      | some x => .ok (store.set name x)
      | none => .error .stuck
  | .body items, store => execAll call items store
  | .call name, store => call name store
  | .program _, _ => .error .stuck

def execAll (call : String → Store → Except Halt Store) : List Tree → Store → Except Halt Store
  | [], store => .ok store
  | item :: rest, store => do
      let store ← exec call item store
      execAll call rest store

end

/-- The call of a name when `frames` calls are in progress. The entry stands for the whole program,
and any other name for the procedure that is defined under it. -/
def callAt (config : Config) (items : List Tree) (frames : Nat) (name : String) (store : Store) :
    Except Halt Store :=
  if frames < config.depth then
    if name = config.entry then
      execAll (callAt config items (frames + 1)) items store
    else
      match (definitionsAll items).lookup name with
      | some inner => exec (callAt config items (frames + 1)) inner store
      | none => .error .stuck
  else .error (.tooDeep name)
termination_by config.depth - frames

def evaluate (config : Config) (items : List Tree) : Except Halt Store :=
  execAll (callAt config items 1) items fun _ => 0.0

end Tree

def Trace.apply (trace : Trace) (store : Store) : Except Halt Store :=
  match trace.halt with
  | none => .ok (store.record trace.writes)
  | some halt => .error halt

theorem Trace.apply_andThen (first next : Trace) (store : Store) :
    (first.andThen next).apply store = first.apply store >>= next.apply := by
  obtain ⟨writes, halt⟩ := first
  cases halt with
  | none =>
      simp only [andThen, apply, Store.record_append]
      rfl
  | some halt => rfl

namespace Tree

variable {call : String → Store → Except Halt Store} {procedures : String → Trace}

mutual

theorem exec_eq_apply (hcall : ∀ name store, call name store = (procedures name).apply store) :
    ∀ (t : Tree) (store : Store), exec call t store = (trace procedures t).apply store
  | .number _, store => by
      rw [exec, trace]
      rfl
  | .binary .., store => by
      rw [exec, trace]
      rfl
  | .procedure .., store => by
      rw [exec, trace]
      rfl
  | .assign name value, store => by
      rw [exec, trace]
      cases value.value? <;> rfl
  | .body items, store => by
      rw [exec, trace]
      exact execAll_eq_apply hcall items store
  | .call name, store => by
      rw [exec, trace]
      exact hcall name store
  | .program _, store => by
      rw [exec, trace]
      rfl

theorem execAll_eq_apply (hcall : ∀ name store, call name store = (procedures name).apply store) :
    ∀ (items : List Tree) (store : Store),
      execAll call items store = (traceAll procedures items).apply store
  | [], store => by
      rw [execAll, traceAll]
      rfl
  | item :: rest, store => by
      rw [execAll, traceAll, Trace.apply_andThen, exec_eq_apply hcall item store]
      exact congrArg _ (funext fun store => execAll_eq_apply hcall rest store)

end

theorem callAt_eq_apply (config : Config) (items : List Tree) (frames : Nat) (name : String)
    (store : Store) : callAt config items frames name store =
      (traceAt config.entry config.depth items frames name).apply store := by
  induction frames using Machine.frames_induction config.depth generalizing name store with
  | deep frames hlimit =>
      rw [callAt, traceAt, if_neg hlimit, if_neg hlimit]
      rfl
  | call frames hlimit hcall =>
      rw [callAt, traceAt, if_pos hlimit, if_pos hlimit]
      by_cases hentry : name = config.entry
      · rw [if_pos hentry, if_pos hentry]
        exact execAll_eq_apply hcall items store
      · rw [if_neg hentry, if_neg hentry]
        cases (definitionsAll items).lookup name with
        | none => rfl
        | some inner => exact exec_eq_apply hcall inner store

theorem evaluate_eq_apply (config : Config) (items : List Tree) : evaluate config items =
    (traceRun config.entry config.depth items).apply fun _ => 0.0 :=
  execAll_eq_apply (callAt_eq_apply config items 1) items _

end Tree

namespace Machine

open Niladic.Action Code Niladic.Tree

theorem run_compiled {c : Compiler} {config : Config} {items : List Tree} (hc : c.Coherent)
    (h : Compiled c.draft.code config items)
    (hnodup : ((definitionsAll items).map Prod.fst).Nodup) {σ : Type} (l : Logged σ) :
    (∃ store, evaluate config items = .ok store ∧
      (c.draft.code.run config.depth config.entry).outcome l = .ok (store config.result)) ∨
    ∃ name, evaluate config items = .error (.tooDeep name) ∧
      (c.draft.code.run config.depth config.entry).outcome l =
        .error (.error (.backend (.trapped (.depth config.depth name)))) := by
  have hconcludes := run_concludes hc h hnodup config.depth
    (l.log.push (.machineReady c.draft.code.name)) (mirrors_blank hc)
  rw [evaluate_eq_apply]
  generalize hrun : run config.entry ⟨_, _, _, blank c.draft.code⟩ = r at hconcludes
  generalize traceRun config.entry config.depth items = trace at hconcludes ⊢
  obtain ⟨writes, halt⟩ := trace
  cases hconcludes with
  | number hcells => exact .inl ⟨_, rfl, outcome_of_ok (booted_of_ok hrun)⟩
  | depth hcells => exact .inr ⟨_, rfl, outcome_of_error (booted_of_error hrun)⟩

end Machine

namespace Compiler

open Niladic.Action Niladic.Tree

/-- Generated code computes what its program does: a run returns the result variable when the
evaluation ends, and stops at the same call when the evaluation is nested too deeply. The name of a
procedure stands for one procedure only. -/
theorem run_generated_eq_evaluate {config : Config} {items : List Tree} {log : Log}
    {s : Logged Compiler} {σ : Type} (l : Logged σ)
    (h : generate ⟨log, ofConfig config (some (.program items))⟩ = .ok () s) :
    ((definitionsAll items).map Prod.fst).Nodup ∧
    config.entry ∉ (definitionsAll items).map Prod.fst ∧
    ((∃ store, evaluate config items = .ok store ∧
      (s.state.draft.code.run config.depth config.entry).outcome l = .ok (store config.result)) ∨
    ∃ name, evaluate config items = .error (.tooDeep name) ∧
      (s.state.draft.code.run config.depth config.entry).outcome l =
        .error (.error (.backend (.trapped (.depth config.depth name))))) := by
  rw [ofConfig_eq_fresh] at h
  obtain ⟨haccept, hcompiled⟩ := generate_fresh_ok h
  obtain ⟨hnodup, hentry⟩ := definitions_of_acceptRoot haccept
  have hcoherent := (generate_advances.of_ok h (fresh_coherent ..)).coherent
  exact ⟨hnodup, hentry, Machine.run_compiled hcoherent hcompiled hnodup l⟩

theorem run_of_procedure_eq_evaluate :
    ∃ s, generate ⟨#[], ofConfig { depth := 2 } (some (.program [.procedure "p"
        (.body [.assign "ret" (.binary .add (.number 1) (.number 2))]), .call "p"]))⟩ = .ok () s ∧
      (s.state.draft.code.run 2 "run").outcome (⟨#[], ()⟩ : Logged Unit) = .ok 3 := by
  have houtcome : generate.outcome ⟨#[], ofConfig { depth := 2 } (some (.program [.procedure "p"
      (.body [.assign "ret" (.binary .add (.number 1) (.number 2))]), .call "p"]))⟩ = .ok () := by
    decide +kernel
  obtain ⟨s, h⟩ := of_outcome_ok houtcome
  refine ⟨s, h, ?_⟩
  obtain ⟨-, -, hends⟩ := run_generated_eq_evaluate (⟨#[], ()⟩ : Logged Unit) h
  have heval : evaluate { depth := 2 } [.procedure "p"
      (.body [.assign "ret" (.binary .add (.number 1) (.number 2))]), .call "p"] =
      .ok (Store.set (fun _ => 0.0) "ret" (Operator.add.apply 1 2)) := by
    simp [evaluate, execAll, exec, callAt, definitionsAll, definitions, value?,
      bind, Except.bind]
  have hsum : Operator.add.apply 1 2 = 3 := by decide +kernel
  rw [heval, hsum] at hends
  obtain ⟨store, ⟨⟩, hrun⟩ | ⟨name, ⟨⟩, -⟩ := hends
  exact hrun

end Compiler

end Niladic
