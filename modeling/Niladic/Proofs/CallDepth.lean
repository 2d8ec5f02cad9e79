import Mathlib.Data.List.Chain
import Mathlib.Logic.Relation
import Niladic.Proofs.Outcomes

namespace Niladic

namespace Tree

mutual

def calls : Tree → List String
  | .call name => [name]
  | .body items => callsAll items
  | .number _ | .binary .. | .assign .. | .procedure .. | .program _ => []

def callsAll : List Tree → List String
  | [] => []
  | item :: rest => item.calls ++ callsAll rest

end

inductive Calls (config : Config) (items : List Tree) : String → String → Prop
  | entry {callee : String} (h : callee ∈ callsAll items) : Calls config items config.entry callee
  | procedure {name callee : String} {inner : Tree}
      (hdefined : (name, inner) ∈ definitionsAll items) (h : callee ∈ inner.calls) :
      Calls config items name callee

/-- Every walk along calls that starts at this name has at most `n` vertices. -/
def WalksWithin (config : Config) (items : List Tree) (n : Nat) (name : String) : Prop :=
  ∀ walk : List String, (name :: walk).IsChain (Calls config items) → (name :: walk).length ≤ n

section

variable {config : Config} {items : List Tree} {n : Nat} {name callee : String}

theorem not_walksWithin_zero : ¬ WalksWithin config items 0 name := by
  intro h
  exact Nat.not_succ_le_zero _ (h [] (.singleton name))

theorem walksWithin_succ_iff : WalksWithin config items (n + 1) name ↔
    ∀ callee, Calls config items name callee → WalksWithin config items n callee := by
  constructor
  · intro h callee hcall walk hwalk
    exact Nat.le_of_succ_le_succ (h (callee :: walk) (.cons_cons hcall hwalk))
  · intro h walk hwalk
    cases walk with
    | nil => exact Nat.succ_le_succ (Nat.zero_le n)
    | cons callee walk =>
        obtain ⟨hcall, hrest⟩ := List.isChain_cons_cons.mp hwalk
        exact Nat.succ_le_succ (h callee hcall walk hrest)

theorem WalksWithin.reach (h : WalksWithin config items n name)
    (hreach : Relation.ReflTransGen (Calls config items) name callee) :
    WalksWithin config items n callee := by
  induction hreach with
  | refl => exact h
  | tail _ hcall ih =>
      intro walk hwalk
      exact (Nat.le_succ _).trans (ih _ (.cons_cons hcall hwalk))

theorem not_walksWithin_of_cycle (hcycle : Relation.TransGen (Calls config items) name name) :
    ¬ WalksWithin config items n name := by
  induction n with
  | zero => exact not_walksWithin_zero
  | succ n ih =>
      intro h
      obtain ⟨callee, hcall, hback⟩ := Relation.TransGen.head'_iff.mp hcycle
      exact ih ((walksWithin_succ_iff.mp h callee hcall).reach hback)

end

inductive EndsByCalls (call : String → Store → Except Halt Store) (names : List String) :
    Except Halt Store → Prop
  | ok {store : Store} (h : ∀ name ∈ names, ∃ before after, call name before = .ok after) :
      EndsByCalls call names (.ok store)
  | failed {name : String} {before : Store} {halt : Halt} (hname : name ∈ names)
      (h : call name before = .error halt) : EndsByCalls call names (.error halt)
  | stuck : EndsByCalls call names (.error .stuck)

section

variable {call : String → Store → Except Halt Store}

theorem EndsByCalls.idle (store : Store) : EndsByCalls call [] (.ok store) := by
  apply EndsByCalls.ok
  intro name hname
  cases hname

theorem EndsByCalls.bind {names names' : List String} {r : Except Halt Store}
    {next : Store → Except Halt Store} (h : EndsByCalls call names r)
    (hnext : ∀ store, EndsByCalls call names' (next store)) :
    EndsByCalls call (names ++ names') (r >>= next) := by
  cases h with
  | @ok store hall =>
      change EndsByCalls call (names ++ names') (next store)
      generalize hr : next store = r
      have hrest := hr ▸ hnext store
      cases hrest with
      | ok hall' => exact .ok (List.forall_mem_append.mpr ⟨hall, hall'⟩)
      | failed hname hfailed => exact .failed (List.mem_append_right names hname) hfailed
      | stuck => exact .stuck
  | failed hname hfailed => exact .failed (List.mem_append_left names' hname) hfailed
  | stuck => exact .stuck

mutual

theorem exec_endsByCalls : ∀ (t : Tree) (store : Store),
    EndsByCalls call t.calls (exec call t store)
  | .number _, store | .binary .., store | .procedure .., store => by
      rw [calls, exec]
      exact .idle store
  | .assign name value, store => by
      rw [calls, exec]
      split
      · exact .idle _
      · exact .stuck
  | .body items, store => by
      rw [calls, exec]
      exact execAll_endsByCalls items store
  | .call name, store => by
      rw [calls, exec]
      cases hcall : call name store with
      | ok after =>
          refine .ok fun name' hname => ?_
          rw [List.mem_singleton.mp hname]
          exact ⟨store, after, hcall⟩
      | error halt => exact .failed (List.mem_singleton_self name) hcall
  | .program _, _ => by
      rw [exec]
      exact .stuck

theorem execAll_endsByCalls : ∀ (items : List Tree) (store : Store),
    EndsByCalls call (callsAll items) (execAll call items store)
  | [], store => by
      rw [callsAll, execAll]
      exact .idle store
  | item :: rest, store => by
      rw [callsAll, execAll]
      exact (exec_endsByCalls item store).bind (execAll_endsByCalls rest)

end

end

section

variable {config : Config} {items : List Tree} {n : Nat} {name : String}

def Gauges (config : Config) (items : List Tree) (n : Nat) (name : String) :
    Except Halt Store → Prop
  | .ok _ => WalksWithin config items n name
  | .error (.tooDeep callee) => ∃ walk : List String,
      (name :: walk).IsChain (Calls config items) ∧ walk.length = n ∧
        (name :: walk).getLast? = some callee
  | .error .stuck => True

theorem gauges_succ {call : String → Store → Except Halt Store} {callees : List String}
    (hcallees : ∀ callee, Calls config items name callee ↔ callee ∈ callees)
    (hcall : ∀ callee store, Gauges config items n callee (call callee store))
    {r : Except Halt Store} (h : EndsByCalls call callees r) :
    Gauges config items (n + 1) name r := by
  cases h with
  | ok hall =>
      refine walksWithin_succ_iff.mpr fun callee hcalled => ?_
      obtain ⟨before, after, hok⟩ := hall callee ((hcallees callee).mp hcalled)
      have hgauges := hcall callee before
      rw [hok] at hgauges
      exact hgauges
  | @failed callee before halt hcallee hfailed =>
      have hgauges := hcall callee before
      rw [hfailed] at hgauges
      cases halt with
      | tooDeep last =>
          obtain ⟨walk, hwalk, hlength, hlast⟩ := hgauges
          refine ⟨callee :: walk, .cons_cons ((hcallees callee).mpr hcallee) hwalk, ?_, ?_⟩
          · rw [List.length_cons, hlength]
          · rw [List.getLast?_cons_cons, hlast]
      | stuck => trivial
  | stuck => trivial

theorem calls_entry_iff (hentry : config.entry ∉ (definitionsAll items).map Prod.fst)
    (callee : String) : Calls config items config.entry callee ↔ callee ∈ callsAll items := by
  refine ⟨fun h => ?_, .entry⟩
  generalize hname : config.entry = name at h
  cases h with
  | entry h => exact h
  | procedure hdefined _ => exact (hentry (hname ▸ List.mem_map_of_mem hdefined)).elim

theorem calls_procedure_iff (hnodup : ((definitionsAll items).map Prod.fst).Nodup)
    (hname : name ≠ config.entry) {inner : Tree}
    (hlookup : (definitionsAll items).lookup name = some inner) (callee : String) :
    Calls config items name callee ↔ callee ∈ inner.calls := by
  constructor
  · intro h
    cases h with
    | entry => exact (hname rfl).elim
    | procedure hdefined h =>
        rw [Machine.lookup_of_mem hnodup hdefined] at hlookup
        cases hlookup
        exact h
  · obtain ⟨before, after, hdefinitions, -⟩ := List.lookup_eq_some_iff.mp hlookup
    refine .procedure ?_
    rw [hdefinitions]
    exact List.mem_append_right before (List.mem_cons_self ..)

theorem callAt_gauges (hnodup : ((definitionsAll items).map Prod.fst).Nodup)
    (hentry : config.entry ∉ (definitionsAll items).map Prod.fst) (frames : Nat) :
    ∀ name store, Gauges config items (config.depth - frames) name
      (callAt config items frames name store) := by
  induction frames using Machine.frames_induction config.depth with
  | deep frames hlimit =>
      intro name store
      rw [callAt, if_neg hlimit]
      exact ⟨[], .singleton name, by rw [List.length_nil]; omega, rfl⟩
  | call frames hlimit ih =>
      intro name store
      have hdepth : config.depth - frames = config.depth - (frames + 1) + 1 := by omega
      rw [callAt, if_pos hlimit, hdepth]
      split
      next hname =>
        subst hname
        exact gauges_succ (calls_entry_iff hentry) ih (execAll_endsByCalls items store)
      next hname =>
        cases hlookup : (definitionsAll items).lookup name with
        | none => trivial
        | some inner =>
            exact gauges_succ (calls_procedure_iff hnodup hname hlookup) ih
              (exec_endsByCalls inner store)

theorem evaluate_gauges (hnodup : ((definitionsAll items).map Prod.fst).Nodup)
    (hentry : config.entry ∉ (definitionsAll items).map Prod.fst) :
    Gauges config items (max 1 config.depth) config.entry (evaluate config items) := by
  have hdepth : max 1 config.depth = config.depth - 1 + 1 := by omega
  rw [hdepth]
  exact gauges_succ (calls_entry_iff hentry) (callAt_gauges hnodup hentry 1)
    (execAll_endsByCalls items _)

end

end Tree

namespace Compiler

open Niladic.Action Niladic.Tree

/-- A generated program runs to its end exactly if no walk along its calls from the entry has more
vertices than calls may be in progress, of which there is always one. Otherwise it is stopped at the
limit, by a call that ends such a walk. A cycle that the entry reaches is never run to its end. -/
theorem runProgram_ends_iff_walksWithin {config : Config} {t : Tree} {log : Log}
    {s : Logged Compiler} (h : generate ⟨log, ofConfig config (some t)⟩ = .ok () s) :
    ∃ items, t = .program items ∧
      ((∃ x, runProgram.outcome s = .ok x) ↔
        WalksWithin config items (max 1 config.depth) config.entry) ∧
      (¬ WalksWithin config items (max 1 config.depth) config.entry → ∃ walk callee,
        (config.entry :: walk).IsChain (Calls config items) ∧ walk.length = max 1 config.depth ∧
        (config.entry :: walk).getLast? = some callee ∧
        runProgram.outcome s =
          .error (.error (.backend (.trapped (.depth config.depth callee))))) ∧
      ∀ name, Relation.ReflTransGen (Calls config items) config.entry name →
        Relation.TransGen (Calls config items) name name →
          ∃ callee, runProgram.outcome s =
            .error (.error (.backend (.trapped (.depth config.depth callee)))) := by
  obtain ⟨items, -, -, hroot, -⟩ := generate_ok h
  cases hroot
  refine ⟨items, rfl, ?_⟩
  have haccept := h
  rw [ofConfig_eq_fresh] at haccept
  obtain ⟨hnodup, hentry⟩ := definitions_of_acceptRoot (generate_fresh_ok haccept).1
  have hgauges := evaluate_gauges hnodup hentry
  rcases runProgram_evaluates h with ⟨store, heval, hrun⟩ | ⟨callee, heval, hrun⟩
  · rw [heval] at hgauges
    refine ⟨iff_of_true ⟨_, hrun⟩ hgauges, fun hdeep => (hdeep hgauges).elim, ?_⟩
    intro name hreach hcycle
    exact (not_walksWithin_of_cycle hcycle (WalksWithin.reach hgauges hreach)).elim
  · rw [heval] at hgauges
    obtain ⟨walk, hwalk, hlength, hlast⟩ := hgauges
    have hdeep : ¬ WalksWithin config items (max 1 config.depth) config.entry := by
      intro hwithin
      have hshort := hwithin walk hwalk
      rw [List.length_cons] at hshort
      omega
    refine ⟨iff_of_false ?_ hdeep, fun _ => ⟨walk, callee, hwalk, hlength, hlast, hrun⟩,
      fun _ _ _ => ⟨callee, hrun⟩⟩
    rintro ⟨x, hx⟩
    rw [hrun] at hx
    cases hx

def nestedCalls : List Tree := [.procedure "p" (.body [.assign "ret" (.number 1)]),
  .procedure "q" (.body [.body [.call "p"]]), .procedure "r" (.body [.call "r"]), .call "q"]

theorem nestedCalls_ends :
    ∃ s, generate ⟨#[], ofConfig { depth := 3 } (some (.program nestedCalls))⟩ = .ok () s ∧
      ∃ x, runProgram.outcome s = .ok x := by
  have houtcome : generate.outcome
      ⟨#[], ofConfig { depth := 3 } (some (.program nestedCalls))⟩ = .ok () := by
    decide +kernel
  obtain ⟨s, h⟩ := of_outcome_ok houtcome
  obtain ⟨items, hitems, hends, -⟩ := runProgram_ends_iff_walksWithin h
  cases hitems
  refine ⟨s, h, hends.mpr ?_⟩
  have hnodup : ((definitionsAll nestedCalls).map Prod.fst).Nodup := by decide
  refine walksWithin_succ_iff.mpr fun callee hcall => ?_
  cases List.mem_singleton.mp ((calls_entry_iff (by decide) callee).mp hcall)
  refine walksWithin_succ_iff.mpr fun callee hcall => ?_
  cases List.mem_singleton.mp ((calls_procedure_iff hnodup (by decide) rfl callee).mp hcall)
  refine walksWithin_succ_iff.mpr fun callee hcall => ?_
  cases (calls_procedure_iff hnodup (by decide) rfl callee).mp hcall

end Compiler

end Niladic
