import Niladic.Proofs.Outcomes
import Niladic.Proofs.Retrying

namespace Niladic

namespace Tree

open Names

def isStatement : Tree → Bool
  | .number _ | .binary .. | .assign .. | .call _ => true
  | _ => false

theorem plain_of_accept : ∀ {t : Tree} {names names' : Names}, t.isNumeric = true →
    t.accept names = .ok names' → t.Plain
  | .number x, _, _, _, _ => plain_number x
  | .binary op left right, _, _, _, h => by
      rw [accept, bind_ok_iff] at h
      obtain ⟨_, hleft, h⟩ := h
      rw [require_seq_ok_iff, bind_ok_iff] at h
      obtain ⟨hnumeric₁, _, hright, h⟩ := h
      rw [require_seq_ok_iff] at h
      exact (plain_of_accept hnumeric₁ hleft).binary (plain_of_accept h.1 hright) op

theorem mem_globals_addGlobal {names names' : Names} {n : String}
    (h : names.addGlobal n = .ok names') (m : String) :
    m ∈ names'.globals ↔ m = n ∨ m ∈ names.globals := by
  unfold Names.addGlobal at h
  split at h
  next hknown =>
    cases h
    exact ⟨.inr, fun hm => hm.elim (fun heq => heq ▸ hknown) id⟩
  next =>
    split at h
    · cases h
    · cases h
      exact List.mem_cons

theorem globals_addFunction {names names' : Names} {n : String}
    (h : names.addFunction n = .ok names') : names'.globals = names.globals := by
  unfold Names.addFunction at h
  split at h
  · cases h
  · split at h <;> cases h
    rfl

mutual

theorem mem_globals_accept (n : String) : ∀ {t : Tree} {names names' : Names},
    t.accept names = .ok names' → (n ∈ names'.globals ↔ n ∈ t.assigned ∨ n ∈ names.globals)
  | .number _, _, _, h => by
      rw [accept] at h
      cases h
      simp [assigned]
  | .binary _ left right, _, _, h => by
      rw [accept, bind_ok_iff] at h
      obtain ⟨_, hleft, h⟩ := h
      rw [require_seq_ok_iff, bind_ok_iff] at h
      obtain ⟨-, _, hright, h⟩ := h
      rw [require_seq_ok_iff] at h
      cases h.2
      rw [mem_globals_accept n hright, mem_globals_accept n hleft, assigned, List.mem_append]
      tauto
  | .assign _ value, _, _, h => by
      rw [accept, bind_ok_iff] at h
      obtain ⟨_, hglobal, h⟩ := h
      rw [bind_ok_iff] at h
      obtain ⟨_, hvalue, h⟩ := h
      rw [require_seq_ok_iff] at h
      cases h.2
      rw [mem_globals_accept n hvalue, mem_globals_addGlobal hglobal, assigned, List.mem_cons]
      tauto
  | .body items, _, _, h => by
      rw [accept] at h
      rw [assigned]
      exact mem_globals_acceptAll n h
  | .procedure _ inner, _, _, h => by
      rw [accept, bind_ok_iff] at h
      obtain ⟨_, hfunction, h⟩ := h
      rw [require_seq_ok_iff] at h
      rw [mem_globals_accept n h.2, globals_addFunction hfunction, assigned]
  | .call _, _, _, h => by
      rw [accept, require_seq_ok_iff] at h
      cases h.2
      simp [assigned]
  | .program _, _, _, h => by
      rw [accept] at h
      cases h

theorem mem_globals_acceptAll (n : String) : ∀ {items : List Tree} {names names' : Names},
    acceptAll names items = .ok names' →
      (n ∈ names'.globals ↔ n ∈ assignedAll items ∨ n ∈ names.globals)
  | [], _, _, h => by
      rw [acceptAll] at h
      cases h
      simp [assignedAll]
  | item :: rest, _, _, h => by
      rw [acceptAll, bind_ok_iff] at h
      obtain ⟨_, hitem, hrest⟩ := h
      rw [mem_globals_acceptAll n hrest, mem_globals_accept n hitem, assignedAll, List.mem_append]
      tauto

end

variable {names names₁ names₂ : Names} {x : Tree}

theorem definitions_of_statement (hx : x.isStatement = true) (h : x.accept names = .ok names₁) :
    x.definitions = [] := by
  cases x with
  | number | call => rw [definitions]
  | binary => exact (plain_of_accept rfl h).nameless.1
  | assign name value =>
      rw [accept, bind_ok_iff] at h
      obtain ⟨_, -, h⟩ := h
      rw [bind_ok_iff] at h
      obtain ⟨_, hvalue, h⟩ := h
      rw [require_seq_ok_iff] at h
      rw [definitions]
      exact (plain_of_accept h.1 hvalue).nameless.1
  | program | body | procedure => cases hx

theorem accept_again (hx : x.isStatement = true) (h : x.accept names = .ok names₁)
    (hfunctions : names.functions ⊆ names₂.functions) (hglobals : names₁.globals ⊆ names₂.globals) :
    x.accept names₂ = .ok names₂ := by
  cases x with
  | number => rw [accept]
  | binary => exact (plain_of_accept rfl h).accepted names₂
  | assign name value =>
      rw [accept, bind_ok_iff] at h
      obtain ⟨_, hglobal, h⟩ := h
      rw [bind_ok_iff] at h
      obtain ⟨_, hvalue, h⟩ := h
      rw [require_seq_ok_iff] at h
      have hplain := plain_of_accept h.1 hvalue
      cases h.2
      rw [hplain.accepted] at hvalue
      cases hvalue
      have hknown : names₂.addGlobal name = .ok names₂ := by
        rw [Names.addGlobal, if_pos (hglobals ((mem_globals_addGlobal hglobal name).mpr (.inl rfl)))]
      rw [accept, bind_ok_iff]
      exact ⟨names₂, hknown, bind_ok_iff.mpr ⟨names₂, hplain.accepted names₂,
        require_seq_ok_iff.mpr ⟨hplain.numeric, rfl⟩⟩⟩
  | call name =>
      rw [accept, require_seq_ok_iff, List.contains_iff_mem] at h
      rw [accept, require_seq_ok_iff, List.contains_iff_mem]
      exact ⟨hfunctions h.1, rfl⟩
  | program | body | procedure => cases hx

theorem apart_of_accept {t : Tree} (hapart : ∀ n ∈ names.globals, n ∉ names.functions)
    (h : t.accept names = .ok names₁) : ∀ n ∈ names₁.globals, n ∉ names₁.functions := by
  obtain ⟨_, -, hspares⟩ := accept_spares (Spares.refl hapart) h
  exact hspares.apart

theorem accept_hoisted {t : Tree} (hx : x.isStatement = true)
    (hapart : ∀ n ∈ names.globals, n ∉ names.functions) (h₁ : x.accept names = .ok names₁)
    (h₂ : t.accept names₁ = .ok names₂) : ∃ after₁ after₂, t.accept names = .ok after₁ ∧
      x.accept after₁ = .ok after₂ ∧ Spares after₂ names₂ := by
  have htakes := accept_takes h₁
  rw [definitions_of_statement hx h₁] at htakes
  have hspares : Spares names names₁ :=
    ⟨fun n => by rw [htakes.functions]; rfl, fun n hn => (mem_globals_accept n h₁).mpr (.inr hn),
      apart_of_accept hapart h₁⟩
  have hagain : x.accept names₂ = .ok names₂ := by
    refine accept_again hx h₁ ?_ fun n hn => (mem_globals_accept n h₂).mpr (.inr hn)
    rw [(accept_takes h₂).functions, htakes.functions]
    exact List.subset_append_right _ _
  obtain ⟨after₁, ht, hspares₁⟩ := accept_spares hspares h₂
  obtain ⟨after₂, hx', hspares₂⟩ := accept_spares hspares₁ hagain
  exact ⟨after₁, after₂, ht, hx', hspares₂⟩

theorem acceptAll_append (names : Names) (items rest : List Tree) :
    acceptAll names (items ++ rest) = acceptAll names items >>= (acceptAll · rest) := by
  induction items generalizing names with
  | nil =>
      rw [acceptAll]
      rfl
  | cons item items ih =>
      rw [List.cons_append, acceptAll, acceptAll, bind_assoc]
      exact congrArg _ (funext fun names => ih names)

theorem apart_of_acceptAll {items : List Tree}
    (hapart : ∀ n ∈ names.globals, n ∉ names.functions) (h : acceptAll names items = .ok names₁) :
    ∀ n ∈ names₁.globals, n ∉ names₁.functions := by
  obtain ⟨_, -, hspares⟩ := acceptAll_spares (Spares.refl hapart) h
  exact hspares.apart

theorem acceptAll_hoisted {before after : List Tree} {t : Tree} (hx : x.isStatement = true)
    (hapart : ∀ n ∈ names.globals, n ∉ names.functions)
    (h : acceptAll names (before ++ [x, t] ++ after) = .ok names₁) :
    x.definitions = [] ∧ ∃ names₂,
      acceptAll names (before ++ [t, x] ++ after) = .ok names₂ ∧ Spares names₂ names₁ := by
  simp only [acceptAll_append, bind_ok_iff, acceptAll] at h
  obtain ⟨names₅, ⟨names₃, hbefore, names₄, hx₄, _, ht, heq⟩, hafter⟩ := h
  cases heq
  obtain ⟨taken₁, taken₂, ht', hx', hspares⟩ :=
    accept_hoisted hx (apart_of_acceptAll hapart hbefore) hx₄ ht
  obtain ⟨names₂, hafter', hspares'⟩ := acceptAll_spares hspares hafter
  refine ⟨definitions_of_statement hx hx₄, names₂, ?_, hspares'⟩
  simp only [acceptAll_append, bind_ok_iff, acceptAll]
  exact ⟨taken₂, ⟨names₃, hbefore, taken₁, ht', taken₂, hx', rfl⟩, hafter'⟩

theorem acceptRoot_program_iff {config : Config} {items : List Tree} :
    acceptRoot config (some (.program items)) = .ok () ↔ items ≠ [] ∧ ∃ names names',
      acceptAll ⟨[config.entry], []⟩ items = .ok names ∧
      names.addGlobal config.result = .ok names' ∧ items.getLast?.map leaves ≠ some .void := by
  cases items with
  | nil => simp [acceptRoot]
  | cons item rest =>
      rw [acceptRoot_program, acceptItems, bind_ok_iff]
      simp only [bind_ok_iff, require_ok_iff, bne_iff_ne]
      constructor
      · rintro ⟨names, hitems, names', hresult, hlast⟩
        exact ⟨List.cons_ne_nil _ _, names, names', hitems, hresult, hlast⟩
      · rintro ⟨-, names, names', hitems, hresult, hlast⟩
        exact ⟨names, hitems, names', hresult, hlast⟩

theorem leaves_of_statement (hx : x.isStatement = true) : x.leaves ≠ .void := by
  cases x with
  | number | binary | assign | call => simp [leaves]
  | program | body | procedure => cases hx

theorem acceptRoot_hoisted {config : Config} {before after : List Tree} {t : Tree}
    (hx : x.isStatement = true)
    (h : acceptRoot config (some (.program (before ++ [x, t] ++ after))) = .ok ()) :
    x.definitions = [] ∧
      acceptRoot config (some (.program (before ++ [t, x] ++ after))) = .ok () := by
  obtain ⟨-, names, names', hitems, hresult, hlast⟩ := acceptRoot_program_iff.mp h
  obtain ⟨hdefs, names₂, hitems', hspares⟩ := acceptAll_hoisted hx (fun _ hn => by cases hn) hitems
  obtain ⟨names₂', hresult', -⟩ := hspares.addGlobal hresult
  refine ⟨hdefs, acceptRoot_program_iff.mpr ⟨by simp, names₂, names₂', hitems', hresult', ?_⟩⟩
  rw [List.getLast?_append] at hlast ⊢
  cases hend : after.getLast? with
  | none => simp [leaves_of_statement hx]
  | some item =>
      rw [hend] at hlast
      exact hlast

theorem definitionsAll_append (items rest : List Tree) :
    definitionsAll (items ++ rest) = definitionsAll items ++ definitionsAll rest := by
  induction items with
  | nil => rw [definitionsAll]; rfl
  | cons item items ih => rw [List.cons_append, definitionsAll, definitionsAll, ih, List.append_assoc]

theorem assignedAll_append (items rest : List Tree) :
    assignedAll (items ++ rest) = assignedAll items ++ assignedAll rest := by
  induction items with
  | nil => rw [assignedAll]; rfl
  | cons item items ih => rw [List.cons_append, assignedAll, assignedAll, ih, List.append_assoc]

theorem traceAll_hoisted (call : String → Trace) (before after : List Tree) (x : Tree)
    (name : String) (inner : Tree) :
    traceAll call (before ++ [x, .procedure name inner] ++ after) =
      traceAll call (before ++ [.procedure name inner, x] ++ after) := by
  induction before with
  | nil =>
      simp only [List.nil_append, List.cons_append, traceAll, trace]
      rfl
  | cons item before ih =>
      simp only [List.cons_append, traceAll] at ih ⊢
      rw [ih]

theorem traceRun_congr (entry : String) (limit : Nat) {items items' : List Tree}
    (hdefs : definitionsAll items = definitionsAll items')
    (hitems : ∀ call, traceAll call items = traceAll call items') :
    traceRun entry limit items = traceRun entry limit items' := by
  have hcalls (frames : Nat) :
      traceAt entry limit items frames = traceAt entry limit items' frames := by
    induction frames using Machine.frames_induction limit with
    | deep frames hlimit =>
        funext name
        rw [traceAt, traceAt, if_neg hlimit, if_neg hlimit]
    | call frames hlimit ih =>
        funext name
        rw [traceAt, traceAt, if_pos hlimit, if_pos hlimit, ih, hdefs, hitems]
  rw [traceRun, traceRun, hcalls, hitems]

end Tree

namespace Compiler

open Niladic.Action Code Niladic.Tree

theorem findGlobal?_of_generate_fresh {config : Config} {items : List Tree} {name : String}
    {depth : Nat} {log : Log} {s : Logged Compiler}
    (h : generate ⟨log, fresh config (some (.program items)) name depth⟩ = .ok () s) (n : String) :
    (s.state.draft.code.findGlobal? n).isSome = true ↔
      n ∈ assignedAll items ∨ n = config.result := by
  have hc := (generate_advances.of_ok h (fresh_coherent ..)).coherent
  obtain ⟨haccept, -⟩ := generate_fresh_ok h
  obtain ⟨-, names, names', hitems, hresult, -⟩ := acceptRoot_program_iff.mp haccept
  obtain ⟨_, ⟨log₀, c₀⟩, s₅, hroot, hstart, hlower, hend⟩ := generate_ok h
  cases hroot
  cases hstart
  obtain ⟨s₁, hentry, hentered⟩ := enterEntry_fresh config none name depth log₀
  obtain ⟨_, s₂, _, hlower₂, hlowers₂, -⟩ :=
    lowerItems_accepted items none hentered.ready hitems hentered.slot
  obtain ⟨_, s₃, hglobal₃, hlowers₃, -⟩ := globalNamed_accepted hlowers₂.ready hresult
  have hsame : s₅.state.globals = s₃.state.globals := by
    rw [lowerProgramItems_eq] at hlower
    obtain ⟨_, _, _, _, _, _, _, hitems₂, hglobal, -, -, rfl, -⟩ :=
      lowerEntered_ok ((bind_of_ok hentry).symm.trans hlower)
    rw [hlower₂] at hitems₂
    cases hitems₂
    rw [hentered.config_eq hlower₂, hglobal₃] at hglobal
    cases hglobal
    rfl
  rw [hc.findGlobal?_eq, Option.isSome_iff_exists, hend, hsame, ← hlowers₃.ready.globals,
    mem_globals_addGlobal hresult, mem_globals_acceptAll n hitems]
  simp [or_comm]

/-- A procedure may be defined before an item that computes, assigns or calls instead of after it:
code is generated all the same, and its runs return the same number, or are stopped at the same call
by the limit, and have the same globals with the same numbers in the end. -/
theorem hoisted_definition_runs_alike {config : Config} {before after : List Tree} {x : Tree}
    {name : String} {inner : Tree} {log : Log} {s : Logged Compiler} (hx : x.isStatement = true)
    (h : generate ⟨log, ofConfig config
      (some (.program (before ++ [x, .procedure name inner] ++ after)))⟩ = .ok () s) (log' : Log) :
    ∃ s', generate ⟨log', ofConfig config
        (some (.program (before ++ [.procedure name inner, x] ++ after)))⟩ = .ok () s' ∧
      runProgram.outcome s = runProgram.outcome s' ∧
      (∀ n, (s.state.draft.code.findGlobal? n).isSome =
        (s'.state.draft.code.findGlobal? n).isSome) ∧
      ∀ limit log log', Machine.AnswersAlike limit
        (Machine.run config.entry ⟨log, s.state.draft.code, limit,
          Machine.blank s.state.draft.code⟩)
        (Machine.run config.entry ⟨log', s'.state.draft.code, limit,
          Machine.blank s'.state.draft.code⟩) := by
  rw [ofConfig_eq_fresh] at h
  obtain ⟨haccept, hcompiled⟩ := generate_fresh_ok h
  obtain ⟨hdefs, haccept'⟩ := acceptRoot_hoisted hx haccept
  obtain ⟨s', _, hgenerate', hitems, hcompiled'⟩ :=
    generate_fresh_accepted config.name config.depth log' haccept'
  cases hitems
  obtain ⟨hnodup, -⟩ := definitions_of_acceptRoot haccept
  obtain ⟨hnodup', -⟩ := definitions_of_acceptRoot haccept'
  have hlater := generate_advances.of_ok h (fresh_coherent ..)
  have hlater' := generate_advances.of_ok hgenerate' (fresh_coherent ..)
  have hglobals (n : String) : (s.state.draft.code.findGlobal? n).isSome =
      (s'.state.draft.code.findGlobal? n).isSome := by
    rw [Bool.eq_iff_iff, findGlobal?_of_generate_fresh h, findGlobal?_of_generate_fresh hgenerate']
    simp only [assignedAll_append, assignedAll, List.mem_append]
    tauto
  have htrace (limit : Nat) :
      traceRun config.entry limit (before ++ [x, .procedure name inner] ++ after) =
        traceRun config.entry limit (before ++ [.procedure name inner, x] ++ after) := by
    refine traceRun_congr config.entry limit ?_ fun call =>
      traceAll_hoisted call before after x name inner
    simp [definitionsAll_append, definitionsAll, hdefs]
  have hruns (limit : Nat) (log log' : Log) : Machine.AnswersAlike limit
      (Machine.run config.entry ⟨log, s.state.draft.code, limit,
        Machine.blank s.state.draft.code⟩)
      (Machine.run config.entry ⟨log', s'.state.draft.code, limit,
        Machine.blank s'.state.draft.code⟩) := by
    have hconcludes := Machine.run_concludes hlater.coherent hcompiled hnodup limit log
      (Machine.mirrors_blank hlater.coherent)
    rw [htrace] at hconcludes
    exact hconcludes.alike hlater.coherent hlater'.coherent hglobals
      (Machine.run_concludes hlater'.coherent hcompiled' hnodup' limit log'
        (Machine.mirrors_blank hlater'.coherent))
  refine ⟨s', hgenerate', ?_, hglobals, hruns⟩
  obtain ⟨l, hl⟩ := runProgram_outcome (generated_of_generate h)
  obtain ⟨l', hl'⟩ := runProgram_outcome (generated_of_generate hgenerate')
  rw [hl, hl', hlater.config, hlater'.config, hlater.depth, hlater'.depth]
  exact congrArg _ (Machine.outcome_eq_of_alike (hruns config.depth) l l')

-- The variable is assigned to in the procedure and before it, so that its global is made by the one
-- or by the other.
theorem shared_variable_hoisted : ∃ s s',
    generate ⟨#[], ofConfig {} (some (.program ([] ++ [.assign "x" (.number 1), .procedure "p" (.body
      [.assign "y" (.number 3), .assign "x" (.number 2)])] ++ [.call "p"])))⟩ = .ok () s ∧
    generate ⟨#[], ofConfig {} (some (.program ([] ++ [.procedure "p" (.body [.assign "y" (.number 3),
      .assign "x" (.number 2)]), .assign "x" (.number 1)] ++ [.call "p"])))⟩ = .ok () s' ∧
    runProgram.outcome s = runProgram.outcome s' := by
  have houtcome : generate.outcome ⟨#[], ofConfig {} (some (.program ([] ++
      [.assign "x" (.number 1), .procedure "p" (.body [.assign "y" (.number 3),
        .assign "x" (.number 2)])] ++ [.call "p"])))⟩ = .ok () := by
    decide +kernel
  obtain ⟨s, h⟩ := of_outcome_ok houtcome
  obtain ⟨s', h', hrun, -⟩ := hoisted_definition_runs_alike rfl h #[]
  exact ⟨s, s', h, h', hrun⟩

end Compiler

end Niladic
