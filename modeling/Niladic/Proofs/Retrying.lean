import Niladic.Proofs.Acceptance

/-!
A generation that failed fails for ever. What the first attempt has left behind are names: functions
of the program, which stand in the way of their own definitions, and globals, which make no item
acceptable that was not.
-/

namespace Niladic

namespace Names

structure Spares (names names' : Names) : Prop where
  functions : ∀ n, n ∈ names.functions ↔ n ∈ names'.functions
  globals : names.globals ⊆ names'.globals
  apart : ∀ n ∈ names'.globals, n ∉ names'.functions

namespace Spares

variable {names names' after' : Names} {n : String}

theorem refl (hapart : ∀ n ∈ names.globals, n ∉ names.functions) : Spares names names :=
  ⟨fun _ => Iff.rfl, fun _ => id, hapart⟩

theorem addGlobal (h : Spares names names') (hadd : names'.addGlobal n = .ok after') :
    ∃ after, names.addGlobal n = .ok after ∧ Spares after after' := by
  unfold Names.addGlobal at hadd
  have hnew (hglobal : n ∉ names.globals) (hfunction : n ∉ names.functions) :
      names.addGlobal n = .ok { names with globals := n :: names.globals } := by
    rw [Names.addGlobal, if_neg hglobal, if_neg hfunction]
  split at hadd
  next hknown =>
    cases hadd
    by_cases hglobal : n ∈ names.globals
    · exact ⟨names, by rw [Names.addGlobal, if_pos hglobal], h⟩
    · have hfunction : n ∉ names.functions := fun hmem => h.apart n hknown ((h.functions n).mp hmem)
      exact ⟨_, hnew hglobal hfunction, h.functions, List.cons_subset.mpr ⟨hknown, h.globals⟩,
        h.apart⟩
  next hunknown =>
    split at hadd
    · cases hadd
    next hfree =>
      cases hadd
      have hglobal : n ∉ names.globals := fun hmem => hunknown (h.globals hmem)
      have hfunction : n ∉ names.functions := fun hmem => hfree ((h.functions n).mp hmem)
      refine ⟨_, hnew hglobal hfunction, h.functions, List.cons_subset_cons n h.globals, ?_⟩
      exact List.forall_mem_cons.mpr ⟨hfree, h.apart⟩

theorem addFunction (h : Spares names names') (hadd : names'.addFunction n = .ok after') :
    ∃ after, names.addFunction n = .ok after ∧ Spares after after' := by
  unfold Names.addFunction at hadd
  split at hadd
  · cases hadd
  next hfree =>
    split at hadd
    · cases hadd
    next hunknown =>
      cases hadd
      have hfunction : n ∉ names.functions := fun hmem => hfree ((h.functions n).mp hmem)
      have hglobal : n ∉ names.globals := fun hmem => hunknown (h.globals hmem)
      refine ⟨{ names with functions := n :: names.functions }, ?_, ?_, h.globals, ?_⟩
      · rw [Names.addFunction, if_neg hfunction, if_neg hglobal]
      · intro m
        rw [List.mem_cons, List.mem_cons, h.functions m]
      · intro m hm hmem
        rcases List.mem_cons.mp hmem with rfl | hmem
        · exact hunknown hm
        · exact h.apart m hm hmem

end Spares

end Names

namespace Tree

open Names

mutual

theorem accept_spares : ∀ {t : Tree} {names names' after' : Names}, Spares names names' →
    t.accept names' = .ok after' → ∃ after, t.accept names = .ok after ∧ Spares after after'
  | .number _, names, _, _, hspares, h => by
      rw [accept] at h
      cases h
      exact ⟨names, by rw [accept], hspares⟩
  | .binary _ left right, _, _, _, hspares, h => by
      rw [accept, bind_ok_iff] at h
      obtain ⟨_, hleft, h⟩ := h
      rw [require_seq_ok_iff, bind_ok_iff] at h
      obtain ⟨hnumeric₁, _, hright, h⟩ := h
      rw [require_seq_ok_iff] at h
      obtain ⟨hnumeric₂, hnames⟩ := h
      cases hnames
      obtain ⟨after₁, hleft, hspares₁⟩ := accept_spares hspares hleft
      obtain ⟨after₂, hright, hspares₂⟩ := accept_spares hspares₁ hright
      refine ⟨after₂, ?_, hspares₂⟩
      rw [accept, hleft]
      exact require_seq_ok_iff.mpr ⟨hnumeric₁, bind_ok_iff.mpr ⟨after₂, hright,
        require_seq_ok_iff.mpr ⟨hnumeric₂, rfl⟩⟩⟩
  | .assign _ value, _, _, _, hspares, h => by
      rw [accept, bind_ok_iff] at h
      obtain ⟨_, hglobal, h⟩ := h
      rw [bind_ok_iff] at h
      obtain ⟨_, hvalue, h⟩ := h
      rw [require_seq_ok_iff] at h
      obtain ⟨hnumeric, hnames⟩ := h
      cases hnames
      obtain ⟨after₁, hglobal, hspares₁⟩ := hspares.addGlobal hglobal
      obtain ⟨after₂, hvalue, hspares₂⟩ := accept_spares hspares₁ hvalue
      refine ⟨after₂, ?_, hspares₂⟩
      rw [accept, bind_ok_iff]
      exact ⟨after₁, hglobal, bind_ok_iff.mpr ⟨after₂, hvalue,
        require_seq_ok_iff.mpr ⟨hnumeric, rfl⟩⟩⟩
  | .body items, _, _, _, hspares, h => by
      rw [accept] at h ⊢
      exact acceptAll_spares hspares h
  | .procedure _ inner, _, _, _, hspares, h => by
      rw [accept, bind_ok_iff] at h
      obtain ⟨_, hfunction, h⟩ := h
      rw [require_seq_ok_iff] at h
      obtain ⟨hkind, hinner⟩ := h
      obtain ⟨after₁, hfunction, hspares₁⟩ := hspares.addFunction hfunction
      obtain ⟨after₂, hinner, hspares₂⟩ := accept_spares hspares₁ hinner
      refine ⟨after₂, ?_, hspares₂⟩
      rw [accept, hfunction]
      exact require_seq_ok_iff.mpr ⟨hkind, hinner⟩
  | .call name, names, _, _, hspares, h => by
      rw [accept, require_seq_ok_iff, List.contains_iff_mem] at h
      obtain ⟨hknown, hnames⟩ := h
      cases hnames
      refine ⟨names, ?_, hspares⟩
      rw [accept, require_seq_ok_iff, List.contains_iff_mem]
      exact ⟨(hspares.functions name).mpr hknown, rfl⟩
  | .program _, _, _, _, _, h => by
      rw [accept] at h
      cases h

theorem acceptAll_spares : ∀ {items : List Tree} {names names' after' : Names},
    Spares names names' → acceptAll names' items = .ok after' →
      ∃ after, acceptAll names items = .ok after ∧ Spares after after'
  | [], names, _, _, hspares, h => by
      rw [acceptAll] at h
      cases h
      exact ⟨names, by rw [acceptAll], hspares⟩
  | item :: rest, _, _, _, hspares, h => by
      rw [acceptAll, bind_ok_iff] at h
      obtain ⟨_, hitem, hrest⟩ := h
      obtain ⟨after₁, hitem, hspares₁⟩ := accept_spares hspares hitem
      obtain ⟨after₂, hrest, hspares₂⟩ := acceptAll_spares hspares₁ hrest
      exact ⟨after₂, by rw [acceptAll, hitem]; exact hrest, hspares₂⟩

end

theorem acceptItems_spares {config : Config} {names names' : Names} {items : List Tree}
    (hspares : Spares names names') (h : acceptItems config names' items = .ok ()) :
    acceptItems config names items = .ok () := by
  rw [acceptItems, bind_ok_iff] at h
  obtain ⟨_, hitems, h⟩ := h
  rw [bind_ok_iff] at h
  obtain ⟨_, hresult, h⟩ := h
  obtain ⟨after₁, hitems, hspares₁⟩ := acceptAll_spares hspares hitems
  obtain ⟨after₂, hresult, -⟩ := hspares₁.addGlobal hresult
  rw [acceptItems, bind_ok_iff]
  exact ⟨after₁, hitems, bind_ok_iff.mpr ⟨after₂, hresult, h⟩⟩

theorem free_of_acceptAll {names after : Names} {items : List Tree} {n : String}
    (h : acceptAll names items = .ok after) (hnodup : names.functions.Nodup)
    (hn : n ∈ names.functions) : n ∉ (definitionsAll items).map Prod.fst := by
  have htakes := acceptAll_takes h
  have hafter := htakes.nodup hnodup
  rw [htakes.functions] at hafter
  obtain ⟨-, -, hapart⟩ := List.nodup_append.mp hafter
  intro hmem
  exact hapart n (List.mem_reverse.mpr hmem) n hn rfl

end Tree

namespace Compiler

open Niladic.Action Code

variable {config : Config} {names : List String} {s s' s'' : Logged Compiler}

structure Registers (names : List String) (s s' : Logged Compiler) : Prop where
  functions : ∀ {n f}, s'.state.functions.get? n = some f →
    (∃ f', s.state.functions.get? n = some f') ∨ n ∈ names
  generated : s'.state.generated = s.state.generated

namespace Registers

theorem of_same (hfunctions : s'.state.functions = s.state.functions)
    (hgenerated : s'.state.generated = s.state.generated) : Registers names s s' :=
  ⟨fun hf => .inl ⟨_, hfunctions ▸ hf⟩, hgenerated⟩

theorem refl (s : Logged Compiler) : Registers names s s := .of_same rfl rfl

theorem trans (h : Registers names s s') (h' : Registers names s' s'') : Registers names s s'' where
  functions hf := by
    rcases h'.functions hf with ⟨f', hf'⟩ | hmem
    · exact h.functions hf'
    · exact .inr hmem
  generated := h'.generated.trans h.generated

theorem insert {n : String} (hn : n ∈ names) (s : Logged Compiler) (f : FuncId) :
    Registers names s { s with state.functions := s.state.functions.insert n f } where
  functions {m f'} hf := by
    rw [Registry.get?_insert] at hf
    split at hf
    next heq => exact .inr (heq ▸ hn)
    next => exact .inl ⟨f', hf⟩
  generated := rfl

end Registers

theorem tracks_registers (names : List String) :
    Tracks (· ∈ names) (fun _ => True) (Registers names) where
  refl := Registers.refl
  trans := Registers.trans
  emitted _ _ := .of_same rfl rfl
  counted _ _ := .of_same rfl rfl
  drafted _ _ := .of_same rfl rfl
  function hn := Registers.insert hn
  blocks _ _ := .of_same rfl rfl
  global _ _ _ := .of_same rfl rfl

theorem drafting_registers {α : Type} (x : Action Draft α) :
    Relates (Registers names) (drafting x) :=
  (tracks_registers names).drafting x

theorem carries_registers (names : List String) :
    Carries (· ∈ names) (fun _ => True) (Registers names) :=
  (tracks_registers names).carries

structure Stalled (config : Config) (names : List String) (c : Compiler) : Prop where
  coherent : c.Coherent
  same : c.config = config
  generated : c.generated = false
  free : c.globals.get? config.entry = none
  functions : ∀ {n f}, c.functions.get? n = some f → n ∈ config.entry :: names

theorem fresh_stalled (config : Config) (root : Option Tree) (name : String) (depth : Nat)
    (names : List String) : (fresh config root name depth).Stalled config names where
  coherent := fresh_coherent config root name depth
  same := rfl
  generated := rfl
  free := by simp [fresh, Registry.get?]
  functions h := by simp [fresh, Registry.get?] at h

theorem Later.function {c c' : Compiler} {n : String} {f : FuncId} (h : c.Later c')
    (hc : c.Coherent) (hf : c.functions.get? n = some f) : c'.functions.get? n = some f := by
  obtain ⟨function, hfunction, hname⟩ := hc.functions_iff.mp hf
  obtain ⟨function', hfunction', hname', -⟩ := h.code.func hfunction
  exact h.coherent.functions_iff.mpr ⟨function', hfunction', hname'.trans hname⟩

namespace Stalled

theorem rooted {c : Compiler} (h : c.Stalled config names) (root : Option Tree) :
    Stalled config names { c with root } :=
  ⟨h.coherent.of_same rfl rfl rfl rfl rfl, h.same, h.generated, h.free, h.functions⟩

theorem later {f : FuncId} (h : s.state.Stalled config names) (hlater : s.state.Later s'.state)
    (hregisters : Registers (config.entry :: names) s s')
    (hentry : s'.state.functions.get? config.entry = some f) : s'.state.Stalled config names where
  coherent := hlater.coherent
  same := hlater.config.trans h.same
  generated := hregisters.generated.trans h.generated
  free := by
    rw [Option.eq_none_iff_forall_ne_some]
    exact fun g hg => hlater.coherent.apart hentry hg
  functions hf := by
    rcases hregisters.functions hf with ⟨f', hf'⟩ | hmem
    · exact h.functions hf'
    · exact hmem

theorem openEntry (h : s.state.Stalled config names) :
    ∃ b block f s', Compiler.openEntry s = .ok b s' ∧
      s'.state.draft.code.block? b = some block ∧
      s'.state.functions.get? config.entry = some f ∧ Registers (config.entry :: names) s s' := by
  have hsame := h.same
  have hfree := h.free
  subst hsame
  cases hf : s.state.functions.get? s.state.config.entry with
  | some f =>
      obtain ⟨function, hfunction, -⟩ := h.coherent.functions_iff.mp hf
      obtain ⟨block, hb⟩ := h.coherent.block_of_func hfunction
      exact ⟨_, block, f, _, openEntry_known h.coherent hf, hb, hf, .of_same rfl rfl⟩
  | none =>
      obtain ⟨log, hopen⟩ := openEntry_new h.coherent hf hfree
      have hb : ∃ block, (s.state.withProcedure s.state.config.entry .number).draft.code.block?
          ⟨s.state.draft.code.blocks.size⟩ = some block :=
        ⟨_, by rw [withProcedure_code, block?_withProcedure, if_pos rfl]⟩
      obtain ⟨block, hb⟩ := hb
      refine ⟨_, block, ⟨s.state.draft.code.functions.size⟩, _, hopen, hb, ?_, ?_⟩
      · rw [withProcedure_functions, Registry.get?_insert, if_pos rfl]
      · exact ⟨(Registers.insert List.mem_cons_self s _).functions, rfl⟩

theorem enterEntry (h : s.state.Stalled config names) :
    ∃ anchor s' b taken f, Compiler.enterEntry s = .ok anchor s' ∧ Ready taken s' b ∧
      taken.functions.Nodup ∧ s'.state.draft.code.operation? anchor = some .slot ∧
      s'.state.functions.get? config.entry = some f ∧ s'.state.Stalled config names := by
  obtain ⟨b, block, f, s₁, hopen, hb, hentry, hregisters⟩ := h.openEntry
  have hlater := openEntry_advances.of_ok hopen h.coherent
  have hready : Ready ⟨s₁.state.functions.names, s₁.state.globals.names⟩
      { s₁ with state.draft.cursor := some b } b :=
    ⟨hlater.coherent.of_same rfl rfl rfl rfl rfl, Registry.mem_names _, Registry.mem_names _, rfl,
      block, hb⟩
  obtain ⟨s₂, hslot, hlowers, hanchor⟩ := hready.appended (Draft.slot_emits "anchor")
    (Draft.slot_eq (d := { s₁.state.draft with cursor := some b }) rfl hb "anchor")
  have henter : Compiler.enterEntry s = .ok ⟨s₁.state.draft.code.values.size⟩ s₂ := by
    rw [enterEntry_eq, bind_of_ok hopen]
    exact (bind_of_ok rfl).trans hslot
  have hfunctions : s₂.state.functions = s₁.state.functions := by
    obtain ⟨d, -, rfl⟩ := drafting_eq_ok hslot
    rfl
  have hmoved : Registers (config.entry :: names) s { s₁ with state.draft.cursor := some b } :=
    hregisters.trans (.of_same rfl rfl)
  have hentry₂ : s₂.state.functions.get? config.entry = some f := by rw [hfunctions, hentry]
  exact ⟨_, s₂, b, _, f, henter, hlowers.ready, Registry.nodup_names _, hanchor, hentry₂,
    h.later (enterEntry_advances.of_ok henter h.coherent)
      (hmoved.trans ((drafting_registers _).of_ok hslot)) hentry₂⟩

end Stalled

theorem acceptItems_of_stalled {taken : Names} {b : BlockId} {items : List Tree} {f : FuncId}
    (h : s.state.Stalled config ((Tree.definitionsAll items).map Prod.fst))
    (hready : Ready taken s b) (hnodup : taken.functions.Nodup)
    (hentry : s.state.functions.get? config.entry = some f)
    (haccept : Tree.acceptItems config taken items = .ok ()) :
    Tree.acceptItems config ⟨[config.entry], []⟩ items = .ok () := by
  refine Tree.acceptItems_spares ⟨fun n => ?_, List.nil_subset _, fun n hg hf => ?_⟩ haccept
  · rw [List.mem_singleton]
    constructor
    · rintro rfl
      exact (hready.functions _).mpr ⟨f, hentry⟩
    · intro hn
      obtain ⟨f', hf'⟩ := (hready.functions n).mp hn
      rw [Tree.acceptItems, bind_ok_iff] at haccept
      obtain ⟨_, hitems, -⟩ := haccept
      rcases List.mem_cons.mp (h.functions hf') with heq | hmem
      · exact heq
      · exact absurd hmem (Tree.free_of_acceptAll hitems hnodup hn)
  · obtain ⟨g, hg⟩ := (hready.globals n).mp hg
    obtain ⟨f', hf⟩ := (hready.functions n).mp hf
    exact h.coherent.apart hf hg

theorem lowerProgramItems_fails_again {item : Tree} {rest : List Tree} {e : Error}
    (h : s.state.Stalled config ((Tree.definitionsAll (item :: rest)).map Prod.fst))
    (hrefused : Tree.acceptItems config ⟨[config.entry], []⟩ (item :: rest) = .error e) :
    ∃ e' s', lowerProgramItems (item :: rest) s = .error (.error e') s' ∧
      s'.state.Stalled config ((Tree.definitionsAll (item :: rest)).map Prod.fst) := by
  obtain ⟨anchor, s₁, b, taken, f, henter, hready, hnodup, hanchor, hentry, hstalled⟩ :=
    h.enterEntry
  cases haccept : Tree.acceptItems config taken (item :: rest) with
  | ok _ =>
      rw [acceptItems_of_stalled hstalled hready hnodup hentry haccept] at hrefused
      cases hrefused
  | error e' =>
      obtain ⟨s₂, hlower⟩ := lowerEntered_refused hready hanchor hstalled.same haccept
      have hdefs : ∀ d ∈ Tree.definitionsAll (item :: rest),
          d.1 ∈ config.entry :: (Tree.definitionsAll (item :: rest)).map Prod.fst :=
        fun d hd => List.mem_cons_of_mem _ (List.mem_map_of_mem hd)
      have hlater := (carries_advances.lowerEntered drafting_advances (fun _ _ => trivial)
        anchor).of_error hlower hstalled.coherent
      have hregisters := ((carries_registers _).lowerEntered (fun _ => drafting_registers _) hdefs
        anchor).of_error hlower
      rw [lowerProgramItems_eq, bind_of_ok henter]
      exact ⟨e', s₂, hlower, hstalled.later hlater hregisters
        (hlater.function hstalled.coherent hentry)⟩

theorem lowerProgram_fails_again {t : Tree} {e : Error}
    (h : s.state.Stalled config (t.definitions.map Prod.fst))
    (hrefused : Tree.acceptRoot config (some t) = .error e) :
    ∃ e' s', lowerProgram t s = .error (.error e') s' ∧
      s'.state.Stalled config (t.definitions.map Prod.fst) := by
  cases t with
  | program items =>
      cases items with
      | nil => exact ⟨_, s, rfl, h⟩
      | cons item rest =>
          rw [Tree.definitions] at h ⊢
          exact lowerProgramItems_fails_again h hrefused
  | _ => exact ⟨_, s, rfl, h⟩

def defined (root : Option Tree) : List String := root.elim [] fun t => t.definitions.map Prod.fst

theorem generate_fails_again {root : Option Tree} {e : Error}
    (h : s.state.Stalled config (defined root)) (hroot : s.state.root = root)
    (hrefused : Tree.acceptRoot config root = .error e) :
    ∃ e' s', generate s = .error (.error e') s' ∧ s'.state.Stalled config (defined root) ∧
      s'.state.root = root := by
  cases root with
  | none =>
      refine ⟨.structural .noRoot,
        ⟨(s.log.push (.generating s.state.config.name)).push .noRoot, s.state⟩, ?_, h, hroot⟩
      unfold generate
      rw [bind_of_ok (get_apply s), bind_of_ok (Logged.emit_apply ..)]
      simp only [h.generated, hroot, Bool.false_eq_true, if_false]
      exact Logged.reject_apply ..
  | some t =>
      obtain ⟨e', s₁, hlower, hstalled⟩ := lowerProgram_fails_again
        (s := ⟨s.log.push (.generating s.state.config.name), { s.state with root := none }⟩)
        (h.rooted none) hrefused
      obtain ⟨log, hgenerate⟩ := generate_of_error h.generated hroot hlower
      exact ⟨e', _, hgenerate, hstalled.rooted (some t), rfl⟩

theorem runAll_generate_fails_again {root : Option Tree} {e : Error}
    (h : s.state.Stalled config (defined root)) (hroot : s.state.root = root)
    (hrefused : Tree.acceptRoot config root = .error e) (n : Nat) :
    ∃ s', Command.runAll (List.replicate n .generate) s = .ok () s' ∧
      s'.state.Stalled config (defined root) ∧ s'.state.root = root := by
  induction n generalizing s with
  | zero => exact ⟨s, by rw [List.replicate_zero, Command.runAll]; rfl, h, hroot⟩
  | succ n ih =>
      obtain ⟨e', s₁, hgenerate, hstalled, hroot₁⟩ := generate_fails_again h hroot hrefused
      obtain ⟨s₂, hrest, hstalled₂⟩ := ih hstalled hroot₁
      refine ⟨s₂, ?_, hstalled₂⟩
      have hrun : Command.run .generate s = .ok () s₁ := by
        rw [Command.run]
        exact discard_of_ok (attempt_of_error hgenerate)
      rw [List.replicate_succ, Command.runAll, bind_of_ok hrun, hrest]

theorem runProgram_of_not_generated (h : s.state.generated = false) :
    runProgram.outcome s = .error (.error (.structural .notGenerated)) := by
  unfold runProgram
  simp only [outcome, bind_of_ok (get_apply s), h]
  rfl

theorem refused_of_generate_error {root : Option Tree} {name : String} {depth : Nat} {log : Log}
    {e : Error} (h : generate ⟨log, fresh config root name depth⟩ = .error (.error e) s) :
    ∃ e', Tree.acceptRoot config root = .error e' := by
  cases haccept : Tree.acceptRoot config root with
  | error e' => exact ⟨e', rfl⟩
  | ok _ =>
      obtain ⟨s', items, hgenerate, -⟩ := generate_fresh_accepted name depth log haccept
      rw [hgenerate] at h
      cases h

/-- After a first generation that failed, and any number of others: the root is still there, the
next generation fails and leaves it there, and there is nothing to run. -/
theorem failed_generation_is_final {root : Option Tree} {name : String} {depth : Nat} {log : Log}
    {e : Error} (h : generate ⟨log, fresh config root name depth⟩ = .error (.error e) s) (n : Nat) :
    ∃ t, Command.runAll (List.replicate n .generate) s = .ok () t ∧ t.state.root = root ∧
      (∃ e' t', generate t = .error (.error e') t' ∧ t'.state.root = root) ∧
      ∃ fault, runProgram.outcome t = .error (.error (.structural fault)) ∧
        fault.text = "program has not been generated" := by
  obtain ⟨e₁, hrefused⟩ := refused_of_generate_error h
  have hfresh := fresh_stalled config root name depth (defined root)
  obtain ⟨e₂, s₁, hgenerate, hstalled, hroot⟩ := generate_fails_again
    (s := ⟨log, fresh config root name depth⟩) hfresh rfl hrefused
  rw [hgenerate] at h
  cases h
  obtain ⟨t, hrun, hstalled₁, hroot₁⟩ := runAll_generate_fails_again hstalled hroot hrefused n
  obtain ⟨e₃, t', hnext, -, hroot₂⟩ := generate_fails_again hstalled₁ hroot₁ hrefused
  exact ⟨t, hrun, hroot₁, ⟨e₃, t', hnext, hroot₂⟩, _,
    runProgram_of_not_generated hstalled₁.generated, rfl⟩

-- The first attempt stops at the unknown callee, the others at the procedure that it has declared.
theorem unknown_callee_is_final :
    ∃ s t, generate ⟨#[], fresh {} (some (.program [.procedure "p" (.body []), .call "q"])) "m" 3⟩ =
        .error (.error (.notFound .function "q")) s ∧
      Command.runAll (List.replicate 2 .generate) s = .ok () t ∧
      t.state.root = some (.program [.procedure "p" (.body []), .call "q"]) ∧
      (∃ e' t', generate t = .error (.error e') t' ∧
        t'.state.root = some (.program [.procedure "p" (.body []), .call "q"])) ∧
      ∃ fault, runProgram.outcome t = .error (.error (.structural fault)) ∧
        fault.text = "program has not been generated" := by
  have houtcome : generate.outcome
      ⟨#[], fresh {} (some (.program [.procedure "p" (.body []), .call "q"])) "m" 3⟩ =
        .error (.error (.notFound .function "q")) := by
    decide +kernel
  obtain ⟨s, h⟩ := of_outcome_error houtcome
  obtain ⟨t, hfinal⟩ := failed_generation_is_final h 2
  exact ⟨s, t, h, hfinal⟩

end Compiler

end Niladic
