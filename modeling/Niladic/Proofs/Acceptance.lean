import Niladic.Proofs.Lowering

namespace Niladic

namespace Code

inductive Compiled (code : Code) (config : Config) (items : List Tree) : Prop
  | intro {function : Func} {block : Block} {global : Global} {vs : List ValueId}
      {anchor pointer value last : ValueId} {g : GlobalId}
      (hf : code.func? ⟨0⟩ = some function) (hname : function.name = config.entry)
      (hreturns : function.returns = .number) (hb : code.block? ⟨0⟩ = some block)
      (hbody : block.body.toList = anchor :: (vs ++ [value, last]))
      (hanchor : code.operation? anchor = some .slot) (hitems : PerformsAll code anchor items vs)
      (hg : code.global? g = some global) (hresult : global.name = config.result)
      (hpointer : code.operation? pointer = some (.address g))
      (hvalue : code.operation? value = some (.load pointer))
      (hlast : code.operation? last = some (.ret (some value)))
      (hdefined : ∀ d ∈ Tree.definitionsAll items, ∃ b, Procedure code d.1 d.2 b)
      (hadded : ∀ b : BlockId, 0 < b.index → b.index < code.blocks.size →
        ∃ d ∈ Tree.definitionsAll items, Procedure code d.1 d.2 b)

theorem Compiled.entry {code : Code} {config : Config} {items : List Tree}
    (h : Compiled code config items) : ∃ function, code.func? ⟨0⟩ = some function ∧
      function.name = config.entry ∧ function.returns = .number := by
  cases h with
  | intro hf hname hreturns => exact ⟨_, hf, hname, hreturns⟩

end Code

namespace Tree

def acceptItems (config : Config) (names : Names) (items : List Tree) : Except Error Unit := do
  let names ← acceptAll names items
  let _ ← names.addGlobal config.result
  require (items.getLast?.map leaves != some .void) (.structural .voidResult)

theorem acceptRoot_program (config : Config) (item : Tree) (rest : List Tree) :
    acceptRoot config (some (.program (item :: rest))) =
      acceptItems config ⟨[config.entry], []⟩ (item :: rest) := rfl

end Tree

namespace Compiler

open Niladic.Action Code

structure Entered (config : Config) (s : Logged Compiler) (anchor : ValueId) : Prop where
  ready : Ready ⟨[config.entry], []⟩ s ⟨0⟩
  blocks : s.state.draft.code.blocks.size = 1
  function : ∃ function, s.state.draft.code.func? ⟨0⟩ = some function ∧
    function.name = config.entry ∧ function.returns = .number
  body : ∃ block, s.state.draft.code.block? ⟨0⟩ = some block ∧ block.body.toList = [anchor]
  slot : s.state.draft.code.operation? anchor = some .slot
  same : s.state.config = config

theorem Entered.config_eq {config : Config} {s s' : Logged Compiler} {anchor : ValueId}
    {items : List Tree} {last result : Option Lowered} (h : Entered config s anchor)
    (hlower : lowerItems anchor last items s = .ok result s') : s'.state.config = config :=
  ((lowerItems_advances _ _ _).of_ok hlower h.ready.coherent).config.trans h.same

theorem enterEntry_fresh (config : Config) (root : Option Tree) (name : String) (depth : Nat)
    (log : Log) : ∃ s, enterEntry ⟨log, fresh config root name depth⟩ = .ok ⟨0⟩ s ∧
      Entered config s ⟨0⟩ := by
  have hfresh := fresh_coherent config root name depth
  have hf : (fresh config root name depth).functions.get? config.entry = none := by
    simp [fresh, Registry.get?]
  have hg : (fresh config root name depth).globals.get? config.entry = none := by
    simp [fresh, Registry.get?]
  obtain ⟨log', hopen⟩ := openEntry_new (s := ⟨log, fresh config root name depth⟩) hfresh hf hg
  let c := (fresh config root name depth).withProcedure config.entry .number
  have hc : c.Coherent := hfresh.withProcedure hf hg fun _ => rfl
  have hready : Ready ⟨[config.entry], []⟩ ⟨log', { c with draft.cursor := some ⟨0⟩ }⟩ ⟨0⟩ :=
    ⟨hc.of_same rfl rfl rfl rfl rfl,
      Registry.mem_insert (by simp [fresh, Registry.get?]) config.entry _,
      by simp [c, fresh, Registry.get?], rfl, _, rfl⟩
  obtain ⟨s, hslot, hlowers, hanchor⟩ := hready.appended (Draft.slot_emits "anchor")
    (Draft.slot_eq rfl rfl "anchor")
  have hentered : enterEntry ⟨log, fresh config root name depth⟩ = .ok ⟨0⟩ s := by
    rw [enterEntry_eq, bind_of_ok hopen]
    exact (bind_of_ok rfl).trans hslot
  refine ⟨s, hentered, hlowers.ready, ?_, ?_, ?_, hanchor, ?_⟩
  · refine Nat.le_antisymm (Nat.not_lt.mp fun hlt => ?_) hlowers.written.extended.blocks_le
    obtain ⟨d, hd, -⟩ := hlowers.written.added ⟨1⟩ (Nat.le_refl 1) hlt
    cases hd
  · obtain ⟨function, hfunction, hname, hreturns, -⟩ := hlowers.written.extended.func
      (f := ⟨0⟩) rfl
    exact ⟨function, hfunction, hname, hreturns⟩
  · obtain ⟨block, hb, hbody⟩ := hlowers.written.body rfl
    exact ⟨block, hb, hbody⟩
  · exact (enterEntry_advances.of_ok hentered hfresh).config

theorem procedure_closed {c : Compiler} {name : String} {inner : Tree} {b : BlockId} {block : Block}
    (h : c.Coherent) (hb : c.draft.code.block? b = some block)
    (hprocedure : Procedure c.draft.code name inner b) :
    c.draft.code.Closed block.owner block.body.toList := by
  cases hprocedure with
  | intro _ _ hb' hbody hinner hlast =>
      rw [hb] at hb'
      cases hb'
      exact h.ordered.closed hb hbody (hinner.uses.mono (List.subset_append_left _ _)) hlast rfl
        nofun

theorem check_of_compiled {c : Compiler} {config : Config} {items : List Tree} (h : c.Coherent)
    (hcompiled : Compiled c.draft.code config items) : c.draft.code.check = .ok () := by
  refine h.check_ok_iff.mpr fun b block hb => ?_
  rw [← (h.owned hb).1]
  cases hcompiled with
  | @intro _ block₀ global vs anchor pointer value last g _ _ _ hb₀ hbody hanchor hitems hg _
      hpointer hvalue hlast _ hadded =>
      by_cases hzero : b.index = 0
      · obtain ⟨i⟩ := b
        subst hzero
        rw [hb₀] at hb
        cases hb
        have hloose : c.draft.code.Loose pointer := .inr ⟨g, global, hpointer, hg⟩
        have huses : c.draft.code.Uses ((anchor :: (vs ++ [value])) ++ [last])
            (anchor :: (vs ++ [value])) := by
          have hslot : c.draft.code.Uses ((anchor :: (vs ++ [value])) ++ [last]) [anchor] :=
            uses_singleton hanchor rfl fun u hu => absurd hu List.not_mem_nil
          have hload : c.draft.code.Uses ((anchor :: (vs ++ [value])) ++ [last]) [value] :=
            uses_singleton hvalue rfl fun u hu => .inl (List.mem_singleton.mp hu ▸ hloose)
          refine hslot.append ((hitems.uses.mono ?_).append hload)
          exact List.cons_subset_cons anchor (by simp)
        refine h.ordered.closed hb₀ (by simpa using hbody) huses hlast rfl fun u hu => ?_
        rw [List.mem_singleton.mp hu]
        exact .inr (by simp)
      · obtain ⟨d, -, hprocedure⟩ := hadded b (Nat.pos_of_ne_zero hzero) (Code.block_lt hb)
        exact procedure_closed h hb hprocedure

theorem isVoid_iff (l : Lowered) : l.isVoid = true ↔ l.kind = .void := by
  cases l <;> simp [Lowered.isVoid, Lowered.kind]

theorem all_isVoid {result : Option Lowered} {item : Tree} {rest : List Tree}
    (h : result.map Lowered.kind = ((item :: rest).getLast?.map Tree.leaves).or none) :
    (result.all Lowered.isVoid = true) ↔ (item :: rest).getLast?.map Tree.leaves = some .void := by
  rw [Option.or_none] at h
  rw [← h]
  cases result with
  | none =>
      rw [List.getLast?_cons] at h
      cases h
  | some l =>
      rw [Option.all_some, isVoid_iff, Option.map_some, Option.some.injEq]

variable {config : Config} {item : Tree} {rest : List Tree}

structure Loaded (config : Config) (items : List Tree) (s : Logged Compiler) (value : ValueId) :
    Prop where
  ready : ∃ names, Ready names s ⟨0⟩
  function : ∃ function, s.state.draft.code.func? ⟨0⟩ = some function ∧
    function.name = config.entry ∧ function.returns = .number
  block : ∃ block vs, s.state.draft.code.block? ⟨0⟩ = some block ∧
    block.body.toList = ⟨0⟩ :: (vs ++ [value]) ∧ PerformsAll s.state.draft.code ⟨0⟩ items vs
  slot : s.state.draft.code.operation? ⟨0⟩ = some .slot
  result : ∃ g global pointer, s.state.draft.code.global? g = some global ∧
    global.name = config.result ∧ s.state.draft.code.operation? pointer = some (.address g) ∧
    s.state.draft.code.operation? value = some (.load pointer)
  defined : ∀ d ∈ Tree.definitionsAll items, ∃ b, 0 < b.index ∧
    Procedure s.state.draft.code d.1 d.2 b
  added : ∀ b : BlockId, 0 < b.index → b.index < s.state.draft.code.blocks.size →
    ∃ d ∈ Tree.definitionsAll items, Procedure s.state.draft.code d.1 d.2 b

theorem lowerProgramItems_loaded {names names' : Names} (root : Option Tree) (name : String)
    (depth : Nat) (log : Log)
    (hitems : Tree.acceptAll ⟨[config.entry], []⟩ (item :: rest) = .ok names)
    (hresult : names.addGlobal config.result = .ok names') :
    ∃ s value, Loaded config (item :: rest) s value ∧
      lowerProgramItems (item :: rest) ⟨log, fresh config root name depth⟩ =
        (if (item :: rest).getLast?.map Tree.leaves = some .void then
          Action.fail (.structural .voidResult)
        else do
          drafting (Draft.ret value)
          (← code).verify : Compile Unit) s := by
  obtain ⟨s₁, hentry, hentered⟩ := enterEntry_fresh config root name depth log
  obtain ⟨result, s₂, vs, hlower₂, hlowers₂, hperforms₂, hkind⟩ :=
    lowerItems_accepted (item :: rest) none hentered.ready hitems hentered.slot
  obtain ⟨g, s₃, hglobal₃, hlowers₃, global, hg, hname⟩ :=
    globalNamed_accepted hlowers₂.ready hresult
  have haddress := hlowers₃.ready.coherent.ordered.addressed hg
  have hpointer : drafting (Draft.pointer g) s₃ = .ok global.address s₃ :=
    drafting_of_ok (Draft.pointer_eq hg)
  obtain ⟨block₃, hb₃⟩ := hlowers₃.ready.block
  obtain ⟨s₄, hload, hlowers₄, hvalue⟩ := hlowers₃.ready.appended
    (Draft.load_emits global.address (config.result ++ ".load"))
    (Draft.load_eq hlowers₃.ready.cursor hb₃ ⟨_, haddress, rfl⟩ _)
  have hlowers := hlowers₂.trans (hlowers₃.trans hlowers₄ hlowers₂.ready) hentered.ready
  rw [List.nil_append, List.nil_append, List.append_nil] at hlowers
  have hcode := hlowers.written.extended
  have hslot := hcode.operation hentered.slot
  refine ⟨s₄, ⟨s₃.state.draft.code.values.size⟩,
    ⟨⟨_, hlowers.ready⟩, ?_, ?_, hslot, ?_, ?_, ?_⟩, ?_⟩
  · obtain ⟨function, hf, hentryName, hreturns⟩ := hentered.function
    obtain ⟨function', hf', hname', hreturns', -⟩ := hcode.func hf
    exact ⟨function', hf', hname'.trans hentryName, hreturns'.trans hreturns⟩
  · obtain ⟨block, hb, hbody⟩ := hentered.body
    obtain ⟨block', hb', hbody'⟩ := hlowers.written.body hb
    rw [hbody] at hbody'
    exact ⟨block', vs, hb', hbody', hperforms₂.mono
      (hlowers₃.written.extended.trans hlowers₄.written.extended)⟩
  · exact ⟨g, global, global.address, hlowers₄.written.extended.global hg, hname,
      hlowers₄.written.extended.operation haddress, hvalue⟩
  · intro d hd
    obtain ⟨b, hle, hprocedure⟩ := hlowers.written.defined d hd
    rw [hentered.blocks] at hle
    exact ⟨b, hle, hprocedure⟩
  · intro b hpos hlt
    refine hlowers.written.added b ?_ hlt
    rw [hentered.blocks]
    exact hpos
  · rw [lowerProgramItems, bind_of_ok hentry, bind_of_ok hlower₂, bind_of_ok (get_apply s₂),
      hentered.config_eq hlower₂, bind_of_ok hglobal₃, bind_of_ok hpointer, bind_of_ok hload]
    by_cases hvoid : (item :: rest).getLast?.map Tree.leaves = some .void
    · rw [if_pos hvoid, if_pos ((all_isVoid hkind).mpr hvoid)]
    · rw [if_neg hvoid, if_neg (fun hall => hvoid ((all_isVoid hkind).mp hall))]

theorem lowerProgramItems_compiled {s : Logged Compiler} {value : ValueId} {items : List Tree}
    (h : Loaded config items s value) :
    ∃ s', (do
      drafting (Draft.ret value)
      (← code).verify : Compile Unit) s = .ok () s' ∧
        Compiled s'.state.draft.code config items := by
  obtain ⟨names, hready⟩ := h.ready
  obtain ⟨function, hf, hname, hreturns⟩ := h.function
  obtain ⟨block, vs, hb, hbody, hperforms⟩ := h.block
  obtain ⟨g, global, pointer, hg, hresult, hpointer, hvalue⟩ := h.result
  have howner := (hready.coherent.owned hb).1
  have hnumber : s.state.draft.code.IsNumber value := by simp [IsNumber, isNumeric?, hvalue]
  obtain ⟨s', hret, hlowers, hlast⟩ := hready.appended (Draft.ret_emits value)
    (Draft.ret_eq hready.cursor hb (by rw [howner]; exact ⟨function, hf, hreturns⟩) hnumber)
  have hcode := hlowers.written.extended
  obtain ⟨function', hf', hname', hreturns', -⟩ := hcode.func hf
  obtain ⟨block', hb', hbody'⟩ := hlowers.written.body hb
  have hne {b : BlockId} (hpos : 0 < b.index) : b ≠ ⟨0⟩ := by
    rintro rfl
    exact absurd hpos (Nat.lt_irrefl 0)
  have hcompiled : Compiled s'.state.draft.code config items := by
    refine .intro hf' (hname'.trans hname) (hreturns'.trans hreturns) hb' ?_
      (hcode.operation h.slot) (hperforms.mono hcode) (hcode.global hg) hresult
      (hcode.operation hpointer) (hcode.operation hvalue) hlast ?_ ?_
    · rw [hbody', hbody]
      simp
    · intro d hd
      obtain ⟨b, hpos, hprocedure⟩ := h.defined d hd
      exact ⟨b, hlowers.written.keeps (hne hpos) hprocedure⟩
    · intro b hpos hlt
      by_cases hold : b.index < s.state.draft.code.blocks.size
      · obtain ⟨d, hd, hprocedure⟩ := h.added b hpos hold
        exact ⟨d, hd, hlowers.written.keeps (hne hpos) hprocedure⟩
      · obtain ⟨d, hd, -⟩ := hlowers.written.added b (Nat.not_lt.mp hold) hlt
        cases hd
  refine ⟨s', ?_, hcompiled⟩
  rw [bind_of_ok hret, bind_of_ok (code_apply s')]
  unfold Code.verify
  rw [check_of_compiled hlowers.ready.coherent hcompiled]
  rfl

theorem lowerEntered_refused {names : Names} {s : Logged Compiler} {b : BlockId} {anchor : ValueId}
    {e : Error} (h : Ready names s b) (hanchor : s.state.draft.code.operation? anchor = some .slot)
    (hconfig : s.state.config = config)
    (hrefused : Tree.acceptItems config names (item :: rest) = .error e) :
    ∃ s', lowerEntered (item :: rest) anchor s = .error (.error e) s' := by
  unfold lowerEntered
  rw [Tree.acceptItems, bind_error_iff] at hrefused
  rcases hrefused with hrefused | ⟨names₁, hitems, hrefused⟩
  · obtain ⟨s₁, hlower⟩ := lowerItems_refused (item :: rest) none h hrefused hanchor
    exact ⟨s₁, bind_of_error hlower⟩
  obtain ⟨result, s₁, vs, hlower, hlowers, -, hkind⟩ :=
    lowerItems_accepted (item :: rest) none h hitems hanchor
  have hsame := ((lowerItems_advances _ _ _).of_ok hlower h.coherent).config.trans hconfig
  rw [bind_of_ok hlower, bind_of_ok (get_apply s₁), hsame]
  rw [bind_error_iff] at hrefused
  rcases hrefused with hrefused | ⟨names₂, hresult, hrefused⟩
  · exact ⟨s₁, bind_of_error (globalNamed_refused hlowers.ready hrefused)⟩
  obtain ⟨g, s₂, hglobal, hlowers₂, global, hg, -⟩ := globalNamed_accepted hlowers.ready hresult
  have haddress := hlowers₂.ready.coherent.ordered.addressed hg
  have hpointer : drafting (Draft.pointer g) s₂ = .ok global.address s₂ :=
    drafting_of_ok (Draft.pointer_eq hg)
  obtain ⟨block, hb⟩ := hlowers₂.ready.block
  obtain ⟨s₃, hload, -⟩ := hlowers₂.ready.appended
    (Draft.load_emits global.address (config.result ++ ".load"))
    (Draft.load_eq hlowers₂.ready.cursor hb ⟨_, haddress, rfl⟩ _)
  rw [bind_of_ok hglobal, bind_of_ok hpointer, bind_of_ok hload]
  unfold Tree.require at hrefused
  split at hrefused
  · cases hrefused
  next hvoid =>
    cases hrefused
    rw [if_pos ((all_isVoid hkind).mpr (by simpa using hvoid))]
    exact ⟨s₃, rfl⟩

theorem lowerProgramItems_refused {e : Error} (root : Option Tree) (name : String) (depth : Nat)
    (log : Log) (h : Tree.acceptRoot config (some (.program (item :: rest))) = .error e) :
    ∃ s, lowerProgramItems (item :: rest) ⟨log, fresh config root name depth⟩ =
      .error (.error e) s := by
  obtain ⟨s₁, hentry, hentered⟩ := enterEntry_fresh config root name depth log
  rw [Tree.acceptRoot_program] at h
  rw [lowerProgramItems_eq, bind_of_ok hentry]
  exact lowerEntered_refused hentered.ready hentered.slot hentered.same h

theorem lowerProgramItems_accepted (root : Option Tree) (name : String) (depth : Nat) (log : Log)
    (h : Tree.acceptRoot config (some (.program (item :: rest))) = .ok ()) :
    ∃ s, lowerProgramItems (item :: rest) ⟨log, fresh config root name depth⟩ = .ok () s ∧
      Compiled s.state.draft.code config (item :: rest) := by
  rw [Tree.acceptRoot, bind_ok_iff] at h
  obtain ⟨names, hitems, h⟩ := h
  rw [bind_ok_iff] at h
  obtain ⟨names', hresult, h⟩ := h
  rw [Tree.require_ok_iff, bne_iff_ne] at h
  obtain ⟨s, value, hloaded, heq⟩ := lowerProgramItems_loaded root name depth log hitems hresult
  rw [heq, if_neg h]
  exact lowerProgramItems_compiled hloaded

section

variable {s s' : Logged Compiler} {t : Tree}

theorem generate_of_ok (hgenerated : s.state.generated = false) (hroot : s.state.root = some t)
    (h : lowerProgram t ⟨s.log.push (.generating s.state.config.name),
      { s.state with root := none }⟩ = .ok () s') :
    ∃ s'', generate s = .ok () s'' ∧ s''.state.draft = s'.state.draft := by
  unfold generate
  rw [bind_of_ok (get_apply s), bind_of_ok (Logged.emit_apply ..)]
  simp only [hgenerated, Bool.false_eq_true, if_false, hroot, generateFrom]
  refine ⟨_, (bind_of_ok rfl).trans ((bind_of_ok (attempt_of_ok h)).trans rfl), rfl⟩

theorem generate_of_error {e : Error} (hgenerated : s.state.generated = false)
    (hroot : s.state.root = some t)
    (h : lowerProgram t ⟨s.log.push (.generating s.state.config.name),
      { s.state with root := none }⟩ = .error (.error e) s') :
    ∃ log, generate s = .error (.error e) ⟨log, { s'.state with root := some t }⟩ := by
  unfold generate
  rw [bind_of_ok (get_apply s), bind_of_ok (Logged.emit_apply ..)]
  simp only [hgenerated, Bool.false_eq_true, if_false, hroot, generateFrom]
  exact ⟨_, (bind_of_ok rfl).trans ((bind_of_ok (attempt_of_error h)).trans rfl)⟩

end

theorem lowerProgram_fresh_error {e : Error} {t : Tree} (root : Option Tree) (name : String)
    (depth : Nat) (log : Log) (h : Tree.acceptRoot config (some t) = .error e) :
    ∃ s, lowerProgram t ⟨log, fresh config root name depth⟩ = .error (.error e) s := by
  cases t with
  | program items =>
      cases items with
      | nil =>
          cases h
          exact ⟨_, rfl⟩
      | cons item rest => exact lowerProgramItems_refused root name depth log h
  | _ =>
      cases h
      exact ⟨_, rfl⟩

theorem lowerProgram_fresh_ok {t : Tree} (root : Option Tree) (name : String)
    (depth : Nat) (log : Log) (h : Tree.acceptRoot config (some t) = .ok ()) :
    ∃ s items, lowerProgram t ⟨log, fresh config root name depth⟩ = .ok () s ∧
      t = .program items ∧ Compiled s.state.draft.code config items := by
  cases t with
  | program items =>
      cases items with
      | nil => cases h
      | cons item rest =>
          obtain ⟨s, hlower, hcompiled⟩ := lowerProgramItems_accepted root name depth log h
          exact ⟨s, _, hlower, rfl, hcompiled⟩
  | _ => cases h

theorem generate_fresh_accepted {root : Option Tree} (name : String) (depth : Nat) (log : Log)
    (h : Tree.acceptRoot config root = .ok ()) :
    ∃ s items, generate ⟨log, fresh config root name depth⟩ = .ok () s ∧
      root = some (.program items) ∧ Compiled s.state.draft.code config items := by
  cases root with
  | none => cases h
  | some t =>
      obtain ⟨s₁, items, hlower, rfl, hcompiled⟩ := lowerProgram_fresh_ok none name depth
        (log.push (.generating config.name)) h
      obtain ⟨s₂, hgenerate, hdraft⟩ := generate_of_ok
        (s := ⟨log, fresh config (some (.program items)) name depth⟩) rfl rfl hlower
      exact ⟨s₂, items, hgenerate, rfl, by rw [hdraft]; exact hcompiled⟩

theorem generate_fresh_refused {t : Tree} {e : Error} (name : String) (depth : Nat) (log : Log)
    (h : Tree.acceptRoot config (some t) = .error e) :
    ∃ s, generate ⟨log, fresh config (some t) name depth⟩ = .error (.error e) s := by
  obtain ⟨s₁, hlower⟩ := lowerProgram_fresh_error none name depth
    (log.push (.generating config.name)) h
  obtain ⟨log', hgenerate⟩ := generate_of_error
    (s := ⟨log, fresh config (some t) name depth⟩) rfl rfl hlower
  exact ⟨_, hgenerate⟩

theorem generate_fresh_ok {items : List Tree} {name : String} {depth : Nat} {log : Log}
    {s : Logged Compiler}
    (h : generate ⟨log, fresh config (some (.program items)) name depth⟩ = .ok () s) :
    Tree.acceptRoot config (some (.program items)) = .ok () ∧
      Compiled s.state.draft.code config items := by
  cases haccept : Tree.acceptRoot config (some (.program items)) with
  | ok _ =>
      obtain ⟨s', items', hgenerate, hitems, hcompiled⟩ :=
        generate_fresh_accepted name depth log haccept
      cases hitems
      rw [hgenerate] at h
      cases h
      exact ⟨rfl, hcompiled⟩
  | error e =>
      obtain ⟨s', hgenerate⟩ := generate_fresh_refused name depth log haccept
      rw [hgenerate] at h
      cases h

theorem root_of_generate_fresh {root : Option Tree} {name : String} {depth : Nat} {log : Log}
    {s : Logged Compiler} (h : generate ⟨log, fresh config root name depth⟩ = .ok () s) :
    ∃ items, root = some (.program items) := by
  cases root with
  | none => cases h
  | some t =>
      cases haccept : Tree.acceptRoot config (some t) with
      | ok _ =>
          obtain ⟨-, items, -, hroot, -⟩ := generate_fresh_accepted name depth log haccept
          exact ⟨items, hroot⟩
      | error e =>
          obtain ⟨s', hgenerate⟩ := generate_fresh_refused name depth log haccept
          rw [hgenerate] at h
          cases h

theorem generate_outcome_eq_acceptRoot (config : Config) (root : Option Tree) (name : String)
    (depth : Nat) (log : Log) : generate.outcome ⟨log, fresh config root name depth⟩ =
      (Tree.acceptRoot config root).mapError Stop.error := by
  cases root with
  | none => rfl
  | some t =>
      cases haccept : Tree.acceptRoot config (some t) with
      | ok _ =>
          obtain ⟨s, items, hlower, -⟩ := lowerProgram_fresh_ok none name depth
            (log.push (.generating config.name)) haccept
          obtain ⟨s', hgenerate, -⟩ := generate_of_ok
            (s := ⟨log, fresh config (some t) name depth⟩) rfl rfl hlower
          exact outcome_of_ok hgenerate
      | error e =>
          obtain ⟨s, hlower⟩ := lowerProgram_fresh_error none name depth
            (log.push (.generating config.name)) haccept
          obtain ⟨s', hgenerate⟩ := generate_of_error
            (s := ⟨log, fresh config (some t) name depth⟩) rfl rfl hlower
          exact outcome_of_error hgenerate

end Compiler

end Niladic
