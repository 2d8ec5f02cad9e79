import Niladic.Proofs.Coherence

namespace Niladic.Compiler

open Niladic.Action

variable {α : Type} {s : Logged Compiler} {n : String}

theorem drafting_of_ok {x : Action Draft α} {a : α} {d : Draft} (h : x s.state.draft = .ok a d) :
    drafting x s = .ok a { s with state.draft := d } := by
  rw [drafting_apply, h]

theorem drafting_of_error {x : Action Draft α} {stop : Stop} {d : Draft}
    (h : x s.state.draft = .error stop d) :
    drafting x s = .error stop { s with state.draft := d } := by
  rw [drafting_apply, h]

theorem drafting_eq_ok {x : Action Draft α} {a : α} {s' : Logged Compiler}
    (h : drafting x s = .ok a s') :
    ∃ d, x s.state.draft = .ok a d ∧ s' = { s with state.draft := d } := by
  cases hx : x s.state.draft with
  | ok b d =>
      rw [drafting_of_ok hx] at h
      cases h
      exact ⟨d, rfl, rfl⟩
  | error stop d =>
      rw [drafting_of_error hx] at h
      cases h

theorem drafting_relates {D : Draft → Draft → Prop} {R : Logged Compiler → Logged Compiler → Prop}
    {x : Action Draft α} (hx : Relates D x)
    (hD : ∀ {s d}, D s.state.draft d → R s { s with state.draft := d }) :
    Relates R (drafting x) := by
  intro s
  cases hd : x s.state.draft with
  | ok a d =>
      rw [drafting_of_ok hd]
      exact hD (hx.of_ok hd)
  | error stop d =>
      rw [drafting_of_error hd]
      cases stop with
      | error e => exact hD (hx.of_error hd)
      | badHandle => trivial

theorem code_apply (s : Logged Compiler) : code s = .ok s.state.draft.code s := rfl

theorem cursor_apply (s : Logged Compiler) : cursor s = .ok s.state.draft.cursor s := rfl

theorem within_of_ok {b : BlockId} {x : Compile α} {a : α} {s' : Logged Compiler}
    (h : x { s with state.draft.cursor := some b } = .ok a s') :
    within b x s = .ok a { s' with state.draft.cursor := s.state.draft.cursor } := by
  have hposition : drafting (Draft.position b) s =
      .ok () { s with state.draft.cursor := some b } := rfl
  unfold within
  rw [bind_of_ok (cursor_apply s), bind_of_ok hposition, bind_of_ok (attempt_of_ok h)]
  rfl

theorem within_of_error {b : BlockId} {x : Compile α} {e : Error} {s' : Logged Compiler}
    (h : x { s with state.draft.cursor := some b } = .error (.error e) s') :
    within b x s = .error (.error e) { s' with state.draft.cursor := s.state.draft.cursor } := by
  have hposition : drafting (Draft.position b) s =
      .ok () { s with state.draft.cursor := some b } := rfl
  unfold within
  rw [bind_of_ok (cursor_apply s), bind_of_ok hposition, bind_of_ok (attempt_of_error h)]
  rfl

theorem within_of_badHandle {b : BlockId} {x : Compile α} {s' : Logged Compiler}
    (h : x { s with state.draft.cursor := some b } = .error .badHandle s') :
    within b x s = .error .badHandle s' := by
  have hposition : drafting (Draft.position b) s =
      .ok () { s with state.draft.cursor := some b } := rfl
  unfold within
  rw [bind_of_ok (cursor_apply s), bind_of_ok hposition, bind_of_error (attempt_of_badHandle h)]

theorem within_eq_ok {b : BlockId} {x : Compile α} {a : α} {s' : Logged Compiler}
    (h : within b x s = .ok a s') : ∃ t, x { s with state.draft.cursor := some b } = .ok a t ∧
      s' = { t with state.draft.cursor := s.state.draft.cursor } := by
  cases hx : x { s with state.draft.cursor := some b } with
  | ok a' t =>
      cases (within_of_ok hx).symm.trans h
      exact ⟨t, rfl, rfl⟩
  | error stop t =>
      cases stop with
      | error e => cases (within_of_error hx).symm.trans h
      | badHandle => cases (within_of_badHandle hx).symm.trans h

theorem within_relates {R S : Logged Compiler → Logged Compiler → Prop} {b : BlockId}
    {x : Compile α} (hx : Relates R x)
    (hRS : ∀ {s s'}, R { s with state.draft.cursor := some b } s' →
      S s { s' with state.draft.cursor := s.state.draft.cursor }) : Relates S (within b x) := by
  intro s
  cases hend : x { s with state.draft.cursor := some b } with
  | ok a s' =>
      rw [within_of_ok hend]
      exact hRS (hx.of_ok hend)
  | error stop s' =>
      cases stop with
      | error e =>
          rw [within_of_error hend]
          exact hRS (hx.of_error hend)
      | badHandle =>
          rw [within_of_badHandle hend]
          trivial

theorem globalNamed_known {g : GlobalId} (h : s.state.globals.get? n = some g) :
    globalNamed n s = .ok g s :=
  Registry.findOrCreate_taken (p := globalPart) h

theorem globalNamed_new (h : s.state.Coherent) (hf : s.state.functions.get? n = none)
    (hg : s.state.globals.get? n = none) :
    ∃ log, globalNamed n s = .ok ⟨s.state.draft.code.globals.size⟩
      ⟨log, { s.state.withGlobal n with statistics := s.state.statistics.addGlobal }⟩ := by
  have hglobal := Draft.global_eq (d := s.state.draft) (n := n)
    (by rw [h.findGlobal?_eq, hg]) (by rw [h.findFunction?_eq, hf])
  have hmake : (do
      let g ← drafting (Draft.global n)
      count Statistics.addGlobal
      return g : Compile GlobalId) s = .ok ⟨s.state.draft.code.globals.size⟩ ⟨s.log, { s.state with
        draft := { s.state.draft with code := s.state.draft.code.withGlobal n }
        statistics := s.state.statistics.addGlobal }⟩ :=
    bind_of_ok (drafting_of_ok hglobal)
  unfold globalNamed
  rw [Registry.findOrCreate_free (p := globalPart) hg]
  exact ⟨_, Registry.create_free_ok (p := globalPart) hg hmake⟩

theorem globalNamed_clash {f : FuncId} (h : s.state.Coherent)
    (hf : s.state.functions.get? n = some f) (hg : s.state.globals.get? n = none) :
    globalNamed n s = .error (.error (.duplicate .function n)) s := by
  have hglobal := Draft.global_of_function (d := s.state.draft) (n := n)
    (by rw [h.findGlobal?_eq, hg]) (by rw [h.findFunction?_eq, hf])
  unfold globalNamed
  rw [Registry.findOrCreate_free (p := globalPart) hg]
  exact Registry.create_free_error (p := globalPart) hg (bind_of_error (drafting_of_error hglobal))

theorem globalNamed_cases (h : s.state.Coherent) (n : String) :
    (∃ g, globalNamed n s = .ok g s) ∨ (∃ e, globalNamed n s = .error (.error e) s) ∨
    (s.state.functions.get? n = none ∧ s.state.globals.get? n = none ∧
      ∃ log, globalNamed n s = .ok ⟨s.state.draft.code.globals.size⟩
        ⟨log, { s.state.withGlobal n with statistics := s.state.statistics.addGlobal }⟩) := by
  cases hg : s.state.globals.get? n with
  | some g => exact .inl ⟨g, globalNamed_known hg⟩
  | none =>
      cases hf : s.state.functions.get? n with
      | some f => exact .inr (.inl ⟨_, globalNamed_clash h hf hg⟩)
      | none => exact .inr (.inr ⟨rfl, rfl, globalNamed_new h hf hg⟩)

theorem createFunction_new (h : s.state.Coherent) (hf : s.state.functions.get? n = none)
    (hg : s.state.globals.get? n = none) (returns : Returns) :
    ∃ log, Registry.create functionPart n (drafting (Draft.function n returns)) s =
      .ok ⟨s.state.draft.code.functions.size⟩ ⟨log, s.state.withFunction n returns⟩ := by
  have hfunction := Draft.function_eq (d := s.state.draft) (n := n)
    (by rw [h.findFunction?_eq, hf]) (by rw [h.findGlobal?_eq, hg]) returns
  exact ⟨_, Registry.create_free_ok (p := functionPart) hf (drafting_of_ok hfunction)⟩

theorem createFunction_clash {g : GlobalId} (h : s.state.Coherent)
    (hf : s.state.functions.get? n = none) (hg : s.state.globals.get? n = some g)
    (returns : Returns) :
    Registry.create functionPart n (drafting (Draft.function n returns)) s =
      .error (.error (.duplicate .global n)) s := by
  have hfunction := Draft.function_of_global (d := s.state.draft) (n := n)
    (by rw [h.findFunction?_eq, hf]) (by rw [h.findGlobal?_eq, hg]) returns
  exact Registry.create_free_error (p := functionPart) hf (drafting_of_error hfunction)

theorem createBlock_new {c : Compiler} (log : Log) (h : c.Coherent)
    (hf : c.functions.get? n = none) (returns : Returns) :
    ∃ log', Scopes.create blockPart n "entry"
        (drafting (Draft.block "entry" ⟨c.draft.code.functions.size⟩))
        ⟨log, c.withFunction n returns⟩ =
      .ok ⟨c.draft.code.blocks.size⟩ ⟨log', c.withProcedure n returns⟩ := by
  have hblock := Draft.block_eq (f := ⟨c.draft.code.functions.size⟩)
    (d := (c.withFunction n returns).draft) (by simp [withFunction, Code.withFunction]) "entry"
  have hscope : (c.blocks.openScope n).get? n "entry" = none := by
    rw [Scopes.get?_openScope]
    exact h.no_block hf
  have hopen : Scopes.opening blockPart n ⟨log, c.withFunction n returns⟩ =
      .ok () ⟨log, { c.withFunction n returns with blocks := c.blocks.openScope n }⟩ := rfl
  have hcreate : Registry.create (Scopes.part blockPart n) "entry"
      (drafting (Draft.block "entry" ⟨c.draft.code.functions.size⟩))
      ⟨log, { c.withFunction n returns with blocks := c.blocks.openScope n }⟩ = _ :=
    Registry.create_free_ok hscope (drafting_of_ok hblock)
  exact ⟨_, (bind_of_ok hopen).trans hcreate⟩

theorem declareProcedure_taken {f : FuncId} (h : s.state.Coherent)
    (hf : s.state.functions.get? n = some f) :
    ∃ log, declareProcedure n s = .error (.error (.duplicate .function n)) { s with log } := by
  unfold declareProcedure
  rw [bind_of_ok (Logged.emit_apply ..)]
  have hcreate : Registry.create functionPart n (drafting (Draft.function n .void))
      { s with log := s.log.push (.definingProcedure n) } = _ := Registry.create_taken hf
  have hkind : (functionPart.get s.state).kind = .function := h.kinds.1
  exact ⟨_, (bind_of_error hcreate).trans (by rw [hkind])⟩

theorem declareProcedure_clash {g : GlobalId} (h : s.state.Coherent)
    (hf : s.state.functions.get? n = none) (hg : s.state.globals.get? n = some g) :
    ∃ log, declareProcedure n s = .error (.error (.duplicate .global n)) { s with log } := by
  unfold declareProcedure
  rw [bind_of_ok (Logged.emit_apply ..)]
  exact ⟨_, bind_of_error (createFunction_clash
    (s := { s with log := s.log.push (.definingProcedure n) }) h hf hg .void)⟩

theorem declareProcedure_new (h : s.state.Coherent) (hf : s.state.functions.get? n = none)
    (hg : s.state.globals.get? n = none) :
    ∃ log, declareProcedure n s =
      .ok (⟨s.state.draft.code.functions.size⟩, ⟨s.state.draft.code.blocks.size⟩)
        ⟨log, s.state.withProcedure n .void⟩ := by
  unfold declareProcedure
  rw [bind_of_ok (Logged.emit_apply ..)]
  obtain ⟨log, hfunction⟩ := createFunction_new
    (s := { s with log := s.log.push (.definingProcedure n) }) h hf hg .void
  obtain ⟨log', hblock⟩ := createBlock_new log h hf .void
  exact ⟨log', (bind_of_ok hfunction).trans (bind_of_ok hblock)⟩

theorem declareProcedure_cases (h : s.state.Coherent) (n : String) :
    (∃ e log, declareProcedure n s = .error (.error e) { s with log }) ∨
    (s.state.functions.get? n = none ∧ s.state.globals.get? n = none ∧
      ∃ log, declareProcedure n s =
        .ok (⟨s.state.draft.code.functions.size⟩, ⟨s.state.draft.code.blocks.size⟩)
          ⟨log, s.state.withProcedure n .void⟩) := by
  cases hf : s.state.functions.get? n with
  | some f => exact .inl ⟨_, declareProcedure_taken h hf⟩
  | none =>
      cases hg : s.state.globals.get? n with
      | some g => exact .inl ⟨_, declareProcedure_clash h hf hg⟩
      | none => exact .inr ⟨rfl, rfl, declareProcedure_new h hf hg⟩

def openEntry : Compile BlockId := do
  let name := (← get).state.config.entry
  let f ← Registry.findOrCreate functionPart name (drafting (Draft.function name .number))
  Scopes.findOrCreate blockPart name "entry" (drafting (Draft.block "entry" f))

theorem enterEntry_eq : enterEntry = (do
    let b ← openEntry
    drafting (Draft.position b)
    drafting (Draft.slot "anchor")) := by
  unfold enterEntry openEntry
  simp only [bind_assoc]

theorem openEntry_known {f : FuncId} (h : s.state.Coherent)
    (hf : s.state.functions.get? s.state.config.entry = some f) :
    openEntry s = .ok ⟨f.index⟩
      ⟨s.log, { s.state with blocks := s.state.blocks.openScope s.state.config.entry }⟩ := by
  have hscope : (s.state.blocks.openScope s.state.config.entry).get? s.state.config.entry "entry" =
      some ⟨f.index⟩ := by
    rw [Scopes.get?_openScope]
    exact h.blocks_iff.mpr ⟨rfl, hf⟩
  have hopen : Scopes.opening blockPart s.state.config.entry s = .ok ()
      ⟨s.log, { s.state with blocks := s.state.blocks.openScope s.state.config.entry }⟩ := rfl
  have hfind : Registry.findOrCreate (Scopes.part blockPart s.state.config.entry) "entry"
      (drafting (Draft.block "entry" f))
      ⟨s.log, { s.state with blocks := s.state.blocks.openScope s.state.config.entry }⟩ = _ :=
    Registry.findOrCreate_taken hscope
  unfold openEntry
  rw [bind_of_ok (get_apply s), bind_of_ok (Registry.findOrCreate_taken (p := functionPart) hf)]
  exact (bind_of_ok hopen).trans hfind

theorem openEntry_new (h : s.state.Coherent)
    (hf : s.state.functions.get? s.state.config.entry = none)
    (hg : s.state.globals.get? s.state.config.entry = none) :
    ∃ log, openEntry s = .ok ⟨s.state.draft.code.blocks.size⟩
      ⟨log, s.state.withProcedure s.state.config.entry .number⟩ := by
  obtain ⟨log, hfunction⟩ := createFunction_new h hf hg .number
  obtain ⟨log', hblock⟩ := createBlock_new log h hf .number
  have hscope : (s.state.blocks.openScope s.state.config.entry).get? s.state.config.entry "entry" =
      none := by
    rw [Scopes.get?_openScope]
    exact h.no_block hf
  have hfind : Registry.findOrCreate (Scopes.part blockPart s.state.config.entry) "entry"
      (drafting (Draft.block "entry" ⟨s.state.draft.code.functions.size⟩))
      ⟨log, { s.state.withFunction s.state.config.entry .number with
        blocks := s.state.blocks.openScope s.state.config.entry }⟩ = _ :=
    Registry.findOrCreate_free hscope
  unfold openEntry
  rw [bind_of_ok (get_apply s), bind_of_ok
    ((Registry.findOrCreate_free (p := functionPart) hf).trans hfunction)]
  exact ⟨log', hfind.trans hblock⟩

theorem openEntry_clash {g : GlobalId} (h : s.state.Coherent)
    (hf : s.state.functions.get? s.state.config.entry = none)
    (hg : s.state.globals.get? s.state.config.entry = some g) :
    openEntry s = .error (.error (.duplicate .global s.state.config.entry)) s := by
  unfold openEntry
  rw [bind_of_ok (get_apply s)]
  exact bind_of_error ((Registry.findOrCreate_free (p := functionPart) hf).trans
    (createFunction_clash h hf hg .number))

theorem openEntry_cases (h : s.state.Coherent) :
    (∃ f, s.state.functions.get? s.state.config.entry = some f ∧ openEntry s = .ok ⟨f.index⟩
      ⟨s.log, { s.state with blocks := s.state.blocks.openScope s.state.config.entry }⟩) ∨
    (∃ e, openEntry s = .error (.error e) s) ∨
    (s.state.functions.get? s.state.config.entry = none ∧
      s.state.globals.get? s.state.config.entry = none ∧
      ∃ log, openEntry s = .ok ⟨s.state.draft.code.blocks.size⟩
        ⟨log, s.state.withProcedure s.state.config.entry .number⟩) := by
  cases hf : s.state.functions.get? s.state.config.entry with
  | some f => exact .inl ⟨f, rfl, openEntry_known h hf⟩
  | none =>
      cases hg : s.state.globals.get? s.state.config.entry with
      | some g => exact .inr (.inl ⟨_, openEntry_clash h hf hg⟩)
      | none => exact .inr (.inr ⟨rfl, rfl, openEntry_new h hf hg⟩)

structure Later (c c' : Compiler) : Prop where
  coherent : c'.Coherent
  code : c.draft.code.Extends c'.draft.code
  config : c'.config = c.config
  depth : c'.draft.depth = c.draft.depth
  generated : c.generated = true → c'.generated = true

def Advances (s s' : Logged Compiler) : Prop := s.state.Coherent → s.state.Later s'.state

theorem Advances.refl (s : Logged Compiler) : Advances s s := fun h => ⟨h, .refl _, rfl, rfl, id⟩

theorem Advances.trans {s s' s'' : Logged Compiler} (h : Advances s s') (h' : Advances s' s'') :
    Advances s s'' := by
  intro hs
  have hfirst := h hs
  have hsecond := h' hfirst.coherent
  exact ⟨hsecond.coherent, hfirst.code.trans hsecond.code, hsecond.config.trans hfirst.config,
    hsecond.depth.trans hfirst.depth, hsecond.generated ∘ hfirst.generated⟩

theorem Advances.of_same {s s' : Logged Compiler}
    (hcode : s'.state.draft.code = s.state.draft.code)
    (hfunctions : s'.state.functions = s.state.functions)
    (hblocks : s'.state.blocks = s.state.blocks) (hglobals : s'.state.globals = s.state.globals)
    (hconfig : s'.state.config = s.state.config)
    (hdepth : s'.state.draft.depth = s.state.draft.depth)
    (hgenerated : s.state.generated = true → s'.state.generated = true) : Advances s s' := by
  intro h
  refine ⟨h.of_same hcode hfunctions hblocks hglobals hconfig, ?_, hconfig, hdepth, hgenerated⟩
  rw [hcode]
  exact .refl _

theorem ends_of_coherent {r : EStateM.Result Stop (Logged Compiler) α}
    (h : s.state.Coherent → Ends Advances s r) : Ends Advances s r :=
  Ends.of_imp h

theorem bind_advances {β : Type} {x : Compile α} {f : α → Compile β} (hx : Relates Advances x)
    (hf : ∀ a, Relates Advances (f a)) : Relates Advances (x >>= f) :=
  Relates.bind Advances.trans hx hf

theorem emit_advances (e : Event) : Relates Advances (Logged.emit e : Compile Unit) :=
  fun _ => .of_same rfl rfl rfl rfl rfl rfl id

theorem reject_advances (event : Event) (e : Error) :
    Relates Advances (Logged.reject event e : Compile α) :=
  fun _ => Advances.of_same rfl rfl rfl rfl rfl rfl id

theorem Advances.moved (s : Logged Compiler) (cursor : Option BlockId) :
    Advances s { s with state.draft.cursor := cursor } :=
  .of_same rfl rfl rfl rfl rfl rfl id

theorem position_advances (b : BlockId) : Relates Advances (drafting (Draft.position b)) :=
  fun s => .moved s (some b)

theorem drafting_advances {x : Action Draft α} (hx : Relates Draft.Emits x) :
    Relates Advances (drafting x) :=
  drafting_relates hx fun hd hs => ⟨hs.emits hd, hd.code, rfl, hd.depth, id⟩

theorem within_advances (b : BlockId) {x : Compile α} (hx : Relates Advances x) :
    Relates Advances (within b x) :=
  within_relates hx fun h => ((Advances.moved _ _).trans h).trans (.moved _ _)

theorem globalNamed_advances (n : String) : Relates Advances (globalNamed n) := by
  refine fun s => ends_of_coherent fun h => ?_
  rcases globalNamed_cases h n with ⟨g, heq⟩ | ⟨e, heq⟩ | ⟨hf, hg, log, heq⟩
  · rw [heq]
    exact .refl s
  · rw [heq]
    exact .refl s
  · rw [heq]
    intro _
    exact ⟨(h.withGlobal hf hg).of_same rfl rfl rfl rfl rfl, Code.extends_withGlobal _ n, rfl, rfl,
      id⟩

theorem declareProcedure_advances (n : String) : Relates Advances (declareProcedure n) := by
  refine fun s => ends_of_coherent fun h => ?_
  rcases declareProcedure_cases h n with ⟨e, log, heq⟩ | ⟨hf, hg, log, heq⟩
  · rw [heq]
    exact .of_same rfl rfl rfl rfl rfl rfl id
  · rw [heq]
    intro _
    exact ⟨h.withProcedure hf hg nofun, Code.extends_withProcedure _ n .void, rfl, rfl, id⟩

theorem openEntry_advances : Relates Advances openEntry := by
  refine fun s => ends_of_coherent fun h => ?_
  rcases openEntry_cases h with ⟨f, hf, heq⟩ | ⟨e, heq⟩ | ⟨hf, hg, log, heq⟩
  · rw [heq]
    intro _
    exact ⟨h.openScope _, .refl _, rfl, rfl, id⟩
  · rw [heq]
    exact .refl s
  · rw [heq]
    intro _
    exact ⟨h.withProcedure hf hg fun _ => rfl, Code.extends_withProcedure _ _ .number, rfl, rfl, id⟩

theorem enterEntry_advances : Relates Advances enterEntry := by
  rw [enterEntry_eq]
  exact bind_advances openEntry_advances fun b => bind_advances (position_advances b) fun _ =>
    drafting_advances (Draft.slot_emits _)

end Niladic.Compiler
