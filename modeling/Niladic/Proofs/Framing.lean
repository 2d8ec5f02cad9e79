import Niladic.Proofs.Sessions

namespace Niladic

namespace Code

variable {code code' code'' : Code} {here here' : Option BlockId} {P : String → Prop}

/-- What work at the end of the block `here` leaves of code. New functions are for procedures for
whose names `P` holds, one for each of them, and new blocks are the blocks of these. -/
structure Framed (here : Option BlockId) (P : String → Prop) (code code' : Code) : Prop where
  grown : code.Extends code'
  functions : ∀ {f function}, code.func? f = some function → code'.func? f = some function
  elsewhere : ∀ {b block}, code.block? b = some block → here ≠ some b → code'.block? b = some block
  declared : ∀ {f function}, code.func? f = none → code'.func? f = some function →
    P function.name ∧ function.returns = .void ∧
      ∀ f' other, code'.func? f' = some other → other.name = function.name → f' = f
  opened : ∀ {b block}, code.block? b = none → code'.block? b = some block →
    block.name = "entry" ∧ code.func? block.owner = none ∧
      ∃ function, code'.func? block.owner = some function ∧ function.blocks = #[b]

namespace Framed

theorem of_same_tables (hgrown : code.Extends code') (hfunctions : code'.functions = code.functions)
    (hblocks : code'.blocks.size = code.blocks.size)
    (helsewhere : ∀ {b}, here ≠ some b → code'.block? b = code.block? b) :
    Framed here P code code' where
  grown := hgrown
  functions hf := by
    rw [func?, hfunctions]
    exact hf
  elsewhere hb hne := by rw [helsewhere hne, hb]
  declared hnone hf := by
    rw [func?, hfunctions, ← func?, hnone] at hf
    cases hf
  opened hnone hb := by
    have hlt := block_lt hb
    rw [hblocks] at hlt
    exact absurd hnone (by simp [block?, hlt])

theorem refl (here : Option BlockId) (code : Code) : Framed here P code code :=
  of_same_tables (.refl code) rfl rfl fun _ => rfl

theorem trans_of (h : Framed here P code code') (h' : Framed here' P code' code'')
    (hhere : ∀ {b block}, code.block? b = some block → here' = some b → here = some b) :
    Framed here P code code'' where
  grown := h.grown.trans h'.grown
  functions hf := h'.functions (h.functions hf)
  elsewhere hb hne := h'.elsewhere (h.elsewhere hb hne) fun heq => hne (hhere hb heq)
  declared {f function} hnone hf := by
    cases hf' : code'.func? f with
    | none => exact h'.declared hf' hf
    | some function' =>
        rw [h'.functions hf'] at hf
        cases hf
        obtain ⟨hname, hreturns, hown⟩ := h.declared hnone hf'
        refine ⟨hname, hreturns, fun f'' other hother hsame => ?_⟩
        -- A function that came later has a name of its own, among all that were there by then.
        cases hother' : code'.func? f'' with
        | none =>
            obtain ⟨-, -, hown'⟩ := h'.declared hother' hother
            exact (hown' f function (h'.functions hf') hsame.symm).symm
        | some other' =>
            rw [h'.functions hother'] at hother
            cases hother
            exact hown f'' other hother' hsame
  opened {b block} hnone hb := by
    cases hb' : code'.block? b with
    | none =>
        obtain ⟨hname, howner, hfunction⟩ := h'.opened hb' hb
        refine ⟨hname, Option.eq_none_iff_forall_ne_some.mpr fun function hf => ?_, hfunction⟩
        rw [h.functions hf] at howner
        cases howner
    | some block' =>
        obtain ⟨hname, howner, function, hf, hblocks⟩ := h.opened hnone hb'
        obtain ⟨block'', hb'', hname', howner', -⟩ := h'.grown.block hb'
        rw [hb] at hb''
        cases hb''
        rw [hname', howner']
        exact ⟨hname, howner, function, h'.functions hf, hblocks⟩

theorem trans (h : Framed here P code code') (h' : Framed here P code' code'') :
    Framed here P code code'' :=
  h.trans_of h' fun _ heq => heq

end Framed

theorem framed_withConst (x : Float) : Framed here P code (code.withConst x) :=
  .of_same_tables (extends_withConst code x) rfl rfl fun _ => rfl

theorem framed_withGlobal (n : String) : Framed here P code (code.withGlobal n) :=
  .of_same_tables (extends_withGlobal code n) rfl rfl fun _ => rfl

theorem framed_withInstruction (b : BlockId) (name : String) (op : Operation) :
    Framed (some b) P code (code.withInstruction b name op) := by
  refine .of_same_tables (extends_withInstruction ..) rfl (by simp [withInstruction]) fun hne => ?_
  exact block?_withInstruction_of_ne (fun heq => hne (congrArg some heq.symm)) name op

theorem name_ne_of_findFunction? {n : String} (h : code.findFunction? n = none) {f : FuncId}
    {function : Func} (hf : code.func? f = some function) : function.name ≠ n := by
  have hne := Array.findIdx?_eq_none_iff.mp (Option.map_eq_none_iff.mp h) function
    (Array.mem_of_getElem? hf)
  simpa using hne

theorem func?_size_eq_none (code : Code) : code.func? ⟨code.functions.size⟩ = none := by
  simp [func?]

theorem framed_of_new_function {n : String} {blocks : Array BlockId} (hP : P n)
    (hfree : code.findFunction? n = none) (hgrown : code.Extends code')
    (hfunc : ∀ f, code'.func? f =
      if f.index = code.functions.size then some ⟨n, .void, blocks⟩ else code.func? f)
    (hkept : ∀ {b block}, code.block? b = some block → code'.block? b = some block)
    (hopened : ∀ {b block}, code.block? b = none → code'.block? b = some block →
      block = ⟨"entry", ⟨code.functions.size⟩, #[]⟩ ∧ blocks = #[b]) :
    Framed here P code code' where
  grown := hgrown
  functions hf := by
    rw [hfunc, if_neg (Nat.ne_of_lt (func_lt hf))]
    exact hf
  elsewhere hb _ := hkept hb
  declared {f function} hnone hf := by
    -- The name was free, so only the new entry has it.
    have hnew {f' : FuncId} {other : Func} (hother : code'.func? f' = some other)
        (hname : other.name = n) : f' = ⟨code.functions.size⟩ := by
      rw [hfunc] at hother
      split at hother
      next hindex => exact congrArg FuncId.mk hindex
      next => exact absurd hname (name_ne_of_findFunction? hfree hother)
    have hf' := hf
    rw [hfunc] at hf'
    split at hf'
    next =>
      cases hf'
      exact ⟨hP, rfl, fun f' other hother hname => (hnew hother hname).trans (hnew hf rfl).symm⟩
    next =>
      rw [hnone] at hf'
      cases hf'
  opened hnone hb := by
    obtain ⟨rfl, hblocks⟩ := hopened hnone hb
    exact ⟨rfl, func?_size_eq_none code, _, (hfunc _).trans (if_pos rfl), hblocks⟩

theorem framed_withFunction {n : String} (hP : P n) (hfree : code.findFunction? n = none) :
    Framed here P code (code.withFunction n .void) := by
  refine framed_of_new_function hP hfree (extends_withFunction ..) (func?_withFunction n .void) id
    fun {b block} hnone hb => ?_
  have hb' : code.block? b = some block := hb
  rw [hnone] at hb'
  cases hb'

theorem framed_withProcedure {n : String} (hP : P n) (hfree : code.findFunction? n = none) :
    Framed here P code (code.withProcedure n .void) := by
  refine framed_of_new_function hP hfree (extends_withProcedure ..) (func?_withProcedure n .void)
    (fun hb => ?_) fun {b block} hnone hb => ?_
  · rw [block?_withProcedure, if_neg (Nat.ne_of_lt (block_lt hb))]
    exact hb
  · rw [block?_withProcedure] at hb
    split at hb
    next hindex =>
      cases hb
      cases b
      cases hindex
      exact ⟨rfl, rfl⟩
    next =>
      rw [hnone] at hb
      cases hb

end Code

namespace Draft

variable {d d' d'' : Draft} {P : String → Prop}

structure Frames (P : String → Prop) (d d' : Draft) : Prop where
  cursor : d'.cursor = d.cursor
  code : d.code.Framed d.cursor P d'.code

theorem Frames.refl (d : Draft) : d.Frames P d := ⟨rfl, .refl _ _⟩

theorem Frames.trans (h : d.Frames P d') (h' : d'.Frames P d'') : d.Frames P d'' := by
  have hcode := h'.code
  rw [h.cursor] at hcode
  exact ⟨h'.cursor.trans h.cursor, h.code.trans hcode⟩

theorem Emits.frames (h : d.Emits d') : d.Frames P d' := by
  refine ⟨h.cursor, ?_⟩
  cases h with
  | idle => exact .refl _ _
  | const x => exact Code.framed_withConst x
  | instruction hc hb hop name =>
      rw [hc]
      exact Code.framed_withInstruction ..

end Draft

namespace Compiler

open Niladic.Action

variable {α : Type} {s s' s'' : Logged Compiler} {n : String} {P : String → Prop}

section Creating

variable {H : Type} {p : Part Compiler (Registry H)} {make : Action Draft H}

theorem create_drafting_ok (hp : ∀ registry c, (p.put registry c).draft = c.draft) {handle : H}
    (h : Registry.create p n (drafting make) s = .ok handle s') :
    make s.state.draft = .ok handle s'.state.draft := by
  cases hget : (p.get s.state).get? n with
  | some taken =>
      rw [Registry.create_taken hget] at h
      cases h
  | none =>
      cases hmake : make s.state.draft with
      | ok handle' d =>
          rw [Registry.create_free_ok hget (drafting_of_ok hmake)] at h
          cases h
          rw [hp]
      | error stop d =>
          rw [Registry.create_free_error hget (drafting_of_error hmake)] at h
          cases h

theorem create_drafting_error {e : Error}
    (h : Registry.create p n (drafting make) s = .error (.error e) s') :
    s'.state.draft = s.state.draft ∨ make s.state.draft = .error (.error e) s'.state.draft := by
  cases hget : (p.get s.state).get? n with
  | some taken =>
      rw [Registry.create_taken hget] at h
      cases h
      exact .inl rfl
  | none =>
      cases hmake : make s.state.draft with
      | ok handle' d =>
          rw [Registry.create_free_ok hget (drafting_of_ok hmake)] at h
          cases h
      | error stop d =>
          rw [Registry.create_free_error hget (drafting_of_error hmake)] at h
          cases h
          exact .inr rfl

end Creating

theorem createFunction_ok {f : FuncId} {returns : Returns}
    (h : Registry.create functionPart n (drafting (Draft.function n returns)) s = .ok f s') :
    s.state.draft.code.findFunction? n = none ∧ f = ⟨s.state.draft.code.functions.size⟩ ∧
      s'.state.draft =
        { s.state.draft with code := s.state.draft.code.withFunction n returns } := by
  have hmake := create_drafting_ok (fun _ _ => rfl) h
  rcases Draft.function_cases n returns s.state.draft with ⟨hf, hg⟩ | ⟨e, heq⟩
  · rw [Draft.function_eq hf hg] at hmake
    injection hmake with hhandle hdraft
    exact ⟨hf, hhandle.symm, hdraft.symm⟩
  · rw [heq] at hmake
    cases hmake

theorem createFunction_error {e : Error} {returns : Returns}
    (h : Registry.create functionPart n (drafting (Draft.function n returns)) s =
      .error (.error e) s') : s'.state.draft = s.state.draft := by
  rcases create_drafting_error h with hsame | hmake
  · exact hsame
  · rcases Draft.function_cases n returns s.state.draft with ⟨hf, hg⟩ | ⟨e', heq⟩
    · rw [Draft.function_eq hf hg] at hmake
      cases hmake
    · rw [heq] at hmake
      injection hmake with _ hdraft
      exact hdraft.symm

theorem createBlock_ok {f : FuncId} {b : BlockId}
    (h : Scopes.create blockPart n "entry" (drafting (Draft.block "entry" f)) s = .ok b s') :
    b = ⟨s.state.draft.code.blocks.size⟩ ∧ s'.state.draft =
      { s.state.draft with code := s.state.draft.code.withBlock "entry" f } := by
  obtain ⟨_, s₁, hopen, h⟩ := bind_eq_ok h
  cases hopen
  have hmake := create_drafting_ok (fun _ _ => rfl) h
  rcases Draft.block_cases "entry" f s.state.draft with hf | ⟨e, heq⟩
  · injection (Draft.block_eq hf "entry").symm.trans hmake with hhandle hdraft
    exact ⟨hhandle.symm, hdraft.symm⟩
  · cases heq.symm.trans hmake

theorem createBlock_error {f : FuncId} {e : Error}
    (h : Scopes.create blockPart n "entry" (drafting (Draft.block "entry" f)) s =
      .error (.error e) s') : s'.state.draft = s.state.draft := by
  rcases bind_eq_error h with hopen | ⟨_, s₁, hopen, h⟩
  · cases hopen
  · cases hopen
    rcases create_drafting_error h with hsame | hmake
    · exact hsame
    · rcases Draft.block_cases "entry" f s.state.draft with hf | ⟨e', heq⟩
      · cases (Draft.block_eq hf "entry").symm.trans hmake
      · injection heq.symm.trans hmake with _ hdraft
        exact hdraft.symm

theorem declareProcedure_ok {d : FuncId × BlockId} (h : declareProcedure n s = .ok d s') :
    s.state.draft.code.findFunction? n = none ∧ d.2 = ⟨s.state.draft.code.blocks.size⟩ ∧
      s'.state.draft =
        { s.state.draft with code := s.state.draft.code.withProcedure n .void } := by
  unfold declareProcedure at h
  rw [bind_of_ok (Logged.emit_apply ..)] at h
  obtain ⟨f, s₁, hfunction, h⟩ := bind_eq_ok h
  obtain ⟨b, s₂, hblock, h⟩ := bind_eq_ok h
  cases h
  obtain ⟨hfree, rfl, hdraft⟩ := createFunction_ok hfunction
  obtain ⟨rfl, hdraft'⟩ := createBlock_ok hblock
  rw [hdraft] at hdraft' ⊢
  exact ⟨hfree, rfl, hdraft'⟩

theorem declareProcedure_error {e : Error} (h : declareProcedure n s = .error (.error e) s') :
    s'.state.draft = s.state.draft ∨ s.state.draft.code.findFunction? n = none ∧
      s'.state.draft =
        { s.state.draft with code := s.state.draft.code.withFunction n .void } := by
  unfold declareProcedure at h
  rw [bind_of_ok (Logged.emit_apply ..)] at h
  rcases bind_eq_error h with hfunction | ⟨f, s₁, hfunction, h⟩
  · have hsame := createFunction_error hfunction
    exact .inl hsame
  · obtain ⟨hfree, -, hdraft⟩ := createFunction_ok hfunction
    rcases bind_eq_error h with hblock | ⟨b, s₂, -, h⟩
    · exact .inr ⟨hfree, (createBlock_error hblock).trans hdraft⟩
    · cases h

def FramesDraft (P : String → Prop) (s s' : Logged Compiler) : Prop :=
  s.state.draft.Frames P s'.state.draft

theorem drafting_frames {x : Action Draft α} (hx : Relates Draft.Emits x) :
    Relates (FramesDraft P) (drafting x) :=
  drafting_relates hx Draft.Emits.frames

theorem within_restores (b : BlockId) (x : Compile α) :
    Relates (fun s s' => s'.state.draft.cursor = s.state.draft.cursor) (within b x) :=
  within_relates (.any x) fun _ => rfl

theorem within_frames {b : BlockId} {x : Compile α} (hx : Relates (FramesDraft P) x) :
    Relates (fun s s' => s'.state.draft.cursor = s.state.draft.cursor ∧
      s.state.draft.code.Framed (some b) P s'.state.draft.code) (within b x) :=
  within_relates hx fun h => ⟨rfl, h.code⟩

theorem globalNamed_frames (n : String) : Relates (FramesDraft P) (globalNamed n) := by
  refine Registry.findOrCreate_relates (fun _ => .refl _) Draft.Frames.trans
    (Registry.create_relates (fun _ => .refl _) Draft.Frames.trans (fun _ _ => .refl _)
      (fun _ _ => .refl _) ?_)
  refine Relates.bind Draft.Frames.trans ?_ fun g =>
    Relates.bind Draft.Frames.trans (fun _ => .refl _) fun _ => Relates.pure (fun _ => .refl _) g
  intro s
  rcases Draft.global_cases n s.state.draft with ⟨hg, hf⟩ | ⟨e, heq⟩
  · rw [drafting_of_ok (Draft.global_eq hg hf)]
    exact ⟨rfl, Code.framed_withGlobal n⟩
  · rw [drafting_of_error heq]
    exact .refl _

theorem declared_frames {d : FuncId × BlockId} (hP : P n) (h : declareProcedure n s = .ok d s')
    (hcursor : s''.state.draft.cursor = s'.state.draft.cursor)
    (hcode : s'.state.draft.code.Framed (some d.2) P s''.state.draft.code) :
    FramesDraft P s s'' := by
  obtain ⟨hfree, hblock, hdraft⟩ := declareProcedure_ok h
  rw [hdraft] at hcursor hcode
  refine ⟨hcursor, (Code.framed_withProcedure hP hfree).trans_of hcode fun hb heq => ?_⟩
  have hlt := Code.block_lt hb
  rw [← Option.some.inj heq, hblock] at hlt
  exact absurd hlt (Nat.lt_irrefl _)

theorem declareProcedure_error_frames {e : Error} (hP : P n)
    (h : declareProcedure n s = .error (.error e) s') : FramesDraft P s s' := by
  unfold FramesDraft
  rcases declareProcedure_error h with hdraft | ⟨hfree, hdraft⟩
  · rw [hdraft]
    exact .refl _
  · rw [hdraft]
    exact ⟨rfl, Code.framed_withFunction hP hfree⟩

theorem carries_frames : Carries P (fun _ => True) (FramesDraft P) where
  refl _ := .refl _
  trans := Draft.Frames.trans
  emitted _ _ := .refl _
  counted _ _ := .refl _
  drafts hx := drafting_frames hx.emits
  global _ := globalNamed_frames _
  procedure hn hx hy := by
    refine Relates.intro (fun s l t h => ?_) (fun s e t h => ?_)
    · obtain ⟨d, s₁, hdeclare, h⟩ := bind_eq_ok h
      obtain ⟨_, s₂, hwithin, h⟩ := bind_eq_ok h
      obtain ⟨hcursor, hcode⟩ := (within_frames hx).of_ok hwithin
      exact (declared_frames hn hdeclare hcursor hcode).trans ((hy d.1).of_ok h)
    · rcases bind_eq_error h with hdeclare | ⟨d, s₁, hdeclare, h⟩
      · exact declareProcedure_error_frames hn hdeclare
      rcases bind_eq_error h with hwithin | ⟨_, s₂, hwithin, h⟩
      · obtain ⟨hcursor, hcode⟩ := (within_frames hx).of_error hwithin
        exact declared_frames hn hdeclare hcursor hcode
      · obtain ⟨hcursor, hcode⟩ := (within_frames hx).of_ok hwithin
        exact (declared_frames hn hdeclare hcursor hcode).trans ((hy d.1).of_error h)

theorem lowering_stays_within_frame (t : Tree) :
    Relates (fun s s' => s.state.draft.Frames (fun n => ∃ inner, (n, inner) ∈ t.definitions)
      s'.state.draft) (lower t) ∧
    ∀ {α : Type} (b : BlockId) (x : Compile α),
      Relates (fun s s' => s'.state.draft.cursor = s.state.draft.cursor) (within b x) :=
  ⟨carries_frames.lower t (fun d hd => ⟨d.2, hd⟩) fun _ _ => trivial, within_restores⟩

end Compiler

end Niladic
