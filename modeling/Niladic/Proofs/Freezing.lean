import Niladic.Proofs.Soundness

namespace Niladic

namespace Code

variable {code code' : Code}

theorem Extends.findFunction? (h : code.Extends code') {name : String} {f : FuncId}
    (hfind : code.findFunction? name = some f) : code'.findFunction? name = some f := by
  unfold Code.findFunction? at hfind ⊢
  obtain ⟨i, hi, rfl⟩ := Option.map_eq_some_iff.mp hfind
  obtain ⟨hlt, hname, hbefore⟩ := Array.findIdx?_eq_some_iff_getElem.mp hi
  have hkept (j : Nat) (hj : j < code.functions.size) :
      ∃ hj' : j < code'.functions.size, code'.functions[j].name = code.functions[j].name := by
    have hold : code.func? ⟨j⟩ = some code.functions[j] := Array.getElem?_eq_getElem hj
    obtain ⟨function', hnew, hsame, -⟩ := h.func hold
    obtain ⟨hj', rfl⟩ := Array.getElem?_eq_some_iff.mp hnew
    exact ⟨hj', hsame⟩
  refine Option.map_eq_some_iff.mpr ⟨i, Array.findIdx?_eq_some_iff_getElem.mpr ?_, rfl⟩
  obtain ⟨hlt', hsame⟩ := hkept i hlt
  refine ⟨hlt', by rwa [hsame], fun j hj => ?_⟩
  obtain ⟨hj', hsame⟩ := hkept j (Nat.lt_trans hj hlt)
  rw [hsame]
  exact hbefore j hj

end Code

namespace Machine

open Niladic.Action Code

variable {code code' : Code} {cells cells' : Array Float}

/-- A run stops so where the code has nothing more, and only there can code that is added make a
difference. -/
inductive Hole : Stop → Prop
  | badHandle : Hole .badHandle
  | fellOff (block function : String) :
      Hole (.error (.backend (.trapped (.fellOff block function))))
  | noBody (function : String) : Hole (.error (.backend (.trapped (.noBody function))))

def Covers (cells cells' : Array Float) : Prop :=
  ∀ (i : Nat) (x : Float), cells[i]? = some x → cells'[i]? = some x

theorem Covers.lt (h : Covers cells cells') {i : Nat} (hi : i < cells.size) : i < cells'.size := by
  obtain ⟨hi', -⟩ := Array.getElem?_eq_some_iff.mp (h i _ (Array.getElem?_eq_getElem hi))
  exact hi'

theorem Covers.set (h : Covers cells cells') (i : Nat) (x : Float) :
    Covers (cells.setIfInBounds i x) (cells'.setIfInBounds i x) := by
  intro j y hj
  rw [Array.getElem?_setIfInBounds] at hj ⊢
  split at hj
  next hij =>
    split at hj
    next hlt => rwa [if_pos hij, if_pos (h.lt hlt)]
    next => cases hj
  next hij =>
    rw [if_neg hij]
    exact h j y hj

theorem covers_blank (h : code.Extends code') : Covers (blank code).cells (blank code').cells := by
  intro i x hi
  simp only [blank, Array.getElem?_map, Option.map_eq_some_iff] at hi ⊢
  obtain ⟨global, hglobal, rfl⟩ := hi
  have hold : code.global? ⟨i⟩ = some global := hglobal
  exact ⟨global, h.global hold, rfl⟩

section

variable {α β : Type}

def Agrees (r r' : Except Stop α) : Prop := r = .error .badHandle ∨ r' = r

theorem Agrees.refl (r : Except Stop α) : Agrees r r := .inr rfl

theorem Agrees.resolve {o o' : Option α} (h : ∀ a, o = some a → o' = some a) :
    Agrees (resolve o) (resolve o') := by
  cases o with
  | none => exact .inl rfl
  | some a =>
      rw [h a rfl]
      exact .refl _

theorem Agrees.bind {x x' : Except Stop α} {g g' : α → Except Stop β} (hx : Agrees x x')
    (hg : ∀ a, Agrees (g a) (g' a)) : Agrees (x >>= g) (x' >>= g') := by
  rcases hx with rfl | rfl
  · exact .inl rfl
  · cases x' with
    | error stop => exact .refl _
    | ok a => exact hg a

end

theorem operand_agrees (h : code.Extends code') (frame : Frame) (v : ValueId) :
    Agrees (operand code frame v) (operand code' frame v) :=
  (Agrees.resolve fun _ => h.operation).bind fun _ => .refl _

theorem read_agrees (h : code.Extends code') (hcells : Covers cells cells') (frame : Frame)
    (p : ValueId) : Agrees (read code cells frame p) (read code' cells' frame p) := by
  refine (Agrees.resolve fun _ => h.operation).bind fun op => ?_
  cases op with
  | address g => exact Agrees.resolve (hcells g.index)
  | _ => exact .refl _

theorem write_agrees (h : code.Extends code') (hcells : Covers cells cells') (frame : Frame)
    (p : ValueId) (x : Float) :
    Agrees (write code cells frame p x) (write code' cells' frame p x) := by
  refine (Agrees.resolve fun _ => h.operation).bind fun op => ?_
  cases op with
  | address g =>
      dsimp only
      split
      next hlt =>
        rw [if_pos (hcells.lt hlt)]
        exact .refl _
      next => exact .inl rfl
  | _ => exact .refl _

theorem effect_agrees (h : code.Extends code') (hcells : Covers cells cells') (frame : Frame)
    (v : ValueId) : Agrees (effect code cells frame v) (effect code' cells' frame v) := by
  refine (Agrees.resolve fun _ => h.operation).bind fun op => ?_
  cases op with
  | arith op left right =>
      exact (operand_agrees h frame left).bind fun x =>
        (operand_agrees h frame right).bind fun y => .refl _
  | load pointer => exact (read_agrees h hcells frame pointer).bind fun x => .refl _
  | store value pointer =>
      exact (operand_agrees h frame value).bind fun x => write_agrees h hcells frame pointer x
  | ret value =>
      cases value with
      | none => exact .refl _
      | some value => exact (operand_agrees h frame value).bind fun x => .refl _
  | _ => exact .refl _

def Persists : EStateM.Result Stop (Logged Memory) (Option Float) →
    EStateM.Result Stop (Logged Memory) (Option Float) → Prop
  | .ok result m, r => ∃ m', r = .ok result m' ∧ Covers m.state.cells m'.state.cells
  | .error stop _, r => Hole stop ∨ ∃ m', r = .error stop m'

theorem Persists.bind {x x' : Run} {g g' : Option Float → Run} {m m' : Logged Memory}
    (hx : Persists (x m) (x' m'))
    (hg : ∀ result m m', Covers m.state.cells m'.state.cells →
      Persists (g result m) (g' result m')) : Persists ((x >>= g) m) ((x' >>= g') m') := by
  cases hm : x m with
  | ok result m₁ =>
      rw [hm] at hx
      obtain ⟨m₁', hm', hcells⟩ := hx
      rw [bind_of_ok hm, bind_of_ok hm']
      exact hg result m₁ m₁' hcells
  | error stop m₁ =>
      rw [hm] at hx
      rw [bind_of_error hm]
      rcases hx with hhole | ⟨m₁', hm'⟩
      · exact .inl hhole
      · exact .inr ⟨m₁', bind_of_error hm'⟩

section

variable {call call' : ValueId → FuncId → Run} {m m' : Logged Memory}

def CallsPersist (call call' : ValueId → FuncId → Run) : Prop :=
  ∀ v callee m m', Covers m.state.cells m'.state.cells →
    Persists (call v callee m) (call' v callee m')

theorem proceed_persists (hcall : CallsPersist call call') {next next' : Frame → Run}
    (hnext : ∀ frame m m', Covers m.state.cells m'.state.cells →
      Persists (next frame m) (next' frame m'))
    (hcells : Covers m.state.cells m'.state.cells) (v : ValueId) (frame : Frame) (e : Effect) :
    Persists (proceed call next v frame e m) (proceed call' next' v frame e m') := by
  cases e with
  | define x => exact hnext _ _ _ hcells
  | allocate => exact hnext _ _ _ hcells
  | setGlobal g x => exact hnext _ _ _ (hcells.set g.index x)
  | setSlot p x => exact hnext _ _ _ hcells
  | call callee =>
      exact Persists.bind (hcall v callee m m' hcells) fun result m m' hcells =>
        hnext _ m m' hcells
  | leave result => exact ⟨_, rfl, hcells⟩

theorem fallOff_hole (code : Code) (frame : Frame) : Hole (fallOff code frame) := by
  unfold fallOff
  split
  · exact .fellOff _ _
  · exact .badHandle

theorem runBody_persists (h : code.Extends code') (hcall : CallsPersist call call')
    (vs more : List ValueId) (frame : Frame) (hcells : Covers m.state.cells m'.state.cells) :
    Persists (runBody code call vs frame m) (runBody code' call' (vs ++ more) frame m') := by
  induction vs generalizing frame m m' with
  -- Only a run that would have fallen off its end gets to `more`.
  | nil => exact .inl (fallOff_hole code frame)
  | cons v rest ih =>
      rw [List.cons_append]
      have hagrees := effect_agrees h hcells frame v
      cases heffect : effect code m.state.cells frame v with
      | error stop =>
          rw [runBody_cons_error heffect]
          rcases hagrees with hbad | hsame
          · rw [heffect] at hbad
            cases hbad
            exact .inl .badHandle
          · exact .inr ⟨_, runBody_cons_error (hsame.trans heffect) _ _⟩
      | ok e =>
          rcases hagrees with hbad | hsame
          · rw [heffect] at hbad
            cases hbad
          · rw [runBody_cons_ok heffect, runBody_cons_ok (hsame.trans heffect)]
            have hrest (frame : Frame) (m m' : Logged Memory)
                (hcells : Covers m.state.cells m'.state.cells) :
                Persists (runBody code call rest frame m)
                  (runBody code' call' (rest ++ more) frame m') := ih frame hcells
            have hticked : Covers (ticked m).state.cells (ticked m').state.cells := hcells
            exact proceed_persists hcall hrest hticked v frame e

theorem runEntered_persists (h : code.Extends code') (hcall : CallsPersist call call') (f : FuncId)
    (site : Option ValueId) (hcells : Covers m.state.cells m'.state.cells) :
    Persists (runEntered code call f site m) (runEntered code' call' f site m') := by
  cases hf : code.func? f with
  | none =>
      have henter : enter code f site = .error .badHandle := by
        simp [enter, hf, resolve, bind, Except.bind]
      rw [runEntered, henter]
      exact .inl .badHandle
  | some function =>
      obtain ⟨function', hf', -, -, hblocks⟩ := h.func hf
      cases hfirst : function.blocks[0]? with
      | none =>
          rw [runEntered_noBody hf hfirst]
          exact .inl (.noBody _)
      | some b =>
          have hfirst' : function'.blocks[0]? = some b := by
            obtain ⟨more, hmore⟩ := hblocks
            rw [← Array.getElem?_toList] at hfirst ⊢
            rw [← hmore]
            exact List.getElem?_append_left (List.getElem?_eq_some_iff.mp hfirst).1 ▸ hfirst
          cases hb : code.block? b with
          | none =>
              have henter : enter code f site =
                  .ok ({ func := f, block := b, site }, function.name) := by
                simp [enter, hf, hfirst, resolve, bind, Except.bind]
              simp only [runEntered, henter, runFrame, hb]
              exact .inl .badHandle
          | some block =>
              obtain ⟨block', hb', -, -, more, hmore⟩ := h.block hb
              rw [runEntered_block hf hfirst hb, runEntered_block hf' hfirst' hb', ← hmore]
              exact runBody_persists h hcall _ more _ hcells

theorem tooDeep_persists (h : code.Extends code') (limit : Nat) (callee : FuncId) :
    Hole (tooDeep code limit callee) ∨ tooDeep code' limit callee = tooDeep code limit callee := by
  unfold tooDeep
  cases hf : code.func? callee with
  | none => exact .inl .badHandle
  | some function =>
      obtain ⟨function', hf', hname, -⟩ := h.func hf
      exact .inr (by simp only [hf', hname])

theorem nested_persists (h : code.Extends code') (limit frames : Nat) :
    CallsPersist (nested code limit frames) (nested code' limit frames) := by
  induction frames using frames_induction limit with
  | deep frames hlimit =>
      intro v callee m m' hcells
      rw [nested_of_not_lt hlimit, nested_of_not_lt hlimit]
      rcases tooDeep_persists h limit callee with hhole | hsame
      · exact .inl hhole
      · exact .inr ⟨m', by rw [hsame]; rfl⟩
  | call frames hlimit ih =>
      intro v callee m m' hcells
      rw [nested_of_lt hlimit, nested_of_lt hlimit]
      exact runEntered_persists h ih callee (some v) hcells

theorem callFunction_persists (h : code.Extends code') (limit : Nat) (f : FuncId)
    (hcells : Covers m.state.cells m'.state.cells) :
    Persists (callFunction code limit f m) (callFunction code' limit f m') := by
  rw [callFunction_eq, callFunction_eq]
  exact runEntered_persists h (nested_persists h limit 1) f none hcells

end

theorem run_outcome_eq_of_extends (hsound : code.Sound) (h : code.Extends code') {f : FuncId}
    {function : Func} {name : String} (hfind : code.findFunction? name = some f)
    (hf : code.func? f = some function) (hreturns : function.returns = .number) (limit : Nat)
    {σ : Type} (l l' : Logged σ) :
    (code'.run limit name).outcome l' = (code.run limit name).outcome l := by
  obtain ⟨function', hf', -, hsame, -⟩ := h.func hf
  have hreturns' : function'.returns = .number := hsame.trans hreturns
  have hfind' := h.findFunction? hfind
  have hsettles := callFunction_settles (trapsOnly_of_sound hsound limit) hf
    (m := ⟨l.log.push (.machineReady code.name), blank code⟩) (by simp [blank])
  have hpersists : Persists
      (callFunction code limit f ⟨l.log.push (.machineReady code.name), blank code⟩)
      (callFunction code' limit f ⟨l'.log.push (.machineReady code'.name), blank code'⟩) :=
    callFunction_persists h limit f (covers_blank h)
  cases hcall : callFunction code limit f ⟨l.log.push (.machineReady code.name), blank code⟩ with
  | ok result m =>
      rw [hcall] at hsettles hpersists
      obtain ⟨x, rfl⟩ := hsettles.2 hreturns
      obtain ⟨m', hcall', -⟩ := hpersists
      rw [run_of_ok hfind hf hreturns hcall, run_of_ok hfind' hf' hreturns' hcall']
  | error stop m =>
      rw [hcall] at hsettles hpersists
      obtain ⟨-, t, rfl, callee, rfl⟩ := hsettles
      rcases hpersists with hhole | ⟨m', hcall'⟩
      -- The limit on calls is no hole.
      · cases hhole
      · rw [run_of_error hfind hf hreturns hcall, run_of_error hfind' hf' hreturns' hcall']

end Machine

namespace Compiler

open Niladic.Action

variable {s s' s'' t t' : Logged Compiler}

inductive Reaches (s : Logged Compiler) : Logged Compiler → Prop
  | start : Reaches s s
  | command {t t' : Logged Compiler} (command : Command) (h : Reaches s t)
      (hrun : command.run t = .ok () t') : Reaches s t'
  | move {t : Logged Compiler} (cursor : Option BlockId) (h : Reaches s t) :
      Reaches s { t with state.draft.cursor := cursor }

theorem Reaches.advances (h : Reaches s t) : Advances s t := by
  induction h with
  | start => exact .refl s
  | command command _ hrun ih => exact ih.trans (command.run_advances.of_ok hrun)
  | move cursor _ ih => exact ih.trans (.moved _ cursor)

theorem Reaches.runAll (h : Reaches s t) {commands : List Command}
    (hrun : Command.runAll commands t = .ok () t') : Reaches s t' := by
  induction commands generalizing t with
  | nil =>
      rw [Command.runAll] at hrun
      cases hrun
      exact h
  | cons command rest ih =>
      rw [Command.runAll] at hrun
      obtain ⟨_, t₁, hfirst, hrest⟩ := bind_eq_ok hrun
      exact ih (h.command command hfirst) hrest

theorem generated_program_is_frozen {config : Config} {root : Option Tree} {name : String}
    {depth : Nat} {log : Log} (hbefore : Reaches ⟨log, fresh config root name depth⟩ s)
    (hgenerate : generate s = .ok () s') (hafter : Reaches s' s'') :
    runProgram.outcome s'' = runProgram.outcome s' := by
  have hcoherent := (hbefore.advances (fresh_coherent ..)).coherent
  have hcoherent' := (generate_advances.of_ok hgenerate hcoherent).coherent
  have hlater := hafter.advances hcoherent'
  have hgenerated := generated_of_generate hgenerate
  obtain ⟨hsound, f, function, hfind, hf, hreturns⟩ := generate_sound hcoherent hgenerate
  obtain ⟨l, hrun⟩ := runProgram_outcome hgenerated
  obtain ⟨l', hrun'⟩ := runProgram_outcome (hlater.generated hgenerated)
  rw [hrun, hrun', hlater.config, hlater.depth,
    Machine.run_outcome_eq_of_extends hsound hlater.code hfind hf hreturns _ l l']

-- Calls that would never end are put behind the terminators of the entry block and of a procedure,
-- and a second procedure is added.
theorem extended_program_is_frozen :
    ∃ s' s'', generate ⟨#[], fresh {}
        (some (.program [.procedure "p" (.body [.assign "x" (.number 2.0)]), .call "p"])) "m" 3⟩ =
          .ok () s' ∧
      Command.runAll [.within ⟨1⟩ [.lower (.call "p")] none, .lower (.call "p"), .enter,
        .lower (.procedure "q" (.body [.call "q"])), .within ⟨0⟩ [.lower (.call "q")] none,
        .generate] s' = .ok () s'' ∧
      s'.state.draft.code.values.size < s''.state.draft.code.values.size ∧
      runProgram.outcome s'' = runProgram.outcome s' := by
  have houtcome : Action.outcome (do
      generate
      let old ← code
      Command.runAll [.within ⟨1⟩ [.lower (.call "p")] none, .lower (.call "p"), .enter,
        .lower (.procedure "q" (.body [.call "q"])), .within ⟨0⟩ [.lower (.call "q")] none,
        .generate]
      return decide (old.values.size < (← code).values.size)) ⟨#[], fresh {}
        (some (.program [.procedure "p" (.body [.assign "x" (.number 2.0)]), .call "p"])) "m" 3⟩ =
          .ok true := by
    decide +kernel
  obtain ⟨t, h⟩ := of_outcome_ok houtcome
  obtain ⟨_, s', hgenerate, h⟩ := bind_eq_ok h
  rw [bind_of_ok (code_apply s')] at h
  obtain ⟨_, s'', hafter, h⟩ := bind_eq_ok h
  rw [bind_of_ok (code_apply s'')] at h
  rw [pure_apply] at h
  injection h with hgrown
  exact ⟨s', s'', hgenerate, hafter, of_decide_eq_true hgrown,
    generated_program_is_frozen .start hgenerate (Reaches.start.runAll hafter)⟩

end Compiler

end Niladic
