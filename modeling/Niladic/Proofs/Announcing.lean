import Niladic.CommandLine.Run
import Niladic.Proofs.Traversal

namespace Niladic

open Niladic.Action

def Log.Grows (log log' : Log) : Prop := ∃ added, log' = log ++ added

namespace Log.Grows

variable {log log' log'' : Log}

theorem refl (log : Log) : log.Grows log := ⟨#[], Array.append_empty.symm⟩

theorem trans (h : log.Grows log') (h' : log'.Grows log'') : log.Grows log'' := by
  obtain ⟨added, rfl⟩ := h
  obtain ⟨added', rfl⟩ := h'
  exact ⟨added ++ added', Array.append_assoc⟩

theorem push (log : Log) (event : Event) : log.Grows (log.push event) :=
  ⟨#[event], Array.push_eq_append⟩

end Log.Grows

namespace Logged

variable {σ τ α β : Type}

def Grows (s s' : Logged σ) : Prop := s.log.Grows s'.log

theorem Grows.refl (s : Logged σ) : s.Grows s := Log.Grows.refl s.log

theorem Grows.trans {s s' s'' : Logged σ} (h : s.Grows s') (h' : s'.Grows s'') : s.Grows s'' :=
  Log.Grows.trans h h'

theorem Grows.ends {s s' : Logged σ} (h : s.Grows s') {r : EStateM.Result Stop (Logged σ) α}
    (hr : Ends Grows s' r) : Ends Grows s r := by
  cases r with
  | ok a t => exact h.trans hr
  | error stop t =>
      cases stop with
      | error e => exact h.trans hr
      | badHandle => trivial

theorem bind_grows {x : Action (Logged σ) α} {f : α → Action (Logged σ) β} (hx : Relates Grows x)
    (hf : ∀ a, Relates Grows (f a)) : Relates Grows (x >>= f) :=
  Relates.bind Grows.trans hx hf

theorem emit_grows (event : Event) : Relates Grows (emit event : Action (Logged σ) Unit) :=
  fun s => Log.Grows.push s.log event

theorem reject_grows (event : Event) (e : Error) :
    Relates Grows (reject event e : Action (Logged σ) α) :=
  fun s => Log.Grows.push s.log event

theorem focus_grows {p : Part (Logged σ) (Logged τ)} (hget : ∀ s, (p.get s).log = s.log)
    (hput : ∀ t s, (p.put t s).log = t.log) {x : Action (Logged τ) α} (hx : Relates Grows x) :
    Relates Grows (Action.focus p x) := by
  have hback {s : Logged σ} {t : Logged τ} (h : (p.get s).Grows t) : s.Grows (p.put t s) := by
    unfold Grows at h ⊢
    rwa [hget, ← hput t s] at h
  intro s
  unfold Action.focus
  cases hs : x (p.get s) with
  | ok a t => exact hback (hx.of_ok hs)
  | error stop t =>
      cases stop with
      | error e => exact hback (hx.of_error hs)
      | badHandle => trivial

theorem borrow_grows (start : τ) {x : Action (Logged τ) α} (hx : Relates Grows x) :
    Relates Grows (borrow start x : Action (Logged σ) α) := by
  have hfocus : borrow start x =
      Action.focus ⟨fun s => ⟨s.log, start⟩, fun t (s : Logged σ) => { s with log := t.log }⟩ x := by
    funext s
    unfold borrow Action.focus
    dsimp only
    cases x ⟨s.log, start⟩ <;> rfl
  rw [hfocus]
  exact focus_grows (fun _ => rfl) (fun _ _ => rfl) hx

theorem throw_grows (stop : Stop) : Relates Grows (throw stop : Action (Logged σ) α) := by
  cases stop with
  | error e => exact Relates.fail Grows.refl e
  | badHandle => exact Relates.badHandle

theorem resolve_grows (a : Option α) : Relates Grows (resolve a : Action (Logged σ) α) := by
  cases a with
  | some a => exact Relates.pure Grows.refl a
  | none => exact Relates.badHandle

end Logged

namespace Machine

open Logged

theorem execute_grows (code : Code) (limit : Nat) (stack : Stack) :
    Relates Grows (execute code limit stack) := by
  intro s
  fun_induction execute code limit stack s with
  | case1 stack s stop hstep => exact throw_grows stop s
  | case2 stack s counted stop hstep => exact Grows.ends (Grows.refl s) (throw_grows stop counted)
  | case3 stack s counted result hstep => exact Grows.refl s
  | case4 stack s stack' cells entered hstep log ih =>
      refine Grows.ends ?_ ih
      cases entered with
      | none => exact Log.Grows.refl s.log
      | some name => exact Log.Grows.push s.log _

theorem callFunction_grows (code : Code) (limit : Nat) (f : FuncId) :
    Relates Grows (callFunction code limit f) := by
  unfold callFunction
  split
  next frame name henter => exact bind_grows (emit_grows _) fun _ => execute_grows _ _ _
  next stop henter => exact throw_grows stop

theorem run_grows (entry : String) : Relates Grows (run entry) := by
  unfold run
  refine bind_grows (Relates.get Grows.refl) fun s => ?_
  dsimp only
  split
  next => exact reject_grows _ _
  next f hf =>
    refine bind_grows (resolve_grows _) fun function => ?_
    split
    next => exact Relates.fail Grows.refl _
    next =>
      refine bind_grows (focus_grows (fun _ => rfl) (fun _ _ => rfl) (callFunction_grows _ _ _))
        fun result => bind_grows (Relates.get Grows.refl) fun s =>
          bind_grows (emit_grows _) fun _ => ?_
      split
      next => exact Relates.pure Grows.refl _
      next => exact Relates.fail Grows.refl _

end Machine

theorem Code.run_grows {σ : Type} (code : Code) (limit : Nat) (entry : String) :
    Relates Logged.Grows (code.run limit entry : Action (Logged σ) Float) :=
  Logged.bind_grows (Logged.bind_grows (Logged.emit_grows _) fun _ =>
    Relates.pure Logged.Grows.refl _) fun machine =>
      Logged.borrow_grows machine (Machine.run_grows entry)

namespace Compiler

open Logged

theorem tracks_grows : Tracks (fun _ => True) (fun _ => True) Grows where
  refl := Grows.refl
  trans := Grows.trans
  emitted s event := Log.Grows.push s.log event
  counted s _ := Grows.refl s
  drafted s _ := Grows.refl s
  function _ s _ := Grows.refl s
  blocks s _ := Grows.refl s
  global _ s _ := Grows.refl s

theorem lowerProgram_grows (root : Tree) : Relates Grows (lowerProgram root) := by
  unfold lowerProgram
  split
  · exact Relates.fail Grows.refl _
  · exact bind_grows (tracks_grows.enterEntry fun _ => trivial) fun anchor =>
      tracks_grows.carries.lowerEntered (fun _ => tracks_grows.drafting _) (fun _ _ => trivial) anchor
  · exact Relates.fail Grows.refl _

end Compiler

def Event.cause? : Event → Option Error
  | .sourceRejected e => some (.source e)
  | .noRoot => some (.structural .noRoot)
  | .nothingToRun => some (.structural .notGenerated)
  | .generationFailed e | .exportFailed _ e | .runFailed _ e => some e
  | .unavailable => some (.backend .unavailable)
  | _ => none

theorem Event.level_of_cause? {event : Event} {e : Error} (h : event.cause? = some e) :
    event.level = .error := by
  cases event <;> cases h <;> rfl

def Log.Tells (log : Log) (e : Error) (log' : Log) : Prop :=
  ∃ earlier event, log.Grows earlier ∧ log' = earlier.push event ∧ event.cause? = some e

theorem Log.Grows.tells {log log' log'' : Log} {e : Error} (h : log.Grows log')
    (h' : log'.Tells e log'') : log.Tells e log'' := by
  obtain ⟨earlier, event, hearlier, hlog, hcause⟩ := h'
  exact ⟨earlier, event, h.trans hearlier, hlog, hcause⟩

def Announced {σ α : Type} (log : Log) : EStateM.Result Stop (Logged σ) α → Prop
  | .ok _ s => log.Grows s.log
  | .error (.error e) s => log.Tells e s.log
  | .error .badHandle _ => True

namespace Announced

variable {σ α β : Type}

theorem after {log log' : Log} (h : log.Grows log') {r : EStateM.Result Stop (Logged σ) α}
    (hr : Announced log' r) : Announced log r := by
  cases r with
  | ok a s => exact h.trans hr
  | error stop s =>
      cases stop with
      | error e => exact h.tells hr
      | badHandle => trivial

theorem bind {x : Action (Logged σ) α} {f : α → Action (Logged σ) β} {s : Logged σ}
    (hx : Announced s.log (x s)) (hf : ∀ a s', x s = .ok a s' → Announced s'.log (f a s')) :
    Announced s.log ((x >>= f) s) := by
  cases h : x s with
  | ok a s' =>
      rw [h] at hx
      rw [bind_of_ok h]
      exact (hf a s' h).after hx
  | error stop s' =>
      rw [h] at hx
      rw [bind_of_error h]
      cases stop with
      | error e => exact hx
      | badHandle => trivial

end Announced

def Announces {σ α : Type} (x : Action (Logged σ) α) : Prop := ∀ s, Announced s.log (x s)

namespace Announces

variable {σ α β : Type}

theorem bind {x : Action (Logged σ) α} {f : α → Action (Logged σ) β} (hx : Announces x)
    (hf : ∀ a, Announces (f a)) : Announces (x >>= f) :=
  fun s => (hx s).bind fun a s' _ => hf a s'

theorem pure (a : α) : Announces (Pure.pure a : Action (Logged σ) α) := fun s => .refl s.log

theorem get : Announces (MonadState.get : Action (Logged σ) (Logged σ)) := fun s => .refl s.log

theorem emit (event : Event) : Announces (Logged.emit event : Action (Logged σ) Unit) :=
  fun s => .push s.log event

theorem reject {event : Event} {e : Error} (h : event.cause? = some e) :
    Announces (Logged.reject event e : Action (Logged σ) α) :=
  fun s => ⟨s.log, event, .refl s.log, rfl, h⟩

theorem resolve (a : Option α) : Announces (Action.resolve a : Action (Logged σ) α) := by
  cases a with
  | some a => exact pure a
  | none => exact fun _ => trivial

theorem attempt {x : Action (Logged σ) α} (hx : Relates Logged.Grows x) :
    Announces (Action.attempt x) := by
  intro s
  unfold Action.attempt
  cases h : x s with
  | ok a s' => exact hx.of_ok h
  | error stop s' =>
      cases stop with
      | error e => exact hx.of_error h
      | badHandle => trivial

end Announces

theorem Source.parseTokens_announces {σ : Type} (tokens : List Placed) :
    Announces (parseTokens tokens : Action (Logged σ) Tree) := by
  unfold parseTokens
  split
  next => exact .bind (.emit _) fun _ => .pure _
  next => exact .reject rfl

namespace Compiler

theorem generateFrom_announces (root : Tree) : Announces (generateFrom root) := by
  unfold generateFrom
  refine .bind (fun s => .refl s.log) fun _ =>
    .bind (.attempt (lowerProgram_grows root)) fun result => .bind (fun s => .refl s.log) fun _ => ?_
  split
  next => exact .bind (fun s => .refl s.log) fun _ => .bind .get fun _ => .emit _
  next => exact .reject rfl

theorem generate_announced {s : Logged Compiler} (h : s.state.generated = false) :
    Announced s.log (generate s) := by
  unfold generate
  refine .bind (.refl s.log) fun c s' hget => ?_
  cases hget
  refine .bind (.push s.log _) fun _ s' hemit => ?_
  rw [if_neg (by rw [h]; exact Bool.false_ne_true)]
  cases s.state.root with
  | none => exact Announces.reject rfl s'
  | some root => exact generateFrom_announces root s'

theorem runProgram_announces : Announces runProgram := by
  unfold runProgram
  refine .bind .get fun s => ?_
  dsimp only
  split
  next =>
    refine .bind (.emit _) fun _ => .bind (.attempt (Code.run_grows _ _ _)) fun result => ?_
    split
    next => exact .bind (.emit _) fun _ => .pure _
    next => exact .reject rfl
  next => exact .reject rfl

theorem noteExport_announces (path : String) (written : Except FileFault Unit) :
    Announces (noteExport path written) := by
  cases written with
  | ok _ => exact .emit _
  | error fault => exact .reject rfl

theorem listing_announces : Announces listing :=
  .bind (.bind .get fun _ => .pure _) fun _ => .resolve _

theorem printedListing_announces : Announces printedListing := by
  unfold printedListing
  refine .bind (.bind .get fun _ => .pure _) fun code => ?_
  split
  next => exact .bind (.emit _) fun _ => listing_announces
  next => exact listing_announces

theorem logLines_eq (lines : List String) (s : Logged Compiler) :
    ∃ log, logLines lines s = .ok () ⟨log, s.state⟩ ∧ s.log.Grows log := by
  induction lines generalizing s with
  | nil => exact ⟨s.log, rfl, .refl s.log⟩
  | cons line rest ih =>
      obtain ⟨log, hlines, hgrows⟩ := ih ⟨s.log.push (.outlineLine line), s.state⟩
      exact ⟨log, hlines, (Log.Grows.push s.log _).trans hgrows⟩

theorem logOutline_eq {s : Logged Compiler} {root : Tree} (h : s.state.root = some root) :
    ∃ log, logOutline s = .ok () ⟨log, s.state⟩ ∧ s.log.Grows log := by
  have houtline : outline s = .ok (root.outline 0) s := by
    unfold outline
    rw [bind_of_ok (get_apply s), h]
    rfl
  unfold logOutline
  rw [bind_of_ok houtline]
  exact logLines_eq _ s

end Compiler

namespace Report

def Announced (log : Log) (report : Report) : Prop :=
  ∀ e, report.result = .error (.error e) → log.Tells e report.log

theorem announced_of_error {σ α : Type} {log : Log} {stop : Stop} {s : Logged σ} {output : String}
    (h : Niladic.Announced log (.error stop s : EStateM.Result Stop (Logged σ) α)) :
    Announced log ⟨.error stop, output, s.log⟩ := by
  intro e he
  cases he
  exact h

theorem announced_ofResult {log : Log} {r : EStateM.Result Stop (Logged Compiler) Int}
    (h : Niladic.Announced log r) (output : String) : Announced log (ofResult output r) := by
  cases r with
  | ok x s => nofun
  | error stop s => exact announced_of_error h

theorem Announced.after {log log' : Log} {report : Report} (hr : Announced log' report)
    (h : log.Grows log') : Announced log report :=
  fun e he => h.tells (hr e he)

end Report

namespace CommandLine

theorem start_announced (options : Options) {source : String} {tokens : List Placed}
    (h : Token.ofText source = .ok tokens) (log : Log) :
    Announced log (start options source ⟨log, ()⟩) := by
  have htokenize : Source.tokenize source (⟨log, ()⟩ : Logged Unit) =
      .ok tokens ⟨log.push (.tokenized tokens.length), ()⟩ := by
    unfold Source.tokenize
    rw [h]
    rfl
  have hparse : Announced log (Source.parse source (⟨log, ()⟩ : Logged Unit)) := by
    unfold Source.parse
    rw [bind_of_ok htokenize]
    exact (Source.parseTokens_announces tokens _).after (.push log _)
  unfold start
  refine .bind hparse fun tree s _ => ?_
  cases options.engine with
  | interpreter => exact .refl s.log
  | native => exact Announces.reject rfl s

theorem start_ok {options : Options} {source : String} {s s' : Logged Unit} {c : Compiler}
    (h : start options source s = .ok c s') : ∃ tree, c = Compiler.ofConfig {} (some tree) := by
  obtain ⟨tree, s₁, -, h⟩ := bind_eq_ok h
  cases hengine : options.engine with
  | interpreter =>
      rw [hengine] at h
      cases h
      exact ⟨tree, rfl⟩
  | native =>
      rw [hengine] at h
      cases h

theorem build_announced (options : Options) (log : Log) (tree : Tree) :
    Announced log (build options ⟨log, Compiler.ofConfig {} (some tree)⟩) := by
  have hcompiled (log' : Log) : Announced log' ((do
      Compiler.generate
      if options.dumpCode then Compiler.printedListing else return "" : Compile String)
        ⟨log', Compiler.ofConfig {} (some tree)⟩) := by
    refine .bind (Compiler.generate_announced rfl) fun _ s _ => ?_
    cases options.dumpCode with
    | true => exact Compiler.printedListing_announces s
    | false => exact .refl s.log
  unfold build
  cases options.dumpTree with
  | true =>
      obtain ⟨log', houtline, hgrows⟩ :=
        Compiler.logOutline_eq (s := ⟨log, Compiler.ofConfig {} (some tree)⟩) rfl
      exact (congrArg (Announced log) (bind_of_ok houtline)).mpr ((hcompiled log').after hgrows)
  | false => exact hcompiled log

theorem emitAndRun_announced {ω : Type} (host : Host (StateM ω)) (options : Options)
    (output : String) (s : Logged Compiler) (world : ω) :
    Report.Announced s.log (emitAndRun host options output s world).1 := by
  unfold emitAndRun
  cases options.emit with
  | none => exact Report.announced_ofResult (Compiler.runProgram_announces s) output
  | some path =>
      have hlisting := Compiler.listing_announces s
      cases htext : Compiler.listing s with
      | error stop s' =>
          rw [htext] at hlisting
          exact Report.announced_of_error hlisting
      | ok text s' =>
          rw [htext] at hlisting
          have hfinish : Announces (do
              Compiler.noteExport path (host.writeFile path text world).1
              Compiler.runProgram) :=
            .bind (Compiler.noteExport_announces _ _) fun _ => Compiler.runProgram_announces
          exact Report.announced_ofResult ((hfinish s').after hlisting) output

theorem runSource_announced {ω : Type} (host : Host (StateM ω)) (options : Options)
    {source : String} {tokens : List Placed} (h : Token.ofText source = .ok tokens) (log : Log)
    (world : ω) : Report.Announced log (runSource host options source log world).1 := by
  have hstart := start_announced options h log
  unfold runSource
  cases hcompiler : start options source ⟨log, ()⟩ with
  | error stop s =>
      rw [hcompiler] at hstart
      exact Report.announced_of_error hstart
  | ok c s =>
      rw [hcompiler] at hstart
      obtain ⟨tree, rfl⟩ := start_ok hcompiler
      have hbuild := (build_announced options s.log tree).after hstart
      dsimp only
      cases houtput : build options ⟨s.log, Compiler.ofConfig {} (some tree)⟩ with
      | error stop s' =>
          rw [houtput] at hbuild
          exact Report.announced_of_error hbuild
      | ok output s' =>
          rw [houtput] at hbuild
          exact (emitAndRun_announced host options output s' world).after hbuild

theorem runSource_untokenized {ω : Type} (host : Host (StateM ω)) (options : Options)
    {source : String} {e : SourceError} (h : Token.ofText source = .error e) (log : Log) (world : ω) :
    (runSource host options source log world).1 = ⟨.error (.error (.source e)), "", log⟩ := by
  have htokenize : Source.tokenize source (⟨log, ()⟩ : Logged Unit) =
      .error (.error (.source e)) ⟨log, ()⟩ := by
    unfold Source.tokenize
    rw [h]
    rfl
  have hstart : start options source ⟨log, ()⟩ = .error (.error (.source e)) ⟨log, ()⟩ :=
    bind_of_error (bind_of_error htokenize)
  unfold runSource
  rw [hstart]
  rfl

/-- A run that fails leaves the record of its error at the end of the log, unless the text cannot be
cut into tokens: then nothing is logged at all. -/
theorem runSource_announces_unless_untokenized {ω : Type} (host : Host (StateM ω))
    (options : Options) (source : String) (log : Log) (world : ω) :
    (∀ e, Token.ofText source = .error e →
      (runSource host options source log world).1 = ⟨.error (.error (.source e)), "", log⟩) ∧
    ∀ tokens e, Token.ofText source = .ok tokens →
      (runSource host options source log world).1.result = .error (.error e) →
      ∃ added event, (runSource host options source log world).1.log = (log ++ added).push event ∧
        event.level = .error ∧ event.cause? = some e := by
  refine ⟨fun e h => runSource_untokenized host options h log world, fun tokens e h he => ?_⟩
  obtain ⟨earlier, event, ⟨added, rfl⟩, hlog, hcause⟩ :=
    runSource_announced host options h log world e he
  exact ⟨added, event, hlog, Event.level_of_cause? hcause, hcause⟩

theorem stray_character_unannounced :
    (runSource (Folder.host .empty) {} "$" #[] {}).1 =
      ⟨.error (.error (.source ⟨⟨1, 1⟩, .strayCharacter '$'⟩)), "", #[]⟩ :=
  runSource_untokenized _ _ (by decide +kernel) _ _

theorem unknown_callee_announced :
    ∃ added event, (runSource (Folder.host .empty) {} "p" #[] {}).1.log = (#[] ++ added).push event ∧
      event.level = .error ∧ event.cause? = some (.notFound .function "p") :=
  (runSource_announces_unless_untokenized (Folder.host .empty) {} "p" #[] {}).2
    [⟨.name "p", ⟨1, 1⟩⟩, ⟨.stop, ⟨1, 2⟩⟩] _ (by decide +kernel) (by decide +kernel)

end CommandLine

end Niladic
