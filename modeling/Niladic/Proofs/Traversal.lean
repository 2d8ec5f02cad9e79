import Niladic.Proofs.Operations
import Niladic.Proofs.Shape

namespace Niladic.Compiler

open Niladic.Action

inductive Drafts : {α : Type} → Action Draft α → Prop
  | const (x : Float) : Drafts (Draft.const x)
  | arith (op : Operator) (left right : ValueId) : Drafts (Draft.arith op left right)
  | anchor : Drafts (Draft.slot "anchor")
  | store (value pointer : ValueId) : Drafts (Draft.store value pointer)
  | call (f : FuncId) : Drafts (Draft.call f)
  | pointer (g : GlobalId) : Drafts (Draft.pointer g)
  | retVoid : Drafts Draft.retVoid

theorem Drafts.emits {α : Type} {x : Action Draft α} (h : Drafts x) : Relates Draft.Emits x := by
  cases h with
  | const x => exact Draft.const_emits x
  | arith op left right => exact Draft.arith_emits op left right
  | anchor => exact Draft.slot_emits _
  | store value pointer => exact Draft.store_emits value pointer
  | call f => exact Draft.call_emits f
  | pointer g => exact Draft.pointer_emits g
  | retVoid => exact Draft.retVoid_emits

section

variable {R : Logged Compiler → Logged Compiler → Prop} (hrefl : ∀ s, R s s)
  (hemitted : ∀ (s : Logged Compiler) (event : Event), R s { s with log := s.log.push event })

include hemitted in
theorem reject_relates {α : Type} (event : Event) (e : Error) :
    Relates R (Logged.reject event e : Compile α) :=
  fun s => hemitted s event

include hrefl hemitted

theorem expectOperand_relates (op : Operator) (lowered : Lowered) :
    Relates R (expectOperand op lowered) := by
  cases lowered with
  | value v => exact Relates.pure hrefl v
  | _ => exact reject_relates hemitted _ _

theorem expectAssigned_relates (name : String) (lowered : Lowered) :
    Relates R (expectAssigned name lowered) := by
  cases lowered with
  | value v => exact Relates.pure hrefl v
  | _ => exact reject_relates hemitted _ _

theorem expectBody_relates (procedure : String) (inner : Tree) :
    Relates R (expectBody procedure inner) := by
  unfold expectBody
  split
  · exact Relates.pure hrefl ()
  · exact reject_relates hemitted _ _

theorem verify_relates (code : Code) : Relates R (code.verify : Compile Unit) := by
  unfold Code.verify
  split
  · exact Relates.pure hrefl ()
  · exact reject_relates hemitted _ _
  · exact Relates.badHandle

end

/-- A relation that holds around everything that lowering does, where `P` holds of the procedures
that are declared and `Q` of the names that are assigned to. -/
structure Carries (P Q : String → Prop) (R : Logged Compiler → Logged Compiler → Prop) : Prop where
  refl : ∀ s, R s s
  trans : ∀ {s s' s''}, R s s' → R s' s'' → R s s''
  emitted : ∀ (s : Logged Compiler) (event : Event), R s { s with log := s.log.push event }
  counted : ∀ (s : Logged Compiler) (statistics : Statistics),
    R s { s with state.statistics := statistics }
  drafts : ∀ {α : Type} {x : Action Draft α}, Drafts x → Relates R (drafting x)
  global : ∀ {n}, Q n → Relates R (globalNamed n)
  procedure : ∀ {n : String} {x : Compile Unit} {y : FuncId → Compile Lowered}, P n →
    Relates R x → (∀ f, Relates R (y f)) →
      Relates R (declareProcedure n >>= fun d => within d.2 x >>= fun _ => y d.1)

namespace Carries

variable {P Q : String → Prop} {R : Logged Compiler → Logged Compiler → Prop} {α β : Type}

theorem pure (h : Carries P Q R) (a : α) : Relates R (Pure.pure a : Compile α) :=
  Relates.pure h.refl a

theorem bind (h : Carries P Q R) {x : Compile α} {f : α → Compile β} (hx : Relates R x)
    (hf : ∀ a, Relates R (f a)) : Relates R (x >>= f) :=
  Relates.bind h.trans hx hf

theorem emit (h : Carries P Q R) (e : Event) : Relates R (Logged.emit e : Compile Unit) :=
  fun s => h.emitted s e

theorem reject (h : Carries P Q R) (event : Event) (e : Error) :
    Relates R (Logged.reject event e : Compile α) :=
  reject_relates h.emitted event e

theorem count (h : Carries P Q R) (f : Statistics → Statistics) : Relates R (count f) :=
  fun s => h.counted s _

theorem noteCall (h : Carries P Q R) (name : String) :
    Relates R (counting (Statistics.noteCall name)) :=
  fun s => h.trans (h.counted s _) (h.emitted _ (.callRecorded name))

theorem code (h : Carries P Q R) : Relates R code := fun s => h.refl s

theorem announce (h : Carries P Q R) (t : Tree) {x : Compile α} (hx : Relates R x) :
    Relates R (do
      Compiler.count (·.addNode t.kind)
      Logged.emit (.lowering t.kind)
      x) :=
  h.bind (h.count _) fun _ => h.bind (h.emit _) fun _ => hx

theorem expectOperand (h : Carries P Q R) (op : Operator) (lowered : Lowered) :
    Relates R (expectOperand op lowered) :=
  expectOperand_relates h.refl h.emitted op lowered

theorem expectAssigned (h : Carries P Q R) (name : String) (lowered : Lowered) :
    Relates R (expectAssigned name lowered) :=
  expectAssigned_relates h.refl h.emitted name lowered

theorem expectBody (h : Carries P Q R) (procedure : String) (inner : Tree) :
    Relates R (expectBody procedure inner) :=
  expectBody_relates h.refl h.emitted procedure inner

theorem anchorItem (h : Carries P Q R) (anchor : ValueId) (item : Tree) (lowered : Lowered) :
    Relates R (anchorItem anchor item lowered) := by
  unfold Compiler.anchorItem
  split
  · exact h.bind (h.drafts (.store _ _)) fun _ => h.count _
  · exact h.pure ()

theorem lowerCall (h : Carries P Q R) (name : String) : Relates R (lowerCall name) := by
  refine h.bind h.code fun code => ?_
  cases code.findFunction? name with
  | none => exact h.reject _ _
  | some f =>
      exact h.bind (h.drafts (.call f)) fun v =>
        h.bind (h.noteCall name) fun _ => h.pure _

mutual

theorem lower (h : Carries P Q R) : ∀ t : Tree, (∀ d ∈ t.definitions, P d.1) →
    (∀ n ∈ t.assigned, Q n) → Relates R (lower t)
  | .number x, _, _ => by
      rw [Compiler.lower]
      exact h.announce _ (h.bind (h.drafts (.const x)) fun v => h.pure _)
  | .binary op left right, hdefs, hassigned => by
      rw [Tree.definitions] at hdefs
      rw [Tree.assigned] at hassigned
      obtain ⟨hdefs₁, hdefs₂⟩ := List.forall_mem_append.mp hdefs
      obtain ⟨hassigned₁, hassigned₂⟩ := List.forall_mem_append.mp hassigned
      rw [Compiler.lower]
      refine h.announce _ (h.bind (lower h left hdefs₁ hassigned₁) fun l =>
        h.bind (h.expectOperand op l) fun x => h.bind (lower h right hdefs₂ hassigned₂) fun r =>
          h.bind (h.expectOperand op r) fun y => ?_)
      exact h.bind (h.drafts (.arith op x y)) fun v => h.pure _
  | .assign name value, hdefs, hassigned => by
      rw [Tree.definitions] at hdefs
      rw [Tree.assigned] at hassigned
      obtain ⟨hname, hvalue⟩ := List.forall_mem_cons.mp hassigned
      rw [Compiler.lower]
      refine h.announce _ (h.bind (h.global hname) fun g =>
        h.bind (lower h value hdefs hvalue) fun l => h.bind (h.expectAssigned name l) fun x => ?_)
      exact h.bind (h.drafts (.pointer g)) fun pointer =>
        h.bind (h.drafts (.store x pointer)) fun _ => h.pure _
  | .body items, hdefs, hassigned => by
      rw [Tree.definitions] at hdefs
      rw [Tree.assigned] at hassigned
      rw [Compiler.lower]
      exact h.announce _ (h.bind (h.drafts .anchor) fun anchor =>
        h.bind (lowerItems h anchor none items hdefs hassigned).discard fun _ => h.pure _)
  | .procedure name inner, hdefs, hassigned => by
      rw [Tree.definitions] at hdefs
      rw [Tree.assigned] at hassigned
      obtain ⟨hname, hinner⟩ := List.forall_mem_cons.mp hdefs
      rw [Compiler.lower]
      have hbody : Relates R (do
          Compiler.expectBody name inner
          discard (Compiler.lower inner)
          drafting Draft.retVoid) :=
        h.bind (h.expectBody name inner) fun _ =>
          h.bind (lower h inner hinner hassigned).discard fun _ => h.drafts .retVoid
      have hcounted (f : FuncId) : Relates R (do
          Compiler.count Statistics.addProcedure
          return .function f : Compile Lowered) :=
        h.bind (h.count _) fun _ => h.pure _
      exact h.announce _ (h.procedure hname hbody hcounted)
  | .call name, _, _ => by
      rw [Compiler.lower]
      exact h.announce _ (h.lowerCall name)
  | .program items, _, _ => by
      rw [Compiler.lower]
      exact h.announce _ (h.reject _ _)

theorem lowerItems (h : Carries P Q R) (anchor : ValueId) : ∀ (last : Option Lowered)
    (items : List Tree), (∀ d ∈ Tree.definitionsAll items, P d.1) →
      (∀ n ∈ Tree.assignedAll items, Q n) → Relates R (lowerItems anchor last items)
  | last, [], _, _ => by
      rw [Compiler.lowerItems]
      exact h.pure last
  | last, item :: rest, hdefs, hassigned => by
      rw [Tree.definitionsAll] at hdefs
      rw [Tree.assignedAll] at hassigned
      obtain ⟨hdefs₁, hdefs₂⟩ := List.forall_mem_append.mp hdefs
      obtain ⟨hassigned₁, hassigned₂⟩ := List.forall_mem_append.mp hassigned
      rw [Compiler.lowerItems]
      exact h.bind (lower h item hdefs₁ hassigned₁) fun l =>
        h.bind (h.anchorItem anchor item l) fun _ =>
          lowerItems h anchor (some l) rest hdefs₂ hassigned₂

end

theorem verify (h : Carries P Q R) (code : Code) : Relates R (code.verify : Compile Unit) :=
  verify_relates h.refl h.emitted code

end Carries

structure Tracks (P Q : String → Prop) (R : Logged Compiler → Logged Compiler → Prop) : Prop where
  refl : ∀ s, R s s
  trans : ∀ {s s' s''}, R s s' → R s' s'' → R s s''
  emitted : ∀ (s : Logged Compiler) (event : Event), R s { s with log := s.log.push event }
  counted : ∀ (s : Logged Compiler) (statistics : Statistics),
    R s { s with state.statistics := statistics }
  drafted : ∀ (s : Logged Compiler) (draft : Draft), R s { s with state.draft := draft }
  function : ∀ {n}, P n → ∀ (s : Logged Compiler) (f : FuncId),
    R s { s with state.functions := s.state.functions.insert n f }
  blocks : ∀ (s : Logged Compiler) (blocks : Scopes BlockId), R s { s with state.blocks := blocks }
  global : ∀ {n}, Q n → ∀ (s : Logged Compiler) (g : GlobalId),
    R s { s with state.globals := s.state.globals.insert n g }

namespace Tracks

variable {P Q : String → Prop} {R : Logged Compiler → Logged Compiler → Prop} {α : Type} {n : String}

theorem drafting (h : Tracks P Q R) (x : Action Draft α) : Relates R (drafting x) :=
  drafting_relates (.any x) fun _ => h.drafted _ _

theorem globalNamed (h : Tracks P Q R) (hn : Q n) : Relates R (globalNamed n) := by
  refine Registry.findOrCreate_relates h.refl h.trans
    (Registry.create_relates h.refl h.trans h.emitted (h.global hn) ?_)
  exact Relates.bind h.trans (h.drafting _) fun g =>
    Relates.bind h.trans (fun s => h.counted s _) fun _ => Relates.pure h.refl g

theorem declareProcedure (h : Tracks P Q R) (hn : P n) : Relates R (declareProcedure n) := by
  refine Relates.bind h.trans (fun s => h.emitted s _) fun _ =>
    Relates.bind h.trans ?_ fun f => Relates.bind h.trans ?_ fun b => Relates.pure h.refl _
  · exact Registry.create_relates h.refl h.trans h.emitted (h.function hn) (h.drafting _)
  · exact Relates.bind h.trans (fun s => h.blocks s _) fun _ =>
      Registry.create_relates h.refl h.trans h.emitted (fun s _ => h.blocks s _) (h.drafting _)

theorem within (h : Tracks P Q R) (b : BlockId) {x : Compile α} (hx : Relates R x) :
    Relates R (within b x) :=
  Relates.bind h.trans (fun s => h.refl s) fun _ =>
    Relates.bind h.trans (h.drafting _) fun _ => Relates.bind h.trans hx.attempt fun _ =>
      Relates.bind h.trans (h.drafting _) fun _ => Relates.ofExcept h.refl _

theorem carries (h : Tracks P Q R) : Carries P Q R where
  refl := h.refl
  trans := h.trans
  emitted := h.emitted
  counted := h.counted
  drafts _ := h.drafting _
  global hn := h.globalNamed hn
  procedure hn hx hy := Relates.bind h.trans (h.declareProcedure hn) fun d =>
    Relates.bind h.trans (h.within d.2 hx) fun _ => hy d.1

theorem enterEntry (h : Tracks P Q R) (hP : ∀ n, P n) : Relates R enterEntry := by
  unfold Compiler.enterEntry
  refine Relates.bind h.trans (Relates.get h.refl) fun s => Relates.bind h.trans ?_ fun f =>
    Relates.bind h.trans ?_ fun b => Relates.bind h.trans (h.drafting _) fun _ => h.drafting _
  · exact Registry.findOrCreate_relates h.refl h.trans
      (Registry.create_relates h.refl h.trans h.emitted (h.function (hP _)) (h.drafting _))
  · exact Relates.bind h.trans (fun s => h.blocks s _) fun _ =>
      Registry.findOrCreate_relates h.refl h.trans
        (Registry.create_relates h.refl h.trans h.emitted (fun s _ => h.blocks s _) (h.drafting _))

end Tracks

def lowerEntered (items : List Tree) (anchor : ValueId) : Compile Unit := do
  let last ← lowerItems anchor none items
  let result := (← get).state.config.result
  let g ← globalNamed result
  let pointer ← drafting (Draft.pointer g)
  let value ← drafting (Draft.load pointer (result ++ ".load"))
  if last.all Lowered.isVoid then Action.fail (.structural .voidResult)
  else
    drafting (Draft.ret value)
    (← code).verify

theorem lowerProgramItems_eq (items : List Tree) :
    lowerProgramItems items = enterEntry >>= lowerEntered items := rfl

theorem Carries.lowerEntered {P : String → Prop} {R : Logged Compiler → Logged Compiler → Prop}
    (h : Carries P (fun _ => True) R)
    (hemits : ∀ {α : Type} {x : Action Draft α}, Relates Draft.Emits x → Relates R (drafting x))
    {items : List Tree} (hdefs : ∀ d ∈ Tree.definitionsAll items, P d.1) (anchor : ValueId) :
    Relates R (lowerEntered items anchor) := by
  unfold Compiler.lowerEntered
  refine h.bind (h.lowerItems anchor none items hdefs fun _ _ => trivial) fun last =>
    h.bind (Relates.get h.refl) fun s => h.bind (h.global trivial) fun g =>
      h.bind (h.drafts (.pointer g)) fun pointer =>
        h.bind (hemits (Draft.load_emits pointer _)) fun value => ?_
  split
  · exact Relates.fail h.refl _
  · exact h.bind (hemits (Draft.ret_emits value)) fun _ => h.bind h.code fun code => h.verify code

end Niladic.Compiler
