import Niladic.Proofs.Accounting

namespace Niladic

namespace Tree

mutual

def kinds : Tree → List Kind
  | .number _ => [.number]
  | .binary _ left right => .binary :: (left.kinds ++ right.kinds)
  | .assign _ value => .assign :: value.kinds
  | .body items => .body :: kindsAll items
  | .procedure _ inner => .procedure :: inner.kinds
  | .call _ => [.call]
  | .program items => .program :: kindsAll items

def kindsAll : List Tree → List Kind
  | [] => []
  | item :: rest => item.kinds ++ kindsAll rest

end

mutual

def anchored : Tree → Nat
  | .number _ => 0
  | .binary _ left right => left.anchored + right.anchored
  | .assign _ value => value.anchored
  | .body items => anchoredAll items
  | .procedure _ inner => inner.anchored
  | .call _ => 0
  | .program items => anchoredAll items

def anchoredAll : List Tree → Nat
  | [] => 0
  | item :: rest => (if item.isNumeric then 1 else 0) + item.anchored + anchoredAll rest

end

end Tree

namespace Compiler

open Niladic.Action

variable {α : Type} {n : String} {s s' s'' : Logged Compiler}

structure Gains (s s' : Logged Compiler) (kinds : List Kind) (functions procedures anchors : Nat) :
    Prop where
  kinds : ∀ k, s'.state.statistics.kinds.count k = s.state.statistics.kinds.count k + kinds.count k
  functions :
    s'.state.draft.code.functions.size = s.state.draft.code.functions.size + functions
  procedures : s'.state.statistics.procedures = s.state.statistics.procedures + procedures
  anchors : s'.state.statistics.anchors = s.state.statistics.anchors + anchors

namespace Gains

theorem refl (s : Logged Compiler) : Gains s s [] 0 0 0 := ⟨fun _ => rfl, rfl, rfl, rfl⟩

theorem trans {kinds kinds' : List Kind} {f p a f' p' a' : Nat} (h : Gains s s' kinds f p a)
    (h' : Gains s' s'' kinds' f' p' a') :
    Gains s s'' (kinds ++ kinds') (f + f') (p + p') (a + a') where
  kinds k := by rw [h'.kinds, h.kinds, List.count_append, Nat.add_assoc]
  functions := by rw [h'.functions, h.functions, Nat.add_assoc]
  procedures := by rw [h'.procedures, h.procedures, Nat.add_assoc]
  anchors := by rw [h'.anchors, h.anchors, Nat.add_assoc]

end Gains

theorem announced_coherent (h : s.state.Coherent) (t : Tree) : (announced t s).state.Coherent :=
  h.of_same rfl rfl rfl rfl rfl

theorem announced_gains (t : Tree) (s : Logged Compiler) :
    Gains s (announced t s) [t.kind] 0 0 0 where
  kinds k := by
    refine (Tally.count_add s.state.statistics.kinds t.kind k).trans (congrArg _ ?_)
    by_cases hk : k = t.kind
    · simp [hk]
    · rw [if_neg hk, List.count_eq_zero_of_not_mem (by simpa using hk)]
  functions := rfl
  procedures := rfl
  anchors := rfl

theorem drafting_gains {x : Action Draft α} {a : α} (hx : Relates Draft.Emits x)
    (h : drafting x s = .ok a s') : Gains s s' [] 0 0 0 := by
  obtain ⟨d, hd, rfl⟩ := drafting_eq_ok h
  exact ⟨fun _ => rfl, congrArg Array.size (hx.of_ok hd).functions, rfl, rfl⟩

theorem globalNamed_gains {g : GlobalId} (hc : s.state.Coherent) (h : globalNamed n s = .ok g s') :
    Gains s s' [] 0 0 0 := by
  rcases globalNamed_cases hc n with ⟨g', heq⟩ | ⟨e, heq⟩ | ⟨-, -, log, heq⟩
  · cases heq.symm.trans h
    exact .refl s
  · cases heq.symm.trans h
  · cases heq.symm.trans h
    exact ⟨fun _ => rfl, rfl, rfl, rfl⟩

theorem withProcedure_gains (log : Log) (n : String) (returns : Returns) :
    Gains s ⟨log, s.state.withProcedure n returns⟩ [] 1 0 0 where
  kinds _ := rfl
  functions := by simp [withProcedure, Code.withProcedure, Code.withBlock, Code.withFunction]
  procedures := rfl
  anchors := rfl

theorem declareProcedure_gains {d : FuncId × BlockId} (hc : s.state.Coherent)
    (h : declareProcedure n s = .ok d s') : Gains s s' [] 1 0 0 := by
  rcases declareProcedure_cases hc n with ⟨e, log, heq⟩ | ⟨-, -, log, heq⟩
  · cases heq.symm.trans h
  · cases heq.symm.trans h
    exact withProcedure_gains log n .void

theorem openEntry_gains {b : BlockId} (hc : s.state.Coherent)
    (hf : s.state.functions.get? s.state.config.entry = none) (h : openEntry s = .ok b s') :
    Gains s s' [] 1 0 0 := by
  rcases openEntry_cases hc with ⟨f, hknown, -⟩ | ⟨e, heq⟩ | ⟨-, -, log, heq⟩
  · cases hf.symm.trans hknown
  · cases heq.symm.trans h
  · cases heq.symm.trans h
    exact withProcedure_gains log _ .number

theorem enterEntry_gains {anchor : ValueId} (hc : s.state.Coherent)
    (hf : s.state.functions.get? s.state.config.entry = none)
    (h : enterEntry s = .ok anchor s') : Gains s s' [] 1 0 0 := by
  rw [enterEntry_eq] at h
  obtain ⟨b, s₁, hopen, h⟩ := bind_eq_ok h
  obtain ⟨_, s₂, hposition, hslot⟩ := bind_eq_ok h
  have hmoved : Gains s₁ s₂ [] 0 0 0 := by
    cases hposition
    exact ⟨fun _ => rfl, rfl, rfl, rfl⟩
  exact ((openEntry_gains hc hf hopen).trans hmoved).trans
    (drafting_gains (Draft.slot_emits _) hslot)

theorem lowerCall_gains {l : Lowered} (h : lowerCall n s = .ok l s') : Gains s s' [] 0 0 0 := by
  unfold lowerCall at h
  rw [bind_of_ok (code_apply s)] at h
  cases hfind : s.state.draft.code.findFunction? n with
  | none =>
      rw [hfind] at h
      cases h
  | some f =>
      rw [hfind] at h
      obtain ⟨v, s₁, hcall, h⟩ := bind_eq_ok h
      cases h
      have hgains := drafting_gains (Draft.call_emits f) hcall
      exact ⟨hgains.kinds, hgains.functions, hgains.procedures, hgains.anchors⟩

theorem expectOperand_ok {op : Operator} {l : Lowered} {x : ValueId}
    (h : expectOperand op l s = .ok x s') : s' = s := by
  cases l with
  | value v =>
      cases h
      rfl
  | _ => cases h

theorem expectAssigned_ok {l : Lowered} {x : ValueId} (h : expectAssigned n l s = .ok x s') :
    s' = s := by
  cases l with
  | value v =>
      cases h
      rfl
  | _ => cases h

theorem expectBody_ok {inner : Tree} (h : expectBody n inner s = .ok () s') : s' = s := by
  unfold expectBody at h
  split at h
  · cases h
    rfl
  · cases h

theorem lower_value {t : Tree} {l : Lowered} (hnumeric : t.isNumeric = true)
    (h : lower t s = .ok l s') : ∃ v, l = .value v := by
  cases t with
  | number x =>
      rw [lower_number] at h
      obtain ⟨v, s₁, -, h⟩ := bind_eq_ok h
      cases h
      exact ⟨v, rfl⟩
  | binary op left right =>
      rw [lower_binary] at h
      obtain ⟨l₁, s₁, -, h⟩ := bind_eq_ok h
      obtain ⟨x, s₂, -, h⟩ := bind_eq_ok h
      obtain ⟨l₂, s₃, -, h⟩ := bind_eq_ok h
      obtain ⟨y, s₄, -, h⟩ := bind_eq_ok h
      obtain ⟨v, s₅, -, h⟩ := bind_eq_ok h
      cases h
      exact ⟨v, rfl⟩
  | _ => cases hnumeric

theorem anchorItem_gains {anchor : ValueId} {item : Tree} {l : Lowered}
    (hvalue : item.isNumeric = true → ∃ v, l = .value v)
    (h : anchorItem anchor item l s = .ok () s') :
    Gains s s' [] 0 0 (if item.isNumeric then 1 else 0) := by
  cases hnumeric : item.isNumeric with
  | false =>
      cases (anchorItem_other hnumeric s).symm.trans h
      exact .refl s
  | true =>
      obtain ⟨v, rfl⟩ := hvalue hnumeric
      unfold anchorItem at h
      rw [hnumeric] at h
      obtain ⟨_, s₁, hstore, h⟩ := bind_eq_ok h
      cases h
      have hgains := drafting_gains (Draft.store_emits v anchor) hstore
      exact ⟨hgains.kinds, hgains.functions, hgains.procedures, congrArg (· + 1) hgains.anchors⟩

def Counted (t : Tree) : Prop := ∀ {s s' : Logged Compiler} {l : Lowered}, s.state.Coherent →
  lower t s = .ok l s' →
    Gains s s' t.kinds (t.kinds.count .procedure) (t.kinds.count .procedure) t.anchored

def CountedAll (items : List Tree) : Prop := ∀ {anchor : ValueId} {last result : Option Lowered}
  {s s' : Logged Compiler}, s.state.Coherent → lowerItems anchor last items s = .ok result s' →
    Gains s s' (Tree.kindsAll items) ((Tree.kindsAll items).count .procedure)
      ((Tree.kindsAll items).count .procedure) (Tree.anchoredAll items)

theorem number_counted (x : Float) : Counted (.number x) := by
  intro s s' l _ h
  rw [lower_number] at h
  obtain ⟨v, s₁, hconst, h⟩ := bind_eq_ok h
  cases h
  exact (announced_gains _ s).trans (drafting_gains (Draft.const_emits x) hconst)

theorem binary_counted {op : Operator} {left right : Tree} (hleft : Counted left)
    (hright : Counted right) : Counted (.binary op left right) := by
  intro s s' l hc h
  rw [lower_binary] at h
  obtain ⟨l₁, s₁, hlower₁, h⟩ := bind_eq_ok h
  obtain ⟨x, s₂, hx, h⟩ := bind_eq_ok h
  cases expectOperand_ok hx
  obtain ⟨l₂, s₃, hlower₂, h⟩ := bind_eq_ok h
  obtain ⟨y, s₄, hy, h⟩ := bind_eq_ok h
  cases expectOperand_ok hy
  obtain ⟨v, s₅, harith, h⟩ := bind_eq_ok h
  cases h
  have hc' := announced_coherent hc (.binary op left right)
  have hc₁ := ((lower_advances left).of_ok hlower₁ hc').coherent
  have hgains := (((announced_gains _ s).trans (hleft hc' hlower₁)).trans
    (hright hc₁ hlower₂)).trans (drafting_gains (Draft.arith_emits op x y) harith)
  simpa [Tree.kinds, Tree.anchored, Tree.kind] using hgains

theorem assign_counted {name : String} {value : Tree} (hvalue : Counted value) :
    Counted (.assign name value) := by
  intro s s' l hc h
  rw [lower_assign] at h
  obtain ⟨g, s₁, hglobal, h⟩ := bind_eq_ok h
  obtain ⟨l₁, s₂, hlower, h⟩ := bind_eq_ok h
  obtain ⟨x, s₃, hx, h⟩ := bind_eq_ok h
  cases expectAssigned_ok hx
  obtain ⟨pointer, s₄, hpointer, h⟩ := bind_eq_ok h
  obtain ⟨_, s₅, hstore, h⟩ := bind_eq_ok h
  cases h
  have hc' := announced_coherent hc (.assign name value)
  have hc₁ := ((globalNamed_advances name).of_ok hglobal hc').coherent
  have hgains := ((((announced_gains _ s).trans (globalNamed_gains hc' hglobal)).trans
    (hvalue hc₁ hlower)).trans (drafting_gains (Draft.pointer_emits g) hpointer)).trans
      (drafting_gains (Draft.store_emits x pointer) hstore)
  simpa [Tree.kinds, Tree.anchored, Tree.kind] using hgains

theorem body_counted {items : List Tree} (hitems : CountedAll items) : Counted (.body items) := by
  intro s s' l hc h
  rw [lower_body] at h
  obtain ⟨anchor, s₁, hslot, h⟩ := bind_eq_ok h
  obtain ⟨_, s₂, hlower, h⟩ := bind_eq_ok h
  obtain ⟨last, hlower⟩ := discard_eq_ok hlower
  cases h
  have hc' := announced_coherent hc (.body items)
  have hc₁ := ((drafting_advances (Draft.slot_emits _)).of_ok hslot hc').coherent
  have hgains := ((announced_gains _ s).trans
    (drafting_gains (Draft.slot_emits _) hslot)).trans (hitems hc₁ hlower)
  simpa [Tree.kinds, Tree.anchored, Tree.kind] using hgains

theorem lowerInner_gains {name : String} {inner : Tree} (hinner : Counted inner)
    (hc : s.state.Coherent) (h : lowerInner name inner s = .ok () s') :
    Gains s s' inner.kinds (inner.kinds.count .procedure) (inner.kinds.count .procedure)
      inner.anchored := by
  unfold lowerInner at h
  obtain ⟨_, s₁, hbody, h⟩ := bind_eq_ok h
  cases expectBody_ok hbody
  obtain ⟨_, s₂, hlower, hret⟩ := bind_eq_ok h
  obtain ⟨l, hlower⟩ := discard_eq_ok hlower
  simpa using (hinner hc hlower).trans (drafting_gains Draft.retVoid_emits hret)

theorem procedure_counted {name : String} {inner : Tree} (hinner : Counted inner) :
    Counted (.procedure name inner) := by
  intro s s' l hc h
  rw [lower_procedure] at h
  obtain ⟨d, s₁, hdeclare, h⟩ := bind_eq_ok h
  obtain ⟨_, s₂, hwithin, h⟩ := bind_eq_ok h
  obtain ⟨s₃, hlower, rfl⟩ := within_eq_ok hwithin
  have hc' := announced_coherent hc (.procedure name inner)
  have hc₁ := ((declareProcedure_advances name).of_ok hdeclare hc').coherent
  have hlowered := lowerInner_gains (s := { s₁ with state.draft.cursor := some d.2 }) hinner
    (hc₁.of_same rfl rfl rfl rfl rfl) hlower
  -- The procedure is counted last, when all of it was lowered.
  have hfinished : Gains s₁ s' inner.kinds (inner.kinds.count .procedure)
      (inner.kinds.count .procedure + 1) inner.anchored := by
    cases h
    exact ⟨hlowered.kinds, hlowered.functions, congrArg (· + 1) hlowered.procedures,
      hlowered.anchors⟩
  have hgains := ((announced_gains _ s).trans (declareProcedure_gains hc' hdeclare)).trans
    hfinished
  simpa [Tree.kinds, Tree.anchored, Tree.kind, Nat.add_comm] using hgains

theorem call_counted (name : String) : Counted (.call name) := by
  intro s s' l _ h
  rw [lower_call] at h
  exact (announced_gains _ s).trans (lowerCall_gains h)

theorem program_counted (items : List Tree) : Counted (.program items) := by
  intro s s' l _ h
  rw [lower] at h
  cases h

theorem nil_counted : CountedAll [] := by
  intro anchor last result s s' _ h
  rw [lowerItems] at h
  cases h
  exact .refl s

theorem cons_counted {item : Tree} {rest : List Tree} (hitem : Counted item)
    (hrest : CountedAll rest) : CountedAll (item :: rest) := by
  intro anchor last result s s' hc h
  rw [lowerItems] at h
  obtain ⟨l, s₁, hlower, h⟩ := bind_eq_ok h
  obtain ⟨_, s₂, hanchor, hlowerRest⟩ := bind_eq_ok h
  have hc₁ := ((lower_advances item).of_ok hlower hc).coherent
  have hc₂ := ((carries_advances.anchorItem anchor item l).of_ok hanchor hc₁).coherent
  have hanchored := anchorItem_gains (fun hnumeric => lower_value hnumeric hlower) hanchor
  have hgains := ((hitem hc hlower).trans hanchored).trans (hrest hc₂ hlowerRest)
  simpa [Tree.kindsAll, Tree.anchoredAll, Nat.add_comm] using hgains

mutual

theorem lower_counted : ∀ t, Counted t
  | .number x => number_counted x
  | .binary _ left right => binary_counted (lower_counted left) (lower_counted right)
  | .assign _ value => assign_counted (lower_counted value)
  | .body items => body_counted (lowerItems_counted items)
  | .procedure _ inner => procedure_counted (lower_counted inner)
  | .call name => call_counted name
  | .program items => program_counted items

theorem lowerItems_counted : ∀ items, CountedAll items
  | [] => nil_counted
  | item :: rest => cons_counted (lower_counted item) (lowerItems_counted rest)

end

theorem lowerProgramItems_gains {items : List Tree} (hc : s.state.Coherent)
    (hf : s.state.functions.get? s.state.config.entry = none)
    (h : lowerProgramItems items s = .ok () s') :
    Gains s s' (Tree.kindsAll items) ((Tree.kindsAll items).count .procedure + 1)
      ((Tree.kindsAll items).count .procedure) (Tree.anchoredAll items) := by
  rw [lowerProgramItems_eq] at h
  obtain ⟨anchor, s₁, henter, h⟩ := bind_eq_ok h
  obtain ⟨last, s₂, g, s₃, value, d, d', hitems, hglobal, hload, hret, rfl, -⟩ := lowerEntered_ok h
  have hc₁ := (enterEntry_advances.of_ok henter hc).coherent
  have hc₂ := ((lowerItems_advances anchor none items).of_ok hitems hc₁).coherent
  have hfunctions := ((Draft.ret_emits value).of_ok hret).functions.trans hload.functions
  have hreturned : Gains s₃ { s₃ with state.draft := d' } [] 0 0 0 :=
    ⟨fun _ => rfl, congrArg Array.size hfunctions, rfl, rfl⟩
  have hgains := (((enterEntry_gains hc hf henter).trans
    (lowerItems_counted items hc₁ hitems)).trans (globalNamed_gains hc₂ hglobal)).trans hreturned
  simpa [Nat.add_comm] using hgains

theorem generate_gains (hc : s.state.Coherent)
    (hf : s.state.functions.get? s.state.config.entry = none) (h : generate s = .ok () s') :
    ∃ items, s.state.root = some (.program items) ∧
      Gains s s' (Tree.kindsAll items) ((Tree.kindsAll items).count .procedure + 1)
        ((Tree.kindsAll items).count .procedure) (Tree.anchoredAll items) := by
  obtain ⟨items, ⟨log₀, c₀⟩, ⟨log₁, c₁⟩, hroot, hc₀, hitems, hs'⟩ := generate_ok h
  cases hc₀
  have hgains := lowerProgramItems_gains (s := ⟨log₀, { s.state with root := none }⟩)
    (hc.of_same rfl rfl rfl rfl rfl) hf hitems
  obtain ⟨log', c'⟩ := s'
  cases hs'
  exact ⟨items, hroot, hgains.kinds, hgains.functions, hgains.procedures, hgains.anchors⟩

/-- At any time the statistics agree with the code. After a generation that succeeds on a fresh
compiler they agree with the tree: its nodes below the root by kinds, those that do not occur being
absent, its procedures, which are all functions but the entry, and the numbers among the items. -/
theorem statistics_tell_truth (config : Config) (root : Option Tree) (name : String) (depth : Nat)
    (log : Log) :
    (∀ s, Reaches ⟨log, fresh config root name depth⟩ s → s.state.Truthful) ∧
    ∀ s, generate ⟨log, fresh config root name depth⟩ = .ok () s →
      ∃ items, root = some (.program items) ∧
        (∀ k n, (k, n) ∈ s.state.statistics.kinds.present ↔
          n = (Tree.kindsAll items).count k ∧ n ≠ 0) ∧
        s.state.statistics.procedures = (Tree.kindsAll items).count .procedure ∧
        s.state.draft.code.functions.size = s.state.statistics.procedures + 1 ∧
        s.state.statistics.anchors = Tree.anchoredAll items := by
  have hfresh := fresh_coherent config root name depth
  have htruthful := fresh_truthful config root name depth
  refine ⟨fun s hs => (hs.upholds ⟨hfresh, htruthful⟩).2, fun s hs => ?_⟩
  obtain ⟨items, hroot, hgains⟩ := generate_gains hfresh (by simp [fresh, Registry.get?]) hs
  have hkinds (k : Kind) : s.state.statistics.kinds.count k = (Tree.kindsAll items).count k := by
    rw [hgains.kinds]
    cases k <;> exact Nat.zero_add _
  refine ⟨items, hroot, fun k n => ?_, ?_, ?_, ?_⟩
  · rw [Tally.mem_present_iff, hkinds]
  · exact hgains.procedures.trans (Nat.zero_add _)
  · rw [hgains.functions, hgains.procedures]
    exact Nat.zero_add _ ▸ rfl
  · exact hgains.anchors.trans (Nat.zero_add _)

-- In the session both operations fail, each behind code that stays: a call stands where a number is
-- needed, and then the procedure of the program is there already.
theorem failures_and_program_counted : ∃ root t s, root = Tree.program [.number 5.0,
      .procedure "p" (.body [.number 2.0]), .call "p",
      .assign "x" (.binary .add (.number 3.0) (.number 4.0))] ∧
    Command.runAll
      [.lower (.procedure "p" (.body [.number 1.0, .assign "x" (.call "p")])), .generate]
      ⟨#[], fresh {} (some root) "m" 3⟩ = .ok () t ∧
    t.state.Truthful ∧ t.state.statistics.calls = 1 ∧ t.state.statistics.anchors = 2 ∧
    t.state.statistics.globals = 1 ∧ generate ⟨#[], fresh {} (some root) "m" 3⟩ = .ok () s ∧
    (.number, 4) ∈ s.state.statistics.kinds.present ∧
    (∀ n, (.program, n) ∉ s.state.statistics.kinds.present) ∧
    s.state.statistics.procedures = 1 ∧ s.state.draft.code.functions.size = 2 ∧
    s.state.statistics.anchors = 2 := by
  let root := Tree.program [.number 5.0, .procedure "p" (.body [.number 2.0]), .call "p",
    .assign "x" (.binary .add (.number 3.0) (.number 4.0))]
  have hsession : Action.outcome (do
      Command.runAll
        [.lower (.procedure "p" (.body [.number 1.0, .assign "x" (.call "p")])), .generate]
      let c := (← get).state
      return decide (c.statistics.calls = 1 ∧ c.statistics.anchors = 2 ∧ c.statistics.globals = 1))
        ⟨#[], fresh {} (some root) "m" 3⟩ = .ok true := by
    decide +kernel
  have hgenerate : generate.outcome ⟨#[], fresh {} (some root) "m" 3⟩ = .ok () := by
    decide +kernel
  have htruth := statistics_tell_truth {} (some root) "m" 3 #[]
  obtain ⟨t', h⟩ := of_outcome_ok hsession
  obtain ⟨_, t, hrun, h⟩ := bind_eq_ok h
  rw [bind_of_ok (get_apply t), pure_apply] at h
  injection h with hcounts
  obtain ⟨hcalls, hanchors, hglobals⟩ := of_decide_eq_true hcounts
  obtain ⟨s, hs⟩ := of_outcome_ok hgenerate
  obtain ⟨items, hitems, hkinds, hprocedures, hfunctions, hstored⟩ := htruth.2 s hs
  obtain rfl := Tree.program.inj (Option.some.inj hitems)
  have hone : s.state.statistics.procedures = 1 := hprocedures
  refine ⟨root, t, s, rfl, hrun, htruth.1 t (Reaches.start.runAll hrun), hcalls, hanchors, hglobals, hs,
    (hkinds _ _).mpr ⟨rfl, by decide⟩, fun n hn => ?_, hone, by rw [hfunctions, hone], hstored⟩
  obtain ⟨hzero, hne⟩ := (hkinds _ _).mp hn
  exact hne hzero

end Compiler

end Niladic
