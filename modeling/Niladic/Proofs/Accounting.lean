import Niladic.Proofs.Freezing
import Niladic.Proofs.Lowering
import Niladic.Proofs.Representation

namespace Niladic

namespace Tally

def total (t : Tally) : Nat := t.present.foldl (fun sum entry => sum + entry.2) 0

theorem foldl_filter_ne_zero (entries : List (Kind × Nat)) (sum : Nat) :
    (entries.filter fun entry => entry.2 != 0).foldl (fun sum entry => sum + entry.2) sum =
      entries.foldl (fun sum entry => sum + entry.2) sum := by
  induction entries generalizing sum with
  | nil => rfl
  | cons entry entries ih =>
      by_cases hzero : entry.2 = 0
      · rw [List.filter_cons_of_neg (by simp [hzero]), List.foldl_cons, hzero, ih]
        rfl
      · rw [List.filter_cons_of_pos (by simp [hzero]), List.foldl_cons, List.foldl_cons, ih]

theorem total_eq (t : Tally) : t.total =
    t.assign + t.binary + t.number + t.procedure + t.body + t.call + t.program := by
  rw [total, present, foldl_filter_ne_zero]
  simp [Kind.all, count]

theorem total_add (t : Tally) (k : Kind) : (t.add k).total = t.total + 1 := by
  rw [total_eq, total_eq]
  cases k <;> simp only [add] <;> omega

theorem mem_present_iff {t : Tally} {k : Kind} {n : Nat} :
    (k, n) ∈ t.present ↔ n = t.count k ∧ n ≠ 0 := by
  simp only [present, List.mem_filter, List.mem_map, Prod.mk.injEq, bne_iff_ne]
  constructor
  · rintro ⟨⟨k', -, rfl, rfl⟩, hn⟩
    exact ⟨rfl, hn⟩
  · rintro ⟨rfl, hn⟩
    exact ⟨⟨k, Kind.mem_all k, rfl, rfl⟩, hn⟩

end Tally

def Operation.isCall : Operation → Bool
  | .call _ => true
  | _ => false

namespace Code

variable {code code' : Code} {p : Code → Operation → Bool}

def isSlotStore (code : Code) : Operation → Bool
  | .store _ pointer => code.operation? pointer == some .slot
  | _ => false

def tally (code : Code) (p : Code → Operation → Bool) : Nat :=
  code.listedValues.countP fun v => (code.operation? v).any (p code)

def Settled (p : Code → Operation → Bool) : Prop :=
  ∀ {code code' : Code} {op : Operation}, code.Extends code' →
    (∀ u ∈ op.operands, ∃ o, code.operation? u = some o) → p code' op = p code op

theorem settled_isCall : Settled fun _ => Operation.isCall := fun _ _ => rfl

theorem settled_isSlotStore : Settled isSlotStore := by
  intro code code' op hcode hoperands
  cases op with
  | store value pointer =>
      obtain ⟨o, ho⟩ := hoperands pointer (by simp [Operation.operands])
      simp only [isSlotStore, ho, hcode.operation ho]
  | const | address | arith | slot | load | call | ret => rfl

theorem exists_operation_of_lt {v : ValueId} (h : v.index < code.values.size) :
    ∃ o, code.operation? v = some o :=
  ⟨_, operation_of_value (Array.getElem?_eq_getElem h)⟩

theorem Admits.exists_operation {f : FuncId} {op : Operation} (h : code.Admits f op) :
    ∀ u ∈ op.operands, ∃ o, code.operation? u = some o :=
  fun u hu => exists_operation_of_lt (operand_lt h u hu)

theorem Ordered.listed_operation (h : code.Ordered) {v : ValueId} (hv : v ∈ code.listedValues) :
    ∃ op, code.operation? v = some op ∧ ∀ u ∈ op.operands, ∃ o, code.operation? u = some o := by
  obtain ⟨block, hblock, hv⟩ := List.mem_flatMap.mp hv
  obtain ⟨i, hi⟩ := List.mem_iff_getElem?.mp hblock
  rw [Array.getElem?_toList] at hi
  obtain ⟨op, hop, hadmits, -⟩ := h.admitted (b := ⟨i⟩) hi hv
  exact ⟨op, hop, hadmits.exists_operation⟩

theorem Ordered.countP_listed (h : code.Ordered) (hp : Settled p) (hcode : code.Extends code') :
    (code.listedValues.countP fun v => (code'.operation? v).any (p code')) = code.tally p := by
  refine List.countP_congr fun v hv => ?_
  obtain ⟨op, hop, hoperands⟩ := h.listed_operation hv
  rw [hop, hcode.operation hop, Option.any_some, Option.any_some, hp hcode hoperands]

theorem Ordered.tally_eq (h : code.Ordered) (hp : Settled p) (hcode : code.Extends code')
    (hlisted : code'.listedValues = code.listedValues) : code'.tally p = code.tally p := by
  rw [tally, hlisted]
  exact h.countP_listed hp hcode

theorem listedValues_withInstruction {b : BlockId} {block : Block}
    (hb : code.block? b = some block) (name : String) (op : Operation) :
    (code.withInstruction b name op).listedValues.Perm
      (⟨code.values.size⟩ :: code.listedValues) := by
  obtain ⟨before, block', after, hblocks, -, hmodified⟩ := List.exists_of_modify
    (fun block : Block => { block with body := block.body.push ⟨code.values.size⟩ })
    (l := code.blocks.toList) (i := b.index) (by simpa using block_lt hb)
  rw [listedValues, listedValues, withInstruction, Array.toList_modify, hmodified, hblocks]
  simp only [List.flatMap_append, List.flatMap_cons, Array.toList_push, ← List.append_assoc]
  rw [List.append_assoc _ [_], List.singleton_append]
  exact List.perm_middle

theorem Ordered.tally_withInstruction (h : code.Ordered) (hp : Settled p) {b : BlockId}
    {block : Block} {op : Operation} (hb : code.block? b = some block)
    (hop : code.Admits block.owner op) (name : String) :
    (code.withInstruction b name op).tally p = code.tally p + if p code op then 1 else 0 := by
  have hcode := extends_withInstruction code b name op
  rw [tally, (listedValues_withInstruction hb name op).countP_eq, List.countP_cons,
    operation?_withInstruction_self, Option.any_some, hp hcode hop.exists_operation,
    h.countP_listed hp hcode]

theorem listedValues_withProcedure (name : String) (returns : Returns) :
    (code.withProcedure name returns).listedValues = code.listedValues := by
  simp [listedValues, withProcedure, withBlock, withFunction]

end Code

namespace Compiler

open Niladic.Action Code

structure Truthful (c : Compiler) : Prop where
  nodes : c.statistics.nodes = c.statistics.kinds.total
  globals : c.statistics.globals = c.draft.code.globals.size
  calls : c.statistics.calls = c.draft.code.tally fun _ => Operation.isCall
  anchors : c.statistics.anchors = c.draft.code.tally isSlotStore

variable {c c' : Compiler} {s s' s'' : Logged Compiler} {α β : Type} {b : BlockId} {block : Block}
  {op : Operation} {name : String}

theorem Truthful.of_listed (h : c.Truthful) (hc : c.Coherent)
    (hcode : c.draft.code.Extends c'.draft.code)
    (hlisted : c'.draft.code.listedValues = c.draft.code.listedValues)
    (hnodes : c'.statistics.nodes = c'.statistics.kinds.total)
    (hglobals : c'.statistics.globals = c'.draft.code.globals.size)
    (hcalls : c'.statistics.calls = c.statistics.calls)
    (hanchors : c'.statistics.anchors = c.statistics.anchors) : c'.Truthful where
  nodes := hnodes
  globals := hglobals
  calls := by rw [hcalls, hc.ordered.tally_eq settled_isCall hcode hlisted, h.calls]
  anchors := by rw [hanchors, hc.ordered.tally_eq settled_isSlotStore hcode hlisted, h.anchors]

theorem Truthful.appended (h : c.Truthful) (hc : c.Coherent)
    (hb : c.draft.code.block? b = some block) (hop : c.draft.code.Admits block.owner op)
    (name : String) {statistics : Statistics}
    (hnodes : statistics.nodes = statistics.kinds.total)
    (hglobals : statistics.globals = c.statistics.globals)
    (hcalls : statistics.calls = c.statistics.calls + if op.isCall then 1 else 0)
    (hanchors : statistics.anchors =
      c.statistics.anchors + if c.draft.code.isSlotStore op then 1 else 0) :
    Truthful { c with draft := c.draft.appended b block.owner name op, statistics } where
  nodes := hnodes
  globals := hglobals.trans h.globals
  calls := by
    rw [hcalls, h.calls]
    exact (hc.ordered.tally_withInstruction settled_isCall hb hop _).symm
  anchors := by
    rw [hanchors, h.anchors]
    exact (hc.ordered.tally_withInstruction settled_isSlotStore hb hop _).symm

theorem fresh_truthful (config : Config) (root : Option Tree) (name : String) (depth : Nat) :
    (fresh config root name depth).Truthful :=
  ⟨rfl, rfl, rfl, rfl⟩

def Upholds (s s' : Logged Compiler) : Prop :=
  s.state.Coherent ∧ s.state.Truthful → s'.state.Coherent ∧ s'.state.Truthful

theorem Upholds.trans (h : Upholds s s') (h' : Upholds s' s'') : Upholds s s'' := h' ∘ h

theorem Upholds.refl (s : Logged Compiler) : Upholds s s := id

theorem Upholds.of_advances (hadvances : Advances s s')
    (h : s.state.Coherent → s.state.Truthful → s'.state.Truthful) : Upholds s s' :=
  fun ⟨hc, ht⟩ => ⟨(hadvances hc).coherent, h hc ht⟩

theorem Upholds.of_listed (hadvances : Advances s s')
    (hlisted : s'.state.draft.code.listedValues = s.state.draft.code.listedValues)
    (hglobals : s'.state.draft.code.globals = s.state.draft.code.globals)
    (hstatistics : s'.state.statistics = s.state.statistics) : Upholds s s' := by
  refine .of_advances hadvances fun hc ht => ht.of_listed hc (hadvances hc).code hlisted ?_ ?_ ?_ ?_
  · rw [hstatistics, ht.nodes]
  · rw [hstatistics, hglobals, ht.globals]
  · rw [hstatistics]
  · rw [hstatistics]

theorem ends_of_truthful {r : EStateM.Result Stop (Logged Compiler) α}
    (h : s.state.Coherent → s.state.Truthful → Ends Upholds s r) : Ends Upholds s r :=
  Ends.of_imp fun hs => h hs.1 hs.2

theorem bind_upholds {x : Compile α} {f : α → Compile β} (hx : Relates Upholds x)
    (hf : ∀ a, Relates Upholds (f a)) : Relates Upholds (x >>= f) :=
  Relates.bind Upholds.trans hx hf

theorem pure_upholds (a : α) : Relates Upholds (pure a : Compile α) := Relates.pure Upholds.refl a

theorem fail_upholds (e : Error) : Relates Upholds (Action.fail e : Compile α) :=
  Relates.fail Upholds.refl e

theorem Upholds.emitted (s : Logged Compiler) (event : Event) :
    Upholds s { s with log := s.log.push event } :=
  .of_listed (carries_advances.emitted s event) rfl rfl rfl

theorem Upholds.moved (s : Logged Compiler) (cursor : Option BlockId) :
    Upholds s { s with state.draft.cursor := cursor } :=
  .of_listed (.moved s cursor) rfl rfl rfl

theorem emit_upholds (e : Event) : Relates Upholds (Logged.emit e : Compile Unit) :=
  fun s => .emitted s e

theorem reject_upholds (event : Event) (e : Error) :
    Relates Upholds (Logged.reject event e : Compile α) :=
  reject_relates Upholds.emitted event e

theorem position_upholds (b : BlockId) : Relates Upholds (drafting (Draft.position b)) :=
  fun s => .moved s (some b)

theorem setRoot_upholds (root : Option Tree) : Relates Upholds (setRoot root) :=
  fun s => .of_listed (setRoot_advances root s) rfl rfl rfl

theorem const_upholds (x : Float) : Relates Upholds (drafting (Draft.const x)) :=
  fun s => .of_listed (drafting_advances (Draft.const_emits x) s) rfl rfl rfl

theorem pointer_upholds (g : GlobalId) : Relates Upholds (drafting (Draft.pointer g)) :=
  drafting_relates (Draft.pointer_idle g) fun {s _} hd => hd ▸ Upholds.refl s

theorem addNode_upholds (k : Kind) : Relates Upholds (count (·.addNode k)) := by
  refine fun s => .of_advances (carries_advances.counted s _) fun hc ht =>
    ht.of_listed hc (.refl _) rfl ?_ ht.globals rfl rfl
  exact (congrArg (· + 1) ht.nodes).trans (Tally.total_add _ k).symm

theorem addProcedure_upholds : Relates Upholds (count Statistics.addProcedure) :=
  fun s => .of_advances (carries_advances.counted s _) fun hc ht =>
    ht.of_listed hc (.refl _) rfl ht.nodes ht.globals rfl rfl

theorem within_upholds (b : BlockId) {x : Compile α} (hx : Relates Upholds x) :
    Relates Upholds (within b x) :=
  within_relates hx fun h => ((Upholds.moved _ _).trans h).trans (.moved _ _)

theorem globalNamed_upholds (n : String) : Relates Upholds (globalNamed n) := by
  refine fun s => ends_of_truthful fun hc ht => ?_
  have hadvances := globalNamed_advances n s
  rcases globalNamed_cases hc n with ⟨g, heq⟩ | ⟨e, heq⟩ | ⟨-, -, log, heq⟩
  · rw [heq]
    exact .refl s
  · rw [heq]
    exact .refl s
  · rw [heq] at hadvances ⊢
    refine .of_advances hadvances fun _ _ =>
      ht.of_listed hc (hadvances hc).code rfl ht.nodes ?_ rfl rfl
    exact (congrArg (· + 1) ht.globals).trans (Array.size_push _).symm

theorem declareProcedure_upholds (n : String) : Relates Upholds (declareProcedure n) := by
  refine fun s => ends_of_truthful fun hc _ => ?_
  have hadvances := declareProcedure_advances n s
  rcases declareProcedure_cases hc n with ⟨e, log, heq⟩ | ⟨-, -, log, heq⟩
  · rw [heq] at hadvances ⊢
    exact .of_listed hadvances rfl rfl rfl
  · rw [heq] at hadvances ⊢
    exact .of_listed hadvances (listedValues_withProcedure n .void) rfl rfl

theorem openEntry_upholds : Relates Upholds openEntry := by
  refine fun s => ends_of_truthful fun hc _ => ?_
  have hadvances := openEntry_advances s
  rcases openEntry_cases hc with ⟨f, -, heq⟩ | ⟨e, heq⟩ | ⟨-, -, log, heq⟩
  · rw [heq] at hadvances ⊢
    exact .of_listed hadvances rfl rfl rfl
  · rw [heq]
    exact .refl s
  · rw [heq] at hadvances ⊢
    exact .of_listed hadvances (listedValues_withProcedure _ .number) rfl rfl

theorem Upholds.appended (hcursor : s.state.draft.cursor = some b)
    (hb : s.state.draft.code.block? b = some block)
    (hop : s.state.draft.code.Admits block.owner op) (name : String) (log : Log)
    {statistics : Statistics} (hkinds : statistics.kinds = s.state.statistics.kinds)
    (hnodes : statistics.nodes = s.state.statistics.nodes)
    (hglobals : statistics.globals = s.state.statistics.globals)
    (hcalls : statistics.calls = s.state.statistics.calls + if op.isCall then 1 else 0)
    (hanchors : statistics.anchors = s.state.statistics.anchors +
      if s.state.draft.code.isSlotStore op then 1 else 0) :
    Upholds s ⟨log, { s.state with
      draft := s.state.draft.appended b block.owner name op, statistics }⟩ := by
  rintro ⟨hc, ht⟩
  refine ⟨(hc.emits (.instruction hcursor hb hop name)).of_same rfl rfl rfl rfl rfl, ?_⟩
  exact ht.appended hc hb hop name (by rw [hnodes, hkinds, ht.nodes]) hglobals hcalls hanchors

theorem appends_ends {x : Action Draft α} {y : α → Compile β}
    (hx : Draft.Appends name op s.state.draft (x s.state.draft))
    (hy : ∀ a b block, s.state.draft.cursor = some b → s.state.draft.code.block? b = some block →
      s.state.draft.code.Admits block.owner op →
        Ends Upholds s
          (y a { s with state.draft := s.state.draft.appended b block.owner name op })) :
    Ends Upholds s ((drafting x >>= y) s) := by
  generalize hd : x s.state.draft = r at hx
  cases hx with
  | ok hcursor hb hop =>
      rw [bind_of_ok (drafting_of_ok hd)]
      exact hy _ _ _ hcursor hb hop
  | error e =>
      rw [bind_of_error (drafting_of_error hd)]
      exact Upholds.refl s
  | badHandle d' =>
      rw [bind_of_error (drafting_of_error hd)]
      trivial

theorem drafting_ends {x : Action Draft α}
    (hx : Draft.Appends name op s.state.draft (x s.state.draft)) (hcall : op.isCall = false)
    (hstore : s.state.draft.code.isSlotStore op = false) : Ends Upholds s (drafting x s) := by
  have hends : Ends Upholds s ((drafting x >>= pure) s) := by
    refine appends_ends hx fun a b block hcursor hb hop => ?_
    exact .appended hcursor hb hop name s.log rfl rfl rfl (by simp [hcall]) (by simp [hstore])
  rwa [bind_pure] at hends

theorem drafting_upholds {x : Action Draft α} (hx : ∀ d, Draft.Appends name op d (x d))
    (hcall : op.isCall = false) (hstore : ∀ code : Code, code.isSlotStore op = false) :
    Relates Upholds (drafting x) :=
  fun _ => drafting_ends (hx _) hcall (hstore _)

theorem slot_upholds (name : String) : Relates Upholds (drafting (Draft.slot name)) :=
  drafting_upholds (Draft.slot_appends name) rfl fun _ => rfl

theorem slot_of_drafting {anchor : ValueId}
    (h : drafting (Draft.slot name) s = .ok anchor s') :
    s'.state.draft.code.operation? anchor = some .slot := by
  obtain ⟨d, hd, rfl⟩ := drafting_eq_ok h
  rcases Draft.append_cases name .slot s.state.draft with
    ⟨b, block, -, -, heq⟩ | ⟨e, heq⟩ | ⟨d', heq⟩
  · cases heq.symm.trans hd
    exact operation?_withInstruction_self ..
  · cases heq.symm.trans hd
  · cases heq.symm.trans hd

theorem slot_of_enterEntry {anchor : ValueId} (h : enterEntry s = .ok anchor s') :
    s'.state.draft.code.operation? anchor = some .slot := by
  rw [enterEntry_eq] at h
  obtain ⟨b, s₁, -, h⟩ := bind_eq_ok h
  obtain ⟨_, s₂, -, h⟩ := bind_eq_ok h
  exact slot_of_drafting h

theorem enterEntry_upholds : Relates Upholds enterEntry := by
  rw [enterEntry_eq]
  exact bind_upholds openEntry_upholds fun b => bind_upholds (position_upholds b) fun _ =>
    slot_upholds "anchor"

theorem lowerCall_upholds (n : String) : Relates Upholds (lowerCall n) := by
  intro s
  unfold lowerCall
  rw [bind_of_ok (code_apply s)]
  cases s.state.draft.code.findFunction? n with
  | none => exact reject_upholds _ _ s
  | some f =>
      cases hf : s.state.draft.code.func? f with
      | none =>
          change Ends Upholds s ((drafting (Draft.call f) >>= _) s)
          rw [bind_of_error (drafting_of_error (Draft.call_of_none hf))]
          trivial
      | some function =>
          refine appends_ends (Draft.call_appends hf) fun v b block hcursor hb hop => ?_
          exact .appended hcursor hb hop _ (s.log.push (.callRecorded n)) rfl rfl rfl rfl rfl

theorem assign_upholds (g : GlobalId) (x : ValueId) : Relates Upholds (do
    let pointer ← drafting (Draft.pointer g)
    drafting (Draft.store x pointer)
    return .global g : Compile Lowered) := by
  refine fun s => ends_of_truthful fun hc _ => ?_
  cases hg : s.state.draft.code.global? g with
  | none =>
      rw [bind_of_error (drafting_of_error (Draft.pointer_of_none hg))]
      trivial
  | some global =>
      rw [bind_of_ok (drafting_of_ok (Draft.pointer_eq hg))]
      have haddress := hc.ordered.addressed hg
      refine (drafting_ends (Draft.store_appends x _ _) rfl ?_).bind Upholds.trans fun _ s' _ =>
        Upholds.refl s'
      simp [isSlotStore, haddress]

theorem anchorItem_ends {anchor : ValueId}
    (hslot : s.state.draft.code.operation? anchor = some .slot) (item : Tree) (lowered : Lowered) :
    Ends Upholds s (anchorItem anchor item lowered s) := by
  cases hnumeric : item.isNumeric with
  | false =>
      rw [anchorItem_other hnumeric]
      exact .refl s
  | true =>
      unfold anchorItem
      rw [hnumeric]
      cases lowered with
      | value v =>
          refine appends_ends (Draft.store_appends v anchor _) fun _ b block hcursor hb hop => ?_
          refine .appended hcursor hb hop "" s.log rfl rfl rfl rfl ?_
          rw [isSlotStore, hslot]
          rfl
      | global g => exact Upholds.refl s
      | function f => exact Upholds.refl s
      | call v => exact Upholds.refl s
      | void => exact Upholds.refl s

theorem announce_upholds (t : Tree) {x : Compile α} (hx : Relates Upholds x) : Relates Upholds (do
    count (·.addNode t.kind)
    Logged.emit (.lowering t.kind)
    x) :=
  bind_upholds (addNode_upholds _) fun _ => bind_upholds (emit_upholds _) fun _ => hx

theorem expectOperand_upholds (op : Operator) (lowered : Lowered) :
    Relates Upholds (expectOperand op lowered) :=
  expectOperand_relates Upholds.refl Upholds.emitted op lowered

mutual

theorem lower_upholds : ∀ t : Tree, Relates Upholds (lower t)
  | .number x => by
      rw [lower]
      exact announce_upholds _ (bind_upholds (const_upholds x) fun v => pure_upholds _)
  | .binary op left right => by
      rw [lower]
      refine announce_upholds _ (bind_upholds (lower_upholds left) fun l =>
        bind_upholds (expectOperand_upholds op l) fun x =>
          bind_upholds (lower_upholds right) fun r =>
            bind_upholds (expectOperand_upholds op r) fun y =>
              bind_upholds ?_ fun v => pure_upholds _)
      exact drafting_upholds (Draft.arith_appends op x y) rfl fun _ => rfl
  | .assign name value => by
      rw [lower]
      exact announce_upholds _ (bind_upholds (globalNamed_upholds name) fun g =>
        bind_upholds (lower_upholds value) fun l =>
          bind_upholds (expectAssigned_relates Upholds.refl Upholds.emitted name l) fun x =>
            assign_upholds g x)
  | .body items => by
      rw [lower]
      refine announce_upholds _ fun s => (slot_upholds "anchor" s).bind Upholds.trans ?_
      intro anchor s₁ hanchor
      exact (lowerItems_ends none items (slot_of_drafting hanchor)).discard.bind Upholds.trans
        fun _ s₂ _ => Upholds.refl s₂
  | .procedure name inner => by
      rw [lower]
      refine announce_upholds _ (bind_upholds (declareProcedure_upholds name) fun d =>
        bind_upholds (within_upholds d.2 ?_) fun _ => bind_upholds addProcedure_upholds fun _ =>
          pure_upholds _)
      exact bind_upholds (expectBody_relates Upholds.refl Upholds.emitted name inner) fun _ =>
        bind_upholds (lower_upholds inner).discard fun _ =>
          drafting_upholds Draft.retVoid_appends rfl fun _ => rfl
  | .call name => by
      rw [lower]
      exact announce_upholds _ (lowerCall_upholds name)
  | .program items => by
      rw [lower]
      exact announce_upholds _ (reject_upholds _ _)

theorem lowerItems_ends {anchor : ValueId} : ∀ {s : Logged Compiler} (last : Option Lowered)
    (items : List Tree), s.state.draft.code.operation? anchor = some .slot →
      Ends Upholds s (lowerItems anchor last items s)
  | s, last, [], _ => by
      rw [lowerItems]
      exact pure_upholds last s
  | s, last, item :: rest, hslot => by
      rw [lowerItems]
      -- What was lowered before an item has left the anchor as it was.
      refine ends_of_truthful fun hc _ => ?_
      refine (lower_upholds item s).bind Upholds.trans fun l s₁ hlower => ?_
      have hlater := (lower_advances item).of_ok hlower hc
      have hslot₁ := hlater.code.operation hslot
      refine (anchorItem_ends hslot₁ item l).bind Upholds.trans fun _ s₂ hanchor => ?_
      have hlater₁ := (carries_advances.anchorItem anchor item l).of_ok hanchor hlater.coherent
      exact lowerItems_ends (some l) rest (hlater₁.code.operation hslot₁)

end

theorem lowerEntered_ends {anchor : ValueId}
    (hslot : s.state.draft.code.operation? anchor = some .slot) (items : List Tree) :
    Ends Upholds s (lowerEntered items anchor s) := by
  refine (lowerItems_ends none items hslot).bind Upholds.trans fun last s₁ _ => ?_
  refine bind_upholds (Relates.get Upholds.refl) (fun s =>
    bind_upholds (globalNamed_upholds _) fun g => bind_upholds (pointer_upholds g) fun pointer =>
      bind_upholds ?_ fun value => ?_) s₁
  · exact drafting_upholds (Draft.load_appends pointer _) rfl fun _ => rfl
  · split
    · exact fail_upholds _
    · exact bind_upholds (drafting_upholds (Draft.ret_appends value) rfl fun _ => rfl) fun _ =>
        bind_upholds (fun s => Upholds.refl s) fun code =>
          verify_relates Upholds.refl Upholds.emitted code

theorem lowerProgram_upholds (root : Tree) : Relates Upholds (lowerProgram root) := by
  unfold lowerProgram
  split
  · exact fail_upholds _
  next items _ =>
    intro s
    rw [lowerProgramItems_eq]
    refine (enterEntry_upholds s).bind Upholds.trans fun anchor s₁ hanchor => ?_
    exact lowerEntered_ends (slot_of_enterEntry hanchor) items
  · exact fail_upholds _

theorem generate_upholds : Relates Upholds generate := by
  unfold generate generateFrom
  refine bind_upholds (Relates.get Upholds.refl) fun s => bind_upholds (emit_upholds _) fun _ => ?_
  split
  · exact fail_upholds _
  · split
    · exact reject_upholds _ _
    next root _ =>
      refine bind_upholds (setRoot_upholds none) fun _ =>
        bind_upholds (lowerProgram_upholds root).attempt fun result =>
          bind_upholds (setRoot_upholds _) fun _ => ?_
      split
      · refine bind_upholds (fun s => .of_listed ?_ rfl rfl rfl) fun _ =>
          bind_upholds (Relates.get Upholds.refl) fun s => emit_upholds _
        exact .of_same rfl rfl rfl rfl rfl rfl fun _ => rfl
      · exact reject_upholds _ _

mutual

theorem run_upholds : ∀ command : Command, Relates Upholds command.run
  | .enter => by
      rw [Command.run]
      exact enterEntry_upholds.attempt.discard
  | .lower t => by
      rw [Command.run]
      exact (lower_upholds t).attempt.discard
  | .within b commands fault => by
      rw [Command.run]
      refine (within_upholds b (bind_upholds (runAll_upholds commands) fun _ => ?_)).attempt.discard
      cases fault with
      | none => exact pure_upholds ()
      | some e => exact fail_upholds e
  | .generate => by
      rw [Command.run]
      exact generate_upholds.attempt.discard

theorem runAll_upholds : ∀ commands : List Command, Relates Upholds (Command.runAll commands)
  | [] => by
      rw [Command.runAll]
      exact pure_upholds ()
  | command :: rest => by
      rw [Command.runAll]
      exact bind_upholds (run_upholds command) fun _ => runAll_upholds rest

end

theorem Reaches.upholds (h : Reaches s s') : Upholds s s' := by
  induction h with
  | start => exact .refl s
  | command command _ hrun ih => exact ih.trans ((run_upholds command).of_ok hrun)
  | move cursor _ ih => exact ih.trans (.moved _ cursor)

end Compiler

end Niladic
