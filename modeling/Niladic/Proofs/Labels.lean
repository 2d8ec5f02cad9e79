import Niladic.Proofs.Acceptance
import Niladic.Proofs.Literals

namespace Niladic

namespace Text

def Free (marks : List Char) (s : String) : Prop := ∀ c ∈ s.toList, c ∉ marks

abbrev Plain : String → Prop := Free [',', '\n', ' ']

instance (marks : List Char) (s : String) : Decidable (Free marks s) :=
  List.decidableBAll (· ∉ marks) s.toList

def Base (s : String) : Prop := Plain s ∧ ∃ front c, s.toList = front ++ [c] ∧ c.isDigit = false

theorem Base.not_isEmpty {s : String} (h : Base s) : s.isEmpty = false := by
  obtain ⟨-, front, c, htext, -⟩ := h
  rw [String.isEmpty_eq_false_iff]
  rintro rfl
  simp at htext

theorem Free.mono {marks marks' : List Char} {s : String} (h : Free marks s)
    (hmarks : marks' ⊆ marks) : Free marks' s :=
  fun c hc hmark => h c hc (hmarks hmark)

theorem Free.not_mem {marks : List Char} {s : String} (h : Free marks s) {c : Char}
    (hc : c ∈ marks) : c ∉ s.toList :=
  fun hmem => h c hmem hc

theorem free_literal (x : Float) : Free [',', '\n', '%', '@'] (Number.literal x) :=
  fun _ hc hmark => Number.not_mem_literal hmark x hc

theorem Free.append {marks : List Char} {s t : String} (hs : Free marks s) (ht : Free marks t) :
    Free marks (s ++ t) := by
  intro c hc
  rw [String.toList_append, List.mem_append] at hc
  rcases hc with hc | hc
  · exact hs c hc
  · exact ht c hc

theorem Base.append {s t : String} (hs : Plain s) (ht : Base t) : Base (s ++ t) := by
  obtain ⟨hplain, front, c, htext, hc⟩ := ht
  exact ⟨hs.append hplain, s.toList ++ front, c, by simp [htext], hc⟩

theorem base_anchor : Base "anchor" := ⟨by decide, ['a', 'n', 'c', 'h', 'o'], 'r', rfl, rfl⟩

theorem base_calltmp : Base "calltmp" := ⟨by decide, ['c', 'a', 'l', 'l', 't', 'm'], 'p', rfl, rfl⟩

theorem base_load : Base ".load" := ⟨by decide, ['.', 'l', 'o', 'a'], 'd', rfl, rfl⟩

theorem base_resultName (op : Operator) : Base op.resultName := by
  cases op with
  | add => exact ⟨by decide, ['a', 'd', 'd', 't', 'm'], 'p', rfl, rfl⟩
  | sub => exact ⟨by decide, ['s', 'u', 'b', 't', 'm'], 'p', rfl, rfl⟩
  | mul => exact ⟨by decide, ['m', 'u', 'l', 't', 'm'], 'p', rfl, rfl⟩
  | div => exact ⟨by decide, ['d', 'i', 'v', 't', 'm'], 'p', rfl, rfl⟩

def label (base : String) (k : Nat) : String := if k = 0 then base else base ++ toString k

def digits (k : Nat) : List Char := if k = 0 then [] else Nat.toDigits 10 k

theorem label_toList (base : String) (k : Nat) : (label base k).toList = base.toList ++ digits k := by
  unfold label digits
  split
  · simp
  · rw [String.toList_append, Nat.toString_eq_ofList_toDigits, String.toList_ofList]

theorem label_ne_empty {base : String} (h : Base base) (k : Nat) : label base k ≠ "" := by
  obtain ⟨-, front, c, hbase, -⟩ := h
  intro hempty
  simpa [label_toList, hbase] using congrArg String.toList hempty

theorem isDigit_of_mem_digits {k : Nat} {c : Char} (h : c ∈ digits k) : c.isDigit = true := by
  unfold digits at h
  split at h
  · cases h
  · exact Decimal.isDigit_toDigits h

theorem digits_injective {k k' : Nat} (h : digits k = digits k') : k = k' := by
  unfold digits at h
  split at h
  next hk =>
    split at h
    next hk' => rw [hk, hk']
    next => exact absurd h.symm Nat.toDigits_ne_nil
  next =>
    split at h
    next => exact absurd h Nat.toDigits_ne_nil
    next => exact Decimal.toDigits_injective h

theorem not_mark_of_isDigit {c : Char} (h : c.isDigit = true) : c ∉ [',', '\n', ' '] := by
  simp only [List.mem_cons, List.not_mem_nil, or_false]
  rintro (rfl | rfl | rfl) <;> exact absurd h (by decide)

theorem plain_label {base : String} (h : Plain base) (k : Nat) : Plain (label base k) := by
  intro c hc
  rw [label_toList, List.mem_append] at hc
  rcases hc with hc | hc
  · exact h c hc
  · exact not_mark_of_isDigit (isDigit_of_mem_digits hc)

theorem plain_toString (n : Nat) : Plain (toString n) := by
  intro c hc
  rw [Nat.toString_eq_ofList_toDigits, String.toList_ofList] at hc
  exact not_mark_of_isDigit (Decimal.isDigit_toDigits hc)

theorem label_injective {base base' : String} {k k' : Nat} (h : Base base) (h' : Base base')
    (heq : label base k = label base' k') : base = base' ∧ k = k' := by
  obtain ⟨-, front, c, hbase, hc⟩ := h
  obtain ⟨-, front', c', hbase', hc'⟩ := h'
  -- Read from the end, the number is what comes before the first character that is no digit.
  have hdigits (k : Nat) : ∀ d ∈ (digits k).reverse, d.isDigit = true :=
    fun d hd => isDigit_of_mem_digits (List.mem_reverse.mp hd)
  have htext : (digits k).reverse ++ c :: front.reverse =
      (digits k').reverse ++ c' :: front'.reverse := by
    have hlists := congrArg (List.reverse ∘ String.toList) heq
    simpa [label_toList, hbase, hbase'] using hlists
  obtain ⟨hnumber, rfl, hfront⟩ := append_cons_inj (hdigits k) (hdigits k') (by simp [hc])
    (by simp [hc']) htext
  refine ⟨String.toList_inj.mp ?_, digits_injective (List.reverse_injective hnumber)⟩
  rw [hbase, hbase', List.reverse_injective hfront]

end Text

namespace Code

def Silent (code : Code) : Operation → Prop
  | .store .. | .ret _ => True
  | .call f => code.Returning f .void
  | _ => False

theorem Extends.silent {code code' : Code} (h : Extends code code') {op : Operation}
    (hop : code.Silent op) : code'.Silent op := by
  cases op with
  | call f => exact h.returning hop
  | store | ret => trivial
  | const | address | arith | slot | load => exact hop.elim

open Text

structure Clean (code : Code) : Prop where
  title : Free ['\n'] code.name
  functions : ∀ {f function}, code.func? f = some function → Plain function.name
  globals : ∀ {g global}, code.global? g = some global → Plain global.name

variable {code : Code} {n : String}

theorem Clean.withGlobal (h : code.Clean) (hn : Plain n) : (code.withGlobal n).Clean where
  title := h.title
  functions hf := h.functions hf
  globals hg := by
    rw [global?_withGlobal] at hg
    split at hg
    · cases hg
      exact hn
    · exact h.globals hg

theorem Clean.withProcedure (h : code.Clean) (hn : Plain n) (returns : Returns) :
    (code.withProcedure n returns).Clean where
  title := h.title
  functions hf := by
    rw [func?_withProcedure] at hf
    split at hf
    · cases hf
      exact hn
    · exact h.functions hf
  globals hg := h.globals hg

theorem Clean.emits {d d' : Draft} (h : d.code.Clean) (hd : d.Emits d') : d'.code.Clean := by
  cases hd with
  | idle => exact h
  | const x => exact ⟨h.title, fun hf => h.functions hf, fun hg => h.globals hg⟩
  | instruction => exact ⟨h.title, fun hf => h.functions hf, fun hg => h.globals hg⟩

end Code

namespace Draft

open Niladic.Action Text

variable {d d' : Draft}

def Named (d : Draft) (f : FuncId) (value : Value) : Prop :=
  (value.name = "" ∧ d.code.Silent value.operation) ∨
    ∃ base k, Base base ∧ value.name = label base k ∧ k < d.uses.getD (f, base) 0

structure Labelled (d : Draft) : Prop where
  named : ∀ {b block v}, d.code.block? b = some block → v ∈ block.body.toList →
    ∃ value, d.code.value? v = some value ∧ d.Named block.owner value
  apart : ∀ {b block u v x y}, d.code.block? b = some block → u ∈ block.body.toList →
    v ∈ block.body.toList → d.code.value? u = some x → d.code.value? v = some y →
    x.name = y.name → x.name ≠ "" → u = v

theorem Named.mono {f : FuncId} {value : Value} (h : d.Named f value)
    (hcode : d.code.Extends d'.code)
    (huses : ∀ base, d.uses.getD (f, base) 0 ≤ d'.uses.getD (f, base) 0) : d'.Named f value := by
  rcases h with ⟨hname, hsilent⟩ | ⟨base, k, hbase, hname, hk⟩
  · exact .inl ⟨hname, hcode.silent hsilent⟩
  · exact .inr ⟨base, k, hbase, hname, Nat.lt_of_lt_of_le hk (huses base)⟩

theorem Labelled.of_blocks (h : d.Labelled) (hcode : d.code.Extends d'.code)
    (huses : d'.uses = d.uses) (hblocks : ∀ {b block v}, d'.code.block? b = some block →
      v ∈ block.body.toList → d.code.block? b = some block) : d'.Labelled where
  named hb hv := by
    obtain ⟨value, hvalue, hnamed⟩ := h.named (hblocks hb hv) hv
    exact ⟨value, hcode.value hvalue, hnamed.mono hcode fun base => by rw [huses]⟩
  apart hb hu hv hx hy := by
    obtain ⟨x, hx', -⟩ := h.named (hblocks hb hu) hu
    obtain ⟨y, hy', -⟩ := h.named (hblocks hb hu) hv
    rw [hcode.value hx'] at hx
    rw [hcode.value hy'] at hy
    cases hx
    cases hy
    exact h.apart (hblocks hb hu) hu hv hx' hy'

theorem Labelled.withConst (h : d.Labelled) (x : Float) :
    Labelled { d with code := d.code.withConst x } :=
  h.of_blocks (Code.extends_withConst _ x) rfl fun hb _ => hb

theorem Labelled.withGlobal (h : d.Labelled) (n : String) :
    Labelled { d with code := d.code.withGlobal n } :=
  h.of_blocks (Code.extends_withGlobal _ n) rfl fun hb _ => hb

theorem Labelled.withProcedure (h : d.Labelled) (n : String) (returns : Returns) :
    Labelled { d with code := d.code.withProcedure n returns } := by
  refine h.of_blocks (Code.extends_withProcedure _ n returns) rfl fun {b block v} hb hv => ?_
  have hb' : (d.code.withProcedure n returns).block? b = some block := hb
  rw [Code.block?_withProcedure] at hb'
  split at hb'
  · cases hb'
    simp at hv
  · exact hb'

section

variable {b : BlockId} {block : Block} {name : String} {op : Operation}

theorem nextName_eq_label (hname : name ≠ "") (f : FuncId) :
    d.nextName f name = label name (d.uses.getD (f, name) 0) := by
  unfold nextName label
  rw [String.isEmpty_eq_false_iff.mpr hname]
  rfl

theorem nextName_base (hname : Base name) (f : FuncId) :
    d.nextName f name = label name (d.uses.getD (f, name) 0) :=
  nextName_eq_label (String.isEmpty_eq_false_iff.mp hname.not_isEmpty) f

theorem le_nextUses (f g : FuncId) (base : String) :
    d.uses.getD (g, base) 0 ≤ (d.nextUses f name).getD (g, base) 0 := by
  unfold nextUses
  split
  · exact Nat.le_refl _
  · rw [Std.TreeMap.getD_insert]
    split
    next hsame =>
      rw [Std.LawfulEqCmp.eq_of_compare hsame]
      omega
    next => exact Nat.le_refl _

theorem lt_nextUses_self (hname : name ≠ "") (f : FuncId) :
    d.uses.getD (f, name) 0 < (d.nextUses f name).getD (f, name) 0 := by
  unfold nextUses
  rw [String.isEmpty_eq_false_iff.mpr hname]
  simp

theorem lt_nextUses (hname : Base name) (f : FuncId) :
    d.uses.getD (f, name) 0 < (d.nextUses f name).getD (f, name) 0 :=
  lt_nextUses_self (String.isEmpty_eq_false_iff.mp hname.not_isEmpty) f

theorem block_of_appended (hb : d.code.block? b = some block) {b' : BlockId} {block' : Block}
    (hb' : (d.appended b block.owner name op).code.block? b' = some block') :
    ∃ old, d.code.block? b' = some old ∧ old.owner = block'.owner ∧ ∀ v ∈ block'.body.toList,
      v ∈ old.body.toList ∨ (b' = b ∧ v = ⟨d.code.values.size⟩) := by
  by_cases hsame : b' = b
  · subst hsame
    rw [Draft.appended, Code.block?_withInstruction_self hb] at hb'
    cases hb'
    refine ⟨block, hb, rfl, fun v hv => ?_⟩
    simpa using hv
  · rw [Draft.appended, Code.block?_withInstruction_of_ne hsame] at hb'
    exact ⟨block', hb', rfl, fun v hv => .inl hv⟩

theorem appended_value :
    (d.appended b block.owner name op).code.value? ⟨d.code.values.size⟩ =
      some ⟨d.nextName block.owner name, op, some b⟩ := by
  rw [Draft.appended, Code.value?_withInstruction, if_pos rfl]

theorem Labelled.appended (h : d.Labelled) (hb : d.code.block? b = some block)
    (hname : (name = "" ∧ d.code.Silent op) ∨ Base name) :
    (d.appended b block.owner name op).Labelled := by
  have hcode : d.code.Extends (d.appended b block.owner name op).code :=
    Code.extends_withInstruction ..
  have hnew : (d.appended b block.owner name op).Named block.owner
      ⟨d.nextName block.owner name, op, some b⟩ := by
    rcases hname with ⟨rfl, hsilent⟩ | hbase
    · exact .inl ⟨rfl, hcode.silent hsilent⟩
    · exact .inr ⟨name, _, hbase, nextName_base hbase _, lt_nextUses hbase _⟩
  -- The new name has a number that no name of the function has yet.
  have hfresh : ∀ {u x}, u ∈ block.body.toList → d.code.value? u = some x →
      x.name = d.nextName block.owner name → x.name = "" := by
    intro u x hu hx hsame
    obtain ⟨x', hx', hnamed⟩ := h.named hb hu
    rw [hx] at hx'
    cases hx'
    rcases hname with ⟨rfl, -⟩ | hbase
    · exact hsame
    · rcases hnamed with ⟨hempty, -⟩ | ⟨base, k, hbase', hlabel, hk⟩
      · exact hempty
      · rw [hlabel, nextName_base hbase] at hsame
        obtain ⟨rfl, rfl⟩ := label_injective hbase' hbase hsame
        exact absurd hk (Nat.lt_irrefl _)
  constructor
  · intro b' block' v hb' hv
    obtain ⟨old, hold, howner, hbody⟩ := block_of_appended hb hb'
    rcases hbody v hv with hv | ⟨rfl, rfl⟩
    · obtain ⟨value, hvalue, hnamed⟩ := h.named hold hv
      rw [howner] at hnamed
      exact ⟨value, hcode.value hvalue, hnamed.mono hcode fun base => le_nextUses ..⟩
    · rw [hb] at hold
      cases hold
      exact ⟨_, appended_value, howner ▸ hnew⟩
  · intro b' block' u v x y hb' hu hv hx hy hsame hne
    obtain ⟨old, hold, -, hbody⟩ := block_of_appended hb hb'
    have hvalue : ∀ {w z}, w ∈ old.body.toList →
        (d.appended b block.owner name op).code.value? w = some z → d.code.value? w = some z := by
      intro w z hw hz
      obtain ⟨z', hz', -⟩ := h.named hold hw
      rw [hcode.value hz'] at hz
      cases hz
      exact hz'
    rcases hbody u hu with hu | ⟨rfl, rfl⟩
    · rcases hbody v hv with hv | ⟨rfl, rfl⟩
      · exact h.apart hold hu hv (hvalue hu hx) (hvalue hv hy) hsame hne
      · rw [hb] at hold
        cases hold
        rw [appended_value] at hy
        cases hy
        exact absurd (hfresh hu (hvalue hu hx) hsame) hne
    · rcases hbody v hv with hv | ⟨-, rfl⟩
      · rw [hb] at hold
        cases hold
        rw [appended_value] at hx
        cases hx
        exact absurd (hsame.trans (hfresh hv (hvalue hv hy) hsame.symm)) hne
      · rfl

end

def Keeps (d d' : Draft) : Prop := d.Labelled → d'.Labelled

theorem Writes.keeps {name : String} {op : Operation} (h : d.Writes name op d')
    (hname : (name = "" ∧ d.code.Silent op) ∨ Base name) : d.Keeps d' := by
  cases h with
  | idle => exact id
  | instruction hc hb hop => exact fun hd => hd.appended hb hname

end Draft

namespace Compiler

open Niladic.Action Draft Text

theorem Drafts.keeps {α : Type} {x : Action Draft α} (h : Drafts x) : Relates Keeps x := by
  cases h with
  | const x => exact fun _ hd => hd.withConst x
  | arith op left right =>
      exact (arith_writes op left right).mono fun h => h.keeps (.inr (base_resultName op))
  | anchor => exact (slot_writes _).mono fun h => h.keeps (.inr base_anchor)
  | store value pointer =>
      exact (store_writes value pointer).mono fun h => h.keeps (.inl ⟨rfl, trivial⟩)
  | call f =>
      refine (call_writes f).mono fun ⟨function, hf, h⟩ => h.keeps ?_
      cases hreturns : function.returns with
      | void => exact .inl ⟨rfl, function, hf, hreturns⟩
      | number => exact .inr base_calltmp
  | pointer g => exact (pointer_idle g).mono fun h => h ▸ id
  | retVoid => exact retVoid_writes.mono fun h => h.keeps (.inl ⟨rfl, trivial⟩)

structure Legible (c : Compiler) : Prop where
  coherent : c.Coherent
  labelled : c.draft.Labelled
  clean : c.draft.code.Clean
  config : Plain c.config.entry ∧ Plain c.config.result

def Retains (s s' : Logged Compiler) : Prop := s.state.Legible → s'.state.Legible

theorem fresh_legible {config : Config} {name : String}
    (hconfig : Plain config.entry ∧ Plain config.result) (hname : Free ['\n'] name)
    (root : Option Tree) (depth : Nat) : (fresh config root name depth).Legible where
  coherent := fresh_coherent config root name depth
  labelled := by
    constructor <;> intro b block _ <;> simp [fresh, Code.block?]
  clean := ⟨hname, by simp [fresh, Code.func?], by simp [fresh, Code.global?]⟩
  config := hconfig

theorem Retains.trans {s s' s'' : Logged Compiler} (h : Retains s s') (h' : Retains s' s'') :
    Retains s s'' := h' ∘ h

theorem ends_of_legible {α : Type} {s : Logged Compiler}
    {r : EStateM.Result Stop (Logged Compiler) α} (h : s.state.Legible → Ends Retains s r) :
    Ends Retains s r :=
  Ends.of_imp h

theorem drafting_retains {α : Type} {x : Action Draft α} (hemits : Relates Draft.Emits x)
    (hkeeps : Relates Keeps x) : Relates Retains (drafting x) :=
  drafting_relates (hemits.and hkeeps) fun ⟨hemit, hkeep⟩ hs =>
    ⟨hs.coherent.emits hemit, hkeep hs.labelled, hs.clean.emits hemit, hs.config⟩

theorem Legible.of_same {c c' : Compiler} (h : c.Legible) (hcode : c'.draft.code = c.draft.code)
    (huses : c'.draft.uses = c.draft.uses) (hfunctions : c'.functions = c.functions)
    (hblocks : c'.blocks = c.blocks) (hglobals : c'.globals = c.globals)
    (hconfig : c'.config = c.config) : c'.Legible where
  coherent := h.coherent.of_same hcode hfunctions hblocks hglobals hconfig
  labelled := h.labelled.of_blocks (hcode ▸ .refl _) huses fun hb _ => hcode ▸ hb
  clean := hcode ▸ h.clean
  config := hconfig ▸ h.config

theorem Retains.moved (s : Logged Compiler) (cursor : Option BlockId) :
    Retains s { s with state.draft.cursor := cursor } :=
  fun h => h.of_same rfl rfl rfl rfl rfl rfl

theorem position_retains (b : BlockId) : Relates Retains (drafting (Draft.position b)) :=
  fun s => .moved s (some b)

theorem within_retains (b : BlockId) {α : Type} {x : Compile α} (hx : Relates Retains x) :
    Relates Retains (within b x) :=
  within_relates hx fun h => ((Retains.moved _ _).trans h).trans (.moved _ _)

theorem globalNamed_retains {n : String} (hn : Plain n) : Relates Retains (globalNamed n) := by
  refine fun s => ends_of_legible fun h => ?_
  rcases globalNamed_cases h.coherent n with ⟨g, heq⟩ | ⟨e, heq⟩ | ⟨hf, hg, log, heq⟩
  · rw [heq]
    exact id
  · rw [heq]
    exact id
  · rw [heq]
    exact fun _ => ⟨(h.coherent.withGlobal hf hg).of_same rfl rfl rfl rfl rfl,
      h.labelled.withGlobal n, h.clean.withGlobal hn, h.config⟩

theorem declareProcedure_retains {n : String} (hn : Plain n) :
    Relates Retains (declareProcedure n) := by
  refine fun s => ends_of_legible fun h => ?_
  rcases declareProcedure_cases h.coherent n with ⟨e, log, heq⟩ | ⟨hf, hg, log, heq⟩
  · rw [heq]
    exact id
  · rw [heq]
    exact fun _ => ⟨h.coherent.withProcedure hf hg nofun, h.labelled.withProcedure n .void,
      h.clean.withProcedure hn .void, h.config⟩

theorem openEntry_retains : Relates Retains openEntry := by
  refine fun s => ends_of_legible fun h => ?_
  rcases openEntry_cases h.coherent with ⟨f, hf, heq⟩ | ⟨e, heq⟩ | ⟨hf, hg, log, heq⟩
  · rw [heq]
    exact fun _ => ⟨h.coherent.openScope _, h.labelled, h.clean, h.config⟩
  · rw [heq]
    exact id
  · rw [heq]
    exact fun _ => ⟨h.coherent.withProcedure hf hg fun _ => rfl,
      h.labelled.withProcedure _ .number, h.clean.withProcedure h.config.1 .number, h.config⟩

theorem carries_retains : Carries Plain Plain Retains where
  refl _ := id
  trans := Retains.trans
  emitted _ _ h := h.of_same rfl rfl rfl rfl rfl rfl
  counted _ _ h := h.of_same rfl rfl rfl rfl rfl rfl
  drafts hx := drafting_retains hx.emits hx.keeps
  global := globalNamed_retains
  procedure hn hx hy := Relates.bind Retains.trans (declareProcedure_retains hn) fun d =>
    Relates.bind Retains.trans (within_retains d.2 hx) fun _ => hy d.1

theorem enterEntry_retains : Relates Retains enterEntry := by
  rw [enterEntry_eq]
  exact Relates.bind Retains.trans openEntry_retains fun b =>
    Relates.bind Retains.trans (position_retains b) fun _ => carries_retains.drafts .anchor

theorem lowerProgramItems_legible {items : List Tree} {s s' : Logged Compiler}
    (h : lowerProgramItems items s = .ok () s') (hs : s.state.Legible)
    (hdefs : ∀ d ∈ Tree.definitionsAll items, Plain d.1)
    (hassigned : ∀ n ∈ Tree.assignedAll items, Plain n) : s'.state.Legible := by
  unfold lowerProgramItems at h
  obtain ⟨anchor, s₁, hs₁, h⟩ := bind_eq_ok h
  obtain ⟨last, s₂, hs₂, h⟩ := bind_eq_ok h
  rw [bind_of_ok (get_apply s₂)] at h
  obtain ⟨g, s₃, hs₃, h⟩ := bind_eq_ok h
  obtain ⟨pointer, s₄, hs₄, h⟩ := bind_eq_ok h
  obtain ⟨value, s₅, hs₅, h⟩ := bind_eq_ok h
  have hlowered := (carries_retains.lowerItems anchor none items hdefs hassigned).of_ok hs₂
    (enterEntry_retains.of_ok hs₁ hs)
  have hresult := hlowered.config.2
  have hpointed := (carries_retains.drafts (.pointer g)).of_ok hs₄
    ((globalNamed_retains hresult).of_ok hs₃ hlowered)
  have hloaded := (drafting_retains (load_emits pointer _)
    ((load_writes pointer _).mono fun h => h.keeps (.inr (.append hresult base_load)))).of_ok hs₅
      hpointed
  split at h
  · cases h
  · obtain ⟨_, s₆, hret, h⟩ := bind_eq_ok h
    rw [bind_of_ok (code_apply s₆)] at h
    obtain ⟨rfl, -⟩ := verify_ok h
    exact (drafting_retains (ret_emits value)
      ((ret_writes value).mono fun h => h.keeps (.inl ⟨rfl, trivial⟩))).of_ok hret hloaded

theorem generate_legible {items : List Tree} {s s' : Logged Compiler}
    (h : generate s = .ok () s') (hroot : s.state.root = some (.program items))
    (hs : s.state.Legible) (hdefs : ∀ d ∈ Tree.definitionsAll items, Plain d.1)
    (hassigned : ∀ n ∈ Tree.assignedAll items, Plain n) : s'.state.Legible := by
  obtain ⟨items', s₀, s₁, hroot', hs₀, hlower, hs'⟩ := generate_ok h
  rw [hroot] at hroot'
  cases hroot'
  rw [hs']
  have hs₀' : s₀.state.Legible := hs₀ ▸ hs.of_same rfl rfl rfl rfl rfl rfl
  exact (lowerProgramItems_legible hlower hs₀' hdefs hassigned).of_same rfl rfl rfl rfl rfl rfl

end Compiler

end Niladic
