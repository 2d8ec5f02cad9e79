import Niladic.Proofs.Labels
import Niladic.Proofs.Requests

namespace Niladic

namespace Text

theorem digits_eq_append {k : Nat} (hk : 0 < k) :
    digits k = digits (k / 10) ++ [Nat.digitChar (k % 10)] := by
  unfold digits
  rw [if_neg (Nat.ne_of_gt hk)]
  split
  next hsmall =>
    have hlt : k < 10 := by omega
    rw [Nat.toDigits_of_lt_base hlt, Nat.mod_eq_of_lt hlt]
    rfl
  next => exact Nat.toDigits_of_base_le (by decide) (by omega)

theorem exists_digits_of_prefix {k : Nat} {front : List Char} (h : front <+: digits k) :
    ∃ j, front = digits j := by
  -- Without its last digit, a number is its tenth part.
  induction k using Nat.strongRecOn generalizing front with
  | ind k ih =>
      rcases Nat.eq_zero_or_pos k with rfl | hk
      · exact ⟨0, List.prefix_nil.mp h⟩
      · rw [digits_eq_append hk, List.prefix_concat_iff] at h
        rcases h with rfl | h
        · exact ⟨k, (digits_eq_append hk).symm⟩
        · exact ih (k / 10) (Nat.div_lt_self hk (by decide)) h

def Unnumbered (P : String → Prop) : Prop :=
  ∀ name k, P name → name ≠ "" → P (label name k) → k = 0

namespace Unnumbered

variable {P : String → Prop} {base base' : String} {k k' : Nat}

theorem eq_nil_of_append (h : Unnumbered P) (hbase : P base) (hne : base ≠ "") (hbase' : P base')
    {front : List Char} (htext : base'.toList = base.toList ++ front) (hfront : front <+: digits k) :
    front = [] := by
  obtain ⟨j, rfl⟩ := exists_digits_of_prefix hfront
  have hlabel : base' = label base j := String.toList_inj.mp (htext.trans (label_toList base j).symm)
  have hzero : j = 0 := h base j hbase hne (hlabel ▸ hbase')
  subst hzero
  rfl

theorem label_injective (h : Unnumbered P) (hbase : P base) (hne : base ≠ "") (hbase' : P base')
    (hne' : base' ≠ "") (heq : label base k = label base' k') : base = base' ∧ k = k' := by
  have htext : base.toList ++ digits k = base'.toList ++ digits k' := by
    rw [← label_toList, ← label_toList, heq]
  -- What one of the names has more than the other is the beginning of a number.
  rcases List.append_eq_append_iff.mp htext with ⟨front, hlong, hdigits⟩ | ⟨front, hlong, hdigits⟩
  · have hnil := h.eq_nil_of_append hbase hne hbase' hlong ⟨_, hdigits.symm⟩
    rw [hnil] at hlong hdigits
    exact ⟨String.toList_inj.mp (by simpa using hlong.symm), digits_injective hdigits⟩
  · have hnil := h.eq_nil_of_append hbase' hne' hbase hlong ⟨_, hdigits.symm⟩
    rw [hnil] at hlong hdigits
    exact ⟨String.toList_inj.mp (by simpa using hlong), (digits_injective hdigits).symm⟩

end Unnumbered

end Text

def Code.UniquelyNamed (code : Code) : Prop :=
  ∀ {b b' block block' u v x y}, code.block? b = some block → code.block? b' = some block' →
    block.owner = block'.owner → u ∈ block.body.toList → v ∈ block'.body.toList →
    code.value? u = some x → code.value? v = some y → x.name = y.name → x.name ≠ "" → u = v

namespace Draft

open Niladic.Action Text

variable {P : String → Prop} {d d' : Draft}

def Stamp (P : String → Prop) (d : Draft) (f : FuncId) (value : Value) : Prop :=
  value.name = "" ∨
    ∃ base k, P base ∧ base ≠ "" ∧ value.name = label base k ∧ k < d.uses.getD (f, base) 0

structure Stamped (P : String → Prop) (d : Draft) : Prop where
  named : ∀ {b block v}, d.code.block? b = some block → v ∈ block.body.toList →
    ∃ value, d.code.value? v = some value ∧ d.Stamp P block.owner value
  unique : d.code.UniquelyNamed

theorem Stamp.mono {f : FuncId} {value : Value} (h : d.Stamp P f value)
    (huses : ∀ base, d.uses.getD (f, base) 0 ≤ d'.uses.getD (f, base) 0) : d'.Stamp P f value := by
  rcases h with hempty | ⟨base, k, hbase, hne, hname, hk⟩
  · exact .inl hempty
  · exact .inr ⟨base, k, hbase, hne, hname, Nat.lt_of_lt_of_le hk (huses base)⟩

theorem Stamped.of_blocks (h : d.Stamped P) (hcode : d.code.Extends d'.code)
    (huses : d'.uses = d.uses) (hblocks : ∀ {b block v}, d'.code.block? b = some block →
      v ∈ block.body.toList → d.code.block? b = some block) : d'.Stamped P where
  named hb hv := by
    obtain ⟨value, hvalue, hstamp⟩ := h.named (hblocks hb hv) hv
    exact ⟨value, hcode.value hvalue, hstamp.mono fun base => by rw [huses]⟩
  unique hb hb' howner hu hv hx hy := by
    obtain ⟨x, hx', -⟩ := h.named (hblocks hb hu) hu
    obtain ⟨y, hy', -⟩ := h.named (hblocks hb' hv) hv
    rw [hcode.value hx'] at hx
    rw [hcode.value hy'] at hy
    cases hx
    cases hy
    exact h.unique (hblocks hb hu) (hblocks hb' hv) howner hu hv hx' hy'

section

variable {b : BlockId} {block : Block} {name : String} {op : Operation}

theorem stamp_nextName (hname : name = "" ∨ P name) :
    (d.appended b block.owner name op).Stamp P block.owner
      ⟨d.nextName block.owner name, op, some b⟩ := by
  by_cases hempty : name = ""
  · subst hempty
    exact .inl rfl
  · exact .inr ⟨name, _, hname.resolve_left hempty, hempty, nextName_eq_label hempty _,
      lt_nextUses_self hempty _⟩

theorem Stamped.nextName_fresh (h : d.Stamped P) (hP : Unnumbered P) (hname : name = "" ∨ P name)
    {b' : BlockId} {block' : Block} (hb' : d.code.block? b' = some block') {u : ValueId}
    {x : Value} (hu : u ∈ block'.body.toList) (hx : d.code.value? u = some x)
    (hsame : x.name = d.nextName block'.owner name) : x.name = "" := by
  obtain ⟨x', hx', hstamp⟩ := h.named hb' hu
  rw [hx] at hx'
  cases hx'
  by_cases hempty : name = ""
  · subst hempty
    exact hsame
  rcases hstamp with hnone | ⟨base, k, hbase, hne, hlabel, hk⟩
  · exact hnone
  · rw [hlabel, nextName_eq_label hempty] at hsame
    obtain ⟨rfl, rfl⟩ :=
      hP.label_injective hbase hne (hname.resolve_left hempty) hempty hsame
    exact absurd hk (Nat.lt_irrefl _)

theorem Stamped.appended (h : d.Stamped P) (hP : Unnumbered P) (hb : d.code.block? b = some block)
    (hname : name = "" ∨ P name) : (d.appended b block.owner name op).Stamped P := by
  have hcode : d.code.Extends (d.appended b block.owner name op).code :=
    Code.extends_withInstruction ..
  have hold {b' : BlockId} {old : Block} {w : ValueId} {z : Value}
      (hb' : d.code.block? b' = some old) (hw : w ∈ old.body.toList)
      (hz : (d.appended b block.owner name op).code.value? w = some z) :
      d.code.value? w = some z := by
    obtain ⟨z', hz', -⟩ := h.named hb' hw
    rw [hcode.value hz'] at hz
    cases hz
    exact hz'
  constructor
  · intro b' block' v hb' hv
    obtain ⟨old, hb'', howner, hbody⟩ := block_of_appended hb hb'
    rcases hbody v hv with hv | ⟨rfl, rfl⟩
    · obtain ⟨value, hvalue, hstamp⟩ := h.named hb'' hv
      rw [howner] at hstamp
      exact ⟨value, hcode.value hvalue, hstamp.mono fun base => le_nextUses ..⟩
    · rw [hb] at hb''
      cases hb''
      exact ⟨_, appended_value, howner ▸ stamp_nextName hname⟩
  · intro b₁ b₂ block₁ block₂ u v x y hb₁ hb₂ howner hu hv hx hy hsame hne
    obtain ⟨old₁, hold₁, howner₁, hbody₁⟩ := block_of_appended hb hb₁
    obtain ⟨old₂, hold₂, howner₂, hbody₂⟩ := block_of_appended hb hb₂
    rw [← howner₁, ← howner₂] at howner
    rcases hbody₁ u hu with hu | ⟨rfl, rfl⟩ <;> rcases hbody₂ v hv with hv | ⟨rfl, rfl⟩
    · exact h.unique hold₁ hold₂ howner hu hv (hold hold₁ hu hx) (hold hold₂ hv hy) hsame hne
    · rw [hb] at hold₂
      cases hold₂
      rw [appended_value] at hy
      cases hy
      rw [← howner] at hsame
      exact absurd (h.nextName_fresh hP hname hold₁ hu (hold hold₁ hu hx) hsame) hne
    · rw [hb] at hold₁
      cases hold₁
      rw [appended_value] at hx
      cases hx
      rw [howner] at hsame hne
      exact absurd (hsame.trans
        (h.nextName_fresh hP hname hold₂ hv (hold hold₂ hv hy) hsame.symm)) hne
    · rfl

end

namespace Request

end Request

structure Counts (f : FuncId) (counts : String → Nat) (d : Draft) : Prop where
  block : ∃ b block, d.cursor = some b ∧ d.code.block? b = some block ∧ block.owner = f
  uses : ∀ name, d.uses.getD (f, name) 0 = counts name

def Holds (d : Draft) (v : ValueId) (name : String) : Prop :=
  ∃ b block value, d.cursor = some b ∧ d.code.block? b = some block ∧ v ∈ block.body.toList ∧
    d.code.value? v = some value ∧ value.name = name

theorem Counts.slot {f : FuncId} {counts : String → Nat} (h : Counts f counts d) {name : String}
    (hname : name ≠ "") : ∃ d', Draft.slot name d = .ok ⟨d.code.values.size⟩ d' ∧
      Counts f (fun n => if n = name then counts n + 1 else counts n) d' ∧
      d'.code.values.size = d.code.values.size + 1 ∧
      d'.Holds ⟨d.code.values.size⟩ (label name (counts name)) ∧
      ∀ v n, d.Holds v n → d'.Holds v n := by
  obtain ⟨b, block, hc, hb, rfl⟩ := h.block
  have hcode : d.code.Extends (d.appended b block.owner name .slot).code :=
    Code.extends_withInstruction ..
  have hb' := Code.block?_withInstruction_self hb (d.nextName block.owner name) .slot
  refine ⟨_, slot_eq hc hb name, ⟨⟨b, _, hc, hb', rfl⟩, fun n => ?_⟩, ?_, ?_, ?_⟩
  · have hnext : (d.appended b block.owner name .slot).uses =
        d.uses.insert (block.owner, name) (counts name + 1) := by
      simp [Draft.appended, nextUses, hname, h.uses]
    rw [hnext, Std.TreeMap.getD_insert, h.uses]
    by_cases hsame : n = name
    · subst hsame
      simp
    · simp [hsame, Ne.symm hsame]
  · simp [Draft.appended, Code.withInstruction]
  · refine ⟨b, _, _, hc, hb', by simp, appended_value, ?_⟩
    rw [← h.uses]
    exact nextName_eq_label hname block.owner
  · rintro v n ⟨b', block', value, hc', hblock', hv, hvalue, hn⟩
    rw [hc] at hc'
    cases hc'
    rw [hb] at hblock'
    cases hblock'
    exact ⟨b, _, value, hc, hb', by simp [hv], hcode.value hvalue, hn⟩

namespace Request

def opened : List Request := [.function "f" .void, .block "entry" ⟨0⟩, .position ⟨0⟩]

end Request

end Draft

end Niladic
