import Mathlib.Data.Bool.AllAny
import Mathlib.Data.List.TakeWhile
import Niladic.Token.Scan

namespace Niladic

theorem append_cons_inj {α : Type} {p : α → Prop} {a a' : α} {xs xs' ys ys' : List α}
    (h : ∀ x ∈ xs, p x) (h' : ∀ x ∈ xs', p x) (ha : ¬ p a) (ha' : ¬ p a')
    (heq : xs ++ a :: ys = xs' ++ a' :: ys') : xs = xs' ∧ a = a' ∧ ys = ys' := by
  induction xs generalizing xs' with
  | nil =>
      cases xs' with
      | nil => exact ⟨rfl, List.cons.inj heq⟩
      | cons x' xs' => exact absurd (h' a ((List.cons.inj heq).1 ▸ List.mem_cons_self)) ha
  | cons x xs ih =>
      cases xs' with
      | nil => exact absurd (h a' ((List.cons.inj heq).1 ▸ List.mem_cons_self)) ha'
      | cons x' xs' =>
          obtain ⟨rfl, htail⟩ := List.cons.inj heq
          obtain ⟨rfl, hrest⟩ := ih (fun x hx => h x (List.mem_cons_of_mem _ hx))
            (fun x hx => h' x (List.mem_cons_of_mem _ hx)) htail
          exact ⟨rfl, hrest⟩

theorem append_cons_inj_of_not_mem {α : Type} {a : α} {xs xs' ys ys' : List α} (h : a ∉ xs)
    (h' : a ∉ xs') (heq : xs ++ a :: ys = xs' ++ a :: ys') : xs = xs' ∧ ys = ys' := by
  have hne {zs : List α} (hzs : a ∉ zs) : ∀ z ∈ zs, z ≠ a := by
    rintro z hz rfl
    exact hzs hz
  obtain ⟨hxs, -, hys⟩ := append_cons_inj (hne h) (hne h') (by simp) (by simp) heq
  exact ⟨hxs, hys⟩

namespace Text

theorem alphabetic_ge {c : Char} (h : isAlphabetic c = true) : 0x41 ≤ c.toNat := by
  unfold isAlphabetic at h
  split at h
  · obtain ⟨r, hr, hlow, -⟩ := Ranges.exists_of_has h
    have hall : ∀ r ∈ alphabeticBasic, 0x41 ≤ r.1 := by decide +kernel
    exact Nat.le_trans (hall r hr) hlow
  next hlarge => omega

theorem not_isBlank_of_isAlphabetic {c : Char} (h : isAlphabetic c = true) : isBlank c = false := by
  rw [Bool.eq_false_iff]
  intro hblank
  obtain ⟨r, hr, hlow, hhigh⟩ := Ranges.exists_of_has hblank
  unfold isAlphabetic at h
  split at h
  · obtain ⟨r', hr', hlow', hhigh'⟩ := Ranges.exists_of_has h
    have hapart : ∀ r ∈ blankRanges, ∀ r' ∈ alphabeticBasic, r.2 < r'.1 ∨ r'.2 < r.1 := by
      decide +kernel
    rcases hapart r hr r' hr' with hlt | hlt <;> omega
  next hlarge =>
    have hsmall : ∀ r ∈ blankRanges, r.2 < 0x10000 := by decide
    have := hsmall r hr
    omega

theorem isBlank_cases {c : Char} (h : isBlank c = true) : c.toNat ≤ 0x20 ∨ 0x85 ≤ c.toNat := by
  obtain ⟨r, hr, hlow, hhigh⟩ := Ranges.exists_of_has h
  have hall : ∀ r ∈ blankRanges, r.2 ≤ 0x20 ∨ 0x85 ≤ r.1 := by decide
  rcases hall r hr with hle | hle
  · exact .inl (Nat.le_trans hhigh hle)
  · exact .inr (Nat.le_trans hle hlow)

end Text

namespace Token

open Text

theorem isDigit_bounds {c : Char} (h : c.isDigit = true) : 0x30 ≤ c.toNat ∧ c.toNat ≤ 0x39 := by
  simp only [Char.isDigit, Bool.and_eq_true, decide_eq_true_eq] at h
  exact ⟨h.1, h.2⟩

def symbols : List Char := ['+', '-', '*', '/', '(', ')']

def isNumeralPart (c : Char) : Bool := c.isDigit || c == '.'

inductive Lexeme : List Char → Prop
  | symbol {c : Char} (h : c ∈ symbols) : Lexeme [c]
  | numeral {w : List Char} (hne : w ≠ []) (hparts : ∀ c ∈ w, isNumeralPart c = true)
      (hpoint : w.count '.' ≤ 1) : Lexeme w
  | word {c : Char} {w : List Char} (hstart : isWordStart c = true)
      (hparts : ∀ d ∈ w, isWordPart d = true) : Lexeme (c :: w)

def isStart (c : Char) : Bool := c ∈ symbols || isNumeralPart c || isWordStart c

theorem Lexeme.ne_nil {w : List Char} (h : Lexeme w) : w ≠ [] := by
  cases h with
  | numeral hne => exact hne
  | symbol | word => exact List.cons_ne_nil _ _

theorem Lexeme.isStart {c : Char} {w : List Char} (h : Lexeme (c :: w)) : isStart c = true := by
  unfold Token.isStart
  cases h with
  | symbol h => simp [h]
  | numeral hne hparts => simp [hparts c List.mem_cons_self]
  | word hstart => simp [hstart]

theorem lexeme_of_isStart {c : Char} (h : isStart c = true) : Lexeme [c] := by
  simp only [isStart, Bool.or_eq_true, decide_eq_true_eq] at h
  rcases h with (h | h) | h
  · exact .symbol h
  · refine .numeral (List.cons_ne_nil _ _) (by simpa using h) ?_
    exact Nat.le_trans List.count_le_length (Nat.le_refl 1)
  · exact .word h (by simp)

theorem wordStart_apart {c : Char} (h : isWordStart c = true) :
    isBlank c = false ∧ c ≠ ';' ∧ c ∉ symbols ∧ isNumeralPart c = false := by
  have hge : 0x41 ≤ c.toNat := by
    simp only [isWordStart, Bool.or_eq_true, beq_iff_eq] at h
    rcases h with h | rfl
    · exact alphabetic_ge h
    · decide
  have hblank : isBlank c = false := by
    simp only [isWordStart, Bool.or_eq_true, beq_iff_eq] at h
    rcases h with h | rfl
    · exact not_isBlank_of_isAlphabetic h
    · rfl
  have hother {d : Char} (hd : d.toNat < 0x41) : c ≠ d := by
    rintro rfl
    omega
  refine ⟨hblank, hother (by decide), ?_, ?_⟩
  · have hsymbols : ∀ d ∈ symbols, d.toNat < 0x41 := by simp [symbols]
    exact fun hmem => hother (hsymbols c hmem) rfl
  · rw [isNumeralPart, Bool.or_eq_false_iff, beq_eq_false_iff_ne]
    refine ⟨Bool.eq_false_iff.mpr fun hdigit => ?_, hother (by decide)⟩
    have := (isDigit_bounds hdigit).2
    omega

theorem numeralPart_apart {c : Char} (h : isNumeralPart c = true) :
    isBlank c = false ∧ c ≠ ';' ∧ c ∉ symbols ∧ isWordStart c = false := by
  have hword : isWordStart c = false := by
    rw [Bool.eq_false_iff]
    intro hstart
    rw [(wordStart_apart hstart).2.2.2] at h
    cases h
  simp only [isNumeralPart, Bool.or_eq_true, beq_iff_eq] at h
  rcases h with h | rfl
  · have hbounds := isDigit_bounds h
    have hother {d : Char} (hd : d.toNat < 0x30 ∨ 0x39 < d.toNat) : c ≠ d := by
      rintro rfl
      omega
    refine ⟨Bool.eq_false_iff.mpr fun hblank => ?_, hother (by decide), fun hmem => ?_, hword⟩
    · rcases isBlank_cases hblank with hle | hle <;> omega
    · have hsymbols : ∀ d ∈ symbols, d.toNat < 0x30 ∨ 0x39 < d.toNat := by simp [symbols]
      exact hother (hsymbols c hmem) rfl
  · exact ⟨rfl, by decide, by decide, hword⟩

theorem symbol_apart {c : Char} (h : c ∈ symbols) :
    isBlank c = false ∧ c ≠ ';' ∧ isNumeralPart c = false ∧ isWordStart c = false := by
  have hall : ∀ d ∈ symbols, isBlank d = false ∧ d ≠ ';' ∧ isNumeralPart d = false ∧
      isWordStart d = false := List.all_iff_forall_prop.mp (by decide)
  exact hall c h

theorem start_apart {c : Char} (h : isStart c = true) : isBlank c = false ∧ c ≠ ';' := by
  simp only [isStart, Bool.or_eq_true, decide_eq_true_eq] at h
  rcases h with (h | h) | h
  · exact ⟨(symbol_apart h).1, (symbol_apart h).2.1⟩
  · exact ⟨(numeralPart_apart h).1, (numeralPart_apart h).2.1⟩
  · exact ⟨(wordStart_apart h).1, (wordStart_apart h).2.1⟩

theorem Lexeme.eq_nil_of_symbol {c : Char} {w : List Char} (h : Lexeme (c :: w))
    (hc : c ∈ symbols) : w = [] := by
  obtain ⟨-, -, hnumeral, hword⟩ := symbol_apart hc
  cases h with
  | symbol => rfl
  | numeral _ hparts =>
      rw [hparts c List.mem_cons_self] at hnumeral
      cases hnumeral
  | word hstart =>
      rw [hstart] at hword
      cases hword

theorem Lexeme.numeral_of_part {c : Char} {w : List Char} (h : Lexeme (c :: w))
    (hc : isNumeralPart c = true) :
    (∀ d ∈ c :: w, isNumeralPart d = true) ∧ (c :: w).count '.' ≤ 1 := by
  obtain ⟨-, -, hsymbol, hword⟩ := numeralPart_apart hc
  cases h with
  | symbol hmem => exact absurd hmem hsymbol
  | numeral _ hparts hpoint => exact ⟨hparts, hpoint⟩
  | word hstart =>
      rw [hstart] at hword
      cases hword

theorem Lexeme.word_of_start {c : Char} {w : List Char} (h : Lexeme (c :: w))
    (hc : isWordStart c = true) : ∀ d ∈ w, isWordPart d = true := by
  obtain ⟨-, -, hsymbol, hnumeral⟩ := wordStart_apart hc
  cases h with
  | symbol hmem => exact absurd hmem hsymbol
  | numeral _ hparts =>
      rw [hparts c List.mem_cons_self] at hnumeral
      cases hnumeral
  | word _ hparts => exact hparts

structure Longest (w rest : List Char) : Prop where
  lexeme : Lexeme w
  longest : ∀ w', Lexeme w' → w' <+: w ++ rest → w'.length ≤ w.length

theorem Longest.unique {w w' rest rest' : List Char} (h : Longest w rest) (h' : Longest w' rest')
    (heq : w ++ rest = w' ++ rest') : w = w' ∧ rest = rest' := by
  have hge : w'.length ≤ w.length := h.longest w' h'.lexeme (heq ▸ List.prefix_append w' rest')
  have hle : w.length ≤ w'.length := h'.longest w h.lexeme (heq ▸ List.prefix_append w rest)
  exact List.append_inj heq (Nat.le_antisymm hle hge)

theorem longest_of_blocked {w rest : List Char} (hw : Lexeme w)
    (hnext : ∀ d ∈ rest.head?, ∀ tail, ¬ Lexeme (w ++ d :: tail)) : Longest w rest := by
  refine ⟨hw, fun w' hw' hprefix => Nat.not_lt.mp fun hlt => ?_⟩
  obtain ⟨tail, rfl⟩ :=
    List.prefix_of_prefix_length_le (List.prefix_append w rest) hprefix (Nat.le_of_lt hlt)
  cases tail with
  | nil => simp at hlt
  | cons d tail =>
      obtain ⟨rest', rfl⟩ := (List.prefix_append_right_inj w).mp hprefix
      exact hnext d rfl tail hw'

theorem not_of_mem_head?_dropWhile {p : Char → Bool} {cs : List Char} {d : Char}
    (h : d ∈ (cs.dropWhile p).head?) : p d = false := by
  have hnot := List.head?_dropWhile_not p cs
  rw [h] at hnot
  simpa using hnot

theorem longest_symbol {c : Char} (h : c ∈ symbols) (rest : List Char) : Longest [c] rest := by
  refine longest_of_blocked (.symbol h) fun d _ tail hlexeme => ?_
  cases hlexeme.eq_nil_of_symbol h

theorem longest_word {c : Char} (h : isWordStart c = true) (rest : List Char) :
    Longest (c :: rest.takeWhile isWordPart) (rest.dropWhile isWordPart) := by
  refine longest_of_blocked (.word h fun d hd => List.mem_takeWhile_imp hd) fun d hd tail hlexeme => ?_
  have hpart := hlexeme.word_of_start h d (by simp)
  rw [not_of_mem_head?_dropWhile hd] at hpart
  cases hpart

def Numeral.text (n : Numeral) : List Char := n.whole ++ n.places.elim [] ('.' :: ·)

theorem Numeral.length_text (n : Numeral) : n.text.length = n.length := by
  obtain ⟨whole, places⟩ := n
  cases places with
  | none => simp [text, length]
  | some places => simp [text, length]; omega

theorem isNumeralPart_of_digit {c : Char} (h : c.isDigit = true) : isNumeralPart c = true := by
  simp [isNumeralPart, h]

theorem count_point_of_digits {ds : List Char} (h : ∀ d ∈ ds, d.isDigit = true) :
    ds.count '.' = 0 := by
  rw [List.count_eq_zero]
  intro hmem
  exact absurd (h '.' hmem) (by decide)

theorem longest_numeral {w rest : List Char} (hne : w ≠ [])
    (hparts : ∀ c ∈ w, isNumeralPart c = true) (hpoint : w.count '.' ≤ 1)
    (hnext : ∀ d ∈ rest.head?, d.isDigit = false ∧ (d = '.' → '.' ∈ w)) : Longest w rest := by
  refine longest_of_blocked (.numeral hne hparts hpoint) fun d hd tail hlexeme => ?_
  obtain ⟨hdigit, hmem⟩ := hnext d hd
  -- What goes on with `d` has two points.
  cases w with
  | nil => exact hne rfl
  | cons c w =>
      rw [List.cons_append] at hlexeme
      obtain ⟨hall, hcount⟩ := hlexeme.numeral_of_part (hparts c List.mem_cons_self)
      have hd : d = '.' := by simpa [isNumeralPart, hdigit] using hall d (by simp)
      have hfirst : 0 < (c :: w).count '.' := List.count_pos_iff.mpr (hmem hd)
      have hsecond : 0 < (d :: tail).count '.' := List.count_pos_iff.mpr (by simp [hd])
      rw [← List.cons_append, List.count_append] at hcount
      omega

structure Numeral.Digits (n : Numeral) : Prop where
  whole : ∀ d ∈ n.whole, d.isDigit = true
  places : ∀ d ∈ n.places.getD [], d.isDigit = true

namespace Numeral.Digits

variable {n : Numeral}

theorem isNumeralPart (h : n.Digits) : ∀ c ∈ n.text, isNumeralPart c = true := by
  obtain ⟨whole, places⟩ := n
  intro c hc
  cases places with
  | none =>
      simp only [Numeral.text, Option.elim_none, List.append_nil] at hc
      exact isNumeralPart_of_digit (h.whole c hc)
  | some places =>
      simp only [Numeral.text, Option.elim_some, List.mem_append, List.mem_cons] at hc
      rcases hc with hc | rfl | hc
      · exact isNumeralPart_of_digit (h.whole c hc)
      · rfl
      · exact isNumeralPart_of_digit (h.places c hc)

theorem count_point (h : n.Digits) : n.text.count '.' ≤ 1 := by
  obtain ⟨whole, places⟩ := n
  have hwhole : whole.count '.' = 0 := count_point_of_digits h.whole
  cases places with
  | none => simp [Numeral.text, hwhole]
  | some places =>
      have hplaces : places.count '.' = 0 := count_point_of_digits h.places
      simp [Numeral.text, hwhole, hplaces]

end Numeral.Digits

theorem Numeral.digits_cut (cs : List Char) : (cut cs).Digits := by
  have hdigits (cs : List Char) : ∀ d ∈ cs.takeWhile Char.isDigit, d.isDigit = true :=
    fun d hd => List.mem_takeWhile_imp hd
  unfold cut
  split
  · exact ⟨hdigits cs, hdigits _⟩
  · exact ⟨hdigits cs, by simp⟩

theorem longest_numeral_cut {c : Char} (h : isNumeralPart c = true) (rest : List Char) :
    ∃ tail, c :: rest = (Numeral.cut (c :: rest)).text ++ tail ∧
      Longest (Numeral.cut (c :: rest)).text tail := by
  have hsplit : (c :: rest).takeWhile Char.isDigit ++ (c :: rest).dropWhile Char.isDigit = c :: rest :=
    List.takeWhile_append_dropWhile
  have hdigits := Numeral.digits_cut (c :: rest)
  have hparts := hdigits.isNumeralPart
  have hpoint := hdigits.count_point
  revert hparts hpoint
  unfold Numeral.cut
  split
  next places hplaces =>
    intro hparts hpoint
    refine ⟨places.dropWhile Char.isDigit, ?_, longest_numeral ?_ hparts hpoint ?_⟩
    · simp only [Numeral.text, Option.elim_some, List.append_assoc, List.cons_append,
        List.takeWhile_append_dropWhile, ← hplaces, hsplit]
    · simp [Numeral.text]
    · exact fun d hd => ⟨not_of_mem_head?_dropWhile hd, fun _ => by simp [Numeral.text]⟩
  next hnone =>
    intro hparts hpoint
    have hdigit : c.isDigit = true := by
      by_contra hnot
      have hpoint : c = '.' := by simpa [isNumeralPart, hnot] using h
      refine hnone rest ?_
      rw [List.dropWhile_cons_of_neg hnot, hpoint]
    refine ⟨(c :: rest).dropWhile Char.isDigit, ?_, longest_numeral ?_ hparts hpoint ?_⟩
    · simp only [Numeral.text, Option.elim_none, List.append_nil, hsplit]
    · simp [Numeral.text, List.takeWhile_cons_of_pos hdigit]
    · intro d hd
      refine ⟨not_of_mem_head?_dropWhile hd, fun hpoint => ?_⟩
      subst hpoint
      obtain ⟨tail, htail⟩ := List.head?_eq_some_iff.mp hd
      exact absurd htail (hnone tail)

def ofLexeme : List Char → Token
  | [] => .stop
  | c :: rest =>
      match ofSymbol? c with
      | some token => token
      | none =>
          if isNumeralPart c then
            .number (Number.ofDigits ((c :: rest).takeWhile Char.isDigit)
              (((c :: rest).dropWhile Char.isDigit).drop 1))
          else ofWord (c :: rest)

theorem ofSymbol?_of_mem {c : Char} (h : c ∈ symbols) : ∃ token, ofSymbol? c = some token := by
  have hall : ∀ d ∈ symbols, (ofSymbol? d).isSome = true := List.all_eq_true.mp (by decide)
  exact Option.isSome_iff_exists.mp (hall c h)

theorem ofSymbol?_of_not_mem {c : Char} (h : c ∉ symbols) : ofSymbol? c = none := by
  simp only [symbols, List.mem_cons, List.not_mem_nil, or_false, not_or] at h
  obtain ⟨hadd, hsub, hmul, hdiv, hopening, hclosing⟩ := h
  have hoperator : Operator.ofSymbol? c = none := by
    unfold Operator.ofSymbol?
    split <;> first | contradiction | rfl
  unfold ofSymbol?
  split
  · contradiction
  · contradiction
  · rw [hoperator]
    rfl

theorem Numeral.value?_eq {n : Numeral} (hne : n.text ≠ [])
    (hwhole : ∀ d ∈ n.whole, d.isDigit = true) :
    n.value? = if n.text = ['.'] then none
      else some (Number.ofDigits n.whole (n.places.getD [])) := by
  obtain ⟨whole, places⟩ := n
  cases whole with
  | nil =>
      cases places with
      | none => exact absurd rfl hne
      | some places => cases places <;> simp [value?, text]
  | cons d whole =>
      have hd : d ≠ '.' := by
        rintro rfl
        exact absurd (hwhole '.' List.mem_cons_self) (by decide)
      simp [value?, text, hd]

theorem ofLexeme_numeral {n : Numeral} {c : Char} (hhead : n.text.head? = some c)
    (hc : isNumeralPart c = true) (hwhole : ∀ d ∈ n.whole, d.isDigit = true) :
    ofLexeme n.text = .number (Number.ofDigits n.whole (n.places.getD [])) := by
  have htake : n.text.takeWhile Char.isDigit = n.whole := by
    rw [Numeral.text, List.takeWhile_append_of_pos hwhole]
    cases n.places <;> simp
  have hdrop : (n.text.dropWhile Char.isDigit).drop 1 = n.places.getD [] := by
    rw [Numeral.text, List.dropWhile_append_of_pos hwhole]
    cases n.places <;> simp
  obtain ⟨w, hw⟩ := List.head?_eq_some_iff.mp hhead
  have hsymbol := ofSymbol?_of_not_mem (numeralPart_apart hc).2.2.1
  rw [← htake, ← hdrop, hw]
  simp [ofLexeme, hsymbol, hc]

theorem cut_numeral {c : Char} {rest : List Char} (h : isNumeralPart c = true) :
    cut c rest = (Numeral.cut (c :: rest)).value?.elim (.error .loneDot) fun x =>
      .ok ⟨some (.number x), (Numeral.cut (c :: rest)).length - 1⟩ := by
  obtain ⟨hblank, hsemicolon, hsymbol, -⟩ := numeralPart_apart h
  have hpart : (c.isDigit || decide (c = '.')) = true := h
  simp only [cut, hblank, hsemicolon, ofSymbol?_of_not_mem hsymbol, hpart, Bool.false_eq_true,
    if_false, if_true]
  cases (Numeral.cut (c :: rest)).value? <;> rfl

theorem cut_word {c : Char} {rest : List Char} (h : isWordStart c = true) :
    cut c rest = .ok ⟨some (ofWord (c :: rest.takeWhile isWordPart)),
      (rest.takeWhile isWordPart).length⟩ := by
  obtain ⟨hblank, hsemicolon, hsymbol, hnumeral⟩ := wordStart_apart h
  have hpart : (c.isDigit || decide (c = '.')) = false := hnumeral
  simp only [cut, hblank, hsemicolon, ofSymbol?_of_not_mem hsymbol, hpart, h, Bool.false_eq_true,
    if_false, if_true]

theorem cut_stray {c : Char} (hblank : isBlank c = false) (hsemicolon : c ≠ ';')
    (h : isStart c = false) (rest : List Char) : cut c rest = .error (.strayCharacter c) := by
  simp only [isStart, Bool.or_eq_false_iff, decide_eq_false_iff_not] at h
  obtain ⟨⟨hsymbol, hnumeral⟩, hword⟩ := h
  have hpart : (c.isDigit || decide (c = '.')) = false := hnumeral
  simp only [cut, hblank, hsemicolon, ofSymbol?_of_not_mem hsymbol, hpart, hword,
    Bool.false_eq_true, if_false]

theorem cut_of_isStart {c : Char} (h : isStart c = true) (rest : List Char) :
    ∃ w tail, c :: rest = w ++ tail ∧ Longest w tail ∧ cut c rest =
      if w = ['.'] then .error .loneDot else .ok ⟨some (ofLexeme w), w.length - 1⟩ := by
  obtain ⟨hblank, hsemicolon⟩ := start_apart h
  simp only [isStart, Bool.or_eq_true, decide_eq_true_eq] at h
  rcases h with (h | h) | h
  · obtain ⟨token, htoken⟩ := ofSymbol?_of_mem h
    have hpoint : c ≠ '.' := by
      rintro rfl
      exact absurd h (by decide)
    refine ⟨[c], rest, rfl, longest_symbol h rest, ?_⟩
    simp [cut, hblank, hsemicolon, htoken, ofLexeme, hpoint]
  · obtain ⟨tail, htext, hlongest⟩ := longest_numeral_cut h rest
    have hsymbol := ofSymbol?_of_not_mem (numeralPart_apart h).2.2.1
    have hwhole := (Numeral.digits_cut (c :: rest)).whole
    have hne := hlongest.lexeme.ne_nil
    have hhead : (Numeral.cut (c :: rest)).text.head? = some c := by
      obtain ⟨d, w, hw⟩ := List.exists_cons_of_ne_nil hne
      have hfirst := congrArg List.head? htext
      rw [hw] at hfirst ⊢
      exact hfirst.symm
    refine ⟨_, tail, htext, hlongest, ?_⟩
    rw [cut_numeral h, Numeral.value?_eq hne hwhole, ofLexeme_numeral hhead h hwhole,
      Numeral.length_text]
    by_cases hpoint : (Numeral.cut (c :: rest)).text = ['.']
    · rw [if_pos hpoint, if_pos hpoint]
      rfl
    · rw [if_neg hpoint, if_neg hpoint]
      rfl
  · have hpoint : c ≠ '.' := by
      rintro rfl
      exact absurd h (by decide)
    have hsymbol := ofSymbol?_of_not_mem (wordStart_apart h).2.2.1
    refine ⟨c :: rest.takeWhile isWordPart, rest.dropWhile isWordPart, ?_, longest_word h rest, ?_⟩
    · rw [List.cons_append, List.takeWhile_append_dropWhile]
    · rw [cut_word h, if_neg (fun heq => hpoint (List.cons.inj heq).1)]
      simp [ofLexeme, hsymbol, (wordStart_apart h).2.2.2]

/-- Text that is skipped before `rest`: blanks, and comments with the newline that ends them. Only
at the end of all text may a comment have none. -/
inductive Trivia (rest : List Char) : List Char → Prop
  | nil : Trivia rest []
  | blank {c : Char} {gap : List Char} (h : isBlank c = true) (hgap : Trivia rest gap) :
      Trivia rest (c :: gap)
  | comment {note gap : List Char} (h : '\n' ∉ note) (hgap : Trivia rest gap) :
      Trivia rest (';' :: (note ++ '\n' :: gap))
  | lastComment {note : List Char} (h : '\n' ∉ note) (hrest : rest = []) :
      Trivia rest (';' :: note)

structure Piece where
  gap : List Char
  lexeme : List Char

structure Cutting where
  pieces : List Piece
  gap : List Char
  rest : List Char

def Piece.text (p : Piece) : List Char := p.gap ++ p.lexeme

def Cutting.text (cutting : Cutting) : List Char :=
  cutting.pieces.flatMap Piece.text ++ (cutting.gap ++ cutting.rest)

inductive Cuts : List Char → Cutting → Prop
  | ended {gap : List Char} (hgap : Trivia [] gap) : Cuts gap ⟨[], gap, []⟩
  | stuck {gap : List Char} {c : Char} {rest : List Char} (hgap : Trivia (c :: rest) gap)
      (hblank : isBlank c = false) (hsemicolon : c ≠ ';') (hlexeme : ∀ w, ¬ Lexeme (c :: w)) :
      Cuts (gap ++ c :: rest) ⟨[], gap, c :: rest⟩
  | cut {gap w cs rest final : List Char} {pieces : List Piece} (hgap : Trivia (w ++ cs) gap)
      (hw : Longest w cs) (hcuts : Cuts cs ⟨pieces, final, rest⟩) :
      Cuts (gap ++ (w ++ cs)) ⟨⟨gap, w⟩ :: pieces, final, rest⟩

theorem Cuts.text_eq {cs : List Char} {cutting : Cutting} (h : Cuts cs cutting) :
    cutting.text = cs := by
  induction h with
  | ended => simp [Cutting.text]
  | stuck => simp [Cutting.text]
  | cut _ _ _ ih =>
      rw [← ih]
      simp [Cutting.text, Piece.text]

def Bare (cs : List Char) : Prop := ∀ c ∈ cs.head?, isBlank c = false ∧ c ≠ ';'

theorem Longest.bare {w cs : List Char} (h : Longest w cs) : Bare (w ++ cs) := by
  obtain ⟨c, w', rfl⟩ := List.exists_cons_of_ne_nil h.lexeme.ne_nil
  intro d hd
  cases hd
  exact start_apart h.lexeme.isStart

theorem bare_nil : Bare [] := by
  intro c hc
  cases hc

theorem exists_trivia (cs : List Char) :
    ∃ gap rest, cs = gap ++ rest ∧ Trivia rest gap ∧ Bare rest := by
  induction hn : cs.length using Nat.strongRecOn generalizing cs with
  | ind n ih =>
      cases cs with
      | nil => exact ⟨[], [], rfl, .nil, bare_nil⟩
      | cons c cs =>
          by_cases hblank : isBlank c = true
          · obtain ⟨gap, rest, rfl, hgap, hrest⟩ := ih cs.length (by simp at hn; omega) cs rfl
            exact ⟨c :: gap, rest, rfl, .blank hblank hgap, hrest⟩
          by_cases hsemicolon : c = ';'
          · subst hsemicolon
            by_cases hnewline : '\n' ∈ cs
            · obtain ⟨note, after, rfl, hnote⟩ := List.eq_append_cons_of_mem hnewline
              obtain ⟨gap, rest, rfl, hgap, hrest⟩ := ih after.length (by simp at hn; omega) after rfl
              exact ⟨';' :: (note ++ '\n' :: gap), rest, by simp, .comment hnote hgap, hrest⟩
            · exact ⟨';' :: cs, [], by simp, .lastComment hnewline rfl, bare_nil⟩
          · refine ⟨[], c :: cs, rfl, .nil, fun d hd => ?_⟩
            cases hd
            exact ⟨Bool.eq_false_iff.mpr hblank, hsemicolon⟩

theorem not_bare_blank {c : Char} {cs : List Char} (h : isBlank c = true) : ¬ Bare (c :: cs) := by
  intro hbare
  rw [(hbare c rfl).1] at h
  cases h

theorem not_bare_semicolon {cs : List Char} : ¬ Bare (';' :: cs) :=
  fun hbare => (hbare ';' rfl).2 rfl

theorem Trivia.unique {gap gap' rest rest' : List Char} (h : Trivia rest gap)
    (h' : Trivia rest' gap') (hbare : Bare rest) (hbare' : Bare rest')
    (heq : gap ++ rest = gap' ++ rest') : gap = gap' ∧ rest = rest' := by
  -- The first character tells what kind of trivia comes next, and a comment ends at a newline.
  induction h generalizing gap' with
  | nil =>
      cases h' with
      | nil => exact ⟨rfl, heq⟩
      | blank hblank =>
          rw [List.nil_append] at heq
          exact absurd (heq ▸ hbare) (not_bare_blank hblank)
      | comment | lastComment =>
          rw [List.nil_append] at heq
          exact absurd (heq ▸ hbare) not_bare_semicolon
  | blank hblank _ ih =>
      cases h' with
      | nil =>
          rw [List.nil_append] at heq
          exact absurd (heq ▸ hbare') (not_bare_blank hblank)
      | blank _ hgap' =>
          obtain ⟨rfl, htail⟩ := List.cons.inj heq
          obtain ⟨rfl, rfl⟩ := ih hgap' htail
          exact ⟨rfl, rfl⟩
      | comment | lastComment =>
          obtain ⟨rfl, -⟩ := List.cons.inj heq
          cases hblank
  | comment hnote _ ih =>
      cases h' with
      | nil =>
          rw [List.nil_append] at heq
          exact absurd (heq ▸ hbare') not_bare_semicolon
      | blank hblank =>
          obtain ⟨rfl, -⟩ := List.cons.inj heq
          cases hblank
      | comment hnote' hgap' =>
          simp only [List.cons_append, List.append_assoc, List.cons.injEq, true_and] at heq
          obtain ⟨rfl, htail⟩ := append_cons_inj_of_not_mem hnote hnote' heq
          obtain ⟨rfl, rfl⟩ := ih hgap' htail
          exact ⟨rfl, rfl⟩
      | lastComment hnote' hrest' =>
          subst hrest'
          simp only [List.cons_append, List.append_assoc, List.cons.injEq, true_and,
            List.append_nil] at heq
          exact absurd (heq ▸ by simp) hnote'
  | lastComment hnote hrest =>
      subst hrest
      cases h' with
      | nil =>
          rw [List.nil_append] at heq
          exact absurd (heq ▸ hbare') not_bare_semicolon
      | blank hblank =>
          obtain ⟨rfl, -⟩ := List.cons.inj heq
          cases hblank
      | comment hnote' hgap' =>
          simp only [List.cons_append, List.append_assoc, List.cons.injEq, true_and,
            List.append_nil] at heq
          exact absurd (heq ▸ by simp) hnote
      | lastComment hnote' hrest' =>
          subst hrest'
          simpa using heq

theorem exists_cuts (cs : List Char) : ∃ cutting, Cuts cs cutting := by
  induction hn : cs.length using Nat.strongRecOn generalizing cs with
  | ind n ih =>
      obtain ⟨gap, rest, rfl, hgap, hrest⟩ := exists_trivia cs
      cases rest with
      | nil =>
          rw [List.append_nil]
          exact ⟨_, .ended hgap⟩
      | cons c rest =>
          by_cases hstart : isStart c = true
          · obtain ⟨w, tail, heq, hw, -⟩ := cut_of_isStart hstart rest
            rw [heq] at hn hgap ⊢
            have hpos := List.length_pos_iff.mpr hw.lexeme.ne_nil
            obtain ⟨⟨pieces, final, last⟩, hcuts⟩ :=
              ih tail.length (by simp only [List.length_append] at hn; omega) tail rfl
            exact ⟨_, .cut hgap hw hcuts⟩
          · obtain ⟨hblank, hsemicolon⟩ := hrest c rfl
            exact ⟨_, .stuck hgap hblank hsemicolon fun w hw => hstart hw.isStart⟩

theorem bare_cons {c : Char} (hblank : isBlank c = false) (hsemicolon : c ≠ ';')
    (rest : List Char) : Bare (c :: rest) := by
  intro d hd
  cases hd
  exact ⟨hblank, hsemicolon⟩

theorem Longest.exists_lexeme {w cs rest : List Char} {c : Char} (h : Longest w cs)
    (heq : w ++ cs = c :: rest) : ∃ w', Lexeme (c :: w') := by
  obtain ⟨d, w', rfl⟩ := List.exists_cons_of_ne_nil h.lexeme.ne_nil
  obtain ⟨rfl, -⟩ := List.cons.inj heq
  exact ⟨w', h.lexeme⟩

theorem Cuts.unique {cs cs' : List Char} {cutting cutting' : Cutting} (h : Cuts cs cutting)
    (h' : Cuts cs' cutting') (heq : cs = cs') : cutting = cutting' := by
  induction h generalizing cs' cutting' with
  | @ended gap hgap =>
      rw [← List.append_nil gap] at heq
      cases h' with
      | ended hgap' =>
          rw [← List.append_nil cs'] at heq
          obtain ⟨rfl, -⟩ := hgap.unique hgap' bare_nil bare_nil heq
          rfl
      | stuck hgap' hblank' hsemicolon' =>
          cases (hgap.unique hgap' bare_nil (bare_cons hblank' hsemicolon' _) heq).2
      | cut hgap' hw' =>
          obtain ⟨-, hnil⟩ := hgap.unique hgap' bare_nil hw'.bare heq
          exact absurd (List.append_eq_nil_iff.mp hnil.symm).1 hw'.lexeme.ne_nil
  | stuck hgap hblank hsemicolon hlexeme =>
      cases h' with
      | ended hgap' =>
          rw [← List.append_nil cs'] at heq
          cases (hgap.unique hgap' (bare_cons hblank hsemicolon _) bare_nil heq).2
      | stuck hgap' hblank' hsemicolon' =>
          obtain ⟨rfl, hrest⟩ := hgap.unique hgap' (bare_cons hblank hsemicolon _)
            (bare_cons hblank' hsemicolon' _) heq
          rw [hrest]
      | cut hgap' hw' =>
          obtain ⟨-, hrest⟩ := hgap.unique hgap' (bare_cons hblank hsemicolon _) hw'.bare heq
          obtain ⟨w, hw⟩ := hw'.exists_lexeme hrest.symm
          exact absurd hw (hlexeme w)
  | cut hgap hw _ ih =>
      cases h' with
      | ended hgap' =>
          rw [← List.append_nil cs'] at heq
          obtain ⟨-, hnil⟩ := hgap.unique hgap' hw.bare bare_nil heq
          exact absurd (List.append_eq_nil_iff.mp hnil).1 hw.lexeme.ne_nil
      | stuck hgap' hblank' hsemicolon' hlexeme' =>
          obtain ⟨-, hrest⟩ := hgap.unique hgap' hw.bare (bare_cons hblank' hsemicolon' _) heq
          obtain ⟨w, hw⟩ := hw.exists_lexeme hrest
          exact absurd hw (hlexeme' w)
      | cut hgap' hw' hcuts' =>
          obtain ⟨rfl, hrest⟩ := hgap.unique hgap' hw.bare hw'.bare heq
          obtain ⟨rfl, htail⟩ := hw.unique hw' hrest
          cases ih hcuts' htail
          rfl

def place (before : List Char) : Position :=
  ⟨1 + before.count '\n', 1 + (before.reverse.takeWhile (· ≠ '\n')).length⟩

theorem after_place (before : List Char) (c : Char) :
    (place before).after c = place (before ++ [c]) := by
  by_cases hc : c = '\n'
  · subst hc
    simp [place, Position.after, Nat.add_assoc]
  · simp [place, Position.after, hc, Nat.add_assoc]

theorem afterAll_place (before cs : List Char) :
    (place before).afterAll cs = place (before ++ cs) := by
  induction cs generalizing before with
  | nil => simp [Position.afterAll]
  | cons c cs ih =>
      change ((place before).after c).afterAll cs = _
      rw [after_place, ih, List.append_assoc, List.singleton_append]

variable {found : List Placed} {before : List Char}

theorem scan_skip {c : Char} {skipped rest : List Char}
    (h : cut c (skipped ++ rest) = .ok ⟨none, skipped.length⟩) :
    scan found (c :: (skipped ++ rest)) (place before) =
      scan found rest (place (before ++ c :: skipped)) := by
  rw [scan, h]
  dsimp only
  rw [List.drop_left, List.take_left, after_place, afterAll_place, List.append_assoc]
  rfl

theorem scan_blank {c : Char} (h : isBlank c = true) (rest : List Char) :
    scan found (c :: rest) (place before) = scan found rest (place (before ++ [c])) := by
  have hcut : cut c ([] ++ rest) = .ok ⟨none, 0⟩ := by simp [cut, h]
  exact scan_skip hcut

theorem takeWhile_note {note : List Char} (h : '\n' ∉ note) : note.takeWhile (· ≠ '\n') = note := by
  rw [List.takeWhile_eq_self_iff]
  intro c hc
  simpa using fun heq : c = '\n' => h (heq ▸ hc)

theorem scan_note {note rest : List Char} (h : '\n' ∉ note)
    (hrest : rest.takeWhile (· ≠ '\n') = []) :
    scan found (';' :: (note ++ rest)) (place before) =
      scan found rest (place (before ++ ';' :: note)) := by
  have htake : (note ++ rest).takeWhile (· ≠ '\n') = note := by
    rw [List.takeWhile_append, takeWhile_note h, if_pos rfl, hrest, List.append_nil]
  have hblank : isBlank ';' = false := rfl
  refine scan_skip ?_
  simp only [cut, hblank, Bool.false_eq_true, if_false, if_true, htake]

theorem scan_trivia {gap rest : List Char} (h : Trivia rest gap) :
    scan found (gap ++ rest) (place before) = scan found rest (place (before ++ gap)) := by
  induction h generalizing before with
  | nil => simp
  | blank hblank _ ih =>
      rw [List.cons_append, scan_blank hblank, ih, List.append_assoc]
      rfl
  | @comment note gap hnote _ ih =>
      have hends : ('\n' :: (gap ++ rest)).takeWhile (· ≠ '\n') = [] := by simp
      have hnext := @scan_note found before note ('\n' :: (gap ++ rest)) hnote hends
      rw [List.cons_append, List.append_assoc, List.cons_append, hnext,
        scan_blank isBlank_newline, ih]
      simp
  | lastComment hnote hrest =>
      subst hrest
      exact scan_note hnote rfl

theorem scan_lexeme {w cs : List Char} (h : Longest w cs) :
    scan found (w ++ cs) (place before) =
      if w = ['.'] then .error ⟨place before, .loneDot⟩
      else scan (⟨ofLexeme w, place before⟩ :: found) cs (place (before ++ w)) := by
  obtain ⟨c, w, rfl⟩ := List.exists_cons_of_ne_nil h.lexeme.ne_nil
  obtain ⟨w', tail, heq, hlongest, hcut⟩ := cut_of_isStart h.lexeme.isStart (w ++ cs)
  obtain ⟨rfl, rfl⟩ := h.unique hlongest heq
  rw [List.cons_append, scan, hcut]
  by_cases hpoint : c :: w = ['.']
  · rw [if_pos hpoint, if_pos hpoint]
  · rw [if_neg hpoint, if_neg hpoint]
    dsimp only
    rw [List.length_cons, Nat.add_sub_cancel, List.drop_left, List.take_left, after_place,
      afterAll_place, List.append_assoc]
    rfl

theorem scan_stray {c : Char} (hblank : isBlank c = false) (hsemicolon : c ≠ ';')
    (hlexeme : ∀ w, ¬ Lexeme (c :: w)) (rest : List Char) :
    scan found (c :: rest) (place before) = .error ⟨place before, .strayCharacter c⟩ := by
  have hstart : isStart c = false :=
    Bool.eq_false_iff.mpr fun hstart => hlexeme [] (lexeme_of_isStart hstart)
  rw [scan, cut_stray hblank hsemicolon hstart]

def placedFrom (before : List Char) : List Piece → List Placed
  | [] => []
  | p :: pieces =>
      ⟨ofLexeme p.lexeme, place (before ++ p.gap)⟩ :: placedFrom (before ++ p.text) pieces

theorem placedFrom_append (before : List Char) (pieces : List Piece) (p : Piece) :
    placedFrom before (pieces ++ [p]) = placedFrom before pieces ++
      [⟨ofLexeme p.lexeme, place (before ++ pieces.flatMap Piece.text ++ p.gap)⟩] := by
  induction pieces generalizing before with
  | nil => simp [placedFrom]
  | cons q pieces ih => simp [placedFrom, ih]

/-- What a cutting gives: a token for each lexeme and one for the end, or the first fault. A point
alone is at fault before a character at which no lexeme starts, which comes after all lexemes. -/
inductive Gives (cutting : Cutting) : Except SourceError (List Placed) → Prop
  | tokens (hrest : cutting.rest = []) (hpoints : ∀ p ∈ cutting.pieces, p.lexeme ≠ ['.']) :
      Gives cutting (.ok (placedFrom [] cutting.pieces ++ [⟨.stop, place cutting.text⟩]))
  | loneDot {earlier later : List Piece} {p : Piece}
      (hpieces : cutting.pieces = earlier ++ p :: later) (hp : p.lexeme = ['.'])
      (hfirst : ∀ q ∈ earlier, q.lexeme ≠ ['.']) :
      Gives cutting (.error ⟨place (earlier.flatMap Piece.text ++ p.gap), .loneDot⟩)
  | stray {c : Char} {cs : List Char} (hpoints : ∀ p ∈ cutting.pieces, p.lexeme ≠ ['.'])
      (hrest : cutting.rest = c :: cs) :
      Gives cutting (.error ⟨place (cutting.pieces.flatMap Piece.text ++ cutting.gap),
        .strayCharacter c⟩)

theorem Gives.ok_iff {cutting : Cutting} {result : Except SourceError (List Placed)}
    (h : Gives cutting result) : (∃ tokens, result = .ok tokens) ↔
      cutting.rest = [] ∧ ∀ p ∈ cutting.pieces, p.lexeme ≠ ['.'] := by
  cases h with
  | tokens hrest hpoints => exact ⟨fun _ => ⟨hrest, hpoints⟩, fun _ => ⟨_, rfl⟩⟩
  | loneDot hpieces hp =>
      constructor
      · rintro ⟨tokens, ⟨⟩⟩
      · rintro ⟨-, hpoints⟩
        exact absurd hp (hpoints _ (by simp [hpieces]))
  | stray hpoints hrest =>
      constructor
      · rintro ⟨tokens, ⟨⟩⟩
      · rintro ⟨hnil, -⟩
        rw [hrest] at hnil
        cases hnil

theorem scan_gives {cs : List Char} {cutting : Cutting} (h : Cuts cs cutting)
    {pieces : List Piece} (hpoints : ∀ p ∈ pieces, p.lexeme ≠ ['.']) :
    Gives { cutting with pieces := pieces ++ cutting.pieces }
      (scan (placedFrom [] pieces).reverse cs (place (pieces.flatMap Piece.text))) := by
  -- The pieces that were cut off so far are all good, and they are the text before `cs`.
  induction h generalizing pieces with
  | @ended gap hgap =>
      have hscan := @scan_trivia (placedFrom [] pieces).reverse (pieces.flatMap Piece.text) gap []
        hgap
      rw [List.append_nil] at hscan
      rw [hscan, scan, List.reverse_cons, List.reverse_reverse]
      have hgives := @Gives.tokens ⟨pieces ++ [], gap, []⟩ rfl (by simpa using hpoints)
      simpa [Cutting.text] using hgives
  | @stuck gap c rest hgap hblank hsemicolon hlexeme =>
      rw [scan_trivia hgap, scan_stray hblank hsemicolon hlexeme]
      have hgives := @Gives.stray ⟨pieces ++ [], gap, c :: rest⟩ c rest
        (by simpa using hpoints) rfl
      simpa using hgives
  | @cut gap w cs rest final later hgap hw _ ih =>
      rw [scan_trivia hgap, scan_lexeme hw]
      split
      next hpoint => exact @Gives.loneDot _ pieces later ⟨gap, w⟩ rfl hpoint hpoints
      next hpoint =>
        have hnext := @ih (pieces ++ [⟨gap, w⟩]) (by
          intro p hp
          rcases List.mem_append.mp hp with hp | hp
          · exact hpoints p hp
          · rw [List.mem_singleton.mp hp]
            exact hpoint)
        rw [placedFrom_append] at hnext
        simpa [Piece.text] using hnext

/-- A text has exactly one cutting, which is a cutting of all of it. Scanning gives the tokens of its
lexemes, each at its place, if the cutting reaches the end and no numeral in it is a point alone. -/
theorem ofText_gives_cutting (text : String) : ∃ cutting, Cuts text.toList cutting ∧
    (∀ cutting', Cuts text.toList cutting' → cutting' = cutting) ∧ cutting.text = text.toList ∧
    Gives cutting (ofText text) ∧
    ((∃ tokens, ofText text = .ok tokens) ↔
      cutting.rest = [] ∧ ∀ p ∈ cutting.pieces, p.lexeme ≠ ['.']) := by
  obtain ⟨cutting, hcuts⟩ := exists_cuts text.toList
  have hgives : Gives cutting (ofText text) := @scan_gives _ _ hcuts [] (by simp)
  exact ⟨cutting, hcuts, fun cutting' hcuts' => hcuts'.unique hcuts rfl, hcuts.text_eq, hgives,
    hgives.ok_iff⟩

end Token

end Niladic
