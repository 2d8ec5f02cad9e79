import Mathlib.Data.List.Chain
import Niladic.Proofs.Cutting

namespace Niladic

namespace Text

theorem not_isBlank_of_isNumeric {c : Char} (h : isNumeric c = true) : isBlank c = false := by
  rw [Bool.eq_false_iff]
  intro hblank
  obtain ⟨r, hr, hlow, hhigh⟩ := Ranges.exists_of_has hblank
  obtain ⟨r', hr', hlow', hhigh'⟩ := Ranges.exists_of_has h
  have hapart : ∀ r ∈ blankRanges, ∀ r' ∈ numericRanges, r.2 < r'.1 ∨ r'.2 < r.1 := by
    decide +kernel
  rcases hapart r hr r' hr' with hlt | hlt <;> omega

end Text

namespace Token

open Text

def EitherCase (c letter : Char) : Prop := c = letter ∨ c = letter.toUpper

structure Numeral.Proper (n : Numeral) : Prop extends n.Digits where
  digit : n.whole ≠ [] ∨ n.places.getD [] ≠ []

inductive Spells : Token → List Char → Prop
  | operator (op : Operator) : Spells (.operator op) [op.symbol]
  | opening : Spells .opening ['(']
  | closing : Spells .closing [')']
  | keyword {k : Keyword} {w : List Char} (h : List.Forall₂ EitherCase w k.text.toList) :
      Spells (.keyword k) w
  | name {c : Char} {w : List Char} (hstart : isWordStart c = true)
      (hparts : ∀ d ∈ w, isWordPart d = true)
      (hkeyword : ∀ k : Keyword, (c :: w).map Char.toLower ≠ k.text.toList) :
      Spells (.name (String.ofList (c :: w))) (c :: w)
  | number {n : Numeral} (hn : n.Proper) :
      Spells (.number (Number.ofDigits n.whole (n.places.getD []))) n.text

def isPunctuation : Token → Bool
  | .operator _ | .opening | .closing => true
  | _ => false

theorem keyword_letters (k : Keyword) : ∀ letter ∈ k.text.toList,
    (letter.toLower = letter ∧ isAlphabetic letter = true) ∧
      letter.toUpper.toLower = letter ∧ isAlphabetic letter.toUpper = true := by
  cases k <;> exact List.all_iff_forall_prop.mp (by decide +kernel)

theorem EitherCase.toLower {k : Keyword} {c letter : Char} (h : EitherCase c letter)
    (hletter : letter ∈ k.text.toList) : c.toLower = letter ∧ isAlphabetic c = true := by
  rcases h with rfl | rfl
  · exact (keyword_letters k _ hletter).1
  · exact (keyword_letters k _ hletter).2

theorem keyword_spelled {k : Keyword} {w letters : List Char}
    (h : List.Forall₂ EitherCase w letters) (hletters : letters ⊆ k.text.toList) :
    w.map Char.toLower = letters ∧ ∀ c ∈ w, isAlphabetic c = true := by
  induction h with
  | nil => simp
  | cons hc _ ih =>
      obtain ⟨hletter, hrest⟩ := List.cons_subset.mp hletters
      obtain ⟨hlower, halphabetic⟩ := hc.toLower hletter
      obtain ⟨hlowers, hall⟩ := ih hrest
      exact ⟨by rw [List.map_cons, hlower, hlowers], List.forall_mem_cons.mpr ⟨halphabetic, hall⟩⟩

theorem exists_word_of_keyword {k : Keyword} {w : List Char}
    (h : List.Forall₂ EitherCase w k.text.toList) :
    ∃ c v, w = c :: v ∧ isWordStart c = true ∧ ∀ d ∈ v, isWordPart d = true := by
  obtain ⟨hlower, hall⟩ := keyword_spelled h (List.Subset.refl _)
  cases w with
  | nil => cases k <;> simp [Keyword.text] at hlower
  | cons c v =>
      obtain ⟨hc, hv⟩ := List.forall_mem_cons.mp hall
      exact ⟨c, v, rfl, by simp [isWordStart, hc], fun d hd => by simp [isWordPart, hv d hd]⟩

theorem ofText?_eq_none {text : String} (h : ∀ k : Keyword, text ≠ k.text) :
    Keyword.ofText? text = none := by
  unfold Keyword.ofText?
  split
  · exact absurd rfl (h .create)
  · exact absurd rfl (h .finish)
  · exact absurd rfl (h .save)
  · exact absurd rfl (h .into)
  · rfl

theorem symbol_mem (op : Operator) : op.symbol ∈ symbols := by
  cases op <;> simp [symbols, Operator.symbol]

namespace Numeral.Proper

variable {n : Numeral}

theorem exists_digit (h : n.Proper) : ∃ d ∈ n.text, d.isDigit = true := by
  obtain ⟨whole, places⟩ := n
  rcases h.digit with hne | hne
  · obtain ⟨d, hd⟩ := List.exists_mem_of_ne_nil _ hne
    exact ⟨d, List.mem_append_left _ hd, h.whole d hd⟩
  · obtain ⟨d, hd⟩ := List.exists_mem_of_ne_nil _ hne
    cases places with
    | none => cases hd
    | some places =>
        exact ⟨d, List.mem_append_right _ (List.mem_cons_of_mem _ hd), h.places d hd⟩

theorem text_ne_nil (h : n.Proper) : n.text ≠ [] := by
  obtain ⟨d, hmem, -⟩ := h.exists_digit
  exact List.ne_nil_of_mem hmem

theorem text_ne_point (h : n.Proper) : n.text ≠ ['.'] := by
  intro hpoint
  obtain ⟨d, hmem, hd⟩ := h.exists_digit
  rw [hpoint, List.mem_singleton] at hmem
  subst hmem
  cases hd

end Numeral.Proper

def Parted (rest : List Char) : Prop :=
  ∀ c ∈ rest.head?, isWordPart c = false ∧ isNumeralPart c = false

theorem parted_nil : Parted [] := by
  intro c hc
  cases hc

theorem parted_blank {c : Char} (h : isBlank c = true) (rest : List Char) : Parted (c :: rest) := by
  have hnot {p : Char → Bool} (hp : p c = true → isBlank c = false) : p c = false := by
    rw [Bool.eq_false_iff]
    intro hc
    rw [hp hc] at h
    cases h
  intro d hd
  cases hd
  refine ⟨?_, hnot fun hc => (numeralPart_apart hc).1⟩
  have hunderscore : (c == '_') = false := hnot (p := (· == '_')) fun hc => by
    rw [beq_iff_eq.mp hc]
    rfl
  simp [isWordPart, hnot not_isBlank_of_isAlphabetic, hnot not_isBlank_of_isNumeric, hunderscore]

theorem parted_semicolon (rest : List Char) : Parted (';' :: rest) := by
  intro c hc
  cases hc
  exact ⟨rfl, rfl⟩

theorem parted_symbol {c : Char} (h : c ∈ symbols) (rest : List Char) : Parted (c :: rest) := by
  have hall : ∀ d ∈ symbols, isWordPart d = false ∧ isNumeralPart d = false :=
    List.all_iff_forall_prop.mp (by decide +kernel)
  intro d hd
  cases hd
  exact hall c h

theorem parted_trivia {gap after rest : List Char} (h : Trivia after gap) (hne : gap ≠ []) :
    Parted (gap ++ rest) := by
  cases h with
  | nil => exact absurd rfl hne
  | blank hblank => exact parted_blank hblank _
  | comment => exact parted_semicolon _
  | lastComment => exact parted_semicolon _

theorem longest_word_of_parted {c : Char} {w rest : List Char} (hstart : isWordStart c = true)
    (hparts : ∀ d ∈ w, isWordPart d = true) (hrest : Parted rest) : Longest (c :: w) rest := by
  refine longest_of_blocked (.word hstart hparts) fun d hd tail hlexeme => ?_
  have hpart := hlexeme.word_of_start hstart d (by simp)
  rw [(hrest d hd).1] at hpart
  cases hpart

theorem ofLexeme_word {c : Char} (h : isWordStart c = true) (w : List Char) :
    ofLexeme (c :: w) = ofWord (c :: w) := by
  obtain ⟨-, -, hsymbol, hnumeral⟩ := wordStart_apart h
  simp [ofLexeme, ofSymbol?_of_not_mem hsymbol, hnumeral]

namespace Spells

variable {token : Token} {w rest : List Char}

theorem longest (h : Spells token w) (hrest : token.isPunctuation = true ∨ Parted rest) :
    Longest w rest := by
  cases h with
  | operator op => exact longest_symbol (symbol_mem op) rest
  | opening => exact longest_symbol (by simp [symbols]) rest
  | closing => exact longest_symbol (by simp [symbols]) rest
  | keyword h =>
      obtain ⟨c, w, rfl, hstart, hparts⟩ := exists_word_of_keyword h
      exact longest_word_of_parted hstart hparts (hrest.resolve_left (by simp [isPunctuation]))
  | name hstart hparts =>
      exact longest_word_of_parted hstart hparts (hrest.resolve_left (by simp [isPunctuation]))
  | number hn =>
      have hparted : Parted rest := hrest.resolve_left (by simp [isPunctuation])
      refine longest_numeral hn.text_ne_nil hn.isNumeralPart hn.count_point fun d hd => ?_
      have hpart := (hparted d hd).2
      rw [isNumeralPart, Bool.or_eq_false_iff, beq_eq_false_iff_ne] at hpart
      exact ⟨hpart.1, fun hpoint => absurd hpoint hpart.2⟩

theorem ne_nil (h : Spells token w) : w ≠ [] := (h.longest (.inr parted_nil)).lexeme.ne_nil

theorem ne_point (h : Spells token w) : w ≠ ['.'] := by
  intro hpoint
  cases h with
  | operator op => cases op <;> cases hpoint
  | opening => cases hpoint
  | closing => cases hpoint
  | keyword h =>
      obtain ⟨c, w, rfl, hstart, -⟩ := exists_word_of_keyword h
      cases hpoint
      cases hstart
  | name hstart =>
      cases hpoint
      cases hstart
  | number hn => exact hn.text_ne_point hpoint

theorem ofLexeme_eq (h : Spells token w) : ofLexeme w = token := by
  cases h with
  | operator op => cases op <;> rfl
  | opening => rfl
  | closing => rfl
  | @keyword k w h =>
      obtain ⟨c, v, rfl, hstart, -⟩ := exists_word_of_keyword h
      rw [ofLexeme_word hstart, ofWord, (keyword_spelled h (List.Subset.refl _)).1,
        String.ofList_toList, Keyword.ofText?_text]
  | @name c w hstart hparts hkeyword =>
      rw [ofLexeme_word hstart, ofWord, ofText?_eq_none]
      intro k heq
      exact hkeyword k (by rw [← heq, String.toList_ofList])
  | @number n hn =>
      obtain ⟨c, v, hv⟩ := List.exists_cons_of_ne_nil hn.text_ne_nil
      have hmem : c ∈ n.text := hv ▸ List.mem_cons_self
      exact ofLexeme_numeral (by rw [hv]; rfl) (hn.isNumeralPart c hmem) hn.whole

theorem parted_of_punctuation (h : Spells token w) (hpunctuation : token.isPunctuation = true) :
    Parted (w ++ rest) := by
  cases h with
  | operator op => exact parted_symbol (symbol_mem op) rest
  | opening => exact parted_symbol (by simp [symbols]) rest
  | closing => exact parted_symbol (by simp [symbols]) rest
  | keyword | name | number => cases hpunctuation

end Spells

structure Spelling where
  token : Token
  lexeme : List Char
  spells : Spells token lexeme
  gap : List Char
  trivia : Trivia lexeme gap

def Spelling.Apart (s next : Spelling) : Prop :=
  next.gap ≠ [] ∨ s.token.isPunctuation = true ∨ next.token.isPunctuation = true

structure Layout where
  spellings : List Spelling
  apart : spellings.IsChain Spelling.Apart
  final : List Char
  ending : Trivia [] final

def textOf (spellings : List Spelling) (final : List Char) : List Char :=
  spellings.flatMap (fun s => s.gap ++ s.lexeme) ++ final

def Layout.text (layout : Layout) : String := String.ofList (textOf layout.spellings layout.final)

def Layout.tokens (layout : Layout) : List Token := layout.spellings.map Spelling.token

theorem textOf_cons (s : Spelling) (spellings : List Spelling) (final : List Char) :
    textOf (s :: spellings) final = s.gap ++ (s.lexeme ++ textOf spellings final) := by
  simp [textOf]

theorem Trivia.before {gap after : List Char} (h : Trivia after gap) (hne : after ≠ [])
    (rest : List Char) : Trivia rest gap := by
  induction h with
  | nil => exact .nil
  | blank hblank _ ih => exact .blank hblank ih
  | comment hnote _ ih => exact .comment hnote ih
  | lastComment _ hnil => exact absurd hnil hne

theorem Spelling.parted (s : Spelling) (rest : List Char)
    (h : s.gap ≠ [] ∨ s.token.isPunctuation = true) : Parted (s.gap ++ (s.lexeme ++ rest)) := by
  by_cases hgap : s.gap = []
  · have hpunctuation := h.resolve_left (fun hne => hne hgap)
    rw [hgap]
    exact s.spells.parted_of_punctuation hpunctuation
  · exact parted_trivia s.trivia hgap

theorem parted_after {s : Spelling} {spellings : List Spelling} {final : List Char}
    (hapart : (s :: spellings).IsChain Spelling.Apart) (hfinal : Trivia [] final) :
    s.token.isPunctuation = true ∨ Parted (textOf spellings final) := by
  cases spellings with
  | nil =>
      right
      by_cases hne : final = []
      · rw [hne]
        exact parted_nil
      · simpa [textOf] using @parted_trivia final [] [] hfinal hne
  | cons next spellings =>
      rw [textOf_cons]
      have hnext : s.Apart next := (List.isChain_cons_cons.mp hapart).1
      rcases hnext with hgap | hself | hpunctuation
      · exact .inr (next.parted _ (.inl hgap))
      · exact .inl hself
      · exact .inr (next.parted _ (.inr hpunctuation))

def cuttingOf (spellings : List Spelling) (final : List Char) : Cutting :=
  ⟨spellings.map fun s => ⟨s.gap, s.lexeme⟩, final, []⟩

theorem cuts_textOf {spellings : List Spelling} (hapart : spellings.IsChain Spelling.Apart)
    {final : List Char} (hfinal : Trivia [] final) :
    Cuts (textOf spellings final) (cuttingOf spellings final) := by
  induction spellings with
  | nil => exact .ended hfinal
  | cons s spellings ih =>
      have hlongest : Longest s.lexeme (textOf spellings final) :=
        s.spells.longest (parted_after hapart hfinal)
      rw [textOf_cons]
      exact .cut (s.trivia.before s.spells.ne_nil _) hlongest (ih hapart.of_cons)

theorem tokens_placedFrom (before : List Char) (pieces : List Piece) :
    (placedFrom before pieces).map Placed.token = pieces.map fun p => ofLexeme p.lexeme := by
  induction pieces generalizing before with
  | nil => rfl
  | cons p pieces ih => simp [placedFrom, ih]

theorem ofLexeme_cuttingOf (spellings : List Spelling) (final : List Char) :
    ((cuttingOf spellings final).pieces.map fun p => ofLexeme p.lexeme) =
      spellings.map Spelling.token := by
  rw [cuttingOf, List.map_map]
  exact List.map_congr_left fun s _ => s.spells.ofLexeme_eq

theorem cuttingOf_ne_point (spellings : List Spelling) (final : List Char) :
    ∀ p ∈ (cuttingOf spellings final).pieces, p.lexeme ≠ ['.'] := by
  intro p hp
  obtain ⟨s, -, rfl⟩ := List.mem_map.mp hp
  exact s.spells.ne_point

theorem ofText_reads_layout_back (layout : Layout) : ∃ placed,
    ofText layout.text = .ok placed ∧ placed.map Placed.token = layout.tokens ++ [.stop] := by
  have hcuts := cuts_textOf layout.apart layout.ending
  have hgives : Gives (cuttingOf layout.spellings layout.final) (ofText layout.text) := by
    rw [ofText, Layout.text, String.toList_ofList]
    exact @scan_gives _ _ hcuts [] (by simp)
  obtain ⟨placed, hplaced⟩ := hgives.ok_iff.mpr ⟨rfl, cuttingOf_ne_point _ _⟩
  refine ⟨placed, hplaced, ?_⟩
  rw [hplaced] at hgives
  cases hgives with
  | tokens => simp [tokens_placedFrom, ofLexeme_cuttingOf, Layout.tokens]

-- A keyword in mixed case, a comment that holds another one, and a symbol with nothing around it.
theorem mixed_layout_read_back : ∃ placed, ofText "eNd;in\n.5(é" = .ok placed ∧
    placed.map Placed.token =
      [.keyword .finish, .number 0.5, .opening, .name "é", .stop] := by
  have hend : Spells (.keyword .finish) ['e', 'N', 'd'] :=
    .keyword (.cons (.inl rfl) (.cons (.inr rfl) (.cons (.inl rfl) .nil)))
  have hcomment : Trivia ['.', '5'] [';', 'i', 'n', '\n'] :=
    @Trivia.comment _ ['i', 'n'] [] (by decide) .nil
  have hnumber : Spells (.number 0.5) ['.', '5'] :=
    @Spells.number ⟨[], some ['5']⟩ ⟨⟨by simp, by simp⟩, by simp⟩
  have hname : Spells (.name "é") ['é'] :=
    @Spells.name 'é' [] (by decide) (by simp) fun k => by cases k <;> decide
  exact ofText_reads_layout_back ⟨[⟨_, _, hend, [], .nil⟩, ⟨_, _, hnumber, _, hcomment⟩,
    ⟨_, _, .opening, [], .nil⟩, ⟨_, _, hname, [], .nil⟩], by simp [Spelling.Apart, isPunctuation],
    [], .nil⟩

end Token

end Niladic
