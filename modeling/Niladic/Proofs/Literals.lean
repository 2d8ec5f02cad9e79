import Mathlib.Algebra.Order.Field.Power
import Mathlib.Data.Rat.Cast.Order
import Mathlib.Tactic.FieldSimp
import Mathlib.Tactic.Linarith
import Mathlib.Tactic.Ring
import Niladic.Number
import Niladic.Proofs.Cutting

namespace Niladic

namespace Decimal

def Scaled.value (s : Scaled) : ℚ := s.digits * 10 ^ s.exponent

theorem zpow_mul_toNat {b : ℚ} (hb : b ≠ 0) (e : ℤ) : b ^ e * b ^ (-e).toNat = b ^ e.toNat := by
  rw [← zpow_natCast, ← zpow_natCast, ← zpow_add₀ hb]
  congr 1
  omega

namespace Fraction

def lower (f : Fraction) : ℚ := (4 * f.mantissa - if f.tight then 1 else 2) * 2 ^ f.exponent / 4

def upper (f : Fraction) : ℚ := (4 * f.mantissa + 2) * 2 ^ f.exponent / 4

def Holds (f : Fraction) (x : ℚ) : Prop :=
  if f.mantissa % 2 = 0 then f.lower ≤ x ∧ x ≤ f.upper else f.lower < x ∧ x < f.upper

theorem Holds.le {f : Fraction} {x : ℚ} (h : f.Holds x) : f.lower ≤ x ∧ x ≤ f.upper := by
  unfold Holds at h
  split at h
  · exact h
  · exact ⟨h.1.le, h.2.le⟩

theorem Holds.even {f : Fraction} {x : ℚ} (h : f.Holds x) (hend : x = f.lower ∨ x = f.upper) :
    f.mantissa % 2 = 0 := by
  by_contra hodd
  rw [Holds, if_neg hodd] at h
  rcases hend with rfl | rfl
  · exact lt_irrefl _ h.1
  · exact lt_irrefl _ h.2

theorem lower_lt_upper (f : Fraction) : f.lower < f.upper := by
  have hpow : (0 : ℚ) < 2 ^ f.exponent := zpow_pos (by norm_num) _
  unfold lower upper
  split <;> nlinarith

theorem holds_of_contains {f : Fraction} {c : Nat} {k : ℤ} (hf : 0 < f.mantissa)
    (h : f.interval.contains c k = true) : f.Holds (c * 10 ^ k) := by
  -- Both ends and the decimal become natural numbers when multiplied by this denominator.
  obtain ⟨unit, hunit⟩ : ∃ d : ℚ, d = 4 * 2 ^ (-f.exponent).toNat * 10 ^ (-k).toNat := ⟨_, rfl⟩
  have hpos : 0 < unit := by rw [hunit]; positivity
  have htwo := zpow_mul_toNat (b := 2) (by norm_num) f.exponent
  have hten := zpow_mul_toNat (b := 10) (by norm_num) k
  have hdecimal : (c * 10 ^ k : ℚ) * unit = (f.interval.measure c k : ℕ) := by
    calc (c * 10 ^ k : ℚ) * unit
        = c * (4 * 2 ^ (-f.exponent).toNat) * (10 ^ k * 10 ^ (-k).toNat) := by rw [hunit]; ring
      _ = (f.interval.measure c k : ℕ) := by rw [hten]; simp [Interval.measure, interval]
  have hscaled (a : ℚ) : a * 2 ^ f.exponent / 4 * unit
      = a * 2 ^ f.exponent.toNat * 10 ^ (-k).toNat := by
    rw [hunit, ← htwo]
    ring
  have hlower : f.lower * unit = (f.interval.low * Nat.pow 10 (-k).toNat : ℕ) := by
    have hle : (if f.tight then 1 else 2) ≤ 4 * f.mantissa := by split <;> omega
    rw [lower, hscaled]
    simp only [interval, Nat.pow_eq]
    push_cast [Nat.cast_sub hle]
    split <;> simp
  have hupper : f.upper * unit = (f.interval.high * Nat.pow 10 (-k).toNat : ℕ) := by
    rw [upper, hscaled]
    simp [interval]
  unfold Holds
  simp only [Interval.contains] at h
  split
  next heven =>
    have hclosed : f.interval.closed = true := by simp [interval, heven]
    simp only [hclosed, if_true, Bool.and_eq_true, decide_eq_true_eq] at h
    constructor
    · rw [← mul_le_mul_iff_left₀ hpos, hlower, hdecimal]
      exact_mod_cast h.1
    · rw [← mul_le_mul_iff_left₀ hpos, hupper, hdecimal]
      exact_mod_cast h.2
  next hodd =>
    have hopen : f.interval.closed = false := by simp [interval, hodd]
    simp only [hopen, Bool.false_eq_true, if_false, Bool.and_eq_true, decide_eq_true_eq] at h
    constructor
    · rw [← mul_lt_mul_iff_left₀ hpos, hlower, hdecimal]
      exact_mod_cast h.1
    · rw [← mul_lt_mul_iff_left₀ hpos, hupper, hdecimal]
      exact_mod_cast h.2

theorem exact_value (f : Fraction) : f.exact.value = f.mantissa * 2 ^ f.exponent := by
  unfold exact Scaled.value
  split
  next hneg =>
    have hsplit : (10 : ℚ) ^ f.exponent = 2 ^ f.exponent * 5 ^ f.exponent := by
      rw [← mul_zpow]; norm_num
    have hfive := zpow_mul_toNat (b := 5) (by norm_num) f.exponent
    rw [show f.exponent.toNat = 0 by omega, pow_zero] at hfive
    simp only [Nat.pow_eq, Nat.cast_mul, Nat.cast_pow, Nat.cast_ofNat]
    rw [hsplit]
    calc (f.mantissa * 5 ^ (-f.exponent).toNat * (2 ^ f.exponent * 5 ^ f.exponent) : ℚ)
        = f.mantissa * 2 ^ f.exponent * (5 ^ f.exponent * 5 ^ (-f.exponent).toNat) := by ring
      _ = f.mantissa * 2 ^ f.exponent := by rw [hfive, mul_one]
  next hnonneg =>
    have htwo := zpow_natCast (2 : ℚ) f.exponent.toNat
    rw [Int.toNat_of_nonneg (by omega)] at htwo
    simp [htwo]

theorem holds_exact (f : Fraction) : f.Holds f.exact.value := by
  have hpow : (0 : ℚ) < 2 ^ f.exponent := zpow_pos (by norm_num) _
  have hlow : f.lower < f.exact.value := by
    rw [exact_value, lower]
    split <;> nlinarith
  have hhigh : f.exact.value < f.upper := by
    rw [exact_value, upper]
    nlinarith
  unfold Holds
  split
  · exact ⟨hlow.le, hhigh.le⟩
  · exact ⟨hlow, hhigh⟩

theorem holds_shortest {f : Fraction} (hf : 0 < f.mantissa) : f.Holds f.shortest.value := by
  obtain ⟨count, top, hshortest⟩ :
      ∃ count top, f.shortest = (f.interval.search count top).getD f.exact := ⟨_, _, rfl⟩
  rw [hshortest]
  cases hsearch : f.interval.search count top with
  | none => exact f.holds_exact
  | some s => exact holds_of_contains hf (Interval.contains_of_search hsearch)

def ofBits (n : Nat) : Fraction :=
  if n / 4503599627370496 = 0 then ⟨n, -1074, false⟩
  else ⟨4503599627370496 + n % 4503599627370496, (n / 4503599627370496 : ℕ) - 1075,
    n % 4503599627370496 == 0 && decide (1 < n / 4503599627370496)⟩

theorem ofBits_parity (n : Nat) : (ofBits n).mantissa % 2 = n % 2 := by
  unfold ofBits
  split
  · rfl
  · show (4503599627370496 + n % 4503599627370496) % 2 = n % 2
    omega

theorem ofBits_pos {n : Nat} (hn : 0 < n) : 0 < (ofBits n).mantissa := by
  unfold ofBits
  split
  · exact hn
  · show 0 < 4503599627370496 + n % 4503599627370496
    omega

theorem ofBits_upper (n : Nat) : (ofBits n).upper = (ofBits (n + 1)).lower := by
  unfold ofBits upper lower
  by_cases hlast : n % 4503599627370496 = 4503599627370495
  · have hdiv : (n + 1) / 4503599627370496 = n / 4503599627370496 + 1 := by omega
    have hmod : (n + 1) % 4503599627370496 = 0 := by omega
    rw [hdiv, hmod]
    by_cases hfirst : n / 4503599627370496 = 0
    · have hn : n = 4503599627370495 := by omega
      subst hn
      norm_num
    · -- The unit doubles here, and the next number is tight.
      have hpow : (2 : ℚ) ^ (((n / 4503599627370496 + 1 : ℕ) : ℤ) - 1075)
          = 2 * 2 ^ (((n / 4503599627370496 : ℕ) : ℤ) - 1075) := by
        rw [← zpow_one_add₀ (by norm_num)]
        congr 1
        omega
      have htight : 1 < n / 4503599627370496 + 1 := by omega
      simp only [hfirst, hlast, Nat.succ_ne_zero, if_false, hpow, htight]
      norm_num
      ring
  · have hdiv : (n + 1) / 4503599627370496 = n / 4503599627370496 := by omega
    have hmod : (n + 1) % 4503599627370496 = n % 4503599627370496 + 1 := by omega
    rw [hdiv, hmod]
    by_cases hfirst : n / 4503599627370496 = 0
    · simp only [hfirst, if_true, Bool.false_eq_true, if_false]
      rw [show 4 * ((n + 1 : ℕ) : ℚ) - 2 = 4 * n + 2 by push_cast; ring]
    · have htight : (n % 4503599627370496 + 1 == 0) = false := rfl
      simp only [hfirst, if_false, htight, Bool.false_and, Bool.false_eq_true]
      congr 2
      push_cast
      ring

theorem ofBits_ends_before {n n' : Nat} (h : n < n') : (ofBits n).upper ≤ (ofBits n').lower := by
  induction h with
  | refl => exact (ofBits_upper n).le
  | step _ ih => exact ih.trans ((lower_lt_upper _).le.trans (ofBits_upper _).le)

theorem ofBits_eq_of_holds {n n' : Nat} {x : ℚ} (h : (ofBits n).Holds x) (h' : (ofBits n').Holds x) :
    n = n' := by
  -- A common point can only be the end that two neighbours share, and one of them is odd.
  have apart : ∀ {a b : Nat}, (ofBits a).Holds x → (ofBits b).Holds x → ¬ a < b := by
    intro a b ha hb hlt
    have hnext : (ofBits a).upper = (ofBits (a + 1)).lower := ofBits_upper a
    rcases Nat.lt_or_ge (a + 1) b with hfar | hnear
    · have hbetween := ofBits_ends_before hfar
      have hwidth := lower_lt_upper (ofBits (a + 1))
      linarith [ha.le.2, hb.le.1]
    · obtain rfl : b = a + 1 := by omega
      have hend : x = (ofBits (a + 1)).lower := le_antisymm (ha.le.2.trans hnext.le) hb.le.1
      have heven := ha.even (.inr (hend.trans hnext.symm))
      have heven' := hb.even (.inl hend)
      rw [ofBits_parity] at heven heven'
      omega
  exact Nat.le_antisymm (Nat.le_of_not_lt (apart h' h)) (Nat.le_of_not_lt (apart h h'))

end Fraction

theorem isDigit_toDigits {n : Nat} {c : Char} (h : c ∈ Nat.toDigits 10 n) : c.isDigit :=
  Nat.isDigit_of_mem_toDigits (by decide) (by decide) h

theorem toDigits_injective {n n' : Nat} (h : Nat.toDigits 10 n = Nat.toDigits 10 n') : n = n' := by
  rw [← Nat.ofDigitChars_ten_toDigits (n := n), h, Nat.ofDigitChars_ten_toDigits]

namespace Scaled

def pointed : List Char → List Char
  | [] => []
  | place :: places => '.' :: place :: places

theorem pointed_inj {whole whole' places places' : List Char} (hwhole : '.' ∉ whole)
    (hwhole' : '.' ∉ whole') (h : whole ++ pointed places = whole' ++ pointed places') :
    whole = whole' ∧ places = places' := by
  cases places with
  | nil =>
      cases places' with
      | nil => exact ⟨List.append_cancel_right h, rfl⟩
      | cons place' places' =>
          rw [pointed, List.append_nil] at h
          rw [h] at hwhole
          simp [pointed] at hwhole
  | cons place places =>
      cases places' with
      | nil =>
          rw [pointed, pointed, List.append_nil] at h
          rw [← h] at hwhole'
          simp at hwhole'
      | cons place' places' => exact append_cons_inj_of_not_mem hwhole hwhole' h

theorem positional_split (s : Scaled) (point : Bool) :
    ∃ whole places, s.positional point = whole ++ pointed places ∧ whole ≠ [] ∧
      (∀ c ∈ whole ++ places, c.isDigit) ∧
      s.value = (Nat.ofDigitChars 10 (whole ++ places) 0 : ℕ) / 10 ^ places.length := by
  by_cases hwhole : 0 ≤ s.exponent
  · refine ⟨Nat.toDigits 10 s.digits ++ List.replicate s.exponent.toNat '0',
      if point then ['0'] else [], ?_, ?_, ?_, ?_⟩
    · unfold positional
      rw [if_pos hwhole]
      cases point <;> rfl
    · simp [Nat.toDigits_ne_nil]
    · intro c hc
      simp only [List.mem_append, List.mem_replicate] at hc
      rcases hc with (hc | ⟨-, rfl⟩) | hc
      · exact isDigit_toDigits hc
      · decide
      · cases point <;> simp at hc
        subst hc
        decide
    · have hpow := zpow_natCast (10 : ℚ) s.exponent.toNat
      rw [Int.toNat_of_nonneg hwhole] at hpow
      rw [Nat.ofDigitChars_append, Nat.ofDigitChars_append, Nat.ofDigitChars_ten_toDigits,
        Nat.ofDigitChars_replicate_zero]
      cases point with
      | false => simp [value, hpow, mul_comm]
      | true =>
          simp [value, hpow, Nat.ofDigitChars_cons]
          ring
  · obtain ⟨places, hplaces⟩ : ∃ places : ℕ, s.exponent = -places := ⟨(-s.exponent).toNat, by omega⟩
    obtain ⟨padded, hpadded⟩ : ∃ padded, padded = List.replicate
      (places + 1 - (Nat.toDigits 10 s.digits).length) '0' ++ Nat.toDigits 10 s.digits := ⟨_, rfl⟩
    have hlength : places < padded.length := by
      rw [hpadded, List.length_append, List.length_replicate]
      omega
    refine ⟨padded.take (padded.length - places), padded.drop (padded.length - places), ?_, ?_, ?_, ?_⟩
    · obtain ⟨place, rest, hrest⟩ :
          ∃ place rest, padded.drop (padded.length - places) = place :: rest := by
        apply List.exists_cons_of_ne_nil
        intro hnil
        have := List.drop_eq_nil_iff.mp hnil
        omega
      unfold positional
      rw [if_neg hwhole, hrest, pointed, ← hrest, hpadded, show (-s.exponent).toNat = places by omega]
      rfl
    · intro hnil
      have := congrArg List.length hnil
      rw [List.length_take, List.length_nil] at this
      omega
    · intro c hc
      rw [List.take_append_drop, hpadded, List.mem_append, List.mem_replicate] at hc
      rcases hc with ⟨-, rfl⟩ | hc
      · decide
      · exact isDigit_toDigits hc
    · rw [List.take_append_drop, List.length_drop, hpadded, Nat.ofDigitChars_append,
        Nat.ofDigitChars_replicate_zero, Nat.mul_zero, Nat.ofDigitChars_ten_toDigits, ← hpadded,
        show padded.length - (padded.length - places) = places by omega, value, hplaces, zpow_neg,
        zpow_natCast, div_eq_mul_inv]

theorem scientific_split (s : Scaled) :
    ∃ lead rest exponent, s.scientific = (lead :: rest) ++ 'e' :: exponent ∧ lead.isDigit ∧
      (∀ c ∈ rest, c.isDigit ∨ c = '.') ∧ (lead :: rest).filter (· ≠ '.') = Nat.toDigits 10 s.digits ∧
      ∃ n : ℕ, exponent = '-' :: Nat.toDigits 10 n ∧ s.magnitude = -n ∨
        exponent = Nat.toDigits 10 n ∧ s.magnitude = n := by
  have hexponent : ∃ n : ℕ, ∀ exponent, exponent = (if s.magnitude < 0 then
      '-' :: Nat.toDigits 10 (-s.magnitude).toNat else Nat.toDigits 10 s.magnitude.toNat) →
      exponent = '-' :: Nat.toDigits 10 n ∧ s.magnitude = -n ∨
        exponent = Nat.toDigits 10 n ∧ s.magnitude = n := by
    by_cases hneg : s.magnitude < 0
    · refine ⟨(-s.magnitude).toNat, fun exponent h => .inl ⟨?_, by omega⟩⟩
      rw [h, if_pos hneg]
    · refine ⟨s.magnitude.toNat, fun exponent h => .inr ⟨?_, by omega⟩⟩
      rw [h, if_neg hneg]
  obtain ⟨n, hn⟩ := hexponent
  have hdigits : ∀ c ∈ Nat.toDigits 10 s.digits, c.isDigit := fun c => isDigit_toDigits
  have hpoint : ∀ {c : Char}, c.isDigit → c ≠ '.' := by
    rintro c hc rfl
    exact absurd hc (by decide)
  cases htext : Nat.toDigits 10 s.digits with
  | nil => exact absurd htext Nat.toDigits_ne_nil
  | cons lead rest =>
      have hlead : lead.isDigit := hdigits lead (by simp [htext])
      have hrest : ∀ c ∈ rest, c.isDigit := fun c hc => hdigits c (by simp [htext, hc])
      have hfilter : rest.filter (· ≠ '.') = rest :=
        List.filter_eq_self.mpr fun c hc => by simpa using hpoint (hrest c hc)
      cases rest with
      | nil =>
          refine ⟨lead, [], _, ?_, hlead, by simp, by simpa using hpoint hlead, n, hn _ rfl⟩
          unfold scientific
          rw [htext]
      | cons d rest =>
          refine ⟨lead, '.' :: d :: rest, _, ?_, hlead, ?_, ?_, n, hn _ rfl⟩
          · unfold scientific
            rw [htext]
          · intro c hc
            rcases List.mem_cons.mp hc with rfl | hc
            · exact .inr rfl
            · exact .inl (hrest c hc)
          · rw [List.filter_cons_of_pos (by simpa using hpoint hlead),
              List.filter_cons_of_neg (by decide), hfilter]

theorem magnitude_eq {s s' : Scaled} (hdigits : s.digits = s'.digits)
    (h : s.magnitude = s'.magnitude) : s = s' := by
  cases s
  cases s'
  simp only [magnitude] at h hdigits
  subst hdigits
  simp only [mk.injEq, true_and]
  omega

theorem scientific_injective {s s' : Scaled} (h : s.scientific = s'.scientific) : s = s' := by
  obtain ⟨lead, rest, exponent, htext, hlead, hrest, hdigits, n, hn⟩ := s.scientific_split
  obtain ⟨lead', rest', exponent', htext', hlead', hrest', hdigits', n', hn'⟩ := s'.scientific_split
  have apart : ∀ {d : Char} {ds : List Char}, d.isDigit → (∀ c ∈ ds, c.isDigit ∨ c = '.') →
      'e' ∉ d :: ds := by
    intro d ds hd hds hmem
    rcases List.mem_cons.mp hmem with rfl | hmem
    · exact absurd hd (by decide)
    · rcases hds 'e' hmem with he | he
      · exact absurd he (by decide)
      · exact absurd he (by decide)
  rw [htext, htext'] at h
  obtain ⟨hmantissa, hexponent⟩ :=
    append_cons_inj_of_not_mem (apart hlead hrest) (apart hlead' hrest') h
  have hsame : s.digits = s'.digits := by
    apply toDigits_injective
    rw [← hdigits, ← hdigits', hmantissa]
  have hminus : ∀ m : Nat, '-' ∉ Nat.toDigits 10 m := fun m hmem =>
    absurd (isDigit_toDigits hmem) (by decide)
  apply magnitude_eq hsame
  rcases hn with ⟨hn, hs⟩ | ⟨hn, hs⟩ <;> rcases hn' with ⟨hn', hs'⟩ | ⟨hn', hs'⟩ <;>
    rw [hn, hn'] at hexponent
  · have := toDigits_injective (List.cons.inj hexponent).2
    omega
  · exact absurd (hexponent ▸ List.mem_cons_self) (hminus n')
  · exact absurd (hexponent.symm ▸ List.mem_cons_self) (hminus n)
  · have := toDigits_injective hexponent
    omega

theorem write_eq (s : Scaled) (format : Format) :
    s.write format = s.positional format.point ∨ s.write format = s.scientific := by
  unfold write
  split
  · exact .inl rfl
  · exact .inr rfl

theorem mem_positional {s : Scaled} {point : Bool} {c : Char} (h : c ∈ s.positional point) :
    c.isDigit ∨ c = '.' := by
  obtain ⟨whole, places, htext, -, hdigits, -⟩ := s.positional_split point
  rw [htext, List.mem_append] at h
  rcases h with h | h
  · exact .inl (hdigits c (List.mem_append_left _ h))
  · cases places with
    | nil => cases h
    | cons place places =>
        rcases List.mem_cons.mp h with rfl | h
        · exact .inr rfl
        · exact .inl (hdigits c (List.mem_append_right _ h))

theorem mem_scientific {s : Scaled} {c : Char} (h : c ∈ s.scientific) :
    c.isDigit ∨ c = '.' ∨ c = 'e' ∨ c = '-' := by
  obtain ⟨lead, rest, exponent, htext, hlead, hrest, -, n, hn⟩ := s.scientific_split
  rw [htext, List.mem_append, List.mem_cons, List.mem_cons] at h
  rcases h with (rfl | h) | rfl | h
  · exact .inl hlead
  · rcases hrest c h with h | h
    · exact .inl h
    · exact .inr (.inl h)
  · exact .inr (.inr (.inl rfl))
  · rcases hn with ⟨rfl, -⟩ | ⟨rfl, -⟩
    · rcases List.mem_cons.mp h with rfl | h
      · exact .inr (.inr (.inr rfl))
      · exact .inl (isDigit_toDigits h)
    · exact .inl (isDigit_toDigits h)

variable {format : Format}

theorem mem_write {s : Scaled} {c : Char} (h : c ∈ s.write format) :
    c.isDigit ∨ c = '.' ∨ c = 'e' ∨ c = '-' := by
  rcases s.write_eq format with hs | hs <;> rw [hs] at h
  · rcases mem_positional h with h | h
    · exact .inl h
    · exact .inr (.inl h)
  · exact mem_scientific h

theorem write_head (s : Scaled) (format : Format) :
    ∃ d rest, s.write format = d :: rest ∧ d.isDigit := by
  rcases s.write_eq format with hs | hs
  · obtain ⟨whole, places, htext, hne, hdigits, -⟩ := s.positional_split format.point
    obtain ⟨d, rest, rfl⟩ := List.exists_cons_of_ne_nil hne
    exact ⟨d, rest ++ pointed places, hs.trans htext, hdigits d (by simp)⟩
  · obtain ⟨lead, rest, exponent, htext, hlead, -⟩ := s.scientific_split
    exact ⟨lead, rest ++ 'e' :: exponent, hs.trans htext, hlead⟩

theorem positional_ne_scientific (s s' : Scaled) (point : Bool) :
    s.positional point ≠ s'.scientific := by
  intro h
  obtain ⟨lead, rest, exponent, htext, -⟩ := s'.scientific_split
  have hmem : 'e' ∈ s.positional point := by
    rw [h, htext]
    simp
  rcases mem_positional hmem with he | he <;> exact absurd he (by decide)

theorem positional_value {s s' : Scaled} {point : Bool}
    (h : s.positional point = s'.positional point) : s.value = s'.value := by
  obtain ⟨whole, places, htext, -, hdigits, hvalue⟩ := s.positional_split point
  obtain ⟨whole', places', htext', -, hdigits', hvalue'⟩ := s'.positional_split point
  have apart : ∀ {left right : List Char}, (∀ c ∈ left ++ right, c.isDigit) → '.' ∉ left :=
    fun h hmem => absurd (h '.' (List.mem_append_left _ hmem)) (by decide)
  rw [htext, htext'] at h
  obtain ⟨rfl, rfl⟩ := pointed_inj (apart hdigits) (apart hdigits') h
  rw [hvalue, hvalue']

theorem write_value {s s' : Scaled} (h : s.write format = s'.write format) :
    s.value = s'.value := by
  rcases s.write_eq format with hs | hs <;> rcases s'.write_eq format with hs' | hs' <;>
    rw [hs, hs'] at h
  · exact positional_value h
  · exact absurd h (positional_ne_scientific s s' _)
  · exact absurd h.symm (positional_ne_scientific s' s _)
  · rw [scientific_injective h]

end Scaled

end Decimal

namespace Number

open Decimal

theorem toBits_injective {x y : Float} (h : x.toBits.toNat = y.toBits.toNat) : x = y := by
  obtain ⟨⟨bits, valid⟩⟩ := x
  obtain ⟨⟨bits', valid'⟩⟩ := y
  have hbits : bits = bits' := UInt64.toNat_inj.mp h
  subst hbits
  rfl

theorem toNat_unpackExponent {b : BitVec Float.Model.Format.binary64.numBits} :
    (Float.Model.UnpackedFloat.unpackExponent b).toNat =
      b.toNat / 4503599627370496 % 2048 := by
  rw [Float.Model.UnpackedFloat.unpackExponent, BitVec.toNat_cast, BitVec.extractLsb_toNat,
    Nat.shiftRight_eq_div_pow]
  rfl

theorem toNat_unpackMantissa {b : BitVec Float.Model.Format.binary64.numBits} :
    (Float.Model.UnpackedFloat.unpackMantissa b).toNat = b.toNat % 4503599627370496 := by
  rw [Float.Model.UnpackedFloat.unpackMantissa, BitVec.toNat_cast, BitVec.extractLsb_toNat]
  rfl

theorem toBits_of_nan {x : Float} (hbiased : x.toBits.toNat / Nat.pow 2 52 % Nat.pow 2 11 = 2047)
    (hlow : x.toBits.toNat % Nat.pow 2 52 ≠ 0) : x.toBits.toNat = 9221120237041090560 := by
  refine congrArg BitVec.toNat (x.toModel.valid.eq_packedNaN ?_ ?_)
  · exact BitVec.eq_of_toNat_eq (toNat_unpackExponent.trans hbiased)
  · intro h
    exact hlow (toNat_unpackMantissa.symm.trans (congrArg BitVec.toNat h))

def signBit (negative : Bool) : Nat := if negative then 9223372036854775808 else 0

inductive Renders (format : Format) : Nat → Bool → List Char → Prop where
  | decimal {n : Nat} {s : Scaled} (negative : Bool) (hs : (Fraction.ofBits n).Holds s.value) :
      Renders format (n + signBit negative) negative (s.write format)
  | infinite (negative : Bool) :
      Renders format (9218868437227405312 + signBit negative) negative ['i', 'n', 'f']
  | nan : Renders format 9221120237041090560 false ['N', 'a', 'N']

def signed (negative : Bool) (body : List Char) : List Char :=
  if negative then '-' :: body else body

section

variable {format : Format} {bits bits' : Nat} {negative : Bool} {body : List Char}

theorem Renders.head (h : Renders format bits negative body) :
    ∃ c rest, body = c :: rest ∧ c ≠ '-' := by
  cases h with
  | @decimal n s _ hs =>
      obtain ⟨d, rest, htext, hd⟩ := s.write_head format
      refine ⟨d, rest, htext, ?_⟩
      rintro rfl
      exact absurd hd (by decide)
  | infinite => exact ⟨_, _, rfl, by decide⟩
  | nan => exact ⟨_, _, rfl, by decide⟩

theorem Renders.bits_eq (h : Renders format bits negative body)
    (h' : Renders format bits' negative body) : bits = bits' := by
  have apart : ∀ {s : Scaled} {c : Char} {rest : List Char}, ¬ c.isDigit →
      s.write format ≠ c :: rest := by
    intro s c rest hc heq
    obtain ⟨d, rest', htext, hd⟩ := s.write_head format
    rw [htext] at heq
    exact hc ((List.cons.inj heq).1 ▸ hd)
  cases h with
  | @decimal n s _ hs =>
      generalize hbody : s.write format = body at h'
      cases h' with
      | @decimal n' s' _ hs' =>
          rw [Fraction.ofBits_eq_of_holds hs (Scaled.write_value hbody ▸ hs')]
      | infinite => exact absurd hbody (apart (by decide))
      | nan => exact absurd hbody (apart (by decide))
  | infinite =>
      generalize hbody : ['i', 'n', 'f'] = body at h'
      cases h' with
      | decimal => exact absurd hbody.symm (apart (by decide))
      | infinite => rfl
      | nan => exact absurd hbody (by decide)
  | nan =>
      generalize hbody : ['N', 'a', 'N'] = body at h'
      cases h' with
      | decimal => exact absurd hbody.symm (apart (by decide))
      | infinite => exact absurd hbody (by decide)
      | nan => rfl

theorem write_renders (hformat : format.positional 0 = true) (x : Float) :
    ∃ negative body, Renders format x.toBits.toNat negative body ∧
      (write format x).toList = signed negative body := by
  obtain ⟨bits, hbits⟩ : ∃ bits, bits = x.toBits.toNat := ⟨_, rfl⟩
  have hlt : bits < 18446744073709551616 := by
    rw [hbits]
    exact x.toBits.toNat_lt
  obtain ⟨negative, hnegative⟩ : ∃ negative, negative = decide (9223372036854775808 ≤ bits) := ⟨_, rfl⟩
  have hsum : bits = bits % 9223372036854775808 + signBit negative := by
    unfold signBit
    by_cases h : 9223372036854775808 ≤ bits <;> simp [hnegative, h] <;> omega
  by_cases hbiased : bits / 4503599627370496 % 2048 = 2047
  · by_cases hlow : bits % 4503599627370496 = 0
    · have hread : read x = .infinite negative := by
        simp [read, ← hbits, hbiased, hlow, hnegative]
      refine ⟨negative, ['i', 'n', 'f'], ?_, ?_⟩
      · rw [← hbits, hsum, show bits % 9223372036854775808 = 9218868437227405312 by omega]
        exact .infinite negative
      · rw [write, hread]
        dsimp only
        cases negative <;> rfl
    · have hread : read x = .nan := by simp [read, ← hbits, hbiased, hlow]
      refine ⟨false, ['N', 'a', 'N'], ?_, ?_⟩
      · rw [toBits_of_nan (hbits ▸ hbiased) (hbits ▸ hlow)]
        exact .nan
      · rw [write, hread]
        dsimp only
        rfl
  · obtain ⟨n, hn⟩ : ∃ n, n = bits % 9223372036854775808 := ⟨_, rfl⟩
    rw [← hn] at hsum
    rw [← hbits, hsum]
    by_cases hzero : n = 0
    · have hread : read x = .zero negative := by
        simp [read, ← hbits, hnegative, show bits / 4503599627370496 % 2048 = 0 by omega,
          show bits % 4503599627370496 = 0 by omega]
      have hbody : (⟨0, 0⟩ : Scaled).write format = '0' :: if format.point then ['.', '0'] else [] :=
        if_pos hformat
      refine ⟨negative, (⟨0, 0⟩ : Scaled).write format, .decimal negative ?_, ?_⟩
      · have hexact := (Fraction.ofBits n).holds_exact
        rw [Fraction.exact_value, hzero] at hexact
        simpa [hzero, Scaled.value, Fraction.ofBits] using hexact
      · rw [write, hread, hbody]
        dsimp only
        cases negative <;> cases format.point <;> rfl
    · have hread : read x = .finite negative (Fraction.ofBits n) := by
        have hdiv : n / 4503599627370496 = bits / 4503599627370496 % 2048 := by omega
        have hmod : n % 4503599627370496 = bits % 4503599627370496 := by omega
        by_cases hfirst : bits / 4503599627370496 % 2048 = 0
        · have hlow : n = bits % 4503599627370496 := by omega
          simp [read, ← hbits, Fraction.ofBits, hfirst, hdiv, hnegative, ← hlow, hzero]
        · simp [read, ← hbits, Fraction.ofBits, hfirst, hdiv, hmod, hnegative, hbiased]
      have hpos : 0 < (Fraction.ofBits n).mantissa := Fraction.ofBits_pos (by omega)
      refine ⟨negative, _, .decimal negative (Fraction.holds_shortest hpos), ?_⟩
      rw [write, hread]
      cases negative with
      | false =>
          show ("" ++ String.ofList _).toList = _
          simp [signed]
      | true =>
          show ("-" ++ String.ofList _).toList = _
          simp [signed]

theorem write_injective (hformat : format.positional 0 = true) {x y : Float}
    (h : write format x = write format y) : x = y := by
  obtain ⟨negative, body, hx, htext⟩ := write_renders hformat x
  obtain ⟨negative', body', hy, htext'⟩ := write_renders hformat y
  have hsigned : signed negative body = signed negative' body' := by rw [← htext, ← htext', h]
  obtain ⟨c, rest, hbody, hc⟩ := hx.head
  obtain ⟨c', rest', hbody', hc'⟩ := hy.head
  have hsame : negative = negative' ∧ body = body' := by
    cases negative <;> cases negative' <;> simp_all [signed]
  obtain ⟨rfl, rfl⟩ := hsame
  exact toBits_injective (hx.bits_eq hy)

theorem literal_injective {x y : Float} (h : literal x = literal y) : x = y :=
  write_injective rfl h

theorem text_injective {x y : Float} (h : text x = text y) : x = y :=
  write_injective rfl h

theorem Renders.not_mem {c : Char} (h : Renders format bits negative body)
    (hc : c ∈ [',', '\n', '%', '@']) : c ∉ body := by
  simp only [List.mem_cons, List.not_mem_nil, or_false] at hc
  cases h with
  | decimal =>
      intro hmem
      have hmark := Scaled.mem_write hmem
      rcases hc with rfl | rfl | rfl | rfl <;> exact absurd hmark (by decide)
  | infinite => rcases hc with rfl | rfl | rfl | rfl <;> decide
  | nan => rcases hc with rfl | rfl | rfl | rfl <;> decide

end

theorem not_mem_literal {c : Char} (hc : c ∈ [',', '\n', '%', '@']) (x : Float) :
    c ∉ (literal x).toList := by
  obtain ⟨negative, body, hx, htext⟩ := write_renders (show marked.positional 0 = true from rfl) x
  rw [literal, htext, signed]
  split
  · rw [List.mem_cons, not_or]
    refine ⟨?_, hx.not_mem hc⟩
    rintro rfl
    exact absurd hc (by decide)
  · exact hx.not_mem hc

end Number

end Niladic
