import Niladic.Proofs.Literals

namespace Niladic.Number

open Float.Model (Format UnpackedFloat)
open Float.Model.UnpackedFloat

def isSigned (x : Float) : Bool := decide (Nat.pow 2 63 ≤ x.toBits.toNat)

def signOf : UnpackedFloat → Sign
  | .notANumber => .positive
  | .infinity s | .zero s | .finite s .. => s

theorem toNat_packComponents (s : Sign) (e : BitVec 11) (m : BitVec 52) :
    (packComponents Format.binary64 s e m).toNat =
      s.toBitVec.toNat * 9223372036854775808 + e.toNat * 4503599627370496 + m.toNat := by
  unfold packComponents
  rw [BitVec.toNat_append, BitVec.toNat_append, ← Nat.shiftLeft_add_eq_or_of_lt m.isLt,
    ← Nat.shiftLeft_add_eq_or_of_lt e.isLt, Nat.shiftLeft_eq, Nat.shiftLeft_eq]
  omega

theorem pack_finite (s : Sign) {m : Nat} {e : Int} (hpos : 0 < m) :
    pack Format.binary64 (.finite s m e hpos) =
      if 2048 ≤ (e + 1023 + 52).toNat + 1 then packComponents Format.binary64 s (-1#11) 0#52
      else if m.log2 + 1 = 53 then
        packComponents Format.binary64 s (BitVec.ofNat 11 (e + 1023 + 52).toNat) (BitVec.ofNat 52 m)
      else packComponents Format.binary64 s 0#11 (BitVec.ofNat 52 m) := rfl

theorem exists_pack_finite {m : Nat} {e : Int} (hpos : 0 < m) :
    ∃ (k : BitVec 11) (n : BitVec 52), ∀ s : Sign,
      pack Format.binary64 (.finite s m e hpos) = packComponents Format.binary64 s k n := by
  by_cases hlarge : 2048 ≤ (e + 1023 + 52).toNat + 1
  · exact ⟨_, _, fun s => (pack_finite s hpos).trans (if_pos hlarge)⟩
  · by_cases hnormal : m.log2 + 1 = 53
    · exact ⟨_, _, fun s => (pack_finite s hpos).trans ((if_neg hlarge).trans (if_pos hnormal))⟩
    · exact ⟨_, _, fun s => (pack_finite s hpos).trans ((if_neg hlarge).trans (if_neg hnormal))⟩

theorem exists_pack (u : UnpackedFloat) : ∃ (e : BitVec 11) (m : BitVec 52),
    pack Format.binary64 u = packComponents Format.binary64 (signOf u) e m ∧
      (u.isNaN = false →
        pack Format.binary64 u.neg = packComponents Format.binary64 (-signOf u) e m) := by
  cases u with
  | notANumber => exact ⟨_, _, rfl, nofun⟩
  | infinity s | zero s => exact ⟨_, _, rfl, fun _ => rfl⟩
  | finite s m e hpos =>
      obtain ⟨k, n, hpack⟩ := exists_pack_finite hpos
      exact ⟨k, n, hpack s, fun _ => hpack (-s)⟩

variable {b : BitVec Format.binary64.numBits}

theorem toNat_unpackSign :
    (Sign.ofBitVec (unpackSign b)).toBitVec.toNat = b.toNat / 9223372036854775808 := by
  have hofBitVec (v : BitVec 1) : (Sign.ofBitVec v).toBitVec = v := by decide +revert
  have hlt : b.toNat < 18446744073709551616 := b.isLt
  have hbit : (unpackSign b).toNat = b.toNat / 9223372036854775808 % 2 := by
    change (BitVec.extractLsb 63 63 b).toNat = _
    rw [BitVec.extractLsb_toNat, Nat.shiftRight_eq_div_pow]
  rw [hofBitVec, hbit]
  omega

theorem packComponents_unpack :
    packComponents Format.binary64 (Sign.ofBitVec (unpackSign b)) (unpackExponent b)
      (unpackMantissa b) = b := by
  apply BitVec.eq_of_toNat_eq
  have hcomponents := toNat_packComponents (Sign.ofBitVec (unpackSign b)) (unpackExponent b)
    (unpackMantissa b)
  rw [toNat_unpackSign, toNat_unpackExponent, toNat_unpackMantissa] at hcomponents
  refine hcomponents.trans ?_
  omega

theorem pack_subnormal {s : Sign} {m : BitVec 52} {e : Int} (hpos : 0 < m.toNat) (he : e = -1074) :
    pack Format.binary64 (.finite s m.toNat e hpos) = packComponents Format.binary64 s 0#11 m := by
  have hlog : m.toNat.log2 < 52 := (Nat.log2_lt (by omega)).mpr m.isLt
  rw [pack_finite, if_neg (by omega), if_neg (by omega), BitVec.ofNat_toNat, BitVec.setWidth_eq]

theorem pack_normal {s : Sign} {e : BitVec 11} {m : BitVec 52} {n : Nat} {k : Int} (hpos : 0 < n)
    (hn : n = 4503599627370496 + m.toNat) (hk : k = e.toNat - 1075) (he : e.toNat < 2047) :
    pack Format.binary64 (.finite s n k hpos) = packComponents Format.binary64 s e m := by
  have hm := m.isLt
  have hlog : n.log2 = 52 := (Nat.log2_eq_iff (by omega)).mpr (by omega)
  have hbiased : (k + 1023 + 52).toNat = e.toNat := by omega
  have hmantissa : BitVec.ofNat 52 n = m := by
    apply BitVec.eq_of_toNat_eq
    rw [BitVec.toNat_ofNat]
    omega
  rw [pack_finite, hbiased, if_neg (by omega), if_pos (by omega), BitVec.ofNat_toNat,
    BitVec.setWidth_eq, hmantissa]

theorem unpack_cases :
    (unpack Format.binary64 b).isNaN = true ∧ unpackExponent b = -1#11 ∧ unpackMantissa b ≠ 0#52 ∨
      (unpack Format.binary64 b).isNaN = false ∧
        pack Format.binary64 (unpack Format.binary64 b) = b := by
  by_cases htop : unpackExponent b = -1#11
  · by_cases hmantissa : unpackMantissa b = 0#52
    · have hunpack : unpack Format.binary64 b = .infinity _ :=
        (if_pos htop).trans (if_pos hmantissa)
      refine .inr ⟨congrArg isNaN hunpack, Eq.trans ?_ packComponents_unpack⟩
      rw [hunpack, htop, hmantissa]
      rfl
    · have hunpack : unpack Format.binary64 b = .notANumber :=
        (if_pos htop).trans (if_neg hmantissa)
      exact .inl ⟨congrArg isNaN hunpack, htop, hmantissa⟩
  · by_cases hzero : unpackExponent b = 0#11
    · by_cases hmantissa : unpackMantissa b = 0#52
      · have hunpack : unpack Format.binary64 b = .zero _ :=
          (if_neg htop).trans ((if_pos hzero).trans (dif_pos hmantissa))
        refine .inr ⟨congrArg isNaN hunpack, Eq.trans ?_ packComponents_unpack⟩
        rw [hunpack, hzero, hmantissa]
        rfl
      · have hunpack : unpack Format.binary64 b = .finite _ _ _ _ :=
          (if_neg htop).trans ((if_pos hzero).trans (dif_neg hmantissa))
        refine .inr ⟨congrArg isNaN hunpack, Eq.trans ?_ packComponents_unpack⟩
        rw [hunpack, hzero]
        exact pack_subnormal _ rfl
    · have hunpack : unpack Format.binary64 b = .finite _ _ _ _ :=
        (if_neg htop).trans (if_neg hzero)
      refine .inr ⟨congrArg isNaN hunpack, Eq.trans ?_ packComponents_unpack⟩
      have hexponent : (unpackExponent b).toNat < 2048 := (unpackExponent b).isLt
      have hne : (unpackExponent b).toNat ≠ 2047 := fun heq => htop (BitVec.eq_of_toNat_eq heq)
      rw [hunpack]
      refine pack_normal _ ?_ rfl (by omega)
      rw [BitVec.toNat_append, ← Nat.shiftLeft_add_eq_or_of_lt (unpackMantissa b).isLt]
      rfl

theorem pack_unpack (h : (unpack Format.binary64 b).isNaN = false) :
    pack Format.binary64 (unpack Format.binary64 b) = b := by
  rcases unpack_cases with ⟨hnan, -⟩ | ⟨-, hpack⟩
  · cases h.symm.trans hnan
  · exact hpack

theorem eq_of_isNaN_unpack (hvalid : Format.binary64.Valid b)
    (h : (unpack Format.binary64 b).isNaN = true) : b = packedNaN Format.binary64 := by
  rcases unpack_cases with ⟨-, hexponent, hmantissa⟩ | ⟨hnan, -⟩
  · exact hvalid.eq_packedNaN hexponent hmantissa
  · cases h.symm.trans hnan

variable {x y : Float}

theorem isSigned_iff : isSigned x = true ↔ 9223372036854775808 ≤ x.toBits.toNat :=
  decide_eq_true_iff

theorem isSigned_eq_false_iff : isSigned x = false ↔ x.toBits.toNat < 9223372036854775808 := by
  rw [Bool.eq_false_iff, Ne, isSigned_iff, Nat.not_le]

theorem isSigned_pack {u : UnpackedFloat} (h : signOf u = .positive) :
    isSigned (.ofModel (.pack u)) = false := by
  obtain ⟨e, m, hpack, -⟩ := exists_pack u
  have he := e.isLt
  have hm := m.isLt
  have hbits : (Float.ofModel (.pack u)).toBits.toNat = _ := congrArg BitVec.toNat hpack
  have hsign : (Sign.toBitVec .positive).toNat = 0 := rfl
  rw [toNat_packComponents, h, hsign] at hbits
  rw [isSigned_eq_false_iff]
  omega

theorem signOf_of_isNaN {u : UnpackedFloat} (h : u.isNaN = true) : signOf u = .positive := by
  cases u with
  | notANumber => rfl
  | infinity | zero | finite => cases h

theorem signOf_unpack (h : isSigned x = false) : signOf x.toModel.unpack = .positive := by
  cases hnan : x.isNaN with
  | true => exact signOf_of_isNaN hnan
  | false =>
      obtain ⟨e, m, hpack, -⟩ := exists_pack x.toModel.unpack
      have hbits : x.toBits.toNat = _ :=
        congrArg BitVec.toNat ((pack_unpack hnan).symm.trans hpack)
      have hsign : (Sign.toBitVec .negative).toNat = 1 := rfl
      rw [toNat_packComponents] at hbits
      rw [isSigned_eq_false_iff] at h
      cases hs : signOf x.toModel.unpack with
      | positive => rfl
      | negative =>
          rw [hs, hsign] at hbits
          omega

theorem toBits_neg (h : x.isNaN = false) :
    (-x).toBits.toNat = (x.toBits.toNat + 9223372036854775808) % 18446744073709551616 := by
  obtain ⟨e, m, hpack, hpackNeg⟩ := exists_pack x.toModel.unpack
  have he := e.isLt
  have hm := m.isLt
  have hbits : x.toBits.toNat = _ :=
    congrArg BitVec.toNat ((pack_unpack h).symm.trans hpack)
  have hneg : (-x).toBits.toNat = _ := congrArg BitVec.toNat (hpackNeg h)
  have hsign (s : Sign) : (-s).toBitVec.toNat + s.toBitVec.toNat = 1 := by cases s <;> rfl
  have hflip := hsign (signOf x.toModel.unpack)
  rw [toNat_packComponents] at hbits hneg
  omega

theorem toBits_of_isNaN (h : x.isNaN = true) : x.toBits.toNat = 9221120237041090560 :=
  congrArg BitVec.toNat (eq_of_isNaN_unpack x.toModel.valid h)

theorem isNaN_of_isSigned (h : isSigned x = true) : x.isNaN = false := by
  rw [isSigned_iff] at h
  rw [Bool.eq_false_iff]
  intro hnan
  rw [toBits_of_isNaN hnan] at h
  omega

theorem isSigned_neg (h : isSigned x = true) : isSigned (-x) = false := by
  have hlt : x.toBits.toNat < 18446744073709551616 := x.toBits.toBitVec.isLt
  have hneg := toBits_neg (isNaN_of_isSigned h)
  rw [isSigned_iff] at h
  rw [isSigned_eq_false_iff]
  omega

theorem neg_neg_of_isSigned (h : isSigned x = true) : - -x = x := by
  have hlt : x.toBits.toNat < 18446744073709551616 := x.toBits.toBitVec.isLt
  have hneg := toBits_neg (isNaN_of_isSigned h)
  rw [isSigned_iff] at h
  have hnan : (-x).isNaN = false := by
    rw [Bool.eq_false_iff]
    intro hnan
    rw [toBits_of_isNaN hnan] at hneg
    -- Negation keeps the bits that make it one, and the only such pattern has its sign clear.
    have hx := toBits_of_nan (x := x) (by change _ / 4503599627370496 % 2048 = _; omega)
      (by change _ % 4503599627370496 ≠ _; omega)
    omega
  have hback := toBits_neg hnan
  apply toBits_injective
  omega

theorem signOf_dite {p : Prop} [Decidable p] {u : p → UnpackedFloat} {v : ¬ p → UnpackedFloat}
    (hu : ∀ h, signOf (u h) = .positive) (hv : ∀ h, signOf (v h) = .positive) :
    signOf (dite p u v) = .positive := by
  split
  next h => exact hu h
  next h => exact hv h

theorem signOf_ite {p : Prop} [Decidable p] {u v : UnpackedFloat} (hu : signOf u = .positive)
    (hv : signOf v = .positive) : signOf (if p then u else v) = .positive := by
  split
  next => exact hu
  next => exact hv

theorem signOf_roundWithAccuracy (m : Nat) (e : Int) (a : Accuracy) :
    signOf (roundWithAccuracy Format.binary64 .positive m e a) = .positive :=
  signOf_dite (fun _ => rfl) (fun _ => rfl)

theorem signOf_div {u v : UnpackedFloat} (hu : signOf u = .positive) (hv : signOf v = .positive) :
    signOf (div Format.binary64 u v) = .positive := by
  cases u with
  | notANumber => rfl
  | infinity | zero =>
      cases hu
      cases v <;> cases hv <;> rfl
  | finite =>
      cases hu
      cases v with
      | notANumber => rfl
      | infinity | zero =>
          cases hv
          rfl
      | finite =>
          cases hv
          exact signOf_roundWithAccuracy _ _ _

theorem signOf_ofNat (n : Nat) : signOf (ofNat Format.binary64 n) = .positive := by
  unfold ofNat ofInt UnpackedFloat.normalize
  split
  next h =>
    rw [Int.compare_eq_lt] at h
    omega
  next => rfl
  next => exact signOf_roundWithAccuracy _ _ _

theorem signOf_ofScientific (m : Nat) (e : Int) :
    signOf (ofScientific Format.binary64 m e) = .positive := by
  refine signOf_dite (fun _ => rfl) fun _ => ?_
  refine signOf_ite rfl (signOf_ite rfl ?_)
  exact signOf_ite (signOf_roundWithAccuracy _ _ _) (signOf_roundWithAccuracy _ _ _)

theorem isSigned_div (hx : isSigned x = false) (hy : isSigned y = false) :
    isSigned (x / y) = false :=
  isSigned_pack (signOf_div (signOf_unpack hx) (signOf_unpack hy))

theorem isSigned_powerOfTen : ∀ y ∈ Float.exactlyRepresentablePowersOfTen, isSigned y = false := by
  decide +kernel

theorem isSigned_ofDigits (whole places : List Char) : isSigned (ofDigits whole places) = false := by
  unfold ofDigits Float.ofScientific
  split
  -- Few digits are divided by a power of ten, which is exact.
  next =>
    exact isSigned_div (isSigned_pack (signOf_ofNat _)) (isSigned_powerOfTen _ (Array.getElem_mem _))
  next => exact isSigned_pack (signOf_ofScientific _ _)

end Niladic.Number
