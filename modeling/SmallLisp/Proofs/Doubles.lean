import Mathlib
import SmallLisp.Number.Decimal

/-!
# A double is its sign and its magnitude

The library takes doubles apart into a sign and a magnitude and puts them
together from the two. Nothing is lost on the way, and this file says so
(`ofMagnitude_magnitude`).

The argument goes through the three fields of the format. Packing the
fields of a bit pattern gives the pattern back, and of the four kinds of
pattern only the ones that are no number need a reason: there the format
admits a single pattern, which is what `Valid` says.

The fields also tell where the numbers end. A magnitude beyond the one of
infinity has all exponent bits set and a mantissa that is not zero, and
these are the values that are no number (`isNaN_iff`). All others are
equal to themselves (`beq_self`), and below infinity they are finite
(`isFinite_iff`).
-/

namespace SmallLisp.Binary64

open Float.Model (Format UnpackedFloat)
open Float.Model.UnpackedFloat

/-! ## The three fields -/

theorem packComponents_fields (b : BitVec Format.binary64.numBits) :
    packComponents Format.binary64 (Sign.ofBitVec (unpackSign b))
      (unpackExponent b) (unpackMantissa b) = b := by
  have hsign : (Sign.ofBitVec (unpackSign b)).toBitVec = unpackSign b := by
    generalize unpackSign b = s
    revert s
    decide
  rw [packComponents, hsign]
  ext i hi
  simp only [unpackSign, unpackExponent, unpackMantissa]
  grind

theorem toNat_unpackMantissa (b : BitVec Format.binary64.numBits) :
    (unpackMantissa b).toNat = b.toNat % 2 ^ 52 := by
  simp [unpackMantissa]

theorem toNat_unpackExponent (b : BitVec Format.binary64.numBits) :
    (unpackExponent b).toNat = b.toNat / 2 ^ 52 % 2 ^ 11 := by
  simp [unpackExponent, Nat.shiftRight_eq_div_pow]

theorem toNat_one_append (m : BitVec 52) :
    (1#1 ++ m).toNat = 2 ^ 52 + m.toNat := by
  rw [BitVec.toNat_append, ← Nat.shiftLeft_add_eq_or_of_lt m.isLt]
  simp [Nat.shiftLeft_eq]

theorem pack_subnormal (s : Sign) (m : BitVec 52) (hm : 0 < m.toNat) :
    pack Format.binary64 (.finite s m.toNat (-1074) hm) =
      packComponents Format.binary64 s 0#11 m := by
  have hlog : m.toNat.log2 < 52 := (Nat.log2_lt (by omega)).2 m.isLt
  have hbias : ((-1074 : Int) + Format.binary64.exponentBias
      + Format.binary64.mantissaBitsWithoutImplicit).toNat = 1 := rfl
  have hbits : ¬ m.toNat.log2 + 1 = Format.binary64.mantissaBits := by
    show ¬ m.toNat.log2 + 1 = 1 + 52
    omega
  simp only [UnpackedFloat.pack, hbias]
  rw [if_neg (by decide), if_neg hbits, BitVec.ofNat_toNat,
    BitVec.setWidth_eq]

theorem pack_normal (s : Sign) (e : BitVec 11) (m : BitVec 52)
    (he : e.toNat ≠ 2047) (hm : 0 < (1#1 ++ m).toNat) :
    pack Format.binary64 (.finite s (1#1 ++ m).toNat (e.toNat - 1075) hm) =
      packComponents Format.binary64 s e m := by
  have helt := e.isLt
  have hmlt := m.isLt
  have hlog : (1#1 ++ m).toNat.log2 = 52 := by
    rw [toNat_one_append, Nat.log2_eq_iff (by omega)]
    omega
  have hbias : ((e.toNat : Int) - 1075 + Format.binary64.exponentBias
      + Format.binary64.mantissaBitsWithoutImplicit).toNat = e.toNat := by
    simp only [Format.exponentBias]
    omega
  have hmant : BitVec.ofNat 52 (1#1 ++ m).toNat = m := by
    apply BitVec.eq_of_toNat_eq
    rw [toNat_one_append, BitVec.toNat_ofNat]
    omega
  simp only [UnpackedFloat.pack, hbias]
  rw [if_neg (by omega), if_pos (by rw [hlog]; rfl), hmant,
    BitVec.ofNat_toNat, BitVec.setWidth_eq]

/-- Taking a pattern of the format apart and packing it again changes
nothing. -/
theorem pack_unpack {b : BitVec Format.binary64.numBits}
    (hb : Format.binary64.Valid b) :
    pack Format.binary64 (unpack Format.binary64 b) = b := by
  conv => rhs; rw [← packComponents_fields b]
  unfold unpack
  simp only []
  split
  · next he =>
      split
      · next hm => rw [he, hm]; rfl
      · next hm =>
          rw [packComponents_fields]
          exact (hb.eq_packedNaN he hm).symm
  · next he =>
      split
      · next hz =>
          split
          · next hm => rw [hz, hm]; rfl
          · next hm =>
              have hexp : ((unpackExponent b).toNat : Int) -
                  (Format.binary64.exponentBias +
                    Format.binary64.mantissaBitsWithoutImplicit) + 1
                    = -1074 := by
                rw [hz]; rfl
              simp only [hexp]
              rw [hz]
              exact pack_subnormal _ _ _
      · next hz =>
          have hne : (unpackExponent b).toNat ≠ 2047 := by
            intro h
            exact he (BitVec.eq_of_toNat_eq (by rw [h]; rfl))
          exact pack_normal _ _ _ hne _

theorem ofBits_toBits (x : Float) : Float.ofBits x.toBits = x := by
  obtain ⟨⟨bits, hv⟩⟩ := x
  show Float.ofModel (Float.Model.ofBits bits) = _
  congr 1
  simp only [Float.Model.ofBits, Float.Model.pack, pack_unpack hv]

/-! ## Sign and magnitude -/

/-- A double is put together from its sign and its magnitude. -/
theorem ofMagnitude_magnitude (x : Float) :
    ofMagnitude (isNegative x) (magnitude x) = x := by
  have hlt := x.toBits.toNat_lt
  have hbits : (if isNegative x = true then Nat.pow 2 63 + magnitude x
      else magnitude x) = x.toBits.toNat := by
    simp only [isNegative, magnitude, decide_eq_true_eq, Nat.pow_eq]
    split <;> omega
  rw [ofMagnitude, hbits, UInt64.ofNat_toNat, ofBits_toBits]

theorem magnitude_eq (x : Float) :
    magnitude x =
      (@unpackExponent Format.binary64 x.toBits.toBitVec).toNat * 2 ^ 52 +
        (@unpackMantissa Format.binary64 x.toBits.toBitVec).toNat := by
  rw [toNat_unpackExponent, toNat_unpackMantissa]
  show x.toBits.toNat % 2 ^ 63 =
    x.toBits.toNat / 2 ^ 52 % 2 ^ 11 * 2 ^ 52 + x.toBits.toNat % 2 ^ 52
  omega

theorem isNaN_unpack (b : BitVec Format.binary64.numBits) :
    (UnpackedFloat.unpack Format.binary64 b).isNaN = true ↔
      (unpackExponent b).toNat = 2047 ∧ (unpackMantissa b).toNat ≠ 0 := by
  have hexp : unpackExponent b = -1#11 ↔ (unpackExponent b).toNat = 2047 :=
    ⟨fun h => by rw [h]; rfl, fun h => BitVec.eq_of_toNat_eq (by rw [h]; rfl)⟩
  have hmant : unpackMantissa b = 0#52 ↔ (unpackMantissa b).toNat = 0 :=
    ⟨fun h => by rw [h]; rfl, fun h => BitVec.eq_of_toNat_eq (by rw [h]; rfl)⟩
  rw [← hexp, ne_eq, ← hmant]
  unfold unpack
  simp only []
  split
  · next he =>
      split
      · next hm => simp [UnpackedFloat.isNaN, hm]
      · next hm =>
          simp only [UnpackedFloat.isNaN, true_iff]
          exact ⟨he, hm⟩
  · next he =>
      have hfin : ¬ (unpackExponent b = -1#11 ∧ ¬ unpackMantissa b = 0#52) :=
        fun h => he h.1
      split
      · split <;> simp only [UnpackedFloat.isNaN, Bool.false_eq_true, hfin]
      · simp only [UnpackedFloat.isNaN, Bool.false_eq_true, hfin]

/-- The values that are no number are those beyond infinity. -/
theorem isNaN_iff (x : Float) : x.isNaN = true ↔ infinity < magnitude x := by
  have he : (@unpackExponent Format.binary64 x.toBits.toBitVec).toNat < 2048 :=
    (@unpackExponent Format.binary64 x.toBits.toBitVec).isLt
  have hm :
      (@unpackMantissa Format.binary64 x.toBits.toBitVec).toNat < 2 ^ 52 :=
    (@unpackMantissa Format.binary64 x.toBits.toBitVec).isLt
  rw [magnitude_eq, infinity, Nat.pow_eq]
  show (UnpackedFloat.unpack Format.binary64 x.toBits.toBitVec).isNaN = true ↔ _
  rw [isNaN_unpack]
  omega

theorem isFinite_unpack (b : BitVec Format.binary64.numBits) :
    (UnpackedFloat.unpack Format.binary64 b).isFinite = true ↔
      (unpackExponent b).toNat ≠ 2047 := by
  have hexp : unpackExponent b = -1#11 ↔ (unpackExponent b).toNat = 2047 :=
    ⟨fun h => by rw [h]; rfl, fun h => BitVec.eq_of_toNat_eq (by rw [h]; rfl)⟩
  rw [ne_eq, ← hexp]
  unfold unpack
  simp only []
  split
  · next he => split <;> simp [UnpackedFloat.isFinite, he]
  · next he =>
      split
      · split <;> simpa only [UnpackedFloat.isFinite, true_iff] using he
      · simpa only [UnpackedFloat.isFinite, true_iff] using he

/-- The finite ones are those below infinity. -/
theorem isFinite_iff (x : Float) :
    x.isFinite = true ↔ magnitude x < infinity := by
  have he : (@unpackExponent Format.binary64 x.toBits.toBitVec).toNat < 2048 :=
    (@unpackExponent Format.binary64 x.toBits.toBitVec).isLt
  have hm :
      (@unpackMantissa Format.binary64 x.toBits.toBitVec).toNat < 2 ^ 52 :=
    (@unpackMantissa Format.binary64 x.toBits.toBitVec).isLt
  rw [magnitude_eq, infinity, Nat.pow_eq]
  show (UnpackedFloat.unpack Format.binary64 x.toBits.toBitVec).isFinite = true
    ↔ _
  rw [isFinite_unpack]
  omega

theorem isNaN_of_isFinite {x : Float} (h : x.isFinite = true) :
    x.isNaN = false := by
  rw [isFinite_iff] at h
  rw [← Bool.not_eq_true, isNaN_iff]
  omega

/-- A number is equal to itself. -/
theorem beq_self {x : Float} (h : x.isNaN = false) : (x == x) = true := by
  change x.toModel.unpack.isNaN = false at h
  show x.toModel.unpack.beq x.toModel.unpack = true
  generalize x.toModel.unpack = u at h ⊢
  cases u with
  | notANumber => simp [UnpackedFloat.isNaN] at h
  | infinity s => cases s <;> rfl
  | zero s => cases s <;> rfl
  | finite s m e hm =>
      cases s <;> simp [UnpackedFloat.beq, UnpackedFloat.compare]

end SmallLisp.Binary64
