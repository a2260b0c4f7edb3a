import StackScript.Number
import StackScript.Proofs.Number.Rounding
import StackScript.Proofs.Pool

/-!
Doubles and the words that encode them. A finite double is its sign and its magnitude: encoding
and decoding go forth and back between them, and negation changes only the sign.
-/

namespace StackScript

open Float.Model (UnpackedFloat)
open Float.Model.UnpackedFloat (Sign packComponents unpackSign unpackExponent unpackMantissa)

namespace Number

open Magnitude

section Fields

variable (word : BitVec 64)

theorem toNat_unpackMantissa :
    (@unpackMantissa .binary64 word).toNat = word.toNat % 2 ^ fractionBits := by
  unfold unpackMantissa
  rw [BitVec.toNat_cast, BitVec.extractLsb_toNat, Nat.shiftRight_zero]
  rfl

theorem toNat_unpackExponent :
    (@unpackExponent .binary64 word).toNat = word.toNat / 2 ^ fractionBits % 2048 := by
  unfold unpackExponent
  rw [BitVec.toNat_cast, BitVec.extractLsb_toNat, Nat.shiftRight_eq_div_pow]
  rfl

theorem toNat_unpackSign : (@unpackSign .binary64 word).toNat = word.toNat / signBit := by
  have hword := word.isLt
  unfold unpackSign signBit
  rw [BitVec.toNat_cast, BitVec.extractLsb_toNat, Nat.shiftRight_eq_div_pow]
  dsimp only
  omega

end Fields

variable {sign : Sign} {exponent : BitVec 11} {mantissa : BitVec 52}

theorem toNat_packComponents : (packComponents .binary64 sign exponent mantissa).toNat =
    sign.toBitVec.toNat * signBit + (exponent.toNat * 2 ^ fractionBits + mantissa.toNat) := by
  unfold packComponents signBit fractionBits
  rw [BitVec.toNat_append, BitVec.toNat_append, ← Nat.shiftLeft_add_eq_or_of_lt mantissa.isLt,
    ← Nat.shiftLeft_add_eq_or_of_lt exponent.isLt, Nat.shiftLeft_eq, Nat.shiftLeft_eq]
  omega

theorem toNat_one_append : (1#1 ++ mantissa).toNat = 2 ^ fractionBits + mantissa.toNat := by
  rw [BitVec.toNat_append, ← Nat.shiftLeft_add_eq_or_of_lt mantissa.isLt]
  rfl

theorem toNat_ofBitVec (bit : BitVec 1) : (Sign.ofBitVec bit).toBitVec.toNat = bit.toNat := by
  have hbit := bit.isLt
  unfold Sign.ofBitVec
  split
  · rename_i hzero
    rw [hzero]
    rfl
  · rename_i hne
    have hone : bit.toNat ≠ 0 := fun hzero => hne (BitVec.eq_of_toNat_eq hzero)
    change 1 = bit.toNat
    omega

end Number

namespace Magnitude

/-- The number in the form that arithmetic works on. -/
def unpacked (m : Magnitude) (sign : Sign) : UnpackedFloat :=
  if h : m.mantissa = 0 then .zero sign
  else .finite sign m.mantissa (m.scale - unitBits) (Nat.pos_of_ne_zero h)

theorem unpacked_of_zero {m : Magnitude} (h : m.mantissa = 0) (sign : Sign) :
    m.unpacked sign = .zero sign :=
  dif_pos h

theorem unpacked_of_ne {m : Magnitude} (h : m.mantissa ≠ 0) (sign : Sign) : m.unpacked sign =
    .finite sign m.mantissa (m.scale - unitBits) (Nat.pos_of_ne_zero h) :=
  dif_neg h

theorem neg_unpacked (m : Magnitude) (sign : Sign) :
    (m.unpacked sign).neg = m.unpacked (-sign) := by
  by_cases h : m.mantissa = 0
  · rw [unpacked_of_zero h, unpacked_of_zero h]
    rfl
  · rw [unpacked_of_ne h, unpacked_of_ne h]
    rfl

theorem isFinite_unpacked (m : Magnitude) (sign : Sign) : (m.unpacked sign).isFinite = true := by
  by_cases h : m.mantissa = 0
  · rw [unpacked_of_zero h]
    rfl
  · rw [unpacked_of_ne h]
    rfl

theorem toNat_pack {m : Magnitude} (hm : m.Canonical) (hfinite : m.toBits < infinityBits)
    (sign : Sign) : (UnpackedFloat.pack .binary64 (m.unpacked sign)).toNat =
      sign.toBitVec.toNat * Number.signBit + m.toBits := by
  have hlt := hm.mantissa_lt
  have hleading := hm.leading
  unfold toBits infinityBits fractionBits at *
  by_cases hne : m.mantissa = 0
  · have hscale : m.scale = 0 := by omega
    rw [unpacked_of_zero hne, hne, hscale]
    cases sign <;> rfl
  · rw [unpacked_of_ne hne]
    let biased := ((m.scale : Int) - unitBits + (1023 : Nat) + (52 : Nat)).toNat
    have hbiased : biased = m.scale + 1 := by
      unfold biased unitBits
      omega
    have hnormal : m.mantissa.log2 + 1 = 53 ↔ 2 ^ 52 ≤ m.mantissa := by
      have := Nat.log2_eq_iff (k := 52) hne
      omega
    change (if 2 ^ 11 ≤ biased + 1 then UnpackedFloat.packedInfinity .binary64 sign
      else if m.mantissa.log2 + 1 = 53 then
        packComponents .binary64 sign (BitVec.ofNat 11 biased) (BitVec.ofNat 52 m.mantissa)
      else packComponents .binary64 sign 0#11 (BitVec.ofNat 52 m.mantissa)).toNat = _
    rw [hbiased, if_neg (by omega)]
    split
    · rename_i hlog
      have hleast := hnormal.mp hlog
      rw [Number.toNat_packComponents]
      change _ + ((m.scale + 1) % 2 ^ 11 * 2 ^ 52 + m.mantissa % 2 ^ 52) = _
      omega
    · rename_i hlog
      have hbelow : ¬2 ^ 52 ≤ m.mantissa := fun hleast => hlog (hnormal.mpr hleast)
      have hscale : m.scale = 0 := by omega
      rw [Number.toNat_packComponents, hscale]
      change _ + (0 * 2 ^ 52 + m.mantissa % 2 ^ 52) = _
      omega

theorem finite_eq_unpacked {m : Magnitude} {mantissa : Nat} {exponent : Int}
    (hmantissa : m.mantissa = mantissa) (hexponent : m.scale - unitBits = exponent)
    (hpos : 0 < mantissa) (sign : Sign) :
    .finite sign mantissa exponent hpos = m.unpacked sign := by
  subst hmantissa hexponent
  exact (unpacked_of_ne (Nat.ne_of_gt hpos) sign).symm

/-- The magnitude of a word in terms of its fields. -/
theorem ofBits_eq {word : BitVec 64} : ofBits (word.toNat % Number.signBit) =
    if (@unpackExponent .binary64 word).toNat = 0 then
      ⟨(@unpackMantissa .binary64 word).toNat, 0⟩
    else ⟨2 ^ fractionBits + (@unpackMantissa .binary64 word).toNat,
      (@unpackExponent .binary64 word).toNat - 1⟩ := by
  have hexponent := Number.toNat_unpackExponent word
  have hmantissa := Number.toNat_unpackMantissa word
  have hfraction : word.toNat % Number.signBit % 2 ^ fractionBits =
      (@unpackMantissa .binary64 word).toNat := by
    unfold Number.signBit fractionBits at *
    omega
  have hbiased : word.toNat % Number.signBit / 2 ^ fractionBits =
      (@unpackExponent .binary64 word).toNat := by
    unfold Number.signBit fractionBits at *
    omega
  unfold ofBits
  dsimp only
  rw [hfraction, hbiased]

/-- Only words from infinity on have all bits of the exponent set. -/
theorem unpackExponent_ne_iff {word : BitVec 64} :
    @unpackExponent .binary64 word ≠ -1#11 ↔ word.toNat % Number.signBit < infinityBits := by
  have hexponent := Number.toNat_unpackExponent word
  have hall : @unpackExponent .binary64 word = -1#11 ↔
      (@unpackExponent .binary64 word).toNat = 2047 :=
    ⟨congrArg BitVec.toNat, fun h => BitVec.eq_of_toNat_eq h⟩
  rw [ne_eq, hall, hexponent]
  unfold Number.signBit infinityBits fractionBits
  omega

/-- Decoding takes the word of a finite double apart into sign and magnitude. -/
theorem unpack_eq {word : BitVec 64} (h : word.toNat % Number.signBit < infinityBits) :
    UnpackedFloat.unpack .binary64 word = (ofBits (word.toNat % Number.signBit)).unpacked
      (.ofBitVec (@unpackSign .binary64 word)) := by
  change (if @unpackExponent .binary64 word = -1#11 then _
    else if @unpackExponent .binary64 word = 0#11 then
      dite (@unpackMantissa .binary64 word = 0#52) _ _
    else _) = _
  rw [if_neg (unpackExponent_ne_iff.mpr h), ofBits_eq]
  by_cases hzero : @unpackExponent .binary64 word = 0#11
  · have hzero' : (@unpackExponent .binary64 word).toNat = 0 := congrArg BitVec.toNat hzero
    rw [if_pos hzero, if_pos hzero']
    by_cases hnone : @unpackMantissa .binary64 word = 0#52
    · rw [dif_pos hnone, unpacked_of_zero (congrArg BitVec.toNat hnone)]
    · rw [dif_neg hnone]
      apply finite_eq_unpacked (m := ⟨_, 0⟩) rfl
      rw [hzero]
      rfl
  · have hne : (@unpackExponent .binary64 word).toNat ≠ 0 :=
      fun hzero' => hzero (BitVec.eq_of_toNat_eq hzero')
    rw [if_neg hzero, if_neg hne]
    apply finite_eq_unpacked Number.toNat_one_append.symm
    unfold Float.Model.Format.exponentBias unitBits
    dsimp only
    omega

/-- Words from infinity on are decoded to an infinity or to the one NaN there is. -/
theorem unpack_of_le {word : BitVec 64} (h : infinityBits ≤ word.toNat % Number.signBit) :
    (∃ sign, UnpackedFloat.unpack .binary64 word = .infinity sign) ∨
      UnpackedFloat.unpack .binary64 word = .notANumber := by
  have hall : @unpackExponent .binary64 word = -1#11 := by
    by_contra hne
    exact Nat.not_lt.mpr h (unpackExponent_ne_iff.mp hne)
  change (∃ sign, (if @unpackExponent .binary64 word = -1#11 then
    if @unpackMantissa .binary64 word = 0#52 then _ else _ else _) = _) ∨ (if _ then _ else _) = _
  rw [if_pos hall]
  split
  · exact Or.inl ⟨_, rfl⟩
  · exact Or.inr rfl

end Magnitude

namespace Number

open Magnitude

section Words

variable {word : BitVec 64} (h : word.toNat % signBit < infinityBits)
include h

theorem toNat_pack (sign : Sign) :
    (UnpackedFloat.pack .binary64 ((ofBits (word.toNat % signBit)).unpacked sign)).toNat =
      sign.toBitVec.toNat * signBit + word.toNat % signBit := by
  rw [Magnitude.toNat_pack (canonical_ofBits _) (by rwa [toBits_ofBits]), toBits_ofBits]

theorem toNat_pack_unpack :
    (UnpackedFloat.pack .binary64 (UnpackedFloat.unpack .binary64 word)).toNat = word.toNat := by
  rw [unpack_eq h, toNat_pack h, toNat_ofBitVec, toNat_unpackSign, Nat.div_add_mod']

end Words

variable {x : Number}

/-- A finite number is one whose size is below that of infinity. -/
theorem isFinite_iff : x.isFinite = true ↔ x.bits.toNat % signBit < infinityBits := by
  change (UnpackedFloat.unpack .binary64 (UnpackedFloat.pack .binary64
    (UnpackedFloat.unpack .binary64 x.bits.toBitVec))).isFinite = true ↔ _
  constructor
  · intro hfinite
    by_contra hsize
    obtain ⟨sign, hunpack⟩ | hunpack := @unpack_of_le x.bits.toBitVec (Nat.not_lt.mp hsize)
    · rw [hunpack] at hfinite
      cases sign <;> cases hfinite
    · rw [hunpack] at hfinite
      cases hfinite
  · intro hsize
    have hword := BitVec.eq_of_toNat_eq (@toNat_pack_unpack x.bits.toBitVec hsize)
    rw [hword, unpack_eq hsize]
    exact isFinite_unpacked _ _

theorem toNat_bits_neg (x : Number) :
    (-x).bits.toNat = (x.bits.toNat + signBit) % (2 * signBit) :=
  UInt64.toNat_add x.bits (UInt64.ofNat signBit)

/-- Negation keeps the size. -/
theorem size_neg (x : Number) : (-x).bits.toNat % signBit = x.bits.toNat % signBit := by
  rw [toNat_bits_neg]
  unfold signBit
  omega

theorem isFinite_neg (h : x.isFinite = true) : (-x).isFinite = true := by
  rw [isFinite_iff, size_neg]
  exact isFinite_iff.mp h

/-- Negation takes the sign from a number that has one. -/
theorem bits_neg_add_signBit (h : signBit ≤ x.bits.toNat) :
    (-x).bits.toNat + signBit = x.bits.toNat := by
  have hlt := x.bits.toNat_lt
  rw [toNat_bits_neg]
  unfold signBit at *
  omega

theorem bits_neg_lt_signBit (h : signBit ≤ x.bits.toNat) : (-x).bits.toNat < signBit := by
  have hlt := x.bits.toNat_lt
  have hadd := bits_neg_add_signBit h
  unfold signBit at *
  omega

theorem neg_neg (x : Number) : - -x = x := by
  have hlt := x.bits.toNat_lt
  have hbits : (- -x).bits = x.bits := by
    apply UInt64.toNat_inj.mp
    rw [toNat_bits_neg, toNat_bits_neg]
    unfold signBit
    omega
  cases x
  exact congrArg Number.mk hbits

theorem toNat_sign_neg (sign : Sign) : (-sign).toBitVec.toNat = 1 - sign.toBitVec.toNat := by
  cases sign <;> rfl

theorem sign_eq_of_toNat {sign sign' : Sign} (h : sign.toBitVec.toNat = sign'.toBitVec.toNat) :
    sign = sign' := by
  cases sign <;> cases sign' <;> first | rfl | exact absurd h (by decide)

/-- Negation turns over the sign. -/
theorem sign_neg (x : Number) : Sign.ofBitVec (@unpackSign .binary64 (-x).bits.toBitVec) =
    -Sign.ofBitVec (@unpackSign .binary64 x.bits.toBitVec) := by
  have hlt := x.bits.toNat_lt
  have hneg := toNat_bits_neg x
  apply sign_eq_of_toNat
  rw [toNat_ofBitVec, toNat_sign_neg, toNat_ofBitVec, toNat_unpackSign, toNat_unpackSign]
  change (-x).bits.toNat / signBit = 1 - x.bits.toNat / signBit
  unfold signBit at *
  omega

/-- The negation of a finite number is that of the double. -/
theorem toFloat_neg (h : x.isFinite = true) : (-x).toFloat = -x.toFloat := by
  have hsize := isFinite_iff.mp h
  have hsize' := isFinite_iff.mp (isFinite_neg h)
  have hdecoded : UnpackedFloat.unpack .binary64 (-x).bits.toBitVec =
      (UnpackedFloat.unpack .binary64 x.bits.toBitVec).neg := by
    rw [unpack_eq hsize', unpack_eq hsize, neg_unpacked, sign_neg]
    have hsame : (-x).bits.toBitVec.toNat % signBit = x.bits.toBitVec.toNat % signBit := size_neg x
    rw [hsame]
  have hword : UnpackedFloat.pack .binary64 (UnpackedFloat.unpack .binary64 x.bits.toBitVec) =
      x.bits.toBitVec :=
    BitVec.eq_of_toNat_eq (toNat_pack_unpack hsize)
  have hkept :
      (Float.Model.ofBits x.bits).unpack = UnpackedFloat.unpack .binary64 x.bits.toBitVec :=
    congrArg (UnpackedFloat.unpack .binary64) hword
  calc (-x).toFloat = ⟨.pack (.unpack .binary64 (-x).bits.toBitVec)⟩ := rfl
    _ = ⟨.pack (UnpackedFloat.unpack .binary64 x.bits.toBitVec).neg⟩ := by rw [hdecoded]
    _ = ⟨.pack (Float.Model.ofBits x.bits).unpack.neg⟩ := by rw [hkept]
    _ = -x.toFloat := rfl

end Number

end StackScript
