import StackScript.Number.Decimal

/-!
Finite binary64 numbers without their sign, as natural multiples of the smallest
positive double. Every such number is `mantissa * 2 ^ scale` steps of `2 ^ -1074`,
so comparing and rounding them is exact arithmetic on `Nat`. Of a decimal, the nearest
of them is taken: a tie goes to the even mantissa, and what lies past the largest finite
double by half a step or more becomes infinity.
-/

namespace StackScript

/-- The number `mantissa * 2 ^ scale * 2 ^ -1074`. -/
structure Magnitude where
  mantissa : Nat
  scale : Nat
  deriving DecidableEq, Repr

namespace Magnitude

/-- A double keeps 52 bits of its mantissa. -/
def fractionBits : Nat := 52

/-- Steps below one: the smallest positive double is `2 ^ -1074`. -/
def unitBits : Nat := 1074

/-- The bits of positive infinity; the bits of every finite magnitude lie below. -/
def infinityBits : Nat := 0x7ff0000000000000

/-- Decodes the lower 63 bits of a finite double. A biased exponent of zero has
no implicit leading bit and shares the scale of exponent one. -/
def ofBits (bits : Nat) : Magnitude :=
  let biased := bits / 2 ^ fractionBits
  let fraction := bits % 2 ^ fractionBits
  if biased = 0 then ⟨fraction, 0⟩ else ⟨2 ^ fractionBits + fraction, biased - 1⟩

/-- The leading mantissa bit is exactly what raises the exponent field, so the
encoding is one sum. -/
def toBits (m : Magnitude) : Nat :=
  m.scale * 2 ^ fractionBits + m.mantissa

/-- The number as a quotient: this over `denominator`, one of which has no power of
two. -/
def numerator (m : Magnitude) : Nat :=
  m.mantissa * 2 ^ (m.scale - unitBits)

def denominator (m : Magnitude) : Nat :=
  2 ^ (unitBits - m.scale)

theorem toBits_ofBits (bits : Nat) : (ofBits bits).toBits = bits := by
  have hsplit := Nat.div_add_mod bits (2 ^ fractionBits)
  by_cases h : bits / 2 ^ fractionBits = 0
  · simp only [ofBits, h, toBits, ite_true]
    rw [h] at hsplit
    omega
  · simp only [ofBits, h, toBits, ite_false]
    have hone : 1 ≤ bits / 2 ^ fractionBits := Nat.one_le_iff_ne_zero.mpr h
    rw [Nat.mul_comm] at hsplit
    rw [Nat.sub_mul, Nat.one_mul]
    have hle : 1 * 2 ^ fractionBits ≤ bits / 2 ^ fractionBits * 2 ^ fractionBits :=
      Nat.mul_le_mul_right _ hone
    omega

end Magnitude

/-- The quotient rounded to the nearest integer, a half to the even one. -/
def divHalfEven (n d : Nat) : Nat :=
  let quotient := n / d
  let twice := 2 * (n % d)
  if twice < d then quotient
  else if d < twice then quotient + 1
  else quotient + quotient % 2

namespace Decimal

/-- The bits of the nearest double. The scale leaves 53 bits in the quotient; when
rounding carries into a 54th, the sum that encodes scale and mantissa moves to the
next exponent by itself. -/
def nearestBits (d : Decimal) : Nat :=
  let steps := d.numerator * 2 ^ Magnitude.unitBits
  let scale := (steps / d.denominator).log2 - Magnitude.fractionBits
  let mantissa := divHalfEven steps (d.denominator * 2 ^ scale)
  min (Magnitude.toBits ⟨mantissa, scale⟩) Magnitude.infinityBits

end Decimal

end StackScript
