import StackScript.Number.Magnitude

/-!
The shortest decimal that reads back as a given double. Decimal grids are tried from
coarse to fine; on each grid only the two neighbours of the number can be the nearest
point, and the first grid with a neighbour inside the rounding interval wins.
-/

namespace StackScript.Magnitude

/-- Lower end of the numbers that round to `m`, over four times its denominator. The
gap below a power of two is half as wide, except at the smallest exponent. -/
def lower (m : Magnitude) : Nat :=
  (4 * m.mantissa - (if m.mantissa = 2 ^ fractionBits ∧ 0 < m.scale then 1 else 2)) *
    2 ^ (m.scale - unitBits)

/-- Upper end of the numbers that round to `m`, over four times its denominator. -/
def upper (m : Magnitude) : Nat :=
  (4 * m.mantissa + 2) * 2 ^ (m.scale - unitBits)

/-- Whether `d` rounds to `m`. A number halfway between two doubles goes to the even
mantissa, so the ends belong to the interval exactly when the mantissa is even. -/
def admits (m : Magnitude) (d : Decimal) : Bool :=
  let scaled := d.numerator * (4 * m.denominator)
  let low := m.lower * d.denominator
  let high := m.upper * d.denominator
  if m.mantissa % 2 = 0 then low ≤ scaled && scaled ≤ high
  else low < scaled && scaled < high

/-- The neighbour of `m` among the multiples of `10 ^ exponent` that rounds to it, if
there is one; of two, the nearer, and the upper one when both are equally near. -/
def onGrid (m : Magnitude) (exponent : Int) : Option Decimal :=
  let dividend := m.numerator * 10 ^ (-exponent).toNat
  let divisor := m.denominator * 10 ^ exponent.toNat
  let below : Decimal := ⟨dividend / divisor, exponent⟩
  let above : Decimal := ⟨dividend / divisor + 1, exponent⟩
  match m.admits below, m.admits above with
  | true, true => some (if 2 * (dividend % divisor) < divisor then below else above)
  | true, false => some below
  | false, true => some above
  | false, false => none

/-- An exponent of ten above the number, and at most one too high. It follows from the
number's exponent of two, since `10 ^ 0.30103` is just above two. -/
def leadingExponent (m : Magnitude) : Int :=
  ((m.mantissa.log2 + m.scale + 1 : Nat) - (unitBits : Int)) * 30103 / 100000 + 1

/-- All digits of the number: a step is `5 ^ 1074 * 10 ^ -1074`. -/
def exact (m : Magnitude) : Decimal :=
  ⟨m.mantissa * 2 ^ m.scale * 5 ^ unitBits, -unitBits⟩

/-- Tries finer and finer grids. Seventeen digits always suffice, but the result reads
back without that fact, as all digits stand in when no grid is left. -/
def refine (m : Magnitude) : Nat → Int → Decimal
  | 0, _ => m.exact
  | tries + 1, exponent =>
      match m.onGrid exponent with
      | some d => d
      | none => m.refine tries (exponent - 1)

/-- The shortest decimal that rounds to `m`, the nearest to `m` of that length. -/
def shortest (m : Magnitude) : Decimal :=
  if m.mantissa = 0 then ⟨0, 0⟩ else m.refine 20 m.leadingExponent

end StackScript.Magnitude
