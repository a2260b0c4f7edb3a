/-!
Decimal numbers `coefficient * 10 ^ exponent` and their plain written form: digits,
and a point only when there are digits after it. No exponent is ever written.
-/

namespace StackScript

-- Throughout the library powers are those of the natural numbers, whatever else is imported.
attribute [scoped instance (2000)] instPowNat

structure Decimal where
  coefficient : Nat
  exponent : Int
  deriving DecidableEq, Repr

namespace Decimal

/-- The value as a quotient: this over `denominator`. -/
def numerator (d : Decimal) : Nat :=
  d.coefficient * 10 ^ d.exponent.toNat

def denominator (d : Decimal) : Nat :=
  10 ^ (-d.exponent).toNat

/-- The value of a digit string, most significant digit first. -/
def ofDigits (digits : List Char) : Nat :=
  digits.foldl (fun value c => value * 10 + (c.toNat - '0'.toNat)) 0

/-- The digits of `value`, with zeros in front up to `width` of them. -/
def padded (width value : Nat) : List Char :=
  let digits := Nat.toDigits 10 value
  List.replicate (width - digits.length) '0' ++ digits

/-- The plain written form. -/
def digits (d : Decimal) : List Char :=
  match d.exponent with
  | .ofNat zeros => Nat.toDigits 10 (d.coefficient * 10 ^ zeros)
  | .negSucc n =>
      let places := n + 1
      Nat.toDigits 10 (d.coefficient / 10 ^ places) ++
        '.' :: padded places (d.coefficient % 10 ^ places)

def text (d : Decimal) : String :=
  String.ofList d.digits

/-- Reads digits with an optional point that stands between digits. -/
def parse? (chars : List Char) : Option Decimal :=
  let whole := chars.takeWhile Char.isDigit
  match chars.dropWhile Char.isDigit with
  | [] => if whole.isEmpty then none else some ⟨ofDigits whole, 0⟩
  | '.' :: fraction =>
      if whole.isEmpty || fraction.isEmpty || !fraction.all Char.isDigit then none
      else some ⟨ofDigits (whole ++ fraction), -fraction.length⟩
  | _ => none

end Decimal

end StackScript
