import StackScript.Number.Shortest

/-!
The numbers of the language: the doubles, kept by their 64 bits. Two numbers are the same
when their bits are, so the two zeros differ, and so do two NaNs with different bits.
Arithmetic and comparison are those of doubles, which do not look at the bits of a NaN.
A number is written with the shortest digits that read back, in plain positional form,
with a sign for everything below zero and for negative zero.
-/

namespace StackScript

@[ext] structure Number where
  bits : UInt64
  deriving DecidableEq

namespace Number

/-- The weight of the sign, the highest bit of a double. -/
def signBit : Nat := 0x8000000000000000

/-- The double with these bits. All NaNs are one here. -/
def toFloat (x : Number) : Float :=
  Float.ofBits x.bits

/-- The number of a computed double. Of the NaNs, which arithmetic may choose from, it is
always the same one. -/
def ofFloat (x : Float) : Number :=
  ⟨x.toBits⟩

instance : Add Number := ⟨fun x y => ofFloat (x.toFloat + y.toFloat)⟩

instance : Sub Number := ⟨fun x y => ofFloat (x.toFloat - y.toFloat)⟩

instance : Mul Number := ⟨fun x y => ofFloat (x.toFloat * y.toFloat)⟩

instance : Div Number := ⟨fun x y => ofFloat (x.toFloat / y.toFloat)⟩

/-- Negation turns over the sign and nothing else: the sum has no place for a carry. -/
instance : Neg Number := ⟨fun x => ⟨x.bits + UInt64.ofNat signBit⟩⟩

instance : LT Number := ⟨fun x y => x.toFloat < y.toFloat⟩

instance (x y : Number) : Decidable (x < y) :=
  inferInstanceAs (Decidable (x.toFloat < y.toFloat))

/-- Equality as doubles: a NaN differs from itself and the two zeros are equal. -/
def equal (x y : Number) : Bool :=
  x.toFloat == y.toFloat

/-- Neither infinite nor a NaN. -/
def isFinite (x : Number) : Bool :=
  x.toFloat.isFinite

def text (x : Number) : String :=
  let size := x.bits.toNat % signBit
  let sign := if x.bits.toNat < signBit then "" else "-"
  if Magnitude.infinityBits < size then "NaN"
  else if size = Magnitude.infinityBits then sign ++ "inf"
  else sign ++ (Magnitude.ofBits size).shortest.text

/-- The number that a literal stands for. -/
def parse? (literal : String) : Option Number :=
  (Decimal.parse? literal.toList).map fun d => ⟨UInt64.ofNat d.nearestBits⟩

end Number

end StackScript
