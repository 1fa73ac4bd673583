/-!
# The parts of a double

A double is read off its 64 bits: it is not a number, or infinite, or finite, and then it is a
natural number times a power of two, with a sign. What the library computes exactly about
doubles, their text and their remainders, it computes on these parts.

* `ClassLang.Double.parts` takes a double apart.
* `ClassLang.Double.ofParts` puts one together.
-/

namespace ClassLang

namespace Double

/-- What a double is made of. -/
inductive Parts where
  /-- Not a number. -/
  | notANumber
  /-- Infinite, negative or not. -/
  | infinite (negative : Bool)
  /-- The number `mantissa * 2 ^ exponent`, negated if `negative`. -/
  | finite (negative : Bool) (mantissa : Nat) (exponent : Int)
deriving DecidableEq, Repr

/-- The weight of the lowest bit that a double can have. -/
def leastExponent : Int := -1074

/-- The lowest mantissa of a normal double: its top bit is not stored. -/
def hiddenBit : Nat := Nat.pow 2 52

/-- The parts of a double. The mantissa of a normal double lies between `hiddenBit` and twice
that; a subnormal one has a smaller mantissa and the least exponent. -/
def parts (x : Float) : Parts :=
  let bits := x.toBits.toNat
  let negative := decide (Nat.pow 2 63 ≤ bits)
  let biased := bits / hiddenBit % 2048
  let fraction := bits % hiddenBit
  if biased = 2047 then
    if fraction = 0 then .infinite negative else .notANumber
  else if biased = 0 then
    .finite negative fraction leastExponent
  else
    .finite negative (hiddenBit + fraction) (biased - 1 + leastExponent)

/-- The finite double with the given sign and magnitude `mantissa * 2 ^ exponent`. It is exact
if the mantissa has at most 53 bits and the double exists. -/
def ofParts (negative : Bool) (mantissa : Nat) (exponent : Int) : Float :=
  let magnitude := (Float.ofNat mantissa).scaleB exponent
  if negative then -magnitude else magnitude

/-- The double that is not a number. -/
def notANumber : Float := 0.0 / 0.0

end Double

end ClassLang
