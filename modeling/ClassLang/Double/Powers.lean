/-!
# Powers with an integer exponent

A product with a power of two or ten whose exponent may be negative is kept as a fraction of
naturals: the power goes to the numerator if the exponent is positive, and to the denominator if it
is negative. So the natural powers here are one where the exponent has the other sign.
-/

namespace ClassLang

namespace Double

/-- The power of two for an exponent that is not negative, and one otherwise. -/
def twoTo (k : Int) : Nat := Nat.pow 2 k.toNat

/-- The power of ten for an exponent that is not negative, and one otherwise. -/
def tenTo (k : Int) : Nat := Nat.pow 10 k.toNat

theorem twoTo_pos (k : Int) : 0 < twoTo k := Nat.pow_pos (by decide)

theorem tenTo_pos (k : Int) : 0 < tenTo k := Nat.pow_pos (by decide)

end Double

end ClassLang
