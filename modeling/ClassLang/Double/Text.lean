import ClassLang.Double.Parts
import ClassLang.Double.Shortest
import ClassLang.Text.Digits

/-!
# The text of a double

Doubles are written with a point and at least one digit on either side of it, and never with an
exponent, so that they read back as doubles. A double without fractional part shows all of its
digits; any other shows the fewest digits that read back.

* `ClassLang.Double.text` writes a double.
* `ClassLang.Double.read` reads the digits before and after a point.
-/

namespace ClassLang

namespace Double

/-- The text of `digits / 10 ^ places`, with zeros put in front where digits are missing, and no
zeros at the end. -/
def pointText (digits places : Nat) : List Char :=
  let written := Text.digits digits
  let padded := List.replicate (places + 1 - written.length) '0' ++ written
  let whole := padded.take (padded.length - places)
  let fraction := padded.drop (padded.length - places)
  whole ++ '.' :: (fraction.reverse.dropWhile (· == '0')).reverse

/-- Whether `m * 2 ^ q` is a whole number. -/
def isWhole (m : Nat) (q : Int) : Bool :=
  m % twoTo (-q) = 0

/-- The text of the magnitude `m * 2 ^ q` of a finite double. -/
def magnitudeText (m : Nat) (q : Int) : List Char :=
  if isWhole m q then
    Text.digits (m * twoTo q / twoTo (-q)) ++ ['.', '0']
  else
    let d := shortest m q (m = hiddenBit && q ≠ leastExponent)
    pointText (d.digits * tenTo d.exponent) (-d.exponent).toNat

/-- **The text of a double**. -/
def text (x : Float) : String :=
  match parts x with
  | .notANumber => "NaN"
  | .infinite negative => if negative then "-Infinity" else "Infinity"
  | .finite negative m q =>
    String.ofList (if negative then '-' :: magnitudeText m q else magnitudeText m q)

/-- The double nearest to the decimal with these digits before and after the point. A decimal
beyond the largest double is read as infinity. -/
def read (whole fraction : List Char) : Float :=
  Float.ofScientific (Text.number (whole ++ fraction)) true fraction.length

end Double

end ClassLang
