import ClassLang.Double.Powers
import ClassLang.Text.Digits

/-!
# The shortest decimal that reads back

Between a double and its neighbours lie all the reals that round to it. Among the decimals in
that interval there is a shortest one, and this is how a double with a fractional part is
written.

The interval of `m * 2 ^ q` reaches half a unit up and half a unit down; below a power of two
the units are half as long, so there it reaches only a quarter down. Its ends belong to it if
and only if `m` is even, since ties are read as the even neighbour. All of it is scaled by four,
so that the ends are natural numbers over one denominator, and the search asks grid by grid, from
one digit to seventeen, whether one of the two neighbours of the value on the grid lies in the
interval (`ClassLang.Double.shortest`).
-/

namespace ClassLang

namespace Double

/-- A decimal: `digits * 10 ^ exponent`. -/
structure Decimal where
  /-- The digits, as one number. -/
  digits : Nat
  /-- The power of ten that the last digit counts. -/
  exponent : Int
deriving DecidableEq, Repr

/-- A positive value and the interval of the reals that round to it, over one denominator. -/
structure RoundingInterval where
  /-- The lower end. -/
  low : Nat
  /-- The value. -/
  value : Nat
  /-- The upper end. -/
  high : Nat
  /-- What all three are divided by. -/
  denominator : Nat
  /-- Whether the ends belong to the interval. -/
  closed : Bool
deriving Repr

/-- The interval of the double `m * 2 ^ q`. The flag says that the doubles below are twice as
dense as those above. -/
def roundingInterval (m : Nat) (q : Int) (denserBelow : Bool) : RoundingInterval :=
  let factor := twoTo (q - 2)
  { low := (4 * m - if denserBelow then 1 else 2) * factor
    value := 4 * m * factor
    high := (4 * m + 2) * factor
    denominator := twoTo (2 - q)
    closed := m % 2 = 0 }

/-- Whether `d` lies in the interval. -/
def RoundingInterval.holds (r : RoundingInterval) (d : Decimal) : Bool :=
  let scaled := d.digits * tenTo d.exponent * r.denominator
  let unit := tenTo (-d.exponent)
  if r.closed then
    r.low * unit ≤ scaled && scaled ≤ r.high * unit
  else
    r.low * unit < scaled && scaled < r.high * unit

/-- How many decimal digits a number has. -/
def digitCount (n : Nat) : Nat := (Text.digits n).length

/-- The `e` such that the value lies between `10 ^ (e - 1)` and `10 ^ e`. -/
def RoundingInterval.magnitude (r : RoundingInterval) : Int :=
  let guess : Int := digitCount r.value - digitCount r.denominator
  if r.value * tenTo (-guess) < r.denominator * tenTo guess then guess else guess + 1

/-- The decimal in the interval on the grid of multiples of `10 ^ exponent`, if one of the two
neighbours of the value is one: the nearer neighbour, and of two equally near ones the upper. -/
def RoundingInterval.onGrid (r : RoundingInterval) (exponent : Int) : Option Decimal :=
  let unit := r.denominator * tenTo exponent
  let scaled := r.value * tenTo (-exponent)
  let below : Decimal := ⟨scaled / unit, exponent⟩
  let above : Decimal := ⟨scaled / unit + 1, exponent⟩
  let aboveIsNearer : Bool := unit ≤ 2 * (scaled % unit)
  if r.holds above && (aboveIsNearer || !r.holds below) then some above
  else if r.holds below then some below
  else none

/-- The first decimal found on grids of `count`, `count + 1`, … digits, for `tries` grids. -/
def RoundingInterval.search (r : RoundingInterval) (count : Nat) : Nat → Option Decimal
  | 0 => none
  | tries + 1 =>
    match r.onGrid (r.magnitude - count) with
    | some d => some d
    | none => r.search (count + 1) tries

/-- The decimal with the fewest digits that is read as the double `m * 2 ^ q`, and the nearest
one of those. Seventeen digits always suffice. -/
def shortest (m : Nat) (q : Int) (denserBelow : Bool) : Decimal :=
  ((roundingInterval m q denserBelow).search 1 17).getD ⟨0, 0⟩

end Double

end ClassLang
