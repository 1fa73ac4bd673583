import ClassLang.Double.Parts
import ClassLang.Double.Powers

/-!
# The remainder of two doubles

The remainder of a division whose quotient is cut toward zero. It has the sign of the dividend,
it is smaller than the divisor, and it is exact: no rounding takes place, because it is computed
on naturals.
-/

namespace ClassLang

namespace Double

/-- The remainder of `m * 2 ^ p` divided by `n * 2 ^ q`, in units of `2 ^ min p q`. -/
def remainderUnits (m : Nat) (p : Int) (n : Nat) (q : Int) : Nat :=
  let unit := min p q
  m * twoTo (p - unit) % (n * twoTo (q - unit))

/-- The remainder of `x` divided by `y`, of the sign of `x`. There is none if `x` is infinite or
`y` is zero, and an infinite `y` leaves `x` as it is. -/
def remainder (x y : Float) : Float :=
  match parts x, parts y with
  | .finite negative m p, .finite _ n q =>
    if n = 0 then notANumber
    else ofParts negative (remainderUnits m p n q) (min p q)
  | .finite .., .infinite _ => x
  | _, _ => notANumber

end Double

end ClassLang
