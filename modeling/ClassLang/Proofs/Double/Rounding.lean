import Mathlib.Algebra.Group.Nat.Defs
import ClassLang.Proofs.Double.Digits

/-!
# Rounding to the nearest double

The logical model of doubles rounds a number in two steps. The bits that do not fit are shifted out
of the mantissa, while two bits remember where the number lies between the mantissa and the next
one; then the mantissa is rounded, and shifted once more if it has become too long.

Here the number is a fraction of naturals times a power of two. `ClassLang.Double.Locates` says that
a mantissa and its two bits tell the truth about a fraction, which shifting preserves
(`ClassLang.Double.Locates.shiftRight`), and a fraction that lies in the interval of a double is
rounded to it (`ClassLang.Double.roundWithAccuracy_eq`).
-/

namespace ClassLang

namespace Double

open Float.Model (Format UnpackedFloat totalExponent)
open Float.Model.UnpackedFloat

/-! ### Where a fraction lies -/

/-- **A mantissa and its two bits locate the fraction `n / d`**: whether it is the mantissa, in the
lower half up to the next one, in the middle, or in the upper half. -/
def Locates (em : ExtendedMantissa) (n d : Nat) : Prop :=
  match em.roundBit, em.stickyBit with
  | false, false => n = em.mantissa * d
  | false, true => em.mantissa * d < n ∧ 2 * n < 2 * (em.mantissa * d) + d
  | true, false => 2 * n = 2 * (em.mantissa * d) + d
  | true, true => 2 * (em.mantissa * d) + d < 2 * n ∧ n < em.mantissa * d + d

variable {em : ExtendedMantissa} {n d : Nat}

theorem Locates.bounds (h : Locates em n d) (hd : 0 < d) :
    em.mantissa * d ≤ n ∧ n < em.mantissa * d + d := by
  obtain ⟨mantissa, roundBit, stickyBit⟩ := em
  cases roundBit <;> cases stickyBit <;> simp only [Locates] at h ⊢ <;> omega

/-- Half of a fraction lies where the shifted mantissa says. -/
theorem Locates.shiftRightOne (h : Locates em n d) (hd : 0 < d) :
    Locates em.shiftRightOne n (2 * d) := by
  obtain ⟨mantissa, roundBit, stickyBit⟩ := em
  obtain ⟨half, rfl | rfl⟩ : ∃ half, mantissa = 2 * half ∨ mantissa = 2 * half + 1 :=
    ⟨mantissa / 2, by omega⟩
  · have hhalf : 2 * half / 2 = half ∧ (2 * half % 2 != 0) = false := by
      refine ⟨by omega, ?_⟩
      rw [Nat.mul_mod_right]
      rfl
    have hleft : 2 * half * d = 2 * (half * d) := Nat.mul_assoc _ _ _
    have hright : half * (2 * d) = 2 * (half * d) := Nat.mul_left_comm _ _ _
    cases roundBit <;> cases stickyBit <;>
      simp only [Locates, ExtendedMantissa.shiftRightOne, hhalf.1, hhalf.2, hleft, hright,
        Bool.or_false, Bool.or_true] at h ⊢ <;> omega
  · have hhalf : (2 * half + 1) / 2 = half ∧ ((2 * half + 1) % 2 != 0) = true := by
      refine ⟨by omega, ?_⟩
      rw [Nat.mul_add_mod]
      rfl
    have hleft : (2 * half + 1) * d = 2 * (half * d) + d := by
      rw [Nat.add_mul, Nat.mul_assoc, Nat.one_mul]
    have hright : half * (2 * d) = 2 * (half * d) := Nat.mul_left_comm _ _ _
    cases roundBit <;> cases stickyBit <;>
      simp only [Locates, ExtendedMantissa.shiftRightOne, hhalf.1, hhalf.2, hleft, hright,
        Bool.or_false, Bool.or_true] at h ⊢ <;> omega

/-- **Shifting loses nothing that is needed for rounding.** -/
theorem Locates.shiftRight (h : Locates em n d) (hd : 0 < d) (s : Nat) :
    Locates (em >>> s) n (2 ^ s * d) := by
  change Locates (s.repeat ExtendedMantissa.shiftRightOne em) n (2 ^ s * d)
  induction s with
  | zero => rwa [Nat.pow_zero, Nat.one_mul]
  | succ s ih =>
    rw [Nat.pow_succ, Nat.mul_right_comm, Nat.mul_comm _ 2]
    exact ih.shiftRightOne (Nat.mul_pos (Nat.two_pow_pos s) hd)

/-- The same fraction with other terms. -/
theorem Locates.mul_right (h : Locates em n d) {k : Nat} (hk : 0 < k) :
    Locates em (n * k) (d * k) := by
  obtain ⟨mantissa, roundBit, stickyBit⟩ := em
  have hunit : mantissa * (d * k) = mantissa * d * k := (Nat.mul_assoc _ _ _).symm
  have hhalf : 2 * (mantissa * d * k) + d * k = (2 * (mantissa * d) + d) * k := by
    rw [Nat.add_mul, Nat.mul_assoc 2]
  have hnext : mantissa * d * k + d * k = (mantissa * d + d) * k := (Nat.add_mul _ _ _).symm
  have htwice : 2 * (n * k) = 2 * n * k := (Nat.mul_assoc _ _ _).symm
  cases roundBit <;> cases stickyBit <;>
    simp only [Locates, hunit, hhalf, hnext, htwice, Nat.mul_lt_mul_right hk] at h ⊢ <;>
    first | exact h | rw [h]

/-- **A fraction that is at most half a unit away is rounded to a mantissa.** A tie is rounded to an
even one. -/
theorem Locates.roundedMantissa_eq (h : Locates em n d) (hd : 0 < d) {m : Nat}
    (hlow : 2 * (m * d) ≤ 2 * n + d) (hhigh : 2 * n ≤ 2 * (m * d) + d)
    (hodd : m % 2 = 1 → 2 * (m * d) < 2 * n + d ∧ 2 * n < 2 * (m * d) + d) :
    em.roundedMantissa = m := by
  obtain ⟨mantissa, roundBit, stickyBit⟩ := em
  have hbounds := h.bounds hd
  dsimp only at hbounds
  -- The mantissa is the one below the fraction, so it is `m` or the one before.
  have hm : m = mantissa ∨ m = mantissa + 1 := by
    have h1 : mantissa * d < (m + 1) * d := by
      rw [Nat.add_mul, Nat.one_mul]
      omega
    have h2 : m * d < (mantissa + 2) * d := by
      rw [Nat.add_mul]
      omega
    have h1' := Nat.lt_of_mul_lt_mul_right h1
    have h2' := Nat.lt_of_mul_lt_mul_right h2
    omega
  have hnext : (mantissa + 1) * d = mantissa * d + d := by rw [Nat.add_mul, Nat.one_mul]
  rcases hm with rfl | rfl
  · cases roundBit <;> cases stickyBit <;>
      simp only [Locates, ExtendedMantissa.roundedMantissa, ExtendedMantissa.accuracy,
        Accuracy.roundToNearestEven] at h ⊢ <;> omega
  · rw [hnext] at hlow hhigh hodd
    cases roundBit <;> cases stickyBit <;>
      simp only [Locates, ExtendedMantissa.roundedMantissa, ExtendedMantissa.accuracy,
        Accuracy.roundToNearestEven] at h ⊢ <;> omega

/-! ### The exponent of the nearest double -/

/-- **The fraction `y / d` lies in the interval of the double `m * 2 ^ b`**, both in units of the
least double: it is at most half a unit away, and less than that if `m` is odd. Where the doubles
below are denser, it is at most a quarter of a unit below. -/
structure Near (y d m b : Nat) : Prop where
  low : 2 * (m * (2 ^ b * d)) ≤ 2 * y + 2 ^ b * d
  high : 2 * y ≤ 2 * (m * (2 ^ b * d)) + 2 ^ b * d
  odd : m % 2 = 1 → 2 * (m * (2 ^ b * d)) < 2 * y + 2 ^ b * d ∧
    2 * y < 2 * (m * (2 ^ b * d)) + 2 ^ b * d
  dense : m = hiddenBit → b ≠ 0 → 4 * (m * (2 ^ b * d)) ≤ 4 * y + 2 ^ b * d

/-- A double lies in its own interval. -/
theorem near_self (hd : 0 < d) (m b : Nat) : Near (m * (2 ^ b * d)) d m b := by
  have hpos : 0 < 2 ^ b * d := Nat.mul_pos (Nat.two_pow_pos b) hd
  constructor
  · omega
  · omega
  · intro
    omega
  · intro _ _
    omega

/-- Zero lies in the interval of zero only. -/
theorem Near.pos {y m b : Nat} (h : Near y d m b) (hd : 0 < d) (hm : 0 < m) : 0 < y := by
  have hlow := h.low
  have hpos : 0 < 2 ^ b * d := Nat.mul_pos (Nat.two_pow_pos b) hd
  have hle : 2 ^ b * d ≤ m * (2 ^ b * d) := Nat.le_mul_of_pos_left _ hm
  omega

/-- The interval of a double in a unit of its own. -/
theorem near_mul_iff {y u k m b : Nat} (hk : 0 < k) (hu : 2 ^ b * d = u * k) :
    Near (y * k) d m b ↔ 2 * (m * u) ≤ 2 * y + u ∧ 2 * y ≤ 2 * (m * u) + u ∧
      (m % 2 = 1 → 2 * (m * u) < 2 * y + u ∧ 2 * y < 2 * (m * u) + u) ∧
      (m = hiddenBit → b ≠ 0 → 4 * (m * u) ≤ 4 * y + u) := by
  have hmul : ∀ c x : Nat, c * (x * k) = c * x * k := fun c x => (Nat.mul_assoc _ _ _).symm
  constructor
  · rintro ⟨hlow, hhigh, hodd, hdense⟩
    simp only [hu, hmul, ← Nat.add_mul, Nat.mul_le_mul_right_iff hk, Nat.mul_lt_mul_right hk]
      at hlow hhigh hodd hdense
    exact ⟨hlow, hhigh, hodd, hdense⟩
  · rintro ⟨hlow, hhigh, hodd, hdense⟩
    constructor <;>
      simp only [hu, hmul, ← Nat.add_mul, Nat.mul_le_mul_right_iff hk, Nat.mul_lt_mul_right hk]
    · exact hlow
    · exact hhigh
    · exact hodd
    · exact hdense

/-- Whether a fraction lies in an interval does not depend on its terms. -/
theorem near_mul_right_iff {y k m b : Nat} (hk : 0 < k) :
    Near (y * k) (d * k) m b ↔ Near y d m b := by
  rw [near_mul_iff hk (Nat.mul_assoc _ _ _).symm]
  constructor
  · rintro ⟨hlow, hhigh, hodd, hdense⟩
    exact ⟨hlow, hhigh, hodd, hdense⟩
  · rintro ⟨hlow, hhigh, hodd, hdense⟩
    exact ⟨hlow, hhigh, hodd, hdense⟩

/-- The same fraction with other terms lies in the same intervals. -/
theorem Near.of_mul_eq {y y' d' m b : Nat} (h : Near y d m b) (hd : 0 < d) (hd' : 0 < d')
    (heq : y * d' = y' * d) : Near y' d' m b := by
  rw [← near_mul_right_iff hd', heq, Nat.mul_comm d] at h
  exact (near_mul_right_iff hd).mp h

/-- The mantissas and exponents of doubles, counted from the least exponent. -/
structure Canonical (m b : Nat) : Prop where
  lt : m < 2 * hiddenBit
  /-- Only the least doubles have a mantissa without its top bit. -/
  hiddenBit_le : b ≠ 0 → hiddenBit ≤ m

theorem targetExponent_eq (m a : Nat) :
    Format.binary64.targetExponent (totalExponent m (leastExponent + a)) =
      leastExponent + ((m.log2 + a - 52 : Nat) : Int) := by
  have hmin : Format.binary64.minExponent = leastExponent := rfl
  have hbits : Format.binary64.mantissaBits = 53 := rfl
  rw [Format.targetExponent, totalExponent, hmin, hbits, leastExponent]
  omega

section

variable {m b mantissa a : Nat}

/-- The mantissa below a fraction is not too long for the nearest double. -/
theorem log2_le_of_near (hd : 0 < d) (hle : mantissa * d ≤ n)
    (hbits : a ≤ mantissa.log2 + a - 52) (hcanonical : Canonical m b)
    (h : Near (n * 2 ^ a) d m b) : mantissa.log2 + a - 52 ≤ b := by
  refine Nat.not_lt.mp fun hlt => ?_
  have hpos : 0 < 2 ^ b * d := Nat.mul_pos (Nat.two_pow_pos b) hd
  have hmantissa : mantissa ≠ 0 := by
    rintro rfl
    rw [Nat.log2_zero] at hbits hlt
    omega
  have htop : 2 * hiddenBit = 2 ^ 53 := rfl
  have hvalue : 2 * hiddenBit * (2 ^ b * d) ≤ n * 2 ^ a :=
    calc 2 * hiddenBit * (2 ^ b * d)
        = 2 ^ (53 + b) * d := by rw [htop, Nat.pow_add, Nat.mul_assoc]
      _ ≤ 2 ^ (mantissa.log2 + a) * d :=
          Nat.mul_le_mul_right d (Nat.pow_le_pow_right (by decide) (by omega))
      _ = 2 ^ mantissa.log2 * d * 2 ^ a := by rw [Nat.pow_add, Nat.mul_right_comm]
      _ ≤ mantissa * d * 2 ^ a :=
          Nat.mul_le_mul_right _ (Nat.mul_le_mul_right d (Nat.log2_self_le hmantissa))
      _ ≤ n * 2 ^ a := Nat.mul_le_mul_right _ hle
  -- The greatest mantissa is one less, and half a unit is not enough to make up for it.
  have hnext : (m + 1) * (2 ^ b * d) ≤ 2 * hiddenBit * (2 ^ b * d) :=
    Nat.mul_le_mul_right _ hcanonical.lt
  have hhigh := h.high
  rw [Nat.add_mul, Nat.one_mul] at hnext
  omega

/-- It is at most one bit too short, and this only for a fraction below a double where the doubles
below are denser. -/
theorem le_log2_of_near (hd : 0 < d) (hlt : n < mantissa * d + d) (hcanonical : Canonical m b)
    (h : Near (n * 2 ^ a) d m b) :
    b ≤ mantissa.log2 + a - 52 + 1 ∧ (b = mantissa.log2 + a - 52 + 1 →
      m = hiddenBit ∧ n * 2 ^ a < m * (2 ^ b * d)) := by
  have hbit : hiddenBit = 2 ^ 52 := rfl
  have hpos : 0 < 2 ^ b * d := Nat.mul_pos (Nat.two_pow_pos b) hd
  have hvalue : n * 2 ^ a < 2 ^ (mantissa.log2 + 1 + a) * d :=
    calc n * 2 ^ a < (mantissa * d + d) * 2 ^ a :=
          Nat.mul_lt_mul_of_pos_right hlt (Nat.two_pow_pos a)
      _ = (mantissa + 1) * d * 2 ^ a := by rw [Nat.succ_mul]
      _ ≤ 2 ^ (mantissa.log2 + 1) * d * 2 ^ a :=
          Nat.mul_le_mul_right _ (Nat.mul_le_mul_right d Nat.lt_log2_self)
      _ = 2 ^ (mantissa.log2 + 1 + a) * d := by rw [Nat.mul_right_comm, ← Nat.pow_add]
  have hlow := h.low
  have hbound : b ≠ 0 → 51 + b < mantissa.log2 + 1 + a := by
    intro hb
    have hmul := Nat.mul_le_mul_right (2 ^ b * d) (hcanonical.hiddenBit_le hb)
    rw [hbit] at hmul
    have hsmall : 2 ^ (51 + b) * d < 2 ^ (mantissa.log2 + 1 + a) * d := by
      rw [Nat.pow_add, Nat.mul_assoc]
      omega
    exact (Nat.pow_lt_pow_iff_right (by decide)).mp (Nat.lt_of_mul_lt_mul_right hsmall)
  refine ⟨by omega, fun hshort => ?_⟩
  have hb : b ≠ 0 := by omega
  have hmul := Nat.mul_le_mul_right (2 ^ b * d) (hcanonical.hiddenBit_le hb)
  have hvalue' : n * 2 ^ a < hiddenBit * (2 ^ b * d) := by
    have hexponent : mantissa.log2 + 1 + a = 52 + b := by
      have := hbound hb
      omega
    rwa [hexponent, Nat.pow_add, Nat.mul_assoc] at hvalue
  have hm : m = hiddenBit := by
    refine Nat.le_antisymm (Nat.le_of_lt_succ ?_) (hcanonical.hiddenBit_le hb)
    refine Nat.lt_of_mul_lt_mul_right (a := 2 ^ b * d) ?_
    rw [Nat.succ_mul]
    omega
  exact ⟨hm, by rwa [hm]⟩

/-! ### Rounding -/

/-- Shifting to the exponent that a mantissa should have. -/
theorem shiftToTargetExponent_eq (hbits : a ≤ mantissa.log2 + a - 52) (accuracy : Accuracy) :
    shiftToTargetExponent Format.binary64 mantissa (leastExponent + a) accuracy =
      (ExtendedMantissa.ofMantissaAndAccuracy mantissa accuracy >>> (mantissa.log2 + a - 52 - a),
        leastExponent + ((mantissa.log2 + a - 52 : Nat) : Int)) := by
  have hshift : (leastExponent + ((mantissa.log2 + a - 52 : Nat) : Int) -
      (leastExponent + (a : Int))).toNat = mantissa.log2 + a - 52 - a := by omega
  rw [shiftToTargetExponent, targetExponent_eq, shiftToExponent, hshift]
  refine Prod.ext rfl ?_
  dsimp only
  omega

theorem mantissa_ofMantissaAndAccuracy (mantissa : Nat) (accuracy : Accuracy) :
    (ExtendedMantissa.ofMantissaAndAccuracy mantissa accuracy).mantissa = mantissa := by
  cases accuracy with
  | exact => rfl
  | inexact side => cases side <;> rfl

/-- A mantissa of the right length is not shifted. -/
theorem Canonical.log2_add_eq (h : Canonical m b) (hm : 0 < m) : m.log2 + b - 52 = b := by
  have hlt : m.log2 < 53 := (Nat.log2_lt (Nat.ne_of_gt hm)).mpr h.lt
  by_cases hb : b = 0
  · omega
  · have hle : 52 ≤ m.log2 := (Nat.le_log2 (Nat.ne_of_gt hm)).mpr (h.hiddenBit_le hb)
    omega

/-- **A fraction in the interval of a double is rounded to the double.** -/
theorem roundWithAccuracy_eq {accuracy : Accuracy} (hd : 0 < d)
    (hlocates : Locates (.ofMantissaAndAccuracy mantissa accuracy) n d)
    (hbits : a ≤ mantissa.log2 + a - 52) (hm : 0 < m) (hcanonical : Canonical m b)
    (h : Near (n * 2 ^ a) d m b) :
    roundWithAccuracy Format.binary64 .positive mantissa (leastExponent + a) accuracy =
      .finite .positive m (leastExponent + b) hm := by
  have hbounds := hlocates.bounds hd
  rw [mantissa_ofMantissaAndAccuracy] at hbounds
  have hlong := log2_le_of_near hd hbounds.1 hbits hcanonical h
  obtain ⟨hshort, hdense⟩ := le_log2_of_near hd hbounds.2 hcanonical h
  unfold roundWithAccuracy
  rw [shiftToTargetExponent_eq hbits]
  generalize mantissa.log2 + a - 52 = c at hbits hlong hshort hdense ⊢
  obtain ⟨s, rfl⟩ := Nat.exists_eq_add_of_le hbits
  rw [Nat.add_sub_cancel_left]
  -- The mantissa that is left over, in the units of the double.
  have hshifted := (hlocates.shiftRight hd s).mul_right (Nat.two_pow_pos a)
  have hunit : 2 ^ s * d * 2 ^ a = 2 ^ (a + s) * d := by
    rw [Nat.pow_add, Nat.mul_comm, ← Nat.mul_assoc]
  rw [hunit] at hshifted
  have hpos : 0 < 2 ^ (a + s) * d := Nat.mul_pos (Nat.two_pow_pos _) hd
  dsimp only
  generalize ExtendedMantissa.ofMantissaAndAccuracy mantissa accuracy >>> s = em at hshifted ⊢
  rcases Nat.lt_or_eq_of_le hlong with hlt | rfl
  · -- One bit more is left over than the double has, and rounding carries into the next one.
    obtain rfl : b = a + s + 1 := by omega
    obtain ⟨rfl, hbelow⟩ := hdense rfl
    have hlow := h.dense rfl (by omega)
    have hunit' : 2 ^ (a + s + 1) * d = 2 * (2 ^ (a + s) * d) := by
      rw [Nat.pow_succ, Nat.mul_right_comm, Nat.mul_comm]
    have hdouble : hiddenBit * (2 * (2 ^ (a + s) * d)) = 2 * hiddenBit * (2 ^ (a + s) * d) := by
      rw [Nat.mul_left_comm, Nat.mul_assoc]
    rw [hunit', hdouble] at hlow hbelow
    have hrounded : em.roundedMantissa = 2 * hiddenBit :=
      hshifted.roundedMantissa_eq hpos (by omega) (by omega) fun hodd => by cases hodd
    have hlog : (2 * hiddenBit).log2 + (a + s) - 52 = a + s + 1 := by
      have hlog53 : (2 ^ 53).log2 = 53 := Nat.log2_two_pow
      rw [show 2 * hiddenBit = 2 ^ 53 from rfl, hlog53]
      omega
    rw [hrounded, shiftToTargetExponent_eq (by omega), hlog, Nat.add_sub_cancel_left]
    rfl
  · have hrounded : em.roundedMantissa = m := hshifted.roundedMantissa_eq hpos h.low h.high h.odd
    have hself := hcanonical.log2_add_eq hm
    rw [hrounded, shiftToTargetExponent_eq (Nat.le_of_eq hself.symm), hself, Nat.sub_self]
    exact dif_neg (Nat.ne_of_gt hm)

end

end Double

end ClassLang
