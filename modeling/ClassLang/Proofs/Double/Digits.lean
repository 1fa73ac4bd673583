import ClassLang.Double.Text

/-!
# The text of a finite double is made of digits

Every finite double that is not negative is written with digits, a point and digits, and with at
least one digit on each side of the point (`ClassLang.Double.pointedDigits_text`). The digits spell
the double itself or a decimal in its interval
(`ClassLang.Double.exists_pointedNumber_magnitudeText`).

For a whole number this is plain. For any other the search for the shortest decimal must not come
back with nothing, and what it comes back with must not be a whole number, since the zeros at the
end are taken away:

* **seventeen digits suffice** (`ClassLang.Double.isSome_search_roundingInterval`): the step of the
  last grid is less than the interval is long, so one of the two neighbours of the value lies
  inside;
* **no whole number lies in the interval** (`ClassLang.Double.mod_ne_zero_of_holds`): the value is a
  multiple of the unit of the double, a whole number is one too, and the interval reaches only half
  a unit in either direction.
-/

namespace ClassLang

/-! ### Numbers with a point -/

/-- The number that digits spell after other digits. -/
theorem Text.number_append (cs ds : List Char) :
    Text.number (cs ++ ds) = Double.tenTo ds.length * Text.number cs + Text.number ds := by
  rw [Text.number, Nat.ofDigitChars_append, Nat.ofDigitChars_eq_ofDigitChars_zero]
  rfl

theorem Text.number_replicate_zero (n : Nat) : Text.number (List.replicate n '0') = 0 := by
  rw [Text.number, Nat.ofDigitChars_replicate_zero, Nat.mul_zero]

namespace Double

/-- Digits, a point and digits. -/
def PointedDigits (cs : List Char) : Prop :=
  ∃ whole fraction : List Char, whole ≠ [] ∧ fraction ≠ [] ∧ (∀ d ∈ whole, d.isDigit = true) ∧
    (∀ d ∈ fraction, d.isDigit = true) ∧ cs = whole ++ '.' :: fraction

/-- Digits, a point and digits, which spell the number `n / 10 ^ places`. -/
def PointedNumber (cs : List Char) (n places : Nat) : Prop :=
  ∃ whole fraction : List Char, whole ≠ [] ∧ fraction ≠ [] ∧ (∀ d ∈ whole, d.isDigit = true) ∧
    (∀ d ∈ fraction, d.isDigit = true) ∧ cs = whole ++ '.' :: fraction ∧
    Text.number (whole ++ fraction) * tenTo places = n * tenTo fraction.length

theorem PointedNumber.pointedDigits {cs : List Char} {n places : Nat}
    (h : PointedNumber cs n places) : PointedDigits cs := by
  obtain ⟨whole, fraction, hwhole, hfraction, hdigits, hdigits', hcs, -⟩ := h
  exact ⟨whole, fraction, hwhole, hfraction, hdigits, hdigits', hcs⟩

/-- The zeros at the end of a list, and what is before them. -/
theorem append_replicate_zero (cs : List Char) :
    ∃ zeros, cs = (cs.reverse.dropWhile (· == '0')).reverse ++ List.replicate zeros '0' := by
  have hall := List.takeWhile_append_dropWhile (p := (· == '0')) (l := cs.reverse)
  have hzeros : ∀ d ∈ cs.reverse.takeWhile (· == '0'), d = '0' :=
    fun d hd => eq_of_beq (List.all_eq_true.mp List.all_takeWhile d hd)
  refine ⟨(cs.reverse.takeWhile (· == '0')).length, ?_⟩
  rw [← List.reverse_replicate, ← List.eq_replicate_of_mem hzeros, ← List.reverse_append, hall,
    List.reverse_reverse]

/-- A number with a point that is not whole keeps a digit after the point. -/
theorem pointedNumber_pointText {n places : Nat} (h : n % tenTo places ≠ 0) :
    PointedNumber (pointText n places) n places := by
  unfold pointText
  dsimp only
  obtain ⟨padded, hpadded⟩ : ∃ padded, padded =
      List.replicate (places + 1 - (Text.digits n).length) '0' ++ Text.digits n := ⟨_, rfl⟩
  rw [← hpadded]
  have hnumber : Text.number padded = n := by
    rw [hpadded, Text.number_append, Text.number_replicate_zero, Text.number_digits, Nat.mul_zero,
      Nat.zero_add]
  have hlength : places + 1 ≤ padded.length := by
    rw [hpadded, List.length_append, List.length_replicate]
    omega
  have hdigit : ∀ d ∈ padded, d.isDigit = true := by
    intro d hd
    rw [hpadded, List.mem_append] at hd
    rcases hd with hd | hd
    · rw [List.eq_of_mem_replicate hd]
      rfl
    · exact Text.isDigit_of_mem_digits hd
  have hsplit := List.take_append_drop (padded.length - places) padded
  have hplaces : (padded.drop (padded.length - places)).length = places := by
    rw [List.length_drop]
    omega
  obtain ⟨zeros, hzeros⟩ := append_replicate_zero (padded.drop (padded.length - places))
  generalize (((padded.drop (padded.length - places)).reverse.dropWhile (· == '0')).reverse) =
    fraction at hzeros ⊢
  have hlengths : fraction.length + zeros = places := by
    rw [← hplaces, hzeros, List.length_append, List.length_replicate]
  have hpower : tenTo places = tenTo fraction.length * tenTo zeros := by
    rw [← hlengths]
    exact Nat.pow_add 10 fraction.length zeros
  -- The zeros that were taken away make the number a power of ten smaller.
  rw [hzeros, ← List.append_assoc] at hsplit
  have hvalue :
      n = Text.number (padded.take (padded.length - places) ++ fraction) * tenTo zeros := by
    refine hnumber.symm.trans ((congrArg Text.number hsplit.symm).trans ?_)
    rw [Text.number_append, Text.number_replicate_zero, List.length_replicate, Nat.add_zero,
      Nat.mul_comm]
  refine ⟨padded.take (padded.length - places), fraction, ?_, ?_,
    fun d hd => hdigit d (List.mem_of_mem_take hd), fun d hd => ?_, rfl, ?_⟩
  · intro hnil
    have hlen := congrArg List.length hnil
    rw [List.length_take, List.length_nil] at hlen
    omega
  · -- Were there only zeros after the point, the number would be whole.
    rintro rfl
    apply h
    rw [hvalue, ← hlengths, List.length_nil, Nat.zero_add, Nat.mul_mod_left]
  · refine hdigit d (List.mem_of_mem_drop (i := padded.length - places) ?_)
    rw [hzeros]
    exact List.mem_append_left _ hd
  · rw [hpower, hvalue, Nat.mul_comm (tenTo _) (tenTo _), Nat.mul_assoc]

/-! ### Powers of ten -/

theorem tenTo_sub_mul (m n : Nat) :
    tenTo (m - n) * tenTo n = tenTo (n - m) * tenTo m := by
  change 10 ^ ((m : Int) - n).toNat * 10 ^ n = 10 ^ ((n : Int) - m).toNat * 10 ^ m
  rw [← Nat.pow_add, ← Nat.pow_add]
  congr 1
  omega

theorem tenTo_mul_tenTo_sub (k : Int) (n : Nat) :
    tenTo k * tenTo (n - k) = tenTo n * (tenTo (-k) * tenTo (k - n)) := by
  change 10 ^ k.toNat * 10 ^ (n - k).toNat = 10 ^ n * (10 ^ (-k).toNat * 10 ^ (k - n).toNat)
  rw [← Nat.pow_add, ← Nat.pow_add, ← Nat.pow_add]
  congr 1
  omega

/-! ### The search -/

namespace RoundingInterval

variable {r : RoundingInterval}

/-- A decimal lies in the interval if it lies strictly between its ends. -/
theorem holds_of_lt {d : Decimal}
    (hlow : r.low * tenTo (-d.exponent) < d.digits * tenTo d.exponent * r.denominator)
    (hhigh : d.digits * tenTo d.exponent * r.denominator < r.high * tenTo (-d.exponent)) :
    r.holds d = true := by
  unfold holds
  split
  · exact Bool.and_eq_true_iff.mpr ⟨decide_eq_true (Nat.le_of_lt hlow),
      decide_eq_true (Nat.le_of_lt hhigh)⟩
  · exact Bool.and_eq_true_iff.mpr ⟨decide_eq_true hlow, decide_eq_true hhigh⟩

/-- A decimal in an interval without its ends lies strictly between them. -/
theorem lt_of_holds {d : Decimal} (hopen : r.closed = false) (h : r.holds d = true) :
    r.low * tenTo (-d.exponent) < d.digits * tenTo d.exponent * r.denominator ∧
      d.digits * tenTo d.exponent * r.denominator < r.high * tenTo (-d.exponent) := by
  rw [holds, hopen] at h
  obtain ⟨hlow, hhigh⟩ := Bool.and_eq_true_iff.mp h
  exact ⟨of_decide_eq_true hlow, of_decide_eq_true hhigh⟩

/-- A decimal in the interval lies between its ends. -/
theorem le_of_holds {d : Decimal} (h : r.holds d = true) :
    r.low * tenTo (-d.exponent) ≤ d.digits * tenTo d.exponent * r.denominator ∧
      d.digits * tenTo d.exponent * r.denominator ≤ r.high * tenTo (-d.exponent) := by
  unfold holds at h
  split at h
  · obtain ⟨hlow, hhigh⟩ := Bool.and_eq_true_iff.mp h
    exact ⟨of_decide_eq_true hlow, of_decide_eq_true hhigh⟩
  · obtain ⟨hlow, hhigh⟩ := Bool.and_eq_true_iff.mp h
    exact ⟨Nat.le_of_lt (of_decide_eq_true hlow), Nat.le_of_lt (of_decide_eq_true hhigh)⟩

theorem holds_of_onGrid {exponent : Int} {d : Decimal} (h : r.onGrid exponent = some d) :
    r.holds d = true := by
  simp only [onGrid] at h
  split at h
  · rename_i habove
    cases h
    exact (Bool.and_eq_true_iff.mp habove).1
  split at h
  · rename_i hbelow
    cases h
    exact hbelow
  · cases h

/-- The search finds decimals of the interval only. -/
theorem holds_of_search {count tries : Nat} {d : Decimal} (h : r.search count tries = some d) :
    r.holds d = true := by
  induction tries generalizing count with
  | zero => cases h
  | succ tries ih =>
    rw [search] at h
    split at h
    · rename_i hgrid
      cases h
      exact holds_of_onGrid hgrid
    · exact ih h

/-- The search finds something if there is something on one of its grids. -/
theorem isSome_search {count tries k : Nat} (hk : k < tries)
    (h : (r.onGrid (r.magnitude - (count + k : Nat))).isSome = true) :
    (r.search count tries).isSome = true := by
  induction tries generalizing count k with
  | zero => omega
  | succ tries ih =>
    rw [search]
    split
    · rfl
    · rename_i hnone
      cases k with
      | zero =>
        rw [Nat.add_zero, hnone] at h
        cases h
      | succ k =>
        refine ih (Nat.lt_of_succ_lt_succ hk) ?_
        rwa [Nat.add_right_comm, Nat.add_assoc]

/-- **One of the two neighbours on a grid lies in the interval**, if the step of the grid is less
than the interval is long. -/
theorem isSome_onGrid {below : Nat} {exponent : Int} (hlow : r.low + below = r.value)
    (hhigh : r.high = r.value + 2) (hpos : 0 < r.denominator)
    (h : r.denominator * tenTo exponent < (below + 2) * tenTo (-exponent)) :
    (r.onGrid exponent).isSome = true := by
  have hunit : 0 < r.denominator * tenTo exponent := Nat.mul_pos hpos (tenTo_pos exponent)
  have hlow' : r.low * tenTo (-exponent) + below * tenTo (-exponent) =
      r.value * tenTo (-exponent) := by rw [← Nat.add_mul, hlow]
  have hhigh' : r.high * tenTo (-exponent) =
      r.value * tenTo (-exponent) + 2 * tenTo (-exponent) := by rw [hhigh, Nat.add_mul]
  rw [Nat.add_mul] at h
  unfold onGrid
  dsimp only
  generalize hscaled : r.value * tenTo (-exponent) = scaled at hlow' hhigh' ⊢
  have hdiv := Nat.div_add_mod scaled (r.denominator * tenTo exponent)
  have hmod := Nat.mod_lt scaled hunit
  have hbelow : scaled / (r.denominator * tenTo exponent) * tenTo exponent * r.denominator =
      r.denominator * tenTo exponent * (scaled / (r.denominator * tenTo exponent)) := by
    rw [Nat.mul_assoc, Nat.mul_comm, Nat.mul_comm (tenTo exponent)]
  have habove : (scaled / (r.denominator * tenTo exponent) + 1) * tenTo exponent * r.denominator =
      r.denominator * tenTo exponent * (scaled / (r.denominator * tenTo exponent)) +
        r.denominator * tenTo exponent := by
    rw [Nat.add_mul, Nat.add_mul, hbelow, Nat.one_mul, Nat.mul_comm (tenTo exponent)]
  -- The neighbours are one step apart. If the lower one is not in the interval, the upper one is.
  by_cases hnear : scaled % (r.denominator * tenTo exponent) < below * tenTo (-exponent)
  · have hholds : r.holds ⟨scaled / (r.denominator * tenTo exponent), exponent⟩ = true := by
      refine holds_of_lt ?_ ?_
      · dsimp only
        omega
      · have := tenTo_pos (-exponent)
        dsimp only
        omega
    split
    · rfl
    · rfl
  · have hholds : r.holds ⟨scaled / (r.denominator * tenTo exponent) + 1, exponent⟩ = true := by
      refine holds_of_lt ?_ ?_
      · dsimp only
        omega
      · dsimp only
        omega
    split
    · rfl
    split
    · rfl
    · rename_i hnotAbove hnotBelow
      rw [hholds, Bool.not_eq_true] at hnotAbove
      simp [hnotBelow] at hnotAbove

/-- The value is at least the power of ten below its magnitude. -/
theorem tenTo_magnitude_le (hvalue : 0 < r.value) :
    r.denominator * tenTo (r.magnitude - 1) ≤ r.value * tenTo (1 - r.magnitude) := by
  obtain ⟨a, ha⟩ : ∃ a, digitCount r.value = a + 1 :=
    Nat.exists_eq_add_one.mpr Nat.length_toDigits_pos
  have hlower : tenTo a ≤ r.value := by
    refine Nat.not_lt.mp fun hlt => ?_
    rcases Nat.eq_zero_or_pos a with rfl | hapos
    · have hone : tenTo ((0 : Nat) : Int) = 1 := rfl
      omega
    · have hle := (Nat.length_toDigits_le_iff (by decide) hapos).mpr hlt
      rw [← Text.digits, ← digitCount, ha] at hle
      omega
  have hupper : r.denominator < tenTo (digitCount r.denominator) :=
    (Nat.length_toDigits_le_iff (by decide) Nat.length_toDigits_pos).mp (Nat.le_refl _)
  unfold magnitude
  rw [ha]
  generalize digitCount r.denominator = b at hupper
  dsimp only
  split
  · have h1 : ((a + 1 : Nat) : Int) - b - 1 = (a : Int) - b := by omega
    have h2 : 1 - (((a + 1 : Nat) : Int) - b) = (b : Int) - a := by omega
    rw [h1, h2]
    refine Nat.le_of_mul_le_mul_right ?_ (tenTo_pos b)
    calc r.denominator * tenTo (a - b) * tenTo b
        = r.denominator * tenTo a * tenTo (b - a) := by
          rw [Nat.mul_assoc, tenTo_sub_mul, Nat.mul_comm (tenTo (b - a)), ← Nat.mul_assoc]
      _ ≤ tenTo b * r.value * tenTo (b - a) :=
          Nat.mul_le_mul_right _ (Nat.mul_le_mul (Nat.le_of_lt hupper) hlower)
      _ = r.value * tenTo (b - a) * tenTo b := by
          rw [Nat.mul_comm (tenTo b), Nat.mul_right_comm]
  · rename_i hge
    have h1 : ((a + 1 : Nat) : Int) - b + 1 - 1 = ((a + 1 : Nat) : Int) - b := by omega
    have h2 : 1 - (((a + 1 : Nat) : Int) - b + 1) = -(((a + 1 : Nat) : Int) - b) := by omega
    rw [h1, h2]
    exact Nat.not_lt.mp hge

end RoundingInterval

/-! ### The interval of a double -/

variable {m : Nat} {q : Int} {denserBelow : Bool}

/-- How far the interval of a double reaches down. -/
def reachBelow (denserBelow : Bool) : Nat := if denserBelow then 1 else 2

theorem roundingInterval_of_neg (hq : q < 0) (m : Nat) (denserBelow : Bool) :
    (roundingInterval m q denserBelow).low = 4 * m - reachBelow denserBelow ∧
      (roundingInterval m q denserBelow).value = 4 * m ∧
      (roundingInterval m q denserBelow).high = 4 * m + 2 ∧
      (roundingInterval m q denserBelow).denominator = 4 * twoTo (-q) := by
  have hfactor : twoTo (q - 2) = 1 := by
    rw [twoTo, Int.toNat_of_nonpos (by omega)]
  have hdenominator : twoTo (2 - q) = 4 * twoTo (-q) := by
    have hsplit : (2 - q).toNat = 2 + (-q).toNat := by omega
    rw [twoTo, hsplit]
    exact Nat.pow_add 2 2 (-q).toNat
  simp only [roundingInterval, hfactor, hdenominator, Nat.mul_one, reachBelow, and_self]

/-- **Seventeen digits suffice.** -/
theorem isSome_search_roundingInterval (hq : q < 0) (hpos : 0 < m) (hlt : m < 2 * hiddenBit)
    (hdense : denserBelow = true → m = hiddenBit) :
    ((roundingInterval m q denserBelow).search 1 17).isSome = true := by
  obtain ⟨hlow, hvalue, hhigh, hden⟩ :=
    roundingInterval_of_neg hq m denserBelow
  generalize roundingInterval m q denserBelow = r at hlow hvalue hhigh hden ⊢
  have hunit : 0 < r.denominator := by
    have := twoTo_pos (-q)
    omega
  have hreach : reachBelow denserBelow ≤ 4 * m ∧
      4 * m < tenTo (16 : Nat) * (reachBelow denserBelow + 2) := by
    have hbit : hiddenBit = 2 ^ 52 := rfl
    cases denserBelow with
    | false =>
      change 2 ≤ 4 * m ∧ 4 * m < 10000000000000000 * (2 + 2)
      omega
    | true =>
      have := hdense rfl
      change 1 ≤ 4 * m ∧ 4 * m < 10000000000000000 * (1 + 2)
      omega
  have hlow' : r.low + reachBelow denserBelow = r.value := by omega
  refine RoundingInterval.isSome_search (k := 16) (by decide) ?_
  refine RoundingInterval.isSome_onGrid hlow' (by omega) hunit ?_
  -- The last grid is sixteen powers of ten below the one that the value reaches.
  have hmagnitude := RoundingInterval.tenTo_magnitude_le (r := r) (by omega)
  generalize hk : r.magnitude - 1 = a at hmagnitude
  have h1 : 1 - r.magnitude = -a := by omega
  have h2 : r.magnitude - (1 + 16 : Nat) = a - (16 : Nat) := by omega
  have h3 : -(a - (16 : Nat)) = (16 : Nat) - a := by omega
  rw [h1, hvalue] at hmagnitude
  rw [h2, h3]
  have hpowers := tenTo_mul_tenTo_sub a 16
  refine Nat.lt_of_mul_lt_mul_left (a := tenTo (16 : Nat) * tenTo (-a)) ?_
  calc tenTo (16 : Nat) * tenTo (-a) * (r.denominator * tenTo (a - (16 : Nat)))
      = r.denominator * (tenTo (16 : Nat) * (tenTo (-a) * tenTo (a - (16 : Nat)))) := by
        rw [Nat.mul_left_comm, Nat.mul_assoc]
    _ = r.denominator * tenTo a * tenTo ((16 : Nat) - a) := by
        rw [← hpowers, Nat.mul_assoc]
    _ ≤ 4 * m * tenTo (-a) * tenTo ((16 : Nat) - a) := Nat.mul_le_mul_right _ hmagnitude
    _ < tenTo (16 : Nat) * (reachBelow denserBelow + 2) * tenTo (-a) * tenTo ((16 : Nat) - a) :=
        Nat.mul_lt_mul_of_pos_right
          (Nat.mul_lt_mul_of_pos_right hreach.2 (tenTo_pos _)) (tenTo_pos _)
    _ = tenTo (16 : Nat) * tenTo (-a) *
          ((reachBelow denserBelow + 2) * tenTo ((16 : Nat) - a)) := by
        rw [Nat.mul_right_comm (tenTo (16 : Nat)), Nat.mul_assoc]

/-- **No whole number lies in the interval** of a double that is not whole. -/
theorem mod_ne_zero_of_holds (hq : q < 0) (h : ¬ isWhole m q = true) {d : Decimal}
    (hd : (roundingInterval m q denserBelow).holds d = true) :
    d.digits * tenTo d.exponent % tenTo (-d.exponent).toNat ≠ 0 := by
  obtain ⟨hlow, -, hhigh, hden⟩ := roundingInterval_of_neg hq m denserBelow
  obtain ⟨hge, hle⟩ := RoundingInterval.le_of_holds hd
  intro hzero
  obtain ⟨j, hj⟩ := Nat.dvd_of_mod_eq_zero hzero
  have hpos := tenTo_pos (-d.exponent)
  have hunit : tenTo (-d.exponent).toNat = tenTo (-d.exponent) := rfl
  rw [hj, hunit, Nat.mul_assoc, Nat.mul_comm] at hge
  rw [hj, hunit, Nat.mul_assoc, Nat.mul_comm _ (tenTo _)] at hle
  have hge' := Nat.le_of_mul_le_mul_left hge hpos
  have hle' := Nat.le_of_mul_le_mul_left hle hpos
  rw [hlow, hden, Nat.mul_left_comm] at hge'
  rw [hhigh, hden, Nat.mul_left_comm] at hle'
  have hreach : reachBelow denserBelow ≤ 2 := by
    cases denserBelow <;> decide
  have hm : m = j * twoTo (-q) := by omega
  exact h (decide_eq_true (by rw [hm, Nat.mul_mod_left]))

/-! ### The text -/

theorem isWhole_of_nonneg (hq : ¬ q < 0) (m : Nat) : isWhole m q = true := by
  have hone : twoTo (-q) = 1 := by
    rw [twoTo, Int.toNat_of_nonpos (by omega)]
  exact decide_eq_true (by rw [hone, Nat.mod_one])

/-- The text of a whole number spells the number. -/
theorem pointedNumber_magnitudeText_of_isWhole (h : isWhole m q = true) :
    PointedNumber (magnitudeText m q) (m * twoTo q / twoTo (-q)) 0 := by
  rw [magnitudeText, if_pos h]
  refine ⟨Text.digits (m * twoTo q / twoTo (-q)), ['0'], Nat.toDigits_ne_nil, List.cons_ne_nil _ _,
    fun d hd => Text.isDigit_of_mem_digits hd, List.all_eq_true.mp rfl, rfl, ?_⟩
  rw [Text.number_append, Text.number_digits, Nat.mul_comm (tenTo _)]
  exact Nat.mul_one _

/-- **The text of any other number spells a decimal in its interval.** -/
theorem exists_pointedNumber_magnitudeText (hlt : m < 2 * hiddenBit) (h : ¬isWhole m q = true) :
    ∃ d : Decimal,
      (roundingInterval m q (m = hiddenBit && q ≠ leastExponent)).holds d = true ∧
      PointedNumber (magnitudeText m q) (d.digits * tenTo d.exponent) (-d.exponent).toNat := by
  have hq : q < 0 := by
    refine Int.not_le.mp fun hle => h (isWhole_of_nonneg (by omega) m)
  have hpos : 0 < m := by
    refine Nat.pos_of_ne_zero ?_
    rintro rfl
    exact h (decide_eq_true (Nat.zero_mod _))
  rw [magnitudeText, if_neg h]
  dsimp only
  generalize hdense : (decide (m = hiddenBit) && decide (q ≠ leastExponent)) = denserBelow
  have hdense' : denserBelow = true → m = hiddenBit := by
    rintro rfl
    exact of_decide_eq_true (Bool.and_eq_true_iff.mp hdense).1
  obtain ⟨d, hd⟩ :=
    Option.isSome_iff_exists.mp (isSome_search_roundingInterval hq hpos hlt hdense')
  have hholds := RoundingInterval.holds_of_search hd
  rw [shortest, hd, Option.getD_some]
  exact ⟨d, hholds, pointedNumber_pointText (mod_ne_zero_of_holds hq h hholds)⟩

theorem pointedDigits_magnitudeText (hlt : m < 2 * hiddenBit) (q : Int) :
    PointedDigits (magnitudeText m q) := by
  by_cases h : isWhole m q = true
  · exact (pointedNumber_magnitudeText_of_isWhole h).pointedDigits
  · obtain ⟨d, -, hd⟩ := exists_pointedNumber_magnitudeText hlt h
    exact hd.pointedDigits

theorem mantissa_lt {x : Float} {negative : Bool} (h : parts x = .finite negative m q) :
    m < 2 * hiddenBit := by
  have hmod : x.toBits.toNat % hiddenBit < hiddenBit := Nat.mod_lt _ (by decide)
  unfold parts at h
  dsimp only at h
  split at h
  · split at h <;> cases h
  split at h
  · cases h
    omega
  · cases h
    omega

/-- **The text of a finite double is digits, a point and digits**, if the double is not negative. -/
theorem pointedDigits_text {x : Float} (h : parts x = .finite false m q) :
    PointedDigits (text x).toList := by
  rw [text, h]
  simpa using pointedDigits_magnitudeText (mantissa_lt h) q

end Double

end ClassLang
