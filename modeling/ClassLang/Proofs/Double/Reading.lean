import ClassLang.Proofs.Double.Rounding
import ClassLang.Proofs.Double.Sign

/-!
# Reading the text of a double

Digits with a point are read as a quotient, of the number that all digits make and a power of ten.
The quotient is rounded to a double, and if it lies in the interval of a double, it is rounded to
this one (`ClassLang.Double.toModel_read`). The text of a double is such digits: it is the double
itself if this is a whole number, and otherwise the shortest decimal in its interval. So every
finite double is read from its text (`ClassLang.Double.exists_read_text`).
-/

namespace ClassLang

namespace Double

open Float.Model (Format UnpackedFloat totalExponent)
open Float.Model.UnpackedFloat

/-! ### Powers of two -/

theorem twoTo_natCast (n : Nat) : twoTo n = 2 ^ n := rfl

theorem two_pow_mul_twoTo {n : Nat} {k e : Int} (hk : 0 ≤ k) (h : n + e = k) :
    2 ^ n * twoTo e = twoTo k * twoTo (-e) := by
  change 2 ^ n * 2 ^ e.toNat = 2 ^ k.toNat * 2 ^ (-e).toNat
  rw [← Nat.pow_add, ← Nat.pow_add]
  congr 1
  omega

/-! ### Division -/

theorem locates_div {d : Nat} (hd : 0 < d) (n : Nat) :
    Locates (.ofMantissaAndAccuracy (n / d) (accuracyOfFraction (n % d) d)) n d := by
  have hsplit := Nat.div_add_mod n d
  have hlt := Nat.mod_lt n hd
  rw [Nat.mul_comm] at hsplit
  generalize n / d = quotient at hsplit
  generalize n % d = rest at hsplit hlt
  unfold accuracyOfFraction
  split
  · change n = quotient * d
    omega
  · cases hcompare : compare (2 * rest) d with
    | lt =>
      have := Nat.compare_eq_lt.mp hcompare
      change quotient * d < n ∧ 2 * n < 2 * (quotient * d) + d
      omega
    | eq =>
      have := Nat.compare_eq_eq.mp hcompare
      change 2 * n = 2 * (quotient * d) + d
      omega
    | gt =>
      have := Nat.compare_eq_gt.mp hcompare
      change 2 * (quotient * d) + d < 2 * n ∧ n < quotient * d + d
      omega

/-- A quotient has at least as many bits as its terms differ by. -/
theorem le_log2_div {n d k : Nat} (hn : 0 < n) (hd : 0 < d) (h : d.log2 + 1 + k ≤ n.log2) :
    k ≤ (n / d).log2 := by
  have hpow : 2 ^ k ≤ n / d := by
    rw [Nat.le_div_iff_mul_le hd]
    calc 2 ^ k * d ≤ 2 ^ k * 2 ^ (d.log2 + 1) :=
          Nat.mul_le_mul_left _ (Nat.le_of_lt Nat.lt_log2_self)
      _ = 2 ^ (d.log2 + 1 + k) := by rw [← Nat.pow_add, Nat.add_comm]
      _ ≤ 2 ^ n.log2 := Nat.pow_le_pow_right (by decide) h
      _ ≤ n := Nat.log2_self_le (Nat.ne_of_gt hn)
  have hne : n / d ≠ 0 := Nat.ne_of_gt (Nat.lt_of_lt_of_le (Nat.two_pow_pos k) hpow)
  exact (Nat.le_log2 hne).mpr hpow

/-- **A quotient in the interval of a double is rounded to the double.** -/
theorem div_eq {n d m b w : Nat} {e e' : Int} (hn : 0 < n) (hd : 0 < d)
    (hw : e - e' = leastExponent + w) (hm : 0 < m) (hcanonical : Canonical m b)
    (h : Near (n * 2 ^ w) d m b) :
    div Format.binary64 (.finite .positive n e hn) (.finite .positive d e' hd) =
      .finite .positive m (leastExponent + b) hm := by
  obtain ⟨target, htarget⟩ : ∃ target, target = min (e - e')
      (Format.binary64.targetExponent (totalExponent n e - totalExponent d e')) := ⟨_, rfl⟩
  change roundWithAccuracy Format.binary64 .positive
    (n <<< (e - e' - min (e - e') (Format.binary64.targetExponent _)).toNat / d) (min (e - e') _)
    (accuracyOfFraction (n <<< (e - e' - min (e - e') _).toNat % d) d) = _
  rw [← htarget]
  rw [Format.targetExponent, totalExponent, totalExponent,
    show Format.binary64.mantissaBits = 53 from rfl,
    show Format.binary64.minExponent = leastExponent from rfl] at htarget
  obtain ⟨a, rfl⟩ : ∃ a : Nat, target = leastExponent + a :=
    ⟨(target - leastExponent).toNat, by omega⟩
  obtain ⟨s, hs⟩ : ∃ s : Nat, (e - e' - (leastExponent + (a : Int))).toNat = s := ⟨_, rfl⟩
  have hsum : s + a = w := by omega
  rw [hs, Nat.shiftLeft_eq]
  refine roundWithAccuracy_eq hd (locates_div hd _) ?_ hm hcanonical ?_
  · -- The exponent was chosen so low that the quotient fills the mantissa.
    rcases Nat.eq_zero_or_pos a with rfl | ha
    · exact Nat.zero_le _
    · have hpos : 0 < n * 2 ^ s := Nat.mul_pos hn (Nat.two_pow_pos s)
      have hlog : n.log2 + s ≤ (n * 2 ^ s).log2 := by
        rw [Nat.le_log2 (Nat.ne_of_gt hpos), Nat.pow_add]
        exact Nat.mul_le_mul_right _ (Nat.log2_self_le (Nat.ne_of_gt hn))
      have hbits := le_log2_div (k := 52) hpos hd (by omega)
      omega
  · rwa [Nat.mul_assoc, ← Nat.pow_add, hsum]

/-! ### Packing -/

/-- The exponent that a double is stored with. Zero stands for the least exponent without the top
bit of the mantissa. -/
def storedExponent (m b : Nat) : Nat := if hiddenBit ≤ m then b + 1 else 0

/-- The fields of a double that is packed. -/
theorem pack_eq_packComponents {m b : Nat} (hm : 0 < m) (hcanonical : Canonical m b)
    (hb : b ≤ 2045) :
    pack Format.binary64 (.finite .positive m (leastExponent + b) hm) =
      packComponents Format.binary64 .positive (BitVec.ofNat 11 (storedExponent m b))
        (BitVec.ofNat 52 m) := by
  have hne : m ≠ 0 := Nat.ne_of_gt hm
  have hlt : m.log2 < 53 := (Nat.log2_lt hne).mpr hcanonical.lt
  have hbiased : (leastExponent + (b : Int) + Format.binary64.exponentBias +
      Format.binary64.mantissaBitsWithoutImplicit).toNat = b + 1 := by
    change (-1074 + (b : Int) + (1023 : Nat) + (52 : Nat)).toNat = b + 1
    omega
  have hfits : ¬2 ^ Format.binary64.exponentBits ≤ b + 1 + 1 := by
    change ¬2048 ≤ b + 1 + 1
    omega
  unfold pack
  dsimp only
  rw [hbiased, if_neg hfits, storedExponent]
  change (if m.log2 + 1 = 53 then _ else _) = _
  by_cases hnormal : hiddenBit ≤ m
  · have hlog : 52 ≤ m.log2 := (Nat.le_log2 hne).mpr hnormal
    rw [if_pos (by omega), if_pos hnormal]
  · have hlog : m.log2 < 52 := (Nat.log2_lt hne).mpr (Nat.lt_of_not_le hnormal)
    rw [if_neg (by omega), if_neg hnormal]

/-- **The bits of a double** count the doubles below it. -/
theorem toNat_pack {m b : Nat} (hm : 0 < m) (hcanonical : Canonical m b) (hb : b ≤ 2045) :
    (pack Format.binary64 (.finite .positive m (leastExponent + b) hm)).toNat =
      b * hiddenBit + m := by
  have hbit : hiddenBit = 2 ^ 52 := rfl
  have hlt := hcanonical.lt
  rw [pack_eq_packComponents hm hcanonical hb, toNat_packComponents, BitVec.toNat_ofNat,
    BitVec.toNat_ofNat, storedExponent]
  by_cases hnormal : hiddenBit ≤ m
  · rw [if_pos hnormal, Nat.mod_eq_of_lt (by omega), hbit]
    omega
  · have hzero : b = 0 := Decidable.byContradiction fun h => hnormal (hcanonical.hiddenBit_le h)
    rw [if_neg hnormal, hzero, hbit]
    omega

/-- Fields that stand for a mantissa with its top bit. -/
theorem unpack_packComponents {exponent : BitVec 11} {mantissa : BitVec 52}
    (hzero : exponent ≠ 0#11) (hones : exponent ≠ -1#11) :
    unpack Format.binary64 (packComponents Format.binary64 .positive exponent mantissa) =
      .finite .positive (hiddenBit + mantissa.toNat) (exponent.toNat - 1 + leastExponent)
        (Nat.add_pos_left (by decide) _) := by
  have hmantissa : (1#1 ++ mantissa).toNat = hiddenBit + mantissa.toNat := by
    rw [BitVec.toNat_append, ← Nat.shiftLeft_add_eq_or_of_lt mantissa.isLt]
    rfl
  unfold unpack
  dsimp only
  rw [if_neg (by rwa [unpackExponent_packComponents]),
    if_neg (by rwa [unpackExponent_packComponents])]
  refine (UnpackedFloat.finite.injEq ..).mpr ⟨sign_packComponents exponent mantissa, ?_, ?_⟩
  · rw [unpackMantissa_packComponents]
    exact hmantissa
  · rw [unpackExponent_packComponents]
    change (exponent.toNat : Int) - ((1023 : Nat) + (52 : Nat)) = _
    rw [leastExponent]
    omega

/-- A double that is packed and has the top bit of its mantissa is unpacked again. -/
theorem unpack_pack {m b : Nat} (hm : 0 < m) (hcanonical : Canonical m b) (hb : b ≤ 2045)
    (hnormal : hiddenBit ≤ m) :
    unpack Format.binary64 (pack Format.binary64 (.finite .positive m (leastExponent + b) hm)) =
      .finite .positive m (leastExponent + b) hm := by
  have hlt := hcanonical.lt
  have hbit : hiddenBit = 2 ^ 52 := rfl
  have hexponent : (BitVec.ofNat 11 (b + 1)).toNat = b + 1 := by
    rw [BitVec.toNat_ofNat, Nat.mod_eq_of_lt (by omega)]
  have hzero : BitVec.ofNat 11 (b + 1) ≠ 0#11 := by
    intro h
    rw [h] at hexponent
    cases hexponent
  have hones : BitVec.ofNat 11 (b + 1) ≠ -1#11 := by
    intro h
    rw [h] at hexponent
    change 2047 = b + 1 at hexponent
    omega
  rw [pack_eq_packComponents hm hcanonical hb, storedExponent, if_pos hnormal,
    unpack_packComponents hzero hones]
  refine (UnpackedFloat.finite.injEq ..).mpr ⟨rfl, ?_, ?_⟩
  · rw [BitVec.toNat_ofNat]
    omega
  · rw [hexponent]
    omega

/-! ### Whole numbers and powers of ten -/

/-- A mantissa that has its top bit stays as it is. -/
theorem roundWithAccuracy_self {m b : Nat} (hm : 0 < m) (hlt : m < 2 * hiddenBit)
    (hnormal : hiddenBit ≤ m) :
    roundWithAccuracy Format.binary64 .positive m (leastExponent + b) .exact =
      .finite .positive m (leastExponent + b) hm := by
  have hcanonical : Canonical m b := ⟨hlt, fun _ => hnormal⟩
  have hlocates : Locates (.ofMantissaAndAccuracy m .exact) m 1 := (Nat.mul_one m).symm
  have hnear := near_self Nat.one_pos m b
  rw [Nat.mul_one] at hnear
  exact roundWithAccuracy_eq Nat.one_pos hlocates
    (Nat.le_of_eq (hcanonical.log2_add_eq hm).symm) hm hcanonical hnear

/-- A whole number that is not too large is a double, which has a mantissa with its top bit. -/
theorem unpack_toFloat {n : Nat} (hn : 0 < n) (hlt : n < 2 * hiddenBit) :
    ∃ (s : Nat) (h : 0 < n * 2 ^ s), s ≤ 52 ∧
      n.toUInt64.toFloat.toModel.unpack = .finite .positive (n * 2 ^ s) (-s) h := by
  have hne : n ≠ 0 := Nat.ne_of_gt hn
  have hlog : n.log2 < 53 := (Nat.log2_lt hne).mpr hlt
  obtain ⟨s, hs⟩ : ∃ s, n.log2 + s = 52 := ⟨52 - n.log2, by omega⟩
  have hpos : 0 < n * 2 ^ s := Nat.mul_pos hn (Nat.two_pow_pos s)
  have hnormal : hiddenBit ≤ n * 2 ^ s :=
    calc hiddenBit = 2 ^ (n.log2 + s) := by rw [hs]; rfl
      _ ≤ n * 2 ^ s := by
        rw [Nat.pow_add]
        exact Nat.mul_le_mul_right _ (Nat.log2_self_le hne)
  have hlt' : n * 2 ^ s < 2 * hiddenBit :=
    calc n * 2 ^ s < 2 ^ (n.log2 + 1) * 2 ^ s :=
          Nat.mul_lt_mul_of_pos_right Nat.lt_log2_self (Nat.two_pow_pos s)
      _ = 2 * hiddenBit := by
        rw [← Nat.pow_add, Nat.add_right_comm, hs]
        rfl
  have hexponent : (-(s : Int)) = leastExponent + ((1074 - s : Nat) : Int) := by
    rw [leastExponent]
    omega
  have htoNat : n.toUInt64.toNat = n := by
    change n % 2 ^ 64 = n
    rw [show hiddenBit = 2 ^ 52 from rfl] at hlt
    omega
  have hround : ofNat Format.binary64 n.toUInt64.toNat =
      .finite .positive (n * 2 ^ s) (-(s : Int)) hpos := by
    have htarget : Format.binary64.targetExponent (totalExponent n 0) = -(s : Int) := by
      rw [Format.targetExponent, totalExponent,
        show Format.binary64.mantissaBits = 53 from rfl,
        show Format.binary64.minExponent = leastExponent from rfl, leastExponent]
      omega
    have hgt : compare (n : Int) 0 = .gt := Int.compare_eq_gt.mpr (by omega)
    rw [htoNat, ofNat, ofInt, UnpackedFloat.normalize, hgt]
    dsimp only
    rw [Int.toNat_natCast, UnpackedFloat.round, htarget, decreaseExponent,
      show (0 - -(s : Int)).toNat = s by omega, Nat.shiftLeft_eq]
    dsimp only
    rw [Int.zero_sub, hexponent]
    exact roundWithAccuracy_self hpos hlt' hnormal
  refine ⟨s, hpos, by omega, ?_⟩
  change unpack Format.binary64
    (pack Format.binary64 (ofNat Format.binary64 n.toUInt64.toNat)) = _
  rw [hround, hexponent]
  exact unpack_pack hpos ⟨hlt', fun _ => hnormal⟩ (by omega) hnormal

/-- Whether a number is finite, positive and this power of ten, with an exponent in a certain
range. -/
def isPowerOfTen (k : Nat) : UnpackedFloat → Bool
  | .finite .positive m e _ =>
    m * twoTo e = 10 ^ k * twoTo (-e) && decide (-52 ≤ e) && decide (e ≤ 22)
  | _ => false

theorem isPowerOfTen_powersOfTen : ∀ (k : Nat) (h : k < 23),
    isPowerOfTen k (Float.exactlyRepresentablePowersOfTen.toList[k]).toModel.unpack = true := by
  decide

theorem exists_of_isPowerOfTen {k : Nat} {u : UnpackedFloat} (h : isPowerOfTen k u = true) :
    ∃ (p : Nat) (e : Int) (hp : 0 < p), u = .finite .positive p e hp ∧
      p * twoTo e = 10 ^ k * twoTo (-e) ∧ -52 ≤ e ∧ e ≤ 22 := by
  cases u with
  | finite s p e hp =>
    cases s with
    | positive =>
      obtain ⟨hfirst, hle⟩ := Bool.and_eq_true_iff.mp h
      obtain ⟨hvalue, hge⟩ := Bool.and_eq_true_iff.mp hfirst
      exact ⟨p, e, hp, rfl, of_decide_eq_true hvalue, of_decide_eq_true hge, of_decide_eq_true hle⟩
    | negative => cases h
  | _ => cases h

/-! ### Reading digits -/

section

variable {n k m b : Nat}

/-- The quotient of a whole number and a power of ten that are both doubles. -/
theorem toModel_div_powersOfTen (hn : 0 < n) (hlt : n < 2 * hiddenBit) (hk : k < 23) (hm : 0 < m)
    (hcanonical : Canonical m b) (h : Near (n * twoTo (-leastExponent)) (10 ^ k) m b) :
    (n.toUInt64.toFloat / Float.exactlyRepresentablePowersOfTen.toList[k]).toModel =
      Float.Model.pack (.finite .positive m (leastExponent + b) hm) := by
  obtain ⟨s, hpos, hs, hn'⟩ := unpack_toFloat hn hlt
  obtain ⟨p, e, hp, hten, hvalue, hle, hge⟩ :=
    exists_of_isPowerOfTen (isPowerOfTen_powersOfTen k hk)
  generalize Float.exactlyRepresentablePowersOfTen.toList[k] = y at hten ⊢
  change Float.Model.pack (div Format.binary64 _ y.toModel.unpack) = _
  obtain ⟨w, hw⟩ : ∃ w : Nat, -(s : Int) - e = leastExponent + w :=
    ⟨(1074 - s - e).toNat, by rw [leastExponent]; omega⟩
  rw [hn', hten, div_eq hpos hp hw hm hcanonical]
  -- The powers of two that the mantissas were filled up with make up for the exponents.
  have hpowers : 2 ^ (s + w) * twoTo e = twoTo (-leastExponent) * twoTo (-e) :=
    two_pow_mul_twoTo (by decide) (by omega)
  refine h.of_mul_eq (Nat.pow_pos (by decide)) hp ?_
  refine Nat.eq_of_mul_eq_mul_right (twoTo_pos e) ?_
  calc n * twoTo (-leastExponent) * p * twoTo e
      = n * twoTo (-leastExponent) * (10 ^ k * twoTo (-e)) := by rw [Nat.mul_assoc, hvalue]
    _ = n * (twoTo (-leastExponent) * twoTo (-e)) * 10 ^ k := by
        rw [Nat.mul_assoc, Nat.mul_assoc, Nat.mul_assoc, Nat.mul_comm (10 ^ k)]
    _ = n * (2 ^ s * 2 ^ w * twoTo e) * 10 ^ k := by rw [← hpowers, Nat.pow_add]
    _ = n * 2 ^ s * 2 ^ w * 10 ^ k * twoTo e := by
        rw [Nat.mul_right_comm _ (10 ^ k), ← Nat.mul_assoc n, ← Nat.mul_assoc n]

/-- A quotient in the interval of a double is not so small that it is taken for zero. -/
theorem le_log2_of_near_tenth (hm : 0 < m) (h : Near (n * twoTo (-leastExponent)) (10 ^ k) m b) :
    k ≤ 2048 + n.log2 := by
  have hlow := h.low
  have hunit : 2 ^ b * 10 ^ k ≤ m * (2 ^ b * 10 ^ k) := Nat.le_mul_of_pos_left _ hm
  obtain ⟨w, hw, hsmall⟩ : ∃ w : Nat, -leastExponent = w ∧ w ≤ 1074 := ⟨1074, rfl, Nat.le_refl _⟩
  rw [hw] at hlow
  have hten : 2 ^ (3 * k) < 2 ^ (n.log2 + 2 + w) :=
    calc 2 ^ (3 * k) = (2 ^ 3) ^ k := Nat.pow_mul 2 3 k
      _ ≤ 10 ^ k := Nat.pow_le_pow_left (by decide) k
      _ ≤ 2 ^ b * 10 ^ k := Nat.le_mul_of_pos_left _ (Nat.two_pow_pos b)
      _ ≤ 2 * n * twoTo w := by
          rw [Nat.mul_assoc]
          omega
      _ < 2 * 2 ^ (n.log2 + 1) * twoTo w :=
          Nat.mul_lt_mul_of_pos_right
            (Nat.mul_lt_mul_of_pos_left Nat.lt_log2_self (by decide)) (twoTo_pos _)
      _ = 2 ^ (n.log2 + 2 + w) := by rw [← Nat.pow_succ', Nat.pow_add, twoTo_natCast]
  have hlt := (Nat.pow_lt_pow_iff_right (by decide)).mp hten
  omega

theorem ofScientific_eq (hn : 0 < n) (hk : 0 < k) (hm : 0 < m) (hcanonical : Canonical m b)
    (h : Near (n * twoTo (-leastExponent)) (10 ^ k) m b) :
    ofScientific Format.binary64 n (Int.negOfNat k) =
      .finite .positive m (leastExponent + b) hm := by
  have hle := le_log2_of_near_tenth hm h
  have hbits : (2 : Int) ^ Format.binary64.exponentBits = 2048 := rfl
  rw [Int.negOfNat_eq, Int.ofNat_eq_natCast, ofScientific, dif_neg (Nat.ne_of_gt hn), hbits,
    if_neg (by omega), if_neg (by omega), if_neg (by omega)]
  have hk' : (- -(k : Int)).toNat = k := by omega
  obtain ⟨w, hw⟩ : ∃ w : Nat, -leastExponent = w := ⟨1074, rfl⟩
  rw [hw, twoTo_natCast] at h
  refine div_eq hn (Nat.pow_pos (by decide)) (w := w) (by omega) hm hcanonical ?_
  rwa [hk']

/-- **Digits with a point are read as the double whose interval their number lies in.** -/
theorem toModel_read {whole fraction : List Char} (hfraction : fraction ≠ []) (hm : 0 < m)
    (hcanonical : Canonical m b)
    (h : Near (Text.number (whole ++ fraction) * twoTo (-leastExponent)) (tenTo fraction.length)
      m b) :
    (read whole fraction).toModel =
      Float.Model.pack (.finite .positive m (leastExponent + b) hm) := by
  have hn : 0 < Text.number (whole ++ fraction) :=
    Nat.pos_of_mul_pos_right (h.pos (tenTo_pos _) hm)
  unfold read Float.ofScientific
  by_cases hsmall : Text.number (whole ++ fraction) < 2 ^ 53 ∧ fraction.length ≤ 22
  · rw [dif_pos hsmall]
    exact toModel_div_powersOfTen hn hsmall.1 (Nat.lt_succ_of_le hsmall.2) hm hcanonical h
  · rw [dif_neg hsmall]
    exact congrArg Float.Model.pack
      (ofScientific_eq hn (List.length_pos_iff.mpr hfraction) hm hcanonical h)

end

/-! ### The interval of a double -/

section

variable {m b : Nat} {q : Int}

/-- The least double and the last bit of a mantissa. -/
theorem two_pow_mul_twoTo_neg (hb : q = leastExponent + b) :
    2 ^ b * twoTo (-q) = twoTo (-leastExponent) * twoTo q := by
  have h := two_pow_mul_twoTo (n := b) (k := -leastExponent) (e := -q) (by decide) (by omega)
  rwa [Int.neg_neg] at h

/-- A whole number lies in its own interval. -/
theorem near_of_isWhole (hb : q = leastExponent + b) (h : isWhole m q = true) :
    Near (m * twoTo q / twoTo (-q) * twoTo (-leastExponent)) (tenTo (0 : Nat)) m b := by
  have hexact : m * twoTo q / twoTo (-q) * twoTo (-q) = m * twoTo q :=
    Nat.div_mul_cancel (Nat.dvd_mul_right_of_dvd (Nat.dvd_of_mod_eq_zero (of_decide_eq_true h)) _)
  have hvalue : m * twoTo q / twoTo (-q) * twoTo (-leastExponent) =
      m * (2 ^ b * tenTo (0 : Nat)) := by
    refine Nat.eq_of_mul_eq_mul_right (twoTo_pos q) ?_
    rw [Nat.mul_assoc, ← two_pow_mul_twoTo_neg hb, Nat.mul_left_comm, hexact, Nat.mul_left_comm,
      ← Nat.mul_assoc m]
    exact congrArg (m * · * twoTo q) (Nat.mul_one _).symm
  rw [hvalue]
  exact near_self (tenTo_pos _) m b

/-- **A decimal in the interval of a double is near to it.** -/
theorem near_of_holds (hb : q = leastExponent + b) (hq : q < 0) {d : Decimal}
    (hd : (roundingInterval m q (m = hiddenBit && q ≠ leastExponent)).holds d = true) :
    Near (d.digits * tenTo d.exponent * twoTo (-leastExponent)) (tenTo (-d.exponent)) m b := by
  have hpowers : twoTo (-leastExponent) = twoTo (-q) * 2 ^ b := by
    have hone : twoTo q = 1 := by rw [twoTo, Int.toNat_of_nonpos (by omega)]
    rw [Nat.mul_comm (twoTo (-q)), two_pow_mul_twoTo_neg hb, hone, Nat.mul_one]
  rw [hpowers, ← Nat.mul_assoc]
  have hdense : m = hiddenBit → b ≠ 0 →
      reachBelow (m = hiddenBit && q ≠ leastExponent) = 1 := by
    intro hm hne
    have hq' : q ≠ leastExponent := by omega
    simp [reachBelow, hm, hq']
  have hreach : reachBelow (m = hiddenBit && q ≠ leastExponent) ≤ 2 := by
    unfold reachBelow
    split <;> decide
  obtain ⟨hlow, -, hhigh, hden⟩ := roundingInterval_of_neg hq m (m = hiddenBit && q ≠ leastExponent)
  have hge := RoundingInterval.le_of_holds hd
  have hodd : m % 2 = 1 → _ := fun hm =>
    RoundingInterval.lt_of_holds (decide_eq_false (by omega)) hd
  rw [hlow, hhigh, hden, Nat.sub_mul, Nat.add_mul, Nat.mul_assoc 4, Nat.mul_left_comm _ 4]
    at hge hodd
  generalize reachBelow (m = hiddenBit && q ≠ leastExponent) = reach at hdense hreach hge hodd
  have hbelow : reach * tenTo (-d.exponent) ≤ 2 * tenTo (-d.exponent) :=
    Nat.mul_le_mul_right _ hreach
  refine (near_mul_iff (Nat.two_pow_pos b) (Nat.mul_comm _ _)).mpr
    ⟨by omega, by omega, fun hm => ?_, fun hm hne => ?_⟩
  · have := hodd hm
    omega
  · rw [hdense hm hne] at hge
    omega

/-- **The text of a finite double spells a number in its interval.** -/
theorem exists_near_text {x : Float} (h : parts x = .finite false m q)
    (hb : q = leastExponent + b) :
    ∃ n places, PointedNumber (text x).toList n places ∧
      Near (n * twoTo (-leastExponent)) (tenTo places) m b := by
  have htext : (text x).toList = magnitudeText m q := by
    rw [text, h]
    exact String.toList_ofList
  rw [htext]
  by_cases hwhole : isWhole m q = true
  · exact ⟨_, _, pointedNumber_magnitudeText_of_isWhole hwhole, near_of_isWhole hb hwhole⟩
  · obtain ⟨d, hd, hnumber⟩ := exists_pointedNumber_magnitudeText (mantissa_lt h) hwhole
    have hq : q < 0 := Int.not_le.mp fun hle => hwhole (isWhole_of_nonneg (by omega) m)
    exact ⟨_, _, hnumber, near_of_holds hb hq hd⟩

/-- The parts of a double tell its bits. -/
theorem exists_of_parts {x : Float} (h : parts x = .finite false m q) :
    ∃ b : Nat, q = leastExponent + b ∧ b ≤ 2045 ∧ Canonical m b ∧
      x.toBits.toNat = b * hiddenBit + m := by
  have hbit : hiddenBit = 2 ^ 52 := rfl
  unfold parts at h
  dsimp only at h
  split at h
  · split at h <;> cases h
  rename_i hfinite
  split at h
  · rename_i hzero
    injection h with hsign hm hq
    have hlt : ¬2 ^ 63 ≤ x.toBits.toNat := of_decide_eq_false hsign
    rw [hbit] at hm hzero
    refine ⟨0, by omega, by decide, ⟨by omega, fun h => absurd rfl h⟩, by omega⟩
  · rename_i hnormal
    injection h with hsign hm hq
    have hlt : ¬2 ^ 63 ≤ x.toBits.toNat := of_decide_eq_false hsign
    rw [hbit] at hm hnormal hq hfinite ⊢
    refine ⟨x.toBits.toNat / 2 ^ 52 % 2048 - 1, by omega, by omega,
      ⟨by omega, fun _ => by omega⟩, by omega⟩

end

theorem eq_of_toNat_toBits {x y : Float} (h : x.toBits.toNat = y.toBits.toNat) : x = y := by
  obtain ⟨⟨bits, valid⟩⟩ := x
  obtain ⟨⟨bits', valid'⟩⟩ := y
  obtain rfl : bits = bits' := UInt64.toNat_inj.mp h
  rfl

/-- **A finite double that is not negative is read from its text.** -/
theorem exists_read_text {x : Float} {m : Nat} {q : Int} (h : parts x = .finite false m q) :
    ∃ whole fraction : List Char, (∀ d ∈ whole, d.isDigit = true) ∧
      (text x).toList = whole ++ '.' :: fraction ∧ read whole fraction = x := by
  obtain ⟨b, hb, hle, hcanonical, hbits⟩ := exists_of_parts h
  rcases Nat.eq_zero_or_pos m with rfl | hm
  · obtain rfl : b = 0 :=
      Decidable.byContradiction fun hne => absurd (hcanonical.hiddenBit_le hne) (by decide)
    obtain rfl : x = Float.ofBits 0 := eq_of_toNat_toBits hbits
    exact ⟨['0'], ['0'], List.all_eq_true.mp rfl, by decide +kernel, by decide +kernel⟩
  · obtain ⟨n, places, ⟨whole, fraction, -, hfraction, hdigits, -, htext, hnumber⟩, hnear⟩ :=
      exists_near_text h hb
    refine ⟨whole, fraction, hdigits, htext, eq_of_toNat_toBits ?_⟩
    have hsame : n * twoTo (-leastExponent) * tenTo fraction.length =
        Text.number (whole ++ fraction) * twoTo (-leastExponent) * tenTo places := by
      rw [Nat.mul_right_comm, ← hnumber, Nat.mul_right_comm]
    have hmodel := toModel_read hfraction hm hcanonical
      (hnear.of_mul_eq (tenTo_pos _) (tenTo_pos _) hsame)
    rw [hbits, ← toNat_pack hm hcanonical hle]
    change (read whole fraction).toModel.toBits.toNat = _
    rw [hmodel]
    rfl

end Double

end ClassLang
