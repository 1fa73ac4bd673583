import ClassLang.Double.Text

/-!
# Doubles that are read from digits

A double that is read from digits is a number and is not negative, so it is finite or infinite
(`ClassLang.Double.parts_read`). This is followed through the logical model of doubles: unpacked
numbers carry their sign, the quotient of two positive numbers is rounded under a positive sign, and
packing a positive number leaves the top bit of the 64 bits clear.
-/

namespace ClassLang

namespace Double

open Float.Model (Format UnpackedFloat)
open Float.Model.UnpackedFloat

/-! ### Unpacked numbers -/

/-- A number that is not negative. -/
def Positive : UnpackedFloat → Prop
  | .infinity s | .zero s | .finite s _ _ _ => s = .positive
  | .notANumber => False

theorem positive_dite {c : Prop} [Decidable c] {f : c → UnpackedFloat} {g : ¬c → UnpackedFloat}
    (hf : ∀ h, Positive (f h)) (hg : ∀ h, Positive (g h)) : Positive (dite c f g) := by
  by_cases h : c
  · rw [dif_pos h]
    exact hf h
  · rw [dif_neg h]
    exact hg h

theorem positive_roundWithAccuracy (spec : Format) (m : Nat) (e : Int) (a : Accuracy) :
    Positive (roundWithAccuracy spec .positive m e a) :=
  positive_dite (fun _ => rfl) fun _ => rfl

theorem positive_div {spec : Format} {u : UnpackedFloat} (h : Positive u) {m : Nat} {e : Int}
    (hm : 0 < m) : Positive (div spec u (.finite .positive m e hm)) := by
  cases u with
  | infinity s =>
    obtain rfl : s = .positive := h
    rfl
  | notANumber => exact h.elim
  | zero s =>
    obtain rfl : s = .positive := h
    rfl
  | finite s m' e' hm' =>
    obtain rfl : s = .positive := h
    exact positive_roundWithAccuracy _ _ _ _

theorem positive_ofScientific (spec : Format) (m : Nat) (e : Int) :
    Positive (ofScientific spec m e) := by
  unfold ofScientific
  refine positive_dite (fun _ => rfl) fun _ => ?_
  refine iteInduction (fun _ => rfl) fun _ => ?_
  refine iteInduction (fun _ => rfl) fun _ => ?_
  refine iteInduction (fun _ => ?_) fun _ => ?_
  · exact positive_roundWithAccuracy _ _ _ _
  · exact positive_roundWithAccuracy _ _ _ _

theorem positive_ofNat (spec : Format) (n : Nat) : Positive (ofNat spec n) := by
  unfold ofNat ofInt UnpackedFloat.normalize
  split
  · rename_i h
    have hneg := Int.compare_eq_lt.mp h
    omega
  · rfl
  · exact positive_roundWithAccuracy _ _ _ _

/-! ### Packing -/

theorem toNat_packComponents (exponent : BitVec 11) (mantissa : BitVec 52) :
    (packComponents Format.binary64 .positive exponent mantissa).toNat =
      exponent.toNat * hiddenBit + mantissa.toNat := by
  have hm := mantissa.isLt
  have he := exponent.isLt
  simp only [packComponents, Sign.toBitVec, BitVec.toNat_append]
  rw [← Nat.shiftLeft_add_eq_or_of_lt hm, Nat.shiftLeft_eq, ← Nat.shiftLeft_add_eq_or_of_lt he]
  change (0 <<< 11 + exponent.toNat) * hiddenBit + mantissa.toNat = _
  rw [Nat.zero_shiftLeft, Nat.zero_add]

/-- A positive number is packed without a sign, and the greatest exponent goes with no mantissa. -/
theorem exists_pack {u : UnpackedFloat} (h : Positive u) :
    ∃ (exponent : BitVec 11) (mantissa : BitVec 52),
      pack Format.binary64 u = packComponents Format.binary64 .positive exponent mantissa ∧
      (exponent = -1#11 → mantissa = 0#52) := by
  fun_cases pack Format.binary64 u with
  | case1 => exact h.elim
  | case2 s =>
    obtain rfl : s = .positive := h
    exact ⟨_, _, rfl, fun _ => rfl⟩
  | case3 s =>
    obtain rfl : s = .positive := h
    exact ⟨_, _, rfl, fun _ => rfl⟩
  | case4 s m e hm biased hle =>
    obtain rfl : s = .positive := h
    exact ⟨_, _, rfl, fun _ => rfl⟩
  | case5 s m e hm bits biased hlt hnormal =>
    obtain rfl : s = .positive := h
    refine ⟨_, _, rfl, fun hexp => ?_⟩
    have hlt' : biased + 1 < 2 ^ 11 := Nat.lt_of_not_le hlt
    have hnat : biased % 2 ^ 11 = 2047 := congrArg BitVec.toNat hexp
    omega
  | case6 s m e hm bits biased hlt hsub =>
    obtain rfl : s = .positive := h
    refine ⟨_, _, rfl, fun hexp => ?_⟩
    exact absurd hexp (by decide)

theorem parts_of_pack {x : Float} {exponent : BitVec 11} {mantissa : BitVec 52}
    (hx : x.toBits.toNat = exponent.toNat * hiddenBit + mantissa.toNat)
    (h : exponent = -1#11 → mantissa = 0#52) :
    (∃ m q, parts x = .finite false m q) ∨ parts x = .infinite false := by
  have hm := mantissa.isLt
  have he := exponent.isLt
  have hbit : hiddenBit = 2 ^ 52 := rfl
  have hneg : decide (Nat.pow 2 63 ≤ x.toBits.toNat) = false := by
    rw [hx, hbit, decide_eq_false_iff_not]
    change ¬2 ^ 63 ≤ _
    omega
  have hbiased : x.toBits.toNat / hiddenBit % 2048 = exponent.toNat := by
    rw [hx, hbit]
    omega
  have hfraction : x.toBits.toNat % hiddenBit = mantissa.toNat := by
    rw [hx, hbit]
    omega
  simp only [parts, hneg, hbiased, hfraction]
  split
  · rename_i h2047
    have hexp : exponent = -1#11 := by
      apply BitVec.eq_of_toNat_eq
      rw [h2047]
      rfl
    rw [h hexp]
    exact Or.inr rfl
  split
  · exact Or.inl ⟨_, _, rfl⟩
  · exact Or.inl ⟨_, _, rfl⟩

theorem sign_packComponents (exponent : BitVec 11) (mantissa : BitVec 52) :
    Sign.ofBitVec (unpackSign (packComponents Format.binary64 .positive exponent mantissa)) =
      .positive := by
  have hm := mantissa.isLt
  have he := exponent.isLt
  have hzero : unpackSign (packComponents Format.binary64 .positive exponent mantissa) = 0#1 := by
    apply BitVec.eq_of_toNat_eq
    change (BitVec.extractLsb 63 63
      (packComponents Format.binary64 .positive exponent mantissa)).toNat = 0
    rw [BitVec.extractLsb_toNat, toNat_packComponents, Nat.shiftRight_eq_div_pow]
    change (exponent.toNat * 2 ^ 52 + mantissa.toNat) / 2 ^ 63 % 2 ^ 1 = 0
    omega
  rw [hzero]
  rfl

theorem positive_unpack {exponent : BitVec 11} {mantissa : BitVec 52}
    (h : exponent = -1#11 → mantissa = 0#52) :
    Positive (unpack Format.binary64
      (packComponents Format.binary64 .positive exponent mantissa)) := by
  have hsign := sign_packComponents exponent mantissa
  unfold unpack
  refine iteInduction (fun hexp => ?_) fun _ => ?_
  · rw [unpackExponent_packComponents] at hexp
    rw [unpackMantissa_packComponents, if_pos (h hexp)]
    exact hsign
  refine iteInduction (fun _ => ?_) fun _ => ?_
  · exact positive_dite (fun _ => hsign) fun _ => hsign
  · exact hsign

/-! ### Reading digits -/

/-- Whether a number is finite and positive. -/
def isPositiveFinite : UnpackedFloat → Bool
  | .finite .positive _ _ _ => true
  | _ => false

theorem isPositiveFinite_powersOfTen : ∀ x ∈ Float.exactlyRepresentablePowersOfTen.toList,
    isPositiveFinite x.toModel.unpack = true := by
  decide

/-- A number divided by a finite positive one is positive. -/
theorem exists_toModel_div (n : UInt64) {y : Float}
    (hy : isPositiveFinite y.toModel.unpack = true) :
    ∃ u, Positive u ∧ (n.toFloat / y).toModel = Float.Model.pack u := by
  obtain ⟨exponent, mantissa, hpack, hexp⟩ :=
    exists_pack (positive_ofNat Format.binary64 n.toNat)
  have hn : Positive n.toFloat.toModel.unpack := by
    change Positive (unpack Format.binary64 (pack Format.binary64 (ofNat Format.binary64 n.toNat)))
    rw [hpack]
    exact positive_unpack hexp
  refine ⟨div Format.binary64 n.toFloat.toModel.unpack y.toModel.unpack, ?_, rfl⟩
  cases hu : y.toModel.unpack with
  | finite s m q hm =>
    rw [hu] at hy
    cases s with
    | positive => exact positive_div hn hm
    | negative => cases hy
  | _ =>
    rw [hu] at hy
    cases hy

/-- **What is read from digits is finite or infinite, and never negative.** -/
theorem parts_read (whole fraction : List Char) :
    (∃ m q, parts (read whole fraction) = .finite false m q) ∨
      parts (read whole fraction) = .infinite false := by
  suffices h : ∃ u, Positive u ∧ (read whole fraction).toModel = Float.Model.pack u by
    obtain ⟨u, hu, hx⟩ := h
    obtain ⟨exponent, mantissa, hpack, hexp⟩ := exists_pack hu
    have hbits : (read whole fraction).toBits.toNat =
        exponent.toNat * hiddenBit + mantissa.toNat := by
      change (read whole fraction).toModel.toBits.toNat = _
      rw [← toNat_packComponents, ← hpack, hx]
      rfl
    exact parts_of_pack hbits hexp
  unfold read Float.ofScientific
  split
  · exact exists_toModel_div _ (isPositiveFinite_powersOfTen _ (by simp))
  · exact ⟨_, positive_ofScientific _ _ _, rfl⟩

end Double

end ClassLang
