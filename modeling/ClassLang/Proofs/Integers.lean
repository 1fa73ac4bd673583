import Mathlib.Data.Int.ModEq
import ClassLang.Value.Operators

/-!
# Integers have 64 bits

What the operators do to two integers, said in whole numbers. Sums, differences, products and
negatives wrap around: they are the only 64-bit integer that is congruent to the exact result
(`ClassLang.WrapsTo`). Quotients are cut toward zero, and remainders have the sign of the dividend
(`ClassLang.IsDivision`). There is one quotient that 64 bits cannot hold, that of the least integer
by minus one. It wraps around as well, and its remainder is zero. Comparisons are those of whole
numbers.

Nothing but a division by zero fails (`ClassLang.integer_operators_exact`).
-/

namespace ClassLang

/-! ### Wrapping around -/

/-- **A whole number wraps around to a 64-bit integer** if this is the only one that is congruent
to it. -/
def WrapsTo (exact : Int) (c : Int64) : Prop :=
  ∀ c' : Int64, c'.toInt ≡ exact [ZMOD 2 ^ 64] ↔ c' = c

/-- What is left of a number in 64 bits is congruent to it. -/
theorem bmod_modEq (exact : Int) : exact.bmod (2 ^ 64) ≡ exact [ZMOD 2 ^ 64] :=
  Int.bmod_emod

theorem wrapsTo_of_bmod {exact : Int} {c : Int64} (h : c.toInt = exact.bmod (2 ^ 64)) :
    WrapsTo exact c := by
  intro c'
  constructor
  · intro hc'
    -- Both are in the range of 64 bits, where congruent numbers are equal.
    have hmod : c'.toInt ≡ c.toInt [ZMOD 2 ^ 64] := hc'.trans (h ▸ (bmod_modEq exact).symm)
    have hlower := c'.le_toInt
    have hupper := c'.toInt_lt
    have hlower' := c.le_toInt
    have hupper' := c.toInt_lt
    rw [Int.ModEq] at hmod
    exact Int64.toInt_inj.mp (by omega)
  · rintro rfl
    exact h ▸ bmod_modEq exact

/-! ### Division -/

/-- **Quotient and remainder** of a division that is cut toward zero, as far as 64 bits can hold
them. -/
structure IsDivision (a b q r : Int64) : Prop where
  /-- The divisor times the quotient, with the remainder, is the dividend. -/
  congruent : q.toInt * b.toInt + r.toInt ≡ a.toInt [ZMOD 2 ^ 64]
  /-- The remainder is smaller than the divisor. -/
  natAbs_lt : r.toInt.natAbs < b.toInt.natAbs
  /-- It has the sign of the dividend. -/
  sign_eq : r.toInt = 0 ∨ r.toInt.sign = a.toInt.sign
  /-- The quotient is cut toward zero, unless it is too large. -/
  truncated : ¬(a.toInt = -2 ^ 63 ∧ b.toInt = -1) → q.toInt = a.toInt.tdiv b.toInt
  /-- Only one is too large, and it wraps around. -/
  overflow : a.toInt = -2 ^ 63 → b.toInt = -1 → q.toInt = -2 ^ 63 ∧ r.toInt = 0

theorem isDivision (a : Int64) {b : Int64} (hb : b ≠ 0) : IsDivision a b (a / b) (a % b) := by
  have hb' : b.toInt ≠ 0 := fun h => hb (Int64.toInt_inj.mp h)
  have hr := Int64.toInt_mod a b
  have hexact : a.toInt.tdiv b.toInt * b.toInt + a.toInt.tmod b.toInt = a.toInt := by
    rw [Int.mul_comm, Int.mul_tdiv_add_tmod]
  refine ⟨?_, ?_, ?_, fun hfits => ?_, fun hmin hneg => ?_⟩
  · have hq : (a / b).toInt ≡ a.toInt.tdiv b.toInt [ZMOD 2 ^ 64] :=
      Int64.toInt_div a b ▸ bmod_modEq _
    calc (a / b).toInt * b.toInt + (a % b).toInt
      _ ≡ a.toInt.tdiv b.toInt * b.toInt + a.toInt.tmod b.toInt [ZMOD 2 ^ 64] :=
        hr ▸ (hq.mul_right _).add_right _
      _ = a.toInt := hexact
  · rw [hr, Int.natAbs_tmod]
    exact Nat.mod_lt _ (Int.natAbs_pos.mpr hb')
  · rw [hr, Int.sign_tmod, ← Int.sign_eq_zero_iff_zero, Int.sign_tmod]
    split
    · exact .inl rfl
    · exact .inr rfl
  · by_cases hneg : b = -1
    · subst hneg
      exact Int64.toInt_div_of_ne_left a _ fun hmin => hfits ⟨hmin ▸ rfl, rfl⟩
    · exact Int64.toInt_div_of_ne_right a b hneg
  · obtain rfl : a = Int64.minValue := Int64.toInt_inj.mp hmin
    obtain rfl : b = -1 := Int64.toInt_inj.mp hneg
    exact ⟨rfl, rfl⟩

/-! ### Comparison -/

/-- The operators that compare. -/
def comparisons : List BinaryOp :=
  [.less, .equal, .greater, .lessEqual, .greaterEqual, .notEqual]

/-- What a comparison says about two whole numbers. -/
def BinaryOp.Relates : BinaryOp → Int → Int → Prop
  | less, x, y => x < y
  | equal, x, y => x = y
  | greater, x, y => x > y
  | lessEqual, x, y => x ≤ y
  | greaterEqual, x, y => x ≥ y
  | notEqual, x, y => x ≠ y
  | _, _, _ => False

/-- **Whether a comparison of two integers says yes.** -/
def BinaryOp.Holds (op : BinaryOp) (a b : Int64) : Prop :=
  op.apply (.int a) (.int b) = .ok (.bool true)

/-- **A comparison of two integers always gives a truth value**, and says yes if it holds of the
whole numbers. -/
theorem BinaryOp.apply_comparison {op : BinaryOp} (hop : op ∈ comparisons) (a b : Int64) :
    (∃ t, op.apply (.int a) (.int b) = .ok (.bool t)) ∧
      (op.Holds a b ↔ op.Relates a.toInt b.toInt) := by
  -- Every comparison is a decision, and the two are compared by what it decides.
  have hdecide : ∀ {p : Prop} [Decidable p] {q : Prop}, (p ↔ q) →
      op.apply (.int a) (.int b) = .ok (.bool (decide p)) →
      (∃ t, op.apply (.int a) (.int b) = .ok (.bool t)) ∧ (op.Holds a b ↔ q) := by
    intro p _ q hpq happly
    refine ⟨⟨_, happly⟩, ?_⟩
    rw [Holds, happly, ← hpq]
    simp
  simp only [comparisons, List.mem_cons, List.not_mem_nil, or_false] at hop
  rcases hop with rfl | rfl | rfl | rfl | rfl | rfl
  · exact hdecide Int64.lt_iff_toInt_lt rfl
  · exact hdecide Int64.toInt_inj.symm rfl
  · exact hdecide Int64.lt_iff_toInt_lt rfl
  · exact hdecide Int64.le_iff_toInt_le rfl
  · exact hdecide Int64.le_iff_toInt_le rfl
  · exact hdecide (not_congr Int64.toInt_inj.symm) (by simp [apply, Value.equals])

/-- **Comparisons order the integers**: of less, equal and greater exactly one holds, and the other
comparisons are what their names say. -/
structure IsOrdered (a b : Int64) : Prop where
  /-- Every comparison says yes or no. -/
  decided : ∀ op ∈ comparisons, ∃ t, op.apply (.int a) (.int b) = .ok (.bool t)
  /-- What it says is true of the whole numbers. -/
  faithful : ∀ op ∈ comparisons, op.Holds a b ↔ op.Relates a.toInt b.toInt
  /-- There are three cases, and no two of them at once. -/
  trichotomy :
    (BinaryOp.less.Holds a b ∧ ¬BinaryOp.equal.Holds a b ∧ ¬BinaryOp.greater.Holds a b) ∨
    (¬BinaryOp.less.Holds a b ∧ BinaryOp.equal.Holds a b ∧ ¬BinaryOp.greater.Holds a b) ∨
    (¬BinaryOp.less.Holds a b ∧ ¬BinaryOp.equal.Holds a b ∧ BinaryOp.greater.Holds a b)
  lessEqual_iff :
    BinaryOp.lessEqual.Holds a b ↔ BinaryOp.less.Holds a b ∨ BinaryOp.equal.Holds a b
  greaterEqual_iff :
    BinaryOp.greaterEqual.Holds a b ↔ BinaryOp.greater.Holds a b ∨ BinaryOp.equal.Holds a b
  notEqual_iff : BinaryOp.notEqual.Holds a b ↔ ¬BinaryOp.equal.Holds a b

theorem isOrdered (a b : Int64) : IsOrdered a b := by
  have hfaithful : ∀ op ∈ comparisons, op.Holds a b ↔ op.Relates a.toInt b.toInt :=
    fun op hop => (op.apply_comparison hop a b).2
  have hless := hfaithful .less (by decide)
  have hequal := hfaithful .equal (by decide)
  have hgreater := hfaithful .greater (by decide)
  have hlessEqual := hfaithful .lessEqual (by decide)
  have hgreaterEqual := hfaithful .greaterEqual (by decide)
  have hnotEqual := hfaithful .notEqual (by decide)
  refine ⟨fun op hop => (op.apply_comparison hop a b).1, hfaithful, ?_, ?_, ?_, ?_⟩
  · rw [hless, hequal, hgreater]
    simp only [BinaryOp.Relates]
    omega
  · rw [hlessEqual, hless, hequal]
    exact Int.le_iff_lt_or_eq
  · rw [hgreaterEqual, hgreater, hequal]
    simp only [BinaryOp.Relates]
    omega
  · rw [hnotEqual, hequal]
    rfl

/-! ### All operators -/

/-- The outcome of a division by zero. -/
def FailsArithmetically (outcome : Except Fault Value) : Prop :=
  ∃ fault, outcome = .error fault ∧ fault.kind = .arithmetic

/-- A division of integers fails if the divisor is zero, and only then. -/
theorem BinaryOp.division_ints (op : BinaryOp) (byZero : Fault)
    (h : byZero.kind = .arithmetic) (a b : Int64) (ints : Int64 → Int64 → Int64)
    (doubles : Float → Float → Float) :
    (FailsArithmetically
        (op.division byZero (.int a) (.int b) (NumberPair.compute ints doubles)) ↔ b = 0) ∧
      (b ≠ 0 → op.division byZero (.int a) (.int b) (NumberPair.compute ints doubles) =
        .ok (.int (ints a b))) := by
  by_cases hb : b = 0
  · have hfails : op.division byZero (.int a) (.int b) (NumberPair.compute ints doubles) =
        .error byZero := if_pos (decide_eq_true hb)
    exact ⟨⟨fun _ => hb, fun _ => ⟨byZero, hfails, h⟩⟩, fun hne => absurd hb hne⟩
  · have hgives : op.division byZero (.int a) (.int b) (NumberPair.compute ints doubles) =
        .ok (.int (ints a b)) := if_neg (by simpa [NumberPair.rightIsZero] using hb)
    refine ⟨⟨fun ⟨fault, hfails, _⟩ => ?_, fun hzero => absurd hzero hb⟩, fun _ => hgives⟩
    rw [hgives] at hfails
    cases hfails

/-- **Integer operators are exact in 64 bits.** For any two integers:

* a sum, a difference and a product is the only 64-bit integer congruent to the exact result, and
  the negative of a number is its difference from zero;
* a division and a remainder fail, as an error of arithmetic, exactly if the divisor is zero, and
  otherwise give the quotient that is cut toward zero and the remainder that goes with it, or wrap
  around in the one case where the quotient is too large;
* of less, equal and greater exactly one holds, and the other comparisons follow from these. -/
theorem integer_operators_exact (a b : Int64) :
    (∃ c, BinaryOp.add.apply (.int a) (.int b) = .ok (.int c) ∧
      WrapsTo (a.toInt + b.toInt) c) ∧
    (∃ c, BinaryOp.sub.apply (.int a) (.int b) = .ok (.int c) ∧
      WrapsTo (a.toInt - b.toInt) c) ∧
    (∃ c, BinaryOp.mul.apply (.int a) (.int b) = .ok (.int c) ∧
      WrapsTo (a.toInt * b.toInt) c) ∧
    UnaryOp.negate.apply (.int a) = BinaryOp.sub.apply (.int 0) (.int a) ∧
    (FailsArithmetically (BinaryOp.div.apply (.int a) (.int b)) ↔ b = 0) ∧
    (FailsArithmetically (BinaryOp.mod.apply (.int a) (.int b)) ↔ b = 0) ∧
    (b ≠ 0 → ∃ q r, BinaryOp.div.apply (.int a) (.int b) = .ok (.int q) ∧
      BinaryOp.mod.apply (.int a) (.int b) = .ok (.int r) ∧ IsDivision a b q r) ∧
    IsOrdered a b := by
  obtain ⟨hdivFails, hdiv⟩ :=
    BinaryOp.div.division_ints .divisionByZero rfl a b (· / ·) (· / ·)
  obtain ⟨hmodFails, hmod⟩ :=
    BinaryOp.mod.division_ints .moduloByZero rfl a b (· % ·) Double.remainder
  refine ⟨⟨a + b, rfl, wrapsTo_of_bmod (Int64.toInt_add a b)⟩,
    ⟨a - b, rfl, wrapsTo_of_bmod (Int64.toInt_sub a b)⟩,
    ⟨a * b, rfl, wrapsTo_of_bmod (Int64.toInt_mul a b)⟩, ?_, hdivFails, hmodFails,
    fun hb => ⟨a / b, a % b, hdiv hb, hmod hb, isDivision a hb⟩, isOrdered a b⟩
  change Except.ok (Value.int (-a)) = .ok (.int (0 - a))
  rw [Int64.zero_sub]

/-- The least integer divided by minus one, where the quotient wraps around. -/
theorem integer_operators_exact_least :
    (-1 : Int64) ≠ 0 ∧
      ∃ q r, BinaryOp.div.apply (.int Int64.minValue) (.int (-1)) = .ok (.int q) ∧
        BinaryOp.mod.apply (.int Int64.minValue) (.int (-1)) = .ok (.int r) ∧
        IsDivision Int64.minValue (-1) q r ∧ q.toInt = -2 ^ 63 ∧ r.toInt = 0 := by
  have hne : (-1 : Int64) ≠ 0 := by decide
  obtain ⟨-, -, -, -, -, -, hdivision, -⟩ := integer_operators_exact Int64.minValue (-1)
  obtain ⟨q, r, hq, hr, hqr⟩ := hdivision hne
  exact ⟨hne, q, r, hq, hr, hqr, hqr.overflow rfl rfl⟩

end ClassLang
