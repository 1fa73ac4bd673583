/-!
# Decimal digits

Numbers as lists of decimal digits. Writing a number and reading the digits gives the number back
(`ClassLang.Text.number_digits`).
-/

namespace ClassLang

namespace Text

/-- The digits of a number, without leading zeros except for zero itself. -/
def digits (n : Nat) : List Char := Nat.toDigits 10 n

/-- The number that a list of digits spells. -/
def number (digits : List Char) : Nat := Nat.ofDigitChars 10 digits 0

/-- The digits of a number spell it. -/
@[simp] theorem number_digits (n : Nat) : number (digits n) = n :=
  Nat.ofDigitChars_toDigits (by decide) (by decide)

/-- The digits of a number are digits. -/
theorem isDigit_of_mem_digits {n : Nat} {c : Char} (h : c ∈ digits n) : c.isDigit = true :=
  Nat.isDigit_of_mem_toDigits (by decide) (by decide) h

end Text

end ClassLang
