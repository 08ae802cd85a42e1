/-!
Natural numbers in decimal digits. Leading zeros are read but never written. A number of 64 bits
that has been written reads back.
-/
namespace InfixTree.Text

def decimal (n : Nat) : List Char := Nat.toDigits 10 n

def decimalValue (digits : List Char) : Nat := Nat.ofDigitChars 10 digits 0

/-- The number that the digits give, unless it takes more than 64 bits. -/
def word? (digits : List Char) : Option UInt64 :=
  if decimalValue digits < UInt64.size then some (.ofNat (decimalValue digits)) else none

theorem decimalValue_decimal (n : Nat) : decimalValue (decimal n) = n :=
  Nat.ofDigitChars_toDigits (by decide) (by decide)

theorem word?_decimal (n : UInt64) : word? (decimal n.toNat) = some n := by
  simp [word?, decimalValue_decimal, UInt64.toNat_lt_size]

theorem word?_eq_none_iff {digits : List Char} :
    word? digits = none ↔ UInt64.size ≤ decimalValue digits := by
  simp [word?]

theorem isDigit_of_mem_decimal {n : Nat} {c : Char} (h : c ∈ decimal n) : c.isDigit :=
  Nat.isDigit_of_mem_toDigits (by decide) (by decide) h

end InfixTree.Text
