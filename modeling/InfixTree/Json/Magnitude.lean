import InfixTree.Json.Mark

/-!
Whether a number can be kept as a value: a number that is not a natural of 64 bits is taken as a
binary one with 53 significant bits, and that must not lie beyond the greatest such number.

The digits are gathered from the left for as long as they fit into 64 bits; what they give is
rounded, and then multiplied with the rounded power of ten that is left, so the result is close to
the number that is written but need not be the closest.
-/
namespace InfixTree.Json

/-- A significand and the power of ten that it is multiplied with. -/
structure Scaled where
  significand : Nat
  exponent : Int
  deriving DecidableEq, Repr

/-- Appends digits up to the first that does not fit any more, which comes back with the rest. -/
def gather (significand : Nat) : List Char → Nat × List Char
  | [] => (significand, [])
  | d :: rest =>
    let next := significand * 10 + (d.toNat - '0'.toNat)
    if next < UInt64.size then gather next rest else (significand, d :: rest)

/-- The value of an exponent with its letter and its sign. -/
def powerValue : List Char → Int
  | _ :: '-' :: digits => -(Text.decimalValue digits : Int)
  | _ :: '+' :: digits => Text.decimalValue digits
  | _ :: digits => Text.decimalValue digits
  | [] => 0

/-- Digits of the whole part that do not fit count as a power of ten, those behind the point are
left out. -/
def scaled? (literal : List Char) : Option Scaled := do
  let (whole, rest) ← splitWhole (splitSign literal).2
  let (fraction, rest) ← splitFraction rest
  let (power, _) ← splitExponent rest
  let places := fraction.drop 1
  let (significand, beyond) := gather 0 whole
  let (significand, unread) := gather significand places
  some ⟨significand, beyond.length - (places.length - unread.length : Nat) + powerValue power⟩

/-- The nearest natural with at most 53 significant bits; a tie goes to the one whose last bit is
zero. -/
def nearest (n : Nat) : Nat :=
  let unit := 1 <<< (n.log2 + 1 - 53)
  let kept := n / unit
  let left := 2 * (n % unit)
  if unit < left ∨ (left = unit ∧ kept % 2 = 1) then (kept + 1) * unit else kept * unit

/-- From here on a product is nearer to the first number with an exponent too great. -/
def ceiling : Nat := (1 <<< 1024) - (1 <<< 970)

/-- Negative powers only make a number smaller, and the powers above this one are beyond the
greatest number by themselves. -/
def greatestPower : Nat := 308

def Scaled.fits (s : Scaled) : Bool :=
  s.significand == 0 || s.exponent < 0 ||
    (s.exponent ≤ greatestPower &&
      nearest s.significand * nearest (Nat.pow 10 s.exponent.toNat) < ceiling)

theorem nearest_of_log2_lt {n : Nat} (h : n.log2 < 53) : nearest n = n := by
  have small : n.log2 + 1 - 53 = 0 := by omega
  simp [nearest, small]
  omega

theorem Scaled.fits_of_exponent_neg {s : Scaled} (h : s.exponent < 0) : s.fits = true := by
  simp [fits, h]

end InfixTree.Json
