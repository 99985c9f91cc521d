/-!
Decimal integers. `ofInt` writes an integer in the usual way; `int?` reads one or more ASCII digits
behind at most one sign, so leading zeros and a plus are read but never written. The main statement
is `int?_ofInt`: what is written reads back.
-/

namespace PL0
namespace Decimal

def ofInt : Int → List Char
  | .ofNat n => Nat.toDigits 10 n
  | .negSucc n => '-' :: Nat.toDigits 10 (n + 1)

/-- Reads one or more ASCII digits. -/
def nat? (cs : List Char) : Option Nat :=
  if cs.isEmpty || cs.any (! ·.isDigit) then none else some (Nat.ofDigitChars 10 cs 0)

def int? : List Char → Option Int
  | '+' :: cs => (nat? cs).map Int.ofNat
  | '-' :: cs => (nat? cs).map fun n => - Int.ofNat n
  | cs => (nat? cs).map Int.ofNat

theorem isDigit_of_mem_toDigits {n : Nat} {c : Char} (h : c ∈ Nat.toDigits 10 n) :
    c.isDigit = true :=
  Nat.isDigit_of_mem_toDigits (by decide) (by decide) h

theorem le_ofDigitChars (number : Nat) (digits : List Char) :
    number ≤ Nat.ofDigitChars 10 digits number := by
  induction digits generalizing number with
  | nil => exact Nat.le_refl number
  | cons c digits ih =>
    have h := ih (10 * number + (c.toNat - '0'.toNat))
    rw [Nat.ofDigitChars_cons]
    omega

theorem nat?_toDigits (n : Nat) : nat? (Nat.toDigits 10 n) = some n := by
  have hany : (Nat.toDigits 10 n).any (! ·.isDigit) = false := by
    simp only [List.any_eq_false, Bool.not_eq_true', Bool.not_eq_false]
    exact fun c hc => isDigit_of_mem_toDigits hc
  simp [nat?, hany, Nat.toDigits_ne_nil, Nat.ofDigitChars_ten_toDigits]

theorem int?_toDigits (n : Nat) : int? (Nat.toDigits 10 n) = some (Int.ofNat n) := by
  unfold int?
  split
  · rename_i cs h
    have : Char.isDigit '+' = true := isDigit_of_mem_toDigits (n := n) (by simp [h])
    exact absurd this (by decide)
  · rename_i cs h
    have : Char.isDigit '-' = true := isDigit_of_mem_toDigits (n := n) (by simp [h])
    exact absurd this (by decide)
  · simp [nat?_toDigits]

theorem int?_ofInt (i : Int) : int? (ofInt i) = some i := by
  cases i with
  | ofNat n => exact int?_toDigits n
  | negSucc n => simp [ofInt, int?, nat?_toDigits, Int.negSucc_eq]

end Decimal
end PL0
