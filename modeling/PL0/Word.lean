import PL0.Text.Decimal

/-!
Machine words: 32 bits, two's complement. Token values, instruction operands and addresses are
words. A word is written in decimal; reading refuses an integer that does not fit.
-/

namespace PL0

abbrev Word := Int32

namespace Word

/-- The word with value `i`, if `i` fits. -/
def ofInt? (i : Int) : Option Word :=
  if Int32.minValue.toInt ≤ i ∧ i ≤ Int32.maxValue.toInt then some (Int32.ofInt i) else none

def digits (w : Word) : List Char :=
  Decimal.ofInt w.toInt

def text (w : Word) : String :=
  String.ofList w.digits

def ofDigits? (cs : List Char) : Option Word :=
  (Decimal.int? cs).bind ofInt?

@[simp]
theorem ofInt?_toInt (w : Word) : ofInt? w.toInt = some w := by
  rw [ofInt?, if_pos ⟨w.minValue_le_toInt, w.toInt_le⟩, Int32.ofInt_toInt]

@[simp]
theorem ofDigits?_digits (w : Word) : ofDigits? w.digits = some w := by
  simp [ofDigits?, digits, Decimal.int?_ofInt]

end Word
end PL0
