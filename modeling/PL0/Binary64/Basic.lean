/-!
Magnitudes in binary64, the format of 53 bits of precision and exponents from -1074 to 971. Results
are rounded to the nearest magnitude, ties to the even one.
-/

namespace PL0

/-- The magnitude `mantissa * 2 ^ exponent`. -/
structure Binary64 where
  mantissa : Nat
  exponent : Int
  deriving DecidableEq, Repr

namespace Binary64

def zero : Binary64 := ⟨0, 0⟩

/-- The weight of the first of the 53 bits of a mantissa. -/
def firstBit : Nat := 1 <<< 52

/-- The quotient, rounded to the nearest integer, ties to the even one. -/
def divNearest (num den : Nat) : Nat :=
  let quotient := num / den
  let twice := 2 * (num % den)
  if twice < den ∨ (twice = den ∧ quotient % 2 = 0) then quotient else quotient + 1

/-- `num / den * 2 ^ shift` as a fraction. -/
def shiftFraction (num den : Nat) (shift : Int) : Nat × Nat :=
  (num <<< shift.toNat, den <<< (- shift).toNat)

/-- The magnitude nearest to `num / den`, if it is not too large for the format. -/
def ofFraction (num den : Nat) : Option Binary64 :=
  if num = 0 then some zero
  else
    let estimate : Int := (num.log2 : Int) - den.log2 - 52
    let scaled := shiftFraction num den (- estimate)
    let exponent := max (if scaled.1 < firstBit * scaled.2 then estimate - 1 else estimate) (-1074)
    let scaled := shiftFraction num den (- exponent)
    let mantissa := divNearest scaled.1 scaled.2
    let rounded : Binary64 :=
      if mantissa = 2 * firstBit then ⟨firstBit, exponent + 1⟩ else ⟨mantissa, exponent⟩
    if 971 < rounded.exponent then none else some rounded

/-- A magnitude as a fraction. -/
def toFraction (x : Binary64) : Nat × Nat :=
  shiftFraction x.mantissa 1 x.exponent

def mul (x y : Binary64) : Option Binary64 :=
  ofFraction (x.toFraction.1 * y.toFraction.1) (x.toFraction.2 * y.toFraction.2)

def div (x y : Binary64) : Option Binary64 :=
  ofFraction (x.toFraction.1 * y.toFraction.2) (x.toFraction.2 * y.toFraction.1)

/-- The magnitude nearest to `10 ^ n`. -/
def powTen (n : Nat) : Option Binary64 :=
  ofFraction (Nat.pow 10 n) 1

/-- The largest power of ten that the format holds. -/
def maxPowTen : Nat := 308

/-- `x` over `10 ^ n`, divided by no more than `10 ^ 308` at a time. -/
def divPowTen (x : Binary64) (n : Nat) : Option Binary64 :=
  if x.mantissa = 0 then some x
  else if n ≤ maxPowTen then do x.div (← powTen n)
  else do divPowTen (← x.div (← powTen maxPowTen)) (n - maxPowTen)
termination_by n
decreasing_by simp [maxPowTen] at *; omega

/-- `significand * 10 ^ exponent`, with both factors and the result rounded; nothing if that is too
large for the format. -/
def ofScientific (significand : Nat) (exponent : Int) : Option Binary64 := do
  let x ← ofFraction significand 1
  match exponent with
  | .ofNat n =>
    if x.mantissa = 0 then some x else if n ≤ maxPowTen then x.mul (← powTen n) else none
  | .negSucc n => x.divPowTen (n + 1)

end Binary64
end PL0
