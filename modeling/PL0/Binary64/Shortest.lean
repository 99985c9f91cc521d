import PL0.Binary64.Basic

/-!
The shortest decimal text of a binary64 magnitude: the fewest digits that are rounded back to it,
and of those the nearest, ties to the even one. Magnitudes from `10 ^ -5` up to `10 ^ 16` are
written out; others get an exponent with its sign.
-/

namespace PL0
namespace Binary64

/-- The exponent of the first digit of `num / den`, a positive fraction. -/
def leadingExponent (num den : Nat) : Int :=
  if den ≤ num then (Nat.toDigits 10 (num / den)).length - 1
  else - ((List.range 400).findIdx fun n => decide (den ≤ num * Nat.pow 10 n))

/-- The fractions of which `x` is the nearest magnitude lie between these two, over a common
denominator with `x` itself. -/
def bounds (x : Binary64) : Nat × Nat × Nat × Nat :=
  let down := if x.mantissa = firstBit ∧ -1074 < x.exponent then 1 else 2
  let unit := shiftFraction 1 1 (x.exponent - 2)
  ((4 * x.mantissa - down) * unit.1, 4 * x.mantissa * unit.1, (4 * x.mantissa + 2) * unit.1, unit.2)

/-- A decimal with `count` digits, the first of them at `10 ^ leading`, that is rounded to `x`; it
is given by its digits, read as a number. -/
def withDigits? (x : Binary64) (leading : Int) (count : Nat) : Option Nat :=
  let (low, value, high, den) := x.bounds
  let step : Int := leading + 1 - count
  let grid : Nat := Nat.pow 10 step.toNat * den
  let scale : Nat := Nat.pow 10 (- step).toNat
  let below := value * scale / grid
  let inside (digits : Nat) : Bool :=
    if x.mantissa % 2 = 0 then low * scale ≤ digits * grid && digits * grid ≤ high * scale
    else low * scale < digits * grid && digits * grid < high * scale
  match inside below, inside (below + 1) with
  | true, true => some (divNearest (value * scale) grid)
  | true, false => some below
  | false, true => some (below + 1)
  | false, false => none

/-- The digits of the shortest decimal, without zeros at the end, and the exponent of the first. -/
def shortest (x : Binary64) : List Char × Int :=
  if x.mantissa = 0 then (['0'], 0)
  else
    let leading := leadingExponent x.toFraction.1 x.toFraction.2
    match (List.range 17).findSome? fun n => (x.withDigits? leading (n + 1)).map (n + 1, ·) with
    | none => (['0'], 0)
    | some (count, number) =>
      let digits := Nat.toDigits 10 number
      let trimmed := (digits.reverse.dropWhile (· == '0')).reverse
      (trimmed, leading + (digits.length - count))

/-- Whether a decimal whose first digit is at `10 ^ leading` is written out. -/
def isPlain (leading : Int) : Bool :=
  -5 ≤ leading && leading < 16

def exponentText (exponent : Int) : List Char :=
  'e' :: (if exponent < 0 then '-' else '+') :: Nat.toDigits 10 exponent.natAbs

def text (x : Binary64) : List Char :=
  let (digits, leading) := x.shortest
  if isPlain leading then
    if leading < 0 then '0' :: '.' :: List.replicate ((- leading).toNat - 1) '0' ++ digits
    else
      let whole := leading.toNat + 1
      let fraction := digits.drop whole
      (digits.take whole).rightpad whole '0'
        ++ '.' :: (if fraction.isEmpty then ['0'] else fraction)
  else
    match digits with
    | [digit] => digit :: exponentText leading
    | digit :: rest => digit :: '.' :: rest ++ exponentText leading
    | [] => []

end Binary64
end PL0
