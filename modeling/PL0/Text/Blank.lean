/-!
Blanks and fields. A blank is a character of the Unicode class White_Space; the fields of a text
are its maximal runs of other characters, in order.
-/

namespace PL0
namespace Text

/-- The code points of White_Space, as closed ranges. -/
def blankRanges : List (Nat × Nat) :=
  [(0x0009, 0x000D), (0x0020, 0x0020), (0x0085, 0x0085), (0x00A0, 0x00A0), (0x1680, 0x1680),
   (0x2000, 0x200A), (0x2028, 0x2029), (0x202F, 0x202F), (0x205F, 0x205F), (0x3000, 0x3000)]

def isBlank (c : Char) : Bool :=
  blankRanges.any fun r => r.1 ≤ c.toNat && c.toNat ≤ r.2

/-- The fields of a text. No field is empty, and none holds a blank. -/
def fields (text : List Char) : List (List Char) :=
  (text.splitOnP isBlank).filter fun field => ! field.isEmpty

theorem fields_append_cons {c : Char} (h : isBlank c = true) (a b : List Char) :
    fields (a ++ c :: b) = fields a ++ fields b := by
  simp [fields, List.splitOnP_append_cons _ _ h]

end Text
end PL0
