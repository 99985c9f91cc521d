/-!
Rows of right-aligned columns. A cell that is too wide for its column is not cut.
-/

namespace PL0
namespace Text

/-- A row of cells, each with the width of its column, with `gap` between two cells. -/
def row (gap : List Char) (cells : List (Nat × List Char)) : List Char :=
  gap.intercalate (cells.map fun cell => cell.2.leftpad cell.1 ' ')

/-- A text of lines, each of them ended. -/
def ofLines (lines : List (List Char)) : List Char :=
  lines.flatMap (· ++ ['\n'])

end Text
end PL0
