/-!
# Columns of text

Cells of a table are set flush left and filled up with spaces. Widths count characters.
-/

namespace TinyImp.Text

/-- The cell followed by as many spaces as it lacks. -/
def padRight (width : Nat) (cell : String) : String :=
  cell ++ String.ofList (List.replicate (width - cell.length) ' ')

/-- A cell that is not too wide fills the column exactly. -/
theorem length_padRight {width : Nat} {cell : String} (h : cell.length ≤ width) :
    (padRight width cell).length = width := by
  simp [padRight]
  omega

/-- The width of the widest cell. -/
def widest (cells : List String) : Nat :=
  (cells.map String.length).foldl max 0

end TinyImp.Text
