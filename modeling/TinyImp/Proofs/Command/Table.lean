import Mathlib.Data.List.Forall2
import TinyImp.Diagnostic
import TinyImp.Proofs.Text.Lines

/-!
# The summary table

The summary of the diagnostics is cut into lines at its line feeds (`Text.lines`). Below the caption
there are the titles of the columns, a rule, and one line for each diagnostic.

A line of the table is *arranged* at a list of offsets if each of its cells stands at its offset and
only spaces are behind it, at least two of them in front of the next offset (`Text.Arranged`). The
offsets come from the widths of the columns alone, and no cell is wider than its column, so all
lines are arranged at the same offsets: **the table is aligned and shows every diagnostic in full**
(`Diagnostic.summary_is_aligned_table`). Widths count characters, so this holds whatever the
characters are, line feeds apart.
-/

namespace TinyImp

namespace Text

/-! ### Cells at offsets -/

/-- From one offset up to another the line holds the cell and, behind it, only spaces. -/
def Holds (line : String) (start stop : Nat) (cell : String) : Prop :=
  ∃ spaces, line.toList.extract start stop = cell.toList ++ List.replicate spaces ' ' ∧
    stop = start + cell.length + spaces

/-- The line holds the cells one behind the other. Each begins at its offset, with at least two
spaces between its end and the next offset, and the last one has the rest of the line. -/
def Arranged (line : String) : List Nat → List String → Prop
  | [start], [cell] => Holds line start line.length cell
  | start :: next :: offsets, cell :: cells =>
    Holds line start next cell ∧ start + cell.length + 2 ≤ next ∧
      Arranged line (next :: offsets) cells
  | _, _ => False

/-- The offsets of columns with the given widths, from the offset of the first one on. -/
def offsets (start : Nat) : List Nat → List Nat
  | [] => []
  | width :: widths => start :: offsets (start + width + 2) widths

/-- No cell is wider than its column. -/
abbrev Fits (cells : List String) (widths : List Nat) : Prop :=
  List.Forall₂ (fun cell width => cell.length ≤ width) cells widths

private theorem holds_of_toList_eq {line cell : String} {before : List Char} {spaces : Nat}
    (after : List Char)
    (h : line.toList = before ++ (cell.toList ++ List.replicate spaces ' ' ++ after)) :
    Holds line before.length (before.length + cell.length + spaces) cell := by
  refine ⟨spaces, ?_, rfl⟩
  have hlength : before.length + cell.length + spaces - before.length =
      (cell.toList ++ List.replicate spaces ' ').length := by
    rw [List.length_append, String.length_toList, List.length_replicate]
    omega
  rw [List.extract, h, List.drop_left, hlength, List.take_left]

private theorem length_le_widest {cells : List String} {cell : String} (h : cell ∈ cells) :
    cell.length ≤ widest cells := by
  have hfold (ns : List Nat) (m : Nat) : m ≤ ns.foldl max m ∧ ∀ n ∈ ns, n ≤ ns.foldl max m := by
    induction ns generalizing m with
    | nil => simp
    | cons n ns ih =>
      obtain ⟨hmax, hmem⟩ := ih (max m n)
      exact ⟨Nat.le_trans (Nat.le_max_left m n) hmax,
        List.forall_mem_cons.mpr ⟨Nat.le_trans (Nat.le_max_right m n) hmax, hmem⟩⟩
  exact (hfold _ 0).2 _ (List.mem_map_of_mem h)

end Text

namespace Diagnostic

open Text

/-! ### Lines of the table -/

private theorem tableLine_singleton (width : Nat) (cell : String) :
    tableLine [width] [cell] = padRight width cell := by
  simp [tableLine]

/-- A cell is padded to the width of its column, and two spaces separate it from the next. -/
theorem tableLine_cons_cons (width width' : Nat) (widths : List Nat) (cell cell' : String)
    (cells : List String) :
    tableLine (width :: width' :: widths) (cell :: cell' :: cells) =
      padRight width cell ++ "  " ++ tableLine (width' :: widths) (cell' :: cells) := by
  simp [tableLine]

/-- A line of the table is arranged at the offsets that belong to the widths, wherever it begins. -/
theorem arranged_of_fits {line : String} {before : List Char} {widths : List Nat}
    {cells : List String} (hfit : Fits cells widths) (hne : cells ≠ [])
    (hline : line.toList = before ++ (tableLine widths cells).toList) :
    Arranged line (offsets before.length widths) cells := by
  induction hfit generalizing before with
  | nil => exact absurd rfl hne
  | @cons cell width cells widths hcell hrest ih =>
    cases hrest with
    | nil =>
      rw [tableLine_singleton] at hline
      have hend : line.length = before.length + cell.length + (width - cell.length) := by
        rw [← String.length_toList, hline, List.length_append, String.length_toList,
          length_padRight hcell]
        omega
      rw [offsets, offsets, Arranged, hend]
      refine holds_of_toList_eq [] ?_
      simpa [padRight] using hline
    | @cons cell' width' cells widths hcell' hrest =>
      rw [tableLine_cons_cons] at hline
      -- the two spaces between the columns count as the last two behind the cell
      have hstop : before.length + width + 2 =
          before.length + cell.length + (width - cell.length + 2) := by omega
      have hnext : line.toList = (before ++ (padRight width cell ++ "  ").toList) ++
          (tableLine (width' :: widths) (cell' :: cells)).toList := by
        simpa using hline
      have hlength : (before ++ (padRight width cell ++ "  ").toList).length =
          before.length + width + 2 := by
        rw [List.length_append, String.length_toList, String.length_append, length_padRight hcell]
        rfl
      refine ⟨?_, by omega, ?_⟩
      · rw [hstop]
        refine holds_of_toList_eq (tableLine (width' :: widths) (cell' :: cells)).toList ?_
        simpa [padRight, List.replicate_add] using hline
      · have := ih (by simp) hnext
        rwa [hlength] at this

/-- The length of a line of the table depends on the widths only. -/
theorem length_tableLine {widths : List Nat} {cells : List String} (hfit : Fits cells widths)
    (hne : cells ≠ []) :
    (tableLine widths cells).length + 2 = widths.foldr (fun width rest => width + 2 + rest) 0 := by
  induction hfit with
  | nil => exact absurd rfl hne
  | @cons cell width cells widths hcell hrest ih =>
    cases hrest with
    | nil => simp [tableLine_singleton, length_padRight hcell]
    | @cons cell' width' cells widths hcell' hrest =>
      rw [tableLine_cons_cons, String.length_append, String.length_append, length_padRight hcell,
        List.foldr_cons, ← ih (by simp)]
      change width + 2 + _ + 2 = _
      omega

/-- The columns are wide enough for every row. -/
theorem fits_widths {rows : List (List String)} {row : List String} (hrow : row ∈ rows)
    (hlength : row.length = titles.length) : Fits row (widths rows) := by
  have hcells : row = (List.range titles.length).map fun column => row.getD column "" := by
    refine List.ext_getElem (by simpa using hlength) fun i hi _ => ?_
    simp [List.getElem?_eq_getElem hi]
  rw [hcells, widths, Fits, List.forall₂_map_left_iff, List.forall₂_map_right_iff]
  refine List.forall₂_same.mpr fun column _ => length_le_widest ?_
  exact List.mem_map_of_mem (f := fun row : List String => row.getD column "") hrow

/-- A line of the table is a single line, if its cells are. -/
theorem newline_notMem_tableLine {widths : List Nat} {cells : List String}
    (hfit : Fits cells widths) (h : ∀ cell ∈ cells, '\n' ∉ cell.toList) :
    '\n' ∉ (tableLine widths cells).toList := by
  have hpad {width : Nat} {cell : String} (hcell : '\n' ∉ cell.toList) :
      '\n' ∉ (padRight width cell).toList := by
    simp [padRight, hcell]
  induction hfit with
  | nil => simp [tableLine]
  | @cons cell width cells widths _ hrest ih =>
    obtain ⟨hcell, hcells⟩ := List.forall_mem_cons.mp h
    cases hrest with
    | nil =>
      rw [tableLine_singleton]
      exact hpad hcell
    | cons =>
      rw [tableLine_cons_cons]
      simp [hpad hcell, ih hcells]

/-! ### The whole table -/

private theorem newline_notMem_cells {d : Diagnostic} (hmessage : '\n' ∉ d.message.toList)
    (hfix : '\n' ∉ d.fix.toList) : ∀ cell ∈ d.cells, '\n' ∉ cell.toList := by
  have hline : '\n' ∉ (digits d.line).toList := fun hmem => by
    rw [digits, String.toList_ofList] at hmem
    have := Nat.isDigit_of_mem_toDigits (by decide) (by decide) hmem
    contradiction
  have hkind : '\n' ∉ d.kind.text.toList := by cases d.kind <;> decide
  simp only [cells, List.forall_mem_cons]
  exact ⟨hline, hmessage, hkind, hfix, List.forall_mem_nil _⟩

/-- The titles and the cells of each diagnostic. -/
def tableRows (ds : List Diagnostic) : List (List String) :=
  titles :: ds.map cells

theorem titles_mem_tableRows (ds : List Diagnostic) : titles ∈ tableRows ds :=
  List.mem_cons_self

private theorem cells_mem_tableRows {ds : List Diagnostic} {d : Diagnostic} (h : d ∈ ds) :
    d.cells ∈ tableRows ds :=
  List.mem_cons_of_mem _ (List.mem_map_of_mem h)

/-- The titles come first, then a rule, and then the diagnostics. -/
theorem tableLines_eq (ds : List Diagnostic) :
    tableLines ds = tableLine (widths (tableRows ds)) titles ::
      String.ofList (List.replicate (tableLine (widths (tableRows ds)) titles).length '-') ::
        ds.map fun d => tableLine (widths (tableRows ds)) d.cells := by
  rw [tableLines, List.map_map]
  rfl

section

variable {ds : List Diagnostic} {row : List String}

private theorem length_of_mem_tableRows (h : row ∈ tableRows ds) : row.length = titles.length := by
  obtain rfl | h := List.mem_cons.mp h
  · rfl
  · obtain ⟨d, -, rfl⟩ := List.mem_map.mp h
    rfl

private theorem ne_nil_of_mem_tableRows (h : row ∈ tableRows ds) : row ≠ [] := by
  rw [← List.length_pos_iff, length_of_mem_tableRows h]
  decide

/-- No cell is wider than its column. -/
theorem fits_of_mem_tableRows (h : row ∈ tableRows ds) : Fits row (widths (tableRows ds)) :=
  fits_widths h (length_of_mem_tableRows h)

/-- All rows are arranged at the same offsets. -/
theorem arranged_of_mem_tableRows (h : row ∈ tableRows ds) :
    Arranged (tableLine (widths (tableRows ds)) row) (offsets 0 (widths (tableRows ds))) row :=
  arranged_of_fits (fits_of_mem_tableRows h) (ne_nil_of_mem_tableRows h) (List.nil_append _).symm

/-- All rows are as long as the titles. -/
theorem length_eq_of_mem_tableRows (h : row ∈ tableRows ds) :
    (tableLine (widths (tableRows ds)) row).length =
      (tableLine (widths (tableRows ds)) titles).length := by
  have hrow := length_tableLine (fits_of_mem_tableRows h) (ne_nil_of_mem_tableRows h)
  have htitles := length_tableLine (fits_of_mem_tableRows (titles_mem_tableRows ds))
    (ne_nil_of_mem_tableRows (titles_mem_tableRows ds))
  omega

end

/-- **The summary is an aligned table that shows every diagnostic in full.** If there are
diagnostics, and none has a line feed in its message or its fix, the lines of the summary are its
caption, the titles, a rule of dashes, and one line for each diagnostic in order. All lines below
the caption have the same number of characters. The cells of every line stand at the same four
offsets, with nothing but spaces between the end of a cell and the next offset, two at least. -/
theorem summary_is_aligned_table {ds : List Diagnostic} (hne : ds ≠ [])
    (hfeed : ∀ d ∈ ds, '\n' ∉ d.message.toList ∧ '\n' ∉ d.fix.toList) :
    ∃ (header rule : String) (rows : List String) (length second third fourth : Nat),
      Text.lines (summary ds) = "Summary Table" :: header :: rule :: (rows ++ [""]) ∧
      rule = String.ofList (List.replicate length '-') ∧
      (∀ line ∈ header :: rule :: rows, line.length = length) ∧
      Arranged header [0, second, third, fourth] ["Line", "Error", "Type", "Fix"] ∧
      List.Forall₂ (fun d row => Arranged row [0, second, third, fourth]
        [digits d.line, d.message, d.kind.text, d.fix]) ds rows := by
  have htitles := titles_mem_tableRows ds
  -- there are four columns, so the offsets are four numbers
  obtain ⟨second, third, fourth, hoffsets⟩ : ∃ second third fourth,
      offsets 0 (widths (tableRows ds)) = [0, second, third, fourth] := ⟨_, _, _, rfl⟩
  refine ⟨tableLine (widths (tableRows ds)) titles, _,
    ds.map fun d => tableLine (widths (tableRows ds)) d.cells,
    (tableLine (widths (tableRows ds)) titles).length, second, third, fourth, ?_, rfl, ?_, ?_, ?_⟩
  · rw [summary, if_neg (by simpa using hne), tableLines_eq]
    refine lines_join ?_
    simp only [List.forall_mem_cons, List.forall_mem_map]
    refine ⟨by decide, newline_notMem_tableLine (fits_of_mem_tableRows htitles) (by decide),
      by simp, fun d hd => ?_⟩
    exact newline_notMem_tableLine (fits_of_mem_tableRows (cells_mem_tableRows hd))
      (newline_notMem_cells (hfeed d hd).1 (hfeed d hd).2)
  · simp only [List.forall_mem_cons, List.forall_mem_map]
    exact ⟨trivial, by simp, fun d hd => length_eq_of_mem_tableRows (cells_mem_tableRows hd)⟩
  · rw [← hoffsets]
    exact arranged_of_mem_tableRows htitles
  · rw [List.forall₂_map_right_iff, ← hoffsets]
    exact List.forall₂_same.mpr fun d hd => arranged_of_mem_tableRows (cells_mem_tableRows hd)

/-- Two diagnostics with texts in several scripts, the wider text in either of them. -/
def mixedWidths : List Diagnostic :=
  [⟨7, .semantic, "Größe  '未定义' fehlt", "é"⟩, ⟨12345, .lexical, "", "Remove '💡'."⟩]

/-- Two diagnostics whose cells differ in width are lined up. -/
theorem mixedWidths_is_aligned_table :
    mixedWidths ≠ [] ∧
      (∀ d ∈ mixedWidths, '\n' ∉ d.message.toList ∧ '\n' ∉ d.fix.toList) ∧
      ∃ (header rule : String) (rows : List String) (length second third fourth : Nat),
        Text.lines (summary mixedWidths) =
          "Summary Table" :: header :: rule :: (rows ++ [""]) ∧
        rule = String.ofList (List.replicate length '-') ∧
        (∀ line ∈ header :: rule :: rows, line.length = length) ∧
        Arranged header [0, second, third, fourth] ["Line", "Error", "Type", "Fix"] ∧
        List.Forall₂ (fun d row => Arranged row [0, second, third, fourth]
          [digits d.line, d.message, d.kind.text, d.fix]) mixedWidths rows := by
  have hne : mixedWidths ≠ [] := by simp [mixedWidths]
  have hfeed : ∀ d ∈ mixedWidths, '\n' ∉ d.message.toList ∧ '\n' ∉ d.fix.toList := by
    simp only [mixedWidths, List.forall_mem_cons]
    decide
  exact ⟨hne, hfeed, summary_is_aligned_table hne hfeed⟩

end Diagnostic

end TinyImp
