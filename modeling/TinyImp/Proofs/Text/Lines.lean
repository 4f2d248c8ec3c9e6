import Mathlib.Data.List.TakeWhile

/-!
# Texts cut into parts

A list can be cut in two at the first of its elements that is a given one (`cut`), and a text into
its lines at all of its line feeds (`Text.lines`). What has been put together with such a mark in
between comes apart again if its parts do not have the mark. So **lines can be read back** from the
text that they make up (`Text.lines_join`), and no other lines make up that text
(`Text.join_injective`).
-/

namespace TinyImp

/-! ### Lists cut in two -/

section

variable {α : Type} [DecidableEq α]

/-- The parts of a list in front of the first `a` and behind it. -/
def cut (a : α) (t : List α) : List α × List α :=
  (t.takeWhile (· ≠ a), (t.dropWhile (· ≠ a)).tail)

variable {a : α} {x : List α}

/-- A list comes apart at a mark that its first part does not have. -/
theorem cut_append (hx : a ∉ x) (rest : List α) : cut a (x ++ a :: rest) = (x, rest) := by
  have hne : ∀ c ∈ x, decide (c ≠ a) = true := fun c hc =>
    decide_eq_true fun h => hx (h ▸ hc)
  rw [cut, List.takeWhile_append_of_pos hne, List.dropWhile_append_of_pos hne,
    List.takeWhile_cons_of_neg (by simp), List.dropWhile_cons_of_neg (by simp), List.append_nil,
    List.tail_cons]

/-- A list without the mark is its own first part. -/
theorem cut_of_notMem (hx : a ∉ x) : cut a x = (x, []) := by
  have hne : ∀ c ∈ x, decide (c ≠ a) = true := fun c hc =>
    decide_eq_true fun h => hx (h ▸ hc)
  rw [cut, List.takeWhile_eq_self_iff.mpr hne, List.dropWhile_eq_nil_iff.mpr hne, List.tail_nil]

end

/-! ### Lines -/

namespace Text

/-- The lines of a text, cut at its line feeds. -/
def lines (text : String) : List String :=
  (text.toList.splitOn '\n').map String.ofList

/-- A line feed between two texts separates their lines. -/
theorem lines_append_newline (first second : String) :
    lines (first ++ "\n" ++ second) = lines first ++ lines second := by
  have hchars : (first ++ "\n" ++ second).toList = first.toList ++ '\n' :: second.toList := by
    simp
  rw [lines, hchars, List.splitOn_append_cons_self, List.map_append, lines, lines]

/-- A text without a line feed is a single line. -/
theorem lines_of_notMem {line : String} (h : '\n' ∉ line.toList) : lines line = [line] := by
  rw [lines, List.splitOn_eq_singleton h, List.map_singleton, String.ofList_toList]

/-- A text that ends each of some lines with a line feed has these lines, and nothing behind the
last line feed. -/
theorem lines_join {ls : List String} (h : ∀ l ∈ ls, '\n' ∉ l.toList) :
    lines (String.join (ls.map (· ++ "\n"))) = ls ++ [""] := by
  induction ls with
  | nil => rfl
  | cons l rest ih =>
    obtain ⟨hl, hrest⟩ := List.forall_mem_cons.mp h
    rw [List.map_cons, String.join_cons, lines_append_newline, lines_of_notMem hl, ih hrest,
      List.singleton_append, List.cons_append]

/-- **A text of lines has only these lines.** -/
theorem join_injective {ls ls' : List String} (h : ∀ l ∈ ls, '\n' ∉ l.toList)
    (h' : ∀ l ∈ ls', '\n' ∉ l.toList)
    (heq : String.join (ls.map (· ++ "\n")) = String.join (ls'.map (· ++ "\n"))) : ls = ls' := by
  have hlines := congrArg lines heq
  rw [lines_join h, lines_join h'] at hlines
  exact List.append_cancel_right hlines

end Text

end TinyImp
