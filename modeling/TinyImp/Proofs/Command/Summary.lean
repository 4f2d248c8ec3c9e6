import TinyImp.Proofs.Command.Running
import TinyImp.Proofs.Command.Table
import TinyImp.Proofs.Program.Origin

/-!
# Whether the summary is shown

A run shows the summary of its diagnostics last, on every way but one: if the listing cannot be
written, it ends right there. What it has shown by then is nothing or a tree, and **no tree ends
with a summary** (`Program.tree_ne_append_summary`): the titles of the table are no line of a tree,
since every line of a tree begins with a blank or a small letter, and no such line ends with a full
stop.

So the diagnostics of a text are shown **exactly if there is no listing that cannot be written**
(`Arguments.summary_shown_iff`).
-/

namespace TinyImp

/-! ### Summaries -/

namespace Diagnostic

/-- The line with the titles. -/
def header (ds : List Diagnostic) : String :=
  tableLine (widths (tableRows ds)) titles

private theorem head?_header (ds : List Diagnostic) : (header ds).toList.head? = some 'L' := by
  obtain ⟨first, second, rest, hwidths⟩ : ∃ first second rest,
      widths (tableRows ds) = first :: second :: rest := ⟨_, _, _, rfl⟩
  rw [header, hwidths, titles, tableLine_cons_cons]
  simp [Text.padRight]

private theorem newline_notMem_header (ds : List Diagnostic) : '\n' ∉ (header ds).toList :=
  newline_notMem_tableLine (fits_of_mem_tableRows (titles_mem_tableRows ds)) (by decide)

/-- If there are diagnostics, the titles are a line of every text that ends with the summary. -/
theorem header_mem_lines {ds : List Diagnostic} (hne : ds ≠ []) (shown : String) :
    header ds ∈ Text.lines (shown ++ summary ds) := by
  obtain ⟨rest, htable⟩ : ∃ rest, tableLines ds = header ds :: rest := ⟨_, tableLines_eq ds⟩
  have hsummary : shown ++ summary ds = (shown ++ "Summary Table") ++ "\n" ++
      (header ds ++ "\n" ++ String.join (rest.map (· ++ "\n"))) := by
    rw [summary, if_neg (by simpa using hne), htable, List.map_cons, List.map_cons,
      String.join_cons, String.join_cons]
    simp only [String.append_assoc]
  rw [hsummary, Text.lines_append_newline, Text.lines_append_newline,
    Text.lines_of_notMem (newline_notMem_header ds)]
  simp

private theorem summary_ne_empty (ds : List Diagnostic) : summary ds ≠ "" := by
  by_cases hds : ds = []
  · rw [hds]
    decide
  · intro hempty
    have hmem := header_mem_lines hds ""
    rw [hempty] at hmem
    have hheader : header ds = "" := List.mem_singleton.mp hmem
    have hhead := head?_header ds
    rw [hheader] at hhead
    cases hhead

end Diagnostic

/-! ### Trees -/

namespace Node

/-- No node begins like the head of the table. -/
private theorem head?_text_ne (node : Node) : node.text.toList.head? ≠ some 'L' := by
  rw [toList_text]
  cases node <;> simp [parts, join]

private theorem getLast?_join_cons (kind word : String) (words : List String) :
    (join (kind, word :: words)).getLast? = some ')' := by
  rw [join, ← List.cons_append, ← List.append_assoc, List.getLast?_concat]

private theorem getLast?_text_ne (node : Node) : node.text.toList.getLast? ≠ some '.' := by
  rw [toList_text]
  cases node with
  | program | block | ifThen | ifElse | loop | params | ret => decide
  | _ =>
    rw [parts, getLast?_join_cons]
    decide

end Node

namespace Program

private theorem toList_label (item : Nat × Node) :
    (label item).toList = List.replicate (2 * item.1) ' ' ++ item.2.text.toList := by
  simp [label]

private theorem head?_label_ne (item : Nat × Node) : (label item).toList.head? ≠ some 'L' := by
  obtain ⟨depth, node⟩ := item
  rw [toList_label]
  cases depth with
  | zero => exact node.head?_text_ne
  | succ depth => simp [Nat.mul_succ, List.replicate_succ]

private theorem getLast?_label (item : Nat × Node) :
    (label item).toList.getLast? = item.2.text.toList.getLast? := by
  obtain ⟨c, rest, hcons, -⟩ := item.2.head_text
  rw [toList_label, List.getLast?_append_of_ne_nil _ (by simp [hcons])]

/-- **No tree ends with a summary.** -/
theorem tree_ne_append_summary {p : Program} (h : LegibleOutline p.outline) (shown : String)
    (ds : List Diagnostic) : p.tree ≠ shown ++ Diagnostic.summary ds := by
  intro heq
  by_cases hds : ds = []
  · -- The last line would end with a full stop.
    obtain ⟨front, item, hitems⟩ := p.outline.eq_nil_or_concat.resolve_left (by simp [outline])
    have htree : p.tree =
        String.join ((front.map label).map (· ++ "\n")) ++ label item ++ "\n" := by
      rw [tree_eq, hitems]
      simp [String.append_assoc]
    have hsummary : Diagnostic.summary ds = "No errors detected." ++ "\n" := by
      rw [hds]
      rfl
    rw [htree, hsummary, ← String.append_assoc, String.append_left_inj] at heq
    have hlast := congrArg (fun text : String => text.toList.getLast?) heq
    obtain ⟨c, rest, hcons, -⟩ := item.2.head_text
    have hne : (label item).toList ≠ [] := by simp [toList_label, hcons]
    apply item.2.getLast?_text_ne
    rw [← getLast?_label]
    simpa [List.getLast?_append_of_ne_nil _ hne] using hlast
  · -- The titles would be a line.
    have hmem := Diagnostic.header_mem_lines hds shown
    rw [← heq, tree_eq, Text.lines_join (newline_notMem_labels h)] at hmem
    obtain hmem | hempty := List.mem_append.mp hmem
    · obtain ⟨item, -, hlabel⟩ := List.mem_map.mp hmem
      apply head?_label_ne item
      rw [hlabel, Diagnostic.head?_header]
    · have hhead := Diagnostic.head?_header ds
      rw [List.mem_singleton.mp hempty] at hhead
      cases hhead

end Program

/-! ### Runs -/

namespace Arguments

section

variable {σ : Type} [Files (StateM σ)] {a : Arguments} {before after : σ} {source : String}
  {outcome : Outcome} {added : List (String × ByteArray)}

/-- The tree alone does not end with a summary, so that the two can be told apart. -/
private theorem shownTree_ne_append_summary {p : Program}
    (hp : (compile source a.options).program = .ok p) (shown : String) :
    a.shownTree p ≠ shown ++ a.summaryOf source := by
  unfold shownTree
  split
  · exact p.tree_ne_append_summary (legibleOutline_of_compile hp) shown _
  · intro heq
    exact Diagnostic.summary_ne_empty _ (String.append_eq_empty_iff.mp heq.symm).2

/-- A run on a text shows the summary last; or there is a listing that cannot be written, and it
shows no more than the tree that it was asked for. -/
theorem Ends.stdout_cases (h : a.Ends before outcome after added)
    (hsource : ReadsAs before a.input source) :
    ((¬ ∃ asm, a.Generates before asm ∧ ¬ Writable (a.opened before) a.outputPath asm.listing) ∧
      ∃ shown, outcome.stdout = shown ++ a.summaryOf source) ∨
    ((∃ asm, a.Generates before asm ∧ ¬ Writable (a.opened before) a.outputPath asm.listing) ∧
      ∃ p, (compile source a.options).program = .ok p ∧ outcome.stdout = a.shownTree p) := by
  cases h with
  | unreadable hnone => exact absurd hsource (hnone source)
  | scanned hsource' hlex =>
    obtain rfl := hsource'.unique hsource
    refine .inl ⟨?_, _, rfl⟩
    rintro ⟨asm, ⟨hlex', -⟩, -⟩
    simp [hlex] at hlex'
  | unparsed hsource' hlex hprogram =>
    obtain rfl := hsource'.unique hsource
    refine .inl ⟨?_, _, rfl⟩
    rintro ⟨asm, hasm, -⟩
    exact not_generates_of_error hsource hprogram hasm
  | parsed hsource' hlex hprogram hparse =>
    obtain rfl := hsource'.unique hsource
    refine .inl ⟨?_, _, rfl⟩
    rintro ⟨asm, ⟨-, hparse', -⟩, -⟩
    simp [hparse] at hparse'
  | @unwritable _ p e hsource' hlex hprogram hparse hwrite =>
    obtain rfl := hsource'.unique hsource
    refine .inr ⟨⟨p.assembly, (generates_iff hsource hlex hprogram hparse).mpr rfl, ?_⟩,
      p, hprogram, rfl⟩
    rw [Writable, hwrite]
    simp
  | written hsource' hlex hprogram hparse hwrite =>
    obtain rfl := hsource'.unique hsource
    refine .inl ⟨?_, _, rfl⟩
    rintro ⟨asm, hasm, hunwritable⟩
    obtain rfl := (generates_iff hsource hlex hprogram hparse).mp hasm
    exact hunwritable hwrite

end

/-- **When the diagnostics are shown.** Whatever reading and writing do to the files: if the input
is a text, what a run shows ends with the summary of its diagnostics exactly if there is no listing
to be written that cannot be written once the input has been read. If there is one, the run shows
the tree, where that was asked for, and nothing else. -/
theorem summary_shown_iff {σ : Type} [Files (StateM σ)] (a : Arguments) (before : σ)
    {source : String} (hsource : ReadsAs before a.input source) :
    ((∃ shown, (a.runOn before).1.stdout = shown ++ a.summaryOf source) ↔
      ¬ ∃ asm, a.Generates before asm ∧ ¬ Writable (a.opened before) a.outputPath asm.listing) ∧
    ((∃ asm, a.Generates before asm ∧ ¬ Writable (a.opened before) a.outputPath asm.listing) →
      ∃ p, (compile source a.options).program = .ok p ∧
        (a.runOn before).1.stdout = a.shownTree p) := by
  obtain ⟨hwritable, hshown⟩ | ⟨hunwritable, p, hp, hstdout⟩ :=
    (a.ends_runOn before).stdout_cases hsource
  · exact ⟨iff_of_true hshown hwritable, fun h => absurd h hwritable⟩
  · refine ⟨iff_of_false ?_ (not_not_intro hunwritable), fun _ => ⟨p, hp, hstdout⟩⟩
    rintro ⟨shown, hshown⟩
    exact shownTree_ne_append_summary hp shown (hstdout.symm.trans hshown)

/-- The command with an input file and a file for the listing. -/
def into (output input : String) : Arguments :=
  ⟨{ output := some output }, input⟩

/-- The diagnostic of the assignment is shown if the listing goes to a file. -/
theorem into_file_shows_summary :
    ReadsAs (smallDisk "in.src") "in.src" assignment ∧
      ∃ shown, ((into "new" "in.src").runOn (smallDisk "in.src")).1.stdout =
        shown ++ (into "new" "in.src").summaryOf assignment := by
  have hsource : ReadsAs (smallDisk "in.src") "in.src" assignment := rfl
  refine ⟨hsource, ((into "new" "in.src").summary_shown_iff (smallDisk "in.src") hsource).1.mpr ?_⟩
  rintro ⟨asm, hasm, hunwritable⟩
  exact hunwritable rfl

/-- It is not shown if the listing is to go to a directory. -/
theorem into_directory_shows_nothing :
    ReadsAs (smallDisk "in.src") "in.src" assignment ∧
      ((into "out" "in.src").runOn (smallDisk "in.src")).1.stdout = "" ∧
      (compile assignment (into "out" "in.src").options).diagnostics.length = 1 ∧
      ¬ ∃ shown, ((into "out" "in.src").runOn (smallDisk "in.src")).1.stdout =
        shown ++ (into "out" "in.src").summaryOf assignment := by
  have hsource : ReadsAs (smallDisk "in.src") "in.src" assignment := rfl
  have hprogram := program_assignment (into "out" "in.src").options
  have hwrite : (writing "out" assignmentProgram.assembly.listing.toUTF8 (smallDisk "in.src")).1 =
      .error .isDirectory := rfl
  have hrun : (into "out" "in.src").runOn (smallDisk "in.src") =
      (into "out" "in.src").processOn assignment (smallDisk "in.src") := runOn_of_readsAs hsource
  have hstdout : ((into "out" "in.src").runOn (smallDisk "in.src")).1.stdout = "" := by
    rw [hrun, processOn_of_unwritable rfl hprogram rfl hwrite]
    rfl
  refine ⟨hsource, hstdout, by decide +kernel, ?_⟩
  rintro ⟨shown, hshown⟩
  rw [hstdout] at hshown
  exact Diagnostic.summary_ne_empty _ (String.append_eq_empty_iff.mp hshown.symm).2

end Arguments

end TinyImp
