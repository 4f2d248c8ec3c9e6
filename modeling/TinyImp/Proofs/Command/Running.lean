import TinyImp.Command.Run
import TinyImp.Proofs.Command.FileSystem
import TinyImp.Proofs.Execution.Blocks

/-!
# Runs of the command

What a run does with files is said once, as a list of the ways in which it can end
(`Arguments.Ends`): its outcome, the files behind it, and the writes that have succeeded. Whatever
reading and writing do, a run ends in one of these ways (`Arguments.ends_runOn`), and everything
else about runs is read off them.

**A run fails exactly if it cannot do what it was asked for, and changes no file but the one with
the listing** (`Arguments.run_outcome_and_files`).
-/

namespace TinyImp

/-! ### Files as text -/

/-- Bytes are a text exactly if they are its UTF-8 form. -/
private theorem fromUTF8?_eq_some_iff {bytes : ByteArray} {text : String} :
    String.fromUTF8? bytes = some text ↔ bytes = text.toUTF8 := by
  unfold String.fromUTF8?
  split
  · rw [Option.some.injEq]
    constructor <;> rintro rfl <;> rfl
  · next h =>
    refine iff_of_false (by simp) fun heq => h ?_
    rw [heq]
    exact text.isValidUTF8

/-- A step is followed by another one in the state that it leaves. -/
theorem bind_apply {σ α β : Type} (x : StateM σ α) (f : α → StateM σ β) (s : σ) :
    (x >>= f) s = f (x s).1 (x s).2 :=
  rfl

/-- A text is read exactly if the file has its bytes. -/
private theorem readText_eq_ok_iff {σ : Type} [Files (StateM σ)] {path text : String} {s : σ} :
    ((Files.readText path : StateM σ _) s).1 = .ok text ↔ ReadsAs s path text := by
  unfold Files.readText ReadsAs reading
  rw [bind_apply]
  change Except.bind ((Files.read path : StateM σ _) s).1 _ = _ ↔ _
  cases ((Files.read path : StateM σ _) s).1 with
  | error e => simp [Except.bind]
  | ok bytes =>
    rw [Except.ok.injEq, ← fromUTF8?_eq_some_iff]
    cases htext : String.fromUTF8? bytes with
    | none => simp [Except.bind, htext]
    | some found => simp [Except.bind, htext]

namespace Arguments

section

variable {σ : Type} [Files (StateM σ)]

/-- A run of the command: its outcome, and the files behind it. -/
def runOn (a : Arguments) (before : σ) : Outcome × σ :=
  (a.run : StateM σ Outcome) before

/-- The writes that succeed during a run, in order. -/
def writes (a : Arguments) (before : σ) : List (String × ByteArray) :=
  (a.runOn (Journal.mk before [])).2.writes

/-- What a run shows of a program before it writes the listing. -/
def shownTree (a : Arguments) (p : Program) : String :=
  if a.tree then p.tree else ""

/-- The summary that belongs to a text. -/
def summaryOf (a : Arguments) (source : String) : String :=
  Diagnostic.summary (compile source a.options).diagnostics

/-- The files behind the reading of the input. -/
def opened (a : Arguments) (before : σ) : σ :=
  (reading a.input before).2

/-- The ways in which a run can end: with an outcome, the files behind it, and the writes that have
succeeded. -/
inductive Ends (a : Arguments) (before : σ) : Outcome → σ → List (String × ByteArray) → Prop
  | unreadable {e : FileError} (hsource : ∀ source, ¬ ReadsAs before a.input source) :
      Ends a before (.failure "" (.read a.input e)) (a.opened before) []
  | scanned {source : String} (hsource : ReadsAs before a.input source) (hlex : a.lex = true) :
      Ends a before
        (.success (tokenListing (compile source a.options).tokens ++ a.summaryOf source))
        (a.opened before) []
  | unparsed {source : String} {e : ParseError} (hsource : ReadsAs before a.input source)
      (hlex : a.lex = false) (hprogram : (compile source a.options).program = .error e) :
      Ends a before
        (.failure (tokenListing (compile source a.options).tokens ++ a.summaryOf source) (.parse e))
        (a.opened before) []
  | parsed {source : String} {p : Program} (hsource : ReadsAs before a.input source)
      (hlex : a.lex = false) (hprogram : (compile source a.options).program = .ok p)
      (hparse : a.parse = true) :
      Ends a before (.success (p.tree ++ a.summaryOf source)) (a.opened before) []
  | unwritable {source : String} {p : Program} {e : FileError}
      (hsource : ReadsAs before a.input source) (hlex : a.lex = false)
      (hprogram : (compile source a.options).program = .ok p) (hparse : a.parse = false)
      (hwrite : (writing a.outputPath p.assembly.listing.toUTF8 (a.opened before)).1 = .error e) :
      Ends a before (.failure (a.shownTree p) (.write a.outputPath e))
        (writing a.outputPath p.assembly.listing.toUTF8 (a.opened before)).2 []
  | written {source : String} {p : Program} (hsource : ReadsAs before a.input source)
      (hlex : a.lex = false) (hprogram : (compile source a.options).program = .ok p)
      (hparse : a.parse = false)
      (hwrite : (writing a.outputPath p.assembly.listing.toUTF8 (a.opened before)).1 = .ok ()) :
      Ends a before (.success (a.shownTree p ++ a.summaryOf source))
        (writing a.outputPath p.assembly.listing.toUTF8 (a.opened before)).2
        [(a.outputPath, p.assembly.listing.toUTF8)]

/-! ### The steps of a run -/

/-- What a run does with the text of its input. -/
def processOn (a : Arguments) (source : String) (s : σ) : Outcome × σ :=
  (a.process source : StateM σ Outcome) s

variable {a : Arguments} {source : String} {s : σ}

/-- A run on a text goes on with the files behind the reading. -/
theorem runOn_of_readsAs (h : ReadsAs s a.input source) :
    a.runOn s = a.processOn source (a.opened s) := by
  have h := readText_eq_ok_iff.mpr h
  unfold runOn run
  rw [bind_apply, h]
  rfl

/-- A run whose input cannot be read shows nothing. -/
private theorem runOn_of_readText_error {e : FileError}
    (h : ((Files.readText a.input : StateM σ _) s).1 = .error e) :
    a.runOn s = (.failure "" (.read a.input e), a.opened s) := by
  unfold runOn run
  rw [bind_apply, h]
  rfl

/-- A run that only scans lists the tokens, and writes nothing. -/
private theorem processOn_of_lex (hlex : a.lex = true) :
    a.processOn source s =
      (.success (tokenListing (compile source a.options).tokens ++ a.summaryOf source), s) := by
  unfold processOn process
  rw [if_pos hlex]
  rfl

/-- A text that does not parse has its tokens listed all the same. -/
private theorem processOn_of_error {e : ParseError} (hlex : a.lex = false)
    (h : (compile source a.options).program = .error e) :
    a.processOn source s =
      (.failure (tokenListing (compile source a.options).tokens ++ a.summaryOf source) (.parse e),
        s) := by
  unfold processOn process
  rw [if_neg (by simp [hlex]), h]
  rfl

variable {p : Program}

/-- A run that only parses shows the tree, and writes nothing. -/
private theorem processOn_of_parse (hlex : a.lex = false)
    (h : (compile source a.options).program = .ok p) (hparse : a.parse = true) :
    a.processOn source s = (.success (p.tree ++ a.summaryOf source), s) := by
  unfold processOn process
  rw [if_neg (by simp [hlex]), h]
  simp only [hparse, Bool.or_true, if_true]
  rfl

/-- If the listing cannot be written, the run ends before it shows the summary. -/
theorem processOn_of_unwritable {e : FileError} (hlex : a.lex = false)
    (h : (compile source a.options).program = .ok p) (hparse : a.parse = false)
    (hwrite : (writing a.outputPath p.assembly.listing.toUTF8 s).1 = .error e) :
    a.processOn source s = (.failure (a.shownTree p) (.write a.outputPath e),
      (writing a.outputPath p.assembly.listing.toUTF8 s).2) := by
  unfold processOn process
  rw [if_neg (by simp [hlex]), h]
  simp only [hparse, Bool.or_false, Bool.false_eq_true, if_false]
  unfold writing at hwrite
  rw [bind_apply, hwrite]
  rfl

/-- If the listing can be written, the run goes on to the summary. -/
private theorem processOn_of_written (hlex : a.lex = false)
    (h : (compile source a.options).program = .ok p) (hparse : a.parse = false)
    (hwrite : (writing a.outputPath p.assembly.listing.toUTF8 s).1 = .ok ()) :
    a.processOn source s = (.success (a.shownTree p ++ a.summaryOf source),
      (writing a.outputPath p.assembly.listing.toUTF8 s).2) := by
  unfold processOn process
  rw [if_neg (by simp [hlex]), h]
  simp only [hparse, Bool.or_false, Bool.false_eq_true, if_false]
  unfold writing at hwrite
  rw [bind_apply, hwrite]
  rfl

/-- A journal has the files of the run. -/
theorem opened_journal (a : Arguments) (j : Journal σ) :
    a.opened j = ⟨a.opened j.files, j.writes⟩ :=
  rfl

/-- A run ends in one of the ways listed, and in the same way with a journal, which then has the
writes of the run behind those it had before. -/
theorem exists_ends (a : Arguments) (j : Journal σ) :
    ∃ outcome after added, a.runOn j.files = (outcome, after) ∧
      a.runOn j = (outcome, ⟨after, j.writes ++ added⟩) ∧
      a.Ends j.files outcome after added := by
  cases hread : ((Files.readText a.input : StateM σ _) j.files).1 with
  | error e =>
    have hjournal : ((Files.readText a.input : StateM (Journal σ) _) j).1 = .error e := hread
    have hsource (source : String) : ¬ ReadsAs j.files a.input source := fun h => by
      rw [readText_eq_ok_iff.mpr h] at hread
      cases hread
    refine ⟨_, _, [], runOn_of_readText_error hread, ?_, .unreadable hsource⟩
    rw [runOn_of_readText_error hjournal, opened_journal, List.append_nil]
  | ok source =>
    have hsource := readText_eq_ok_iff.mp hread
    have hjournal : ReadsAs j a.input source := hsource
    rw [runOn_of_readsAs hsource, runOn_of_readsAs hjournal, opened_journal]
    cases hlex : a.lex with
    | true =>
      refine ⟨_, _, [], processOn_of_lex hlex, ?_, .scanned hsource hlex⟩
      rw [processOn_of_lex hlex, List.append_nil]
    | false =>
      cases hprogram : (compile source a.options).program with
      | error e =>
        refine ⟨_, _, [], processOn_of_error hlex hprogram, ?_, .unparsed hsource hlex hprogram⟩
        rw [processOn_of_error hlex hprogram, List.append_nil]
      | ok p =>
        cases hparse : a.parse with
        | true =>
          refine ⟨_, _, [], processOn_of_parse hlex hprogram hparse, ?_,
            .parsed hsource hlex hprogram hparse⟩
          rw [processOn_of_parse hlex hprogram hparse, List.append_nil]
        | false =>
          cases hwrite : (writing a.outputPath p.assembly.listing.toUTF8 (a.opened j.files)).1 with
          | error e =>
            have hjournal := Journal.writing_of_error (j := ⟨a.opened j.files, j.writes⟩) hwrite
            refine ⟨_, _, [], processOn_of_unwritable hlex hprogram hparse hwrite, ?_,
              .unwritable hsource hlex hprogram hparse hwrite⟩
            rw [processOn_of_unwritable hlex hprogram hparse (congrArg Prod.fst hjournal), hjournal,
              List.append_nil]
          | ok =>
            have hjournal := Journal.writing_of_ok (j := ⟨a.opened j.files, j.writes⟩) hwrite
            refine ⟨_, _, [(a.outputPath, p.assembly.listing.toUTF8)],
              processOn_of_written hlex hprogram hparse hwrite, ?_,
              .written hsource hlex hprogram hparse hwrite⟩
            rw [processOn_of_written hlex hprogram hparse (congrArg Prod.fst hjournal), hjournal]

/-- A journal changes neither the outcome of a run nor the files behind it. -/
theorem runOn_journal (a : Arguments) (before : σ) :
    a.runOn (Journal.mk before []) =
      ((a.runOn before).1, ⟨(a.runOn before).2, a.writes before⟩) := by
  obtain ⟨outcome, after, added, hrun, hjournal, -⟩ := a.exists_ends (Journal.mk before [])
  have hrun : a.runOn before = (outcome, after) := hrun
  rw [writes, hjournal, hrun]

/-- **A run ends in one of the ways listed.** -/
theorem ends_runOn (a : Arguments) (before : σ) :
    a.Ends before (a.runOn before).1 (a.runOn before).2 (a.writes before) := by
  obtain ⟨outcome, after, added, hrun, hjournal, hends⟩ := a.exists_ends (Journal.mk before [])
  have hrun : a.runOn before = (outcome, after) := hrun
  rw [writes, hjournal, hrun]
  exact hends

end

/-! ### Outcome and files -/

section

variable {σ : Type} [Files (StateM σ)] {a : Arguments} {before after : σ} {source : String}
  {asm : Assembly} {outcome : Outcome} {added : List (String × ByteArray)}

/-- The run comes to the point at which it writes a listing: it was not asked to stop before, its
input is a text, and the text parses. -/
def Generates (a : Arguments) (before : σ) (asm : Assembly) : Prop :=
  a.lex = false ∧ a.parse = false ∧
    ∃ source, ReadsAs before a.input source ∧ (compile source a.options).assembly = some asm

/-- A run that comes to the point of writing has the listing of its program, and no other. -/
theorem generates_iff {p : Program} (hsource : ReadsAs before a.input source)
    (hlex : a.lex = false) (hprogram : (compile source a.options).program = .ok p)
    (hparse : a.parse = false) : a.Generates before asm ↔ asm = p.assembly := by
  constructor
  · rintro ⟨-, -, source', hsource', hasm⟩
    rw [hsource'.unique hsource, assembly_compile_of_program hprogram] at hasm
    exact (Option.some.inj hasm).symm
  · rintro rfl
    exact ⟨hlex, hparse, source, hsource, assembly_compile_of_program hprogram⟩

/-- A compilation with a listing has a program, and the listing is that of the program. -/
theorem exists_program_of_assembly {options : Options}
    (h : (compile source options).assembly = some asm) :
    ∃ p, (compile source options).program = .ok p ∧ asm = p.assembly := by
  cases hprogram : (compile source options).program with
  | error e =>
    rw [assembly_compile, hprogram] at h
    cases h
  | ok p =>
    rw [assembly_compile_of_program hprogram] at h
    exact ⟨p, rfl, (Option.some.inj h).symm⟩

/-- A text that does not parse has no listing. -/
theorem not_generates_of_error {e : ParseError} (hsource : ReadsAs before a.input source)
    (hprogram : (compile source a.options).program = .error e) : ¬ a.Generates before asm := by
  rintro ⟨-, -, source', hsource', hasm⟩
  rw [hsource'.unique hsource, assembly_compile, hprogram] at hasm
  cases hasm

namespace Ends

/-- A run fails if it cannot read, parse or write. -/
private theorem exitCode_eq_one_iff (h : a.Ends before outcome after added) :
    outcome.exitCode = 1 ↔
      (¬ ∃ source, ReadsAs before a.input source) ∨
      (∃ source e, ReadsAs before a.input source ∧ a.lex = false ∧
        (compile source a.options).program = .error e) ∨
      ∃ asm, a.Generates before asm ∧ ¬ Writable (a.opened before) a.outputPath asm.listing := by
  cases h with
  | unreadable hsource => exact iff_of_true rfl (.inl (not_exists.mpr hsource))
  | @scanned source hsource hlex =>
    refine iff_of_false Nat.zero_ne_one ?_
    rintro (hnone | ⟨-, -, -, hlex', -⟩ | ⟨asm, ⟨hlex', -⟩, -⟩)
    · exact hnone ⟨source, hsource⟩
    · simp [hlex] at hlex'
    · simp [hlex] at hlex'
  | unparsed hsource hlex hprogram =>
    exact iff_of_true rfl (.inr (.inl ⟨_, _, hsource, hlex, hprogram⟩))
  | @parsed source p hsource hlex hprogram hparse =>
    refine iff_of_false Nat.zero_ne_one ?_
    rintro (hnone | ⟨source', e, hsource', -, herror⟩ | ⟨asm, ⟨-, hparse', -⟩, -⟩)
    · exact hnone ⟨source, hsource⟩
    · rw [hsource'.unique hsource, hprogram] at herror
      cases herror
    · simp [hparse] at hparse'
  | @unwritable source p e hsource hlex hprogram hparse hwrite =>
    refine iff_of_true rfl (.inr (.inr ⟨p.assembly, ?_, fun hwritable => ?_⟩))
    · exact (generates_iff hsource hlex hprogram hparse).mpr rfl
    · rw [Writable, hwrite] at hwritable
      cases hwritable
  | @written source p hsource hlex hprogram hparse hwrite =>
    refine iff_of_false Nat.zero_ne_one ?_
    rintro (hnone | ⟨source', e, hsource', -, herror⟩ | ⟨asm, hasm, hunwritable⟩)
    · exact hnone ⟨source, hsource⟩
    · rw [hsource'.unique hsource, hprogram] at herror
      cases herror
    · obtain rfl := (generates_iff hsource hlex hprogram hparse).mp hasm
      exact hunwritable hwrite

private theorem exitCode_eq_zero_or_one (h : a.Ends before outcome after added) :
    outcome.exitCode = 0 ∨ outcome.exitCode = 1 := by
  cases h <;> simp [Outcome.success, Outcome.failure]

/-- A run writes a file exactly if it comes to the point of doing so and the write succeeds. -/
theorem mem_added_iff (h : a.Ends before outcome after added) {path : String}
    {bytes : ByteArray} :
    (path, bytes) ∈ added ↔ path = a.outputPath ∧
      ∃ asm, a.Generates before asm ∧ Writable (a.opened before) path asm.listing ∧
        bytes = asm.listing.toUTF8 := by
  cases h with
  | unreadable hsource =>
    refine iff_of_false List.not_mem_nil ?_
    rintro ⟨-, asm, ⟨-, -, source, hsource', -⟩, -⟩
    exact hsource source hsource'
  | scanned hsource hlex =>
    refine iff_of_false List.not_mem_nil ?_
    rintro ⟨-, asm, ⟨hlex', -⟩, -⟩
    simp [hlex] at hlex'
  | unparsed hsource hlex hprogram =>
    refine iff_of_false List.not_mem_nil ?_
    rintro ⟨-, asm, hasm, -⟩
    exact not_generates_of_error hsource hprogram hasm
  | parsed hsource hlex hprogram hparse =>
    refine iff_of_false List.not_mem_nil ?_
    rintro ⟨-, asm, ⟨-, hparse', -⟩, -⟩
    simp [hparse] at hparse'
  | unwritable hsource hlex hprogram hparse hwrite =>
    refine iff_of_false List.not_mem_nil ?_
    rintro ⟨rfl, asm, hasm, hwritable, -⟩
    obtain rfl := (generates_iff hsource hlex hprogram hparse).mp hasm
    rw [Writable, hwrite] at hwritable
    cases hwritable
  | @written source p hsource hlex hprogram hparse hwrite =>
    rw [List.mem_singleton, Prod.mk.injEq]
    refine and_congr_right fun hpath => ⟨fun hbytes => ?_, ?_⟩
    · refine ⟨p.assembly, (generates_iff hsource hlex hprogram hparse).mpr rfl, ?_, hbytes⟩
      rw [hpath]
      exact hwrite
    · rintro ⟨asm, hasm, -, hbytes⟩
      rw [hbytes, (generates_iff hsource hlex hprogram hparse).mp hasm]

/-- The files behind a run are those behind the reading of its input, or those behind a write of the
listing, whether or not it has succeeded. -/
theorem files_eq_or (h : a.Ends before outcome after added) :
    after = a.opened before ∨
      ∃ asm, a.Generates before asm ∧
        after = (writing a.outputPath asm.listing.toUTF8 (a.opened before)).2 := by
  cases h with
  | unwritable hsource hlex hprogram hparse hwrite
  | written hsource hlex hprogram hparse hwrite =>
    exact .inr ⟨_, (generates_iff hsource hlex hprogram hparse).mpr rfl, rfl⟩
  | _ => exact .inl rfl

end Ends

end

open FileSystem

section

variable {σ : Type} [Files (StateM σ)] [FileSystem σ] {a : Arguments} {before : σ} {path : String}
  {asm : Assembly}

/-- Reading the input leaves the files as they are. -/
theorem opened_eq (a : Arguments) (before : σ) : a.opened before = before :=
  state_reading a.input before

/-- The files behind a run that comes to the point at which it writes a listing. -/
theorem runOn_of_generates (hasm : a.Generates before asm) :
    (a.runOn before).2 = (writing a.outputPath asm.listing.toUTF8 before).2 := by
  obtain ⟨hlex, hparse, source, hsource, hassembly⟩ := hasm
  obtain ⟨p, hprogram, rfl⟩ := exists_program_of_assembly hassembly
  rw [runOn_of_readsAs hsource, opened_eq]
  cases hwrite : (writing a.outputPath p.assembly.listing.toUTF8 before).1 with
  | error e => rw [processOn_of_unwritable hlex hprogram hparse hwrite]
  | ok => rw [processOn_of_written hlex hprogram hparse hwrite]

/-- A path that leads to where the listing is written leads to the listing after the run. -/
theorem entryAt_runOn_of_generates (hasm : a.Generates before asm)
    (hwritable : Writable before a.outputPath asm.listing)
    (hplace : place? before path = place? before a.outputPath) :
    entryAt (a.runOn before).2 path = some (.file asm.listing.toUTF8) := by
  rw [runOn_of_generates hasm, entryAt_writing hwritable hplace]

/-- A path leads to what it led to before the run, if no listing is generated for where it leads
to. -/
theorem entryAt_runOn_of_not_generates
    (h : ¬ ∃ asm, a.Generates before asm ∧ place? before path = place? before a.outputPath) :
    entryAt (a.runOn before).2 path = entryAt before path := by
  obtain hafter | ⟨asm, hasm, hafter⟩ := (a.ends_runOn before).files_eq_or
  · rw [hafter, opened_eq]
  · rw [hafter, opened_eq]
    exact entryAt_writing_of_ne fun hplace => h ⟨asm, hasm, hplace⟩

/-- If a failed write changes nothing, a run changes nothing unless it writes its listing. -/
theorem runOn_of_not_writable [CleanFailure σ]
    (h : ¬ ∃ asm, a.Generates before asm ∧ Writable before a.outputPath asm.listing) :
    (a.runOn before).2 = before := by
  obtain hafter | ⟨asm, hasm, hafter⟩ := (a.ends_runOn before).files_eq_or
  · rw [hafter, opened_eq]
  · rw [hafter, opened_eq]
    cases hwrite : (writing a.outputPath asm.listing.toUTF8 before).1 with
    | error e => exact CleanFailure.state_writing_error hwrite
    | ok => exact absurd ⟨asm, hasm, hwrite⟩ h

end

/-- **What a run comes to, and what it changes.** A run exits with one if its input is not a text
that can be read, if more than the tokens is asked for and the text does not parse, or if a listing
is to be written and cannot be; otherwise it exits with zero. It changes nothing at any other place
than that of its output path. The output path is written exactly if a run comes to that point and
the write succeeds. Then the listing of the compilation stands there; if nothing is written, the
files are as they were, provided that a failed write leaves them so. -/
theorem run_outcome_and_files {σ : Type} [Files (StateM σ)] [FileSystem σ] [CleanFailure σ]
    (a : Arguments) (before : σ) :
    ((a.runOn before).1.exitCode = 1 ↔
      (¬ ∃ source, ReadsAs before a.input source) ∨
      (∃ source e, ReadsAs before a.input source ∧ a.lex = false ∧
        (compile source a.options).program = .error e) ∨
      ∃ asm, a.Generates before asm ∧ ¬ Writable before a.outputPath asm.listing) ∧
    ((a.runOn before).1.exitCode = 0 ∨ (a.runOn before).1.exitCode = 1) ∧
    (∀ path, place? before path ≠ place? before a.outputPath →
      entryAt (a.runOn before).2 path = entryAt before path) ∧
    (∀ path bytes, (path, bytes) ∈ a.writes before ↔ path = a.outputPath ∧
      ∃ asm, a.Generates before asm ∧ Writable before path asm.listing ∧
        bytes = asm.listing.toUTF8) ∧
    (∀ bytes, (a.outputPath, bytes) ∈ a.writes before →
      entryAt (a.runOn before).2 a.outputPath = some (.file bytes)) ∧
    (a.writes before = [] → (a.runOn before).2 = before) := by
  have hends := a.ends_runOn before
  have hwrites (path : String) (bytes : ByteArray) :
      (path, bytes) ∈ a.writes before ↔ path = a.outputPath ∧
        ∃ asm, a.Generates before asm ∧ Writable before path asm.listing ∧
          bytes = asm.listing.toUTF8 := by
    simpa only [opened_eq] using hends.mem_added_iff
  refine ⟨by simpa only [opened_eq] using hends.exitCode_eq_one_iff,
    hends.exitCode_eq_zero_or_one, ?_, hwrites, ?_, ?_⟩
  · intro path hpath
    refine entryAt_runOn_of_not_generates ?_
    rintro ⟨asm, -, hplace⟩
    exact hpath hplace
  · intro bytes hbytes
    obtain ⟨-, asm, hasm, hwritable, rfl⟩ := (hwrites _ _).mp hbytes
    exact entryAt_runOn_of_generates hasm hwritable rfl
  · intro hnone
    refine runOn_of_not_writable ?_
    rintro ⟨asm, hasm, hwritable⟩
    have hmem := (hwrites _ _).mpr ⟨rfl, asm, hasm, hwritable, rfl⟩
    rw [hnone] at hmem
    cases hmem

/-- A text with an assignment to a variable that is not declared. -/
def assignment : String := "x = 1;"

def assignmentTokens : List Located :=
  [.identifier "x", .assign, .intLit 1, .semicolon].map fun w => ⟨w, 1⟩

def assignmentProgram : Program :=
  ⟨[.assign "x" (.const (.int 1))]⟩

/-- The text is parsed to the assignment with any options. -/
theorem program_assignment (options : Options) :
    (compile assignment options).program = .ok assignmentProgram := by
  have htokens : (scan assignment).tokens = assignmentTokens := by decide +kernel
  rw [program_compile_of_scan htokens (by decide +kernel)]
  rfl

/-- A disk with one file, which holds the assignment, and one directory. -/
def smallDisk (name : String) : Disk :=
  ⟨[([name], .file assignment.toUTF8), (["out"], .directory)], []⟩

/-- The command with an input file and nothing else. -/
def plain (input : String) : Arguments :=
  ⟨{}, input⟩

/-- The listing of the assignment is written beside the text, which stays as it is. -/
theorem plain_outcome_and_files :
    ReadsAs (smallDisk "in.src") "in.src" assignment ∧
      (plain "in.src").outputPath = "in.asm" ∧
      ((plain "in.src").runOn (smallDisk "in.src")).1.exitCode = 0 ∧
      entryAt ((plain "in.src").runOn (smallDisk "in.src")).2 "in.asm" =
        some (.file assignmentProgram.assembly.listing.toUTF8) ∧
      entryAt ((plain "in.src").runOn (smallDisk "in.src")).2 "in.src" =
        some (.file assignment.toUTF8) := by
  have hsource : ReadsAs (smallDisk "in.src") "in.src" assignment := rfl
  have houtput : (plain "in.src").outputPath = "in.asm" := by decide
  have hprogram := program_assignment (plain "in.src").options
  have hgenerates (asm : Assembly) : (plain "in.src").Generates (smallDisk "in.src") asm ↔
      asm = assignmentProgram.assembly := generates_iff hsource rfl hprogram rfl
  have hwritable : Writable (smallDisk "in.src") "in.asm" assignmentProgram.assembly.listing := rfl
  obtain ⟨hfails, hcode, hframe, hwrites, hwritten, -⟩ :=
    run_outcome_and_files (plain "in.src") (smallDisk "in.src")
  rw [houtput] at hfails hframe hwritten
  refine ⟨hsource, houtput, hcode.resolve_right fun hone => ?_, ?_, ?_⟩
  · obtain hnone | ⟨source, e, hsource', -, herror⟩ | ⟨asm, hasm, hunwritable⟩ := hfails.mp hone
    · exact hnone ⟨assignment, hsource⟩
    · rw [hsource'.unique hsource, hprogram] at herror
      cases herror
    · rw [(hgenerates asm).mp hasm] at hunwritable
      exact hunwritable hwritable
  · exact hwritten _ ((hwrites _ _).mpr ⟨houtput.symm, _, (hgenerates _).mpr rfl, hwritable, rfl⟩)
  · have hplace : (smallDisk "in.src").place? "in.src" ≠ (smallDisk "in.src").place? "in.asm" := by
      decide
    exact hframe "in.src" hplace

end Arguments

end TinyImp
