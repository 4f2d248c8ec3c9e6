import TinyImp.Proofs.Scanning.Boundaries

/-!
# What a scan reports

The problems of a text can be read off its cut by maximal munch: a stray character, unless the same
one stands in front of it on its line, and an integer out of range. **The scanner reports these, in
the order of the text, and nothing else** (`scan_reports_exactly`). Asked for one token after the
other it gives the tokens of the whole text, first to last, and has reported at any time some of the
problems, first to last.

The scanner does not look back. What it knows of the text behind it is its line and the stray
characters that it has met there, and that is enough (`Lexical.KeepsTrack`).
-/

namespace TinyImp

namespace Lexical

/-! ### The problems of a cut -/

deriving instance DecidableEq for Piece

instance (w : List Char) : Decidable (w ∈ digits) :=
  decidable_of_iff ((!w.isEmpty && w.all Char.isDigit) = true) (by simp [mem_digits])

/-- The line on which the piece at an index begins. -/
def lineAt (pieces : List Piece) (i : ℕ) : ℕ :=
  1 + ((pieces.take i).flatMap Piece.chars).count '\n'

/-- The problem with the piece at an index. A stray character is one only where it stands for the
first time on its line. -/
def problemAt? (pieces : List Piece) (i : ℕ) : Option Diagnostic :=
  match pieces[i]? with
  | some (.stray c) =>
    if ∃ j < i, pieces[j]? = some (.stray c) ∧ lineAt pieces j = lineAt pieces i then none
    else
      some ⟨lineAt pieces i, .lexical, s!"Invalid character '{c.toString}'",
        (Problem.strayCharacter c).fix⟩
  | some (.lexeme w) =>
    if w ∈ digits ∧ 2 ^ 63 - 1 < numeral w then
      some ⟨lineAt pieces i, .lexical, s!"Integer literal '{String.ofList w}' is out of range",
        (Problem.integerTooLarge (String.ofList w)).fix⟩
    else none
  | _ => none

/-- All problems of a cut, in the order of the text. -/
def problems (pieces : List Piece) : List Diagnostic :=
  (List.range pieces.length).filterMap (problemAt? pieces)

variable {before : List Piece}

private theorem lineAt_append {i : ℕ} (h : i ≤ before.length) (after : List Piece) :
    lineAt (before ++ after) i = lineAt before i := by
  rw [lineAt, lineAt, List.take_append_of_le_length h]

private theorem lineAt_le (pieces : List Piece) {i j : ℕ} (h : i ≤ j) :
    lineAt pieces i ≤ lineAt pieces j := by
  have htake : pieces.take i <+: pieces.take j := List.take_prefix_take_left h
  exact Nat.add_le_add_left ((htake.flatMap _).sublist.count_le _) 1

private theorem lineAt_length (pieces : List Piece) :
    lineAt pieces pieces.length = 1 + (pieces.flatMap Piece.chars).count '\n' := by
  rw [lineAt, List.take_length]

/-- The stray character `c` is on the line among the pieces. -/
def StrayOn (pieces : List Piece) (c : Char) (line : ℕ) : Prop :=
  ∃ j : ℕ, pieces[j]? = some (.stray c) ∧ lineAt pieces j = line

/-- A further piece may be a stray character, on the line that has been come to. -/
private theorem strayOn_append_singleton {piece : Piece} {c : Char} {line : ℕ} :
    StrayOn (before ++ [piece]) c line ↔
      StrayOn before c line ∨ piece = .stray c ∧ lineAt before before.length = line := by
  constructor
  · rintro ⟨j, hj, hline⟩
    obtain ⟨hlt, -⟩ := List.getElem?_eq_some_iff.1 hj
    rw [List.length_append, List.length_singleton] at hlt
    rw [lineAt_append (by omega)] at hline
    rcases Nat.lt_or_eq_of_le (Nat.le_of_lt_succ hlt) with hlt | rfl
    · rw [List.getElem?_append_left hlt] at hj
      exact .inl ⟨j, hj, hline⟩
    · exact .inr ⟨by simpa using hj, hline⟩
  · rintro (⟨j, hj, hline⟩ | ⟨rfl, hline⟩)
    · obtain ⟨hlt, -⟩ := List.getElem?_eq_some_iff.1 hj
      exact ⟨j, by rwa [List.getElem?_append_left hlt], by rwa [lineAt_append hlt.le]⟩
    · exact ⟨before.length, by simp, by rwa [lineAt_append le_rfl]⟩

/-- No stray character is on a line that has not been reached. -/
theorem not_strayOn {c : Char} {line : ℕ} (h : lineAt before before.length < line) :
    ¬ StrayOn before c line := by
  rintro ⟨j, hj, rfl⟩
  obtain ⟨hlt, -⟩ := List.getElem?_eq_some_iff.1 hj
  exact absurd (lineAt_le before hlt.le) (Nat.not_le.2 h)

/-- A scanner behind some pieces knows its line, and which stray characters it has met there. -/
structure KeepsTrack (before : List Piece) (place : Place) : Prop where
  line : place.line = lineAt before before.length
  reported : ∀ c, c ∈ place.reported ↔ StrayOn before c place.line

private theorem keepsTrack_nil : KeepsTrack [] {} :=
  ⟨rfl, fun c => ⟨fun h => by simp at h, fun h => by simp [StrayOn] at h⟩⟩

/-- A piece that is neither a line feed nor a stray character changes nothing. -/
theorem KeepsTrack.same {place : Place} (h : KeepsTrack before place) {piece : Piece}
    (hfeed : piece.chars.count '\n' = 0) (hstray : ∀ c, piece ≠ .stray c) :
    KeepsTrack (before ++ [piece]) place := by
  refine ⟨?_, fun c => ?_⟩
  · rw [h.line, lineAt_length, lineAt_length]
    simp [hfeed]
  · rw [h.reported c, strayOn_append_singleton]
    simp [hstray c]

private theorem notMem_digits_of_mem_word {w : List Char} (hw : w ∈ word) : w ∉ digits := by
  obtain ⟨c, rest, rfl, hstart, -⟩ := mem_word.1 hw
  intro hdigits
  exact not_isDigit_of_isWordStart hstart ((mem_digits.1 hdigits).2 c List.mem_cons_self)

end Lexical

namespace Lexeme

open Lexical

variable {before : List Piece} {place : Place} {l : Lexeme}

/-- A lexeme of the language leaves the scanner where it is. -/
theorem place_read_of_piece {w : List Char} (h : l.piece = .lexeme w) (place : Place) :
    (l.read place).place = place := by
  cases l with
  | blank c => cases h
  | integer whole =>
    simp only [read]
    split_ifs <;> rfl
  | single c =>
    cases hsymbol : Token.ofSymbol? c with
    | some t => rw [read, hsymbol]
    | none => simp [piece, hsymbol] at h
  | word | decimal | equality => rfl

private theorem ofSymbol?_of_piece {c : Char} (h : (Lexeme.single c).piece = .stray c) :
    Token.ofSymbol? c = none := by
  cases hsymbol : Token.ofSymbol? c with
  | none => rfl
  | some t => simp [piece, hsymbol] at h

/-- A stray character is reported unless it has been met on the line. -/
theorem read_of_stray {c : Char} (h : (Lexeme.single c).piece = .stray c) (place : Place) :
    (Lexeme.single c).read place =
      if c ∈ place.reported then ⟨none, none, place⟩
      else
        ⟨none, some ⟨place.line, .strayCharacter c⟩,
          ⟨place.line, c :: place.reported⟩⟩ := by
  rw [read, ofSymbol?_of_piece h]

/-- **One step keeps track** of the line and of the stray characters on it. -/
theorem WellFormed.keepsTrack_read (hl : l.WellFormed) (h : KeepsTrack before place) :
    KeepsTrack (before ++ [l.piece]) (l.read place).place := by
  have hline : (l.read place).place.line =
      lineAt (before ++ [l.piece]) (before ++ [l.piece]).length := by
    rw [hl.line_read, h.line, lineAt_length, lineAt_length, List.flatMap_append, List.count_append,
      List.flatMap_singleton, chars_piece, Nat.add_assoc]
  rcases hl.kinds with ⟨c, -, rfl⟩ | ⟨hmem, hpiece⟩ | ⟨c, hc, -, rfl, hpiece⟩
  · by_cases hfeed : c = '\n'
    · refine ⟨hline, fun d => ?_⟩
      rw [strayOn_append_singleton, read, if_pos hfeed]
      -- the line is a new one
      have hnew : lineAt before before.length < place.line + 1 := by rw [← h.line]; omega
      simp [not_strayOn hnew, piece]
    · rw [read, if_neg hfeed]
      refine h.same ?_ (by simp [piece])
      simp [piece, Piece.chars, hfeed]
  · have hplace := place_read_of_piece hpiece place
    have hcount : l.piece.chars.count '\n' = 0 := by
      have hread := hl.line_read place
      rw [hplace] at hread
      rw [chars_piece]
      omega
    rw [hplace]
    exact h.same hcount (by simp [hpiece])
  · refine ⟨hline, fun d => ?_⟩
    rw [strayOn_append_singleton, read_of_stray hpiece, hpiece, ← h.line, Piece.stray.injEq]
    split_ifs with hreported
    · rw [← h.reported d]
      constructor
      · exact .inl
      · rintro (hd | ⟨rfl, -⟩)
        · exact hd
        · exact hreported
    · simp only [List.mem_cons, h.reported d, eq_comm (a := d), and_true]
      exact or_comm

/-- **One step reports the problem of its piece.** -/
theorem WellFormed.report_read (hl : l.WellFormed) (h : KeepsTrack before place)
    (after : List Piece) :
    (l.read place).report.map Report.diagnostic =
      problemAt? (before ++ l.piece :: after) before.length := by
  have hpieceAt : (before ++ l.piece :: after)[before.length]? = some l.piece := by simp
  have hlineAt : lineAt (before ++ l.piece :: after) before.length = place.line := by
    rw [lineAt_append le_rfl, h.line]
  rw [problemAt?, hpieceAt, hlineAt]
  cases hl with
  | @blank c hc =>
    rw [read]
    split_ifs <;> rfl
  | @word letters hw => exact (if_neg fun hlarge => notMem_digits_of_mem_word hw hlarge.1).symm
  | @integer whole hw =>
    have hmax : maxInt = 2 ^ 63 - 1 := rfl
    have hpiece : (Lexeme.integer whole).piece = .lexeme whole := rfl
    simp only [read, decimalValue_eq, hmax, hpiece]
    by_cases hle : numeral whole ≤ 2 ^ 63 - 1
    · rw [if_pos hle, if_neg fun hlarge => Nat.not_lt.2 hle hlarge.2]
      rfl
    · rw [if_neg hle, if_pos ⟨hw, Nat.not_le.1 hle⟩]
      rfl
  | @decimal whole fraction _ _ =>
    exact (if_neg fun hlarge => decimal_notMem_digits whole fraction hlarge.1).symm
  | equality =>
    have hdigit : ['=', '='] ∉ Lexical.digits := fun hmem =>
      absurd ((mem_digits.1 hmem).2 '=' List.mem_cons_self) (by decide)
    exact (if_neg fun hlarge => hdigit hlarge.1).symm
  | @single c _ hpart =>
    by_cases hsymbol : (Token.ofSymbol? c).isSome
    · obtain ⟨t, ht⟩ := Option.isSome_iff_exists.1 hsymbol
      have hdigit : [c] ∉ Lexical.digits := fun hmem =>
        hpart (isWordPart_iff.2 (.inr ((mem_digits.1 hmem).2 c List.mem_cons_self)))
      rw [read, piece, ht]
      exact (if_neg fun hlarge => hdigit hlarge.1).symm
    · have hpiece : (Lexeme.single c).piece = .stray c := if_neg hsymbol
      -- the characters met on the line are the stray ones in front of this one
      have hmet : (∃ j < before.length, (before ++ Piece.stray c :: after)[j]? = some (.stray c) ∧
          lineAt (before ++ Piece.stray c :: after) j = place.line) ↔ c ∈ place.reported := by
        rw [h.reported c]
        constructor
        · rintro ⟨j, hj, hstray, hline⟩
          rw [List.getElem?_append_left hj] at hstray
          rw [lineAt_append hj.le] at hline
          exact ⟨j, hstray, hline⟩
        · rintro ⟨j, hstray, hline⟩
          obtain ⟨hj, -⟩ := List.getElem?_eq_some_iff.1 hstray
          exact ⟨j, hj, by rwa [List.getElem?_append_left hj], by rwa [lineAt_append hj.le]⟩
      rw [read_of_stray hpiece, hpiece]
      simp only [hmet]
      split_ifs <;> rfl

end Lexeme

/-- **The run.** Behind some pieces, the reports on the next ones are their problems. -/
theorem Scan.reports_ofLexemes {lexemes : List Lexeme} (hl : ∀ l ∈ lexemes, l.WellFormed)
    {before : List Lexical.Piece} {place : Place} (h : Lexical.KeepsTrack before place) :
    (Scan.ofLexemes place lexemes).reports.map Report.diagnostic =
      (List.range' before.length lexemes.length).filterMap
        (Lexical.problemAt? (before ++ lexemes.map Lexeme.piece)) := by
  induction lexemes generalizing before place with
  | nil => rfl
  | cons l rest ih =>
    obtain ⟨hhead, hrest⟩ := List.forall_mem_cons.1 hl
    have hreport := hhead.report_read h (rest.map Lexeme.piece)
    have hlater := ih hrest (hhead.keepsTrack_read h)
    rw [List.append_assoc, List.singleton_append, List.length_append, List.length_singleton]
      at hlater
    rw [Scan.ofLexemes, List.map_append, hlater, List.length_cons, List.range'_succ,
      List.filterMap_cons, List.map_cons, ← hreport]
    cases (l.read place).report <;> rfl

/-! ### One token after the other -/

namespace Scanner

/-- Asks `k` times for a token: the answers, and the scanner behind them. -/
def ask (s : Scanner) : ℕ → List (Option Located) × Scanner
  | 0 => ([], s)
  | k + 1 => (s.next.1 :: (s.next.2.ask k).1, (s.next.2.ask k).2)

/-- The scanner behind some more lexemes, with others still unread. -/
def behind (s : Scanner) (read rest : List Lexeme) : Scanner :=
  ⟨rest, s.place.after read, s.reports ++ (Scan.ofLexemes s.place read).reports⟩

private theorem behind_nil (s : Scanner) : s.behind [] s.unread = s := by
  simp [behind, Place.after, Scan.ofLexemes]

private theorem behind_behind (s : Scanner) (read more rest rest' : List Lexeme) :
    (s.behind read rest).behind more rest' = s.behind (read ++ more) rest' := by
  simp [behind, Place.after, Scan.ofLexemes_append]

/-- The scanner has read some of its lexemes, and stands behind them. -/
private theorem nextFrom_eq (place : Place) (reports : List Report) (lexemes : List Lexeme) :
    ∃ read rest, lexemes = read ++ rest ∧
      (nextFrom place reports lexemes).2 = behind ⟨lexemes, place, reports⟩ read rest ∧
      (Scan.ofLexemes place read).tokens = (nextFrom place reports lexemes).1.toList ∧
      ((nextFrom place reports lexemes).1 = none → rest = []) := by
  induction lexemes generalizing place reports with
  | nil => exact ⟨[], [], rfl, (behind_nil _).symm, rfl, fun _ => rfl⟩
  | cons l later ih =>
    rw [nextFrom]
    cases htoken : (l.read place).token with
    | some t =>
      refine ⟨[l], later, rfl, ?_, ?_, by simp⟩
      · simp [behind, Scan.ofLexemes, Place.after]
      · simp [Scan.ofLexemes, htoken]
    | none =>
      obtain ⟨read, rest, hlexemes, hscanner, htokens, hend⟩ :=
        ih (l.read place).place (reports ++ (l.read place).report.toList)
      refine ⟨l :: read, rest, by rw [hlexemes, List.cons_append], ?_, ?_, hend⟩
      · simpa [behind, Scan.ofLexemes, Place.after] using hscanner
      · simpa [Scan.ofLexemes, htoken] using htokens

variable (s : Scanner)

/-- **One question**: some of the lexemes are read, up to a token or to the end, and what is found
among them are the answer and the new reports. -/
theorem next_eq :
    ∃ read rest, s.unread = read ++ rest ∧ s.next.2 = s.behind read rest ∧
      (Scan.ofLexemes s.place s.unread).tokens =
        s.next.1.toList ++ (Scan.ofLexemes s.next.2.place s.next.2.unread).tokens ∧
      (s.next.1 = none → rest = []) := by
  obtain ⟨read, rest, hunread, hnext, htokens, hend⟩ := nextFrom_eq s.place s.reports s.unread
  refine ⟨read, rest, hunread, hnext, ?_, hend⟩
  rw [next, hnext, ← htokens, hunread, Scan.ofLexemes_append]
  rfl

/-- **Many questions**: some of the lexemes are read. -/
theorem ask_eq (k : ℕ) :
    ∃ read rest, s.unread = read ++ rest ∧ (s.ask k).2 = s.behind read rest := by
  induction k generalizing s with
  | zero => exact ⟨[], s.unread, rfl, s.behind_nil.symm⟩
  | succ k ih =>
    obtain ⟨read, rest, hunread, hnext, -, -⟩ := s.next_eq
    obtain ⟨more, rest', hrest, hask⟩ := ih s.next.2
    rw [hnext] at hrest
    refine ⟨read ++ more, rest', ?_, ?_⟩
    · rw [hunread, List.append_assoc]
      exact congrArg (read ++ ·) hrest
    · rw [ask, hask, hnext, behind_behind]

/-- The answers are the tokens that are left, and none when there are no more. -/
theorem answers_ask (k : ℕ) :
    (s.ask k).1 = (List.range k).map fun i => (Scan.ofLexemes s.place s.unread).tokens[i]? := by
  induction k generalizing s with
  | zero => rfl
  | succ k ih =>
    obtain ⟨read, rest, -, hnext, htokens, hend⟩ := s.next_eq
    rw [ask, ih, List.range_succ_eq_map, List.map_cons, List.map_map, htokens]
    cases hanswer : s.next.1 with
    | some t => rfl
    | none =>
      have hnone : (Scan.ofLexemes s.next.2.place s.next.2.unread).tokens = [] := by
        rw [hnext, hend hanswer]
        rfl
      rw [hnone]
      rfl

/-- One more question than there are tokens leaves nothing unread. -/
theorem unread_ask {k : ℕ} (h : (Scan.ofLexemes s.place s.unread).tokens.length < k) :
    (s.ask k).2.unread = [] := by
  induction k generalizing s with
  | zero => omega
  | succ k ih =>
    obtain ⟨read, rest, -, hnext, htokens, hend⟩ := s.next_eq
    cases hanswer : s.next.1 with
    | some t =>
      rw [htokens, hanswer] at h
      exact ih s.next.2 (by simpa using h)
    | none =>
      obtain ⟨read', rest', hread', hask⟩ := s.next.2.ask_eq k
      rw [hnext, hend hanswer] at hread'
      rw [ask, hask]
      exact (List.append_eq_nil_iff.1 hread'.symm).2

end Scanner

/-- **A scan reports the problems of its text exactly**, in order and with their wording. They are
those of the only cut by maximal munch. A scanner that is asked for one token after the other
answers with the tokens of the text, in order, and has reported some of the problems at any time,
first to last; all of them once it has found no more token. -/
theorem scan_reports_exactly (source : String) :
    ∃ pieces, (∀ cut, Lexical.MaximalMunch source.toList cut ↔ cut = pieces) ∧
      (scan source).reports.map Report.diagnostic = Lexical.problems pieces ∧
      ∀ k,
        ((Scanner.ofSource source).ask k).2.reports.map Report.diagnostic <+:
            Lexical.problems pieces ∧
          ((Scanner.ofSource source).ask k).1 =
            (List.range k).map (fun i => (scan source).tokens[i]?) ∧
          ((Scanner.ofSource source).ask ((scan source).tokens.length + 1 + k)).2.reports =
            (scan source).reports := by
  have hreports : (scan source).reports.map Report.diagnostic =
      Lexical.problems ((Lexeme.split source.toList).map Lexeme.piece) := by
    have hrun := Scan.reports_ofLexemes (Lexeme.wellFormed_split source.toList)
      Lexical.keepsTrack_nil
    rw [List.nil_append, List.length_nil, ← List.range_eq_range'] at hrun
    rw [scan, hrun, Lexical.problems, List.length_map]
  have hasked : ∀ k, ∃ read rest, Lexeme.split source.toList = read ++ rest ∧
      ((Scanner.ofSource source).ask k).2 = (Scanner.ofSource source).behind read rest :=
    (Scanner.ofSource source).ask_eq
  have hcut := Lexeme.maximalMunch_split source.toList
  refine ⟨_, fun cut => ⟨fun h => h.unique hcut, fun h => h ▸ hcut⟩, hreports,
    fun k => ⟨?_, ?_, ?_⟩⟩
  · obtain ⟨read, rest, hsplit, hask⟩ := hasked k
    rw [← hreports, scan, hsplit, hask, Scan.ofLexemes_append]
    exact (List.prefix_append _ _).map _
  · exact (Scanner.ofSource source).answers_ask k
  · have hlast : (scan source).tokens.length < (scan source).tokens.length + 1 + k := by omega
    have hread := (Scanner.ofSource source).unread_ask hlast
    obtain ⟨read, rest, hsplit, hask⟩ := hasked ((scan source).tokens.length + 1 + k)
    rw [hask] at hread
    obtain rfl : rest = [] := hread
    rw [hask, scan, hsplit, List.append_nil]
    rfl

/-- On each line a stray character is reported once. -/
example : (scan "1 # 2 #\n#").reports = [⟨1, .strayCharacter '#'⟩, ⟨2, .strayCharacter '#'⟩] := by
  decide +kernel

end TinyImp
