import TinyImp.Proofs.Scanning.MaximalMunch

/-!
# Where lexemes end

Whether a lexeme goes on is decided by the two characters behind it: a character that continues a
word or a number, a second equals sign, or a point with a digit behind it. A lexeme **ends at** a
text if the text begins with nothing of the kind (`Lexeme.EndsAt`). The cut that the scanner makes
is the only one in which every lexeme has the form of its kind and ends at the text behind it
(`Lexeme.split_eq_iff`), so that a cut can be checked boundary by boundary.

A line feed continues no lexeme, and with it the scanner starts a new line on which nothing has been
reported. So **the lines of a text can be scanned apart** (`scan_joins_lines`): nothing that the
scanner knows at the end of one part of a text has an influence on the next part but the number of
the line.
-/

namespace TinyImp

/-! ### Boundaries -/

namespace Lexeme

open Lexical

/-- The text behind a lexeme does not go on with it. -/
def EndsAt (rest : List Char) : Lexeme → Prop
  | .blank _ => True
  | .word _ => ∀ c ∈ rest.head?, ¬ isWordPart c
  | .integer _ =>
    (∀ c ∈ rest.head?, ¬ c.isDigit) ∧ (rest.head? = some '.' → ∀ d ∈ rest.tail.head?, ¬ d.isDigit)
  | .decimal _ _ => ∀ c ∈ rest.head?, ¬ c.isDigit
  | .equality => True
  | .single c => c = '=' → rest.head? ≠ some '='

private theorem takeWhile_append_of_head? {p : Char → Bool} {w rest : List Char} (hw : ∀ c ∈ w, p c)
    (hrest : ∀ c ∈ rest.head?, ¬ p c) : (w ++ rest).takeWhile p = w := by
  rw [List.takeWhile_append_of_pos hw]
  cases rest with
  | nil => simp
  | cons c more => simp [hrest c rfl]

private theorem dropWhile_append_of_head? {p : Char → Bool} {w rest : List Char} (hw : ∀ c ∈ w, p c)
    (hrest : ∀ c ∈ rest.head?, ¬ p c) : (w ++ rest).dropWhile p = rest := by
  rw [List.dropWhile_append_of_pos hw]
  cases rest with
  | nil => simp
  | cons c more => simp [hrest c rfl]

/-- What `takeWhile` takes ends where the rest begins. -/
theorem head?_of_takeWhile_eq {p : Char → Bool} {w rest text : List Char} (htext : w ++ rest = text)
    (hw : text.takeWhile p = w) : ∀ c ∈ rest.head?, ¬ p c := by
  have hrest : text.dropWhile p = rest := by
    have hall := List.takeWhile_append_dropWhile (p := p) (l := text)
    rw [hw, ← htext] at hall
    rw [← htext]
    exact List.append_cancel_left hall
  intro c hc hp
  have hhead := List.head?_dropWhile_not p text
  rw [hrest, Option.mem_def.1 hc] at hhead
  simp [hp] at hhead

/-- Digits with no point and digit behind them are an integer. -/
theorem number_eq_integer {whole rest : List Char}
    (h : rest.head? = some '.' → ∀ d ∈ rest.tail.head?, ¬ d.isDigit) :
    number whole rest = .integer whole := by
  fun_cases number whole rest with
  | case1 d more hd => exact absurd hd (h rfl d rfl)
  | case2 => rfl
  | case3 => rfl

/-- No character of a word is blank. -/
theorem not_isBlank_of_isWordPart {c : Char} (h : isWordPart c) : ¬ isBlank c := fun hb => by
  have hmem := isBlank_iff.1 hb
  fin_cases hmem <;> exact absurd h (by decide)

/-- A lexeme has at least one character. -/
theorem WellFormed.chars_ne_nil {l : Lexeme} (hl : l.WellFormed) : l.chars ≠ [] := by
  cases hl with
  | word hw =>
    obtain ⟨c, rest, rfl, -⟩ := mem_word.1 hw
    exact List.cons_ne_nil c rest
  | integer hw => exact (mem_digits.1 hw).1
  | decimal => exact List.append_ne_nil_of_right_ne_nil _ (List.cons_ne_nil _ _)
  | blank | equality | single => exact List.cons_ne_nil _ _

/-- **A lexeme that ends at a text is the longest one in front of it.** -/
theorem first_of_endsAt {l : Lexeme} (hl : l.WellFormed) {c : Char} {taken rest : List Char}
    (hchars : l.chars = c :: taken) (h : l.EndsAt rest) : first c (taken ++ rest) = l := by
  have hdigit {d : Char} (hd : d.isDigit) : ¬ isBlank d ∧ ¬ isWordStart d :=
    ⟨not_isBlank_of_isWordPart (isWordPart_iff.2 (.inr hd)),
      fun hs => not_isDigit_of_isWordStart hs hd⟩
  cases hl with
  | blank hc =>
    obtain ⟨rfl, rfl⟩ := List.cons.inj hchars
    rw [first, if_pos (isBlank_iff.2 hc)]
  | word hw =>
    obtain rfl := hchars
    obtain ⟨hstart, hpart⟩ := cons_mem_word.1 hw
    have hblank := not_isBlank_of_isWordPart (isWordPart_iff.2 (.inl hstart))
    rw [first, if_neg hblank, if_pos hstart, takeWhile_append_of_head? hpart h]
  | integer hw =>
    obtain rfl := hchars
    obtain ⟨hc, htaken⟩ := List.forall_mem_cons.1 (mem_digits.1 hw).2
    rw [first, if_neg (hdigit hc).1, if_neg (hdigit hc).2, if_pos hc,
      takeWhile_append_of_head? htaken h.1, dropWhile_append_of_head? htaken h.1,
      number_eq_integer h.2]
  | @decimal whole fraction hwhole hfraction =>
    obtain ⟨hne, hall⟩ := mem_digits.1 hwhole
    obtain ⟨d, whole, rfl⟩ := List.exists_cons_of_ne_nil hne
    obtain ⟨hd, hmore⟩ := List.forall_mem_cons.1 hall
    obtain ⟨hne', hall'⟩ := mem_digits.1 hfraction
    obtain ⟨f, fraction, rfl⟩ := List.exists_cons_of_ne_nil hne'
    obtain ⟨hf, hmore'⟩ := List.forall_mem_cons.1 hall'
    have htext : d :: (whole ++ '.' :: f :: fraction) = c :: taken := hchars
    obtain ⟨rfl, rfl⟩ := List.cons.inj htext
    have hpoint : ∀ c ∈ ('.' :: (f :: fraction ++ rest)).head?, ¬ c.isDigit := by simp
    rw [first, if_neg (hdigit hd).1, if_neg (hdigit hd).2, if_pos hd, List.append_assoc,
      List.cons_append, takeWhile_append_of_head? hmore hpoint,
      dropWhile_append_of_head? hmore hpoint]
    simp [number, hf, takeWhile_append_of_head? hmore' h]
  | equality =>
    obtain ⟨rfl, rfl⟩ := List.cons.inj hchars
    rfl
  | @single c hblank hpart =>
    obtain ⟨rfl, rfl⟩ := List.cons.inj hchars
    obtain ⟨hstart, hdigit⟩ := not_or.1 (isWordPart_iff.not.1 hpart)
    have hequal : ¬ (c = '=' ∧ rest.head? = some '=') := fun heq => h heq.1 heq.2
    rw [first, if_neg (isBlank_iff.not.2 hblank), if_neg hstart, if_neg hdigit,
      if_neg (by simpa using hequal)]

/-- The number that the scanner makes of digits and the text behind them ends where it leaves
off. -/
theorem endsAt_number {whole more rest text : List Char} (htext : more ++ rest = text)
    (hdigit : ∀ c ∈ text.head?, ¬ c.isDigit) (h : (number whole text).chars = whole ++ more) :
    (number whole text).EndsAt rest := by
  by_cases hpoint : text.head? = some '.' → ∀ d ∈ text.tail.head?, ¬ d.isDigit
  · rw [number_eq_integer hpoint] at h ⊢
    obtain rfl : [] = more := List.append_cancel_left ((List.append_nil whole).trans h)
    obtain rfl := htext
    exact ⟨hdigit, hpoint⟩
  · push Not at hpoint
    obtain ⟨hhead, d, htail, hd⟩ := hpoint
    obtain ⟨others, rfl⟩ : ∃ others, text = '.' :: d :: others := by
      obtain ⟨tail, rfl⟩ := List.head?_eq_some_iff.1 hhead
      obtain ⟨others, rfl⟩ := List.head?_eq_some_iff.1 htail
      exact ⟨others, rfl⟩
    rw [number, if_pos hd] at h ⊢
    obtain rfl : '.' :: d :: others.takeWhile Char.isDigit = more := List.append_cancel_left h
    exact head?_of_takeWhile_eq (p := Char.isDigit) (by simpa using htext) rfl

/-- **The longest lexeme in front of a text ends at it.** -/
theorem endsAt_first {c : Char} {taken rest text : List Char} (htext : taken ++ rest = text)
    (h : (first c text).chars = c :: taken) : (first c text).EndsAt rest := by
  fun_cases first c text with
  | case1 => trivial
  | case2 hblank hstart =>
    rw [first, if_neg hblank, if_pos hstart] at h
    exact head?_of_takeWhile_eq htext (List.cons.inj h).2
  | case3 hblank hstart hdigit =>
    rw [first, if_neg hblank, if_neg hstart, if_pos hdigit] at h
    obtain ⟨more, left, hchars, hleft⟩ :=
      chars_number (c :: text.takeWhile Char.isDigit) (text.dropWhile Char.isDigit)
    have htaken : text.takeWhile Char.isDigit ++ more = taken := by
      rw [hchars] at h
      exact (List.cons.inj h).2
    refine endsAt_number ?_ ?_ hchars
    · have hall := List.takeWhile_append_dropWhile (p := Char.isDigit) (l := text)
      rw [← htaken, List.append_assoc] at htext
      exact List.append_cancel_left (htext.trans hall.symm)
    · exact head?_of_takeWhile_eq List.takeWhile_append_dropWhile rfl
  | case4 => trivial
  | case5 hblank hstart hdigit hequal =>
    rw [first, if_neg hblank, if_neg hstart, if_neg hdigit, if_neg hequal] at h
    obtain rfl : [] = taken := (List.cons.inj h).2
    obtain rfl := htext
    intro hc hhead
    exact hequal (by simp [hc, hhead])

/-- **A cut** of a text: every lexeme has the form of its kind and ends at the text behind it. -/
inductive Cut : List Char → List Lexeme → Prop
  | nil : Cut [] []
  | cons {l : Lexeme} {rest : List Char} {lexemes : List Lexeme} (hl : l.WellFormed)
      (hend : l.EndsAt rest) (h : Cut rest lexemes) : Cut (l.chars ++ rest) (l :: lexemes)

/-- **The scanner cuts its text at boundaries.** -/
theorem cut_split (text : List Char) : Cut text (split text) := by
  induction text using split_induction with
  | nil => exact .nil
  | cons c taken left h ih =>
    have hcut := Cut.cons (wellFormed_first c (taken ++ left)) (endsAt_first rfl h) ih
    rwa [h] at hcut

/-- The cut of the scanner is the only one at boundaries. -/
theorem Cut.split_eq {text : List Char} {lexemes : List Lexeme} (h : Cut text lexemes) :
    split text = lexemes := by
  induction h with
  | nil => rfl
  | @cons l rest lexemes hl hend _ ih =>
    obtain ⟨c, taken, hchars⟩ := List.exists_cons_of_ne_nil hl.chars_ne_nil
    have hfirst := first_of_endsAt hl hchars hend
    rw [hchars, List.cons_append, split_cons, hfirst, hchars, List.length_cons,
      Nat.add_sub_cancel, List.drop_left, ih]

/-- **The scanner's cut is the only one.** -/
theorem split_eq_iff {text : List Char} {lexemes : List Lexeme} :
    split text = lexemes ↔ Cut text lexemes :=
  ⟨fun h => h ▸ cut_split text, Cut.split_eq⟩

/-! ### Line feeds are boundaries -/

/-- A line feed continues no lexeme. -/
theorem EndsAt.append_lineFeed {l : Lexeme} {rest : List Char} (h : l.EndsAt rest)
    (after : List Char) : l.EndsAt (rest ++ '\n' :: after) := by
  have hhead {p : Char → Prop} {rest : List Char} (hp : ∀ c ∈ rest.head?, p c) (hfeed : p '\n') :
      ∀ c ∈ (rest ++ '\n' :: after).head?, p c := by
    cases rest with
    | nil => simpa using hfeed
    | cons c more => simpa using hp c rfl
  cases l with
  | blank | equality => trivial
  | word => exact hhead h (by decide)
  | integer =>
    refine ⟨hhead h.1 (by decide), fun hpoint => ?_⟩
    cases rest with
    | nil => simp at hpoint
    | cons c more => exact hhead (h.2 (by simpa using hpoint)) (by decide)
  | decimal => exact hhead h (by decide)
  | single c =>
    intro hc heq
    exact hhead (p := (· ≠ '=')) (fun d hd heq => h hc (heq ▸ hd)) (by decide) _ heq rfl

/-- Texts that are cut can be joined by a line feed. -/
private theorem Cut.append_lineFeed {text after : List Char} {lexemes others : List Lexeme}
    (h : Cut text lexemes) (h' : Cut after others) :
    Cut (text ++ '\n' :: after) (lexemes ++ .blank '\n' :: others) := by
  induction h with
  | nil => exact .cons (.blank (by decide)) trivial h'
  | cons hl hend _ ih =>
    rw [List.append_assoc]
    exact .cons hl (hend.append_lineFeed after) ih

private theorem split_append_lineFeed (text after : List Char) :
    split (text ++ '\n' :: after) = split text ++ .blank '\n' :: split after :=
  ((cut_split text).append_lineFeed (cut_split after)).split_eq

end Lexeme

/-! ### Reading on -/

/-- The token, some lines further down. -/
def Located.downBy (n : Nat) (t : Located) : Located :=
  ⟨t.token, t.line + n⟩

/-- The report, some lines further down. -/
def Report.downBy (n : Nat) (r : Report) : Report :=
  ⟨r.line + n, r.problem⟩

/-- The diagnostic, some lines further down. -/
def Diagnostic.downBy (n : Nat) (d : Diagnostic) : Diagnostic :=
  { d with line := d.line + n }

/-- The place, some lines further down. -/
def Place.downBy (n : Nat) (place : Place) : Place :=
  { place with line := place.line + n }

/-- The place behind some lexemes. -/
def Place.after (place : Place) (lexemes : List Lexeme) : Place :=
  lexemes.foldl (fun place l => (l.read place).place) place

/-- Further down a lexeme is read in the same way, with the same characters reported before it. -/
theorem Lexeme.read_downBy (l : Lexeme) (place : Place) (n : Nat) :
    l.read (place.downBy n) =
      ⟨(l.read place).token.map (·.downBy n), (l.read place).report.map (·.downBy n),
        (l.read place).place.downBy n⟩ := by
  cases l with
  | blank c =>
    simp only [read]
    split_ifs
    · simp [Place.downBy, Nat.add_right_comm]
    · rfl
  | integer whole =>
    simp only [read]
    split_ifs <;> rfl
  | single c =>
    rw [read, read]
    cases Token.ofSymbol? c with
    | some t => rfl
    | none =>
      by_cases hc : c ∈ place.reported
      · simp [Place.downBy, hc]
      · simp [Place.downBy, Report.downBy, hc]
  | word | decimal | equality => rfl

namespace Scan

/-- The same lexemes further down have the same tokens and reports, further down. -/
private theorem ofLexemes_downBy (place : Place) (n : Nat) (lexemes : List Lexeme) :
    ofLexemes (place.downBy n) lexemes =
      ⟨(ofLexemes place lexemes).tokens.map (·.downBy n),
        (ofLexemes place lexemes).reports.map (·.downBy n)⟩ := by
  induction lexemes generalizing place with
  | nil => rfl
  | cons l rest ih =>
    simp only [ofLexemes, l.read_downBy, ih, List.map_append]
    cases (l.read place).token <;> cases (l.read place).report <;> rfl

/-- A scan goes on from the place that it has come to. -/
theorem ofLexemes_append (place : Place) (lexemes others : List Lexeme) :
    ofLexemes place (lexemes ++ others) =
      ⟨(ofLexemes place lexemes).tokens ++ (ofLexemes (place.after lexemes) others).tokens,
        (ofLexemes place lexemes).reports ++ (ofLexemes (place.after lexemes) others).reports⟩ := by
  induction lexemes generalizing place with
  | nil => rfl
  | cons l rest ih => simp [ofLexemes, ih, Place.after, List.append_assoc]

end Scan

/-- A scanner counts the line feeds of the text that it has read. -/
theorem Lexeme.Cut.line_after {text : List Char} {lexemes : List Lexeme} (h : Cut text lexemes)
    (place : Place) : (place.after lexemes).line = place.line + text.count '\n' := by
  induction h generalizing place with
  | nil => rfl
  | cons hl _ _ ih =>
    rw [Place.after, List.foldl_cons, ← Place.after, ih, hl.line_read, List.count_append,
      Nat.add_assoc]

/-- **Lines are scanned apart.** Of two texts with a line feed between them the first is scanned as
it is alone, and so is the second, but that all its tokens and reports are further down by the lines
of the first. -/
theorem scan_joins_lines (a b : String) :
    (scan (a ++ "\n" ++ b)).tokens =
        (scan a).tokens ++ (scan b).tokens.map (·.downBy (a.toList.count '\n' + 1)) ∧
      (scan (a ++ "\n" ++ b)).reports =
        (scan a).reports ++ (scan b).reports.map (·.downBy (a.toList.count '\n' + 1)) ∧
      (scan (a ++ "\n" ++ b)).reports.map Report.diagnostic =
        (scan a).reports.map Report.diagnostic ++
          ((scan b).reports.map Report.diagnostic).map
            (·.downBy (a.toList.count '\n' + 1)) := by
  have hplace : ((Lexeme.blank '\n').read (Place.after {} (Lexeme.split a.toList))).place
      = Place.downBy (a.toList.count '\n' + 1) {} := by
    have hline := (Lexeme.cut_split a.toList).line_after {}
    simp [Lexeme.read, Place.downBy, hline, Nat.add_assoc]
  have hsplit : Lexeme.split (a ++ "\n" ++ b).toList =
      Lexeme.split a.toList ++ .blank '\n' :: Lexeme.split b.toList := by
    rw [String.toList_append, String.toList_append, List.append_assoc]
    exact Lexeme.split_append_lineFeed _ _
  have hscan : scan (a ++ "\n" ++ b) =
      ⟨(scan a).tokens ++ (scan b).tokens.map (·.downBy (a.toList.count '\n' + 1)),
        (scan a).reports ++ (scan b).reports.map (·.downBy (a.toList.count '\n' + 1))⟩ := by
    rw [scan, hsplit, Scan.ofLexemes_append, Scan.ofLexemes, hplace, Scan.ofLexemes_downBy]
    rfl
  refine ⟨by rw [hscan], by rw [hscan], ?_⟩
  rw [hscan, List.map_append, List.map_map, List.map_map]
  rfl

end TinyImp
