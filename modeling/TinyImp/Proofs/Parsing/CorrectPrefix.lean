import TinyImp.Proofs.Parsing.Lookahead
import TinyImp.Proofs.Parsing.Recognition

/-!
# Parse errors point at the first impossible token

What a failed parse has read in front of the token that it fails at is a viable prefix, since the
parser recognises the programs. With that token it is no longer one: the parser reads one token
ahead and fails again whatever follows, while it accepts every program. So the token at which a
parse fails is the first that no program has there (`parse_error_at_first_impossible`).
-/

namespace TinyImp

open Grammar (words Word Viable language)

/-- A failed parse is a failure of the parser for programs. -/
theorem parse_eq_error {tokens : List Located} {c c' : Checker} {e : ParseError}
    (h : parse tokens c = (.error e, c')) :
    ∃ s, Parser.program ⟨tokens, 1, c⟩ = .error e s := by
  unfold parse at h
  split at h
  · cases h
  · rename_i hrun
    cases h
    exact ⟨_, hrun⟩

/-- **No continuation helps.** With the token that a parse fails at, what it has read is no
beginning of a program. -/
theorem not_viable_of_error {tokens ts : List Located} {c : Checker} {e : ParseError}
    {s : ParseState} (h : Parser.program ⟨tokens, 1, c⟩ = .error e s)
    (hcause : e.cause ≠ .unexpectedEnd) (hts : tokens = ts ++ (s.past e.cause).unread) :
    ¬ Viable (language [.phrase .program]) (words ts) := by
  rintro ⟨vs, hvs⟩
  -- a program that begins in this way, with some lines or other
  obtain ⟨us, hus⟩ : ∃ us : List Located, us.map (·.token) = vs :=
    ⟨vs.map fun w => ⟨w, 1⟩, by simp [Function.comp_def]⟩
  have hword : Word .program (words (ts ++ us)) := by
    rw [words, List.map_append, hus]
    exact hvs
  obtain ⟨p, c', hok⟩ := Grammar.exists_parse_of_word hword c
  have hrepeats : Parser.Repeats tokens.length (ts ++ us).length Program.erase Parser.program
      Parser.program := Parser.program_repeats
  obtain ⟨ts', hts', -, -, -, hrep⟩ := hrepeats.error (Nat.le_refl _) h
  obtain rfl : ts = ts' := List.append_cancel_right (hts.symm.trans hts'.unread_eq)
  have hreads : (ParseState.mk (ts ++ us) 1 c).Reads ts ⟨us, lineAfter 1 ts, c⟩ := ⟨rfl, rfl⟩
  obtain ⟨c₁, herr⟩ := hrep hreads rfl (fun hend => absurd hend hcause) (Nat.le_refl _)
  rw [parse, herr] at hok
  cases hok

/-- **A parse error points at the first impossible token.** If the text ends too early, it is the
beginning of a program but not a program, and the line is that of its last token. Otherwise the
error names a token and its line such that the tokens in front are the beginning of a program and
are no longer one with this token; if another token was expected, they are one with that. -/
theorem parse_error_at_first_impossible {tokens : List Located} {c c' : Checker} {e : ParseError}
    (h : parse tokens c = (.error e, c')) :
    (e.cause = .unexpectedEnd →
      Viable (language [.phrase .program]) (words tokens) ∧ ¬ Word .program (words tokens) ∧
        e.line = (tokens.getLast?.map (·.line)).getD 1) ∧
    (e.cause ≠ .unexpectedEnd →
      ∃ (i : Nat) (t : Located), tokens[i]? = some t ∧
        Viable (language [.phrase .program]) (words (tokens.take i)) ∧
        ¬ Viable (language [.phrase .program]) (words (tokens.take (i + 1))) ∧
        e.cause.got? = some t.token ∧ e.line = t.line ∧
        ∀ wanted got, e.cause = .expected wanted got →
          Viable (language [.phrase .program]) (words (tokens.take i) ++ [wanted])) := by
  obtain ⟨s, hrun⟩ := parse_eq_error h
  have hrepeats : Parser.Repeats tokens.length tokens.length Program.erase Parser.program
      Parser.program := Parser.program_repeats
  obtain ⟨ts, hts, hline, hend, -⟩ := hrepeats.error (Nat.le_refl _) hrun
  have hblame := Parser.program_recognises.error (Nat.le_refl _) hrun
  refine ⟨fun hcause => ⟨?_, ?_, ?_⟩, fun hcause => ?_⟩
  · cases hblame with
    | atEnd _ hviable => exact hviable
    | atToken us t _ hgot => simp [hcause, ParseError.Cause.got?] at hgot
  · intro hword
    obtain ⟨p, c₁, hok⟩ := Grammar.exists_parse_of_word hword c
    rw [h] at hok
    cases hok
  · -- all tokens have been read
    obtain rfl : tokens = ts := by simpa [hend hcause] using hts.unread_eq
    rw [hline, hts.lastLine_eq, lineAfter_eq_getLast]
  · cases hblame with
    | atEnd hcause' => exact absurd hcause' hcause
    | atToken us t hread hgot hviable hwanted =>
      have hread : tokens = us ++ t :: (s.past e.cause).unread := hread
      obtain rfl : ts = us ++ [t] := by
        refine List.append_cancel_right (hts.unread_eq.symm.trans ?_)
        simpa using hread
      have htake : tokens.take us.length = us := by rw [hread, List.take_left]
      have htake' : tokens.take (us.length + 1) = us ++ [t] := by
        rw [hread, List.append_cons]
        exact List.take_left' (by simp)
      refine ⟨us.length, t, ?_, ?_, ?_, hgot, ?_, fun wanted got hexpected => ?_⟩
      · simp [hread]
      · rwa [htake]
      · rw [htake']
        exact not_viable_of_error hrun hcause hts.unread_eq
      · rw [hline, hts.lastLine_eq, lineAfter_append, lineAfter_cons, lineAfter_nil]
      · rw [htake]
        exact hwanted wanted (by rw [hexpected]; rfl)

/-- `x = 1 ⏎ 2`: the second number is where a semicolon should be. -/
def missingSemicolon : List Located :=
  [⟨.identifier "x", 1⟩, ⟨.assign, 1⟩, ⟨.intLit 1, 1⟩, ⟨.intLit 2, 2⟩]

/-- The second number is blamed, and the text without it is unfinished. -/
theorem missingSemicolon_blamed :
    (∃ (i : Nat) (t : Located), missingSemicolon[i]? = some t ∧
      Viable (language [.phrase .program]) (words (missingSemicolon.take i)) ∧
      ¬ Viable (language [.phrase .program]) (words (missingSemicolon.take (i + 1))) ∧
      t.token = .intLit 2 ∧ t.line = 2 ∧
      Viable (language [.phrase .program]) (words (missingSemicolon.take i) ++ [.semicolon])) ∧
    Viable (language [.phrase .program]) (words (missingSemicolon.take 3)) ∧
      ¬ Word .program (words (missingSemicolon.take 3)) := by
  have hfull : parse missingSemicolon {} =
      (.error ⟨.expected .semicolon (.intLit 2), 2⟩, (parse missingSemicolon {}).2) := by rfl
  have hcut : parse (missingSemicolon.take 3) {} =
      (.error ⟨.unexpectedEnd, 1⟩, (parse (missingSemicolon.take 3) {}).2) := by rfl
  obtain ⟨i, t, hi, hviable, hnot, hgot, hline, hwanted⟩ :=
    (parse_error_at_first_impossible hfull).2 (by simp)
  obtain ⟨hviable', hnot', -⟩ := (parse_error_at_first_impossible hcut).1 rfl
  exact ⟨⟨i, t, hi, hviable, hnot, (Option.some.inj hgot).symm, hline.symm, hwanted _ _ rfl⟩,
    hviable', hnot'⟩

end TinyImp
