import TinyImp.Proofs.Scanning.Boundaries

/-!
# Tokens written with blanks between them

Tokens can be written one behind the other with any blanks in front of them, between them and behind
them (`layout`). Most of them need no blank between them. The exceptions are a word in front of a
word or a number, a number in front of a number, and an equals sign in front of one or two more
(`Token.Clings`).

**Scanning gives the tokens back** (`scan_inverts_layout`), on the lines that the line feeds between
them lead to and without a report, if there is a blank wherever one is needed, identifiers are words
that are not reserved, integers are in range, and no token is a floating-point literal.
-/

namespace TinyImp

namespace Token

open Lexical

/-! ### How tokens are written -/

/-- The token is written as a word. -/
def isWord : Token → Bool
  | .kwInt | .kwFloat | .kwReturn | .kwIf | .kwElse | .kwWhile | .kwFor | .identifier _ => true
  | _ => false

/-- The token is written as a number. -/
def isNumber : Token → Bool
  | .intLit _ | .floatLit _ => true
  | _ => false

/-- The second token, written right behind the first one, would be read as a part of it. -/
def Clings (t u : Token) : Prop :=
  (t.isWord ∧ u.isWord) ∨ (t.isWord ∧ u.isNumber) ∨ (t.isNumber ∧ u.isNumber) ∨
    (t = .assign ∧ (u = .assign ∨ u = .equal))

/-- The text of the token is one that stands for it: an identifier is a word that is not reserved,
and an integer is one of those that have a literal. The texts of floating-point literals are left
out. -/
def Spelled : Token → Prop
  | .identifier name => name.toList ∈ word ∧ ∀ t ∈ reserved, t.text ≠ name
  | .intLit value => 0 ≤ value ∧ value ≤ maxInt
  | .floatLit _ => False
  | _ => True

/-- A character that the scanner would take for a part of the token in front of it. -/
def GoesOnWith (t : Token) (c : Char) : Prop :=
  (t.isWord ∧ Lexeme.isWordPart c) ∨ (t.isNumber ∧ (c.isDigit ∨ c = '.')) ∨
    (t = .assign ∧ c = '=')

theorem cons_mem_word_of_all {c : Char} {rest : List Char}
    (h : (Lexeme.isWordStart c && rest.all Lexeme.isWordPart) = true) : c :: rest ∈ word := by
  obtain ⟨hc, hrest⟩ := Bool.and_eq_true_iff.1 h
  exact cons_mem_word.2 ⟨hc, List.all_eq_true.1 hrest⟩

/-- The ways to write a token. -/
theorem Spelled.kinds {t : Token} (h : t.Spelled) :
    (t.isWord ∧ t.text.toList ∈ word ∧ ofWord t.text = t) ∨
      (∃ n ≤ maxInt, t = .intLit n) ∨ t = .equal ∨
      ∃ c, t ∈ symbols ∧ t.text.toList = [c] ∧ ofSymbol? c = some t := by
  cases t with
  | identifier name =>
    obtain ⟨hword, hne⟩ := h
    obtain ⟨hmem, htext⟩ | ⟨-, htoken⟩ := ofWord_spec name
    · exact absurd htext (hne _ hmem)
    · exact .inl ⟨rfl, hword, htoken⟩
  | intLit value =>
    obtain ⟨hpos, hle⟩ := h
    obtain ⟨n, rfl⟩ := Int.eq_ofNat_of_zero_le hpos
    exact .inr (.inl ⟨n, Int.ofNat_le.1 hle, rfl⟩)
  | floatLit value => exact h.elim
  | equal => exact .inr (.inr (.inl rfl))
  | kwInt | kwFloat | kwReturn | kwIf | kwElse | kwWhile | kwFor =>
    exact .inl ⟨rfl, cons_mem_word_of_all (by decide), rfl⟩
  | _ => exact .inr (.inr (.inr ⟨_, by decide, rfl, rfl⟩))

/-- The digits of a number are digits, and their value is the number. -/
theorem toDigits_mem_digits (n : ℕ) : Nat.toDigits 10 n ∈ Lexical.digits :=
  mem_digits.2 ⟨Nat.toDigits_ne_nil, fun _ hd =>
    Nat.isDigit_of_mem_toDigits (by decide) (by decide) hd⟩

/-- A number can be read back from its digits. -/
theorem decimalValue_toDigits (n : ℕ) : decimalValue (Nat.toDigits 10 n) = n :=
  Nat.ofDigitChars_ten_toDigits

private theorem toList_text_intLit (n : ℕ) : (Token.intLit n).text.toList = Nat.toDigits 10 n := by
  rw [text, integerText, if_neg (Int.not_lt.2 (Int.natCast_nonneg n)), TinyImp.digits,
    String.toList_ofList, Int.natAbs_natCast]

/-- **The lexeme of a token.** It has the token's text, it ends at every text that does not begin
with a part of it, and it is read as the token. -/
theorem Spelled.exists_lexeme {t : Token} (h : t.Spelled) :
    ∃ l : Lexeme, l.WellFormed ∧ l.chars = t.text.toList ∧
      (∀ rest : List Char, (∀ c ∈ rest.head?, ¬ t.GoesOnWith c) → l.EndsAt rest) ∧
      ∀ place, l.read place = ⟨some ⟨t, place.line⟩, none, place⟩ := by
  rcases h.kinds with ⟨hword, htext, hof⟩ | ⟨n, hn, rfl⟩ | rfl | ⟨c, hmem, htext, hof⟩
  · refine ⟨.word t.text.toList, .word htext, rfl, fun rest hrest c hc hpart => ?_, fun place => ?_⟩
    · exact hrest c hc (.inl ⟨hword, hpart⟩)
    · rw [Lexeme.read, String.ofList_toList, hof]
  · refine ⟨.integer (Nat.toDigits 10 n), .integer (toDigits_mem_digits n),
      (toList_text_intLit n).symm, fun rest hrest => ⟨fun c hc hd => ?_, fun hpoint => ?_⟩,
      fun place => ?_⟩
    · exact hrest c hc (.inr (.inl ⟨rfl, .inl hd⟩))
    · exact absurd (.inr (.inl ⟨rfl, .inr rfl⟩)) (hrest '.' hpoint)
    · simp only [Lexeme.read]
      rw [decimalValue_toDigits, if_pos hn]
  · exact ⟨.equality, .equality, rfl, fun _ _ => trivial, fun _ => rfl⟩
  · have hpart : ¬ Lexeme.isWordPart c :=
      not_isWordPart_of_cons_mem_symbol ⟨t, hmem, htext.symm⟩
    have hblank : c ∉ blanks :=
      notMem_blanks_of_mem_lexeme (.inr ⟨t, hmem, htext.symm⟩) c List.mem_cons_self
    refine ⟨.single c, .single hblank hpart, htext.symm, fun rest hrest hc hhead => ?_,
      fun place => ?_⟩
    · subst hc
      obtain rfl : t = .assign := (Option.some.inj hof).symm
      exact hrest '=' hhead (.inr (.inr ⟨rfl, rfl⟩))
    · rw [Lexeme.read, hof]

private theorem Spelled.toList_text_ne_nil {t : Token} (h : t.Spelled) : t.text.toList ≠ [] := by
  obtain ⟨l, hl, hchars, -⟩ := h.exists_lexeme
  exact hchars ▸ hl.chars_ne_nil

/-! ### Where a blank is needed -/

/-- A blank is a part of no token. -/
theorem not_goesOnWith_of_mem_blanks {t : Token} {c : Char} (hc : c ∈ blanks) :
    ¬ t.GoesOnWith c := by
  have hpart : ¬ Lexeme.isWordPart c := fun h =>
    Lexeme.not_isBlank_of_isWordPart h (isBlank_iff.2 hc)
  rintro (⟨-, h⟩ | ⟨-, h | rfl⟩ | ⟨-, rfl⟩)
  · exact hpart h
  · exact hpart (isWordPart_iff.2 (.inr h))
  · exact absurd hc (by decide)
  · exact absurd hc (by decide)

/-- **Only tokens that need a blank run together.** -/
theorem Spelled.clings {t u : Token} (hu : u.Spelled) {c : Char} {rest : List Char}
    (htext : u.text.toList = c :: rest) (h : t.GoesOnWith c) : t.Clings u := by
  rcases hu.kinds with ⟨hword, hmem, -⟩ | ⟨n, -, rfl⟩ | rfl | ⟨d, hmem, hd, hof⟩
  · rw [htext, cons_mem_word] at hmem
    rcases h with ⟨ht, -⟩ | ⟨-, hdigit | rfl⟩ | ⟨-, rfl⟩
    · exact .inl ⟨ht, hword⟩
    · exact absurd hdigit (not_isDigit_of_isWordStart hmem.1)
    · exact absurd hmem.1 (by decide)
    · exact absurd hmem.1 (by decide)
  · have hdigit : c.isDigit := by
      rw [toList_text_intLit] at htext
      exact (mem_digits.1 (htext ▸ toDigits_mem_digits n)).2 c List.mem_cons_self
    rcases h with ⟨ht, -⟩ | ⟨ht, -⟩ | ⟨-, rfl⟩
    · exact .inr (.inl ⟨ht, rfl⟩)
    · exact .inr (.inr (.inl ⟨ht, rfl⟩))
    · exact absurd hdigit (by decide)
  · obtain ⟨rfl, -⟩ := List.cons.inj htext
    rcases h with ⟨-, hpart⟩ | ⟨-, hdigit | hpoint⟩ | ⟨ht, -⟩
    · exact absurd hpart (by decide)
    · exact absurd hdigit (by decide)
    · exact absurd hpoint (by decide)
    · exact .inr (.inr (.inr ⟨ht, .inr rfl⟩))
  · obtain ⟨rfl, -⟩ := List.cons.inj (hd.symm.trans htext)
    have hnone : ¬ Lexeme.isWordPart d := not_isWordPart_of_cons_mem_symbol ⟨u, hmem, hd.symm⟩
    rcases h with ⟨-, hpart⟩ | ⟨-, hdigit | rfl⟩ | ⟨ht, rfl⟩
    · exact absurd hpart hnone
    · exact absurd (isWordPart_iff.2 (.inr hdigit)) hnone
    · simp [ofSymbol?] at hof
    · exact .inr (.inr (.inr ⟨ht, .inl (Option.some.inj hof).symm⟩))

end Token

/-! ### Layouts -/

/-- Tokens, each with blanks in front of it, and blanks behind the last one, as one text. -/
def layout : List (String × Token) → String → String
  | [], last => last
  | (gap, t) :: items, last => gap ++ t.text ++ layout items last

/-- The tokens of a layout, each on the line that the line feeds before it lead to. -/
def placed (before : String) : List (String × Token) → List Located
  | [] => []
  | (gap, t) :: items =>
    ⟨t, 1 + (before ++ gap).toList.count '\n'⟩ :: placed (before ++ gap ++ t.text) items

/-- The layout is **safe**: its tokens have texts that stand for them, what is between them are
blanks, and there are some wherever two tokens would run together. -/
structure SafeLayout (items : List (String × Token)) (last : String) : Prop where
  spelled : ∀ item ∈ items, item.2.Spelled
  gaps : ∀ item ∈ items, ∀ c ∈ item.1.toList, c ∈ Lexical.blanks
  last : ∀ c ∈ last.toList, c ∈ Lexical.blanks
  apart : items.IsChain fun item next => item.2.Clings next.2 → next.1 ≠ ""

namespace SafeLayout

variable {items : List (String × Token)} {gap last : String} {t : Token}

private theorem tail (h : SafeLayout ((gap, t) :: items) last) : SafeLayout items last :=
  ⟨fun item hitem => h.spelled item (List.mem_cons_of_mem _ hitem),
    fun item hitem => h.gaps item (List.mem_cons_of_mem _ hitem), h.last, h.apart.tail⟩

/-- What follows a token is no part of it. -/
theorem not_goesOnWith (h : SafeLayout ((gap, t) :: items) last) :
    ∀ c ∈ (layout items last).toList.head?, ¬ t.GoesOnWith c := by
  intro c hc
  cases items with
  | nil => exact Token.not_goesOnWith_of_mem_blanks (h.last c (List.mem_of_mem_head? hc))
  | cons next items =>
    obtain ⟨gap', u⟩ := next
    obtain ⟨hapart, -⟩ := List.isChain_cons_cons.1 h.apart
    rw [layout, String.toList_append, String.toList_append] at hc
    by_cases hgap : gap' = ""
    · -- With no blank between them the next token begins right here.
      have hu := h.spelled (gap', u) (by simp)
      obtain ⟨d, rest, htext⟩ := List.exists_cons_of_ne_nil hu.toList_text_ne_nil
      obtain rfl : d = c := by simpa [hgap, htext] using hc
      exact fun hgoes => hapart (hu.clings htext hgoes) hgap
    · obtain ⟨d, rest, htext⟩ := List.exists_cons_of_ne_nil (mt String.toList_eq_nil_iff.1 hgap)
      obtain rfl : d = c := by simpa [htext] using hc
      refine Token.not_goesOnWith_of_mem_blanks (h.gaps (gap', u) (by simp) d ?_)
      simp [htext]

end SafeLayout

/-! ### Scanning a layout -/

namespace Lexeme

/-- Blanks in front of a text are lexemes of their own. -/
private theorem Cut.append_blanks {gap text : List Char} (hgap : ∀ c ∈ gap, c ∈ Lexical.blanks)
    {lexemes : List Lexeme} (h : Cut text lexemes) :
    Cut (gap ++ text) (gap.map .blank ++ lexemes) := by
  induction gap with
  | nil => exact h
  | cons c gap ih =>
    obtain ⟨hc, hgap⟩ := List.forall_mem_cons.1 hgap
    exact .cons (.blank hc) trivial (ih hgap)

end Lexeme

/-- Blanks bring about nothing but another place. -/
theorem Scan.ofLexemes_map_blank (place : Place) (gap : List Char) :
    ofLexemes place (gap.map .blank) = {} := by
  induction gap generalizing place with
  | nil => rfl
  | cons c gap ih =>
    have hread : ((Lexeme.blank c).read place).token = none ∧
        ((Lexeme.blank c).read place).report = none := by
      rw [Lexeme.read]
      split_ifs <;> exact ⟨rfl, rfl⟩
    simp [ofLexemes, hread, ih]

/-- The lexemes of a safe layout, and what the scanner makes of them at any place on the line that
the text before them leads to. -/
theorem SafeLayout.exists_cut {items : List (String × Token)} {last : String}
    (h : SafeLayout items last) :
    ∃ lexemes, Lexeme.Cut (layout items last).toList lexemes ∧
      ∀ (place : Place) (before : String), place.line = 1 + before.toList.count '\n' →
        Scan.ofLexemes place lexemes = ⟨placed before items, []⟩ := by
  induction items with
  | nil =>
    refine ⟨last.toList.map .blank, ?_, fun place _ _ => Scan.ofLexemes_map_blank place _⟩
    simpa [layout] using Lexeme.Cut.append_blanks h.last .nil
  | cons item items ih =>
    obtain ⟨gap, t⟩ := item
    obtain ⟨lexemes, hcut, hscan⟩ := ih h.tail
    have hspelled : t.Spelled := h.spelled (gap, t) List.mem_cons_self
    have hgap : ∀ c ∈ gap.toList, c ∈ Lexical.blanks := h.gaps (gap, t) List.mem_cons_self
    obtain ⟨l, hl, hchars, hends, hread⟩ := hspelled.exists_lexeme
    refine ⟨gap.toList.map .blank ++ l :: lexemes, ?_, fun place before hline => ?_⟩
    · rw [layout, String.toList_append, String.toList_append, List.append_assoc, ← hchars]
      exact (Lexeme.Cut.cons hl (hends _ h.not_goesOnWith) hcut).append_blanks hgap
    · have hafter : (place.after (gap.toList.map .blank)).line =
          1 + (before ++ gap).toList.count '\n' := by
        have hcount := (Lexeme.Cut.append_blanks hgap .nil).line_after place
        simp only [List.append_nil] at hcount
        rw [hcount, hline, String.toList_append, List.count_append, Nat.add_assoc]
      have htext : t.text.toList.count '\n' = 0 := by
        simpa [hread, hchars] using hl.line_read place
      have hrest := hscan (place.after (gap.toList.map .blank)) (before ++ gap ++ t.text) (by
        rw [hafter, String.toList_append (s := before ++ gap), List.count_append, htext,
          Nat.add_zero])
      rw [Scan.ofLexemes_append, Scan.ofLexemes_map_blank, Scan.ofLexemes, hread, hrest, hafter]
      rfl

/-- **Scanning gives the tokens of a safe layout back,** each on its line, and reports nothing. -/
theorem scan_inverts_layout {items : List (String × Token)} {last : String}
    (h : SafeLayout items last) : scan (layout items last) = ⟨placed "" items, []⟩ := by
  obtain ⟨lexemes, hcut, hread⟩ := h.exists_cut
  rw [scan, hcut.split_eq]
  exact hread {} "" rfl

/-- The largest integer with a word right behind it, and equals signs with one blank among them. -/
def crowded : List (String × Token) :=
  [("\n", .intLit 9223372036854775807), ("", .identifier "y"), ("\t\n", .kwElse), ("", .equal),
    ("", .assign), (" ", .equal), ("", .less)]

/-- Tokens are told apart where nothing has to stand between them. -/
theorem scan_crowded :
    SafeLayout crowded "\r\n" ∧
      layout crowded "\r\n" = "\n9223372036854775807y\t\nelse=== ==<\r\n" ∧
      scan (layout crowded "\r\n") =
        ⟨[⟨.intLit 9223372036854775807, 2⟩, ⟨.identifier "y", 2⟩, ⟨.kwElse, 3⟩, ⟨.equal, 3⟩,
          ⟨.assign, 3⟩, ⟨.equal, 3⟩, ⟨.less, 3⟩], []⟩ := by
  have hvalue : Token.Spelled (.intLit 9223372036854775807) := ⟨by decide, by decide⟩
  have hname : Token.Spelled (.identifier "y") :=
    ⟨Token.cons_mem_word_of_all (by decide), by decide⟩
  have hgaps : crowded.all (fun item => item.1.toList.all (· ∈ Lexical.blanks)) = true := by decide
  have hlast : "\r\n".toList.all (· ∈ Lexical.blanks) = true := by decide
  have hsafe : SafeLayout crowded "\r\n" := by
    refine ⟨?_, fun item hitem => ?_, fun c hc => of_decide_eq_true (List.all_eq_true.1 hlast c hc),
      ?_⟩
    · simp only [crowded, List.forall_mem_cons]
      exact ⟨hvalue, hname, trivial, trivial, trivial, trivial, trivial, by simp⟩
    · have hgap := List.all_eq_true.1 hgaps item hitem
      exact fun c hc => of_decide_eq_true (List.all_eq_true.1 hgap c hc)
    · simp [crowded, Token.Clings, Token.isWord, Token.isNumber]
  exact ⟨hsafe, by decide +kernel, (scan_inverts_layout hsafe).trans (by decide +kernel)⟩

end TinyImp
