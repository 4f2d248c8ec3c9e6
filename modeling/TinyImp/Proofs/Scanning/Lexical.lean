import Mathlib.Computability.Language
import Mathlib.Data.Nat.Digits.Lemmas
import Mathlib.Tactic.FinCases
import TinyImp.Proofs.Number.Rounding
import TinyImp.Token.Scanner

/-!
# The lexical grammar

The texts of the tokens, as a regular language over the characters (`Lexical.lexeme`): words,
numbers, and the symbols of the language. Classes of characters are written as ranges, words and
numbers as regular expressions over them, and a symbol as the text of its token.

A text of the language denotes a token (`Lexical.Denotes`): the one whose fixed text it is, else an
identifier; the integer literal of its value, cut off at the largest integer; or the floating-point
literal that is the correctly rounded form of its value. **No text denotes two tokens**
(`Lexical.Denotes.unique`).
-/

namespace TinyImp

namespace Lexical

open Computability

/-! ### Regular languages of characters -/

/-- The texts of one character of a class. -/
def oneOf (p : Char → Prop) : Language Char :=
  {w | ∃ c, p c ∧ w = [c]}

/-- A letter or an underscore. -/
def letter : Language Char :=
  oneOf fun c => ('A' ≤ c ∧ c ≤ 'Z') ∨ ('a' ≤ c ∧ c ≤ 'z') ∨ c = '_'

/-- A decimal digit. -/
def digit : Language Char :=
  oneOf fun c => '0' ≤ c ∧ c ≤ '9'

/-- A letter, then letters and digits. -/
def word : Language Char :=
  letter * (letter + digit)∗

/-- One digit or more. -/
def digits : Language Char :=
  digit * digit∗

/-- Digits, possibly followed by a point and more digits. -/
def number : Language Char :=
  digits * (1 + oneOf (· = '.') * digits)

/-- The words of the language that are no identifiers. -/
def reserved : List Token :=
  [.kwInt, .kwFloat, .kwReturn, .kwIf, .kwElse, .kwWhile, .kwFor]

/-- The operators and the punctuation. -/
def symbols : List Token :=
  [.semicolon, .comma, .openParen, .closeParen, .openBrace, .closeBrace, .plus, .minus, .star,
    .slash, .less, .greater, .assign, .equal]

/-- The texts of the symbols. -/
def symbol : Language Char :=
  {w | ∃ t ∈ symbols, w = t.text.toList}

/-- The texts of the tokens. -/
def lexeme : Language Char :=
  word + number + symbol

/-- The characters between lexemes. -/
def blanks : List Char :=
  [' ', '\t', '\r', '\n']

private theorem mem_oneOf {p : Char → Prop} {w : List Char} : w ∈ oneOf p ↔ ∃ c, p c ∧ w = [c] :=
  Iff.rfl

private theorem oneOf_add (p q : Char → Prop) : oneOf p + oneOf q = oneOf fun c => p c ∨ q c := by
  ext w
  simp only [Language.mem_add, mem_oneOf, or_and_right, exists_or]

private theorem mem_oneOf_mul {p : Char → Prop} {l : Language Char} {w : List Char} :
    w ∈ oneOf p * l ↔ ∃ c rest, w = c :: rest ∧ p c ∧ rest ∈ l := by
  rw [Language.mem_mul]
  constructor
  · rintro ⟨_, ⟨c, hc, rfl⟩, rest, hrest, rfl⟩
    exact ⟨c, rest, rfl, hc, hrest⟩
  · rintro ⟨c, rest, rfl, hc, hrest⟩
    exact ⟨[c], ⟨c, hc, rfl⟩, rest, hrest, rfl⟩

private theorem mem_kstar_oneOf {p : Char → Prop} {w : List Char} :
    w ∈ (oneOf p)∗ ↔ ∀ c ∈ w, p c := by
  induction w with
  | nil => simp [Language.nil_mem_kstar]
  | cons c rest ih =>
    rw [← Language.one_add_self_mul_kstar_eq_kstar, Language.mem_add, mem_oneOf_mul,
      Language.mem_one]
    simp [ih]

/-! ### What the classes of characters are -/

private theorem isWordStart_iff {c : Char} :
    Lexeme.isWordStart c ↔ ('A' ≤ c ∧ c ≤ 'Z') ∨ ('a' ≤ c ∧ c ≤ 'z') ∨ c = '_' := by
  have halpha : c.isAlpha =
      (decide ('A' ≤ c ∧ c ≤ 'Z') || (decide ('a' ≤ c) && decide (c ≤ 'z'))) := rfl
  simp [Lexeme.isWordStart, halpha, or_assoc]

private theorem isDigit_iff {c : Char} : c.isDigit ↔ '0' ≤ c ∧ c ≤ '9' := by
  simp [Char.isDigit, Char.le_def, UInt32.le_iff_toNat_le]

/-- A word goes on with what it can begin with, and with digits. -/
theorem isWordPart_iff {c : Char} : Lexeme.isWordPart c ↔ Lexeme.isWordStart c ∨ c.isDigit := by
  simp [Lexeme.isWordPart, Lexeme.isWordStart, Char.isAlphanum, or_right_comm]

/-- The blanks are those listed. -/
theorem isBlank_iff {c : Char} : Lexeme.isBlank c ↔ c ∈ blanks := by
  simp [Lexeme.isBlank, blanks, or_assoc]

private theorem letter_eq : letter = oneOf fun c => Lexeme.isWordStart c := by
  simp only [letter, isWordStart_iff]

private theorem digit_eq : digit = oneOf fun c => c.isDigit := by
  simp only [digit, isDigit_iff]

/-- A word is a letter or an underscore, followed by such characters and digits. -/
theorem mem_word {w : List Char} :
    w ∈ word ↔
      ∃ c rest, w = c :: rest ∧ Lexeme.isWordStart c ∧ ∀ d ∈ rest, Lexeme.isWordPart d := by
  rw [word, letter_eq, digit_eq, oneOf_add, mem_oneOf_mul]
  simp [mem_kstar_oneOf, isWordPart_iff]

/-- A word begins with a letter or an underscore and goes on with characters of words. -/
theorem cons_mem_word {c : Char} {rest : List Char} :
    c :: rest ∈ word ↔ Lexeme.isWordStart c ∧ ∀ d ∈ rest, Lexeme.isWordPart d := by
  simp [mem_word]

/-- Digits are one or more. -/
theorem mem_digits {w : List Char} : w ∈ digits ↔ w ≠ [] ∧ ∀ d ∈ w, d.isDigit := by
  rw [digits, digit_eq, mem_oneOf_mul]
  cases w <;> simp [mem_kstar_oneOf]

/-- A number is an integer, or has digits on either side of a point. -/
theorem mem_number {w : List Char} :
    w ∈ number ↔
      w ∈ digits ∨ ∃ whole ∈ digits, ∃ fraction ∈ digits, w = whole ++ '.' :: fraction := by
  rw [number, mul_add, mul_one, Language.mem_add, Language.mem_mul]
  refine or_congr_right (exists_congr fun whole => and_congr_right fun _ => ?_)
  constructor
  · rintro ⟨tail, htail, rfl⟩
    obtain ⟨_, fraction, rfl, rfl, hfraction⟩ := mem_oneOf_mul.1 htail
    exact ⟨fraction, hfraction, rfl⟩
  · rintro ⟨fraction, hfraction, rfl⟩
    exact ⟨_, mem_oneOf_mul.2 ⟨_, fraction, rfl, rfl, hfraction⟩, rfl⟩

/-- An integer is a number. -/
theorem mem_number_of_mem_digits {w : List Char} (hw : w ∈ digits) : w ∈ number :=
  mem_number.2 (.inl hw)

/-- Digits on either side of a point are a number. -/
theorem decimal_mem_number {whole fraction : List Char} (hwhole : whole ∈ digits)
    (hfraction : fraction ∈ digits) : whole ++ '.' :: fraction ∈ number :=
  mem_number.2 (.inr ⟨whole, hwhole, fraction, hfraction, rfl⟩)

/-- The whole part of a decimal ends at its point. -/
theorem takeWhile_decimal {whole : List Char} (hwhole : whole ∈ digits) (rest : List Char) :
    (whole ++ '.' :: rest).takeWhile Char.isDigit = whole := by
  rw [List.takeWhile_append_of_pos (mem_digits.1 hwhole).2, List.takeWhile_cons_of_neg (by decide),
    List.append_nil]

/-- Behind the whole part there is the point. -/
theorem dropWhile_decimal {whole : List Char} (hwhole : whole ∈ digits) (rest : List Char) :
    (whole ++ '.' :: rest).dropWhile Char.isDigit = '.' :: rest := by
  rw [List.dropWhile_append_of_pos (mem_digits.1 hwhole).2, List.dropWhile_cons_of_neg (by decide)]

/-- The characters that stand for a token are those of the symbols. -/
private theorem ofSymbol?_eq_some {c : Char} {t : Token} :
    Token.ofSymbol? c = some t ↔ t ∈ symbols ∧ t.text.toList = [c] := by
  constructor
  · fun_cases Token.ofSymbol? c <;> rintro ⟨⟩ <;> decide
  · rintro ⟨hmem, htext⟩
    fin_cases hmem <;> cases htext <;> rfl

/-- A symbol is a single character or two equals signs. -/
theorem cons_mem_symbol {c : Char} {rest : List Char} :
    c :: rest ∈ symbol ↔
      rest = [] ∧ (Token.ofSymbol? c).isSome ∨ c = '=' ∧ rest = ['='] := by
  constructor
  · rintro ⟨t, hmem, htext⟩
    fin_cases hmem <;> cases htext <;> decide
  · rintro (⟨rfl, hc⟩ | ⟨rfl, rfl⟩)
    · obtain ⟨t, ht⟩ := Option.isSome_iff_exists.1 hc
      obtain ⟨hmem, htext⟩ := ofSymbol?_eq_some.1 ht
      exact ⟨t, hmem, htext.symm⟩
    · exact ⟨.equal, by decide, rfl⟩

/-! ### What the first character tells -/

/-- A word does not begin with a digit, so that words and numbers are told by their first character.
-/
theorem not_isDigit_of_isWordStart {c : Char} (h : Lexeme.isWordStart c) : ¬ c.isDigit := by
  rw [isDigit_iff]
  rw [isWordStart_iff] at h
  rcases h with h | h | rfl
  · exact fun hd => absurd (Char.le_trans h.1 hd.2) (by decide)
  · exact fun hd => absurd (Char.le_trans h.1 hd.2) (by decide)
  · decide

private theorem isDigit_of_cons_mem_number {c : Char} {rest : List Char} (h : c :: rest ∈ number) :
    c.isDigit := by
  rcases mem_number.1 h with hw | ⟨whole, hwhole, fraction, -, heq⟩
  · exact (mem_digits.1 hw).2 c List.mem_cons_self
  · obtain ⟨hne, hall⟩ := mem_digits.1 hwhole
    obtain ⟨d, more, rfl⟩ := List.exists_cons_of_ne_nil hne
    rw [List.cons_append, List.cons.injEq] at heq
    exact heq.1 ▸ hall d List.mem_cons_self

/-- A symbol does not begin with a character of words. -/
theorem not_isWordPart_of_cons_mem_symbol {c : Char} {rest : List Char} (h : c :: rest ∈ symbol) :
    ¬ Lexeme.isWordPart c := by
  obtain ⟨t, hmem, htext⟩ := h
  fin_cases hmem <;> cases htext <;> decide

/-- The first character of a lexeme tells of which kind it is. -/
theorem cons_mem_lexeme {c : Char} {rest : List Char} :
    c :: rest ∈ lexeme ↔
      if Lexeme.isWordStart c then c :: rest ∈ word
      else if c.isDigit then c :: rest ∈ number
      else c :: rest ∈ symbol := by
  have hword : c :: rest ∈ word → Lexeme.isWordStart c := fun h => (cons_mem_word.1 h).1
  have hnumber : c :: rest ∈ number → c.isDigit := isDigit_of_cons_mem_number
  have hsymbol : c :: rest ∈ symbol → ¬ Lexeme.isWordStart c ∧ ¬ c.isDigit := fun h =>
    not_or.1 (isWordPart_iff.not.1 (not_isWordPart_of_cons_mem_symbol h))
  have hdisjoint : Lexeme.isWordStart c → ¬ c.isDigit := not_isDigit_of_isWordStart
  rw [lexeme, Language.mem_add, Language.mem_add]
  split_ifs <;> tauto

/-- No lexeme is empty. -/
theorem nil_notMem_lexeme : [] ∉ lexeme := by
  rw [lexeme, Language.mem_add, Language.mem_add, mem_word, mem_number, mem_digits]
  rintro ((h | h) | ⟨t, hmem, htext⟩)
  · simp at h
  · simp at h
  · fin_cases hmem <;> cases htext

theorem exists_cons_of_mem_lexeme {w : List Char} (hw : w ∈ lexeme) : ∃ c rest, w = c :: rest :=
  List.exists_cons_of_ne_nil fun h => nil_notMem_lexeme (h ▸ hw)

/-- No lexeme holds a blank. -/
theorem notMem_blanks_of_mem_lexeme {w : List Char} (h : w ∈ lexeme) : ∀ c ∈ w, c ∉ blanks := by
  have hpart {c : Char} (hc : Lexeme.isWordPart c) : c ∉ blanks := fun hb => by
    fin_cases hb <;> exact absurd hc (by decide)
  have hdigits {v : List Char} (hv : v ∈ digits) : ∀ c ∈ v, c ∉ blanks := fun c hc =>
    hpart (isWordPart_iff.2 (.inr ((mem_digits.1 hv).2 c hc)))
  rw [lexeme, Language.mem_add, Language.mem_add] at h
  rcases h with (h | h) | ⟨t, hmem, rfl⟩
  · obtain ⟨c, rest, rfl, hc, hrest⟩ := mem_word.1 h
    exact List.forall_mem_cons.2
      ⟨hpart (isWordPart_iff.2 (.inl hc)), fun d hd => hpart (hrest d hd)⟩
  · rcases mem_number.1 h with h | ⟨whole, hwhole, fraction, hfraction, rfl⟩
    · exact hdigits h
    · exact List.forall_mem_append.2
        ⟨hdigits hwhole, List.forall_mem_cons.2 ⟨by decide, hdigits hfraction⟩⟩
  · have hall : ∀ t ∈ symbols, t.text.toList.all (· ∉ blanks) := by decide
    exact fun c hc => of_decide_eq_true (List.all_eq_true.1 (hall t hmem) c hc)

/-! ### Which token a lexeme denotes -/

/-- The number written in decimal digits. -/
def numeral (w : List Char) : ℕ :=
  Nat.ofDigits 10 (w.reverse.map fun c => c.toNat - '0'.toNat)

/-- A lexeme and its token. -/
inductive Denotes : List Char → Token → Prop
  | fixed {t : Token} : t ∈ reserved ++ symbols → Denotes t.text.toList t
  | identifier {w : List Char} :
    w ∈ word → (∀ t ∈ reserved, w ≠ t.text.toList) → Denotes w (.identifier (String.ofList w))
  | integer {w : List Char} : w ∈ digits → Denotes w (.intLit (min (numeral w) (2 ^ 63 - 1)))
  | decimal {whole fraction : List Char} {x : Binary64} :
    whole ∈ digits → fraction ∈ digits →
    Binary64.IsRounded (numeral whole + numeral fraction / 10 ^ fraction.length) x →
    Denotes (whole ++ '.' :: fraction) (.floatLit x)

/-- The digits behind move those in front to the left. -/
theorem numeral_append (w v : List Char) :
    numeral (w ++ v) = numeral w * 10 ^ v.length + numeral v := by
  simp [numeral, Nat.ofDigits_append, Nat.mul_comm, Nat.add_comm]

/-- The value that the scanner computes is that of the numeral. -/
theorem decimalValue_eq (w : List Char) : decimalValue w = numeral w := by
  induction w using List.reverseRecOn with
  | nil => rfl
  | append_singleton w c ih =>
    rw [numeral_append, ← ih, decimalValue, List.foldl_append, ← decimalValue]
    simp [numeral, Nat.ofDigits_singleton, Nat.mul_comm]

/-! ### Every lexeme denotes one token -/

/-- A word is reserved, or an identifier if no reserved word is spelled like it. -/
theorem ofWord_spec (name : String) :
    (Token.ofWord name ∈ reserved ∧ (Token.ofWord name).text = name) ∨
      ((∀ t ∈ reserved, t.text ≠ name) ∧ Token.ofWord name = .identifier name) := by
  fun_cases Token.ofWord name
  case case8 =>
    refine .inr ⟨fun t ht htext => ?_, rfl⟩
    fin_cases ht <;> simp_all [Token.text]
  all_goals exact .inl ⟨by decide, rfl⟩

/-- A word denotes the token that the scanner makes of it. -/
theorem denotes_word {w : List Char} (hw : w ∈ word) :
    Denotes w (Token.ofWord (String.ofList w)) := by
  rcases ofWord_spec (String.ofList w) with ⟨hmem, htext⟩ | ⟨hnone, htoken⟩
  · have hdenotes := Denotes.fixed (List.mem_append_left symbols hmem)
    rwa [htext, String.toList_ofList] at hdenotes
  · rw [htoken]
    refine .identifier hw fun t ht heq => hnone t ht ?_
    rw [heq, String.ofList_toList]

/-- Digits denote their value, cut off at the largest integer. -/
theorem denotes_integer {w : List Char} (hw : w ∈ digits) :
    Denotes w (.intLit (if decimalValue w ≤ maxInt then decimalValue w else maxInt)) := by
  have hmax : (maxInt : ℤ) = 2 ^ 63 - 1 := rfl
  have hmin : (if decimalValue w ≤ maxInt then (decimalValue w : ℤ) else maxInt)
      = min (numeral w : ℤ) (2 ^ 63 - 1) := by
    rw [decimalValue_eq, ← hmax, ← Nat.cast_min, Nat.min_def, Nat.cast_ite]
  rw [hmin]
  exact .integer hw

/-- A decimal denotes the double that the scanner makes of it. -/
theorem denotes_decimal {whole fraction : List Char} (hwhole : whole ∈ digits)
    (hfraction : fraction ∈ digits) :
    Denotes (whole ++ '.' :: fraction) (.floatLit (Lexeme.decimalConst whole fraction)) := by
  have hvalue : (numeral whole + numeral fraction / 10 ^ fraction.length : ℚ)
      = decimalValue (whole ++ fraction) / (Nat.pow 10 fraction.length : ℕ) := by
    rw [decimalValue_eq, numeral_append, Nat.pow_eq, Nat.cast_add, Nat.cast_mul, Nat.cast_pow,
      Nat.cast_ofNat, add_div, mul_div_cancel_right₀ _ (by positivity)]
  refine .decimal hwhole hfraction ?_
  rw [hvalue]
  exact Binary64.isRounded_ofRatio _ (Nat.pow_pos (by decide))

/-- A character denotes the token that the scanner makes of it. -/
theorem denotes_symbol {c : Char} {t : Token} (h : Token.ofSymbol? c = some t) :
    Denotes [c] t := by
  obtain ⟨hmem, htext⟩ := ofSymbol?_eq_some.1 h
  exact htext ▸ .fixed (List.mem_append_right reserved hmem)

/-- A lexeme that is a number is nothing else. -/
theorem disjoint_number {w : List Char} (hw : w ∈ number) :
    w ∉ word ∧ ∀ t ∈ reserved ++ symbols, w ≠ t.text.toList := by
  have hdigit {c : Char} {rest : List Char} (h : w = c :: rest) : c.isDigit :=
    isDigit_of_cons_mem_number (h ▸ hw)
  constructor
  · intro hword
    obtain ⟨c, rest, heq, hc, -⟩ := mem_word.1 hword
    exact not_isDigit_of_isWordStart hc (hdigit heq)
  · intro t ht heq
    fin_cases ht <;> exact absurd (hdigit heq) (by decide)

private theorem text_ne_of_identifier {w : List Char} (hw : w ∈ word)
    (hne : ∀ t ∈ reserved, w ≠ t.text.toList) : ∀ t ∈ reserved ++ symbols, w ≠ t.text.toList := by
  intro t ht heq
  rcases List.mem_append.1 ht with ht | ht
  · exact hne t ht heq
  · obtain ⟨c, rest, rfl, hc, -⟩ := mem_word.1 hw
    exact not_isWordPart_of_cons_mem_symbol ⟨t, ht, heq⟩ (isWordPart_iff.2 (.inl hc))

/-- A number with a point is no integer. -/
theorem decimal_notMem_digits (whole fraction : List Char) : whole ++ '.' :: fraction ∉ digits := by
  intro h
  exact absurd ((mem_digits.1 h).2 '.' (by simp)) (by decide)

/-- No two reserved words or symbols are spelled alike. -/
private theorem text_injective :
    ∀ t ∈ reserved ++ symbols, ∀ u ∈ reserved ++ symbols,
      t.text.toList = u.text.toList → t = u := by
  decide

/-- The text of a reserved word or symbol denotes nothing else. -/
private theorem Denotes.eq_of_fixed {t u : Token} (ht : t ∈ reserved ++ symbols)
    (h : Denotes t.text.toList u) : u = t := by
  generalize hw : t.text.toList = w at h
  cases h with
  | fixed hu => exact text_injective _ hu t ht hw.symm
  | identifier hword hne => exact absurd hw.symm (text_ne_of_identifier hword hne t ht)
  | integer hdigits =>
    exact absurd hw.symm ((disjoint_number (mem_number_of_mem_digits hdigits)).2 t ht)
  | decimal hwhole hfraction =>
    exact absurd hw.symm ((disjoint_number (decimal_mem_number hwhole hfraction)).2 t ht)

/-- A word that is not reserved denotes an identifier only. -/
private theorem Denotes.eq_of_word {w : List Char} {u : Token} (hw : w ∈ word)
    (hne : ∀ t ∈ reserved, w ≠ t.text.toList) (h : Denotes w u) :
    u = .identifier (String.ofList w) := by
  cases h with
  | fixed hu => exact absurd rfl (text_ne_of_identifier hw hne u hu)
  | identifier => rfl
  | integer hdigits => exact absurd hw (disjoint_number (mem_number_of_mem_digits hdigits)).1
  | decimal hwhole hfraction =>
    exact absurd hw (disjoint_number (decimal_mem_number hwhole hfraction)).1

/-- Digits denote one integer only. -/
private theorem Denotes.eq_of_digits {w : List Char} {u : Token} (hw : w ∈ digits)
    (h : Denotes w u) :
    u = .intLit (min (numeral w) (2 ^ 63 - 1)) := by
  have hdisjoint := disjoint_number (mem_number_of_mem_digits hw)
  cases h with
  | fixed hu => exact absurd rfl (hdisjoint.2 u hu)
  | identifier hword => exact absurd hword hdisjoint.1
  | integer => rfl
  | decimal => exact absurd hw (decimal_notMem_digits _ _)

private theorem Denotes.eq_of_decimal {whole fraction : List Char} {x : Binary64} {u : Token}
    (hwhole : whole ∈ digits) (hfraction : fraction ∈ digits)
    (hx : Binary64.IsRounded (numeral whole + numeral fraction / 10 ^ fraction.length) x)
    (h : Denotes (whole ++ '.' :: fraction) u) : u = .floatLit x := by
  have hdisjoint := disjoint_number (decimal_mem_number hwhole hfraction)
  generalize hw : whole ++ '.' :: fraction = w at h hdisjoint
  cases h with
  | fixed hu => exact absurd rfl (hdisjoint.2 u hu)
  | identifier hword => exact absurd hword hdisjoint.1
  | integer hdigits => exact absurd (hw ▸ hdigits) (decimal_notMem_digits _ _)
  | decimal hwhole' hfraction' hx' =>
    have hsame := congrArg (List.takeWhile Char.isDigit) hw
    rw [takeWhile_decimal hwhole, takeWhile_decimal hwhole'] at hsame
    obtain rfl := hsame
    obtain rfl := List.cons_injective (List.append_cancel_left hw)
    rw [hx.unique hx']

/-- **No lexeme denotes two tokens.** -/
theorem Denotes.unique {w : List Char} {t u : Token} (ht : Denotes w t) (hu : Denotes w u) :
    t = u := by
  cases ht with
  | fixed hmem => exact (hu.eq_of_fixed hmem).symm
  | identifier hword hne => exact (hu.eq_of_word hword hne).symm
  | integer hdigits => exact (hu.eq_of_digits hdigits).symm
  | decimal hwhole hfraction hx => exact (hu.eq_of_decimal hwhole hfraction hx).symm

end Lexical

end TinyImp
