import TinyImp.Token

/-!
# Lexemes

A program text is cut into lexemes from left to right, each as long as it can be: a word, a number,
a double equals sign, or a single character. `Lexeme.split` loses no character and uses none twice,
so that the characters of the lexemes, put together again, are the text.

The cut recurses on the text itself: after a lexeme of `n` characters it passes over the `n - 1`
characters that the lexeme has taken beyond the first.
-/

namespace TinyImp

/-- A piece of program text. -/
inductive Lexeme where
  /-- A space, a tabulator, a carriage return or a line feed. -/
  | blank (c : Char)
  /-- A letter or an underscore, then letters, digits and underscores. -/
  | word (letters : List Char)
  /-- Digits with no fraction after them. -/
  | integer (whole : List Char)
  /-- Digits, a point, and more digits. -/
  | decimal (whole fraction : List Char)
  /-- Two equals signs. -/
  | equality
  /-- Any other character: a symbol of the language, or a character that has no use in it. -/
  | single (c : Char)
  deriving DecidableEq

namespace Lexeme

/-- The characters between tokens. -/
def isBlank (c : Char) : Bool :=
  c = ' ' || c = '\t' || c = '\r' || c = '\n'

/-- The characters that begin a word: an ASCII letter or an underscore. -/
def isWordStart (c : Char) : Bool :=
  c.isAlpha || c = '_'

/-- The characters that continue a word. -/
def isWordPart (c : Char) : Bool :=
  c.isAlphanum || c = '_'

/-- The characters of a lexeme, in order. -/
def chars : Lexeme → List Char
  | .blank c => [c]
  | .word letters => letters
  | .integer whole => whole
  | .decimal whole fraction => whole ++ '.' :: fraction
  | .equality => ['=', '=']
  | .single c => [c]

/-- The number with the given digits before the point, in front of the rest of the text. A point
belongs to the number only if a digit follows it. -/
def number (whole rest : List Char) : Lexeme :=
  match rest with
  | '.' :: d :: more =>
    if d.isDigit then .decimal whole (d :: more.takeWhile Char.isDigit) else .integer whole
  | _ => .integer whole

/-- The longest lexeme at the start of the text `c :: rest`. -/
def first (c : Char) (rest : List Char) : Lexeme :=
  if isBlank c then .blank c
  else if isWordStart c then .word (c :: rest.takeWhile isWordPart)
  else if c.isDigit then number (c :: rest.takeWhile Char.isDigit) (rest.dropWhile Char.isDigit)
  else if c = '=' && rest.head? = some '=' then .equality
  else .single c

/-- The lexemes of what a text holds after its first `skip` characters. -/
def splitAfter (skip : Nat) : List Char → List Lexeme
  | [] => []
  | c :: rest =>
    match skip with
    | skip + 1 => splitAfter skip rest
    | 0 => first c rest :: splitAfter ((first c rest).chars.length - 1) rest

/-- The lexemes of a text. -/
def split (text : List Char) : List Lexeme :=
  splitAfter 0 text

/-! ### Nothing is lost -/

/-- A number takes up its digits and what it uses of the rest. -/
theorem chars_number (whole rest : List Char) :
    ∃ taken left, (number whole rest).chars = whole ++ taken ∧ rest = taken ++ left := by
  unfold number
  split
  · rename_i d more
    by_cases hd : d.isDigit
    · refine ⟨'.' :: d :: more.takeWhile Char.isDigit, more.dropWhile Char.isDigit, ?_, ?_⟩
      · simp [hd, chars]
      · simp
    · exact ⟨[], _, by simp [hd, chars], rfl⟩
  · exact ⟨[], _, by simp [chars], rfl⟩

/-- The longest lexeme is a nonempty beginning of the text. -/
theorem chars_first (c : Char) (rest : List Char) :
    ∃ taken left, (first c rest).chars = c :: taken ∧ rest = taken ++ left := by
  unfold first
  split
  · exact ⟨[], rest, rfl, rfl⟩
  · split
    · exact ⟨_, rest.dropWhile isWordPart, rfl, by simp⟩
    · split
      · obtain ⟨taken, left, h, hrest⟩ :=
          chars_number (c :: rest.takeWhile Char.isDigit) (rest.dropWhile Char.isDigit)
        refine ⟨rest.takeWhile Char.isDigit ++ taken, left, by simp [h], ?_⟩
        rw [List.append_assoc, ← hrest, List.takeWhile_append_dropWhile]
      · split
        · rename_i hc
          obtain ⟨rfl, hrest⟩ := by simpa using hc
          obtain ⟨left, rfl⟩ : ∃ left, rest = '=' :: left := by
            cases rest with
            | nil => simp at hrest
            | cons d left => exact ⟨left, by simpa using hrest⟩
          exact ⟨['='], left, rfl, rfl⟩
        · exact ⟨[], rest, rfl, rfl⟩

/-- Passing over characters is the same as dropping them first. -/
theorem splitAfter_eq_split_drop (skip : Nat) (text : List Char) :
    splitAfter skip text = split (text.drop skip) := by
  induction text generalizing skip with
  | nil => simp [splitAfter, split]
  | cons c rest ih =>
    cases skip with
    | zero => rfl
    | succ skip => simpa [splitAfter] using ih skip

/-- A text is cut into its longest lexeme and the lexemes of what follows it. -/
theorem split_cons (c : Char) (rest : List Char) :
    split (c :: rest) =
      first c rest :: split (rest.drop ((first c rest).chars.length - 1)) := by
  rw [← splitAfter_eq_split_drop]
  rfl

/-- Induction along the cut: what holds of the empty text, and of a longest lexeme in front of a
text of which it holds, holds of every text and its lexemes. -/
theorem split_induction {motive : List Char → List Lexeme → Prop} (nil : motive [] [])
    (cons : ∀ c taken left, (first c (taken ++ left)).chars = c :: taken →
      motive left (split left) →
      motive (c :: taken ++ left) (first c (taken ++ left) :: split left))
    (text : List Char) : motive text (split text) := by
  induction hn : text.length using Nat.strongRecOn generalizing text with
  | ind n ih =>
    cases text with
    | nil => exact nil
    | cons c rest =>
      obtain ⟨taken, left, h, rfl⟩ := chars_first c rest
      have hleft := ih left.length (by simp at hn; omega) left rfl
      rw [split_cons, h]
      simpa using cons c taken left h hleft

/-- The characters of the lexemes, put together again, are the text. -/
theorem flatMap_chars_split (text : List Char) : (split text).flatMap chars = text := by
  induction text using split_induction with
  | nil => rfl
  | cons c taken left h ih => rw [List.flatMap_cons, h, ih]

end Lexeme

end TinyImp
