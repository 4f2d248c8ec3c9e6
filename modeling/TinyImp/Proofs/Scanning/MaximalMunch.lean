import Mathlib.Data.List.TakeWhile
import TinyImp.Proofs.Scanning.Lexical

/-!
# Maximal munch

A text is cut into blanks, lexemes and stray characters by *maximal munch*: at every place the
longest lexeme is taken, and a character with which neither a blank nor a lexeme begins is passed
over (`Lexical.MaximalMunch`). Such a cut loses no character and uses none twice, and there is only
one (`Lexical.MaximalMunch.unique`).

**The scanner makes this cut** (`scan_munches_maximally`): its tokens are those that the lexemes of
the cut denote, in order, each on the line given by the line feeds before it. Asking the scanner for
one token after the other gives the same tokens.

The scanner decides by the first character alone what it reads, and then takes characters as long as
they fit. So the proof has two parts: what it takes is a lexeme of the kind it has decided on
(`Lexeme.WellFormed`), and no lexeme at the same place is longer (`Lexeme.length_le_first`).
-/

namespace TinyImp

namespace Lexical

/-! ### Cutting a text -/

/-- A piece of a text. -/
inductive Piece where
  | blank (c : Char)
  | lexeme (w : List Char)
  | stray (c : Char)

namespace Piece

/-- The characters of a piece, in order. -/
def chars : Piece → List Char
  | .blank c => [c]
  | .lexeme w => w
  | .stray c => [c]

/-- A text begins with a piece: a blank, a lexeme than which no other is longer, or a character
with which nothing else begins. -/
def Heads (text : List Char) : Piece → Prop
  | .blank c => [c] <+: text ∧ c ∈ blanks
  | .lexeme w =>
    w <+: text ∧ w ∈ Lexical.lexeme ∧ ∀ v ∈ Lexical.lexeme, v <+: text → v.length ≤ w.length
  | .stray c => [c] <+: text ∧ c ∉ blanks ∧ ∀ v ∈ Lexical.lexeme, ¬ v <+: text

private theorem Heads.chars_ne_nil {text : List Char} {p : Piece} (h : p.Heads text) :
    p.chars ≠ [] := by
  cases p with
  | blank c => exact List.cons_ne_nil c []
  | lexeme w => exact fun hw => nil_notMem_lexeme (hw ▸ h.2.1)
  | stray c => exact List.cons_ne_nil c []

/-- A blank is the beginning of no lexeme. -/
theorem not_prefix_of_blank {text w : List Char} {c : Char} (hpre : [c] <+: text) (hc : c ∈ blanks)
    (hw : w ∈ Lexical.lexeme) : ¬ w <+: text := by
  intro h
  obtain ⟨rest, rfl⟩ := hpre
  obtain ⟨d, more, rfl⟩ := exists_cons_of_mem_lexeme hw
  obtain ⟨rfl, -⟩ := List.cons_prefix_cons.1 h
  exact notMem_blanks_of_mem_lexeme hw d List.mem_cons_self hc

private theorem singleton_prefix_inj {text : List Char} {c d : Char} (hc : [c] <+: text)
    (hd : [d] <+: text) : c = d := by
  obtain ⟨rest, rfl⟩ := hc
  exact (List.cons_prefix_cons.1 hd).1.symm

/-- **A text begins with one piece only.** -/
theorem Heads.unique {text : List Char} {p q : Piece} (hp : p.Heads text) (hq : q.Heads text) :
    p = q := by
  cases p with
  | blank c =>
    cases q with
    | blank d => rw [singleton_prefix_inj hp.1 hq.1]
    | lexeme w => exact absurd hq.1 (not_prefix_of_blank hp.1 hp.2 hq.2.1)
    | stray d => exact absurd (singleton_prefix_inj hp.1 hq.1 ▸ hp.2) hq.2.1
  | lexeme w =>
    cases q with
    | blank d => exact absurd hp.1 (not_prefix_of_blank hq.1 hq.2 hp.2.1)
    | lexeme v =>
      have hle := hq.2.2 w hp.2.1 hp.1
      have hge := hp.2.2 v hq.2.1 hq.1
      rw [(List.prefix_of_prefix_length_le hp.1 hq.1 hle).eq_of_length_le hge]
    | stray d => exact absurd hp.1 (hq.2.2 w hp.2.1)
  | stray c =>
    cases q with
    | blank d => exact absurd (singleton_prefix_inj hq.1 hp.1 ▸ hq.2) hp.2.1
    | lexeme v => exact absurd hq.1 (hp.2.2 v hq.2.1)
    | stray d => rw [singleton_prefix_inj hp.1 hq.1]

end Piece

/-- The cut of a text by **maximal munch**: the pieces make up the text, and the text from each
piece on begins with that piece. -/
structure MaximalMunch (text : List Char) (pieces : List Piece) : Prop where
  covers : pieces.flatMap Piece.chars = text
  heads : ∀ piece after, piece :: after <:+ pieces →
    piece.Heads ((piece :: after).flatMap Piece.chars)

private theorem MaximalMunch.nil : MaximalMunch [] [] :=
  ⟨rfl, fun piece after h => by simp at h⟩

/-- The first piece heads the text, and the others are those of the rest. -/
private theorem maximalMunch_cons_iff {text : List Char} {piece : Piece} {pieces : List Piece} :
    MaximalMunch text (piece :: pieces) ↔
      ∃ rest, text = piece.chars ++ rest ∧ piece.Heads text ∧ MaximalMunch rest pieces := by
  constructor
  · rintro ⟨rfl, hheads⟩
    refine ⟨pieces.flatMap Piece.chars, List.flatMap_cons, hheads piece pieces List.suffix_rfl, rfl,
      fun next after h => hheads next after (h.trans (List.suffix_cons piece pieces))⟩
  · rintro ⟨_, rfl, hhead, rfl, hheads⟩
    refine ⟨List.flatMap_cons, fun next after h => ?_⟩
    rcases List.suffix_cons_iff.1 h with heq | h
    · obtain ⟨rfl, rfl⟩ := List.cons.inj heq
      exact hhead
    · exact hheads next after h

/-- **There is only one cut by maximal munch.** -/
theorem MaximalMunch.unique {text : List Char} {pieces others : List Piece}
    (h : MaximalMunch text pieces) (h' : MaximalMunch text others) : pieces = others := by
  induction pieces generalizing text others with
  | nil =>
    obtain rfl := h.covers
    cases others with
    | nil => rfl
    | cons other others =>
      obtain ⟨_, heq, hhead, -⟩ := maximalMunch_cons_iff.1 h'
      exact absurd (List.append_eq_nil_iff.1 heq.symm).1 hhead.chars_ne_nil
  | cons piece pieces ih =>
    obtain ⟨rest, rfl, hhead, hrest⟩ := maximalMunch_cons_iff.1 h
    cases others with
    | nil => exact absurd (List.append_eq_nil_iff.1 h'.covers.symm).1 hhead.chars_ne_nil
    | cons other others =>
      obtain ⟨rest', heq, hhead', hrest'⟩ := maximalMunch_cons_iff.1 h'
      obtain rfl := hhead.unique hhead'
      obtain rfl := List.append_cancel_left heq
      rw [ih hrest hrest']

/-- The tokens of the pieces behind some characters: each lexeme gives the token it denotes, on the
line that the line feeds before it lead to. -/
inductive Tokenises : List Char → List Piece → List Located → Prop
  | nil {before : List Char} : Tokenises before [] []
  | blank {before : List Char} {c : Char} {pieces : List Piece} {tokens : List Located} :
    Tokenises (before ++ [c]) pieces tokens → Tokenises before (.blank c :: pieces) tokens
  | lexeme {before w : List Char} {t : Located} {pieces : List Piece} {tokens : List Located} :
    Denotes w t.token → t.line = 1 + before.count '\n' → Tokenises (before ++ w) pieces tokens →
    Tokenises before (.lexeme w :: pieces) (t :: tokens)
  | stray {before : List Char} {c : Char} {pieces : List Piece} {tokens : List Located} :
    Tokenises (before ++ [c]) pieces tokens → Tokenises before (.stray c :: pieces) tokens

/-- **The pieces have one list of tokens only.** -/
theorem Tokenises.unique {before : List Char} {pieces : List Piece} {tokens others : List Located}
    (h : Tokenises before pieces tokens) (h' : Tokenises before pieces others) :
    tokens = others := by
  induction h generalizing others with
  | nil => cases h'; rfl
  | blank _ ih =>
    cases h' with
    | blank h' => exact ih h'
  | @lexeme _ _ t _ _ ht hline _ ih =>
    cases h' with
    | @lexeme _ _ u _ _ hu hline' h' =>
      have hsame : t = u := congrArg₂ Located.mk (ht.unique hu) (hline.trans hline'.symm)
      rw [hsame, ih h']
  | stray _ ih =>
    cases h' with
    | stray h' => exact ih h'

end Lexical

/-! ### What the scanner takes -/

namespace Lexeme

open Lexical

/-- A lexeme has the form that its kind asks for. -/
inductive WellFormed : Lexeme → Prop
  | blank {c : Char} : c ∈ blanks → WellFormed (.blank c)
  | word {letters : List Char} : letters ∈ Lexical.word → WellFormed (.word letters)
  | integer {whole : List Char} : whole ∈ Lexical.digits → WellFormed (.integer whole)
  | decimal {whole fraction : List Char} :
    whole ∈ Lexical.digits → fraction ∈ Lexical.digits → WellFormed (.decimal whole fraction)
  | equality : WellFormed .equality
  | single {c : Char} : c ∉ blanks → ¬ isWordPart c → WellFormed (.single c)

/-- The piece of the text that a lexeme is. -/
def piece : Lexeme → Piece
  | .blank c => .blank c
  | .single c => if (Token.ofSymbol? c).isSome then .lexeme [c] else .stray c
  | l => .lexeme l.chars

/-- A piece has the characters of its lexeme. -/
theorem chars_piece (l : Lexeme) : l.piece.chars = l.chars := by
  cases l with
  | single c => rw [piece]; split_ifs <;> rfl
  | _ => rfl

private theorem takeWhile_mem_digits {c : Char} (hc : c.isDigit) (rest : List Char) :
    c :: rest.takeWhile Char.isDigit ∈ Lexical.digits :=
  mem_digits.2 ⟨List.cons_ne_nil _ _, List.forall_mem_cons.2 ⟨hc, fun _ => List.mem_takeWhile_imp⟩⟩

private theorem wellFormed_number {whole : List Char} (hwhole : whole ∈ Lexical.digits)
    (rest : List Char) :
    (number whole rest).WellFormed := by
  fun_cases number whole rest with
  | case1 d more hd => exact .decimal hwhole (takeWhile_mem_digits hd more)
  | case2 => exact .integer hwhole
  | case3 => exact .integer hwhole

/-- **The first lexeme of a text has the form of its kind.** -/
theorem wellFormed_first (c : Char) (rest : List Char) : (first c rest).WellFormed := by
  fun_cases first c rest with
  | case1 hblank => exact .blank (isBlank_iff.1 hblank)
  | case2 _ hstart =>
    exact .word (cons_mem_word.2 ⟨hstart, fun d => List.mem_takeWhile_imp⟩)
  | case3 _ _ hdigit => exact wellFormed_number (takeWhile_mem_digits hdigit rest) _
  | case4 => exact .equality
  | case5 hblank hstart hdigit =>
    exact .single (isBlank_iff.not.1 hblank) (isWordPart_iff.not.2 (not_or.2 ⟨hstart, hdigit⟩))

/-- A well-formed lexeme is a blank, a lexeme of the language, or a stray character. -/
theorem WellFormed.kinds {l : Lexeme} (hl : l.WellFormed) :
    (∃ c ∈ blanks, l = .blank c) ∨
      (l.chars ∈ Lexical.lexeme ∧ l.piece = .lexeme l.chars) ∨
      ∃ c, c ∉ blanks ∧ [c] ∉ Lexical.lexeme ∧ l = .single c ∧ l.piece = .stray c := by
  cases hl with
  | @blank c hc => exact .inl ⟨c, hc, rfl⟩
  | word hw => exact .inr (.inl ⟨.inl (.inl hw), rfl⟩)
  | integer hw => exact .inr (.inl ⟨.inl (.inr (mem_number_of_mem_digits hw)), rfl⟩)
  | decimal hwhole hfraction =>
    exact .inr (.inl ⟨.inl (.inr (decimal_mem_number hwhole hfraction)), rfl⟩)
  | equality => exact .inr (.inl ⟨.inr (cons_mem_symbol.2 (.inr ⟨rfl, rfl⟩)), rfl⟩)
  | @single c hblank hpart =>
    refine .inr ?_
    by_cases hsymbol : (Token.ofSymbol? c).isSome
    · exact .inl ⟨.inr (cons_mem_symbol.2 (.inl ⟨rfl, hsymbol⟩)), if_pos hsymbol⟩
    · refine .inr ⟨c, hblank, fun hmem => hsymbol ?_, rfl, if_neg hsymbol⟩
      obtain ⟨hstart, hdigit⟩ := not_or.1 (isWordPart_iff.not.1 hpart)
      rw [cons_mem_lexeme, if_neg hstart, if_neg hdigit, cons_mem_symbol] at hmem
      simpa using hmem

/-! ### Nothing longer fits -/

private theorem length_le_takeWhile {p : Char → Bool} {v text : List Char} (hpre : v <+: text)
    (hv : ∀ c ∈ v, p c) : v.length ≤ (text.takeWhile p).length := by
  obtain ⟨rest, rfl⟩ := hpre
  rw [List.takeWhile_append_of_pos hv, List.length_append]
  exact Nat.le_add_right _ _

/-- The number at the start of a text is the longest one. A point behind the digits belongs to it if
a digit follows, and then so do all the digits that follow. -/
theorem length_le_number {v text : List Char} (hv : v ∈ Lexical.number) (hpre : v <+: text) :
    v.length ≤
      (number (text.takeWhile Char.isDigit) (text.dropWhile Char.isDigit)).chars.length := by
  rcases mem_number.1 hv with hv | ⟨whole, hwhole, fraction, hfraction, rfl⟩
  -- Digits alone end no later than all digits there are; a point comes right behind all of them.
  · obtain ⟨taken, -, hchars, -⟩ :=
      chars_number (text.takeWhile Char.isDigit) (text.dropWhile Char.isDigit)
    rw [hchars, List.length_append]
    exact (length_le_takeWhile hpre (mem_digits.1 hv).2).trans (Nat.le_add_right _ _)
  · obtain ⟨rest, rfl⟩ := hpre
    obtain ⟨hne, hall⟩ := mem_digits.1 hfraction
    obtain ⟨d, more, rfl⟩ := List.exists_cons_of_ne_nil hne
    have hd := hall d List.mem_cons_self
    have hmore := length_le_takeWhile (List.prefix_append more rest) fun c hc =>
      hall c (List.mem_cons_of_mem d hc)
    rw [List.append_assoc, List.cons_append, takeWhile_decimal hwhole, dropWhile_decimal hwhole]
    simpa [number, hd, chars] using hmore

/-- **No lexeme at the start of a text is longer than the one the scanner takes.** -/
theorem length_le_first {v : List Char} {c : Char} {rest : List Char} (hv : v ∈ Lexical.lexeme)
    (hpre : v <+: c :: rest) : v.length ≤ (first c rest).chars.length := by
  obtain ⟨d, more, rfl⟩ := exists_cons_of_mem_lexeme hv
  obtain ⟨rfl, hmore⟩ := List.cons_prefix_cons.1 hpre
  have hblank : ¬ isBlank d := fun h =>
    notMem_blanks_of_mem_lexeme hv d List.mem_cons_self (isBlank_iff.1 h)
  -- The first character decides on the kind of both, so the two are compared within one kind.
  rw [cons_mem_lexeme] at hv
  rw [first, if_neg hblank]
  split_ifs at hv ⊢ with hstart hdigit hequal
  · exact Nat.succ_le_succ (length_le_takeWhile hmore (cons_mem_word.1 hv).2)
  · have hlength := length_le_number hv hpre
    rwa [List.takeWhile_cons_of_pos hdigit, List.dropWhile_cons_of_pos hdigit] at hlength
  · rcases cons_mem_symbol.1 hv with ⟨rfl, -⟩ | ⟨-, rfl⟩ <;> simp [chars]
  · rcases cons_mem_symbol.1 hv with ⟨rfl, -⟩ | ⟨rfl, rfl⟩
    · rfl
    · obtain ⟨after, rfl⟩ := hmore
      simp at hequal

/-- A well-formed lexeme than which nothing longer fits is the piece that the text begins with. -/
theorem WellFormed.heads {l : Lexeme} {text : List Char} (hl : l.WellFormed)
    (hpre : l.chars <+: text)
    (hlongest : ∀ v ∈ Lexical.lexeme, v <+: text → v.length ≤ l.chars.length) :
    l.piece.Heads text := by
  rcases hl.kinds with ⟨c, hc, rfl⟩ | ⟨hmem, hpiece⟩ | ⟨c, hc, hstray, rfl, hpiece⟩
  · exact ⟨hpre, hc⟩
  · rw [hpiece]
    exact ⟨hpre, hmem, hlongest⟩
  · rw [hpiece]
    refine ⟨hpre, hc, fun v hv hvpre => hstray ?_⟩
    -- A lexeme here is no longer than the single character, and so is that character.
    have hle : v <+: [c] := List.prefix_of_prefix_length_le hvpre hpre (hlongest v hv hvpre)
    rcases List.prefix_cons_iff.1 hle with rfl | ⟨more, rfl, hmore⟩
    · exact absurd hv nil_notMem_lexeme
    · rwa [List.prefix_nil.1 hmore] at hv

/-- Every lexeme of a text has the form of its kind. -/
theorem wellFormed_split (text : List Char) : ∀ l ∈ split text, l.WellFormed := by
  induction text using split_induction with
  | nil => nofun
  | cons c taken left _ ih => exact List.forall_mem_cons.2 ⟨wellFormed_first _ _, ih⟩

/-- **The cut made by the scanner is the one by maximal munch.** -/
theorem maximalMunch_split (text : List Char) : MaximalMunch text ((split text).map piece) := by
  induction text using split_induction with
  | nil => exact .nil
  | cons c taken left h ih =>
    have hpre : (first c (taken ++ left)).chars <+: c :: taken ++ left := h ▸ List.prefix_append _ _
    refine maximalMunch_cons_iff.2 ⟨left, ?_, ?_, ih⟩
    · rw [chars_piece, h]
    · exact (wellFormed_first _ _).heads hpre fun v hv hv' => length_le_first hv hv'

/-! ### What the scanner makes of it -/

/-- Only a blank moves the scanner to another line. -/
theorem line_read_of_ne_blank {l : Lexeme} (hl : ∀ c, l ≠ .blank c) (place : Place) :
    (l.read place).place.line = place.line := by
  cases l with
  | blank c => exact absurd rfl (hl c)
  | single c =>
    rw [read]
    split
    · rfl
    · split_ifs <;> rfl
  | integer whole =>
    simp only [read]
    split_ifs <;> rfl
  | _ => rfl

/-- A scanner counts the line feeds that it reads. -/
theorem WellFormed.line_read {l : Lexeme} (hl : l.WellFormed) (place : Place) :
    (l.read place).place.line = place.line + l.chars.count '\n' := by
  have hnone {w : List Char} (hw : ∀ c ∈ w, c ∉ blanks) : w.count '\n' = 0 :=
    List.count_eq_zero.2 fun hmem => hw _ hmem (by decide)
  rcases hl.kinds with ⟨c, -, rfl⟩ | ⟨hmem, hpiece⟩ | ⟨c, hc, -, rfl, -⟩
  · rw [read]
    split_ifs with hfeed <;> simp [chars, hfeed]
  · rw [hnone (notMem_blanks_of_mem_lexeme hmem), line_read_of_ne_blank (fun c hl => ?_) place]
    · rfl
    · rw [hl] at hpiece
      cases hpiece
  · rw [hnone (by simpa [chars] using hc), line_read_of_ne_blank (by simp) place]
    rfl

/-- One step: the token read is the one that the lexeme denotes, on the line reached. -/
theorem WellFormed.tokenises_read {l : Lexeme} (hl : l.WellFormed) {place : Place}
    {before : List Char} {pieces : List Piece} {tokens : List Located}
    (hline : place.line = 1 + before.count '\n')
    (h : Tokenises (before ++ l.chars) pieces tokens) :
    Tokenises before (l.piece :: pieces) ((l.read place).token.toList ++ tokens) := by
  cases hl with
  | @blank c hc =>
    have hread : ((Lexeme.blank c).read place).token = none := by rw [read]; split_ifs <;> rfl
    rw [hread]
    exact .blank h
  | word hw => exact .lexeme (denotes_word hw) hline h
  | @integer whole hw =>
    have hread : ((Lexeme.integer whole).read place).token
        = some ⟨.intLit (if decimalValue whole ≤ maxInt then decimalValue whole else maxInt),
            place.line⟩ := by
      simp only [read]
      split_ifs <;> rfl
    rw [hread]
    exact .lexeme (denotes_integer hw) hline h
  | decimal hwhole hfraction => exact .lexeme (denotes_decimal hwhole hfraction) hline h
  | equality => exact .lexeme (.fixed (t := .equal) (by decide)) hline h
  | @single c _ _ =>
    cases hsymbol : Token.ofSymbol? c with
    | some t =>
      rw [piece, read, hsymbol]
      exact .lexeme (denotes_symbol hsymbol) hline h
    | none =>
      have hread : ((Lexeme.single c).read place).token = none := by
        rw [read, hsymbol]
        split_ifs <;> rfl
      rw [hread, piece, hsymbol]
      exact .stray h

end Lexeme

/-- **The run.** The tokens of well-formed lexemes are those of their pieces. -/
theorem Scan.tokenises_ofLexemes {lexemes : List Lexeme} (hl : ∀ l ∈ lexemes, l.WellFormed)
    {place : Place} {before : List Char} (hline : place.line = 1 + before.count '\n') :
    Lexical.Tokenises before (lexemes.map Lexeme.piece) (Scan.ofLexemes place lexemes).tokens := by
  induction lexemes generalizing place before with
  | nil => exact .nil
  | cons l rest ih =>
    obtain ⟨hhead, hrest⟩ := List.forall_mem_cons.1 hl
    refine hhead.tokenises_read hline (ih hrest ?_)
    rw [hhead.line_read, hline, List.count_append, Nat.add_assoc]

/-! ### One token at a time -/

namespace Scanner

private theorem tokens_of_nextFrom_none {place : Place} {reports : List Report}
    {lexemes : List Lexeme}
    {after : Scanner} (h : nextFrom place reports lexemes = (none, after)) :
    (Scan.ofLexemes place lexemes).tokens = [] := by
  induction lexemes generalizing place reports with
  | nil => rfl
  | cons l rest ih =>
    rw [nextFrom] at h
    rw [Scan.ofLexemes]
    cases htoken : (l.read place).token with
    | some t => simp [htoken] at h
    | none => simpa [htoken] using ih (by simpa [htoken] using h)

/-- Reading up to the next token takes the first token off those that are left. -/
theorem tokens_of_nextFrom_some {place : Place} {reports : List Report} {lexemes : List Lexeme}
    {t : Located} {after : Scanner} (h : nextFrom place reports lexemes = (some t, after)) :
    (Scan.ofLexemes place lexemes).tokens =
        t :: (Scan.ofLexemes after.place after.unread).tokens ∧
      after.unread.length < lexemes.length := by
  induction lexemes generalizing place reports with
  | nil => simp [nextFrom] at h
  | cons l rest ih =>
    rw [nextFrom] at h
    rw [Scan.ofLexemes]
    cases htoken : (l.read place).token with
    | some u =>
      obtain ⟨rfl, rfl⟩ : u = t ∧ _ = after := by simpa [htoken] using h
      exact ⟨rfl, Nat.lt_succ_self _⟩
    | none =>
      obtain ⟨htokens, hlt⟩ := ih (by simpa [htoken] using h)
      exact ⟨by simpa [htoken] using htokens, hlt.trans (Nat.lt_succ_self _)⟩

/-- Asked often enough, a scanner gives all the tokens that are left. -/
theorem tokens_take {s : Scanner} {n : ℕ} (hn : s.unread.length < n) :
    (s.take n).1 = (Scan.ofLexemes s.place s.unread).tokens := by
  induction n generalizing s with
  | zero => omega
  | succ n ih =>
    rw [take, next]
    rcases hnext : nextFrom s.place s.reports s.unread with ⟨t | t, after⟩
    · exact (tokens_of_nextFrom_none hnext).symm
    · obtain ⟨htokens, hlt⟩ := tokens_of_nextFrom_some hnext
      have hafter := ih (s := after) (by omega)
      rw [htokens, ← hafter]

end Scanner

/-- **The scanner cuts a text by maximal munch.** Every text has exactly one such cut, the tokens
scanned are those of its lexemes, and taking one token after the other gives the same tokens. -/
theorem scan_munches_maximally (source : String) :
    (∃! pieces, Lexical.MaximalMunch source.toList pieces) ∧
      (∀ tokens, (scan source).tokens = tokens ↔
        ∃ pieces, Lexical.MaximalMunch source.toList pieces ∧
          Lexical.Tokenises [] pieces tokens) ∧
      (Scanner.ofSource source).takeAll.1 = (scan source).tokens := by
  have hmunch := Lexeme.maximalMunch_split source.toList
  have htokens : Lexical.Tokenises [] ((Lexeme.split source.toList).map Lexeme.piece)
      (scan source).tokens :=
    Scan.tokenises_ofLexemes (Lexeme.wellFormed_split source.toList) rfl
  refine ⟨⟨_, hmunch, fun _ h => h.unique hmunch⟩, fun tokens => ⟨?_, ?_⟩, ?_⟩
  · rintro rfl
    exact ⟨_, hmunch, htokens⟩
  · rintro ⟨pieces, hpieces, h⟩
    obtain rfl := hpieces.unique hmunch
    exact htokens.unique h
  · exact Scanner.tokens_take (Nat.lt_succ_self _)

/-- A fraction needs a digit behind its point, a word may follow a number at once, and of three
equals signs the first two belong together. -/
example : (scan "1.x\n===").tokens =
    [⟨.intLit 1, 1⟩, ⟨.identifier "x", 1⟩, ⟨.equal, 2⟩, ⟨.assign, 2⟩] := by
  decide +kernel

end TinyImp
