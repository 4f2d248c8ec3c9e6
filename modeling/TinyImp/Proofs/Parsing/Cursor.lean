import TinyImp.Proofs.Parsing.SingleToken

/-!
# A cursor in a list of tokens

How far a parse has come can be told by the tokens that are left, and it can be told by a
**position** in the list of all tokens (`Cursor`). A position is a number, and nothing keeps it
within the list: to go on by one is possible everywhere (`Cursor.bump`), whether or not there is a
token to go past. Parsers that move a cursor look at the tokens by position, and fail on the line of
the token at the position or, if there is none, on that of the last token.

What lies in front of a cursor is a state of the parser (`Cursor.view`). All positions behind the
last token have the same view. So the view does not tell whether a cursor has been moved past the
end, and that it has not is a statement about the position (`Cursor.Within`, `Cursor.Reaches`).
-/

namespace TinyImp

/-- A position in a list of tokens, and the checker that follows it. -/
structure Cursor where
  tokens : List Located
  position : Nat
  checker : Checker

/-- A parser that moves a cursor. -/
abbrev CursorParser := EStateM ParseError Cursor

namespace Cursor

variable {α β : Type}

/-! ### Looking and moving -/

/-- The token at the position. -/
def here? (c : Cursor) : Option Located :=
  c.tokens[c.position]?

/-- The line of the token at the position or, if there is none, of the last one. -/
def line (c : Cursor) : Nat :=
  ((c.here?.or c.tokens.getLast?).map (·.line)).getD 1

/-- The cursor one position further, whether or not there is a token in between. -/
def bumped (c : Cursor) : Cursor :=
  { c with position := c.position + 1 }

/-- The token at the position. -/
def peek : CursorParser (Option Token) := fun c =>
  .ok (c.here?.map (·.token)) c

/-- Goes on by one. -/
def bump : CursorParser Unit := fun c =>
  .ok () c.bumped

/-- Nothing keeps a position within the tokens. -/
example (checker : Checker) : bump ⟨[], 0, checker⟩ = .ok () ⟨[], 1, checker⟩ := rfl

/-- Goes on by one if the given token is at the position, and tells whether it was. -/
def bumpIf (w : Token) : CursorParser Bool := do
  if (← peek) = some w then
    bump
    pure true
  else
    pure false

/-- Whether the position is behind the last token. -/
def atEnd : CursorParser Bool := fun c =>
  .ok (decide (c.tokens.length ≤ c.position)) c

/-- Fails where the cursor is. -/
def failHere (cause : ParseError.Cause) : CursorParser α := fun c =>
  .error ⟨cause, c.line⟩ c

/-- The token at the position, which has to be there. -/
def peekOrFail : CursorParser Token := do
  match ← peek with
  | some w => pure w
  | none => failHere .unexpectedEnd

/-- Goes past the token at the position, which has to be there and to stand for something. -/
def take (read : Token → Option α) (cause : Token → ParseError.Cause) :
    CursorParser (α × Nat) := fun c =>
  match c.here? with
  | none => failHere .unexpectedEnd c
  | some t =>
    match read t.token with
    | some a => .ok (a, c.line) c.bumped
    | none => .error ⟨cause t.token, c.line⟩ c.bumped

/-- Goes past the given token. -/
def expect (w : Token) : CursorParser Unit :=
  (fun _ => ()) <$> take (fun w' => if w' = w then some () else none) (.expected w)

/-- Goes past an identifier, and returns it with its line. -/
def identifier : CursorParser (String × Nat) :=
  take Token.name? .expectedIdentifier

/-- Goes past a type specifier. -/
def typeSpecifier : CursorParser Ty :=
  Prod.fst <$> take Token.type? .expectedType

/-- Fails because the token at the position cannot stand there. -/
def unexpected : CursorParser α := do
  match ← peek with
  | some w => failHere (.unexpected w)
  | none => failHere .unexpectedEnd

/-- Tells the checker something. -/
def tell (f : Checker → Checker) : CursorParser Unit := fun c =>
  .ok () { c with checker := f c.checker }

/-- Asks the checker something. -/
def ask (f : Checker → α × Checker) : CursorParser α := fun c =>
  .ok (f c.checker).1 { c with checker := (f c.checker).2 }

/-! ### At a token and at the end -/

theorem line_of_here? {c : Cursor} {t : Located} (h : c.here? = some t) : c.line = t.line := by
  rw [line, h]
  rfl

private theorem peek_bind (f : Option Token → CursorParser α) (c : Cursor) :
    (peek >>= f) c = f (c.here?.map (·.token)) c := rfl

theorem peekOrFail_of_here? {c : Cursor} {t : Located} (h : c.here? = some t) :
    peekOrFail c = .ok t.token c := by
  rw [peekOrFail, peek_bind, h]
  rfl

/-- At the end there is no token to look at, and the line is that of the last one. -/
theorem peekOrFail_of_end {c : Cursor} (h : c.here? = none) :
    peekOrFail c = .error ⟨.unexpectedEnd, c.line⟩ c := by
  rw [peekOrFail, peek_bind, h]
  rfl

/-- The failure names the token at the position, and leaves the cursor in front of it. -/
theorem unexpected_of_here? {c : Cursor} {t : Located} (h : c.here? = some t) :
    (unexpected : CursorParser α) c = failHere (.unexpected t.token) c := by
  rw [unexpected, peek_bind, h]
  rfl

theorem unexpected_of_end {c : Cursor} (h : c.here? = none) :
    (unexpected : CursorParser α) c = failHere .unexpectedEnd c := by
  rw [unexpected, peek_bind, h]
  rfl

/-- Only a token that has been looked at is gone past. -/
theorem bumpIf_apply (w : Token) (c : Cursor) :
    bumpIf w c = if c.here?.map (·.token) = some w then .ok true c.bumped else .ok false c := by
  rw [bumpIf, peek_bind]
  split
  · rfl
  · rfl

/-- To be at the end is to see no token. -/
theorem atEnd_apply (c : Cursor) : atEnd c = .ok (c.here?.map (·.token)).isNone c := by
  have hiff : c.tokens.length ≤ c.position ↔ (c.here?.map (·.token)).isNone = true := by
    rw [Option.isNone_map, Option.isNone_iff_eq_none, here?, List.getElem?_eq_none_iff]
  simp only [atEnd, hiff, Bool.decide_eq_true]

section Take

variable {c : Cursor} {t : Located} {read : Token → Option α}

/-- A token that stands for something is gone past. -/
theorem take_of_some (h : c.here? = some t) {a : α} (hread : read t.token = some a)
    (cause : Token → ParseError.Cause) : take read cause c = .ok (a, t.line) c.bumped := by
  rw [take, h]
  simp only [hread, line_of_here? h]

/-- So is a token that does not, although the parser fails at it. -/
theorem take_of_none (h : c.here? = some t) (hread : read t.token = none)
    (cause : Token → ParseError.Cause) :
    take read cause c = .error ⟨cause t.token, t.line⟩ c.bumped := by
  rw [take, h]
  simp only [hread, line_of_here? h]

/-- At the end there is nothing to go past, and the cursor stays. -/
theorem take_of_end (h : c.here? = none) (cause : Token → ParseError.Cause) :
    take read cause c = .error ⟨.unexpectedEnd, c.line⟩ c := by
  rw [take, h]
  rfl

end Take

/-! ### Positions -/

/-- The position is one of a token, or the one behind the last token. -/
def Within (c : Cursor) : Prop :=
  c.position ≤ c.tokens.length

/-- The number of tokens from the position on. -/
def left (c : Cursor) : Nat :=
  c.tokens.length - c.position

/-- The cursor `c'` is in the same tokens as `c` and within them, at least `k` positions further. -/
structure Reaches (c : Cursor) (k : Nat) (c' : Cursor) : Prop where
  tokens_eq : c'.tokens = c.tokens
  le_position : c.position + k ≤ c'.position
  position_le : c'.position ≤ c.tokens.length

namespace Reaches

variable {c c₁ c₂ : Cursor} {j k : Nat}

/-- A cursor that stays where it is, with whatever the checker has been told. -/
protected theorem refl (h : c.Within) (checker : Checker) : c.Reaches 0 { c with checker } :=
  ⟨rfl, Nat.le_refl _, h⟩

/-- Distances add up. -/
protected theorem trans (h : c.Reaches k c₁) (h' : c₁.Reaches j c₂) : c.Reaches (k + j) c₂ := by
  have hposition := h'.position_le
  rw [h.tokens_eq] at hposition
  refine ⟨h'.tokens_eq.trans h.tokens_eq, ?_, hposition⟩
  have hle := h.le_position
  have hle' := h'.le_position
  omega

/-- To have come further is to have come less far as well. -/
theorem mono (h : c.Reaches k c₁) (hj : j ≤ k) : c.Reaches j c₁ :=
  ⟨h.tokens_eq, Nat.le_trans (Nat.add_le_add_left hj _) h.le_position, h.position_le⟩

/-- Wherever a cursor has come to, it is within the tokens. -/
theorem within (h : c.Reaches k c₁) : c₁.Within := by
  rw [Within, h.tokens_eq]
  exact h.position_le

/-- What has been passed is no longer left. -/
theorem left_add_le (h : c.Reaches k c₁) : c₁.left + k ≤ c.left := by
  have hposition := h.position_le
  have hle := h.le_position
  rw [left, left, h.tokens_eq]
  omega

end Reaches

/-- One step past a token stays within the tokens. -/
theorem reaches_bumped {c : Cursor} {t : Located} (h : c.here? = some t) :
    c.Reaches 1 c.bumped := by
  obtain ⟨hlt, -⟩ := List.getElem?_eq_some_iff.mp h
  exact ⟨rfl, Nat.le_refl _, hlt⟩

/-- Within the tokens there is a token at the position exactly if there is one left. -/
theorem here?_eq_none_iff {c : Cursor} : c.here? = none ↔ c.left = 0 := by
  rw [here?, List.getElem?_eq_none_iff, left, Nat.sub_eq_zero_iff_le]

/-! ### The state in front of a cursor -/

/-- The state of the parser in front of a cursor: the tokens from the position on. -/
def view (c : Cursor) : ParseState where
  unread := c.tokens.drop c.position
  lastLine := lineAfter 1 (c.tokens.take c.position)
  checker := c.checker

/-- The view has as many tokens as the cursor has left. -/
theorem length_unread_view (c : Cursor) : c.view.unread.length = c.left :=
  List.length_drop

/-- How far a cursor has come is told by the tokens that are left. -/
theorem Reaches.eq_of_view {c c' : Cursor} {k : Nat} (h : c.Reaches k c') :
    c' = ⟨c.tokens, c.tokens.length - c'.view.unread.length, c'.view.checker⟩ := by
  have hposition : c.tokens.length - c'.left = c'.position := by
    rw [left, h.tokens_eq]
    exact Nat.sub_sub_self h.position_le
  rw [length_unread_view, hposition, ← h.tokens_eq]
  rfl

/-- The view of a token, and the view from behind it. -/
theorem view_of_here? {c : Cursor} {t : Located} (h : c.here? = some t) :
    ∃ last, c.view = ⟨t :: c.bumped.view.unread, last, c.checker⟩ ∧
      c.bumped.view = ⟨c.bumped.view.unread, t.line, c.checker⟩ := by
  obtain ⟨hlt, ht⟩ := List.getElem?_eq_some_iff.mp h
  refine ⟨c.view.lastLine, ?_, ?_⟩
  · rw [view, List.drop_eq_getElem_cons hlt, ht]
    rfl
  · have htake : c.tokens.take (c.position + 1) = c.tokens.take c.position ++ [t] := by
      rw [List.take_add_one, List.getElem?_eq_getElem hlt, ht]
      rfl
    have hline : lineAfter 1 (c.tokens.take (c.position + 1)) = t.line := by
      rw [htake, lineAfter_append, lineAfter_cons, lineAfter_nil]
    rw [← hline]
    rfl

/-- The view at the end. -/
theorem view_of_end {c : Cursor} (h : c.here? = none) : c.view = ⟨[], c.line, c.checker⟩ := by
  have hle : c.tokens.length ≤ c.position := List.getElem?_eq_none_iff.mp h
  have hline : lineAfter 1 (c.tokens.take c.position) = c.line := by
    rw [List.take_of_length_le hle, lineAfter_eq_getLast, line, h, Option.none_or]
  rw [view, List.drop_eq_nil_of_le hle, hline]

/-- The cursor and the parser look at the same token. -/
theorem next?_unread_view (c : Cursor) : next? c.view.unread = c.here?.map (·.token) := by
  cases h : c.here? with
  | none => rw [view_of_end h, next?_nil, Option.map_none]
  | some t =>
    obtain ⟨last, hview, -⟩ := view_of_here? h
    rw [hview, next?_cons, Option.map_some]

end Cursor

end TinyImp
