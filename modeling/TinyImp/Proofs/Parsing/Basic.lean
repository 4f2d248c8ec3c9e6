import TinyImp.Parser.Statement

/-!
# Running parsers

What the building blocks of the parser do, in two forms. The equations run a parser on a state
whose next tokens are known; they are tagged for the simplifier. The inversion lemmas say what a
*successful* run tells about the state before it: which tokens have been read, and what the
checker has been told.

A run **reads** the tokens `ts` from a state `s` to a state `s'` if `ts` are the first tokens left
in `s` and the others are left in `s'`, with the line of the last token read noted
(`ParseState.Reads`).
-/

namespace TinyImp

/-- The line of the token read last, after some more tokens. -/
def lineAfter (line : Nat) (ts : List Located) : Nat :=
  ts.foldl (fun _ t => t.line) line

@[simp]
theorem lineAfter_nil (line : Nat) : lineAfter line [] = line := rfl

@[simp]
theorem lineAfter_cons (line : Nat) (t : Located) (ts : List Located) :
    lineAfter line (t :: ts) = lineAfter t.line ts := rfl

/-- The line is carried on from one part to the next. -/
@[simp]
theorem lineAfter_append (line : Nat) (ts us : List Located) :
    lineAfter line (ts ++ us) = lineAfter (lineAfter line ts) us :=
  List.foldl_append

/-- The line of the token read last is that of the last token, if there is one. -/
theorem lineAfter_eq_getLast (line : Nat) (ts : List Located) :
    lineAfter line ts = (ts.getLast?.map (·.line)).getD line := by
  induction ts generalizing line with
  | nil => rfl
  | cons t ts ih =>
    rw [lineAfter_cons, ih, List.getLast?_cons]
    cases ts.getLast? with
    | none => rfl
    | some u => rfl

/-- The first token of a list. -/
def next? (rest : List Located) : Option Token :=
  rest.head?.map (·.token)

@[simp]
theorem next?_nil : next? [] = none := rfl

@[simp]
theorem next?_cons (t : Located) (rest : List Located) : next? (t :: rest) = some t.token := rfl

/-- There is no next token exactly at the end. -/
@[simp]
theorem next?_eq_none {rest : List Located} : next? rest = none ↔ rest = [] := by
  simp [next?]

namespace ParseState

/-- The tokens `ts` are read between two states. -/
structure Reads (s : ParseState) (ts : List Located) (s' : ParseState) : Prop where
  unread_eq : s.unread = ts ++ s'.unread
  lastLine_eq : s'.lastLine = lineAfter s.lastLine ts

namespace Reads

variable {s s₁ s₂ : ParseState} {ts us : List Located}

/-- Nothing is read where the state stays the same. -/
theorem refl (s : ParseState) : s.Reads [] s := ⟨rfl, rfl⟩

/-- What is read in two steps is read in one. -/
theorem trans (h₁ : s.Reads ts s₁) (h₂ : s₁.Reads us s₂) : s.Reads (ts ++ us) s₂ :=
  ⟨by rw [h₁.unread_eq, h₂.unread_eq, List.append_assoc],
    by rw [h₂.lastLine_eq, h₁.lastLine_eq, lineAfter_append]⟩

/-- What has been read does not depend on the checker before it. -/
theorem of_checker_left {c : Checker} (h : { s with checker := c }.Reads ts s₁) : s.Reads ts s₁ :=
  ⟨h.unread_eq, h.lastLine_eq⟩

/-- What has been read does not depend on the checker behind it. -/
theorem checker_right (h : s.Reads ts s₁) (c : Checker) : s.Reads ts { s₁ with checker := c } :=
  ⟨h.unread_eq, h.lastLine_eq⟩

/-- The tokens left before a run are those it reads and those left behind it. -/
theorem length_eq (h : s.Reads ts s₁) : s₁.unread.length + ts.length = s.unread.length := by
  rw [h.unread_eq, List.length_append, Nat.add_comm]

end Reads

end ParseState

namespace Parser

variable {α β : Type}

/-! ### Equations -/

/-- **Sequences.** The second parser goes on where the first one succeeds, and a failure ends both.
-/
@[simp]
theorem bind_apply (p : Parser α) (f : α → Parser β) (s : ParseState) :
    (p >>= f) s =
      match p s with
      | .ok a s₁ => f a s₁
      | .error e s₁ => .error e s₁ := by
  change EStateM.bind p f s = _
  unfold EStateM.bind
  cases p s <;> rfl

/-- A function of the value that a parser returns. -/
@[simp]
theorem map_apply (f : α → β) (p : Parser α) (s : ParseState) :
    (f <$> p) s =
      match p s with
      | .ok a s₁ => .ok (f a) s₁
      | .error e s₁ => .error e s₁ := by
  change EStateM.map f p s = _
  unfold EStateM.map
  cases p s <;> rfl

@[simp]
theorem pure_apply (a : α) (s : ParseState) : (pure a : Parser α) s = .ok a s := rfl

@[simp]
theorem peek_apply (s : ParseState) : peek s = .ok (next? s.unread) s := rfl

@[simp]
theorem tell_apply (f : Checker → Checker) (s : ParseState) :
    tell f s = .ok () { s with checker := f s.checker } := rfl

@[simp]
theorem ask_apply (f : Checker → α × Checker) (s : ParseState) :
    ask f s = .ok (f s.checker).1 { s with checker := (f s.checker).2 } := rfl

/-- The bound is the number of tokens left. -/
@[simp]
theorem bounded_apply (p : Nat → Parser α) (s : ParseState) :
    bounded p s = p s.unread.length s := rfl

section Equations

variable (t : Located) (w : Token) (line last : Nat) (rest : List Located) (c : Checker)

@[simp]
theorem next_cons : next ⟨t :: rest, last, c⟩ = .ok t ⟨rest, t.line, c⟩ := rfl

/-- The token that is wanted is read. -/
@[simp]
theorem expect_cons : expect w ⟨⟨w, line⟩ :: rest, last, c⟩ = .ok () ⟨rest, line, c⟩ := by
  simp [expect]

/-- The token that is asked for is skipped. -/
@[simp]
theorem skipIf_cons : skipIf w ⟨⟨w, line⟩ :: rest, last, c⟩ = .ok true ⟨rest, line, c⟩ := by
  simp [skipIf]

/-- Any other token stays where it is. -/
@[simp]
theorem skipIf_cons_of_ne {w' : Token} (h : w' ≠ w) :
    skipIf w ⟨⟨w', line⟩ :: rest, last, c⟩ = .ok false ⟨⟨w', line⟩ :: rest, last, c⟩ := by
  simp [skipIf, h]

/-- Another token than the given one is left unread. -/
theorem skipIf_of_ne (h : next? rest ≠ some w) :
    skipIf w ⟨rest, last, c⟩ = .ok false ⟨rest, last, c⟩ := by
  cases rest with
  | nil => rfl
  | cons t rest => exact skipIf_cons_of_ne w t.line last rest c (by simpa using h)

@[simp]
theorem identifier_cons (name : String) :
    identifier ⟨⟨.identifier name, line⟩ :: rest, last, c⟩ = .ok (name, line) ⟨rest, line, c⟩ := by
  simp [identifier]

/-- The name of a type is read as the type. -/
theorem typeSpecifier_cons {w : Token} {type : Ty} (h : w.type? = some type) :
    typeSpecifier ⟨⟨w, line⟩ :: rest, last, c⟩ = .ok type ⟨rest, line, c⟩ := by
  simp [typeSpecifier, h]

end Equations

/-! ### Inversion -/

section Inversion

variable {s s' : ParseState}

/-- A sequence succeeds exactly if both of its parts do, the second one behind the first. -/
theorem bind_eq_ok {p : Parser α} {f : α → Parser β} {b : β} :
    (p >>= f) s = .ok b s' ↔ ∃ a s₁, p s = .ok a s₁ ∧ f a s₁ = .ok b s' := by
  rw [bind_apply]
  cases p s with
  | ok a s₁ =>
    constructor
    · intro h
      exact ⟨a, s₁, rfl, h⟩
    · rintro ⟨a', s₁', ⟨⟩, h⟩
      exact h
  | error e s₁ => simp

theorem pure_eq_ok {a b : α} : (pure a : Parser α) s = .ok b s' ↔ a = b ∧ s = s' := by
  simp

/-- A token that is read was the next one. -/
theorem next_eq_ok {t : Located} (h : next s = .ok t s') :
    s.Reads [t] s' ∧ s'.checker = s.checker := by
  obtain ⟨unread, last, c⟩ := s
  cases unread with
  | nil => simp [next, failAtEnd] at h
  | cons t' rest =>
    obtain ⟨rfl, rfl⟩ : t' = t ∧ ParseState.mk rest t'.line c = s' := by simpa using h
    exact ⟨⟨rfl, rfl⟩, rfl⟩

/-- A token that has been looked at is the one that is read next. -/
theorem next_eq_ok_of_next? {w : Token} {t : Located} (hw : next? s.unread = some w)
    (h : next s = .ok t s') : s.Reads [⟨w, t.line⟩] s' ∧ s'.checker = s.checker := by
  obtain ⟨hread, hc⟩ := next_eq_ok h
  rw [hread.unread_eq, List.singleton_append, next?_cons, Option.some.injEq] at hw
  rw [← hw]
  exact ⟨hread, hc⟩

private theorem failAt_ne_ok {t : Located} {cause : Token → ParseError.Cause} {a : α} :
    failAt t cause s ≠ .ok a s' := by
  intro h
  cases h

theorem failAtEnd_ne_ok {a : α} : failAtEnd s ≠ .ok a s' := by
  intro h
  cases h

/-- A parser that rejects the next token never succeeds, whatever that token is. -/
theorem reject_ne_ok {cause : Token → ParseError.Cause} {a : α} : reject cause s ≠ .ok a s' := by
  intro h
  unfold reject at h
  split at h
  · exact failAtEnd_ne_ok h
  · exact failAt_ne_ok h

theorem unexpected_ne_ok {a : α} : unexpected s ≠ .ok a s' :=
  reject_ne_ok

/-- If the wanted token has been found, it has been read and nothing else has happened. -/
theorem expect_eq_ok {w : Token} {u : Unit} (h : expect w s = .ok u s') :
    ∃ line, s.Reads [⟨w, line⟩] s' ∧ s'.checker = s.checker := by
  obtain ⟨⟨token, line⟩, s₁, hnext, h⟩ := bind_eq_ok.mp h
  split at h
  · rename_i hw
    obtain ⟨-, rfl⟩ := pure_eq_ok.mp h
    obtain rfl : token = w := hw
    exact ⟨line, next_eq_ok hnext⟩
  · exact absurd h failAt_ne_ok

/-- Either the token has been skipped, or it is not the next one and nothing has happened. -/
theorem skipIf_eq_ok {w : Token} {b : Bool} (h : skipIf w s = .ok b s') :
    (b = true ∧ ∃ line, s.Reads [⟨w, line⟩] s' ∧ s'.checker = s.checker) ∨
      (b = false ∧ s' = s ∧ next? s.unread ≠ some w) := by
  obtain ⟨unread, last, c⟩ := s
  cases unread with
  | nil =>
    obtain ⟨rfl, rfl⟩ : false = b ∧ ParseState.mk [] last c = s' := by simpa [skipIf] using h
    exact .inr ⟨rfl, rfl, by simp⟩
  | cons t rest =>
    obtain ⟨token, line⟩ := t
    by_cases hw : token = w
    · subst hw
      obtain ⟨rfl, rfl⟩ : true = b ∧ ParseState.mk rest line c = s' := by simpa using h
      exact .inl ⟨rfl, line, ⟨rfl, rfl⟩, rfl⟩
    · obtain ⟨rfl, rfl⟩ : false = b ∧ ParseState.mk (⟨token, line⟩ :: rest) last c = s' := by
        simpa [skipIf, hw] using h
      exact .inr ⟨rfl, rfl, by simpa using hw⟩

/-- An identifier is returned with the line that it is on. -/
theorem identifier_eq_ok {name : String} {line : Nat} (h : identifier s = .ok (name, line) s') :
    s.Reads [⟨.identifier name, line⟩] s' ∧ s'.checker = s.checker := by
  obtain ⟨⟨token, line'⟩, s₁, hnext, h⟩ := bind_eq_ok.mp h
  cases token with
  | identifier name' =>
    obtain ⟨⟨rfl, rfl⟩, rfl⟩ : (name' = name ∧ line' = line) ∧ s₁ = s' := by simpa using h
    exact next_eq_ok hnext
  | _ => exact absurd h failAt_ne_ok

/-- A type is returned if its name has been read. -/
theorem typeSpecifier_eq_ok {type : Ty} (h : typeSpecifier s = .ok type s') :
    ∃ w line, w.type? = some type ∧ s.Reads [⟨w, line⟩] s' ∧ s'.checker = s.checker := by
  obtain ⟨⟨token, line⟩, s₁, hnext, h⟩ := bind_eq_ok.mp h
  cases htype : token.type? with
  | some type' =>
    obtain ⟨rfl, rfl⟩ : type' = type ∧ s₁ = s' := by simpa [htype] using h
    exact ⟨token, line, htype, next_eq_ok hnext⟩
  | none =>
    simp only [htype] at h
    exact absurd h failAt_ne_ok

end Inversion

end Parser

end TinyImp
