import TinyImp.Proofs.Parsing.Soundness

/-!
# Reading a single token

Every parser for a single token looks at the next one and either finds in it what it stands for, and
has read it then, or fails at it (`Parser.take`), and so does a parser for operands with the first
token of the operand. Whether a token at which a parser fails has been read is told by the cause of
the failure: one that was expected to be another token has been, and one that begins nothing has not
(`ParseError.Cause.ahead`). With no token left all of them fail in the same way, and so does
everything that begins with one of them (`Parser.FailsAtEnd`); if they succeed there are fewer
tokens left behind them (`Parser.Consumes`).
-/

namespace TinyImp

/-- The failure is met at a token that has been looked at and not read. -/
def ParseError.Cause.ahead : Cause → Bool
  | .unexpected _ | .expectedExpression _ => true
  | _ => false

namespace ParseState

/-- The state **past** the token that a failure is met at, whether or not it has been read. -/
def past (s : ParseState) (cause : ParseError.Cause) : ParseState :=
  if cause.ahead then ⟨s.unread.drop 1, lineAfter s.lastLine (s.unread.take 1), s.checker⟩ else s

/-- A token that has only been looked at still has to be gone past. -/
theorem past_of_ahead {cause : ParseError.Cause} (h : cause.ahead = true) (t : Located)
    (rest : List Located) (last : Nat) (c : Checker) :
    past ⟨t :: rest, last, c⟩ cause = ⟨rest, t.line, c⟩ :=
  if_pos h

/-- A token that has been read has been gone past. -/
theorem past_of_not_ahead {cause : ParseError.Cause} (h : cause.ahead = false) (s : ParseState) :
    s.past cause = s :=
  if_neg (by simp [h])

end ParseState

namespace ParseState.Reads

variable {s s' : ParseState} {ts us : List Located}

/-- What is read in two parts is read by way of a state between them. -/
theorem split (h : s.Reads (ts ++ us) s') (c : Checker) :
    s.Reads ts ⟨us ++ s'.unread, lineAfter s.lastLine ts, c⟩ ∧
      (ParseState.mk (us ++ s'.unread) (lineAfter s.lastLine ts) c).Reads us s' := by
  refine ⟨⟨?_, rfl⟩, ⟨rfl, ?_⟩⟩
  · rw [h.unread_eq, List.append_assoc]
  · rw [h.lastLine_eq, lineAfter_append]

/-- Where nothing is read nothing changes, but for the checker. -/
theorem eq_of_nil (h : s.Reads [] s') : s = { s' with checker := s.checker } := by
  obtain ⟨unread, last, c⟩ := s
  obtain ⟨hunread, hline⟩ := h
  simp only [List.nil_append, lineAfter_nil] at hunread hline
  rw [hunread, hline]

/-- The state before one token. -/
theorem eq_of_singleton {t : Located} (h : s.Reads [t] s') :
    s = ⟨t :: s'.unread, s.lastLine, s.checker⟩ := by
  rw [← List.singleton_append, ← h.unread_eq]

/-- The states before and behind determine what is read. -/
theorem unique (h : s.Reads ts s') (h' : s.Reads us s') : ts = us :=
  List.append_cancel_right (h.unread_eq.symm.trans h'.unread_eq)

/-- Behind at least one token there are fewer left. -/
theorem length_lt (h : s.Reads ts s') (hpos : 0 < ts.length) :
    s'.unread.length < s.unread.length := by
  have hlen := h.length_eq
  omega

end ParseState.Reads

/-- A parameter is a type and a name. -/
theorem ReadsParam.length_eq {ts : List Located} {c c' : Checker} {p : Param}
    (h : ReadsParam ts c p c') : ts.length = 2 := by
  obtain ⟨_⟩ := h
  rfl

theorem Stops.nil (m : Nat) : Stops m [] := by
  intro op hop
  simp at hop

/-- The name that a token is. -/
def Token.name? : Token → Option String
  | .identifier name => some name
  | _ => none

namespace Parser

variable {α β : Type}

/-- A sequence fails exactly if one of its parts does, the second one behind a success of the first.
-/
theorem bind_eq_error {p : Parser α} {f : α → Parser β} {s s' : ParseState} {e : ParseError} :
    (p >>= f) s = .error e s' ↔
      p s = .error e s' ∨ ∃ a s₁, p s = .ok a s₁ ∧ f a s₁ = .error e s' := by
  rw [bind_apply]
  cases p s with
  | ok a s₁ =>
    constructor
    · intro h
      exact .inr ⟨a, s₁, rfl, h⟩
    · rintro (h | ⟨a', s₁', ⟨⟩, h⟩)
      · cases h
      · exact h
  | error e s₁ => simp

/-! ### The first token -/

/-- Reads a token that stands for something, and fails at any other, which is read or not as the
cause of the failure says. -/
def take (read : Token → Option α) (cause : Token → ParseError.Cause) : Parser (α × Nat) := fun s =>
  match s.unread with
  | [] => failAtEnd s
  | t :: rest =>
    match read t.token with
    | some a => .ok (a, t.line) { s with unread := rest, lastLine := t.line }
    | none =>
      .error ⟨cause t.token, t.line⟩
        (if (cause t.token).ahead then s else { s with unread := rest, lastLine := t.line })

section Take

variable (read : Token → Option α) (cause : Token → ParseError.Cause)

theorem take_nil (last : Nat) (c : Checker) :
    take read cause ⟨[], last, c⟩ = .error ⟨.unexpectedEnd, last⟩ ⟨[], last, c⟩ := rfl

theorem take_cons_of_some {t : Located} {a : α} (h : read t.token = some a) (rest : List Located)
    (last : Nat) (c : Checker) :
    take read cause ⟨t :: rest, last, c⟩ = .ok (a, t.line) ⟨rest, t.line, c⟩ := by
  simp [take, h]

theorem take_cons_of_none {t : Located} (h : read t.token = none) (rest : List Located)
    (last : Nat) (c : Checker) :
    take read cause ⟨t :: rest, last, c⟩ =
      .error ⟨cause t.token, t.line⟩
        (if (cause t.token).ahead then ⟨t :: rest, last, c⟩ else ⟨rest, t.line, c⟩) := by
  simp [take, h]

variable {read : Token → Option α} {cause : Token → ParseError.Cause} {s s' : ParseState}

/-- If something has been found, the token that stands for it has been read. -/
theorem take_eq_ok {a : α} {line : Nat} (h : take read cause s = .ok (a, line) s') :
    ∃ w, read w = some a ∧ s.Reads [⟨w, line⟩] s' := by
  obtain ⟨unread, last, c⟩ := s
  cases unread with
  | nil => cases h
  | cons t rest =>
    cases hread : read t.token with
    | none =>
      rw [take_cons_of_none _ _ hread] at h
      cases h
    | some a' =>
      rw [take_cons_of_some _ _ hread] at h
      cases h
      exact ⟨t.token, hread, rfl, rfl⟩

/-- The text ends, or its next token stands for nothing. -/
theorem take_eq_error {e : ParseError} (h : take read cause s = .error e s') :
    (s.unread = [] ∧ s' = s ∧ e = ⟨.unexpectedEnd, s.lastLine⟩) ∨
      ∃ t, read t.token = none ∧ s.Reads [t] (s'.past e.cause) ∧ e = ⟨cause t.token, t.line⟩ := by
  obtain ⟨unread, last, c⟩ := s
  cases unread with
  | nil =>
    cases h
    exact .inl ⟨rfl, rfl, rfl⟩
  | cons t rest =>
    cases hread : read t.token with
    | some a =>
      rw [take_cons_of_some _ _ hread] at h
      cases h
    | none =>
      rw [take_cons_of_none _ _ hread] at h
      cases h
      refine .inr ⟨t, hread, ?_, rfl⟩
      cases hahead : (cause t.token).ahead with
      | true =>
        rw [if_pos rfl, ParseState.past_of_ahead hahead]
        exact ⟨rfl, rfl⟩
      | false =>
        rw [if_neg (by simp), ParseState.past_of_not_ahead hahead]
        exact ⟨rfl, rfl⟩

end Take

/-- A parser that begins with a token, and goes on with what the token stands for. It has read the
token also if it fails at it. -/
theorem next_bind_eq_take {read : Token → Option α} {cause : Token → ParseError.Cause}
    {f : Located → Parser β} {g : α × Nat → Parser β} (hcause : ∀ w, (cause w).ahead = false)
    (h : ∀ t, f t = match read t.token with
      | some a => g (a, t.line)
      | none => failAt t cause) : (next >>= f) = (take read cause >>= g) := by
  funext s
  obtain ⟨unread, last, c⟩ := s
  cases unread with
  | nil => rfl
  | cons t rest =>
    rw [bind_apply, next_cons, bind_apply]
    cases hread : read t.token with
    | some a =>
      rw [take_cons_of_some _ _ hread]
      simp [h t, hread]
    | none =>
      rw [take_cons_of_none _ _ hread, hcause t.token]
      simp only [h t, hread]
      rfl

/-- Every token stands for itself. -/
theorem next_eq_take : next = (take some .expectedType >>= fun x => pure ⟨x.1, x.2⟩) := by
  rw [← bind_pure next]
  exact next_bind_eq_take (fun _ => rfl) fun _ => rfl

/-- The wanted token is the only one that stands for anything. -/
theorem expect_eq_take (wanted : Token) :
    expect wanted = (take (fun t => if t = wanted then some () else none) (.expected wanted) >>=
      fun _ => pure ()) := by
  refine next_bind_eq_take (fun _ => rfl) fun t => ?_
  by_cases h : t.token = wanted
  · simp [h]
  · simp [h]

theorem identifier_eq_take :
    identifier = (take Token.name? .expectedIdentifier >>= pure) := by
  refine next_bind_eq_take (fun _ => rfl) fun t => ?_
  cases t.token <;> rfl

theorem typeSpecifier_eq_take :
    typeSpecifier = (take Token.type? .expectedType >>= fun x => pure x.1) := by
  refine next_bind_eq_take (fun _ => rfl) fun t => ?_
  cases t.token.type? <;> rfl

/-- No token stands for anything, so that each is one to fail at. -/
theorem unexpected_eq_take :
    (unexpected : Parser α) = (take (fun _ => none) .unexpected >>= fun x : Empty × Nat =>
      x.1.elim) := by
  funext s
  obtain ⟨unread, last, c⟩ := s
  cases unread with
  | nil => rfl
  | cons t rest => rfl

/-- What an operand begins with. -/
inductive Lead where
  | variableName (name : String)
  | constant (value : Const)
  | parenthesis

/-- The beginning of an operand that a token is. -/
def Lead.ofToken? : Token → Option Lead
  | .identifier name => some (.variableName name)
  | .intLit value => some (.constant (.int value))
  | .floatLit value => some (.constant (.float value))
  | .openParen => some .parenthesis
  | _ => none

/-- The operand that goes on behind its beginning. -/
def Lead.operand (inner : Parser Expr) : Lead × Nat → Parser Expr
  | (.variableName name, line) => do
    let type ← ask (·.typeOf name line)
    pure (.var name type)
  | (.constant value, _) => pure (.const value)
  | (.parenthesis, _) => do
    let e ← inner
    expect .closeParen
    pure e

/-- **An operand begins with a single token**, by which its kind is told. -/
theorem operand_eq_take (inner : Parser Expr) :
    operand inner = (take Lead.ofToken? .expectedExpression >>= Lead.operand inner) := by
  funext s
  obtain ⟨unread, last, c⟩ := s
  cases unread with
  | nil => rfl
  | cons t rest =>
    obtain ⟨w, line⟩ := t
    cases w with
    | openParen => simp [operand, take, Lead.ofToken?, Lead.operand]
    | _ => rfl

/-! ### Failure at the end -/

/-- With no token left the parser fails. -/
def FailsAtEnd (p : Parser α) : Prop :=
  ∀ last c, p ⟨[], last, c⟩ = .error ⟨.unexpectedEnd, last⟩ ⟨[], last, c⟩

/-- A sequence fails at the end if its first part does. -/
private theorem FailsAtEnd.bind {p : Parser α} (h : FailsAtEnd p) (f : α → Parser β) :
    FailsAtEnd (p >>= f) := by
  intro last c
  rw [bind_apply, h last c]

theorem failsAtEnd_failAtEnd : FailsAtEnd (failAtEnd : Parser α) := fun _ _ => rfl

private theorem failsAtEnd_next : FailsAtEnd next := fun _ _ => rfl

private theorem failsAtEnd_operand (inner : Parser Expr) :
    FailsAtEnd (operand inner) := fun _ _ => rfl

/-- There is no empty expression. -/
theorem failsAtEnd_expressionWithin (n least : Nat) : FailsAtEnd (expressionWithin n least) := by
  cases n with
  | zero => exact failsAtEnd_failAtEnd
  | succ n => exact (failsAtEnd_operand _).bind _

theorem failsAtEnd_expression : FailsAtEnd expression := fun last c =>
  failsAtEnd_expressionWithin 0 0 last c

/-- There is no empty parameter. -/
theorem failsAtEnd_parameter : FailsAtEnd parameter :=
  (failsAtEnd_next.bind _).bind _

/-- A list with commas has a first item. -/
theorem failsAtEnd_commaSeparated {item : Parser α} (h : FailsAtEnd item) (n : Nat) :
    FailsAtEnd (commaSeparated item n) := by
  cases n with
  | zero => exact failsAtEnd_failAtEnd
  | succ n => exact h.bind _

/-- There is no empty statement. -/
theorem failsAtEnd_statementWithin (n : Nat) : FailsAtEnd (statementWithin n) := by
  cases n with
  | zero => exact failsAtEnd_failAtEnd
  | succ n => exact fun _ _ => rfl

/-- The closing brace cannot be left out. -/
theorem failsAtEnd_untilBrace {statement : Parser Stmt} (h : FailsAtEnd statement) (n : Nat) :
    FailsAtEnd (untilBrace statement n) := by
  cases n with
  | zero => exact failsAtEnd_failAtEnd
  | succ n => exact fun last c => h.bind _ last c

/-- Statements may end with the text. -/
theorem untilEnd_nil (n last : Nat) (c : Checker) :
    untilEnd n ⟨[], last, c⟩ = .ok [] ⟨[], last, c⟩ := by
  cases n with
  | zero => rfl
  | succ n => rfl

/-! ### Success reads something -/

/-- If the parser succeeds there are fewer tokens left behind it. -/
def Consumes (p : Parser α) : Prop :=
  ∀ {s s' : ParseState} {a : α}, p s = .ok a s' → s'.unread.length < s.unread.length

theorem consumes_next : Consumes next := fun h =>
  (next_eq_ok h).1.length_lt Nat.one_pos

/-- Whatever a token is taken for, it has been read. -/
theorem consumes_take {read : Token → Option α} {cause : Token → ParseError.Cause} :
    Consumes (take read cause) := by
  intro s s' x h
  obtain ⟨w, -, hread⟩ := take_eq_ok h
  exact hread.length_lt Nat.one_pos

theorem consumes_expect (w : Token) : Consumes (expect w) := by
  intro s s' _ h
  obtain ⟨line, hread, -⟩ := expect_eq_ok h
  exact hread.length_lt Nat.one_pos

theorem consumes_typeSpecifier : Consumes typeSpecifier := by
  intro s s' type h
  obtain ⟨w, line, -, hread, -⟩ := typeSpecifier_eq_ok h
  exact hread.length_lt Nat.one_pos

/-- Behind an operand there are fewer tokens than in front of it, within every bound. -/
theorem length_lt_of_operand {n : Nat} {s s' : ParseState} {e : Expr}
    (hn : s.unread.length ≤ n + 1) (h : operand (expressionWithin n 0) s = .ok e s') :
    s'.unread.length < s.unread.length := by
  obtain ⟨ts, hts, hreads⟩ := operand_sound (expressionWithin_sound n) hn h
  exact hts.length_lt (hreads 0).length_pos

/-- An expression has at least one token. -/
theorem consumes_expression : Consumes expression := by
  intro s s' e h
  obtain ⟨ts, hts, hreads⟩ := expression_sound s e s' h
  exact hts.length_lt hreads.length_pos

/-- A parameter has at least one token. -/
theorem consumes_parameter : Consumes parameter := by
  intro s s' p h
  obtain ⟨ts, hts, hreads⟩ := parameter_sound s p s' h
  exact hts.length_lt (by simp [hreads.length_eq])

/-- A statement has at least one token. -/
theorem consumes_statementWithin (n : Nat) : Consumes (statementWithin n) := by
  intro s s' st h
  obtain ⟨ts, hts, hreads⟩ := statementWithin_sound n s st s' h
  exact hts.length_lt hreads.length_pos

end Parser

end TinyImp
