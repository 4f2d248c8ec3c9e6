import TinyImp.Proofs.Checking.Frame
import TinyImp.Proofs.Parsing.SingleToken

/-!
# Scopes are balanced, and a failed parse leaves some open

A parse that succeeds is a reading, and leaves the scopes balanced. A parse that fails may do so
anywhere between the opening of a scope and its end, so that it leaves scopes open above those that
it found (`Checker.Deepens`); but what it found is kept as well as by a success. This is proved
parser by parser (`Parser.Framed`). The two parsers that close a scope cannot fail any more when
they do, and if they succeed they are readings.
-/

namespace TinyImp

/-! ### More scopes -/

namespace Checker

variable {c c₁ c' : Checker}

/-- Scopes may have been opened above those that were open, which have kept their variables. Only
what was the innermost one may have gained names. -/
structure Deepens (c c' : Checker) : Prop where
  adds : c.Adds c'
  scopes : ∃ opened inner outer names, c'.symbols.scopes = opened ++ inner :: outer ∧
    c.symbols.innermost.Gains names inner ∧ ScopesKept c.symbols.enclosing outer

namespace Deepens

/-- What leaves the scopes balanced closes none of them. -/
private theorem of_balances {names : List String} (h : c.Balances names c') : c.Deepens c' :=
  ⟨h.adds, [], _, _, names, rfl, h.innermost, h.enclosing⟩

private theorem of_remarks (h : c.Remarks c') : c.Deepens c' :=
  of_balances (.of_remarks h)

private theorem refl (c : Checker) : c.Deepens c :=
  of_remarks (.refl c)

/-- A new scope is put on those that are there. -/
private theorem openScope (c : Checker) : c.Deepens c.openScope :=
  ⟨.of_eq rfl, [_], _, _, [], rfl, .refl _, ScopesKept.refl _⟩

/-- A declaration of a function leaves the scopes as they are. -/
theorem declareFunction (c : Checker) (name : String) (type : Ty) (params : List Param) :
    c.Deepens (c.declareFunction name type params) :=
  ⟨.of_eq rfl, [], _, _, [], rfl, .refl _, ScopesKept.refl _⟩

/-- Scopes that are kept by two steps are kept by both together. -/
private theorem trans (h : c.Deepens c₁) (h' : c₁.Deepens c') : c.Deepens c' := by
  obtain ⟨hadds, opened, inner, outer, names, hscopes, hinner, houter⟩ := h
  obtain ⟨hadds', opened', inner', outer', names', hscopes', hinner', houter'⟩ := h'
  refine ⟨hadds.trans hadds', ?_⟩
  cases opened with
  | nil =>
    obtain ⟨rfl, rfl⟩ : c₁.symbols.innermost = inner ∧ c₁.symbols.enclosing = outer := by
      simpa [Symbols.scopes] using hscopes
    exact ⟨opened', inner', outer', names ++ names', hscopes', hinner.trans hinner',
      houter.trans houter'⟩
  | cons scope rest =>
    -- what was innermost at first is an enclosing scope by now, and gains nothing any more
    have henclosing : c₁.symbols.enclosing = rest ++ inner :: outer := by
      simpa [Symbols.scopes] using congrArg List.tail hscopes
    rw [henclosing] at houter'
    have hkept := List.forall₂_drop rest.length houter'
    rw [List.drop_left] at hkept
    obtain ⟨inner'', outer'', hinner'', houter'', hdrop⟩ := List.forall₂_cons_left_iff.mp hkept
    have houtereq := List.take_append_drop rest.length outer'
    rw [hdrop] at houtereq
    refine ⟨opened' ++ inner' :: outer'.take rest.length, inner'', outer'', names ++ [], ?_,
      hinner.trans hinner'', houter.trans houter''⟩
    rw [hscopes', List.append_assoc, List.cons_append, houtereq]

end Deepens

end Checker

/-! ### Parsers -/

namespace Parser

variable {α β : Type} {n : Nat}

/-- A failed run keeps what it found. -/
def FailsFramed (p : Parser α) : Prop :=
  ∀ {s s' e}, p s = .error e s' → s.checker.Deepens s'.checker

/-- Every run keeps what it found. -/
structure Framed (p : Parser α) : Prop where
  ok {s s' : ParseState} {a : α} (h : p s = .ok a s') : s.checker.Deepens s'.checker
  error : FailsFramed p

/-- If the first part of a sequence is framed, a failure of the second is. -/
private theorem Framed.fails_bind {p : Parser α} {f : α → Parser β} (h : Framed p)
    (hf : ∀ a, FailsFramed (f a)) : FailsFramed (p >>= f) := by
  intro s s' e hrun
  obtain hp | ⟨a, s₁, hp, hfa⟩ := bind_eq_error.mp hrun
  · exact h.error hp
  · exact (h.ok hp).trans (hf a hfa)

namespace Framed

variable {p : Parser α} {f : α → Parser β}

private theorem pure (a : α) : Framed (Pure.pure a : Parser α) where
  ok hrun := by
    obtain ⟨-, rfl⟩ := pure_eq_ok.mp hrun
    exact .refl _
  error hrun := by cases hrun

/-- **Sequences are framed** if their parts are. -/
private theorem bind (h : Framed p) (hf : ∀ a, Framed (f a)) : Framed (p >>= f) where
  ok hrun := by
    obtain ⟨a, s₁, hp, hfa⟩ := bind_eq_ok.mp hrun
    exact (h.ok hp).trans ((hf a).ok hfa)
  error := h.fails_bind fun a => (hf a).error

/-- The bound does not matter to the frame. -/
private theorem bounded {p : Nat → Parser α} (h : ∀ n, Framed (p n)) : Framed (bounded p) where
  ok hrun := (h _).ok hrun
  error hrun := (h _).error hrun

/-! ### Single tokens and the checker -/

private theorem failAtEnd : Framed (failAtEnd : Parser α) where
  ok hrun := by cases hrun
  error hrun := by
    cases hrun
    exact .refl _

private theorem failAt (t : Located) (cause : Token → ParseError.Cause) :
    Framed (failAt t cause : Parser α) where
  ok hrun := by cases hrun
  error hrun := by
    cases hrun
    exact .refl _

private theorem next : Framed next where
  ok hrun := by
    rw [(next_eq_ok hrun).2]
    exact .refl _
  error {s s' e} hrun := by
    obtain ⟨unread, last, c⟩ := s
    cases unread with
    | nil => exact failAtEnd.error hrun
    | cons t rest => cases hrun

private theorem expect (w : Token) : Framed (expect w) := by
  refine next.bind fun t => ?_
  split
  · exact pure _
  · exact failAt _ _

private theorem identifier : Framed identifier := by
  refine next.bind fun t => ?_
  split
  · exact pure _
  · exact failAt _ _

private theorem typeSpecifier : Framed typeSpecifier := by
  refine next.bind fun t => ?_
  split
  · exact pure _
  · exact failAt _ _

/-- A token that is rejected leaves the checker alone. -/
private theorem reject (cause : Token → ParseError.Cause) : Framed (reject cause : Parser α) where
  ok hrun := absurd hrun reject_ne_ok
  error {s s' e} hrun := by
    unfold Parser.reject at hrun
    split at hrun
    · exact failAtEnd.error hrun
    · exact (failAt _ _).error hrun

private theorem unexpected : Framed (unexpected : Parser α) :=
  reject _

private theorem peek : Framed peek where
  ok hrun := by
    cases hrun
    exact .refl _
  error hrun := by cases hrun

private theorem skipIf (w : Token) : Framed (skipIf w) where
  ok hrun := by
    obtain ⟨-, line, -, hc⟩ | ⟨-, rfl, -⟩ := skipIf_eq_ok hrun
    · rw [hc]
      exact .refl _
    · exact .refl _
  error {s s' e} hrun := by
    obtain ⟨unread, last, c⟩ := s
    cases unread with
    | nil => cases hrun
    | cons t rest =>
      by_cases h : t.token = w
      · simp [Parser.skipIf, h] at hrun
      · simp [Parser.skipIf, h] at hrun

/-- What the checker is asked must not close a scope that was there. -/
private theorem ask {g : Checker → α × Checker} (h : ∀ c : Checker, c.Deepens (g c).2) :
    Framed (ask g) where
  ok {s s' a} hrun := by
    obtain ⟨-, rfl⟩ : _ ∧ { s with checker := (g s.checker).2 } = s' := by simpa using hrun
    exact h s.checker
  error hrun := by cases hrun

private theorem tell {g : Checker → Checker} (h : ∀ c : Checker, c.Deepens (g c)) :
    Framed (tell g) :=
  ask (g := fun c => ((), g c)) h

private theorem declare (name : String) (type : Ty) : Framed (Parser.tell (·.declare name type)) :=
  tell fun c => .of_balances (.declare c name type)

private theorem assign (name : String) (line : Nat) : Framed (Parser.tell (·.assign name line)) :=
  tell fun c => .of_balances (.assign c name line)

end Framed

/-! ### Expressions and lists -/

private theorem operand_framed {inner : Parser Expr} (h : Framed inner) :
    Framed (operand inner) := by
  refine Framed.peek.bind fun o => ?_
  split
  · exact Framed.identifier.bind fun target =>
      (Framed.ask fun c => .of_remarks (c.remarks_typeOf _ _)).bind fun type => .pure _
  · exact Framed.next.bind fun _ => .pure _
  · exact Framed.next.bind fun _ => .pure _
  · exact (Framed.expect _).bind fun _ => h.bind fun e => (Framed.expect _).bind fun _ => .pure _
  · exact .reject _

/-- The loop over the operators is framed, if its right-hand sides are. -/
private theorem operators_framed {rhs : Nat → Parser Expr} (h : ∀ m, Framed (rhs m)) (least k : Nat)
    (lhs : Expr) : Framed (operators rhs least k lhs) := by
  induction k generalizing lhs with
  | zero => exact .pure lhs
  | succ k ih =>
    refine Framed.peek.bind fun o => ?_
    split
    · exact .pure lhs
    · split
      · exact .pure lhs
      · exact Framed.next.bind fun _ => (h _).bind fun right => ih _

/-- Expressions are framed within every bound. -/
private theorem expressionWithin_framed (n least : Nat) : Framed (expressionWithin n least) := by
  induction n generalizing least with
  | zero => exact .failAtEnd
  | succ n ih => exact (operand_framed (ih 0)).bind fun lhs => operators_framed ih _ _ _

private theorem expression_framed : Framed expression :=
  .bounded fun n => expressionWithin_framed n 0

private theorem commaSeparated_framed {item : Parser α} (h : Framed item) (n : Nat) :
    Framed (commaSeparated item n) := by
  induction n with
  | zero => exact .failAtEnd
  | succ n ih =>
    refine h.bind fun first => (Framed.skipIf _).bind fun b => ?_
    cases b with
    | true => exact ih.bind fun others => .pure _
    | false => exact .pure _

private theorem listInParens_framed {item : Parser α} (h : Framed item) :
    Framed (listInParens item) := by
  refine Framed.peek.bind fun o => ?_
  split
  · exact (Framed.pure []).bind fun items => (Framed.expect _).bind fun _ => .pure _
  · exact (Framed.bounded fun n => commaSeparated_framed h n).bind fun items =>
      (Framed.expect _).bind fun _ => .pure _

private theorem parameter_framed : Framed parameter :=
  Framed.typeSpecifier.bind fun _ => Framed.identifier.bind fun _ => .pure _

/-! ### Statements without blocks -/

private theorem variableTail_framed (type : Ty) (name : String) (line : Nat) :
    Framed (variableTail type name line) := by
  refine (Framed.skipIf _).bind fun b => ?_
  cases b with
  | true =>
    exact expression_framed.bind fun init => (Framed.declare name type).bind fun _ =>
      (Framed.assign name line).bind fun _ => .pure _
  | false => exact (Framed.declare name type).bind fun _ => .pure _

private theorem assignOrCall_framed : Framed assignOrCall := by
  refine Framed.identifier.bind fun x => Framed.peek.bind fun o => ?_
  split
  · exact (Framed.expect _).bind fun _ => expression_framed.bind fun value =>
      (Framed.assign _ _).bind fun _ => .pure _
  · exact (Framed.expect _).bind fun _ => (listInParens_framed expression_framed).bind fun args =>
      (Framed.tell fun c => .of_remarks (c.remarks_call _ _ _)).bind fun _ => .pure _
  · exact .unexpected

private theorem simpleStatement_framed : Framed simpleStatement := by
  refine Framed.peek.bind fun o => ?_
  split
  · exact assignOrCall_framed
  · exact Framed.typeSpecifier.bind fun type => Framed.identifier.bind fun x =>
      variableTail_framed _ _ _
  · exact Framed.typeSpecifier.bind fun type => Framed.identifier.bind fun x =>
      variableTail_framed _ _ _
  · exact .unexpected

private theorem condition_framed : Framed condition :=
  (Framed.expect _).bind fun _ => expression_framed.bind fun _ =>
    (Framed.expect _).bind fun _ => .pure _

private theorem returnStatement_framed : Framed returnStatement :=
  (Framed.expect _).bind fun _ => expression_framed.bind fun _ =>
    (Framed.expect _).bind fun _ => .pure _

/-! ### Statements with blocks -/

section Blocks

variable {block : Parser (List Stmt)}

private theorem declaration_framed (h : Framed block) : Framed (declaration block) := by
  refine Framed.typeSpecifier.bind fun type => Framed.identifier.bind fun x =>
    Framed.peek.bind fun o => ?_
  split
  · exact (Framed.expect _).bind fun _ => (listInParens_framed parameter_framed).bind fun params =>
      (Framed.tell fun c => .declareFunction c _ _ _).bind fun _ => h.bind fun body => .pure _
  · exact (variableTail_framed _ _ _).bind fun st => (Framed.expect _).bind fun _ => .pure _

private theorem ifStatement_framed (h : Framed block) : Framed (ifStatement block) := by
  refine (Framed.expect _).bind fun _ => condition_framed.bind fun e => h.bind fun body =>
    (Framed.skipIf _).bind fun b => ?_
  cases b with
  | true => exact h.bind fun otherwise => .pure _
  | false => exact .pure _

private theorem whileStatement_framed (h : Framed block) : Framed (whileStatement block) :=
  (Framed.expect _).bind fun _ => condition_framed.bind fun _ => h.bind fun _ => .pure _

/-- A scope that is closed at the very end is closed by a success. -/
theorem fails_closeScope (a : α) :
    FailsFramed (tell Checker.closeScope >>= fun _ => (pure a : Parser α)) := by
  intro s s' e hrun
  cases hrun

/-- A `for` loop that succeeds is a reading, and so has closed its own scope only. A failure may
leave the scope open. -/
private theorem forStatement_framed (h : Framed block) (hsound : Sound block ReadsBlock) :
    Framed (forStatement block) where
  ok {s s' st} hrun := by
    obtain ⟨ts, -, hreads⟩ := forStatement_sound hsound s st s' hrun
    exact .of_balances (balances_reads hreads)
  error := (Framed.expect _).fails_bind fun _ => ((Framed.expect _).fails_bind fun _ =>
    (Framed.tell Checker.Deepens.openScope).fails_bind fun _ =>
    simpleStatement_framed.fails_bind fun init => (Framed.expect _).fails_bind fun _ =>
    expression_framed.fails_bind fun e => (Framed.expect _).fails_bind fun _ =>
    simpleStatement_framed.fails_bind fun step => (Framed.expect _).fails_bind fun _ =>
    h.fails_bind fun body => fails_closeScope _)

/-- A statement of every kind is framed, if blocks are. -/
private theorem statementOver_framed (h : Framed block) (hsound : Sound block ReadsBlock) :
    Framed (statementOver block) := by
  refine Framed.peek.bind fun o => ?_
  split
  · exact declaration_framed h
  · exact declaration_framed h
  · exact assignOrCall_framed.bind fun st => (Framed.expect _).bind fun _ => .pure _
  · exact returnStatement_framed
  · exact ifStatement_framed h
  · exact whileStatement_framed h
  · exact forStatement_framed h hsound
  · exact .unexpected

end Blocks

/-! ### Bodies and programs -/

private theorem untilBrace_framed {statement : Parser Stmt} (h : Framed statement) (n : Nat) :
    Framed (untilBrace statement n) := by
  induction n with
  | zero => exact .failAtEnd
  | succ n ih =>
    refine (Framed.skipIf _).bind fun b => ?_
    cases b with
    | true => exact .pure _
    | false => exact h.bind fun first => ih.bind fun rest => .pure _

/-- A block that succeeds is a reading, and so has closed its own scope only. A failure may leave
the scope open. -/
private theorem blockOf_framed {statement : Parser Stmt} (h : Framed statement)
    (hsound : Sound statement ReadsStatement) : Framed (blockOf statement) where
  ok {s s' ss} hrun := by
    obtain ⟨ts, -, hreads⟩ := blockOf_sound hsound s ss s' hrun
    exact .of_balances (balances_reads hreads).1
  error := (Framed.expect _).fails_bind fun _ =>
    (Framed.tell Checker.Deepens.openScope).fails_bind fun _ =>
    (Framed.bounded fun n => untilBrace_framed h n).fails_bind fun body => fails_closeScope _

/-- Statements are framed within every bound. -/
private theorem statementWithin_framed (n : Nat) : Framed (statementWithin n) := by
  induction n with
  | zero => exact .failAtEnd
  | succ n ih =>
    exact statementOver_framed (blockOf_framed ih (statementWithin_sound n))
      (blockOf_sound (statementWithin_sound n))

private theorem untilEnd_framed (n : Nat) : Framed (untilEnd n) := by
  induction n with
  | zero => exact .pure _
  | succ n ih =>
    refine Framed.peek.bind fun o => ?_
    split
    · exact .pure _
    · exact (Framed.bounded statementWithin_framed).bind fun first => ih.bind fun rest => .pure _

/-- **The parser for programs is framed**: it never closes a scope that was there before. -/
private theorem program_framed : Framed program :=
  (Framed.bounded untilEnd_framed).bind fun _ =>
    (Framed.tell fun c => .of_remarks (c.remarks_note _)).bind fun _ => .pure _

end Parser

/-- A parse keeps what it found. -/
theorem deepens_parse (tokens : List Located) (c : Checker) : c.Deepens (parse tokens c).2 := by
  unfold parse
  split
  · rename_i hrun
    exact Parser.program_framed.ok hrun
  · rename_i hrun
    exact Parser.program_framed.error hrun

/-- A parse that succeeds leaves the scopes balanced. -/
theorem balances_parse {tokens : List Located} {c c' : Checker} {p : Program}
    (h : parse tokens c = (.ok p, c')) : c.Balances (p.body.filterMap Stmt.declared?) c' := by
  obtain ⟨c₁, hreads, rfl⟩ := parse_eq_ok_iff.mp h
  rw [← List.append_nil (p.body.filterMap Stmt.declared?)]
  exact Checker.Balances.trans (balances_reads hreads) (.of_remarks (c₁.remarks_note _))

/-- **Parsing balances scopes and respects its frame.** Whatever the outcome, diagnostics are only
added, and those are semantic; the scopes that were open keep their variables, with their types and
once initialized for good, and all of them but the innermost keep their names. After a success the
same scopes are open, the innermost has gained exactly the names that statements of the program
itself declare, and no parameters are pending if none were. After a failure there are at least as
many scopes. -/
theorem parse_balances_scopes (tokens : List Located) (c : Checker) :
    (∃ added, (parse tokens c).2.diagnostics = c.diagnostics ++ added ∧
      ∀ d ∈ added, d.kind = .semantic) ∧
    ∃ opened inner outer, (parse tokens c).2.symbols.scopes = opened ++ inner :: outer ∧
      c.symbols.innermost.Keeps inner ∧
      List.Forall₂ (fun scope scope' => scope.Keeps scope' ∧
        ∀ name, (scope'.lookup name).isSome = (scope.lookup name).isSome)
        c.symbols.enclosing outer ∧
      (∀ p, (parse tokens c).1 = .ok p →
        (parse tokens c).2.symbols.depth = c.symbols.depth ∧
        (∀ name, (inner.lookup name).isSome = true ↔
          (c.symbols.innermost.lookup name).isSome = true ∨
            ∃ s ∈ p.body, s.declared? = some name) ∧
        (c.symbols.pending = none → (parse tokens c).2.symbols.pending = none)) ∧
      (∀ e, (parse tokens c).1 = .error e →
        c.symbols.depth ≤ (parse tokens c).2.symbols.depth) := by
  have hkept : ∀ {scopes scopes'}, ScopesKept scopes scopes' →
      List.Forall₂ (fun scope scope' : Scope => scope.Keeps scope' ∧
        ∀ name, (scope'.lookup name).isSome = (scope.lookup name).isSome) scopes scopes' :=
    fun h => h.imp fun _ _ hgains => ⟨hgains.keeps, hgains.isSome_lookup_eq⟩
  obtain ⟨c', ⟨p, hparse⟩ | ⟨e, hparse⟩⟩ : ∃ c', (∃ p, parse tokens c = (.ok p, c')) ∨
      ∃ e, parse tokens c = (.error e, c') := by
    cases hparse : parse tokens c with
    | mk result c' => cases result <;> exact ⟨c', by simp⟩
  · have hbalances := balances_parse hparse
    rw [hparse]
    refine ⟨hbalances.adds.diagnostics, [], _, _, rfl, hbalances.innermost.keeps,
      hkept hbalances.enclosing, ?_, by simp⟩
    rintro _ ⟨⟩
    refine ⟨?_, fun name => ?_, hbalances.pending⟩
    · have hlength := hbalances.enclosing.length_eq
      simp only [Symbols.depth, Symbols.scopes, List.length_cons]
      omega
    · rw [hbalances.innermost.names_iff, List.mem_filterMap]
  · have hdeepens : c.Deepens c' := by
      have h := deepens_parse tokens c
      rwa [hparse] at h
    obtain ⟨opened, inner, outer, names, hscopes, hinner, houter⟩ := hdeepens.scopes
    rw [hparse]
    refine ⟨hdeepens.adds.diagnostics, opened, inner, outer, hscopes, hinner.keeps, hkept houter,
      by simp, fun _ _ => ?_⟩
    have hlength := houter.length_eq
    rw [Symbols.depth, Symbols.depth, hscopes, Symbols.scopes, List.length_append,
      List.length_cons, List.length_cons]
    omega

/-- `int x; if (x) { int y; }` -/
def nestedDeclaration : List Located :=
  [⟨.kwInt, 1⟩, ⟨.identifier "x", 1⟩, ⟨.semicolon, 1⟩, ⟨.kwIf, 1⟩, ⟨.openParen, 1⟩,
    ⟨.identifier "x", 1⟩, ⟨.closeParen, 1⟩, ⟨.openBrace, 1⟩, ⟨.kwInt, 1⟩, ⟨.identifier "y", 1⟩,
    ⟨.semicolon, 1⟩, ⟨.closeBrace, 1⟩]

def nestedDeclarationProgram : Program :=
  ⟨[.declare "x" .int, .ifThen (.var "x" .int) [.declare "y" .int]]⟩

/-- Behind the whole text only `x` is declared; without the last brace a scope is left open. -/
theorem parse_balances_nestedDeclaration :
    (∃ inner outer, (parse nestedDeclaration {}).2.symbols.scopes = inner :: outer ∧
      (parse nestedDeclaration {}).2.symbols.depth = 1 ∧
      (inner.lookup "x").isSome = true ∧ ¬ (inner.lookup "y").isSome = true) ∧
    1 ≤ (parse (nestedDeclaration.take 11) {}).2.symbols.depth := by
  have hok : (parse nestedDeclaration {}).1 = .ok nestedDeclarationProgram := rfl
  have herror : (parse (nestedDeclaration.take 11) {}).1 = .error ⟨.unexpectedEnd, 1⟩ := rfl
  obtain ⟨-, opened, inner, outer, hscopes, -, -, hsuccess, -⟩ :=
    parse_balances_scopes nestedDeclaration {}
  obtain ⟨-, _, _, _, -, -, -, -, hfailure⟩ :=
    parse_balances_scopes (nestedDeclaration.take 11) {}
  obtain ⟨hdepth, hnames, -⟩ := hsuccess _ hok
  have hopened : opened = [] := by
    have hlength : (parse nestedDeclaration {}).2.symbols.depth = 1 := hdepth
    rw [Symbols.depth, hscopes, List.length_append, List.length_cons] at hlength
    exact List.length_eq_zero_iff.mp (by omega)
  refine ⟨⟨inner, outer, by simpa [hopened] using hscopes, hdepth, (hnames "x").mpr ?_, ?_⟩,
    hfailure _ herror⟩
  · exact .inr ⟨_, List.mem_cons_self, rfl⟩
  · rw [hnames "y"]
    decide

end TinyImp
