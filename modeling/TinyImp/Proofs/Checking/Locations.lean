import TinyImp.Proofs.Checking.Balance
import TinyImp.Proofs.Checking.Calls
import TinyImp.Proofs.Parsing.CorrectPrefix
import TinyImp.Proofs.Scanning.Problems

/-!
# Where diagnostics point

The reports of a scan are in the order of the text. A report on a name points at the name, with one
exception: the variables among the arguments of a call are looked up once more at the line of the
call (`Report.Placed`).

The parser takes down the line of a name when it reads the name, and hands it to the checker later,
after an expression or a whole list of arguments. That the line is still right then, and also
whenever the parse fails in between, is an invariant of the parser: the reports so far are located
among the tokens read so far (`Parser.Locates`). A failure at a token adds nothing to what was
located in front of that token, and those tokens are the beginning of a program.
-/

namespace TinyImp

open Grammar (words Viable language)

/-! ### The lines of a scan -/

namespace Lexeme

/-- What a lexeme brings about is on the current line, and the next line is no earlier. -/
theorem lines_read (l : Lexeme) (place : Place) :
    (∀ t ∈ (l.read place).token, t.line = place.line) ∧
      (∀ r ∈ (l.read place).report, r.line = place.line ∧ r.problem.kind = .lexical) ∧
      place.line ≤ (l.read place).place.line := by
  cases l with
  | blank c =>
    rw [read]
    split_ifs <;> simp
  | integer whole =>
    simp only [read]
    split_ifs <;> simp [Problem.kind]
  | single c =>
    rw [read]
    cases Token.ofSymbol? c with
    | some t => simp
    | none =>
      dsimp only
      split_ifs <;> simp [Problem.kind]
  | word | decimal | equality => simp [read]

end Lexeme

namespace Scan

/-- Tokens and reports are on the lines from the first to the last, and reports are in order. -/
theorem lines_ofLexemes (place : Place) (lexemes : List Lexeme) :
    place.line ≤ (place.after lexemes).line ∧
      (∀ t ∈ (ofLexemes place lexemes).tokens,
        place.line ≤ t.line ∧ t.line ≤ (place.after lexemes).line) ∧
      (∀ r ∈ (ofLexemes place lexemes).reports, r.problem.kind = .lexical ∧
        place.line ≤ r.line ∧ r.line ≤ (place.after lexemes).line) ∧
      (ofLexemes place lexemes).reports.Pairwise fun r r' => r.line ≤ r'.line := by
  induction lexemes generalizing place with
  | nil => simp [ofLexemes, Place.after]
  | cons l rest ih =>
    obtain ⟨htoken, hreport, hle⟩ := l.lines_read place
    obtain ⟨hlast, htokens, hreports, hpairwise⟩ := ih (l.read place).place
    change place.line ≤ ((l.read place).place.after rest).line ∧
      (∀ t ∈ (l.read place).token.toList ++ _, _ ≤ _ ∧ _ ≤ ((l.read place).place.after rest).line) ∧
      (∀ r ∈ (l.read place).report.toList ++ _, _ ∧ _ ≤ _ ∧
        _ ≤ ((l.read place).place.after rest).line) ∧
      ((l.read place).report.toList ++ _).Pairwise _
    refine ⟨hle.trans hlast, fun t ht => ?_, fun r hr => ?_, ?_⟩
    · rcases List.mem_append.mp ht with ht | ht
      · rw [htoken t (Option.mem_toList.mp ht)]
        exact ⟨le_rfl, hle.trans hlast⟩
      · exact ⟨hle.trans (htokens t ht).1, (htokens t ht).2⟩
    · rcases List.mem_append.mp hr with hr | hr
      · obtain ⟨hline, hkind⟩ := hreport r (Option.mem_toList.mp hr)
        rw [hline]
        exact ⟨hkind, le_rfl, hle.trans hlast⟩
      · exact ⟨(hreports r hr).1, hle.trans (hreports r hr).2.1, (hreports r hr).2.2⟩
    · refine List.pairwise_append.mpr ⟨?_, hpairwise, fun r hr r' hr' => ?_⟩
      · cases (l.read place).report <;> simp
      · rw [(hreport r (Option.mem_toList.mp hr)).1]
        exact hle.trans (hreports r' hr').2.1

end Scan

/-- All lines of a text. -/
theorem lines_scan (source : String) :
    (∀ t ∈ (scan source).tokens, 1 ≤ t.line ∧ t.line ≤ 1 + source.toList.count '\n') ∧
      (∀ r ∈ (scan source).reports, r.problem.kind = .lexical ∧
        1 ≤ r.line ∧ r.line ≤ 1 + source.toList.count '\n') ∧
      (scan source).reports.Pairwise fun r r' => r.line ≤ r'.line := by
  have hlines := Scan.lines_ofLexemes {} (Lexeme.split source.toList)
  rw [(Lexeme.cut_split source.toList).line_after] at hlines
  exact hlines.2

/-! ### What reports point at -/

namespace Fault

/-- The function that a fault is about. -/
def functionName? : Fault → Option String
  | .unknownFunction name => some name
  | .argumentCount name _ _ => some name
  | .argumentType name _ _ _ => some name
  | _ => none

/-- The variable that a fault is about. -/
def variableName? : Fault → Option String
  | .assignedUndeclared name => some name
  | .readUndeclared name => some name
  | _ => none

end Fault

/-- A call with the arguments `args` is among the tokens, from its name, which is on the given line,
to its closing parenthesis. -/
def CallIn (tokens : List Located) (line : Nat) (args : List Expr) : Prop :=
  ∃ name before call after c c', tokens = before ++ call ++ after ∧
    call.head? = some ⟨.identifier name, line⟩ ∧ ReadsSimple call c (.call name args) c'

/-- A call stays among the tokens when more is read. -/
private theorem CallIn.append {tokens : List Located} {line : Nat} {args : List Expr}
    (h : CallIn tokens line args) (more : List Located) : CallIn (tokens ++ more) line args := by
  obtain ⟨name, before, call, after, c, c', rfl, hcall⟩ := h
  exact ⟨name, before, call, after ++ more, c, c', by simp, hcall⟩

/-- A report on a function points at its name. A report on a variable points at its name too, or at
a call with this variable as an argument that has been read. -/
def Report.Placed (tokens read : List Located) (r : Report) : Prop :=
  ∀ fault, r.problem = .misuse fault →
    (∀ f, fault.functionName? = some f → ⟨.identifier f, r.line⟩ ∈ tokens) ∧
      ∀ x, fault.variableName? = some x → ⟨.identifier x, r.line⟩ ∈ tokens ∨
        ∃ args type, .var x type ∈ args ∧ CallIn read r.line args

/-- A report stays placed when more is read. -/
private theorem Report.Placed.append {tokens read : List Located} {r : Report}
    (h : r.Placed tokens read) (more : List Located) : r.Placed tokens (read ++ more) := by
  refine fun fault hfault => ⟨(h fault hfault).1, fun x hx => ?_⟩
  obtain hname | ⟨args, type, hmem, hcall⟩ := (h fault hfault).2 x hx
  · exact .inl hname
  · exact .inr ⟨args, type, hmem, hcall.append more⟩

/-- A report on a name is on the line of a token. -/
theorem Report.Placed.exists_token {read rest : List Located} {r : Report} {fault : Fault}
    (h : r.Placed (read ++ rest) read) (hfault : r.problem = .misuse fault) :
    ∃ t ∈ read ++ rest, t.line = r.line := by
  obtain ⟨hfunction, hvariable⟩ := h fault hfault
  have hcases : (∃ f, fault.functionName? = some f) ∨ ∃ x, fault.variableName? = some x := by
    cases fault <;> simp [Fault.functionName?, Fault.variableName?]
  obtain ⟨f, hf⟩ | ⟨x, hx⟩ := hcases
  · exact ⟨_, hfunction f hf, rfl⟩
  · obtain hname | ⟨args, type, -, name, before, call, after, c, c', rfl, hhead, -⟩ :=
      hvariable x hx
    · exact ⟨_, hname, rfl⟩
    · exact ⟨⟨.identifier name, r.line⟩, by simp [List.mem_of_mem_head? hhead], rfl⟩

/-- Up to `rest` the tokens have been read, and all reports are located among them. -/
def Checker.Sited (tokens rest : List Located) (c : Checker) : Prop :=
  ∃ read, tokens = read ++ rest ∧ ∀ r ∈ c.reports, r.Placed tokens read

namespace Checker

variable {tokens rest : List Located} {c c' : Checker} {name : String} {line : Nat}

/-- Reports stay sited when a further token has been read. -/
private theorem Sited.tail {t : Located} (h : c.Sited tokens (t :: rest)) :
    c.Sited tokens rest := by
  obtain ⟨read, htokens, hreports⟩ := h
  exact ⟨read ++ [t], by simp [htokens], fun r hr => (hreports r hr).append [t]⟩

/-- Only the reports matter. -/
private theorem Sited.of_reports (h : c.Sited tokens rest) (heq : c'.reports = c.reports) :
    c'.Sited tokens rest := by
  obtain ⟨read, htokens, hreports⟩ := h
  exact ⟨read, htokens, heq ▸ hreports⟩

/-- A report on a variable at its name. -/
theorem Sited.reportFault (h : c.Sited tokens rest) (hname : ⟨.identifier name, line⟩ ∈ tokens)
    {fault : Fault} (hfunction : fault.functionName? = none)
    (hvariable : fault.variableName? = some name) :
    (c.reportFault line fault).Sited tokens rest := by
  obtain ⟨read, htokens, hreports⟩ := h
  refine ⟨read, htokens, fun r hr => ?_⟩
  obtain hr | hr := List.mem_append.mp hr
  · exact hreports r hr
  · obtain rfl := List.mem_singleton.mp hr
    rintro _ ⟨⟩
    refine ⟨by simp [hfunction], fun x hx => .inl ?_⟩
    obtain rfl : name = x := Option.some.inj (hvariable.symm.trans hx)
    exact hname

/-- A lookup reports its name at most, on a line on which that stands. -/
private theorem Sited.typeOf (h : c.Sited tokens rest) (hname : ⟨.identifier name, line⟩ ∈ tokens) :
    (c.typeOf name line).2.Sited tokens rest := by
  unfold Checker.typeOf Symbols.typeOf
  cases c.symbols.lookup name with
  | some v => exact h
  | none =>
    dsimp only
    split
    · exact h.of_reports rfl
    · exact h.reportFault hname rfl rfl

/-- An assignment reports its target at most, on a line on which that stands. -/
private theorem Sited.assign (h : c.Sited tokens rest) (hname : ⟨.identifier name, line⟩ ∈ tokens) :
    (c.assign name line).Sited tokens rest := by
  unfold Checker.assign Symbols.assign
  split_ifs
  · exact h.of_reports rfl
  · exact h.of_reports rfl
  · exact h.reportFault hname rfl rfl

/-- An argument that is looked up in vain is a variable. -/
theorem mem_readFaults {args : List Expr} {fault : Fault} (h : fault ∈ c.readFaults args) :
    ∃ x type, .var x type ∈ args ∧ fault = .readUndeclared x := by
  unfold readFaults at h
  split_ifs at h
  · simp at h
  · obtain ⟨x, hx, rfl⟩ := List.mem_map.mp h
    obtain ⟨e, he, hundeclared⟩ := List.mem_filterMap.mp hx
    cases e with
    | var y type =>
      rw [undeclared?_var] at hundeclared
      split_ifs at hundeclared
      obtain rfl := Option.some.inj hundeclared
      exact ⟨y, type, he, rfl⟩
    | _ => simp [undeclared?] at hundeclared

/-- What is wrong with a call is about the function or about a variable among the arguments. -/
theorem mem_faultsOfCall {args : List Expr} {fault : Fault} (h : fault ∈ c.faultsOfCall name args) :
    (fault.functionName? = some name ∧ fault.variableName? = none) ∨
      ∃ x type, .var x type ∈ args ∧ fault = .readUndeclared x := by
  unfold faultsOfCall at h
  cases hfunction : c.symbols.function name with
  | none =>
    rw [hfunction] at h
    obtain rfl := List.mem_singleton.mp h
    exact .inl ⟨rfl, rfl⟩
  | some signature =>
    rw [hfunction] at h
    dsimp only at h
    split_ifs at h
    · obtain rfl := List.mem_singleton.mp h
      exact .inl ⟨rfl, rfl⟩
    · obtain h | h := List.mem_append.mp h
      · exact .inr (mem_readFaults h)
      · obtain ⟨i, -, hi⟩ := List.mem_filterMap.mp h
        obtain ⟨e, -, hi⟩ := Option.bind_eq_some_iff.mp hi
        obtain ⟨param, -, hi⟩ := Option.bind_eq_some_iff.mp hi
        split_ifs at hi
        obtain rfl := Option.some.inj hi
        exact .inl ⟨rfl, rfl⟩

/-- **A call** that has just been read is where its reports point. -/
theorem Sited.call {read : List Located} {args : List Expr} (htokens : tokens = read ++ rest)
    (h : c.Sited tokens rest) (hname : ⟨.identifier name, line⟩ ∈ tokens)
    (hcall : CallIn read line args) : (c.call name args line).Sited tokens rest := by
  obtain ⟨read', htokens', hreports⟩ := h
  obtain rfl : read' = read := List.append_cancel_right (htokens'.symm.trans htokens)
  refine ⟨read', htokens', fun r hr => ?_⟩
  rw [reports_call] at hr
  obtain hr | hr := List.mem_append.mp hr
  · exact hreports r hr
  · obtain ⟨fault, hfault, rfl⟩ := List.mem_map.mp hr
    rintro _ ⟨⟩
    obtain ⟨hfunction, hvariable⟩ | ⟨x, type, hx, rfl⟩ := mem_faultsOfCall hfault
    · refine ⟨fun f hf => ?_, fun x hx => ?_⟩
      · obtain rfl : name = f := Option.some.inj (hfunction.symm.trans hf)
        exact hname
      · rw [hvariable] at hx
        cases hx
    · refine ⟨fun f hf => ?_, fun y hy => .inr ⟨args, type, ?_, hcall⟩⟩
      · cases hf
      · obtain rfl : x = y := Option.some.inj hy
        exact hx

end Checker

/-! ### Parsers -/

namespace Parser

variable {α β : Type} {tokens : List Located} {s : ParseState}

/-- What comes out of a run has its reports located. If it fails at a token, they are located in
front of that token. -/
inductive Locating (tokens : List Located) : EStateM.Result ParseError ParseState α → Prop
  | ok {a : α} {s : ParseState} (h : s.checker.Sited tokens s.unread) : Locating tokens (.ok a s)
  | atEnd {e : ParseError} {s : ParseState} {rest : List Located}
      (hcause : e.cause = .unexpectedEnd) (h : s.checker.Sited tokens rest) :
      Locating tokens (.error e s)
  | atToken {e : ParseError} {s : ParseState} (t : Located)
      (h : s.checker.Sited tokens (t :: (s.past e.cause).unread)) : Locating tokens (.error e s)

/-- A run from the state locates its reports among the tokens, if those in front are located. -/
def LocatesFrom (tokens : List Located) (s : ParseState) (p : Parser α) : Prop :=
  s.checker.Sited tokens s.unread → Locating tokens (p s)

/-- All runs locate their reports. -/
def Locates (tokens : List Located) (p : Parser α) : Prop :=
  ∀ s, LocatesFrom tokens s p

/-- **Sequences.** The second parser may rely on what the first one has read. -/
theorem LocatesFrom.bind {p : Parser α} {f : α → Parser β} (h : LocatesFrom tokens s p)
    (hf : ∀ a s₁, p s = .ok a s₁ → LocatesFrom tokens s₁ (f a)) :
    LocatesFrom tokens s (p >>= f) := by
  intro hs
  have hp := h hs
  rw [bind_apply]
  cases hrun : p s with
  | ok a s₁ =>
    rw [hrun] at hp
    cases hp with
    | ok hs₁ => exact hf a s₁ hrun hs₁
  | error e s₁ =>
    rw [hrun] at hp
    cases hp with
    | atEnd hcause hs₁ => exact .atEnd hcause hs₁
    | atToken t hs₁ => exact .atToken t hs₁

namespace Locates

/-- Sequences locate their reports if their parts do. -/
private theorem bind {p : Parser α} {f : α → Parser β} (h : Locates tokens p)
    (hf : ∀ a, Locates tokens (f a)) : Locates tokens (p >>= f) := fun s =>
  (h s).bind fun a s₁ _ => hf a s₁

private theorem pure (a : α) : Locates tokens (Pure.pure a : Parser α) := fun _ hs =>
  .ok hs

private theorem bounded {p : Nat → Parser α} (h : ∀ n, Locates tokens (p n)) :
    Locates tokens (bounded p) := fun s hs =>
  h s.unread.length s hs

/-! ### Single tokens -/

private theorem failAtEnd : Locates tokens (failAtEnd : Parser α) := fun _ hs =>
  .atEnd rfl hs

private theorem peek : Locates tokens peek := fun _ hs =>
  .ok hs

/-- A token, and what follows it. -/
theorem take_bind {read : Token → Option α} {cause : Token → ParseError.Cause}
    {f : α × Nat → Parser β}
    (hf : ∀ {s w a line}, read w = some a → (∃ front, tokens = front ++ ⟨w, line⟩ :: s.unread) →
      LocatesFrom tokens s (f (a, line))) :
    Locates tokens (take read cause >>= f) := by
  rintro ⟨unread, last, c⟩ hs
  cases unread with
  | nil =>
    rw [bind_apply, take_nil]
    exact .atEnd rfl hs
  | cons t rest =>
    cases hread : read t.token with
    | none =>
      rw [bind_apply, take_cons_of_none _ _ hread]
      refine .atToken t ?_
      cases hahead : (cause t.token).ahead with
      | true =>
        rw [if_pos rfl, ParseState.past_of_ahead hahead]
        exact hs
      | false =>
        rw [if_neg (by simp), ParseState.past_of_not_ahead hahead]
        exact hs
    | some a =>
      rw [bind_apply, take_cons_of_some _ _ hread]
      obtain ⟨front, htokens, -⟩ := id hs
      exact hf hread ⟨front, htokens⟩ hs.tail

/-- A token that is read adds no report. -/
private theorem next : Locates tokens next := by
  rw [next_eq_take]
  exact take_bind fun _ _ => pure _ _

private theorem expect (w : Token) : Locates tokens (expect w) := by
  rw [expect_eq_take]
  exact take_bind fun _ _ => pure _ _

private theorem typeSpecifier : Locates tokens typeSpecifier := by
  rw [typeSpecifier_eq_take]
  exact take_bind fun _ _ => pure _ _

private theorem unexpected : Locates tokens (unexpected : Parser α) := by
  rw [unexpected_eq_take]
  exact take_bind fun h => by cases h

/-- A name, and what follows it. -/
theorem identifier_bind {f : String × Nat → Parser β}
    (hf : ∀ {s name line}, (∃ front, tokens = front ++ ⟨.identifier name, line⟩ :: s.unread) →
      LocatesFrom tokens s (f (name, line))) :
    Locates tokens (identifier >>= f) := by
  rw [identifier_eq_take, bind_pure]
  refine take_bind fun {s w name line} hread hfront => ?_
  cases w with
  | identifier name' =>
    obtain rfl : name' = name := Option.some.inj hread
    exact hf hfront
  | _ => cases hread

private theorem skipIf (w : Token) : Locates tokens (skipIf w) := by
  rintro ⟨unread, last, c⟩ hs
  cases unread with
  | nil => exact .ok hs
  | cons t rest =>
    by_cases hw : t.token = w
    · have hrun : Parser.skipIf w ⟨t :: rest, last, c⟩ = .ok true ⟨rest, t.line, c⟩ := by
        simp [Parser.skipIf, hw]
      rw [hrun]
      exact .ok hs.tail
    · have hrun : Parser.skipIf w ⟨t :: rest, last, c⟩ = .ok false ⟨t :: rest, last, c⟩ := by
        simp [Parser.skipIf, hw]
      rw [hrun]
      exact .ok hs

/-! ### The checker -/

/-- What the checker is asked must keep the reports sited. -/
private theorem ask {g : Checker → α × Checker}
    (h : ∀ {c rest}, c.Sited tokens rest → (g c).2.Sited tokens rest) :
    Locates tokens (ask g) := fun _ hs =>
  .ok (h hs)

/-- What the checker is told must keep the reports sited. -/
private theorem tell {g : Checker → Checker}
    (h : ∀ {c rest}, c.Sited tokens rest → (g c).Sited tokens rest) :
    Locates tokens (tell g) := fun _ hs =>
  .ok (h hs)

/-- The checker is told something that it does not report on. -/
theorem tell_silent {g : Checker → Checker} (h : ∀ c, (g c).reports = c.reports) :
    Locates tokens (Parser.tell g) :=
  tell fun {c _} hs => hs.of_reports (h c)

private theorem declare (name : String) (type : Ty) :
    Locates tokens (Parser.tell (·.declare name type)) :=
  tell_silent fun _ => rfl

end Locates

/-! ### Expressions and lists -/

private theorem operand_locates {inner : Parser Expr} (h : Locates tokens inner) :
    Locates tokens (operand inner) := by
  rw [operand_eq_take]
  refine Locates.take_bind fun {s w lead line} hlead hfront => ?_
  cases w with
  | identifier name =>
    cases hlead
    have hname : ⟨.identifier name, line⟩ ∈ tokens := by
      obtain ⟨front, htokens⟩ := hfront
      simp [htokens]
    exact (Locates.ask fun hs => hs.typeOf hname).bind (fun type => .pure _) s
  | intLit value =>
    cases hlead
    exact Locates.pure _ s
  | floatLit value =>
    cases hlead
    exact Locates.pure _ s
  | openParen =>
    cases hlead
    exact h.bind (fun e => (Locates.expect _).bind fun _ => .pure _) s
  | _ => cases hlead

/-- The loop over the operators locates its reports, if its right-hand sides do. -/
private theorem operators_locates {rhs : Nat → Parser Expr} (h : ∀ m, Locates tokens (rhs m))
    (least k : Nat) (lhs : Expr) : Locates tokens (operators rhs least k lhs) := by
  induction k generalizing lhs with
  | zero => exact .pure lhs
  | succ k ih =>
    refine Locates.peek.bind fun o => ?_
    split
    · exact .pure lhs
    · split
      · exact .pure lhs
      · exact Locates.next.bind fun _ => (h _).bind fun right => ih _

/-- Expressions locate their reports within every bound. -/
private theorem expressionWithin_locates (n least : Nat) :
    Locates tokens (expressionWithin n least) := by
  induction n generalizing least with
  | zero => exact .failAtEnd
  | succ n ih => exact (operand_locates (ih 0)).bind fun lhs => operators_locates ih _ _ _

private theorem expression_locates : Locates tokens expression :=
  .bounded fun n => expressionWithin_locates n 0

private theorem commaSeparated_locates {item : Parser α} (h : Locates tokens item) (n : Nat) :
    Locates tokens (commaSeparated item n) := by
  induction n with
  | zero => exact .failAtEnd
  | succ n ih =>
    refine h.bind fun first => (Locates.skipIf _).bind fun b => ?_
    cases b with
    | true => exact ih.bind fun others => .pure _
    | false => exact .pure _

private theorem listInParens_locates {item : Parser α} (h : Locates tokens item) :
    Locates tokens (listInParens item) := by
  refine Locates.peek.bind fun o => ?_
  split
  · exact (Locates.pure []).bind fun items => (Locates.expect _).bind fun _ => .pure _
  · exact (Locates.bounded fun n => commaSeparated_locates h n).bind fun items =>
      (Locates.expect _).bind fun _ => .pure _

private theorem parameter_locates : Locates tokens parameter :=
  Locates.typeSpecifier.bind fun _ => Locates.identifier_bind fun _ => Locates.pure _ _

/-! ### Statements without blocks -/

/-- The name of the variable has been read on its line, which is where an assignment would be
reported. -/
private theorem variableTail_locates (type : Ty) {name : String} {line : Nat}
    (hname : ⟨.identifier name, line⟩ ∈ tokens) :
    Locates tokens (variableTail type name line) := by
  refine (Locates.skipIf _).bind fun b => ?_
  cases b with
  | true =>
    exact expression_locates.bind fun init => (Locates.declare name type).bind fun _ =>
      (Locates.tell fun hs => hs.assign hname).bind fun _ => .pure _
  | false => exact (Locates.declare name type).bind fun _ => .pure _

/-- A call whose name has just been read. The arguments are a reading of the tokens up to the
closing parenthesis, so that the call is among those read by the time the checker hears of it. -/
theorem call_locates {name : String} {line : Nat}
    (hfront : ∃ front, tokens = front ++ ⟨.identifier name, line⟩ :: s.unread) :
    LocatesFrom tokens s (do
      expect .openParen
      let args ← listInParens expression
      tell (·.call name args line)
      pure (Stmt.call name args)) := by
  refine (Locates.expect _ s).bind fun _ s₁ hopen =>
    (listInParens_locates expression_locates s₁).bind fun args s₂ hargs hs => ?_
  obtain ⟨front, htokens⟩ := hfront
  obtain ⟨opening, hreads, -⟩ := expect_eq_ok hopen
  obtain ⟨ts, hreads', hlist⟩ := listInParens_sound expression_sound s₁ args s₂ hargs
  have hread : tokens =
      front ++ (⟨.identifier name, line⟩ :: ⟨.openParen, opening⟩ :: ts) ++ s₂.unread := by
    rw [htokens, hreads.unread_eq, hreads'.unread_eq]
    simp
  have hcall : CallIn (front ++ (⟨.identifier name, line⟩ :: ⟨.openParen, opening⟩ :: ts)) line
      args :=
    ⟨name, front, ⟨.identifier name, line⟩ :: ⟨.openParen, opening⟩ :: ts, [], _, _, by simp, rfl,
      .call hlist⟩
  exact .ok (hs.call hread (by simp [htokens]) hcall)

/-- The name of the target has just been read, and the call has been read to its end. -/
private theorem assignOrCall_locates : Locates tokens assignOrCall := by
  refine Locates.identifier_bind fun {s name line} hfront => ?_
  refine (Locates.peek s).bind fun o s₁ hpeek => ?_
  obtain rfl : s = s₁ := by
    cases hpeek
    rfl
  have hname : ⟨.identifier name, line⟩ ∈ tokens := by
    obtain ⟨front, htokens⟩ := hfront
    simp [htokens]
  split
  · exact (Locates.expect _).bind (fun _ => expression_locates.bind fun value =>
      (Locates.tell fun hs => hs.assign hname).bind fun _ => .pure _) s
  · exact call_locates hfront
  · exact Locates.unexpected s

private theorem simpleStatement_locates : Locates tokens simpleStatement := by
  have hvariable : Locates tokens
      (typeSpecifier >>= fun type => identifier >>= fun x => variableTail type x.1 x.2) := by
    refine Locates.typeSpecifier.bind fun type => Locates.identifier_bind fun {s _ _} hfront => ?_
    obtain ⟨front, htokens⟩ := hfront
    exact variableTail_locates type (by simp [htokens]) s
  refine Locates.peek.bind fun o => ?_
  split
  · exact assignOrCall_locates
  · exact hvariable
  · exact hvariable
  · exact .unexpected

private theorem condition_locates : Locates tokens condition :=
  (Locates.expect _).bind fun _ => expression_locates.bind fun _ =>
    (Locates.expect _).bind fun _ => .pure _

private theorem returnStatement_locates : Locates tokens returnStatement :=
  (Locates.expect _).bind fun _ => expression_locates.bind fun _ =>
    (Locates.expect _).bind fun _ => .pure _

/-! ### Statements with blocks -/

section Blocks

variable {block : Parser (List Stmt)}

private theorem functionTail_locates (h : Locates tokens block) (type : Ty) (name : String) :
    Locates tokens (functionTail block type name) :=
  (Locates.expect _).bind fun _ => (listInParens_locates parameter_locates).bind fun params =>
    (Locates.tell_silent (g := (·.declareFunction name type params)) fun _ => rfl).bind fun _ =>
      h.bind fun _ => .pure _

private theorem declaration_locates (h : Locates tokens block) :
    Locates tokens (declaration block) := by
  refine Locates.typeSpecifier.bind fun type =>
    Locates.identifier_bind fun {s name line} hfront => ?_
  obtain ⟨front, htokens⟩ := hfront
  refine Locates.peek.bind (fun o => ?_) s
  split
  · exact functionTail_locates h type name
  · exact (variableTail_locates type (by simp [htokens])).bind fun st =>
      (Locates.expect _).bind fun _ => .pure _

private theorem ifStatement_locates (h : Locates tokens block) :
    Locates tokens (ifStatement block) := by
  refine (Locates.expect _).bind fun _ => condition_locates.bind fun e => h.bind fun body =>
    (Locates.skipIf _).bind fun b => ?_
  cases b with
  | true => exact h.bind fun otherwise => .pure _
  | false => exact .pure _

private theorem whileStatement_locates (h : Locates tokens block) :
    Locates tokens (whileStatement block) :=
  (Locates.expect _).bind fun _ => condition_locates.bind fun _ => h.bind fun _ => .pure _

private theorem forStatement_locates (h : Locates tokens block) :
    Locates tokens (forStatement block) :=
  (Locates.expect _).bind fun _ => (Locates.expect _).bind fun _ =>
    (Locates.tell_silent (g := Checker.openScope) fun _ => rfl).bind fun _ =>
    simpleStatement_locates.bind fun _ => (Locates.expect _).bind fun _ =>
    expression_locates.bind fun _ => (Locates.expect _).bind fun _ =>
    simpleStatement_locates.bind fun _ => (Locates.expect _).bind fun _ =>
    h.bind fun _ => (Locates.tell_silent Checker.reports_closeScope).bind fun _ => .pure _

/-- A statement of every kind locates its reports, if blocks do. -/
private theorem statementOver_locates (h : Locates tokens block) :
    Locates tokens (statementOver block) := by
  refine Locates.peek.bind fun o => ?_
  split
  · exact declaration_locates h
  · exact declaration_locates h
  · exact assignOrCall_locates.bind fun st => (Locates.expect _).bind fun _ => .pure _
  · exact returnStatement_locates
  · exact ifStatement_locates h
  · exact whileStatement_locates h
  · exact forStatement_locates h
  · exact .unexpected

end Blocks

/-! ### Bodies and programs -/

private theorem untilBrace_locates {statement : Parser Stmt} (h : Locates tokens statement)
    (n : Nat) :
    Locates tokens (untilBrace statement n) := by
  induction n with
  | zero => exact .failAtEnd
  | succ n ih =>
    refine (Locates.skipIf _).bind fun b => ?_
    cases b with
    | true => exact .pure _
    | false => exact h.bind fun first => ih.bind fun rest => .pure _

private theorem blockOf_locates {statement : Parser Stmt} (h : Locates tokens statement) :
    Locates tokens (blockOf statement) :=
  (Locates.expect _).bind fun _ =>
    (Locates.tell_silent (g := Checker.openScope) fun _ => rfl).bind fun _ =>
    (Locates.bounded fun n => untilBrace_locates h n).bind fun _ =>
    (Locates.tell_silent Checker.reports_closeScope).bind fun _ => .pure _

/-- Statements locate their reports within every bound. -/
private theorem statementWithin_locates (n : Nat) : Locates tokens (statementWithin n) := by
  induction n with
  | zero => exact .failAtEnd
  | succ n ih => exact statementOver_locates (blockOf_locates ih)

/-- **The statements up to the end locate their reports.** -/
private theorem untilEnd_locates (n : Nat) : Locates tokens (untilEnd n) := by
  induction n with
  | zero => exact .pure _
  | succ n ih =>
    refine Locates.peek.bind fun o => ?_
    split
    · exact .pure _
    · exact (Locates.bounded statementWithin_locates).bind fun first => ih.bind fun rest => .pure _

/-- **The parser locates its reports**, whether it succeeds or fails. -/
theorem program_locates : Locates tokens program :=
  (Locates.bounded untilEnd_locates).bind fun body =>
    (Locates.tell_silent (g := (·.note (.parsed body.length))) fun _ => rfl).bind fun _ => .pure _

end Parser

/-! ### Compilations -/

/-- A part of a viable prefix is one. -/
theorem Grammar.Viable.of_append {L : Language Token} {us vs : List Token}
    (h : Viable L (us ++ vs)) : Viable L us := by
  obtain ⟨ws, hws⟩ := h
  exact ⟨vs ++ ws, by rwa [← List.append_assoc]⟩

/-- Among the tokens is a call with the arguments `args`, its name on the given line; and up to its
closing parenthesis the tokens are the beginning of a program. -/
def CallOn (tokens : List Located) (line : Nat) (args : List Expr) : Prop :=
  ∃ name before call after c c', tokens = before ++ call ++ after ∧
    Viable (language [.phrase .program]) (words (before ++ call)) ∧
    call.head? = some ⟨.identifier name, line⟩ ∧ ReadsSimple call c (.call name args) c'

/-- If what has been read is the beginning of a program, it is so up to each of its calls. -/
private theorem CallIn.callOn {read rest : List Located} {line : Nat} {args : List Expr}
    (h : CallIn read line args) (hviable : Viable (language [.phrase .program]) (words read)) :
    CallOn (read ++ rest) line args := by
  obtain ⟨name, before, call, after, c, c', rfl, hhead, hreads⟩ := h
  refine ⟨name, before, call, after ++ rest, c, c', by simp, ?_, hhead, hreads⟩
  rw [words, List.map_append] at hviable
  exact hviable.of_append

/-- What a parse reports is located among tokens that are the beginning of a program. -/
theorem exists_viable_placed {tokens : List Located} {c : Checker} (hc : c.Sited tokens tokens) :
    ∃ read rest, tokens = read ++ rest ∧ Viable (language [.phrase .program]) (words read) ∧
      ∀ r ∈ (parse tokens c).2.reports, r.Placed tokens read := by
  have hlocating := Parser.program_locates ⟨tokens, 1, c⟩ hc
  have hrecognises := Parser.program_recognises (n := tokens.length)
  unfold parse
  cases hrun : Parser.program ⟨tokens, 1, c⟩ with
  | ok p s =>
    rw [hrun] at hlocating
    obtain ⟨ts, hts, hword⟩ := hrecognises.ok (Nat.le_refl _) hrun
    cases hlocating with
    | ok h =>
      obtain ⟨read, htokens, hplaced⟩ := h
      obtain rfl : ts = read := List.append_cancel_right (hts.unread_eq.symm.trans htokens)
      exact ⟨ts, s.unread, htokens, .of_mem hword, hplaced⟩
  | error e s =>
    rw [hrun] at hlocating
    have hblames := hrecognises.error (Nat.le_refl _) hrun
    have hall {read rest : List Located} (htokens : tokens = read ++ rest)
        (hviable : Viable (language [.phrase .program]) (words tokens)) :
        Viable (language [.phrase .program]) (words read) := by
      rw [htokens, words, List.map_append] at hviable
      exact hviable.of_append
    cases hlocating with
    | atEnd hcause h =>
      obtain ⟨read, htokens, hplaced⟩ := h
      cases hblames with
      | atEnd _ hviable => exact ⟨read, _, htokens, hall htokens hviable, hplaced⟩
      | atToken _ _ _ hgot => simp [hcause, ParseError.Cause.got?] at hgot
    | atToken t h =>
      obtain ⟨read, htokens, hplaced⟩ := h
      cases hblames with
      | atEnd _ hviable => exact ⟨read, _, htokens, hall htokens hviable, hplaced⟩
      | atToken ts t' hread _ hviable =>
        obtain ⟨rfl, -⟩ := List.append_inj' (hread.symm.trans htokens) rfl
        exact ⟨ts, _, htokens, hviable, hplaced⟩

/-- A checker that has recorded a scan has nothing to say about names yet. -/
theorem Checker.sited_recordScan (source : String) (options : Options) :
    (Checker.recordScan { options } (scan source)).reports = (scan source).reports ∧
      (Checker.recordScan { options } (scan source)).Sited (scan source).tokens
        (scan source).tokens := by
  have hreports : (Checker.recordScan { options } (scan source)).reports =
      (scan source).reports := by
    rw [recordScan, foldl_record]
    rfl
  refine ⟨hreports, [], rfl, fun r hr fault hfault => ?_⟩
  have hkind := ((lines_scan source).2.1 r (hreports ▸ hr)).1
  rw [hfault] at hkind
  cases hkind

/-- Behind the reports of its scan, a compilation reports misuses of names only, and all of them are
located among tokens that are the beginning of a program. -/
theorem reports_compile_eq (source : String) (options : Options) :
    ∃ semantic read rest, (compile source options).reports = (scan source).reports ++ semantic ∧
      (scan source).tokens = read ++ rest ∧
      Viable (language [.phrase .program]) (words read) ∧
      ∀ r ∈ semantic, r.Placed (read ++ rest) read ∧ ∃ fault, r.problem = .misuse fault := by
  obtain ⟨hstart, hsited⟩ := Checker.sited_recordScan source options
  obtain ⟨read, rest, hread, hviable, hplaced⟩ := exists_viable_placed hsited
  obtain ⟨semantic, hadded, hsemantic⟩ :=
    (deepens_parse (scan source).tokens (Checker.recordScan { options } (scan source))).adds
  refine ⟨semantic, read, rest, ?_, hread, hviable, fun r hr => ⟨?_, ?_⟩⟩
  · rw [reports_compile, hadded, hstart]
  · rw [← hread]
    exact hplaced r (hadded ▸ List.mem_append_right _ hr)
  · have hkind := hsemantic r hr
    cases hproblem : r.problem with
    | misuse fault => exact ⟨fault, rfl⟩
    | _ => simp [hproblem, Problem.kind] at hkind

/-- **Diagnostics are in order and point at their cause**, whatever the outcome of the parse. First
come those of the text itself, line by line, then those on names. All lines are lines of the text.
A diagnostic on a function is on the line of a token that is its name. A diagnostic on a variable
is on the line of a token that is its name, or of the name of a call that has the variable itself
as an argument. -/
theorem compile_diagnostics_located (source : String) (options : Options) :
    ∃ lexical semantic : List Report,
      (compile source options).diagnostics = (lexical ++ semantic).map Report.diagnostic ∧
      (∀ r ∈ lexical, r.diagnostic.kind = .lexical) ∧
      lexical.Pairwise (fun r r' => r.line ≤ r'.line) ∧
      (∀ d ∈ (compile source options).diagnostics,
        1 ≤ d.line ∧ d.line ≤ 1 + source.toList.count '\n') ∧
      ∀ r ∈ semantic, ∃ fault, r.problem = .misuse fault ∧
        (∀ f, fault.functionName? = some f → ⟨.identifier f, r.line⟩ ∈ (scan source).tokens) ∧
        ∀ x, fault.variableName? = some x →
          ⟨.identifier x, r.line⟩ ∈ (scan source).tokens ∨
            ∃ args type, .var x type ∈ args ∧ CallOn (scan source).tokens r.line args := by
  obtain ⟨htokens, hreports, hpairwise⟩ := lines_scan source
  obtain ⟨semantic, read, rest, hall, hread, hviable, hsemantic⟩ :=
    reports_compile_eq source options
  rw [hread] at htokens ⊢
  have hdiagnostics : (compile source options).diagnostics =
      ((scan source).reports ++ semantic).map Report.diagnostic := by
    rw [Compilation.diagnostics, hall]
  refine ⟨(scan source).reports, semantic, hdiagnostics, fun r hr => (hreports r hr).1, hpairwise,
    fun d hd => ?_, fun r hr => ?_⟩
  · rw [hdiagnostics] at hd
    obtain ⟨r, hr, rfl⟩ := List.mem_map.mp hd
    obtain hr | hr := List.mem_append.mp hr
    · exact (hreports r hr).2
    · -- a misuse is on the line of a token
      obtain ⟨hplaced, fault, hfault⟩ := hsemantic r hr
      obtain ⟨t, ht, hline⟩ := hplaced.exists_token hfault
      have hbounds := htokens t ht
      rwa [hline] at hbounds
  · obtain ⟨hplaced, fault, hfault⟩ := hsemantic r hr
    refine ⟨fault, hfault, (hplaced fault hfault).1, fun x hx => ?_⟩
    obtain hname | ⟨args, type, hmem, hcall⟩ := (hplaced fault hfault).2 x hx
    · exact .inl hname
    · exact .inr ⟨args, type, hmem, hcall.callOn hviable⟩

/-- An undeclared argument is reported at its name, and then twice more at the name of the call: as
undeclared, and as of an unknown type. -/
example :
    (compile "int f(int a) \x7b \x7d\nf(\nx);" {}).reports =
      [⟨3, .misuse (.readUndeclared "x")⟩, ⟨2, .misuse (.readUndeclared "x")⟩,
        ⟨2, .misuse (.argumentType "f" 1 .int .unknown)⟩] := by
  decide +kernel

end TinyImp
