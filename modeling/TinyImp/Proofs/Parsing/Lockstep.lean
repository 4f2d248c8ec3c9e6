import Mathlib.Data.List.Forall2
import TinyImp.Proofs.Parsing.Completeness

/-!
# Two checkers behind one parser

The parser asks its checker for types only, and puts them into the tree without looking at them. So
two checkers that hear of the same text can be compared step by step. A **coupling** is a relation
between two checkers, and one between the expressions that are built with their answers, that every
operation of the checker keeps. Two runs of the parser over the same tokens with coupled checkers
are then **in lockstep** (`Parser.Lockstep`): they fail with the same error or succeed with coupled
expressions, the same tokens are left, and the checkers are coupled again. A failed run counts as
much as a successful one.
-/

namespace TinyImp

/-- **A coupling** of two checkers: what they have in common is kept by every operation, and so is
what the expressions have in common that are built on the way. A function is declared with
parameters of the two types that can be written. -/
structure Coupling where
  checkers : Checker → Checker → Prop
  exprs : Expr → Expr → Prop
  const (value : Const) : exprs (.const value) (.const value)
  apply (op : BinaryOp) {lhs lhs' rhs rhs' : Expr} (hlhs : exprs lhs lhs')
    (hrhs : exprs rhs rhs') : exprs (op.apply lhs rhs) (op.apply lhs' rhs')
  typeOf {c d : Checker} (h : checkers c d) (name : String) (line : Nat) :
    exprs (.var name (c.typeOf name line).1) (.var name (d.typeOf name line).1) ∧
      checkers (c.typeOf name line).2 (d.typeOf name line).2
  declare {c d : Checker} (h : checkers c d) (name : String) (type : Ty) :
    checkers (c.declare name type) (d.declare name type)
  assign {c d : Checker} (h : checkers c d) (name : String) (line : Nat) :
    checkers (c.assign name line) (d.assign name line)
  call {c d : Checker} (h : checkers c d) (name : String) {args args' : List Expr}
    (hargs : List.Forall₂ exprs args args') (line : Nat) :
    checkers (c.call name args line) (d.call name args' line)
  declareFunction {c d : Checker} (h : checkers c d) (name : String) (type : Ty)
    {params : List Param} (hparams : ∀ p ∈ params, p.type = .int ∨ p.type = .float) :
    checkers (c.declareFunction name type params) (d.declareFunction name type params)
  openScope {c d : Checker} (h : checkers c d) : checkers c.openScope d.openScope
  closeScope {c d : Checker} (h : checkers c d) : checkers c.closeScope d.closeScope
  note {c d : Checker} (h : checkers c d) (event : Event) :
    checkers (c.note event) (d.note event)

namespace Parser

variable {α β : Type} {K : Coupling}

/-- The two outcomes are the same but for the values, which are related, and for the checkers, which
are coupled. -/
inductive Agree (K : Coupling) (R : α → α → Prop) :
    EStateM.Result ParseError ParseState α → EStateM.Result ParseError ParseState α → Prop
  | ok {a a' : α} {unread : List Located} {last : Nat} {c d : Checker} (hvalue : R a a')
      (hcheckers : K.checkers c d) : Agree K R (.ok a ⟨unread, last, c⟩) (.ok a' ⟨unread, last, d⟩)
  | error {e : ParseError} {unread : List Located} {last : Nat} {c d : Checker}
      (hcheckers : K.checkers c d) :
      Agree K R (.error e ⟨unread, last, c⟩) (.error e ⟨unread, last, d⟩)

/-- Over the same tokens and with coupled checkers, the two parsers have outcomes that agree. -/
def Lockstep (K : Coupling) (R : α → α → Prop) (p p' : Parser α) : Prop :=
  ∀ (unread : List Located) (last : Nat) {c d : Checker}, K.checkers c d →
    Agree K R (p ⟨unread, last, c⟩) (p' ⟨unread, last, d⟩)

/-- The two values need not have anything in common. -/
abbrev Unrelated (_ _ : α) : Prop := True

/-! ### Rules -/

namespace Lockstep

variable {R : α → α → Prop} {R' : β → β → Prop} {p p' : Parser α}

/-- Related values are returned in lockstep. -/
private theorem pure {a a' : α} (h : R a a') : Lockstep K R (Pure.pure a) (Pure.pure a') :=
  fun _ _ _ _ hcheckers => .ok h hcheckers

/-- **Sequences go in lockstep** if their parts do, the second ones after related results. -/
private theorem bind {f f' : α → Parser β} (h : Lockstep K R p p')
    (hf : ∀ {a a'}, R a a' → Lockstep K R' (f a) (f' a')) :
    Lockstep K R' (p >>= f) (p' >>= f') := by
  intro unread last c d hcheckers
  have hfirst := h unread last hcheckers
  rw [bind_apply, bind_apply]
  generalize p ⟨unread, last, c⟩ = outcome, p' ⟨unread, last, d⟩ = outcome' at hfirst
  cases hfirst with
  | ok hvalue hcheckers' => exact hf hvalue _ _ hcheckers'
  | error hcheckers' => exact .error hcheckers'

/-- Behind a value that is the same in both runs. -/
theorem bind_eq {f f' : α → Parser β} (h : Lockstep K Eq p p')
    (hf : ∀ a, Lockstep K R' (f a) (f' a)) : Lockstep K R' (p >>= f) (p' >>= f') := by
  refine h.bind fun {a a'} heq => ?_
  subst heq
  exact hf a

private theorem bounded {p p' : Nat → Parser α} (h : ∀ n, Lockstep K R (p n) (p' n)) :
    Lockstep K R (bounded p) (Parser.bounded p') :=
  fun unread last _ _ hcheckers => h unread.length unread last hcheckers

/-! ### Single tokens -/

private theorem failAtEnd : Lockstep K R failAtEnd Parser.failAtEnd :=
  fun _ _ _ _ hcheckers => .error hcheckers

private theorem failAt (t : Located) (cause : Token → ParseError.Cause) :
    Lockstep K R (failAt t cause) (Parser.failAt t cause) :=
  fun _ _ _ _ hcheckers => .error hcheckers

/-- Both read the same token, since they have the same ones left. -/
private theorem next : Lockstep K Eq next Parser.next := by
  intro unread last c d hcheckers
  cases unread with
  | nil => exact .error hcheckers
  | cons t rest => exact .ok rfl hcheckers

private theorem peek : Lockstep K Eq peek Parser.peek :=
  fun _ _ _ _ hcheckers => .ok rfl hcheckers

private theorem skipIf (w : Token) : Lockstep K Eq (skipIf w) (Parser.skipIf w) := by
  intro unread last c d hcheckers
  cases unread with
  | nil => exact .ok rfl hcheckers
  | cons t rest =>
    unfold Parser.skipIf
    dsimp only
    split
    · exact .ok rfl hcheckers
    · exact .ok rfl hcheckers

private theorem expect (w : Token) : Lockstep K Eq (expect w) (Parser.expect w) := by
  refine next.bind_eq fun t => ?_
  split
  · exact pure rfl
  · exact failAt _ _

private theorem identifier : Lockstep K Eq identifier Parser.identifier := by
  refine next.bind_eq fun t => ?_
  split
  · exact pure rfl
  · exact failAt _ _

/-- The types that can be written are `int` and `float`. -/
theorem typeSpecifier :
    Lockstep K (fun type type' => type' = type ∧ (type = .int ∨ type = .float))
      typeSpecifier Parser.typeSpecifier := by
  refine next.bind_eq fun t => ?_
  cases htype : t.token.type? with
  | none => exact failAt _ _
  | some type =>
    refine pure ⟨rfl, ?_⟩
    obtain hw | hw := Token.type?_eq_some htype
    · rw [hw] at htype
      exact .inl (Option.some.inj htype).symm
    · rw [hw] at htype
      exact .inr (Option.some.inj htype).symm

private theorem reject (cause : Token → ParseError.Cause) :
    Lockstep K R (reject cause) (Parser.reject cause) := by
  intro unread last c d hcheckers
  cases unread with
  | nil => exact .error hcheckers
  | cons t rest => exact .error hcheckers

private theorem unexpected : Lockstep K R unexpected Parser.unexpected :=
  reject _

/-! ### The checker -/

/-- What the checkers are told has to keep them related. -/
private theorem tell {f f' : Checker → Checker}
    (h : ∀ {c d}, K.checkers c d → K.checkers (f c) (f' d)) :
    Lockstep K Eq (tell f) (Parser.tell f') :=
  fun _ _ _ _ hcheckers => .ok rfl (h hcheckers)

/-- What the checkers answer has to be related, and so have the checkers behind it. -/
private theorem ask {f f' : Checker → α × Checker}
    (h : ∀ {c d}, K.checkers c d → R (f c).1 (f' d).1 ∧ K.checkers (f c).2 (f' d).2) :
    Lockstep K R (ask f) (Parser.ask f') :=
  fun _ _ _ _ hcheckers => .ok (h hcheckers).1 (h hcheckers).2

end Lockstep

/-! ### Expressions and lists -/

/-- A variable is the only operand whose type the checkers are asked for. -/
private theorem operand_lockstep {inner : Parser Expr} (h : Lockstep K K.exprs inner inner) :
    Lockstep K K.exprs (operand inner) (operand inner) := by
  refine Lockstep.peek.bind_eq fun o => ?_
  split
  · refine Lockstep.identifier.bind_eq fun target => ?_
    exact (Lockstep.ask (R := fun type type' => K.exprs (.var target.1 type) (.var target.1 type'))
      fun hcheckers => K.typeOf hcheckers target.1 target.2).bind fun hvar => .pure hvar
  · exact Lockstep.next.bind_eq fun _ => .pure (K.const _)
  · exact Lockstep.next.bind_eq fun _ => .pure (K.const _)
  · exact (Lockstep.expect _).bind_eq fun _ => h.bind fun he =>
      (Lockstep.expect _).bind_eq fun _ => .pure he
  · exact .reject _

/-- The loop over the operators is in lockstep from related left-hand sides on. -/
private theorem operators_lockstep {rhs : Nat → Parser Expr}
    (h : ∀ m, Lockstep K K.exprs (rhs m) (rhs m))
    (least n : Nat) {lhs lhs' : Expr} (hlhs : K.exprs lhs lhs') :
    Lockstep K K.exprs (operators rhs least n lhs) (operators rhs least n lhs') := by
  induction n generalizing lhs lhs' with
  | zero => exact .pure hlhs
  | succ n ih =>
    refine Lockstep.peek.bind_eq fun o => ?_
    cases o.bind Token.operator? with
    | none => exact .pure hlhs
    | some op =>
      dsimp only
      split
      · exact .pure hlhs
      · exact Lockstep.next.bind_eq fun _ => (h _).bind fun hright => ih (K.apply op hlhs hright)

/-- Expressions are parsed in lockstep within every bound. -/
private theorem expressionWithin_lockstep (n least : Nat) :
    Lockstep K K.exprs (expressionWithin n least) (expressionWithin n least) := by
  induction n generalizing least with
  | zero => exact .failAtEnd
  | succ n ih =>
    exact (operand_lockstep (ih 0)).bind fun hlhs => operators_lockstep ih least n hlhs

private theorem expression_lockstep : Lockstep K K.exprs expression expression :=
  .bounded fun n => expressionWithin_lockstep n 0

section Lists

variable {R : α → α → Prop} {item : Parser α}

/-- Lists are related item by item. -/
private theorem commaSeparated_lockstep (h : Lockstep K R item item) (n : Nat) :
    Lockstep K (List.Forall₂ R) (commaSeparated item n) (commaSeparated item n) := by
  induction n with
  | zero => exact .failAtEnd
  | succ n ih =>
    refine h.bind fun hfirst => (Lockstep.skipIf _).bind_eq fun b => ?_
    cases b with
    | true => exact ih.bind fun hothers => .pure (.cons hfirst hothers)
    | false => exact .pure (.cons hfirst .nil)

private theorem listInParens_lockstep (h : Lockstep K R item item) :
    Lockstep K (List.Forall₂ R) (listInParens item) (listInParens item) := by
  refine Lockstep.peek.bind_eq fun o => ?_
  split
  · exact (Lockstep.pure .nil).bind fun hitems => (Lockstep.expect _).bind_eq fun _ => .pure hitems
  · exact (Lockstep.bounded (commaSeparated_lockstep h)).bind fun hitems =>
      (Lockstep.expect _).bind_eq fun _ => .pure hitems

end Lists

/-- A parameter is the same in both, and its type is one that can be written. -/
private theorem parameter_lockstep :
    Lockstep K (fun p p' => p' = p ∧ (p.type = .int ∨ p.type = .float)) parameter parameter :=
  Lockstep.typeSpecifier.bind fun ⟨htype, hwritten⟩ => Lockstep.identifier.bind_eq fun _ =>
    .pure ⟨by rw [htype], hwritten⟩

/-! ### Statements without blocks -/

/-- A first value is checked and the variable declared, in both alike. -/
private theorem variableTail_lockstep (type : Ty) (name : String) (line : Nat) :
    Lockstep K Unrelated (variableTail type name line) (variableTail type name line) := by
  refine (Lockstep.skipIf _).bind_eq fun b => ?_
  cases b with
  | true =>
    exact expression_lockstep.bind fun _ =>
      (Lockstep.tell fun h => K.declare h name type).bind_eq fun _ =>
      (Lockstep.tell fun h => K.assign h name line).bind_eq fun _ => .pure trivial
  | false => exact (Lockstep.tell fun h => K.declare h name type).bind_eq fun _ => .pure trivial

/-- The checkers are told of the assignment or of the call, whose arguments are related. -/
private theorem assignOrCall_lockstep : Lockstep K Unrelated assignOrCall assignOrCall := by
  refine Lockstep.identifier.bind_eq fun x => Lockstep.peek.bind_eq fun o => ?_
  split
  · exact (Lockstep.expect _).bind_eq fun _ => expression_lockstep.bind fun _ =>
      (Lockstep.tell fun h => K.assign h x.1 x.2).bind_eq fun _ => .pure trivial
  · exact (Lockstep.expect _).bind_eq fun _ =>
      (listInParens_lockstep expression_lockstep).bind fun hargs =>
      (Lockstep.tell fun h => K.call h x.1 hargs x.2).bind_eq fun _ => .pure trivial
  · exact .unexpected

/-- A declaration in the header of a `for` loop. -/
def headerDeclaration : Parser Stmt := do
  let type ← typeSpecifier
  let x ← identifier
  variableTail type x.1 x.2

private theorem headerDeclaration_lockstep :
    Lockstep K Unrelated headerDeclaration headerDeclaration := by
  refine Lockstep.typeSpecifier.bind fun {type type'} ⟨htype, _⟩ =>
    Lockstep.identifier.bind_eq fun x => ?_
  subst htype
  exact variableTail_lockstep _ _ _

private theorem simpleStatement_lockstep :
    Lockstep K Unrelated simpleStatement simpleStatement := by
  refine Lockstep.peek.bind_eq fun o => ?_
  split
  · exact assignOrCall_lockstep
  · exact headerDeclaration_lockstep
  · exact headerDeclaration_lockstep
  · exact .unexpected

private theorem condition_lockstep : Lockstep K K.exprs condition condition :=
  (Lockstep.expect _).bind_eq fun _ => expression_lockstep.bind fun he =>
    (Lockstep.expect _).bind_eq fun _ => .pure he

private theorem returnStatement_lockstep : Lockstep K Unrelated returnStatement returnStatement :=
  (Lockstep.expect _).bind_eq fun _ => expression_lockstep.bind fun _ =>
    (Lockstep.expect _).bind_eq fun _ => .pure trivial

/-! ### Statements with blocks -/

section Blocks

variable {block : Parser (List Stmt)}

/-- A function is declared in both before its body is parsed. -/
private theorem functionTail_lockstep (h : Lockstep K Unrelated block block) (type : Ty)
    (name : String) :
    Lockstep K Unrelated (functionTail block type name) (functionTail block type name) := by
  refine (Lockstep.expect _).bind_eq fun _ =>
    (listInParens_lockstep parameter_lockstep).bind fun {params params'} hparams => ?_
  obtain rfl : params = params' :=
    List.forall₂_eq_eq_eq ▸ hparams.imp fun _ _ hp => hp.1.symm
  have hwritten : ∀ p ∈ params, p.type = .int ∨ p.type = .float :=
    List.forall₂_same.mp (hparams.imp fun _ _ hp => hp.2)
  exact (Lockstep.tell fun hcheckers => K.declareFunction hcheckers name type hwritten).bind_eq
    fun _ => h.bind fun _ => .pure trivial

private theorem declaration_lockstep (h : Lockstep K Unrelated block block) :
    Lockstep K Unrelated (declaration block) (declaration block) := by
  refine Lockstep.typeSpecifier.bind fun {type type'} ⟨htype, _⟩ =>
    Lockstep.identifier.bind_eq fun x => Lockstep.peek.bind_eq fun o => ?_
  subst htype
  split
  · exact functionTail_lockstep h _ _
  · exact (variableTail_lockstep _ _ _).bind fun _ => (Lockstep.expect _).bind_eq fun _ =>
      .pure trivial

private theorem ifStatement_lockstep (h : Lockstep K Unrelated block block) :
    Lockstep K Unrelated (ifStatement block) (ifStatement block) := by
  refine (Lockstep.expect _).bind_eq fun _ => condition_lockstep.bind fun _ => h.bind fun _ =>
    (Lockstep.skipIf _).bind_eq fun b => ?_
  cases b with
  | true => exact h.bind fun _ => .pure trivial
  | false => exact .pure trivial

private theorem whileStatement_lockstep (h : Lockstep K Unrelated block block) :
    Lockstep K Unrelated (whileStatement block) (whileStatement block) :=
  (Lockstep.expect _).bind_eq fun _ => condition_lockstep.bind fun _ => h.bind fun _ =>
    .pure trivial

private theorem forStatement_lockstep (h : Lockstep K Unrelated block block) :
    Lockstep K Unrelated (forStatement block) (forStatement block) :=
  (Lockstep.expect _).bind_eq fun _ => (Lockstep.expect _).bind_eq fun _ =>
    (Lockstep.tell K.openScope).bind_eq fun _ => simpleStatement_lockstep.bind fun _ =>
    (Lockstep.expect _).bind_eq fun _ => expression_lockstep.bind fun _ =>
    (Lockstep.expect _).bind_eq fun _ => simpleStatement_lockstep.bind fun _ =>
    (Lockstep.expect _).bind_eq fun _ => h.bind fun _ =>
    (Lockstep.tell K.closeScope).bind_eq fun _ => .pure trivial

/-- A statement of every kind is parsed in lockstep, if blocks are. -/
private theorem statementOver_lockstep (h : Lockstep K Unrelated block block) :
    Lockstep K Unrelated (statementOver block) (statementOver block) := by
  refine Lockstep.peek.bind_eq fun o => ?_
  split
  · exact declaration_lockstep h
  · exact declaration_lockstep h
  · exact assignOrCall_lockstep.bind fun _ => (Lockstep.expect _).bind_eq fun _ => .pure trivial
  · exact returnStatement_lockstep
  · exact ifStatement_lockstep h
  · exact whileStatement_lockstep h
  · exact forStatement_lockstep h
  · exact .unexpected

end Blocks

/-! ### Bodies and programs -/

private theorem untilBrace_lockstep {statement : Parser Stmt}
    (h : Lockstep K Unrelated statement statement)
    (n : Nat) : Lockstep K Unrelated (untilBrace statement n) (untilBrace statement n) := by
  induction n with
  | zero => exact .failAtEnd
  | succ n ih =>
    refine (Lockstep.skipIf _).bind_eq fun b => ?_
    cases b with
    | true => exact .pure trivial
    | false => exact h.bind fun _ => ih.bind fun _ => .pure trivial

private theorem blockOf_lockstep {statement : Parser Stmt}
    (h : Lockstep K Unrelated statement statement) :
    Lockstep K Unrelated (blockOf statement) (blockOf statement) :=
  (Lockstep.expect _).bind_eq fun _ => (Lockstep.tell K.openScope).bind_eq fun _ =>
    (Lockstep.bounded (untilBrace_lockstep h)).bind fun _ =>
    (Lockstep.tell K.closeScope).bind_eq fun _ => .pure trivial

/-- Statements are parsed in lockstep within every bound. -/
private theorem statementWithin_lockstep (n : Nat) :
    Lockstep K Unrelated (statementWithin n) (statementWithin n) := by
  induction n with
  | zero => exact .failAtEnd
  | succ n ih => exact statementOver_lockstep (blockOf_lockstep ih)

/-- The statements up to the end are as many in both. -/
private theorem untilEnd_lockstep (n : Nat) :
    Lockstep K (fun ss ss' => ss'.length = ss.length) (untilEnd n) (untilEnd n) := by
  induction n with
  | zero => exact .pure rfl
  | succ n ih =>
    refine Lockstep.peek.bind_eq fun o => ?_
    split
    · exact .pure rfl
    · exact (Lockstep.bounded statementWithin_lockstep).bind fun _ => ih.bind fun hlength =>
        .pure (by simp [hlength])

/-- **Programs are parsed in lockstep.** -/
private theorem program_lockstep : Lockstep K Unrelated program program := by
  refine (Lockstep.bounded untilEnd_lockstep).bind fun {ss ss'} hlength => ?_
  rw [hlength]
  exact (Lockstep.tell fun h => K.note h (.parsed ss.length)).bind_eq fun _ => .pure trivial

end Parser

/-- **Two parses in lockstep.** Over the same tokens and with coupled checkers, two parses fail with
the same error or succeed both, and the checkers are coupled behind them. -/
theorem Coupling.parse (K : Coupling) {c d : Checker} (h : K.checkers c d)
    (tokens : List Located) :
    K.checkers (parse tokens c).2 (parse tokens d).2 ∧
      ∀ e, (parse tokens c).1 = .error e ↔ (parse tokens d).1 = .error e := by
  have hrun := Parser.program_lockstep tokens 1 h
  unfold TinyImp.parse
  generalize Parser.program ⟨tokens, 1, c⟩ = outcome, Parser.program ⟨tokens, 1, d⟩ = outcome'
    at hrun
  cases hrun with
  | ok _ hcheckers => exact ⟨hcheckers, by simp⟩
  | error hcheckers => exact ⟨hcheckers, fun _ => Iff.rfl⟩

end TinyImp
