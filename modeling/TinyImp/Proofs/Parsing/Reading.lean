import TinyImp.Parser.Statement

/-!
# Readings of token lists

A **reading** relates a list of tokens and the checker in front of it to the value that the tokens
stand for and the checker behind them. Readings say in one place what stands where in a phrase and
in which order the checker hears of its parts; they know nothing of bounds, of tokens that follow,
or of failure.

Expressions are read at a level: at level `m` an operator outside of parentheses binds at least as
tightly as `m`. The left operand of an operator is read at its own level and the right operand one
level higher, so that a list of tokens has one reading at most.
-/

namespace TinyImp

/-- A relation between tokens, a checker, a value, and a later checker. -/
abbrev ReadingOf (α : Type) := List Located → Checker → α → Checker → Prop

variable {α : Type}

/-! ### Expressions -/

/-- The tokens read as an expression, at a level of precedence. -/
inductive ReadsExpr : Nat → ReadingOf Expr
  | var {least line : Nat} {name : String} {c : Checker} :
      ReadsExpr least [⟨.identifier name, line⟩] c
        (.var name (c.typeOf name line).1) (c.typeOf name line).2
  | int {least line : Nat} {value : Int} {c : Checker} :
      ReadsExpr least [⟨.intLit value, line⟩] c (.const (.int value)) c
  | float {least line : Nat} {value : Binary64} {c : Checker} :
      ReadsExpr least [⟨.floatLit value, line⟩] c (.const (.float value)) c
  | parens {least opening closing : Nat} {ts : List Located} {c c' : Checker} {e : Expr}
      (inner : ReadsExpr 0 ts c e c') :
      ReadsExpr least (⟨.openParen, opening⟩ :: (ts ++ [⟨.closeParen, closing⟩])) c e c'
  | binary {least line : Nat} {w : Token} {op : BinaryOp} {ts us : List Located}
      {c c₁ c' : Checker} {lhs rhs : Expr} (hop : w.operator? = some op)
      (hle : least ≤ op.precedence) (left : ReadsExpr op.precedence ts c lhs c₁)
      (right : ReadsExpr (op.precedence + 1) us c₁ rhs c') :
      ReadsExpr least (ts ++ ⟨w, line⟩ :: us) c (op.apply lhs rhs) c'

namespace ReadsExpr

variable {m n : Nat} {ts : List Located} {c c' : Checker} {e : Expr}

/-- What is read at a level is read at every lower one. -/
theorem mono (h : ReadsExpr n ts c e c') (hmn : m ≤ n) : ReadsExpr m ts c e c' := by
  cases h with
  | var => exact .var
  | int => exact .int
  | float => exact .float
  | parens inner => exact .parens inner
  | binary hop hle left right => exact .binary hop (Nat.le_trans hmn hle) left right

/-- An expression has at least one token. -/
theorem length_pos (h : ReadsExpr n ts c e c') : 0 < ts.length := by
  cases h with
  | binary =>
    rw [List.length_append, List.length_cons]
    omega
  | _ => simp

end ReadsExpr

/-! ### Lists in parentheses -/

/-- The tokens read as one or more items with commas between them. -/
inductive ReadsSeparated (item : ReadingOf α) : ReadingOf (List α)
  | one {ts : List Located} {c c' : Checker} {a : α} (h : item ts c a c') :
      ReadsSeparated item ts c [a] c'
  | cons {line : Nat} {ts us : List Located} {c c₁ c' : Checker} {a : α} {as : List α}
      (h : item ts c a c₁) (others : ReadsSeparated item us c₁ as c') :
      ReadsSeparated item (ts ++ ⟨.comma, line⟩ :: us) c (a :: as) c'

/-- The tokens read as the part of a list in parentheses behind the opening parenthesis. -/
inductive ReadsList (item : ReadingOf α) : ReadingOf (List α)
  | nil {closing : Nat} {c : Checker} : ReadsList item [⟨.closeParen, closing⟩] c [] c
  | items {closing : Nat} {ts : List Located} {c c' : Checker} {as : List α}
      (h : ReadsSeparated item ts c as c') :
      ReadsList item (ts ++ [⟨.closeParen, closing⟩]) c as c'

/-! ### Statements -/

/-- The tokens read as a parameter. The checker hears nothing of it yet. -/
inductive ReadsParam : ReadingOf Param
  | mk {line line' : Nat} {w : Token} {name : String} {type : Ty} {c : Checker}
      (htype : w.type? = some type) :
      ReadsParam [⟨w, line⟩, ⟨.identifier name, line'⟩] c { name, type } c

/-- The tokens read as a statement without its semicolon. -/
inductive ReadsSimple : ReadingOf Stmt
  | declare {line line' : Nat} {w : Token} {name : String} {type : Ty} {c : Checker}
      (htype : w.type? = some type) :
      ReadsSimple [⟨w, line⟩, ⟨.identifier name, line'⟩] c
        (.declare name type) (c.declare name type)
  | declareAssign {line line' eq : Nat} {w : Token} {name : String} {type : Ty}
      {ts : List Located} {c c' : Checker} {e : Expr}
      (htype : w.type? = some type) (init : ReadsExpr 0 ts c e c') :
      ReadsSimple (⟨w, line⟩ :: ⟨.identifier name, line'⟩ :: ⟨.assign, eq⟩ :: ts) c
        (.declareAssign name type e) ((c'.declare name type).assign name line')
  | assign {line eq : Nat} {name : String} {ts : List Located} {c c' : Checker} {e : Expr}
      (value : ReadsExpr 0 ts c e c') :
      ReadsSimple (⟨.identifier name, line⟩ :: ⟨.assign, eq⟩ :: ts) c
        (.assign name e) (c'.assign name line)
  | call {line opening : Nat} {name : String} {ts : List Located} {c c' : Checker}
      {args : List Expr} (h : ReadsList (ReadsExpr 0) ts c args c') :
      ReadsSimple (⟨.identifier name, line⟩ :: ⟨.openParen, opening⟩ :: ts) c
        (.call name args) (c'.call name args line)

/-- What a list of tokens can stand for: a statement, the statements of a body without its
braces, or a block with them. -/
inductive Phrase where
  | statement (s : Stmt)
  | body (ss : List Stmt)
  | block (ss : List Stmt)

/-- The tokens read as a phrase. A function is declared before its body is read, and the header of
a `for` loop has a scope around that of the body. -/
inductive Reads : ReadingOf Phrase
  | simple {line : Nat} {ts : List Located} {c c' : Checker} {s : Stmt}
      (h : ReadsSimple ts c s c') :
      Reads (ts ++ [⟨.semicolon, line⟩]) c (.statement s) c'
  | function {line line' opening : Nat} {w : Token} {name : String} {type : Ty}
      {ps bs : List Located} {params : List Param} {c c' : Checker} {ss : List Stmt}
      (htype : w.type? = some type) (hparams : ReadsList ReadsParam ps c params c)
      (body : Reads bs (c.declareFunction name type params) (.block ss) c') :
      Reads (⟨w, line⟩ :: ⟨.identifier name, line'⟩ :: ⟨.openParen, opening⟩ :: (ps ++ bs)) c
        (.statement (.function name type params ss)) c'
  | ifThen {line opening closing : Nat} {es bs : List Located} {c c₁ c' : Checker} {e : Expr}
      {ss : List Stmt} (condition : ReadsExpr 0 es c e c₁) (body : Reads bs c₁ (.block ss) c') :
      Reads (⟨.kwIf, line⟩ :: ⟨.openParen, opening⟩ :: (es ++ ⟨.closeParen, closing⟩ :: bs)) c
        (.statement (.ifThen e ss)) c'
  | ifElse {line opening closing line' : Nat} {es bs bs' : List Located} {c c₁ c₂ c' : Checker}
      {e : Expr} {ss ss' : List Stmt} (condition : ReadsExpr 0 es c e c₁)
      (body : Reads bs c₁ (.block ss) c₂) (otherwise : Reads bs' c₂ (.block ss') c') :
      Reads (⟨.kwIf, line⟩ :: ⟨.openParen, opening⟩ ::
          (es ++ ⟨.closeParen, closing⟩ :: (bs ++ ⟨.kwElse, line'⟩ :: bs'))) c
        (.statement (.ifElse e ss ss')) c'
  | loop {line opening closing : Nat} {es bs : List Located} {c c₁ c' : Checker} {e : Expr}
      {ss : List Stmt} (condition : ReadsExpr 0 es c e c₁) (body : Reads bs c₁ (.block ss) c') :
      Reads (⟨.kwWhile, line⟩ :: ⟨.openParen, opening⟩ :: (es ++ ⟨.closeParen, closing⟩ :: bs)) c
        (.statement (.loop e ss)) c'
  | forLoop {line opening semi semi' closing : Nat} {is es ps bs : List Located}
      {c c₁ c₂ c₃ c' : Checker} {init step : Stmt} {e : Expr} {ss : List Stmt}
      (hinit : ReadsSimple is c.openScope init c₁) (condition : ReadsExpr 0 es c₁ e c₂)
      (hstep : ReadsSimple ps c₂ step c₃) (body : Reads bs c₃ (.block ss) c') :
      Reads (⟨.kwFor, line⟩ :: ⟨.openParen, opening⟩ :: (is ++ ⟨.semicolon, semi⟩ ::
          (es ++ ⟨.semicolon, semi'⟩ :: (ps ++ ⟨.closeParen, closing⟩ :: bs)))) c
        (.statement (.block [init, .loop e (ss ++ [step])])) c'.closeScope
  | ret {line semi : Nat} {es : List Located} {c c' : Checker} {e : Expr}
      (value : ReadsExpr 0 es c e c') :
      Reads (⟨.kwReturn, line⟩ :: (es ++ [⟨.semicolon, semi⟩])) c (.statement (.ret e)) c'
  | nil {c : Checker} : Reads [] c (.body []) c
  | cons {ts us : List Located} {c c₁ c' : Checker} {s : Stmt} {ss : List Stmt}
      (first : Reads ts c (.statement s) c₁) (rest : Reads us c₁ (.body ss) c') :
      Reads (ts ++ us) c (.body (s :: ss)) c'
  | block {opening closing : Nat} {ts : List Located} {c c' : Checker} {ss : List Stmt}
      (body : Reads ts c.openScope (.body ss) c') :
      Reads (⟨.openBrace, opening⟩ :: (ts ++ [⟨.closeBrace, closing⟩])) c (.block ss) c'.closeScope

/-- A statement has at least one token. -/
theorem Reads.length_pos {ts : List Located} {c c' : Checker} {s : Stmt}
    (h : Reads ts c (.statement s) c') : 0 < ts.length := by
  cases h <;> simp

end TinyImp
