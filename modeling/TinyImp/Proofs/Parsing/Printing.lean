import TinyImp.Proofs.Checking.Resolve
import TinyImp.Proofs.Parsing.Grammar

/-!
# Printing inverts parsing

A printer that writes a tree as tokens, with parentheses only where the precedence of an operator or
its grouping to the left asks for them, and a block as the `for` loop that it comes from. Not every
tree can be written: the types of declarations have to be `int` or `float`, and a block has to be
that of a `for` loop (`Stmt.Shaped`).

**The trees of that shape are exactly those that the parser returns,** up to the types in their
expressions: the printed tokens of such a tree are parsed to it, whatever their lines and whatever
the checker knows, and every tree that is parsed has the shape. The printer writes no token too
many: its tokens are a sublist of any tokens that are parsed to the tree.
-/

namespace TinyImp

open Grammar (words)

/-! ### The printer -/

/-- The token that an operator is written as. -/
def BinaryOp.token : BinaryOp → Token
  | .arith .add => .plus
  | .arith .sub => .minus
  | .arith .mul => .star
  | .arith .div => .slash
  | .compare .less => .less
  | .compare .greater => .greater
  | .compare .equal => .equal

/-- The token that a constant is written as. -/
def Const.token : Const → Token
  | .int value => .intLit value
  | .float value => .floatLit value

/-- The specifier of a type that can be declared. -/
def Ty.token : Ty → Token
  | .float => .kwFloat
  | _ => .kwInt

/-- Two operands and an operator between them, in parentheses if the operator binds less tightly
than it has to. -/
def BinaryOp.join (op : BinaryOp) (least : Nat) (lhs rhs : List Token) : List Token :=
  if op.precedence < least then .openParen :: (lhs ++ op.token :: rhs ++ [.closeParen])
  else lhs ++ op.token :: rhs

/-- The tokens of an expression that stands where operators have to bind at least as tightly as
`least`. -/
def Expr.tokensAt : Expr → Nat → List Token
  | .const value, _ => [value.token]
  | .var name _, _ => [.identifier name]
  | .arith op _ lhs rhs, least =>
    (BinaryOp.arith op).join least (lhs.tokensAt (BinaryOp.arith op).precedence)
      (rhs.tokensAt ((BinaryOp.arith op).precedence + 1))
  | .compare op lhs rhs, least =>
    (BinaryOp.compare op).join least (lhs.tokensAt (BinaryOp.compare op).precedence)
      (rhs.tokensAt ((BinaryOp.compare op).precedence + 1))

/-- The tokens of an expression. -/
abbrev Expr.tokens (e : Expr) : List Token :=
  e.tokensAt 0

/-- The tokens of a parameter. -/
def Param.tokens (p : Param) : List Token :=
  [p.type.token, .identifier p.name]

/-- Items with commas between them. -/
def separated (items : List (List Token)) : List Token :=
  List.intercalate [.comma] items

/-- The tokens of a statement without its semicolon. -/
def Stmt.simpleTokens : Stmt → List Token
  | .declare name type => [type.token, .identifier name]
  | .declareAssign name type init => type.token :: .identifier name :: .assign :: init.tokens
  | .assign name value => .identifier name :: .assign :: value.tokens
  | .call name args =>
    .identifier name :: .openParen :: (separated (args.map Expr.tokens) ++ [.closeParen])
  | _ => []

/-- Statements in braces. -/
def braced (statements : List (List Token)) : List Token :=
  .openBrace :: (statements.flatten ++ [.closeBrace])

mutual

/-- The tokens of a statement. The step of a `for` loop is the last statement of its body. -/
def Stmt.tokens : Stmt → List Token
  | .ifThen e body =>
    .kwIf :: .openParen :: (e.tokens ++ .closeParen :: braced (Stmt.tokensEach body))
  | .ifElse e body otherwise =>
    .kwIf :: .openParen :: (e.tokens ++ .closeParen :: (braced (Stmt.tokensEach body) ++
      .kwElse :: braced (Stmt.tokensEach otherwise)))
  | .loop e body =>
    .kwWhile :: .openParen :: (e.tokens ++ .closeParen :: braced (Stmt.tokensEach body))
  | .block [init, .loop e body] =>
    .kwFor :: .openParen :: (init.simpleTokens ++ .semicolon :: (e.tokens ++ .semicolon ::
      ((body.getLast?.map Stmt.simpleTokens).getD [] ++ .closeParen ::
        braced (Stmt.tokensEach body).dropLast)))
  | .block _ => []
  | .function name type params body =>
    type.token :: .identifier name :: .openParen :: (separated (params.map Param.tokens) ++
      .closeParen :: braced (Stmt.tokensEach body))
  | .ret value => .kwReturn :: (value.tokens ++ [.semicolon])
  | .declare name type => Stmt.simpleTokens (.declare name type) ++ [.semicolon]
  | .declareAssign name type init =>
    Stmt.simpleTokens (.declareAssign name type init) ++ [.semicolon]
  | .assign name value => Stmt.simpleTokens (.assign name value) ++ [.semicolon]
  | .call name args => Stmt.simpleTokens (.call name args) ++ [.semicolon]

/-- The tokens of each statement. -/
def Stmt.tokensEach : List Stmt → List (List Token)
  | [] => []
  | s :: rest => s.tokens :: Stmt.tokensEach rest

end

/-- The tokens of a program. -/
def Program.tokens (p : Program) : List Token :=
  (Stmt.tokensEach p.body).flatten

private theorem Stmt.tokensEach_eq_map (ss : List Stmt) :
    Stmt.tokensEach ss = ss.map Stmt.tokens := by
  induction ss with
  | nil => rfl
  | cons s ss ih => rw [Stmt.tokensEach, ih, List.map_cons]

/-! ### The trees that can be written -/

/-- The types that can be declared. -/
def Ty.Declarable (type : Ty) : Prop :=
  type = .int ∨ type = .float

/-- The statements that can stand in the header of a `for` loop. -/
inductive Stmt.Simple : Stmt → Prop
  | declare {name : String} {type : Ty} (h : type.Declarable) : Simple (.declare name type)
  | declareAssign {name : String} {type : Ty} {init : Expr} (h : type.Declarable) :
      Simple (.declareAssign name type init)
  | assign {name : String} {value : Expr} : Simple (.assign name value)
  | call {name : String} {args : List Expr} : Simple (.call name args)

/-- The statements that can be written: whatever they declare is an `int` or a `float`, and their
blocks are those of `for` loops. -/
inductive Stmt.Shaped : Stmt → Prop
  | simple {s : Stmt} (h : s.Simple) : Shaped s
  | ifThen {e : Expr} {body : List Stmt} (hbody : ∀ s ∈ body, Shaped s) : Shaped (.ifThen e body)
  | ifElse {e : Expr} {body otherwise : List Stmt} (hbody : ∀ s ∈ body, Shaped s)
      (hotherwise : ∀ s ∈ otherwise, Shaped s) : Shaped (.ifElse e body otherwise)
  | loop {e : Expr} {body : List Stmt} (hbody : ∀ s ∈ body, Shaped s) : Shaped (.loop e body)
  | forLoop {init step : Stmt} {e : Expr} {body : List Stmt} (hinit : init.Simple)
      (hbody : ∀ s ∈ body, Shaped s) (hstep : step.Simple) :
      Shaped (.block [init, .loop e (body ++ [step])])
  | function {name : String} {type : Ty} {params : List Param} {body : List Stmt}
      (htype : type.Declarable) (hparams : ∀ p ∈ params, p.type.Declarable)
      (hbody : ∀ s ∈ body, Shaped s) : Shaped (.function name type params body)
  | ret {value : Expr} : Shaped (.ret value)

/-- The programs that can be written. -/
def Program.Shaped (p : Program) : Prop :=
  ∀ s ∈ p.body, s.Shaped

/-! ### Tokens and what they stand for -/

/-- An operator is written in one way only. -/
private theorem Token.operator?_eq_some_iff {w : Token} {op : BinaryOp} :
    w.operator? = some op ↔ w = op.token := by
  constructor
  · intro h
    cases w <;> cases h <;> rfl
  · rintro rfl
    cases op with
    | arith op => cases op <;> rfl
    | compare op => cases op <;> rfl

/-- A type is written in one way only, if it can be written. -/
private theorem Token.type?_eq_some_iff {w : Token} {type : Ty} :
    w.type? = some type ↔ w = type.token ∧ type.Declarable := by
  constructor
  · intro h
    cases w <;> cases h
    · exact ⟨rfl, .inl rfl⟩
    · exact ⟨rfl, .inr rfl⟩
  · rintro ⟨rfl, rfl | rfl⟩ <;> rfl

/-- The printer writes the expression that an operator makes of two operands as it should. -/
theorem BinaryOp.tokensAt_apply (op : BinaryOp) (lhs rhs : Expr) (least : Nat) :
    (op.apply lhs rhs).tokensAt least =
      op.join least (lhs.tokensAt op.precedence) (rhs.tokensAt (op.precedence + 1)) := by
  cases op <;> rfl

/-- Parentheses around an expression make room for it at every level. -/
theorem Expr.tokensAt_sublist_parens (e : Expr) (m : Nat) :
    (e.tokensAt m).Sublist (.openParen :: (e.tokensAt 0 ++ [.closeParen])) := by
  have hjoin : ∀ (op : BinaryOp) (lhs rhs : List Token),
      (op.join m lhs rhs).Sublist (.openParen :: (op.join 0 lhs rhs ++ [.closeParen])) := by
    intro op lhs rhs
    rw [BinaryOp.join, BinaryOp.join, if_neg (Nat.not_lt_zero _)]
    split
    · exact .refl _
    · exact .cons _ (List.sublist_append_left _ _)
  cases e with
  | const value => exact .cons _ (List.sublist_append_left _ _)
  | var name type => exact .cons _ (List.sublist_append_left _ _)
  | arith op type lhs rhs => exact hjoin _ _ _
  | compare op lhs rhs => exact hjoin _ _ _

/-- On its own, a simple statement ends with a semicolon. -/
theorem Stmt.Simple.tokens_eq {s : Stmt} (h : s.Simple) :
    s.tokens = s.simpleTokens ++ [.semicolon] := by
  cases h <;> rfl

/-- The block that a `for` loop becomes is written as the loop. -/
theorem Stmt.tokens_for (init step : Stmt) (e : Expr) (body : List Stmt) :
    Stmt.tokens (.block [init, .loop e (body ++ [step])]) =
      .kwFor :: .openParen :: (init.simpleTokens ++ .semicolon :: (e.tokens ++ .semicolon ::
        (step.simpleTokens ++ .closeParen :: braced (Stmt.tokensEach body)))) := by
  simp [Stmt.tokens, Stmt.tokensEach_eq_map]

/-! ### Printed tokens are read -/

variable {α γ : Type} {ts : List Located}

/-- The first token is on some line, and the other tokens follow it. -/
theorem words_eq_cons_iff {w : Token} {ws : List Token} :
    words ts = w :: ws ↔ ∃ line us, ts = ⟨w, line⟩ :: us ∧ words us = ws := by
  constructor
  · intro h
    obtain ⟨⟨_, line⟩, us, rfl, rfl, hus⟩ := List.map_eq_cons_iff.mp h
    exact ⟨line, us, rfl, hus⟩
  · rintro ⟨line, us, rfl, rfl⟩
    rfl

/-- Tokens that are printed for a value are read as one with the same view. -/
def ReadsBack (item : ReadingOf α) (view : α → γ) (a : α) (ws : List Token) : Prop :=
  ∀ ts c, words ts = ws → ∃ a' c', item ts c a' c' ∧ view a' = view a

namespace ReadsBack

/-- An operation is read back, with parentheses where its level asks for them. -/
private theorem expr_join (op : BinaryOp) {lhs rhs : Expr}
    (hlhs : ∀ m, ReadsBack (ReadsExpr m) Expr.erase lhs (lhs.tokensAt m))
    (hrhs : ∀ m, ReadsBack (ReadsExpr m) Expr.erase rhs (rhs.tokensAt m)) (m : Nat) :
    ReadsBack (ReadsExpr m) Expr.erase (op.apply lhs rhs)
      (op.join m (lhs.tokensAt op.precedence) (rhs.tokensAt (op.precedence + 1))) := by
  have hplain : ∀ k ≤ op.precedence, ReadsBack (ReadsExpr k) Expr.erase (op.apply lhs rhs)
      (lhs.tokensAt op.precedence ++ op.token :: rhs.tokensAt (op.precedence + 1)) := by
    intro k hk ts c hts
    obtain ⟨us, _, rfl, hus, htail⟩ := List.map_eq_append_iff.mp hts
    obtain ⟨line, vs, rfl, hvs⟩ := words_eq_cons_iff.mp htail
    obtain ⟨l, c₁, hl, hlerase⟩ := hlhs _ us c hus
    obtain ⟨r, c', hr, hrerase⟩ := hrhs _ vs c₁ hvs
    exact ⟨op.apply l r, c', .binary (Token.operator?_eq_some_iff.mpr rfl) hk hl hr,
      op.erase_apply_congr hlerase hrerase⟩
  intro ts c hts
  rw [BinaryOp.join] at hts
  split at hts
  · obtain ⟨opening, _, rfl, htail⟩ := words_eq_cons_iff.mp hts
    obtain ⟨us, _, rfl, hus, hlast⟩ := List.map_eq_append_iff.mp htail
    obtain ⟨closing, _, rfl, hnil⟩ := words_eq_cons_iff.mp hlast
    obtain rfl := List.map_eq_nil_iff.mp hnil
    obtain ⟨e, c', he, herase⟩ := hplain 0 (Nat.zero_le _) us c hus
    exact ⟨e, c', .parens he, herase⟩
  · rename_i hprec
    exact hplain m (Nat.le_of_not_lt hprec) ts c hts

/-- The tokens of an expression are read as the expression, at every level. -/
theorem expr (e : Expr) (m : Nat) : ReadsBack (ReadsExpr m) Expr.erase e (e.tokensAt m) := by
  induction e generalizing m with
  | const value =>
    intro ts c hts
    obtain ⟨line, _, rfl, hnil⟩ := words_eq_cons_iff.mp hts
    obtain rfl := List.map_eq_nil_iff.mp hnil
    cases value with
    | int value => exact ⟨_, c, .int, rfl⟩
    | float value => exact ⟨_, c, .float, rfl⟩
  | var name type =>
    intro ts c hts
    obtain ⟨line, _, rfl, hnil⟩ := words_eq_cons_iff.mp hts
    obtain rfl := List.map_eq_nil_iff.mp hnil
    exact ⟨_, _, .var, rfl⟩
  | arith op type lhs rhs ihl ihr =>
    -- the node that is read has the type of its operands, which may be another one
    intro ts c hts
    obtain ⟨e, c', he, herase⟩ := expr_join (.arith op) ihl ihr m ts c hts
    exact ⟨e, c', he, herase⟩
  | compare op lhs rhs ihl ihr => exact expr_join (.compare op) ihl ihr m

section Lists

variable {item : ReadingOf α} {view : α → γ} {print : α → List Token} {as : List α}

/-- A list with commas is read back, if its items are. -/
private theorem commas (h : ∀ a ∈ as, ReadsBack item view a (print a)) (hne : as ≠ []) :
    ReadsBack (ReadsSeparated item) (List.map view) as (separated (as.map print)) := by
  induction as with
  | nil => exact absurd rfl hne
  | cons a as ih =>
    have ha := h a List.mem_cons_self
    have has : ∀ b ∈ as, ReadsBack item view b (print b) := fun b hb =>
      h b (List.mem_cons_of_mem a hb)
    intro ts c hts
    by_cases hnil : as = []
    · subst hnil
      obtain ⟨a', c', hread, hview⟩ := ha ts c (by simpa [separated] using hts)
      exact ⟨[a'], c', .one hread, by simp [hview]⟩
    · rw [List.map_cons, separated, List.intercalate_cons_of_ne_nil (by simpa using hnil),
        List.append_assoc, List.singleton_append] at hts
      obtain ⟨us, _, rfl, hus, htail⟩ := List.map_eq_append_iff.mp hts
      obtain ⟨line, vs, rfl, hvs⟩ := words_eq_cons_iff.mp htail
      obtain ⟨a', c₁, hread, hview⟩ := ha us c hus
      obtain ⟨as', c', hreads, hviews⟩ := ih has hnil vs c₁ hvs
      exact ⟨a' :: as', c', .cons hread hreads, by simp [hview, hviews]⟩

/-- A list, with the parenthesis that closes it. -/
theorem list (h : ∀ a ∈ as, ReadsBack item view a (print a)) :
    ReadsBack (ReadsList item) (List.map view) as
      (separated (as.map print) ++ [.closeParen]) := by
  intro ts c hts
  obtain ⟨us, _, rfl, hus, hlast⟩ := List.map_eq_append_iff.mp hts
  obtain ⟨closing, _, rfl, hnil⟩ := words_eq_cons_iff.mp hlast
  obtain rfl := List.map_eq_nil_iff.mp hnil
  by_cases hempty : as = []
  · subst hempty
    obtain rfl : us = [] := List.map_eq_nil_iff.mp hus
    exact ⟨[], c, .nil, rfl⟩
  · obtain ⟨as', c', hreads, hviews⟩ := commas h hempty us c hus
    exact ⟨as', c', .items hreads, hviews⟩

end Lists

private theorem param {p : Param} (h : p.type.Declarable) : ReadsBack ReadsParam id p p.tokens := by
  intro ts c hts
  simp only [Param.tokens, words_eq_cons_iff, List.map_eq_nil_iff] at hts
  obtain ⟨line, _, rfl, line', _, rfl, rfl⟩ := hts
  exact ⟨p, c, .mk (Token.type?_eq_some_iff.mpr ⟨rfl, h⟩), rfl⟩

/-- **A simple statement is read back from its tokens.** -/
private theorem simple {s : Stmt} (h : s.Simple) :
    ReadsBack ReadsSimple Stmt.erase s s.simpleTokens := by
  intro ts c hts
  cases h with
  | declare htype =>
    simp only [Stmt.simpleTokens, words_eq_cons_iff, List.map_eq_nil_iff] at hts
    obtain ⟨line, _, rfl, line', _, rfl, rfl⟩ := hts
    exact ⟨_, _, .declare (Token.type?_eq_some_iff.mpr ⟨rfl, htype⟩), rfl⟩
  | @declareAssign name type init htype =>
    simp only [Stmt.simpleTokens, words_eq_cons_iff] at hts
    obtain ⟨line, _, rfl, line', _, rfl, eq, us, rfl, hus⟩ := hts
    obtain ⟨e, c', he, herase⟩ := expr init 0 us c hus
    exact ⟨_, _, .declareAssign (Token.type?_eq_some_iff.mpr ⟨rfl, htype⟩) he,
      by simp [Stmt.erase, herase]⟩
  | @assign name value =>
    simp only [Stmt.simpleTokens, words_eq_cons_iff] at hts
    obtain ⟨line, _, rfl, eq, us, rfl, hus⟩ := hts
    obtain ⟨e, c', he, herase⟩ := expr value 0 us c hus
    exact ⟨_, _, .assign he, by simp [Stmt.erase, herase]⟩
  | @call name args =>
    simp only [Stmt.simpleTokens, words_eq_cons_iff] at hts
    obtain ⟨line, _, rfl, opening, us, rfl, hus⟩ := hts
    obtain ⟨args', c', hargs, herase⟩ := list (fun e _ => expr e 0) us c hus
    exact ⟨_, _, .call hargs, by simp [Stmt.erase, herase]⟩

/-! ### Printed statements are read -/

/-- Statements are read back one after the other. -/
private theorem body {ss : List Stmt}
    (h : ∀ s ∈ ss, ReadsBack Parser.ReadsStatement Stmt.erase s s.tokens) :
    ReadsBack (fun ts c ss c' => Reads ts c (.body ss) c') Stmt.eraseAll ss
      (Stmt.tokensEach ss).flatten := by
  induction ss with
  | nil =>
    intro ts c hts
    obtain rfl : ts = [] := List.map_eq_nil_iff.mp hts
    exact ⟨[], c, .nil, rfl⟩
  | cons s ss ih =>
    intro ts c hts
    rw [Stmt.tokensEach, List.flatten_cons] at hts
    obtain ⟨us, vs, rfl, hus, hvs⟩ := List.map_eq_append_iff.mp hts
    obtain ⟨s', c₁, hs, herase⟩ := h s List.mem_cons_self us c hus
    obtain ⟨ss', c', hss, herases⟩ := ih (fun t ht => h t (List.mem_cons_of_mem s ht)) vs c₁ hvs
    exact ⟨s' :: ss', c', .cons hs hss, by simp [Stmt.eraseAll, herase, herases]⟩

private theorem block {ss : List Stmt}
    (h : ∀ s ∈ ss, ReadsBack Parser.ReadsStatement Stmt.erase s s.tokens) :
    ReadsBack Parser.ReadsBlock Stmt.eraseAll ss (braced (Stmt.tokensEach ss)) := by
  intro ts c hts
  simp only [braced, words_eq_cons_iff, List.map_eq_append_iff, List.map_eq_nil_iff] at hts
  obtain ⟨opening, _, rfl, us, _, rfl, hus, closing, _, rfl, rfl⟩ := hts
  obtain ⟨ss', c', hss, herase⟩ := body h us c.openScope hus
  exact ⟨ss', _, .block hss, herase⟩

/-- The tokens of a statement that can be written are read as the statement. -/
theorem statement {s : Stmt} (h : s.Shaped) :
    ReadsBack Parser.ReadsStatement Stmt.erase s s.tokens := by
  induction h with
  | @simple s h =>
    intro ts c hts
    simp only [h.tokens_eq, List.map_eq_append_iff, words_eq_cons_iff, List.map_eq_nil_iff] at hts
    obtain ⟨us, _, rfl, hus, line, _, rfl, rfl⟩ := hts
    obtain ⟨s', c', hs, herase⟩ := simple h us c hus
    exact ⟨s', c', .simple hs, herase⟩
  | @ifThen e ss _ ih =>
    intro ts c hts
    simp only [Stmt.tokens, words_eq_cons_iff, List.map_eq_append_iff] at hts
    obtain ⟨line, _, rfl, opening, _, rfl, es, _, rfl, hes, closing, bs, rfl, hbs⟩ := hts
    obtain ⟨e', c₁, he, herase⟩ := expr e 0 es c hes
    obtain ⟨ss', c', hss, hbody⟩ := block ih bs c₁ hbs
    exact ⟨_, c', .ifThen he hss, by simp [Stmt.erase, herase, hbody]⟩
  | @ifElse e ss ss' _ _ ih ih' =>
    intro ts c hts
    simp only [Stmt.tokens, words_eq_cons_iff, List.map_eq_append_iff] at hts
    obtain ⟨line, _, rfl, opening, _, rfl, es, _, rfl, hes, closing, _, rfl, bs, _, rfl, hbs, line',
      bs', rfl, hbs'⟩ := hts
    obtain ⟨e', c₁, he, herase⟩ := expr e 0 es c hes
    obtain ⟨ss₁, c₂, hss, hbody⟩ := block ih bs c₁ hbs
    obtain ⟨ss₂, c', hss', hbody'⟩ := block ih' bs' c₂ hbs'
    exact ⟨_, c', .ifElse he hss hss', by simp [Stmt.erase, herase, hbody, hbody']⟩
  | @loop e ss _ ih =>
    intro ts c hts
    simp only [Stmt.tokens, words_eq_cons_iff, List.map_eq_append_iff] at hts
    obtain ⟨line, _, rfl, opening, _, rfl, es, _, rfl, hes, closing, bs, rfl, hbs⟩ := hts
    obtain ⟨e', c₁, he, herase⟩ := expr e 0 es c hes
    obtain ⟨ss', c', hss, hbody⟩ := block ih bs c₁ hbs
    exact ⟨_, c', .loop he hss, by simp [Stmt.erase, herase, hbody]⟩
  | @forLoop init step e ss hinit _ hstep ih =>
    intro ts c hts
    rw [Stmt.tokens_for] at hts
    simp only [words_eq_cons_iff, List.map_eq_append_iff] at hts
    obtain ⟨line, _, rfl, opening, _, rfl, is, _, rfl, his, semi, _, rfl, es, _, rfl, hes, semi', _,
      rfl, ps, _, rfl, hps, closing, bs, rfl, hbs⟩ := hts
    obtain ⟨init', c₁, hinit, hinitErase⟩ := simple hinit is c.openScope his
    obtain ⟨e', c₂, he, herase⟩ := expr e 0 es c₁ hes
    obtain ⟨step', c₃, hstep, hstepErase⟩ := simple hstep ps c₂ hps
    obtain ⟨ss', c', hss, hbody⟩ := block ih bs c₃ hbs
    refine ⟨_, _, .forLoop hinit he hstep hss, ?_⟩
    simp [Stmt.erase, Stmt.eraseAll, Stmt.eraseAll_append, hinitErase, herase, hstepErase, hbody]
  | @function name type params ss htype hparams _ ih =>
    intro ts c hts
    simp only [Stmt.tokens, words_eq_cons_iff] at hts
    obtain ⟨line, _, rfl, line', _, rfl, opening, us, rfl, hus⟩ := hts
    rw [List.append_cons] at hus
    obtain ⟨ps, bs, rfl, hps, hbs⟩ := List.map_eq_append_iff.mp hus
    obtain ⟨params', c₁, hreads, hview⟩ := list (fun p hp => param (hparams p hp)) ps c hps
    obtain rfl : params' = params := by simpa using hview
    obtain rfl : c₁ = c := Parser.readsList_readsParam_checker hreads
    obtain ⟨ss', c', hss, hbody⟩ := block ih bs (c₁.declareFunction name type params') hbs
    exact ⟨_, c', .function (Token.type?_eq_some_iff.mpr ⟨rfl, htype⟩) hreads hss,
      by simp [Stmt.erase, hbody]⟩
  | @ret value =>
    intro ts c hts
    simp only [Stmt.tokens, words_eq_cons_iff, List.map_eq_append_iff, List.map_eq_nil_iff] at hts
    obtain ⟨line, _, rfl, es, _, rfl, hes, semi, _, rfl, rfl⟩ := hts
    obtain ⟨e', c', he, herase⟩ := expr value 0 es c hes
    exact ⟨_, c', .ret he, by simp [Stmt.erase, herase]⟩

end ReadsBack

/-! ### What is read can be written -/

/-- What is read has the shape, and is written with no more tokens than it is read from. -/
def Rewrites (item : ReadingOf α) (shape : α → Prop) (print : α → List Token) : Prop :=
  ∀ {ts c a c'}, item ts c a c' → shape a ∧ (print a).Sublist (words ts)

/-- Only parentheses are left out of the tokens of an expression. -/
theorem ReadsExpr.tokensAt_sublist {m : Nat} {c c' : Checker} {e : Expr}
    (h : ReadsExpr m ts c e c') : (e.tokensAt m).Sublist (words ts) := by
  induction h with
  | var => exact .refl _
  | int => exact .refl _
  | float => exact .refl _
  | @parens m opening closing ts c c' e inner ih =>
    rw [words, List.map_cons, List.map_append]
    exact (Expr.tokensAt_sublist_parens e m).trans (.cons_cons _ (ih.append (.refl _)))
  | @binary m line w op us vs c c₁ c' lhs rhs hop hle _ _ ihl ihr =>
    obtain rfl := Token.operator?_eq_some_iff.mp hop
    rw [BinaryOp.tokensAt_apply, BinaryOp.join, if_neg (Nat.not_lt.mpr hle), words,
      List.map_append, List.map_cons]
    exact ihl.append (.cons_cons _ ihr)

namespace Rewrites

section Lists

variable {item : ReadingOf α} {shape : α → Prop} {print : α → List Token}

/-- Lists are written again with no more tokens than were read, if their items are. -/
private theorem commas (h : Rewrites item shape print) :
    Rewrites (ReadsSeparated item) (fun as => ∀ a ∈ as, shape a)
      (fun as => separated (as.map print)) := by
  intro ts c as c' hreads
  induction hreads with
  | @one ts c c' a hread =>
    obtain ⟨hshape, hsub⟩ := h hread
    exact ⟨by simpa using hshape, by simpa [separated] using hsub⟩
  | @cons line us vs c c₁ c' a as hread hothers ih =>
    obtain ⟨hshape, hsub⟩ := h hread
    obtain ⟨hshapes, hsubs⟩ := ih
    have hne : as.map print ≠ [] := by cases hothers <;> simp
    refine ⟨by simpa using ⟨hshape, hshapes⟩, ?_⟩
    dsimp only
    rw [List.map_cons, separated, List.intercalate_cons_of_ne_nil hne, List.append_assoc,
      List.singleton_append, words, List.map_append, List.map_cons]
    exact hsub.append (.cons_cons _ hsubs)

private theorem list (h : Rewrites item shape print) :
    Rewrites (ReadsList item) (fun as => ∀ a ∈ as, shape a)
      (fun as => separated (as.map print) ++ [.closeParen]) := by
  intro ts c as c' hreads
  cases hreads with
  | nil => exact ⟨by simp, .refl _⟩
  | items hitems =>
    obtain ⟨hshapes, hsub⟩ := h.commas hitems
    refine ⟨hshapes, ?_⟩
    rw [words, List.map_append]
    exact hsub.append (.refl _)

end Lists

private theorem param : Rewrites ReadsParam (fun p => p.type.Declarable) Param.tokens := by
  rintro ts c p c' ⟨htype⟩
  obtain ⟨rfl, hdecl⟩ := Token.type?_eq_some_iff.mp htype
  exact ⟨hdecl, .refl _⟩

private theorem simple : Rewrites ReadsSimple Stmt.Simple Stmt.simpleTokens := by
  intro ts c s c' h
  cases h with
  | declare htype =>
    obtain ⟨rfl, hdecl⟩ := Token.type?_eq_some_iff.mp htype
    exact ⟨.declare hdecl, .refl _⟩
  | declareAssign htype init =>
    obtain ⟨rfl, hdecl⟩ := Token.type?_eq_some_iff.mp htype
    exact ⟨.declareAssign hdecl, .cons_cons _ (.cons_cons _ (.cons_cons _ init.tokensAt_sublist))⟩
  | assign value => exact ⟨.assign, .cons_cons _ (.cons_cons _ value.tokensAt_sublist)⟩
  | call hargs =>
    have hexpr : Rewrites (ReadsExpr 0) (fun _ => True) Expr.tokens := fun h =>
      ⟨trivial, h.tokensAt_sublist⟩
    exact ⟨.call, .cons_cons _ (.cons_cons _ (hexpr.list hargs).2)⟩

end Rewrites

/-- The phrases that can be written. -/
def Phrase.Shaped : Phrase → Prop
  | .statement s => s.Shaped
  | .body ss => ∀ s ∈ ss, s.Shaped
  | .block ss => ∀ s ∈ ss, s.Shaped

/-- The tokens of a phrase. -/
def Phrase.tokens : Phrase → List Token
  | .statement s => s.tokens
  | .body ss => (Stmt.tokensEach ss).flatten
  | .block ss => braced (Stmt.tokensEach ss)

/-- **Whatever has been read is written again with no more tokens.** -/
private theorem Rewrites.phrase : Rewrites Reads Phrase.Shaped Phrase.tokens := by
  intro ts c p c' h
  induction h with
  | @simple line ts c c' s h =>
    obtain ⟨hsimple, hsub⟩ := simple h
    refine ⟨.simple hsimple, ?_⟩
    rw [Phrase.tokens, hsimple.tokens_eq, words, List.map_append]
    exact hsub.append (.refl _)
  | @function line line' opening w name type ps bs params c c' ss htype hparams _ ih =>
    obtain ⟨rfl, hdecl⟩ := Token.type?_eq_some_iff.mp htype
    obtain ⟨hshapes, hsub⟩ := param.list hparams
    refine ⟨.function hdecl hshapes ih.1, ?_⟩
    rw [Phrase.tokens, Stmt.tokens, List.append_cons]
    simp only [words, List.map_cons, List.map_append]
    exact .cons_cons _ (.cons_cons _ (.cons_cons _ (hsub.append ih.2)))
  | ifThen condition _ ih =>
    refine ⟨.ifThen ih.1, ?_⟩
    simp only [Phrase.tokens, Stmt.tokens, words, List.map_cons, List.map_append]
    exact .cons_cons _ (.cons_cons _ (condition.tokensAt_sublist.append (.cons_cons _ ih.2)))
  | ifElse condition _ _ ih ih' =>
    refine ⟨.ifElse ih.1 ih'.1, ?_⟩
    simp only [Phrase.tokens, Stmt.tokens, words, List.map_cons, List.map_append]
    exact .cons_cons _ (.cons_cons _ (condition.tokensAt_sublist.append
      (.cons_cons _ (ih.2.append (.cons_cons _ ih'.2)))))
  | loop condition _ ih =>
    refine ⟨.loop ih.1, ?_⟩
    simp only [Phrase.tokens, Stmt.tokens, words, List.map_cons, List.map_append]
    exact .cons_cons _ (.cons_cons _ (condition.tokensAt_sublist.append (.cons_cons _ ih.2)))
  | forLoop hinit condition hstep _ ih =>
    obtain ⟨hinit, hinitSub⟩ := simple hinit
    obtain ⟨hstep, hstepSub⟩ := simple hstep
    refine ⟨.forLoop hinit ih.1 hstep, ?_⟩
    rw [Phrase.tokens, Stmt.tokens_for]
    simp only [words, List.map_cons, List.map_append]
    exact .cons_cons _ (.cons_cons _ (hinitSub.append (.cons_cons _
      (condition.tokensAt_sublist.append (.cons_cons _ (hstepSub.append (.cons_cons _ ih.2)))))))
  | ret value =>
    refine ⟨.ret, ?_⟩
    simp only [Phrase.tokens, Stmt.tokens, words, List.map_cons, List.map_append]
    exact .cons_cons _ (value.tokensAt_sublist.append (.refl _))
  | nil => exact ⟨by simp [Phrase.Shaped], .refl _⟩
  | @cons ts us c c₁ c' s ss _ _ ih ih' =>
    have hshapes : ∀ t ∈ s :: ss, t.Shaped := by simpa using ⟨ih.1, ih'.1⟩
    refine ⟨hshapes, ?_⟩
    rw [Phrase.tokens, Stmt.tokensEach, List.flatten_cons, words, List.map_append]
    exact ih.2.append ih'.2
  | block _ ih =>
    refine ⟨ih.1, ?_⟩
    simp only [Phrase.tokens, braced, words, List.map_cons, List.map_append]
    exact .cons_cons _ (ih.2.append (.refl _))

/-- **Parsing inverts printing.** A program that can be written is parsed from its printed tokens,
on any lines and with any checker, up to the types in its expressions. Conversely every program that
is parsed can be written, and with no other tokens than some of those that it was parsed from. -/
theorem parse_inverts_print :
    (∀ p : Program, p.Shaped → ∀ (ts : List Located) (c : Checker), words ts = p.tokens →
      ∃ q c', parse ts c = (.ok q, c') ∧ q.erase = p.erase) ∧
    (∀ (ts : List Located) (c c' : Checker) (p : Program), parse ts c = (.ok p, c') →
      p.Shaped ∧ p.tokens.Sublist (words ts)) := by
  constructor
  · intro p hshaped ts c hts
    obtain ⟨ss, c', hreads, herase⟩ :=
      ReadsBack.body (fun s hs => ReadsBack.statement (hshaped s hs)) ts c hts
    refine ⟨⟨ss⟩, _, parse_eq_ok_iff.mpr ⟨c', hreads, rfl⟩, ?_⟩
    rw [Program.erase, Program.erase, herase]
  · intro ts c c' p hparse
    obtain ⟨c₁, hreads, -⟩ := parse_eq_ok_iff.mp hparse
    exact Rewrites.phrase hreads

/-- A loop whose body needs both pairs of parentheses: `x = (a - (b - c)) * d;`. -/
def groupingLoop : Program :=
  let var (name : String) : Expr := .var name .int
  ⟨[.block [.declareAssign "i" .int (.const (.int 0)),
    .loop (.compare .less (var "i") (.const (.int 3)))
      ([.assign "x" (.arith .mul .int (.arith .sub .int (var "a") (.arith .sub .int (var "b")
        (var "c"))) (var "d"))] ++ [.assign "i" (.arith .add .int (var "i") (.const (.int 1)))])]]⟩

/-- The tokens of the loop are parsed to the loop again, which is printed without further tokens. -/
theorem parse_print_groupingLoop :
    groupingLoop.Shaped ∧
      ∃ q c', parse (groupingLoop.tokens.map fun w => ⟨w, 1⟩) {} = (.ok q, c') ∧
        q.erase = groupingLoop.erase ∧ q.Shaped ∧ q.tokens.Sublist groupingLoop.tokens := by
  have hshaped : groupingLoop.Shaped := by
    intro s hs
    obtain rfl := List.mem_singleton.mp hs
    refine .forLoop (.declareAssign (.inl rfl)) (fun s hs => ?_) .assign
    obtain rfl := List.mem_singleton.mp hs
    exact .simple .assign
  have hwords : words (groupingLoop.tokens.map fun w => ⟨w, 1⟩) = groupingLoop.tokens := by
    simp [Function.comp_def]
  obtain ⟨q, c', hparse, herase⟩ := parse_inverts_print.1 groupingLoop hshaped _ {} hwords
  obtain ⟨hq, hsub⟩ := parse_inverts_print.2 _ _ _ _ hparse
  exact ⟨hshaped, q, c', hparse, herase, hq, hwords ▸ hsub⟩

end TinyImp
