import TinyImp.Proofs.Parsing.Completeness

/-!
# The grammar of the language

The grammar is a table of productions, and a word of a list of symbols is what the productions
derive from it. The table says nothing of precedence: an expression is derived from
`expr op expr` however the operators bind, and has as many derivations as there are ways to put
parentheses into it.

**The parser accepts exactly the words of the grammar** (`parse_isOk_iff_derives`). That an
accepted list of tokens is a word is read off its reading. Conversely a derivation is turned into a
reading category by category; only for expressions is the tree not the one of the derivation, and
there two readings that an operator joins are merged into one that respects the precedences
(`ReadsExpr.merge`).
-/

namespace TinyImp

namespace Grammar

/-- The syntactic categories. -/
inductive Category where
  | program
  | block
  | statements
  | statement
  | simple
  | params
  | paramList
  | param
  | args
  | argList
  | expr
  | type
  | operator

/-- What may stand on the right of a production: a certain token, any identifier, any number, or
a phrase of a category. -/
inductive Symbol where
  | token (w : Token)
  | identifier
  | number
  | phrase (category : Category)

/-- The productions of each category. -/
def productions : Category → List (List Symbol)
  | .program => [[.phrase .statements]]
  | .block => [[.token .openBrace, .phrase .statements, .token .closeBrace]]
  | .statements => [[], [.phrase .statement, .phrase .statements]]
  | .statement =>
    [[.phrase .simple, .token .semicolon],
      [.phrase .type, .identifier, .token .openParen, .phrase .params, .token .closeParen,
        .phrase .block],
      [.token .kwReturn, .phrase .expr, .token .semicolon],
      [.token .kwIf, .token .openParen, .phrase .expr, .token .closeParen, .phrase .block],
      [.token .kwIf, .token .openParen, .phrase .expr, .token .closeParen, .phrase .block,
        .token .kwElse, .phrase .block],
      [.token .kwWhile, .token .openParen, .phrase .expr, .token .closeParen, .phrase .block],
      [.token .kwFor, .token .openParen, .phrase .simple, .token .semicolon, .phrase .expr,
        .token .semicolon, .phrase .simple, .token .closeParen, .phrase .block]]
  | .simple =>
    [[.phrase .type, .identifier],
      [.phrase .type, .identifier, .token .assign, .phrase .expr],
      [.identifier, .token .assign, .phrase .expr],
      [.identifier, .token .openParen, .phrase .args, .token .closeParen]]
  | .params => [[], [.phrase .paramList]]
  | .paramList => [[.phrase .param], [.phrase .param, .token .comma, .phrase .paramList]]
  | .param => [[.phrase .type, .identifier]]
  | .args => [[], [.phrase .argList]]
  | .argList => [[.phrase .expr], [.phrase .expr, .token .comma, .phrase .argList]]
  | .expr =>
    [[.phrase .expr, .phrase .operator, .phrase .expr],
      [.token .openParen, .phrase .expr, .token .closeParen],
      [.number],
      [.identifier]]
  | .type => [[.token .kwInt], [.token .kwFloat]]
  | .operator =>
    [[.token .less], [.token .greater], [.token .equal], [.token .plus], [.token .minus],
      [.token .star], [.token .slash]]

/-- The words that a list of symbols derives. -/
inductive Derives : List Symbol → List Token → Prop
  | nil : Derives [] []
  | token {w : Token} {σ : List Symbol} {ws : List Token} (h : Derives σ ws) :
      Derives (.token w :: σ) (w :: ws)
  | identifier {name : String} {σ : List Symbol} {ws : List Token} (h : Derives σ ws) :
      Derives (.identifier :: σ) (.identifier name :: ws)
  | int {value : Int} {σ : List Symbol} {ws : List Token} (h : Derives σ ws) :
      Derives (.number :: σ) (.intLit value :: ws)
  | float {value : Binary64} {σ : List Symbol} {ws : List Token} (h : Derives σ ws) :
      Derives (.number :: σ) (.floatLit value :: ws)
  | phrase {A : Category} {rhs σ : List Symbol} {us vs : List Token} (hrhs : rhs ∈ productions A)
      (h : Derives rhs us) (hrest : Derives σ vs) : Derives (.phrase A :: σ) (us ++ vs)

/-- The words of a category. -/
abbrev Word (A : Category) (ws : List Token) : Prop :=
  Derives [.phrase A] ws

namespace Derives

variable {A : Category} {rhs σ : List Symbol} {us vs : List Token}

/-- A word of a category, and a word of the symbols behind it. -/
theorem cons (h : Word A us) (hrest : Derives σ vs) : Derives (.phrase A :: σ) (us ++ vs) := by
  cases h with
  | phrase hrhs h hnil =>
    cases hnil
    rw [List.append_nil]
    exact .phrase hrhs h hrest

/-- A word of a right-hand side is a word of the category. -/
theorem word (hrhs : rhs ∈ productions A) (h : Derives rhs us) : Word A us := by
  rw [← List.append_nil us]
  exact .phrase hrhs h .nil

end Derives

/-- The tokens without their lines. -/
abbrev words (ts : List Located) : List Token :=
  ts.map (·.token)

/-- The name of a type is a word of its category. -/
theorem word_type {w : Token} {type : Ty} (h : w.type? = some type) : Word .type [w] := by
  obtain rfl | rfl := Token.type?_eq_some h
  · exact .word (by simp [productions]) (.token .nil)
  · exact .word (by simp [productions]) (.token .nil)

/-- An operator is a word of its category. -/
theorem word_operator {w : Token} {op : BinaryOp} (h : w.operator? = some op) :
    Word .operator [w] := by
  refine .word (show [.token w] ∈ productions .operator from ?_) (.token .nil)
  cases w <;> simp_all [productions, Token.operator?]

/-! ### A reading is a word -/

variable {ts : List Located} {c c' : Checker}

/-- The tokens of an expression are a word of the grammar, whatever the level at which they were
read. -/
theorem word_expr {n : Nat} {e : Expr} (h : ReadsExpr n ts c e c') : Word .expr (words ts) := by
  induction h with
  | var => exact .word (by simp [productions]) (.identifier .nil)
  | int => exact .word (by simp [productions]) (.int .nil)
  | float => exact .word (by simp [productions]) (.float .nil)
  | parens _ ih =>
    rw [words, List.map_cons, List.map_append]
    exact .word (by simp [productions]) (.token (.cons ih (.token .nil)))
  | binary hop _ _ _ ihl ihr =>
    rw [words, List.map_append, List.map_cons]
    exact .word (by simp [productions]) (.cons ihl (.cons (word_operator hop) ihr))

section Lists

variable {α : Type} {item : ReadingOf α} {A L : Category}

/-- The tokens of a list with commas are a word, if those of its items are. -/
private theorem word_separated (hitem : ∀ ts c a c', item ts c a c' → Word A (words ts))
    (hone : [.phrase A] ∈ productions L)
    (hcons : [.phrase A, .token .comma, .phrase L] ∈ productions L) {as : List α}
    (h : ReadsSeparated item ts c as c') : Word L (words ts) := by
  induction h with
  | one h => exact .word hone (hitem _ _ _ _ h)
  | cons h _ ih =>
    rw [words, List.map_append, List.map_cons]
    exact .word hcons (.cons (hitem _ _ _ _ h) (.token ih))

/-- A list in parentheses, and what follows it. -/
theorem derives_list {P : Category} {σ : List Symbol} {vs : List Token}
    (hitem : ∀ ts c a c', item ts c a c' → Word A (words ts))
    (hone : [.phrase A] ∈ productions L)
    (hcons : [.phrase A, .token .comma, .phrase L] ∈ productions L)
    (hnone : [] ∈ productions P) (hsome : [.phrase L] ∈ productions P) {as : List α}
    (h : ReadsList item ts c as c') (hrest : Derives σ vs) :
    Derives (.phrase P :: .token .closeParen :: σ) (words ts ++ vs) := by
  cases h with
  | nil =>
    change Derives _ ([] ++ .closeParen :: vs)
    exact .cons (.word hnone .nil) (.token hrest)
  | items h =>
    rw [words, List.map_append, List.append_assoc]
    exact .cons (.word hsome (word_separated hitem hone hcons h)) (.token hrest)

end Lists

private theorem word_param {p : Param} (h : ReadsParam ts c p c') : Word .param (words ts) := by
  obtain ⟨hw⟩ := h
  exact .word (by simp [productions]) (.cons (word_type hw) (.identifier .nil))

/-- The tokens of a simple statement are a word of the grammar. -/
theorem word_simple {st : Stmt} (h : ReadsSimple ts c st c') : Word .simple (words ts) := by
  cases h with
  | declare hw => exact .word (by simp [productions]) (.cons (word_type hw) (.identifier .nil))
  | declareAssign hw init =>
    exact .word (by simp [productions])
      (.cons (word_type hw) (.identifier (.token (word_expr init))))
  | assign value => exact .word (by simp [productions]) (.identifier (.token (word_expr value)))
  | @call _ _ _ ts _ _ _ h =>
    have hargs : Derives [.phrase .args, .token .closeParen] (words ts ++ []) :=
      derives_list (fun _ _ _ _ h => word_expr h) (L := .argList) (by simp [productions])
        (by simp [productions]) (by simp [productions]) (by simp [productions]) h .nil
    rw [List.append_nil] at hargs
    exact .word (by simp [productions]) (.identifier (.token hargs))

/-- The category of a phrase. -/
def category : Phrase → Category
  | .statement _ => .statement
  | .body _ => .statements
  | .block _ => .block

/-- **What is read is a word of the grammar**, for phrases of every kind. -/
theorem word_phrase {p : Phrase} (h : Reads ts c p c') : Word (category p) (words ts) := by
  induction h with
  | simple h =>
    rw [words, List.map_append]
    exact .word (by simp [productions, category]) (.cons (word_simple h) (.token .nil))
  | @function _ _ _ _ _ _ ps bs _ _ _ _ hw hparams _ ih =>
    have hrest : Derives [.phrase .params, .token .closeParen, .phrase .block]
        (words ps ++ words bs) :=
      derives_list (fun _ _ _ _ h => word_param h) (L := .paramList) (by simp [productions])
        (by simp [productions]) (by simp [productions]) (by simp [productions]) hparams ih
    simp only [words, List.map_cons, List.map_append]
    exact .word (by simp [productions, category])
      (.cons (word_type hw) (.identifier (.token hrest)))
  | ifThen condition _ ih =>
    simp only [words, List.map_cons, List.map_append]
    exact .word (by simp [productions, category])
      (.token (.token (.cons (word_expr condition) (.token ih))))
  | ifElse condition _ _ ih ih' =>
    simp only [words, List.map_cons, List.map_append]
    exact .word (by simp [productions, category])
      (.token (.token (.cons (word_expr condition) (.token (.cons ih (.token ih'))))))
  | loop condition _ ih =>
    simp only [words, List.map_cons, List.map_append]
    exact .word (by simp [productions, category])
      (.token (.token (.cons (word_expr condition) (.token ih))))
  | forLoop hinit condition hstep _ ih =>
    simp only [words, List.map_cons, List.map_append]
    exact .word (by simp [productions, category])
      (.token (.token (.cons (word_simple hinit) (.token (.cons (word_expr condition)
        (.token (.cons (word_simple hstep) (.token ih))))))))
  | ret value =>
    simp only [words, List.map_cons, List.map_append]
    exact .word (by simp [productions, category]) (.token (.cons (word_expr value) (.token .nil)))
  | nil => exact .word (by simp [productions, category]) .nil
  | cons _ _ ih ih' =>
    rw [words, List.map_append]
    exact .word (by simp [productions, category]) (.cons ih ih')
  | block _ ih =>
    simp only [words, List.map_cons, List.map_append]
    exact .word (by simp [productions, category]) (.token (.cons ih (.token .nil)))

/-! ### A word has a reading -/

end Grammar

namespace ReadsExpr

variable {m line : Nat} {w : Token} {op : BinaryOp} {ts us : List Located} {c c₁ c' : Checker}
  {lhs rhs : Expr}

/-- An operator and an operand of every level behind an expression go where the precedence of the
operator says. The checker hears the same. -/
theorem snoc (hlhs : ReadsExpr m ts c lhs c₁) (hop : w.operator? = some op)
    (hle : m ≤ op.precedence) (hrhs : ∀ k, ReadsExpr k us c₁ rhs c') :
    ∃ e, ReadsExpr m (ts ++ ⟨w, line⟩ :: us) c e c' := by
  induction hlhs with
  | var => exact ⟨_, .binary hop hle .var (hrhs _)⟩
  | int => exact ⟨_, .binary hop hle .int (hrhs _)⟩
  | float => exact ⟨_, .binary hop hle .float (hrhs _)⟩
  | parens inner => exact ⟨_, .binary hop hle (.parens inner) (hrhs _)⟩
  | @binary m line₁ w₁ op₁ ts₁ us₁ c c₂ c₁ lhs₁ rhs₁ hop₁ hle₁ left right _ ih =>
    by_cases hprec : op.precedence ≤ op₁.precedence
    · -- the whole expression in front is the left operand
      exact ⟨_, .binary hop hle (.binary hop₁ hprec left right) (hrhs _)⟩
    · -- only its right operand is
      obtain ⟨e, he⟩ := ih (Nat.lt_of_not_le hprec) hrhs
      refine ⟨op₁.apply lhs₁ e, ?_⟩
      rw [List.append_assoc, List.cons_append]
      exact .binary hop₁ hle₁ left he

/-- **Merging.** Two expressions and an operator between them are an expression. -/
theorem merge {n : Nat} (hrhs : ReadsExpr n us c₁ rhs c') (hlhs : ReadsExpr 0 ts c lhs c₁)
    (hop : w.operator? = some op) : ∃ e, ReadsExpr 0 (ts ++ ⟨w, line⟩ :: us) c e c' := by
  induction hrhs generalizing ts lhs w op line with
  | var => exact hlhs.snoc hop (Nat.zero_le _) fun _ => .var
  | int => exact hlhs.snoc hop (Nat.zero_le _) fun _ => .int
  | float => exact hlhs.snoc hop (Nat.zero_le _) fun _ => .float
  | parens inner => exact hlhs.snoc hop (Nat.zero_le _) fun _ => .parens inner
  | @binary n line₁ w₁ op₁ ts₁ us₁ c₁ c₂ c' lhs₁ rhs₁ hop₁ _ _ _ ihl ihr =>
    -- the left operand goes behind the expression in front, and the right one behind both
    obtain ⟨e, he⟩ := ihl hlhs hop
    obtain ⟨e', he'⟩ := ihr he hop₁
    refine ⟨e', ?_⟩
    simpa using he'

end ReadsExpr

namespace Grammar

/-- Tokens that have a reading with every checker in front of them. -/
def ReadableAs {α : Type} (R : ReadingOf α) (ts : List Located) : Prop :=
  ∀ c, ∃ a c', R ts c a c'

/-- Tokens that are readable as a phrase of a category. Lists are read with the parenthesis that
closes them. -/
def Readable (ts : List Located) : Category → Prop
  | .program | .statements => ReadableAs (fun ts c ss c' => Reads ts c (.body ss) c') ts
  | .block => ReadableAs Parser.ReadsBlock ts
  | .statement => ReadableAs Parser.ReadsStatement ts
  | .simple => ReadableAs ReadsSimple ts
  | .params => ∀ line, ReadableAs (ReadsList ReadsParam) (ts ++ [⟨.closeParen, line⟩])
  | .paramList => ReadableAs (ReadsSeparated ReadsParam) ts
  | .param => ReadableAs ReadsParam ts
  | .args => ∀ line, ReadableAs (ReadsList (ReadsExpr 0)) (ts ++ [⟨.closeParen, line⟩])
  | .argList => ReadableAs (ReadsSeparated (ReadsExpr 0)) ts
  | .expr => ReadableAs (ReadsExpr 0) ts
  | .type => ∃ w line type, ts = [⟨w, line⟩] ∧ w.type? = some type
  | .operator => ∃ w line op, ts = [⟨w, line⟩] ∧ w.operator? = some op

/-- Tokens that can be cut into readable parts along a list of symbols. -/
def Matches : List Symbol → List Located → Prop
  | [], ts => ts = []
  | .token w :: σ, ts => ∃ line us, ts = ⟨w, line⟩ :: us ∧ Matches σ us
  | .identifier :: σ, ts => ∃ name line us, ts = ⟨.identifier name, line⟩ :: us ∧ Matches σ us
  | .number :: σ, ts => ∃ w line us, ts = ⟨w, line⟩ :: us ∧
      ((∃ value, w = .intLit value) ∨ ∃ value, w = .floatLit value) ∧ Matches σ us
  | .phrase A :: σ, ts => ∃ us vs, ts = us ++ vs ∧ Readable us A ∧ Matches σ vs

variable {rhs : List Symbol} {ts : List Located}

/-- Whatever a production makes of expressions that can be read can be read as an expression. -/
private theorem readable_expr (hrhs : rhs ∈ productions .expr) (h : Matches rhs ts) :
    Readable ts .expr := by
  intro c
  simp only [productions, List.mem_cons, List.not_mem_nil, or_false] at hrhs
  obtain rfl | rfl | rfl | rfl := hrhs
  · obtain ⟨us, _, rfl, hus, _, _, rfl, ⟨w, line, op, rfl, hop⟩, vs, _, rfl, hvs, rfl⟩ := h
    obtain ⟨lhs, c₁, hlhs⟩ := hus c
    obtain ⟨rhs, c', hrhs⟩ := hvs c₁
    obtain ⟨e, he⟩ := hrhs.merge hlhs hop
    rw [List.append_nil]
    exact ⟨e, c', he⟩
  · obtain ⟨line, _, rfl, us, _, rfl, hus, line', _, rfl, rfl⟩ := h
    obtain ⟨e, c', he⟩ := hus c
    exact ⟨e, c', .parens he⟩
  · obtain ⟨_, line, _, rfl, ⟨value, rfl⟩ | ⟨value, rfl⟩, rfl⟩ := h
    · exact ⟨_, c, .int⟩
    · exact ⟨_, c, .float⟩
  · obtain ⟨name, line, _, rfl, rfl⟩ := h
    exact ⟨_, _, .var⟩

private theorem readable_type (hrhs : rhs ∈ productions .type) (h : Matches rhs ts) :
    Readable ts .type := by
  simp only [productions, List.mem_cons, List.not_mem_nil, or_false] at hrhs
  obtain rfl | rfl := hrhs
  all_goals
    obtain ⟨line, _, rfl, rfl⟩ := h
    exact ⟨_, line, _, rfl, rfl⟩

private theorem readable_operator (hrhs : rhs ∈ productions .operator) (h : Matches rhs ts) :
    Readable ts .operator := by
  simp only [productions, List.mem_cons, List.not_mem_nil, or_false] at hrhs
  obtain rfl | rfl | rfl | rfl | rfl | rfl | rfl := hrhs
  all_goals
    obtain ⟨line, _, rfl, rfl⟩ := h
    exact ⟨_, line, _, rfl, rfl⟩

section Lists

variable {α : Type} {item : ReadingOf α} {A L : Category}

/-- A list with commas can be read, if its items can. -/
private theorem readable_separated (hA : ∀ us, Readable us A → ReadableAs item us)
    (hL : ∀ us, Readable us L → ReadableAs (ReadsSeparated item) us)
    (hrhs : rhs ∈ [[.phrase A], [.phrase A, .token .comma, .phrase L]]) (h : Matches rhs ts) :
    ReadableAs (ReadsSeparated item) ts := by
  intro c
  simp only [List.mem_cons, List.not_mem_nil, or_false] at hrhs
  obtain rfl | rfl := hrhs
  · obtain ⟨us, _, rfl, hus, rfl⟩ := h
    obtain ⟨a, c', ha⟩ := hA us hus c
    rw [List.append_nil]
    exact ⟨[a], c', .one ha⟩
  · obtain ⟨us, _, rfl, hus, line, _, rfl, vs, _, rfl, hvs, rfl⟩ := h
    obtain ⟨a, c₁, ha⟩ := hA us hus c
    obtain ⟨as, c', has⟩ := hL vs hvs c₁
    rw [List.append_nil]
    exact ⟨a :: as, c', .cons ha has⟩

/-- A list can be read up to its closing parenthesis. It may be empty. -/
private theorem readable_list (hL : ∀ us, Readable us L → ReadableAs (ReadsSeparated item) us)
    (hrhs : rhs ∈ [[], [.phrase L]]) (h : Matches rhs ts) (line : Nat) :
    ReadableAs (ReadsList item) (ts ++ [⟨.closeParen, line⟩]) := by
  intro c
  simp only [List.mem_cons, List.not_mem_nil, or_false] at hrhs
  obtain rfl | rfl := hrhs
  · obtain rfl : ts = [] := h
    exact ⟨[], c, .nil⟩
  · obtain ⟨us, _, rfl, hus, rfl⟩ := h
    obtain ⟨as, c', has⟩ := hL us hus c
    rw [List.append_nil]
    exact ⟨as, c', .items has⟩

end Lists

/-- Whatever a production makes of phrases that can be read can be read as a simple statement. -/
private theorem readable_simple (hrhs : rhs ∈ productions .simple) (h : Matches rhs ts) :
    Readable ts .simple := by
  intro c
  simp only [productions, List.mem_cons, List.not_mem_nil, or_false] at hrhs
  obtain rfl | rfl | rfl | rfl := hrhs
  · obtain ⟨_, _, rfl, ⟨w, line, type, rfl, hw⟩, name, line', _, rfl, rfl⟩ := h
    exact ⟨_, _, .declare hw⟩
  · obtain ⟨_, _, rfl, ⟨w, line, type, rfl, hw⟩, name, line', _, rfl, eq, _, rfl, us, _, rfl, hus,
      rfl⟩ := h
    obtain ⟨e, c', he⟩ := hus c
    rw [List.append_nil]
    exact ⟨_, _, .declareAssign hw he⟩
  · obtain ⟨name, line, _, rfl, eq, _, rfl, us, _, rfl, hus, rfl⟩ := h
    obtain ⟨e, c', he⟩ := hus c
    rw [List.append_nil]
    exact ⟨_, _, .assign he⟩
  · obtain ⟨name, line, _, rfl, opening, _, rfl, us, _, rfl, hus, closing, _, rfl, rfl⟩ := h
    obtain ⟨args, c', hargs⟩ := hus closing c
    exact ⟨_, _, .call hargs⟩

/-- Whatever a production makes of phrases that can be read can be read as a statement. -/
private theorem readable_statement (hrhs : rhs ∈ productions .statement) (h : Matches rhs ts) :
    Readable ts .statement := by
  intro c
  simp only [productions, List.mem_cons, List.not_mem_nil, or_false] at hrhs
  obtain rfl | rfl | rfl | rfl | rfl | rfl | rfl := hrhs
  · obtain ⟨us, _, rfl, hus, semi, _, rfl, rfl⟩ := h
    obtain ⟨st, c', hst⟩ := hus c
    exact ⟨st, c', .simple hst⟩
  · obtain ⟨_, _, rfl, ⟨w, line, type, rfl, hw⟩, name, line', _, rfl, opening, _, rfl, ps, _, rfl,
      hps, closing, _, rfl, bs, _, rfl, hbs, rfl⟩ := h
    obtain ⟨params, c₁, hparams⟩ := hps closing c
    -- the header is declared only when the parameters have been read
    obtain rfl : c₁ = c := Parser.readsList_readsParam_checker hparams
    obtain ⟨ss, c', hss⟩ := hbs (c₁.declareFunction name type params)
    rw [List.append_nil, List.append_cons ps]
    exact ⟨_, c', .function hw hparams hss⟩
  · obtain ⟨line, _, rfl, us, _, rfl, hus, semi, _, rfl, rfl⟩ := h
    obtain ⟨e, c', he⟩ := hus c
    exact ⟨_, c', .ret he⟩
  · obtain ⟨line, _, rfl, opening, _, rfl, us, _, rfl, hus, closing, _, rfl, bs, _, rfl, hbs,
      rfl⟩ := h
    obtain ⟨e, c₁, he⟩ := hus c
    obtain ⟨ss, c', hss⟩ := hbs c₁
    rw [List.append_nil]
    exact ⟨_, c', .ifThen he hss⟩
  · obtain ⟨line, _, rfl, opening, _, rfl, us, _, rfl, hus, closing, _, rfl, bs, _, rfl, hbs,
      line', _, rfl, bs', _, rfl, hbs', rfl⟩ := h
    obtain ⟨e, c₁, he⟩ := hus c
    obtain ⟨ss, c₂, hss⟩ := hbs c₁
    obtain ⟨ss', c', hss'⟩ := hbs' c₂
    rw [List.append_nil]
    exact ⟨_, c', .ifElse he hss hss'⟩
  · obtain ⟨line, _, rfl, opening, _, rfl, us, _, rfl, hus, closing, _, rfl, bs, _, rfl, hbs,
      rfl⟩ := h
    obtain ⟨e, c₁, he⟩ := hus c
    obtain ⟨ss, c', hss⟩ := hbs c₁
    rw [List.append_nil]
    exact ⟨_, c', .loop he hss⟩
  · obtain ⟨line, _, rfl, opening, _, rfl, is, _, rfl, his, semi, _, rfl, us, _, rfl, hus, semi',
      _, rfl, ps, _, rfl, hps, closing, _, rfl, bs, _, rfl, hbs, rfl⟩ := h
    obtain ⟨init, c₁, hinit⟩ := his c.openScope
    obtain ⟨e, c₂, he⟩ := hus c₁
    obtain ⟨step, c₃, hstep⟩ := hps c₂
    obtain ⟨ss, c', hss⟩ := hbs c₃
    rw [List.append_nil]
    exact ⟨_, _, .forLoop hinit he hstep hss⟩

/-- The productions preserve readability. -/
theorem readable_of_matches {A : Category} (hrhs : rhs ∈ productions A) (h : Matches rhs ts) :
    Readable ts A := by
  cases A with
  | expr => exact readable_expr hrhs h
  | type => exact readable_type hrhs h
  | operator => exact readable_operator hrhs h
  | simple => exact readable_simple hrhs h
  | statement => exact readable_statement hrhs h
  | program =>
    obtain rfl : rhs = _ := List.mem_singleton.mp hrhs
    obtain ⟨us, _, rfl, hus, rfl⟩ := h
    rw [List.append_nil]
    exact hus
  | block =>
    intro c
    obtain rfl : rhs = _ := List.mem_singleton.mp hrhs
    obtain ⟨opening, _, rfl, us, _, rfl, hus, closing, _, rfl, rfl⟩ := h
    obtain ⟨ss, c', hss⟩ := hus c.openScope
    exact ⟨ss, _, .block hss⟩
  | statements =>
    intro c
    simp only [productions, List.mem_cons, List.not_mem_nil, or_false] at hrhs
    obtain rfl | rfl := hrhs
    · obtain rfl : ts = [] := h
      exact ⟨[], c, .nil⟩
    · obtain ⟨us, _, rfl, hus, vs, _, rfl, hvs, rfl⟩ := h
      obtain ⟨st, c₁, hst⟩ := hus c
      obtain ⟨ss, c', hss⟩ := hvs c₁
      rw [List.append_nil]
      exact ⟨_, c', .cons hst hss⟩
  | params => exact readable_list (L := .paramList) (fun _ h => h) hrhs h
  | paramList =>
    exact readable_separated (A := .param) (L := .paramList) (fun _ h => h) (fun _ h => h) hrhs h
  | param =>
    intro c
    obtain rfl : rhs = _ := List.mem_singleton.mp hrhs
    obtain ⟨_, _, rfl, ⟨w, line, type, rfl, hw⟩, name, line', _, rfl, rfl⟩ := h
    exact ⟨_, c, .mk hw⟩
  | args => exact readable_list (L := .argList) (fun _ h => h) hrhs h
  | argList =>
    exact readable_separated (A := .expr) (L := .argList) (fun _ h => h) (fun _ h => h) hrhs h

/-- Tokens whose words are derived are readable part by part. -/
theorem matches_of_derives {σ : List Symbol} (h : Derives σ (words ts)) : Matches σ ts := by
  generalize hws : words ts = ws at h
  induction h generalizing ts with
  | nil => exact List.map_eq_nil_iff.mp hws
  | token _ ih =>
    obtain ⟨⟨w, line⟩, us, rfl, rfl, hus⟩ := List.map_eq_cons_iff.mp hws
    exact ⟨line, us, rfl, ih hus⟩
  | identifier _ ih =>
    obtain ⟨⟨w, line⟩, us, rfl, rfl, hus⟩ := List.map_eq_cons_iff.mp hws
    exact ⟨_, line, us, rfl, ih hus⟩
  | int _ ih =>
    obtain ⟨⟨w, line⟩, us, rfl, rfl, hus⟩ := List.map_eq_cons_iff.mp hws
    exact ⟨_, line, us, rfl, .inl ⟨_, rfl⟩, ih hus⟩
  | float _ ih =>
    obtain ⟨⟨w, line⟩, us, rfl, rfl, hus⟩ := List.map_eq_cons_iff.mp hws
    exact ⟨_, line, us, rfl, .inr ⟨_, rfl⟩, ih hus⟩
  | phrase hrhs _ _ ih ih' =>
    obtain ⟨us, vs, rfl, hus, hvs⟩ := List.map_eq_append_iff.mp hws
    exact ⟨us, vs, rfl, readable_of_matches hrhs (ih hus), ih' hvs⟩

/-- An accepted list of tokens is a word of the grammar. -/
theorem word_of_parse {tokens : List Located} {p : Program}
    (h : parse tokens c = (.ok p, c')) : Word .program (words tokens) := by
  obtain ⟨c₁, hreads, -⟩ := parse_eq_ok_iff.mp h
  exact .word (by simp [productions, category]) (word_phrase hreads)

/-- A word of the grammar is accepted. -/
theorem exists_parse_of_word {tokens : List Located} (h : Word .program (words tokens))
    (c : Checker) : ∃ p c', parse tokens c = (.ok p, c') := by
  obtain ⟨us, _, rfl, hus, rfl⟩ := matches_of_derives h
  obtain ⟨ss, c', hreads⟩ := hus c
  rw [List.append_nil]
  exact ⟨⟨ss⟩, _, parse_eq_ok_iff.mpr ⟨c', hreads, rfl⟩⟩

end Grammar

/-- **The parser accepts exactly the words of the grammar,** whatever the lines of the tokens are
and whatever the checker already knows. -/
theorem parse_isOk_iff_derives (tokens : List Located) (c : Checker) :
    (parse tokens c).1.isOk = true ↔ Grammar.Word .program (tokens.map (·.token)) := by
  constructor
  · intro h
    cases hparse : parse tokens c with
    | mk result c' =>
      cases result with
      | error e => simp [hparse, Except.isOk, Except.toBool] at h
      | ok p => exact Grammar.word_of_parse hparse
  · intro h
    obtain ⟨p, c', hparse⟩ := Grammar.exists_parse_of_word h c
    rw [hparse]
    rfl

end TinyImp
