import TinyImp.Proofs.Checking.Noninterference
import TinyImp.Proofs.Parsing.Printing
import TinyImp.Proofs.Parsing.Rereading

/-!
# A `for` loop and the `while` loop that it stands for

A `for` loop is read as a block with what comes first and a loop, and the step of the `for` loop is
the last statement in the body of that loop. The same can be written by hand: what comes first as a
statement of its own, and behind it a `while` loop with the step at the end of its body.

**The two have the same code** (`text_for_eq_text_while`), wherever in a program the `for` loop
stands. They are not parsed alike. The step is read before the body in the one and behind it in the
other, one has a scope more than the other, and what comes first stays declared behind the `while`
loop, so that the types of variables all over the rest of the program may differ. So the two
programs are compared by their code only (`Stmt.SameCode`), and the readings around the loop are
taken with whatever checker there is (`Emits`). The place of the loop is found by going down the
reading of the program (`Reads.unfolds`); that the loop found there has the parts it was written
with is due to the parser, since a phrase ends in one place only.
-/

namespace TinyImp

open Grammar (words Word readable_of_word)

/-! ### Statements with the same code -/

/-- Expressions that differ in their types only have the same code as conditions. -/
theorem Expr.conditionCode_congr {e e' : Expr} (h : e'.erase = e.erase) (reg : Nat)
    (ifZero : String) : e'.conditionCode reg ifZero = e.conditionCode reg ifZero := by
  rw [← e'.conditionCode_erase, h, e.conditionCode_erase]

private theorem Expr.registers_congr {e e' : Expr} (h : e'.erase = e.erase) :
    e'.registers = e.registers := by
  rw [← e'.registers_erase, h, e.registers_erase]

namespace Stmt

/-- The statements have the same code wherever it starts, and go through as many registers and
labels. -/
structure SameCode (ss ss' : List Stmt) : Prop where
  registers : registersAll ss = registersAll ss'
  labels : labelsAll ss = labelsAll ss'
  code (reg label : Nat) : codeAll reg label ss = codeAll reg label ss'

namespace SameCode

variable {ss ss' ss'' rest rest' : List Stmt} {e e' : Expr}

/-- Statements that are the same without their types have the same code. -/
private theorem of_eraseAll (h : eraseAll ss = eraseAll ss') : SameCode ss ss' where
  registers := by rw [← registersAll_eraseAll ss, h, registersAll_eraseAll]
  labels := by rw [← labelsAll_eraseAll ss, h, labelsAll_eraseAll]
  code reg label := by rw [← codeAll_eraseAll reg label ss, h, codeAll_eraseAll]

private theorem of_erase {s s' : Stmt} (h : s'.erase = s.erase) : SameCode [s'] [s] :=
  of_eraseAll (by simp [eraseAll, h])

private theorem symm (h : SameCode ss ss') : SameCode ss' ss where
  registers := h.registers.symm
  labels := h.labels.symm
  code reg label := (h.code reg label).symm

private theorem trans (h : SameCode ss ss') (h' : SameCode ss' ss'') : SameCode ss ss'' where
  registers := h.registers.trans h'.registers
  labels := h.labels.trans h'.labels
  code reg label := (h.code reg label).trans (h'.code reg label)

/-- Code is the same part by part. -/
private theorem append (h : SameCode ss ss') (h' : SameCode rest rest') :
    SameCode (ss ++ rest) (ss' ++ rest') where
  registers := by rw [registersAll_append, registersAll_append, h.registers, h'.registers]
  labels := by rw [labelsAll_append, labelsAll_append, h.labels, h'.labels]
  code reg label := by
    rw [codeAll_append, codeAll_append, h.registers, h.labels, h.code, h'.code]

/-- A block adds nothing to the code of its statements. -/
theorem block (ss : List Stmt) : SameCode ss [.block ss] where
  registers := by simp [registersAll, Stmt.registers]
  labels := by simp [labelsAll, Stmt.labels]
  code reg label := by simp [codeAll, Stmt.code]

/-- An `if` with the same condition, types apart, and a block with the same code has the same code.
-/
private theorem ifThen (he : e'.erase = e.erase) (h : SameCode ss ss') :
    SameCode [.ifThen e' ss] [.ifThen e ss'] where
  registers := by simp [registersAll, Stmt.registers, Expr.registers_congr he, h.registers]
  labels := by simp [labelsAll, Stmt.labels, h.labels]
  code reg label := by
    simp [codeAll, Stmt.code, Expr.registers_congr he, Expr.conditionCode_congr he, h.code]

private theorem ifElse (he : e'.erase = e.erase) (h : SameCode ss ss') (h' : SameCode rest rest') :
    SameCode [.ifElse e' ss rest] [.ifElse e ss' rest'] where
  registers := by
    simp [registersAll, Stmt.registers, Expr.registers_congr he, h.registers, h'.registers]
  labels := by simp [labelsAll, Stmt.labels, h.labels, h'.labels]
  code reg label := by
    simp [codeAll, Stmt.code, Expr.registers_congr he, Expr.conditionCode_congr he, h.registers,
      h.labels, h.code, h'.code]

/-- The same holds of loops. -/
private theorem loop (he : e'.erase = e.erase) (h : SameCode ss ss') :
    SameCode [.loop e' ss] [.loop e ss'] where
  registers := by simp [registersAll, Stmt.registers, Expr.registers_congr he, h.registers]
  labels := by simp [labelsAll, Stmt.labels, h.labels]
  code reg label := by
    simp [codeAll, Stmt.code, Expr.registers_congr he, Expr.conditionCode_congr he, h.code]

private theorem function (name : String) (type : Ty) (params : List Param) (h : SameCode ss ss') :
    SameCode [.function name type params ss] [.function name type params ss'] where
  registers := by simp [registersAll, Stmt.registers, h.registers]
  labels := by simp [labelsAll, Stmt.labels, h.labels]
  code reg label := by simp [codeAll, Stmt.code, h.code]

end SameCode

end Stmt

open Stmt (SameCode)

/-! ### Tokens that are read as statements with a given code -/

private theorem Reads.single {ts : List Located} {c c' : Checker} {s : Stmt}
    (h : Reads ts c (.statement s) c') : Reads ts c (.body [s]) c' := by
  rw [← List.append_nil ts]
  exact .cons h .nil

/-- Bodies are read one behind the other. -/
private theorem Reads.append {ts us : List Located} {c c₁ c' : Checker} {ss ss' : List Stmt}
    (h : Reads ts c (.body ss) c₁) (h' : Reads us c₁ (.body ss') c') :
    Reads (ts ++ us) c (.body (ss ++ ss')) c' := by
  induction ss generalizing ts c with
  | nil =>
    cases h
    exact h'
  | cons s ss ih =>
    cases h with
    | cons first rest =>
      rw [List.append_assoc]
      exact .cons first (ih rest)

/-- The tokens are read, with every checker in front of them, as a phrase of a kind whose statements
have the code of the given ones. -/
def Emits (kind : List Stmt → Phrase) (ts : List Located) (ss : List Stmt) : Prop :=
  ∀ d, ∃ ss' d', Reads ts d (kind ss') d' ∧ SameCode ss' ss

namespace Emits

variable {kind : List Stmt → Phrase} {ts us es is ps bs bs' : List Located} {c c' : Checker}
  {e : Expr} {ss ss' : List Stmt}

/-- Tokens that emit some code emit all statements with that code. -/
private theorem congr (h : Emits kind ts ss) (hcode : SameCode ss ss') : Emits kind ts ss' := by
  intro d
  obtain ⟨ss₁, d', hreads, hss₁⟩ := h d
  exact ⟨ss₁, d', hreads, hss₁.trans hcode⟩

/-- What is read emits its own code. -/
private theorem of_body (h : Reads ts c (.body ss) c') : Emits .body ts ss := by
  intro d
  obtain ⟨ss', d', hreads, herase⟩ := Parser.decides_body.reread h [] rfl rfl d
  exact ⟨ss', d', hreads, .of_eraseAll herase⟩

private theorem of_block (h : Reads ts c (.block ss) c') : Emits .block ts ss := by
  intro d
  obtain ⟨ss', d', hreads, herase⟩ := Parser.decides_block.reread h [] trivial rfl d
  exact ⟨ss', d', hreads, .of_eraseAll herase⟩

private theorem of_statement {s : Stmt} (h : Reads ts c (.statement s) c') : Emits .body ts [s] :=
  of_body h.single

/-- Bodies behind each other emit their codes behind each other. -/
private theorem append (h : Emits .body ts ss) (h' : Emits .body us ss') :
    Emits .body (ts ++ us) (ss ++ ss') := by
  intro d
  obtain ⟨ss₁, d₁, hreads, hcode⟩ := h d
  obtain ⟨ss₂, d', hreads', hcode'⟩ := h' d₁
  exact ⟨ss₁ ++ ss₂, d', hreads.append hreads', hcode.append hcode'⟩

/-- Braces add no code. -/
private theorem block {opening closing : Nat} (h : Emits .body ts ss) :
    Emits .block (⟨.openBrace, opening⟩ :: (ts ++ [⟨.closeBrace, closing⟩])) ss := by
  intro d
  obtain ⟨ss', d', hreads, hcode⟩ := h d.openScope
  exact ⟨ss', d'.closeScope, .block hreads, hcode⟩

private theorem ifThen {line opening closing : Nat} (he : ReadsExpr 0 es c e c')
    (h : Emits .block bs ss) :
    Emits .body (⟨.kwIf, line⟩ :: ⟨.openParen, opening⟩ :: (es ++ ⟨.closeParen, closing⟩ :: bs))
      [.ifThen e ss] := by
  intro d
  obtain ⟨e', d₁, hcond, herase⟩ := he.reread d
  obtain ⟨ss', d', hreads, hcode⟩ := h d₁
  exact ⟨_, d', .single (.ifThen hcond hreads), .ifThen herase hcode⟩

private theorem ifElse {line opening closing line' : Nat} (he : ReadsExpr 0 es c e c')
    (h : Emits .block bs ss) (h' : Emits .block bs' ss') :
    Emits .body (⟨.kwIf, line⟩ :: ⟨.openParen, opening⟩ ::
      (es ++ ⟨.closeParen, closing⟩ :: (bs ++ ⟨.kwElse, line'⟩ :: bs'))) [.ifElse e ss ss'] := by
  intro d
  obtain ⟨e', d₁, hcond, herase⟩ := he.reread d
  obtain ⟨ss₁, d₂, hreads, hcode⟩ := h d₁
  obtain ⟨ss₂, d', hreads', hcode'⟩ := h' d₂
  exact ⟨_, d', .single (.ifElse hcond hreads hreads'), .ifElse herase hcode hcode'⟩

private theorem loop {line opening closing : Nat} (he : ReadsExpr 0 es c e c')
    (h : Emits .block bs ss) :
    Emits .body (⟨.kwWhile, line⟩ :: ⟨.openParen, opening⟩ :: (es ++ ⟨.closeParen, closing⟩ :: bs))
      [.loop e ss] := by
  intro d
  obtain ⟨e', d₁, hcond, herase⟩ := he.reread d
  obtain ⟨ss', d', hreads, hcode⟩ := h d₁
  exact ⟨_, d', .single (.loop hcond hreads), .loop herase hcode⟩

/-- **A `for` loop emits its first statement and a loop**, whose body ends with the step. -/
private theorem forLoop {line opening semi semi' closing : Nat} {c₁ c₁' c₂ c₂' : Checker}
    {init step : Stmt} (hinit : ReadsSimple is c init c') (he : ReadsExpr 0 es c₁ e c₁')
    (hstep : ReadsSimple ps c₂ step c₂') (h : Emits .block bs ss) :
    Emits .body (⟨.kwFor, line⟩ :: ⟨.openParen, opening⟩ :: (is ++ ⟨.semicolon, semi⟩ ::
      (es ++ ⟨.semicolon, semi'⟩ :: (ps ++ ⟨.closeParen, closing⟩ :: bs))))
      [.block [init, .loop e (ss ++ [step])]] := by
  intro d
  obtain ⟨init', d₁, hinit', herase₁⟩ := hinit.reread d.openScope
  obtain ⟨e', d₂, hcond, herase₂⟩ := he.reread d₁
  obtain ⟨step', d₃, hstep', herase₃⟩ := hstep.reread d₂
  obtain ⟨ss', d', hreads, hcode⟩ := h d₃
  have hparts : SameCode ([init'] ++ [.loop e' (ss' ++ [step'])])
      ([init] ++ [.loop e (ss ++ [step])]) :=
    .append (.of_erase herase₁) (.loop herase₂ (hcode.append (.of_erase herase₃)))
  exact ⟨_, d'.closeScope, .single (.forLoop hinit' hcond hstep' hreads),
    (SameCode.block _).symm.trans (hparts.trans (.block _))⟩

private theorem function {line line' opening : Nat} {w : Token} {name : String} {type : Ty}
    {params : List Param} (htype : w.type? = some type)
    (hparams : ReadsList ReadsParam ps c params c) (h : Emits .block bs ss) :
    Emits .body (⟨w, line⟩ :: ⟨.identifier name, line'⟩ :: ⟨.openParen, opening⟩ :: (ps ++ bs))
      [.function name type params ss] := by
  intro d
  obtain ⟨ss', d', hreads, hcode⟩ := h (d.declareFunction name type params)
  exact ⟨_, d', .single (.function htype (Parser.reread_params hparams d) hreads),
    .function name type params hcode⟩

end Emits

/-! ### The tokens of the two loops -/

/-- The tokens of a `for` loop. -/
def forTokens (init condition step body : List Token) : List Token :=
  .kwFor :: .openParen :: (init ++ .semicolon :: (condition ++ .semicolon :: (step ++
    .closeParen :: .openBrace :: (body ++ [.closeBrace]))))

/-- The tokens of the `while` loop that a `for` loop stands for. What comes first is done before the
loop, and the step behind the body. -/
def whileTokens (init condition step body : List Token) : List Token :=
  init ++ .semicolon :: .kwWhile :: .openParen :: (condition ++
    .closeParen :: .openBrace :: (body ++ step ++ [.semicolon, .closeBrace]))

/-- The tokens between those of a `for` loop that are fixed, and the lines of the fixed ones. -/
structure ForParts where
  init : List Located
  condition : List Located
  step : List Located
  body : List Located
  line : Nat
  opening : Nat
  semi : Nat
  semi' : Nat
  closing : Nat
  opening' : Nat
  closing' : Nat

namespace ForParts

/-- The `for` loop with these parts. -/
def asFor (f : ForParts) : List Located :=
  ⟨.kwFor, f.line⟩ :: ⟨.openParen, f.opening⟩ :: (f.init ++ ⟨.semicolon, f.semi⟩ ::
    (f.condition ++ ⟨.semicolon, f.semi'⟩ :: (f.step ++ ⟨.closeParen, f.closing⟩ ::
      ⟨.openBrace, f.opening'⟩ :: (f.body ++ [⟨.closeBrace, f.closing'⟩]))))

/-- The `while` loop that it stands for, with its tokens in another order. -/
def asWhile (f : ForParts) : List Located :=
  f.init ++ ⟨.semicolon, f.semi⟩ :: ⟨.kwWhile, f.line⟩ :: ⟨.openParen, f.opening⟩ ::
    (f.condition ++ ⟨.closeParen, f.closing⟩ :: ⟨.openBrace, f.opening'⟩ ::
      (f.body ++ f.step ++ [⟨.semicolon, f.semi'⟩, ⟨.closeBrace, f.closing'⟩]))

/-- The parts are of the categories that the grammar asks for. -/
structure WellFormed (f : ForParts) : Prop where
  init : Word .simple (words f.init)
  condition : Word .expr (words f.condition)
  step : Word .simple (words f.step)
  body : Word .statements (words f.body)

/-- Tokens that spell a `for` loop have its parts, on the lines that they are on. -/
private theorem exists_of_words {init condition step body : List Token} {ts : List Located}
    (h : words ts = forTokens init condition step body) :
    ∃ f : ForParts, ts = f.asFor ∧ words f.init = init ∧ words f.condition = condition ∧
      words f.step = step ∧ words f.body = body := by
  simp only [forTokens, words_eq_cons_iff, List.map_eq_append_iff, List.map_eq_nil_iff] at h
  obtain ⟨line, _, rfl, opening, _, rfl, is, _, rfl, his, semi, _, rfl, es, _, rfl, hes, semi', _,
    rfl, ps, _, rfl, hps, closing, _, rfl, opening', _, rfl, bs, _, rfl, hbs, closing', _, rfl,
    rfl⟩ := h
  exact ⟨⟨is, es, ps, bs, line, opening, semi, semi', closing, opening', closing'⟩, rfl, his, hes,
    hps, hbs⟩

/-- The parts put together in the other way spell the `while` loop. -/
private theorem words_asWhile (f : ForParts) :
    words f.asWhile =
      whileTokens (words f.init) (words f.condition) (words f.step) (words f.body) := by
  simp [asWhile, whileTokens]

/-- The parts of a `for` loop are determined by its tokens and those behind it. -/
theorem asFor_append_inj {f g : ForParts} {post post' : List Located} (hf : f.WellFormed)
    (hg : g.WellFormed) (h : f.asFor ++ post = g.asFor ++ post') :
    f.init = g.init ∧ f.condition = g.condition ∧ f.step = g.step ∧ f.body = g.body ∧
      post = post' := by
  simp only [asFor, List.cons_append, List.append_assoc, List.cons.injEq, Located.mk.injEq,
    true_and] at h
  obtain ⟨-, -, h⟩ := h
  obtain ⟨hinit, h⟩ := Parser.decides_simpleStatement.append_inj (readable_of_word hf.init)
    (readable_of_word hg.init) (.semicolon _ _) (.semicolon _ _) h
  obtain ⟨hcondition, h⟩ := Parser.decides_expression.append_inj (readable_of_word hf.condition)
    (readable_of_word hg.condition) (.of_not_operator rfl) (.of_not_operator rfl)
    (List.cons.inj h).2
  obtain ⟨hstep, h⟩ := Parser.decides_simpleStatement.append_inj (readable_of_word hf.step)
    (readable_of_word hg.step) (.closeParen _ _) (.closeParen _ _) (List.cons.inj h).2
  have hblock {f : ForParts} (hf : f.WellFormed) : Grammar.ReadableAs Parser.ReadsBlock
      (⟨.openBrace, f.opening'⟩ :: (f.body ++ [⟨.closeBrace, f.closing'⟩])) := by
    intro c
    obtain ⟨ss, c', hss⟩ := readable_of_word hf.body c.openScope
    exact ⟨ss, c'.closeScope, .block hss⟩
  obtain ⟨hbody, hpost⟩ := Parser.decides_block.append_inj (hblock hf) (hblock hg) trivial trivial
    (by simpa using (List.cons.inj h).2)
  exact ⟨hinit, hcondition, hstep, (List.append_inj' (List.cons.inj hbody).2 rfl).1, hpost⟩

/-- The `while` loop has the code of the block that the `for` loop is read as. -/
theorem emits_asWhile (f : ForParts) {c₀ c₀' c₁ c₁' c₂ c₂' c₃ c₃' : Checker} {init step : Stmt}
    {e : Expr} {ss : List Stmt} (hinit : ReadsSimple f.init c₀ init c₀')
    (hcondition : ReadsExpr 0 f.condition c₁ e c₁') (hstep : ReadsSimple f.step c₂ step c₂')
    (hbody : Reads f.body c₃ (.body ss) c₃') :
    Emits .body f.asWhile [.block [init, .loop e (ss ++ [step])]] := by
  have htokens : f.asWhile = (f.init ++ [⟨.semicolon, f.semi⟩]) ++ (⟨.kwWhile, f.line⟩ ::
      ⟨.openParen, f.opening⟩ :: (f.condition ++ ⟨.closeParen, f.closing⟩ ::
        (⟨.openBrace, f.opening'⟩ :: ((f.body ++ (f.step ++ [⟨.semicolon, f.semi'⟩])) ++
          [⟨.closeBrace, f.closing'⟩])))) := by
    simp [asWhile]
  have hinit' : Emits .body (f.init ++ [⟨.semicolon, f.semi⟩]) [init] :=
    .of_statement (.simple hinit)
  have hbody' : Emits .body (f.body ++ (f.step ++ [⟨.semicolon, f.semi'⟩])) (ss ++ [step]) :=
    (Emits.of_body hbody).append (.of_statement (.simple hstep))
  rw [htokens]
  exact (hinit'.append (.loop hcondition hbody'.block)).congr (.block _)

end ForParts

/-! ### Where a `for` loop stands -/

/-- No `for` loop starts at any of the tokens. -/
def NoFor (ts : List Located) : Prop :=
  ∀ t ∈ ts, t.token ≠ .kwFor

namespace NoFor

variable {t : Located} {ts us : List Located}

@[simp] theorem nil : NoFor [] := fun _ h => absurd h List.not_mem_nil

@[simp] theorem cons_iff : NoFor (t :: ts) ↔ t.token ≠ .kwFor ∧ NoFor ts :=
  List.forall_mem_cons

@[simp] theorem append_iff : NoFor (ts ++ us) ↔ NoFor ts ∧ NoFor us :=
  List.forall_mem_append

end NoFor

private theorem Token.ne_kwFor_of_type? {w : Token} {type : Ty} (h : w.type? = some type) :
    w ≠ .kwFor := by
  rintro rfl
  cases h

/-- There is no `for` in an expression. -/
private theorem ReadsExpr.noFor {m : Nat} {ts : List Located} {c c' : Checker} {e : Expr}
    (h : ReadsExpr m ts c e c') : NoFor ts := by
  induction h with
  | var | int | float => simp
  | parens _ ih => simp [ih]
  | binary hop _ _ _ ihl ihr =>
    have hw : ∀ {w : Token} {op}, w.operator? = some op → w ≠ .kwFor := by
      rintro _ _ h rfl
      cases h
    simp [ihl, ihr, hw hop]

private theorem ReadsParam.noFor {ts : List Located} {c c' : Checker} {p : Param}
    (h : ReadsParam ts c p c') : NoFor ts := by
  obtain ⟨htype⟩ := h
  simp [Token.ne_kwFor_of_type? htype]

private theorem ReadsSeparated.noFor {α : Type} {item : ReadingOf α}
    (hitem : ∀ {ts c a c'}, item ts c a c' → NoFor ts) {ts : List Located} {c c' : Checker}
    {as : List α} (h : ReadsSeparated item ts c as c') : NoFor ts := by
  induction h with
  | one h => exact hitem h
  | cons h _ ih => simp [hitem h, ih]

private theorem ReadsList.noFor {α : Type} {item : ReadingOf α}
    (hitem : ∀ {ts c a c'}, item ts c a c' → NoFor ts) {ts : List Located} {c c' : Checker}
    {as : List α} (h : ReadsList item ts c as c') : NoFor ts := by
  cases h with
  | nil => simp
  | items h => simp [h.noFor hitem]

/-- There is no `for` in a simple statement. -/
private theorem ReadsSimple.noFor {ts : List Located} {c c' : Checker} {s : Stmt}
    (h : ReadsSimple ts c s c') : NoFor ts := by
  cases h with
  | declare htype => simp [Token.ne_kwFor_of_type? htype]
  | declareAssign htype init => simp [Token.ne_kwFor_of_type? htype, init.noFor]
  | assign value => simp [value.noFor]
  | call h => simp [h.noFor fun h => h.noFor]

/-- At every `for` among the tokens there is a loop, and with the loop written out the tokens have
the property. -/
def Unfolds (P : List Located → Prop) (ts : List Located) : Prop :=
  ∀ pre line rest, ts = pre ++ ⟨.kwFor, line⟩ :: rest →
    ∃ (f : ForParts) (post : List Located), f.WellFormed ∧
      ⟨.kwFor, line⟩ :: rest = f.asFor ++ post ∧ P (pre ++ f.asWhile ++ post)

namespace Unfolds

variable {P Q : List Located → Prop} {ts us : List Located}

private theorem mono (h : Unfolds P ts) (hPQ : ∀ us, P us → Q us) : Unfolds Q ts := by
  intro pre line rest hts
  obtain ⟨f, post, hf, hrest, hP⟩ := h pre line rest hts
  exact ⟨f, post, hf, hrest, hPQ _ hP⟩

/-- Where there is no `for`, there is nothing to unfold. -/
private theorem of_noFor (h : NoFor ts) : Unfolds P ts := by
  rintro pre line rest rfl
  simp at h

/-- Of two lists of tokens one is left as it is. -/
theorem append (h : Unfolds (fun vs => P (vs ++ us)) ts)
    (h' : Unfolds (fun vs => P (ts ++ vs)) us) : Unfolds P (ts ++ us) := by
  intro pre line rest heq
  obtain ⟨vs, rfl, hvs⟩ | ⟨vs, rfl, hvs⟩ := List.append_eq_append_iff.mp heq
  · obtain ⟨f, post, hf, hrest, hP⟩ := h' vs line rest hvs
    exact ⟨f, post, hf, hrest, by simpa using hP⟩
  · cases vs with
    | nil =>
      obtain ⟨f, post, hf, hrest, hP⟩ := h' [] line rest hvs.symm
      exact ⟨f, post, hf, hrest, by simpa using hP⟩
    | cons t vs =>
      rw [List.cons_append] at hvs
      obtain ⟨rfl, rfl⟩ := List.cons.inj hvs
      obtain ⟨f, post, hf, hrest, hP⟩ := h pre line vs rfl
      refine ⟨f, post ++ us, hf, ?_, by simpa using hP⟩
      rw [← List.append_assoc, ← hrest, List.cons_append]

/-- Only what stands behind tokens without `for` is unfolded. -/
private theorem behind (hts : NoFor ts) (h : Unfolds (fun vs => P (ts ++ vs)) us) :
    Unfolds P (ts ++ us) :=
  append (of_noFor hts) h

private theorem cons {t : Located} (ht : t.token ≠ .kwFor)
    (h : Unfolds (fun vs => P (t :: vs)) ts) :
    Unfolds P (t :: ts) :=
  behind (NoFor.cons_iff.mpr ⟨ht, .nil⟩) h

/-- A loop itself, and the loops in it. -/
theorem asFor {f : ForParts} (hf : f.WellFormed) (h : P f.asWhile) {line : Nat}
    (heq : ⟨.kwFor, line⟩ :: ts = f.asFor) (h' : Unfolds (fun vs => P (⟨.kwFor, line⟩ :: vs)) ts) :
    Unfolds P (⟨.kwFor, line⟩ :: ts) := by
  intro pre line' rest hts
  cases pre with
  | nil => exact ⟨f, [], hf, by rw [List.append_nil, ← heq, hts, List.nil_append], by simpa using h⟩
  | cons t pre =>
    obtain ⟨rfl, rfl⟩ := List.cons.inj hts
    obtain ⟨f, post, hf, hrest, hP⟩ := h' pre line' rest rfl
    exact ⟨f, post, hf, hrest, hP⟩

end Unfolds

/-- The kind of a phrase. A statement is read as a body, for it may become two. -/
def Phrase.kind : Phrase → List Stmt → Phrase
  | .block _ => .block
  | _ => .body

/-- The statements of a phrase. -/
def Phrase.statements : Phrase → List Stmt
  | .statement s => [s]
  | .body ss => ss
  | .block ss => ss

/-- A `for` loop in a phrase can be written out. -/
theorem Reads.unfolds {ts : List Located} {c c' : Checker} {p : Phrase} (h : Reads ts c p c') :
    Unfolds (Emits p.kind · p.statements) ts := by
  -- A `for` is never in a part without blocks. In a block it is written out by the hypothesis of
  -- the induction, and all that is read behind it is read again, since the checker is another one
  -- there.
  induction h with
  | simple h => exact .of_noFor (by simp [h.noFor])
  | @function line line' opening w name type ps bs params c c' ss htype hparams _ ih =>
    have hps : NoFor ps := hparams.noFor fun h => h.noFor
    exact .cons (Token.ne_kwFor_of_type? htype) (.cons (by simp) (.cons (by simp)
      (.behind hps (ih.mono fun _ h => .function htype hparams h))))
  | ifThen condition _ ih =>
    exact .cons (by simp) (.cons (by simp) (.behind condition.noFor (.cons (by simp)
      (ih.mono fun _ h => .ifThen condition h))))
  | ifElse condition body otherwise ih ih' =>
    exact .cons (by simp) (.cons (by simp) (.behind condition.noFor (.cons (by simp)
      (.append (ih.mono fun _ h => .ifElse condition h (.of_block otherwise))
        (.cons (by simp) (ih'.mono fun _ h => .ifElse condition (.of_block body) h))))))
  | loop condition _ ih =>
    exact .cons (by simp) (.cons (by simp) (.behind condition.noFor (.cons (by simp)
      (ih.mono fun _ h => .loop condition h))))
  | @forLoop line opening semi semi' closing is es ps _ _ _ _ _ _ _ _ _ _ hinit condition hstep body
      ih =>
    cases body with
    | @block opening' closing' bs _ _ _ hbody =>
      let f : ForParts := ⟨is, es, ps, bs, line, opening, semi, semi', closing, opening', closing'⟩
      have hf : f.WellFormed := ⟨Grammar.word_simple hinit, Grammar.word_expr condition,
        Grammar.word_simple hstep, Grammar.word_phrase hbody⟩
      -- It is the loop itself that is written out, or one in its body.
      refine .asFor hf (f.emits_asWhile hinit condition hstep hbody) rfl ?_
      exact .cons (by simp) (.behind hinit.noFor (.cons (by simp) (.behind condition.noFor
        (.cons (by simp) (.behind hstep.noFor (.cons (by simp)
          (ih.mono fun _ h => .forLoop hinit condition hstep h)))))))
  | ret value => exact .of_noFor (by simp [value.noFor])
  | nil => exact .of_noFor .nil
  | cons first rest ih ih' =>
    exact .append (ih.mono fun _ h => h.append (.of_body rest))
      (ih'.mono fun _ h => (Emits.of_statement first).append h)
  | block _ ih => exact .cons (by simp) (.append (ih.mono fun _ h => h.block) (.of_noFor (by simp)))

/-- **A `for` loop has the code of the `while` loop that it stands for.** Let a program be parsed
that has a `for` loop with the given parts somewhere. With the loop written out, what comes first in
front of a `while` loop and the step at the end of its body, the tokens are parsed as well, whatever
the lines of the tokens are and with every checker, and the text of the code is the same. -/
theorem text_for_eq_text_while {pre init condition step body post : List Token}
    (hinit : Word .simple init) (hcondition : Word .expr condition) (hstep : Word .simple step)
    (hbody : Word .statements body) {ts us : List Located}
    (hts : words ts = pre ++ forTokens init condition step body ++ post)
    (hus : words us = pre ++ whileTokens init condition step body ++ post) {c c' : Checker}
    {p : Program} (hparse : parse ts c = (.ok p, c')) (d : Checker) :
    ∃ q d', parse us d = (.ok q, d') ∧ q.assembly.text = p.assembly.text := by
  obtain ⟨_, post', rfl, hpre, rfl⟩ := List.map_eq_append_iff.mp hts
  obtain ⟨pre', _, rfl, rfl, hfor⟩ := List.map_eq_append_iff.mp hpre
  obtain ⟨f, rfl, rfl, rfl, rfl, rfl⟩ := ForParts.exists_of_words hfor
  obtain ⟨c₁, hreads, -⟩ := parse_eq_ok_iff.mp hparse
  rw [List.append_assoc] at hreads
  -- The parser finds a loop there, and it has to be this one.
  obtain ⟨g, post, hg, heq, hemits⟩ := hreads.unfolds pre' f.line _ rfl
  obtain ⟨hinit', hcondition', hstep', hbody', rfl⟩ :=
    ForParts.asFor_append_inj ⟨hinit, hcondition, hstep, hbody⟩ hg heq
  obtain ⟨ss, c₂, hss, hcode⟩ := hemits c
  have hwhile : parse (pre' ++ g.asWhile ++ post') c = (.ok ⟨ss⟩, c₂.note (.parsed ss.length)) :=
    parse_eq_ok_iff.mpr ⟨c₂, hss, rfl⟩
  have hwords : words us = words (pre' ++ g.asWhile ++ post') := by
    rw [hus, hinit', hcondition', hstep', hbody', ← g.words_asWhile, words, words,
      List.map_append, List.map_append]
  obtain ⟨q, d', hq, herase⟩ := parse_ok_of_words hwords hwhile d
  refine ⟨q, d', hq, ?_⟩
  rw [Program.assembly_congr herase]
  exact hcode.code 0 0

/-- The parts of a loop that calls a function three times, and what stands around the loop. -/
def threeCalls (loop : List Token → List Token → List Token → List Token → List Token) :
    List Token :=
  [.kwInt, .identifier "f", .openParen, .closeParen, .openBrace] ++
    loop [.kwInt, .identifier "i", .assign, .intLit 0] [.identifier "i", .less, .intLit 3]
      [.identifier "i", .assign, .identifier "i", .plus, .intLit 1]
      [.identifier "g", .openParen, .identifier "i", .closeParen, .semicolon] ++
    [.closeBrace]

/-- With the loop written out on another line, and with a checker that knows the variable, the
function has the same code. -/
theorem threeCalls_text :
    ∃ p q, (parse ((threeCalls forTokens).map (⟨·, 1⟩)) {}).1 = .ok p ∧
      (parse ((threeCalls whileTokens).map (⟨·, 2⟩)) (Checker.declare {} "i" .float)).1 = .ok q ∧
      q.assembly.text = p.assembly.text := by
  have hinit : ReadsSimple [⟨.kwInt, 1⟩, ⟨.identifier "i", 1⟩, ⟨.assign, 1⟩, ⟨.intLit 0, 1⟩]
      {} _ _ :=
    .declareAssign rfl .int
  have hcondition : ReadsExpr 0 [⟨.identifier "i", 1⟩, ⟨.less, 1⟩, ⟨.intLit 3, 1⟩] {} _ _ :=
    .binary rfl (Nat.zero_le _) .var .int
  have hstep : ReadsSimple [⟨.identifier "i", 1⟩, ⟨.assign, 1⟩, ⟨.identifier "i", 1⟩, ⟨.plus, 1⟩,
      ⟨.intLit 1, 1⟩] {} _ _ :=
    .assign (.binary rfl (Nat.zero_le _) .var .int)
  have harg : ReadsExpr 0 [⟨.identifier "i", 1⟩] {} _ _ := .var
  have hbody : Reads [⟨.identifier "g", 1⟩, ⟨.openParen, 1⟩, ⟨.identifier "i", 1⟩, ⟨.closeParen, 1⟩,
      ⟨.semicolon, 1⟩] {} (.body [_]) _ :=
    .single (.simple (.call (.items (.one harg))))
  have hwords (loop : List Token → List Token → List Token → List Token → List Token) (line : Nat) :
      words ((threeCalls loop).map (⟨·, line⟩)) = threeCalls loop := by
    simp [words, Function.comp_def]
  have hok : (parse ((threeCalls forTokens).map (⟨·, 1⟩)) {}).1.isOk = true := by decide +kernel
  cases hparse : parse ((threeCalls forTokens).map (⟨·, 1⟩)) {} with
  | mk result c' =>
    cases result with
    | error e =>
      rw [hparse] at hok
      cases hok
    | ok p =>
      obtain ⟨q, d', hq, htext⟩ := text_for_eq_text_while (Grammar.word_simple hinit)
        (Grammar.word_expr hcondition) (Grammar.word_simple hstep) (Grammar.word_phrase hbody)
        (hwords forTokens 1) (hwords whileTokens 2) hparse (Checker.declare {} "i" .float)
      exact ⟨p, q, rfl, by rw [hq], htext⟩

end TinyImp
