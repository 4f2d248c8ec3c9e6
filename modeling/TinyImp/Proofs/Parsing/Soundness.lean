import TinyImp.Proofs.Parsing.Expression

/-!
# What the parser returns is a reading

Each parser for statements is **sound** for its reading: the tokens that a successful run reads,
the value that it returns and the checker before and after it are related by the reading. The
bounds on nesting and repetition play no part here, for a run that meets its bound fails. Only the
list of statements up to the end of the text needs a bound that is large enough.
-/

namespace TinyImp

namespace Parser

variable {α : Type} {s s' : ParseState}

/-- What the parser returns is a reading of the tokens that it has read. -/
def Sound (p : Parser α) (R : ReadingOf α) : Prop :=
  ∀ s a s', p s = .ok a s' → ∃ ts, s.Reads ts s' ∧ R ts s.checker a s'.checker

/-- The reading as a block. -/
abbrev ReadsBlock : ReadingOf (List Stmt) := fun ts c ss c' => Reads ts c (.block ss) c'

/-- The reading as a statement. -/
abbrev ReadsStatement : ReadingOf Stmt := fun ts c st c' => Reads ts c (.statement st) c'

/-- What is parsed as an expression is a reading of one. -/
theorem expression_sound : Sound expression (ReadsExpr 0) := fun _ _ _ h =>
  have ⟨ts, hts, hreads, _⟩ := expression_eq_ok h
  ⟨ts, hts, hreads⟩

/-! ### Lists in parentheses -/

section Lists

variable {item : Parser α} {R : ReadingOf α}

/-- What is parsed as a list with commas is a reading of one, if that holds of the items. -/
private theorem commaSeparated_sound (hitem : Sound item R) (n : Nat) :
    Sound (commaSeparated item n) (ReadsSeparated R) := by
  induction n with
  | zero =>
    intro s as s' h
    exact absurd h failAtEnd_ne_ok
  | succ n ih =>
    intro s as s' h
    obtain ⟨a, s₁, hfirst, h⟩ := bind_eq_ok.mp h
    obtain ⟨ts, hts, hreads⟩ := hitem s a s₁ hfirst
    obtain ⟨b, s₂, hskip, hmore⟩ := bind_eq_ok.mp h
    obtain ⟨rfl, line, hcomma, hc⟩ | ⟨rfl, rfl, -⟩ := skipIf_eq_ok hskip
    · obtain ⟨others, s₃, hothers, hend⟩ := bind_eq_ok.mp hmore
      obtain ⟨rfl, rfl⟩ := pure_eq_ok.mp hend
      obtain ⟨us, hus, hreads'⟩ := ih s₂ others s₃ hothers
      exact ⟨_, hts.trans (hcomma.trans hus), .cons hreads (hc ▸ hreads')⟩
    · obtain ⟨rfl, rfl⟩ := pure_eq_ok.mp hmore
      exact ⟨ts, hts, .one hreads⟩

/-- What is parsed as a list in parentheses is a reading of one, if that holds of the items. -/
theorem listInParens_sound (hitem : Sound item R) : Sound (listInParens item) (ReadsList R) := by
  intro s as s' h
  obtain ⟨next, s₀, hpeek, hlist⟩ := bind_eq_ok.mp h
  obtain ⟨-, rfl⟩ : _ = next ∧ s = s₀ := by simpa using hpeek
  split at hlist
  all_goals
    obtain ⟨items, s₁, hitems, hend⟩ := bind_eq_ok.mp hlist
    obtain ⟨_, s₂, hclose, hend⟩ := bind_eq_ok.mp hend
    obtain ⟨line, hread, hc⟩ := expect_eq_ok hclose
    obtain ⟨rfl, rfl⟩ := pure_eq_ok.mp hend
    rw [hc]
  · obtain ⟨rfl, rfl⟩ := pure_eq_ok.mp hitems
    exact ⟨_, hread, .nil⟩
  · obtain ⟨ts, hts, hreads⟩ := commaSeparated_sound hitem _ _ _ _ hitems
    exact ⟨_, hts.trans hread, .items hreads⟩

end Lists

/-- What is parsed as a parameter is a reading of one. -/
theorem parameter_sound : Sound parameter ReadsParam := by
  intro s p s' h
  obtain ⟨type, s₁, htype, h⟩ := bind_eq_ok.mp h
  obtain ⟨⟨name, line⟩, s₂, hname, h⟩ := bind_eq_ok.mp h
  obtain ⟨rfl, rfl⟩ := pure_eq_ok.mp h
  obtain ⟨w, line', hw, hread, hc⟩ := typeSpecifier_eq_ok htype
  obtain ⟨hread', hc'⟩ := identifier_eq_ok hname
  rw [hc', hc]
  exact ⟨_, hread.trans hread', .mk hw⟩

/-- Reading parameters does not touch the checker. -/
theorem readsList_readsParam_checker {ts : List Located} {c c' : Checker} {ps : List Param}
    (h : ReadsList ReadsParam ts c ps c') : c' = c := by
  cases h with
  | nil => rfl
  | items h =>
    induction h with
    | one h => cases h; rfl
    | cons h _ ih => cases h; exact ih

/-! ### Statements without blocks -/

/-- The rest of a variable declaration, read behind a type and a name. -/
theorem variableTail_sound {type : Ty} {name : String} {line : Nat} {st : Stmt}
    (h : variableTail type name line s = .ok st s') :
    ∃ ts, s.Reads ts s' ∧ ∀ w line', w.type? = some type →
      ReadsSimple (⟨w, line'⟩ :: ⟨.identifier name, line⟩ :: ts) s.checker st s'.checker := by
  obtain ⟨b, s₁, hskip, htail⟩ := bind_eq_ok.mp h
  obtain ⟨rfl, eq, hread, hc⟩ | ⟨rfl, rfl, -⟩ := skipIf_eq_ok hskip
  · obtain ⟨e, s₂, he, htail⟩ := bind_eq_ok.mp htail
    obtain ⟨rfl, rfl⟩ : .declareAssign name type e = st ∧
        { s₂ with checker := (s₂.checker.declare name type).assign name line } = s' := by
      simpa using htail
    obtain ⟨ts, hts, hreads⟩ := expression_sound s₁ e s₂ he
    exact ⟨_, (hread.trans hts).checker_right _,
      fun w line' hw => .declareAssign hw (hc ▸ hreads)⟩
  · obtain ⟨rfl, rfl⟩ : .declare name type = st ∧
        { s₁ with checker := s₁.checker.declare name type } = s' := by simpa using htail
    exact ⟨[], (ParseState.Reads.refl s₁).checker_right _, fun w line' hw => .declare hw⟩

/-- What is parsed as an assignment or a call is a reading of one. -/
private theorem assignOrCall_sound : Sound assignOrCall ReadsSimple := by
  intro s st s' h
  obtain ⟨⟨name, line⟩, s₁, hname, h⟩ := bind_eq_ok.mp h
  obtain ⟨hread, hc⟩ := identifier_eq_ok hname
  obtain ⟨next, s₂, hpeek, h⟩ := bind_eq_ok.mp h
  obtain ⟨-, rfl⟩ : _ = next ∧ s₁ = s₂ := by simpa using hpeek
  cases next with
  | none => exact absurd h unexpected_ne_ok
  | some w =>
    cases w with
    | assign =>
      obtain ⟨_, s₂, heq, h⟩ := bind_eq_ok.mp h
      obtain ⟨e, s₃, he, h⟩ := bind_eq_ok.mp h
      obtain ⟨rfl, rfl⟩ : .assign name e = st ∧
          { s₃ with checker := s₃.checker.assign name line } = s' := by simpa using h
      obtain ⟨eq, hread', hc'⟩ := expect_eq_ok heq
      obtain ⟨ts, hts, hreads⟩ := expression_sound s₂ e s₃ he
      rw [← hc, ← hc']
      exact ⟨_, (hread.trans (hread'.trans hts)).checker_right _, .assign hreads⟩
    | openParen =>
      obtain ⟨_, s₂, hopen, h⟩ := bind_eq_ok.mp h
      obtain ⟨args, s₃, hargs, h⟩ := bind_eq_ok.mp h
      obtain ⟨rfl, rfl⟩ : .call name args = st ∧
          { s₃ with checker := s₃.checker.call name args line } = s' := by simpa using h
      obtain ⟨opening, hread', hc'⟩ := expect_eq_ok hopen
      obtain ⟨ts, hts, hreads⟩ := listInParens_sound expression_sound s₂ args s₃ hargs
      rw [← hc, ← hc']
      exact ⟨_, (hread.trans (hread'.trans hts)).checker_right _, .call hreads⟩
    | _ => exact absurd h unexpected_ne_ok

/-- What is parsed as a simple statement is a reading of one. -/
theorem simpleStatement_sound : Sound simpleStatement ReadsSimple := by
  intro s st s' h
  obtain ⟨next, s₀, hpeek, hsimple⟩ := bind_eq_ok.mp h
  obtain ⟨-, rfl⟩ : _ = next ∧ s = s₀ := by simpa using hpeek
  cases next with
  | none => exact absurd hsimple unexpected_ne_ok
  | some w =>
    cases w with
    | identifier name => exact assignOrCall_sound s st s' hsimple
    | kwInt | kwFloat =>
      obtain ⟨type, s₁, htype, htail⟩ := bind_eq_ok.mp hsimple
      obtain ⟨⟨name, line⟩, s₂, hname, htail⟩ := bind_eq_ok.mp htail
      obtain ⟨w, line', hw, hread, hc⟩ := typeSpecifier_eq_ok htype
      obtain ⟨hread', hc'⟩ := identifier_eq_ok hname
      obtain ⟨ts, hts, hreads⟩ := variableTail_sound htail
      rw [← hc, ← hc']
      exact ⟨_, hread.trans (hread'.trans hts), hreads w line' hw⟩
    | _ => exact absurd hsimple unexpected_ne_ok

/-- A condition is an expression between parentheses. -/
theorem condition_sound {e : Expr} (h : condition s = .ok e s') :
    ∃ opening es closing, s.Reads (⟨.openParen, opening⟩ :: (es ++ [⟨.closeParen, closing⟩])) s' ∧
      ReadsExpr 0 es s.checker e s'.checker := by
  obtain ⟨_, s₁, hopen, hinner⟩ := bind_eq_ok.mp h
  obtain ⟨e', s₂, he, hend⟩ := bind_eq_ok.mp hinner
  obtain ⟨_, s₃, hclose, hend⟩ := bind_eq_ok.mp hend
  obtain ⟨rfl, rfl⟩ := pure_eq_ok.mp hend
  obtain ⟨opening, hread, hc⟩ := expect_eq_ok hopen
  obtain ⟨es, hes, hreads⟩ := expression_sound s₁ e' s₂ he
  obtain ⟨closing, hread', hc'⟩ := expect_eq_ok hclose
  rw [hc', ← hc]
  exact ⟨opening, es, closing, hread.trans (hes.trans hread'), hreads⟩

private theorem returnStatement_sound : Sound returnStatement ReadsStatement := by
  intro s st s' h
  obtain ⟨_, s₁, hret, hrest⟩ := bind_eq_ok.mp h
  obtain ⟨e, s₂, he, hrest⟩ := bind_eq_ok.mp hrest
  obtain ⟨_, s₃, hsemi, hend⟩ := bind_eq_ok.mp hrest
  obtain ⟨rfl, rfl⟩ := pure_eq_ok.mp hend
  obtain ⟨line, hread, hc⟩ := expect_eq_ok hret
  obtain ⟨es, hes, hreads⟩ := expression_sound s₁ e s₂ he
  obtain ⟨semi, hread', hc'⟩ := expect_eq_ok hsemi
  rw [hc', ← hc]
  exact ⟨_, hread.trans (hes.trans hread'), .ret hreads⟩

/-! ### Statements with blocks -/

section Blocks

variable {block : Parser (List Stmt)} (hblock : Sound block ReadsBlock)
include hblock

/-- The rest of a function declaration, read behind a type and a name. -/
theorem functionTail_sound {type : Ty} {name : String} {st : Stmt}
    (h : functionTail block type name s = .ok st s') :
    ∃ ts, s.Reads ts s' ∧ ∀ w line line', w.type? = some type →
      ReadsStatement (⟨w, line⟩ :: ⟨.identifier name, line'⟩ :: ts) s.checker st s'.checker := by
  obtain ⟨_, s₁, hopen, hrest⟩ := bind_eq_ok.mp h
  obtain ⟨params, s₂, hparams, hrest⟩ := bind_eq_ok.mp hrest
  obtain ⟨_, s₃, htell, hrest⟩ := bind_eq_ok.mp hrest
  obtain ⟨ss, s₄, hbody, hend⟩ := bind_eq_ok.mp hrest
  obtain ⟨rfl, rfl⟩ := pure_eq_ok.mp hend
  obtain ⟨opening, hread, hc⟩ := expect_eq_ok hopen
  obtain ⟨ps, hps, hreads⟩ := listInParens_sound parameter_sound s₁ params s₂ hparams
  obtain rfl : { s₂ with checker := s₂.checker.declareFunction name type params } = s₃ := by
    simpa using htell
  obtain ⟨bs, hbs, hreads'⟩ := hblock _ ss s₄ hbody
  have hc₂ := readsList_readsParam_checker hreads
  rw [hc₂, hc] at hreads
  simp only [hc₂, hc] at hreads'
  exact ⟨⟨.openParen, opening⟩ :: (ps ++ bs), hread.trans (hps.trans hbs.of_checker_left),
    fun w line line' hw => .function hw hreads hreads'⟩

/-- What is parsed as a declaration of a variable or a function is a reading of one. -/
private theorem declaration_sound : Sound (declaration block) ReadsStatement := by
  intro s st s' h
  obtain ⟨type, s₁, htype, htail⟩ := bind_eq_ok.mp h
  obtain ⟨⟨name, line⟩, s₂, hname, htail⟩ := bind_eq_ok.mp htail
  obtain ⟨w, line', hw, hread, hc⟩ := typeSpecifier_eq_ok htype
  obtain ⟨hread', hc'⟩ := identifier_eq_ok hname
  obtain ⟨next, s₀, hpeek, htail⟩ := bind_eq_ok.mp htail
  obtain ⟨-, rfl⟩ : _ = next ∧ s₂ = s₀ := by simpa using hpeek
  rw [← hc, ← hc']
  split at htail
  · obtain ⟨ts, hts, hreads⟩ := functionTail_sound hblock htail
    exact ⟨_, hread.trans (hread'.trans hts), hreads w line' line hw⟩
  · obtain ⟨st', s₃, hvar, hend⟩ := bind_eq_ok.mp htail
    obtain ⟨_, s₄, hsemi, hend⟩ := bind_eq_ok.mp hend
    obtain ⟨rfl, rfl⟩ := pure_eq_ok.mp hend
    obtain ⟨ts, hts, hreads⟩ := variableTail_sound hvar
    obtain ⟨semi, hread'', hc''⟩ := expect_eq_ok hsemi
    rw [hc'']
    exact ⟨_, hread.trans (hread'.trans (hts.trans hread'')), .simple (hreads w line' hw)⟩

private theorem ifStatement_sound : Sound (ifStatement block) ReadsStatement := by
  intro s st s' h
  obtain ⟨_, s₁, hif, hrest⟩ := bind_eq_ok.mp h
  obtain ⟨e, s₂, hcond, hrest⟩ := bind_eq_ok.mp hrest
  obtain ⟨ss, s₃, hbody, hrest⟩ := bind_eq_ok.mp hrest
  obtain ⟨b, s₄, hskip, htail⟩ := bind_eq_ok.mp hrest
  obtain ⟨line, hread, hc⟩ := expect_eq_ok hif
  obtain ⟨opening, es, closing, hes, hreads⟩ := condition_sound hcond
  obtain ⟨bs, hbs, hreads'⟩ := hblock s₂ ss s₃ hbody
  rw [hc] at hreads
  obtain ⟨rfl, line', hread', hc'⟩ | ⟨rfl, rfl, -⟩ := skipIf_eq_ok hskip
  · obtain ⟨ss', s₅, hbody', hend⟩ := bind_eq_ok.mp htail
    obtain ⟨rfl, rfl⟩ := pure_eq_ok.mp hend
    obtain ⟨bs', hbs', hreads''⟩ := hblock s₄ ss' s₅ hbody'
    rw [hc'] at hreads''
    have hmove := hread.trans (hes.trans (hbs.trans (hread'.trans hbs')))
    simp only [List.cons_append, List.append_assoc, List.nil_append] at hmove
    exact ⟨_, hmove, .ifElse hreads hreads' hreads''⟩
  · obtain ⟨rfl, rfl⟩ := pure_eq_ok.mp htail
    have hmove := hread.trans (hes.trans hbs)
    simp only [List.cons_append, List.append_assoc, List.nil_append] at hmove
    exact ⟨_, hmove, .ifThen hreads hreads'⟩

private theorem whileStatement_sound : Sound (whileStatement block) ReadsStatement := by
  intro s st s' h
  obtain ⟨_, s₁, hwhile, hrest⟩ := bind_eq_ok.mp h
  obtain ⟨e, s₂, hcond, hrest⟩ := bind_eq_ok.mp hrest
  obtain ⟨ss, s₃, hbody, hend⟩ := bind_eq_ok.mp hrest
  obtain ⟨rfl, rfl⟩ := pure_eq_ok.mp hend
  obtain ⟨line, hread, hc⟩ := expect_eq_ok hwhile
  obtain ⟨opening, es, closing, hes, hreads⟩ := condition_sound hcond
  obtain ⟨bs, hbs, hreads'⟩ := hblock s₂ ss s₃ hbody
  rw [hc] at hreads
  have hmove := hread.trans (hes.trans hbs)
  simp only [List.cons_append, List.append_assoc, List.nil_append] at hmove
  exact ⟨_, hmove, .loop hreads hreads'⟩

/-- What is parsed as a `for` loop is a reading of one, with its header and its body in scopes of
their own. -/
theorem forStatement_sound : Sound (forStatement block) ReadsStatement := by
  intro s st s' h
  obtain ⟨_, s₁, hfor, hrest⟩ := bind_eq_ok.mp h
  obtain ⟨_, s₂, hopen, hrest⟩ := bind_eq_ok.mp hrest
  obtain ⟨_, s₃, hscope, hrest⟩ := bind_eq_ok.mp hrest
  obtain ⟨init, s₄, hinit, hrest⟩ := bind_eq_ok.mp hrest
  obtain ⟨_, s₅, hsemi, hrest⟩ := bind_eq_ok.mp hrest
  obtain ⟨e, s₆, he, hrest⟩ := bind_eq_ok.mp hrest
  obtain ⟨_, s₇, hsemi', hrest⟩ := bind_eq_ok.mp hrest
  obtain ⟨step, s₈, hstep, hrest⟩ := bind_eq_ok.mp hrest
  obtain ⟨_, s₉, hclose, hrest⟩ := bind_eq_ok.mp hrest
  obtain ⟨ss, s₁₀, hbody, hrest⟩ := bind_eq_ok.mp hrest
  obtain ⟨rfl, rfl⟩ : .block [init, .loop e (ss ++ [step])] = st ∧
      { s₁₀ with checker := s₁₀.checker.closeScope } = s' := by simpa using hrest
  obtain rfl : { s₂ with checker := s₂.checker.openScope } = s₃ := by simpa using hscope
  obtain ⟨line, hread₁, hc₁⟩ := expect_eq_ok hfor
  obtain ⟨opening, hread₂, hc₂⟩ := expect_eq_ok hopen
  obtain ⟨is, his, hreads₃⟩ := simpleStatement_sound _ init s₄ hinit
  obtain ⟨semi, hread₄, hc₄⟩ := expect_eq_ok hsemi
  obtain ⟨es, hes, hreads₅⟩ := expression_sound s₅ e s₆ he
  obtain ⟨semi', hread₆, hc₆⟩ := expect_eq_ok hsemi'
  obtain ⟨ps, hps, hreads₇⟩ := simpleStatement_sound s₇ step s₈ hstep
  obtain ⟨closing, hread₈, hc₈⟩ := expect_eq_ok hclose
  obtain ⟨bs, hbs, hreads₉⟩ := hblock s₉ ss s₁₀ hbody
  -- tokens leave the checker alone, and the two ends of the scope leave the tokens alone
  simp only [hc₁, hc₂] at hreads₃
  rw [hc₄] at hreads₅
  rw [hc₆] at hreads₇
  rw [hc₈] at hreads₉
  have hmove := hread₁.trans (hread₂.trans (his.of_checker_left.trans (hread₄.trans (hes.trans
    (hread₆.trans (hps.trans (hread₈.trans hbs)))))))
  exact ⟨_, hmove.checker_right _, .forLoop hreads₃ hreads₅ hreads₇ hreads₉⟩

/-- What is parsed as a statement is a reading of one, if that holds of blocks. -/
private theorem statementOver_sound : Sound (statementOver block) ReadsStatement := by
  intro s st s' h
  obtain ⟨next, s₀, hpeek, hstmt⟩ := bind_eq_ok.mp h
  obtain ⟨-, rfl⟩ : _ = next ∧ s = s₀ := by simpa using hpeek
  cases next with
  | none => exact absurd hstmt unexpected_ne_ok
  | some w =>
    cases w with
    | kwInt | kwFloat => exact declaration_sound hblock s st s' hstmt
    | identifier name =>
      obtain ⟨st', s₁, hsimple, hend⟩ := bind_eq_ok.mp hstmt
      obtain ⟨_, s₂, hsemi, hend⟩ := bind_eq_ok.mp hend
      obtain ⟨rfl, rfl⟩ := pure_eq_ok.mp hend
      obtain ⟨ts, hts, hreads⟩ := assignOrCall_sound s st' s₁ hsimple
      obtain ⟨semi, hread, hc⟩ := expect_eq_ok hsemi
      rw [hc]
      exact ⟨_, hts.trans hread, .simple hreads⟩
    | kwReturn => exact returnStatement_sound s st s' hstmt
    | kwIf => exact ifStatement_sound hblock s st s' hstmt
    | kwWhile => exact whileStatement_sound hblock s st s' hstmt
    | kwFor => exact forStatement_sound hblock s st s' hstmt
    | _ => exact absurd hstmt unexpected_ne_ok

end Blocks

/-! ### Bodies -/

/-- Statements up to a closing brace are a body and the brace. -/
theorem untilBrace_sound {p : Parser Stmt} (hp : Sound p ReadsStatement) {n : Nat} {ss : List Stmt}
    (h : untilBrace p n s = .ok ss s') :
    ∃ ts closing, s.Reads (ts ++ [⟨.closeBrace, closing⟩]) s' ∧
      Reads ts s.checker (.body ss) s'.checker := by
  induction n generalizing s ss with
  | zero => exact absurd h failAtEnd_ne_ok
  | succ n ih =>
    obtain ⟨b, s₁, hskip, hrest⟩ := bind_eq_ok.mp h
    obtain ⟨rfl, closing, hread, hc⟩ | ⟨rfl, rfl, -⟩ := skipIf_eq_ok hskip
    · obtain ⟨rfl, rfl⟩ := pure_eq_ok.mp hrest
      rw [hc]
      exact ⟨[], closing, hread, .nil⟩
    · obtain ⟨st, s₂, hfirst, hrest⟩ := bind_eq_ok.mp hrest
      obtain ⟨ss', s₃, hothers, hend⟩ := bind_eq_ok.mp hrest
      obtain ⟨rfl, rfl⟩ := pure_eq_ok.mp hend
      obtain ⟨ts, hts, hreads⟩ := hp s₁ st s₂ hfirst
      obtain ⟨us, closing, hus, hreads'⟩ := ih hothers
      refine ⟨ts ++ us, closing, ?_, .cons hreads hreads'⟩
      rw [List.append_assoc]
      exact hts.trans hus

/-- What is parsed as a block is a reading of one, if that holds of the statements. -/
theorem blockOf_sound {p : Parser Stmt} (hp : Sound p ReadsStatement) :
    Sound (blockOf p) ReadsBlock := by
  intro s ss s' h
  obtain ⟨_, s₁, hopen, hrest⟩ := bind_eq_ok.mp h
  obtain ⟨_, s₂, hscope, hrest⟩ := bind_eq_ok.mp hrest
  obtain ⟨ss', s₃, hbody, hrest⟩ := bind_eq_ok.mp hrest
  obtain ⟨rfl, rfl⟩ : ss' = ss ∧ { s₃ with checker := s₃.checker.closeScope } = s' := by
    simpa using hrest
  obtain rfl : { s₁ with checker := s₁.checker.openScope } = s₂ := by simpa using hscope
  obtain ⟨opening, hread, hc⟩ := expect_eq_ok hopen
  obtain ⟨ts, closing, hts, hreads⟩ := untilBrace_sound hp hbody
  simp only [hc] at hreads
  exact ⟨_, (hread.trans hts.of_checker_left).checker_right _, .block hreads⟩

/-- **What is parsed as a statement is a reading of one**, within every bound. -/
theorem statementWithin_sound (n : Nat) : Sound (statementWithin n) ReadsStatement := by
  induction n with
  | zero =>
    intro s st s' h
    exact absurd h failAtEnd_ne_ok
  | succ n ih => exact statementOver_sound (blockOf_sound ih)

private theorem statement_sound : Sound statement ReadsStatement := fun s st s' h =>
  statementWithin_sound s.unread.length s st s' h

/-- Statements up to the end of the text leave nothing unread. -/
theorem untilEnd_sound {n : Nat} {ss : List Stmt} (hn : s.unread.length ≤ n)
    (h : untilEnd n s = .ok ss s') :
    Reads s.unread s.checker (.body ss) s'.checker ∧ s'.unread = [] := by
  induction n generalizing s ss with
  | zero =>
    obtain ⟨rfl, rfl⟩ := pure_eq_ok.mp h
    rw [List.length_eq_zero_iff.mp (Nat.le_zero.mp hn)]
    exact ⟨.nil, rfl⟩
  | succ n ih =>
    obtain ⟨next, s₀, hpeek, hrest⟩ := bind_eq_ok.mp h
    obtain ⟨rfl, rfl⟩ : _ = next ∧ s = s₀ := by simpa using hpeek
    split at hrest
    · rename_i hnone
      obtain ⟨rfl, rfl⟩ := pure_eq_ok.mp hrest
      have hnil : s.unread = [] := by simpa using hnone
      rw [hnil]
      exact ⟨.nil, rfl⟩
    · obtain ⟨st, s₁, hfirst, hrest⟩ := bind_eq_ok.mp hrest
      obtain ⟨ss', s₂, hothers, hend⟩ := bind_eq_ok.mp hrest
      obtain ⟨rfl, rfl⟩ := pure_eq_ok.mp hend
      obtain ⟨ts, hts, hreads⟩ := statement_sound s st s₁ hfirst
      have hlen := hts.length_eq
      have hpos := hreads.length_pos
      obtain ⟨hreads', hnil⟩ := ih (by omega) hothers
      rw [hts.unread_eq]
      exact ⟨.cons hreads hreads', hnil⟩

end Parser

end TinyImp
