import TinyImp.Proofs.Parsing.Soundness

/-!
# Every reading is what the parser returns

Each parser for statements is **complete** for its reading: it succeeds on the tokens of a reading
and returns its value, as long as what follows cannot be taken for a part of it and the bounds are
no smaller than the number of tokens. With soundness, a program is parsed if and only if its tokens
have a reading as a body (`parse_eq_ok_iff`).
-/

namespace TinyImp

private theorem Stops.of_next {m : Nat} {rest : List Located} {w : Token} (h : next? rest = some w)
    (hw : w.operator? = none) : Stops m rest := by
  intro op hop
  simp [h, hw] at hop

/-- Only two tokens name a type. -/
theorem Token.type?_eq_some {w : Token} {type : Ty} (h : w.type? = some type) :
    w = .kwInt ∨ w = .kwFloat := by
  cases w <;> simp_all [type?]

/-! ### How readings begin -/

/-- An expression does not begin with a closing parenthesis. -/
theorem ReadsExpr.head {n : Nat} {ts : List Located} {c c' : Checker} {e : Expr}
    (h : ReadsExpr n ts c e c') : ∃ t us, ts = t :: us ∧ t.token ≠ .closeParen := by
  induction h with
  | var | int | float | parens => exact ⟨_, _, rfl, by simp⟩
  | binary _ _ _ _ ih =>
    obtain ⟨t, us, rfl, ht⟩ := ih
    exact ⟨t, _, rfl, ht⟩

/-- A parameter does not begin with the parenthesis that ends the list. -/
theorem ReadsParam.head {ts : List Located} {c c' : Checker} {p : Param}
    (h : ReadsParam ts c p c') : ∃ t us, ts = t :: us ∧ t.token ≠ .closeParen := by
  obtain ⟨hw⟩ := h
  refine ⟨_, _, rfl, ?_⟩
  obtain rfl | rfl := Token.type?_eq_some hw <;> simp

/-- A statement begins neither with a closing brace nor with `else`. -/
theorem Reads.head {ts : List Located} {c c' : Checker} {s : Stmt}
    (h : Reads ts c (.statement s) c') :
    ∃ t us, ts = t :: us ∧ t.token ≠ .closeBrace ∧ t.token ≠ .kwElse := by
  cases h with
  | simple h =>
    cases h with
    | declare hw | declareAssign hw =>
      obtain rfl | rfl := Token.type?_eq_some hw <;> exact ⟨_, _, rfl, by simp⟩
    | assign | call => exact ⟨_, _, rfl, by simp⟩
  | function hw =>
    obtain rfl | rfl := Token.type?_eq_some hw <;> exact ⟨_, _, rfl, by simp⟩
  | ifThen | ifElse | loop | forLoop | ret => exact ⟨_, _, rfl, by simp⟩

/-- `else` does not follow a statement of a body. -/
theorem Reads.next_ne_else {ts rest : List Located} {c c' : Checker} {ss : List Stmt}
    (h : Reads ts c (.body ss) c') (hrest : next? rest ≠ some .kwElse) :
    next? (ts ++ rest) ≠ some .kwElse := by
  cases h with
  | nil => exact hrest
  | cons first _ =>
    obtain ⟨t, us, rfl, -, ht⟩ := first.head
    simpa using ht

namespace Parser

variable {α : Type} {ts rest : List Located} {c c' : Checker} {last : Nat}

/-- The parser returns the values of a reading wherever the tokens that follow are of a kind. -/
def Complete (p : Parser α) (R : ReadingOf α) (follow : List Located → Prop) : Prop :=
  ∀ ts c a c' rest last, R ts c a c' → follow rest →
    p ⟨ts ++ rest, last, c⟩ = .ok a ⟨rest, lineAfter last ts, c'⟩

/-! ### Lists in parentheses -/

section Lists

/-- An item of a list is followed by a comma or by the closing parenthesis. -/
def FollowsItem (rest : List Located) : Prop :=
  next? rest = some .comma ∨ next? rest = some .closeParen

/-- Behind an item no operator goes on. -/
private theorem FollowsItem.stops {m : Nat} (h : FollowsItem rest) : Stops m rest := by
  obtain h | h := h
  · exact .of_next h rfl
  · exact .of_next h rfl

/-- Every reading of an expression is found in front of what can follow an item. -/
private theorem expression_complete : Complete expression (ReadsExpr 0) FollowsItem :=
  fun _ _ _ _ _ _ h hrest => expression_append h hrest.stops

/-- **Every reading of a parameter** is found by the parser, whatever follows it. -/
theorem parameter_complete : Complete parameter ReadsParam FollowsItem := by
  rintro _ c _ _ rest last ⟨hw⟩ -
  simp [parameter, typeSpecifier_cons _ _ _ _ hw]

variable {item : Parser α} {R : ReadingOf α} (hitem : Complete item R FollowsItem)
  (hhead : ∀ ts c a c', R ts c a c' → ∃ t us, ts = t :: us ∧ t.token ≠ .closeParen)
include hitem hhead

/-- Every reading of a list is found in front of its closing parenthesis. -/
private theorem commaSeparated_append {as : List α} {n : Nat} (h : ReadsSeparated R ts c as c')
    (hn : ts.length ≤ n) (closing : Nat) (rest : List Located) (last : Nat) :
    commaSeparated item n ⟨ts ++ ⟨.closeParen, closing⟩ :: rest, last, c⟩ =
      .ok as ⟨⟨.closeParen, closing⟩ :: rest, lineAfter last ts, c'⟩ := by
  induction h generalizing n last with
  | @one ts _ _ _ h =>
    have hpos : 0 < ts.length := by
      obtain ⟨t, us, rfl, -⟩ := hhead _ _ _ _ h
      exact Nat.succ_pos _
    obtain ⟨n, rfl⟩ : ∃ m, n = m + 1 := ⟨n - 1, by omega⟩
    have hfirst := hitem _ _ _ _ (⟨.closeParen, closing⟩ :: rest) last h (.inr rfl)
    simp [commaSeparated, hfirst]
  | @cons line ts us c c₁ c' a as h others ih =>
    obtain ⟨n, rfl⟩ : ∃ m, n = m + 1 := ⟨n - 1, by simp at hn; omega⟩
    have hfirst := hitem _ _ _ _ (⟨.comma, line⟩ :: (us ++ ⟨.closeParen, closing⟩ :: rest)) last h
      (.inl rfl)
    have hn' : us.length ≤ n := by simp at hn; omega
    simp [commaSeparated, hfirst, ih hn']

/-- If the parser for the items finds every reading of an item, the parser for the list in
parentheses finds every reading of a list. -/
theorem listInParens_complete : Complete (listInParens item) (ReadsList R) fun _ => True := by
  rintro _ c as c' rest last h -
  cases h with
  | nil => simp [listInParens]
  | @items closing ts _ _ _ h =>
    have hne : next? (ts ++ ⟨.closeParen, closing⟩ :: rest) ≠ some .closeParen := by
      cases h with
      | one h | cons h =>
        obtain ⟨t, us, rfl, ht⟩ := hhead _ _ _ _ h
        simpa using ht
    have hitems := commaSeparated_append hitem hhead h
      (show ts.length ≤ (ts ++ ⟨.closeParen, closing⟩ :: rest).length by simp) closing rest last
    rw [List.append_assoc, listInParens, bind_apply, peek_apply]
    simp only [List.singleton_append, if_neg hne, bind_apply, bounded_apply, hitems]
    simp

end Lists

/-! ### Statements without blocks -/

/-- A simple statement is followed by a semicolon or by a closing parenthesis. -/
def FollowsSimple (rest : List Located) : Prop :=
  ∃ w line us, rest = ⟨w, line⟩ :: us ∧ (w = .semicolon ∨ w = .closeParen)

theorem FollowsSimple.semicolon (line : Nat) (us : List Located) :
    FollowsSimple (⟨.semicolon, line⟩ :: us) :=
  ⟨_, _, _, rfl, .inl rfl⟩

theorem FollowsSimple.closeParen (line : Nat) (us : List Located) :
    FollowsSimple (⟨.closeParen, line⟩ :: us) :=
  ⟨_, _, _, rfl, .inr rfl⟩

private theorem FollowsSimple.stops {m : Nat} (h : FollowsSimple rest) : Stops m rest := by
  obtain ⟨w, line, us, rfl, rfl | rfl⟩ := h
  · exact .of_not_operator rfl
  · exact .of_not_operator rfl

/-- A variable without a first value is declared. -/
private theorem variableTail_declare {type : Ty} {name : String} {line : Nat}
    (h : FollowsSimple rest) :
    variableTail type name line ⟨rest, last, c⟩ =
      .ok (.declare name type) ⟨rest, last, c.declare name type⟩ := by
  obtain ⟨w, line, us, rfl, rfl | rfl⟩ := h <;> simp [variableTail]

/-- A first value is read before the variable is declared and assigned to. -/
private theorem variableTail_assign {type : Ty} {name : String} {line eq : Nat} {e : Expr}
    (init : ReadsExpr 0 ts c e c') (h : FollowsSimple rest) :
    variableTail type name line ⟨⟨.assign, eq⟩ :: (ts ++ rest), last, c⟩ =
      .ok (.declareAssign name type e)
        ⟨rest, lineAfter eq ts, (c'.declare name type).assign name line⟩ := by
  simp [variableTail, expression_append init h.stops]

/-- The value is read before the target is assigned to. -/
private theorem assignOrCall_assign {name : String} {line eq : Nat} {e : Expr}
    (value : ReadsExpr 0 ts c e c') (h : FollowsSimple rest) :
    assignOrCall ⟨⟨.identifier name, line⟩ :: ⟨.assign, eq⟩ :: (ts ++ rest), last, c⟩ =
      .ok (.assign name e) ⟨rest, lineAfter eq ts, c'.assign name line⟩ := by
  simp [assignOrCall, expression_append value h.stops]

/-- The arguments are read before the call is checked. -/
private theorem assignOrCall_call {name : String} {line opening : Nat} {args : List Expr}
    (h : ReadsList (ReadsExpr 0) ts c args c') :
    assignOrCall ⟨⟨.identifier name, line⟩ :: ⟨.openParen, opening⟩ :: (ts ++ rest), last, c⟩ =
      .ok (.call name args) ⟨rest, lineAfter opening ts, c'.call name args line⟩ := by
  have hlist := listInParens_complete expression_complete (fun _ _ _ _ h => h.head)
    ts c args c' rest opening h trivial
  simp [assignOrCall, hlist]

/-- Every reading of a simple statement is found, if what follows cannot belong to the statement. -/
theorem simpleStatement_complete : Complete simpleStatement ReadsSimple FollowsSimple := by
  intro ts c st c' rest last h hrest
  cases h with
  | declare hw =>
    have htype := hw
    obtain rfl | rfl := Token.type?_eq_some hw <;>
      simp [simpleStatement, typeSpecifier_cons _ _ _ _ htype, variableTail_declare hrest]
  | declareAssign hw init =>
    have htype := hw
    obtain rfl | rfl := Token.type?_eq_some hw <;>
      simp [simpleStatement, typeSpecifier_cons _ _ _ _ htype, variableTail_assign init hrest]
  | assign value => simp [simpleStatement, assignOrCall_assign value hrest]
  | call h => simp [simpleStatement, assignOrCall_call h]

private theorem condition_append {opening closing : Nat} {e : Expr} (h : ReadsExpr 0 ts c e c') :
    condition ⟨⟨.openParen, opening⟩ :: (ts ++ ⟨.closeParen, closing⟩ :: rest), last, c⟩ =
      .ok e ⟨rest, closing, c'⟩ := by
  have hend : Stops 0 (⟨.closeParen, closing⟩ :: rest) := .of_not_operator rfl
  simp [condition, expression_append h hend]

/-! ### Statements with blocks -/

/-- A simple statement and its semicolon are a statement, whatever blocks are. -/
theorem statementOver_simple {block : Parser (List Stmt)} {semi : Nat} {st : Stmt}
    (h : ReadsSimple ts c st c') :
    statementOver block ⟨ts ++ ⟨.semicolon, semi⟩ :: rest, last, c⟩ = .ok st ⟨rest, semi, c'⟩ := by
  have hrest := FollowsSimple.semicolon semi rest
  cases h with
  | declare hw =>
    have htype := hw
    obtain rfl | rfl := Token.type?_eq_some hw <;>
      simp [statementOver, declaration, typeSpecifier_cons _ _ _ _ htype,
        variableTail_declare hrest]
  | declareAssign hw init =>
    have htype := hw
    obtain rfl | rfl := Token.type?_eq_some hw <;>
      simp [statementOver, declaration, typeSpecifier_cons _ _ _ _ htype,
        variableTail_assign init hrest]
  | assign value => simp [statementOver, assignOrCall_assign value hrest]
  | call h => simp [statementOver, assignOrCall_call h]

/-- The parser for phrases of this kind returns the phrase, within `n` tokens. -/
def Parses (n : Nat) (ts : List Located) (c : Checker) (p : Phrase) (c' : Checker) : Prop :=
  match p with
  | .statement st => ∀ rest last, (ts ++ rest).length ≤ n → next? rest ≠ some .kwElse →
      statementWithin n ⟨ts ++ rest, last, c⟩ = .ok st ⟨rest, lineAfter last ts, c'⟩
  | .body ss => ∀ m rest last closing, (ts ++ rest).length < n → (ts ++ rest).length < m →
      untilBrace (statementWithin n) m ⟨ts ++ ⟨.closeBrace, closing⟩ :: rest, last, c⟩ =
        .ok ss ⟨rest, closing, c'⟩
  | .block ss => ∀ rest last, (ts ++ rest).length ≤ n →
      blockOf (statementWithin n) ⟨ts ++ rest, last, c⟩ = .ok ss ⟨rest, lineAfter last ts, c'⟩

/-- The first token of a statement pays for the level of the blocks in it. -/
theorem exists_eq_succ_of_length_cons_le {t : Located} {n : Nat} (h : (t :: ts).length ≤ n) :
    ∃ m, n = m + 1 ∧ ts.length ≤ m := by
  rw [List.length_cons] at h
  exact ⟨n - 1, by omega, by omega⟩

/-- Every reading of a phrase is found by the parser for its kind. -/
theorem parses_of_reads {p : Phrase} (h : Reads ts c p c') (n : Nat) : Parses n ts c p c' := by
  induction h generalizing n with
  | simple h =>
    intro rest last hn hrest
    obtain ⟨n, rfl⟩ : ∃ m, n = m + 1 := ⟨n - 1, by simp at hn; omega⟩
    simp [statementWithin, statementOver_simple h]
  | @function line line' opening w name type ps bs params c c' ss hw hparams body ih =>
    intro rest last hn hrest
    obtain ⟨n, rfl, hn⟩ := exists_eq_succ_of_length_cons_le hn
    have htype := hw
    have hlist := listInParens_complete parameter_complete (fun _ _ _ _ h => h.head)
      ps c params c (bs ++ rest) opening hparams trivial
    have hbody := ih n rest (lineAfter opening ps) (by simp at hn ⊢; omega)
    obtain rfl | rfl := Token.type?_eq_some hw <;>
      simp [statementWithin, statementOver, declaration, functionTail,
        typeSpecifier_cons _ _ _ _ htype, hlist, hbody]
  | @ifThen line opening closing es bs c c₁ c' e ss condition body ih =>
    intro rest last hn hrest
    obtain ⟨n, rfl, hn⟩ := exists_eq_succ_of_length_cons_le hn
    have hbody := ih n rest closing (by simp at hn ⊢; omega)
    -- an alternative behind the block would belong to this conditional
    simp [statementWithin, statementOver, ifStatement, condition_append condition, hbody,
      skipIf_of_ne _ _ _ _ hrest]
  | @ifElse line opening closing line' es bs bs' c c₁ c₂ c' e ss ss' condition body otherwise
      ih ih' =>
    intro rest last hn hrest
    obtain ⟨n, rfl, hn⟩ := exists_eq_succ_of_length_cons_le hn
    have hbody := ih n (⟨.kwElse, line'⟩ :: (bs' ++ rest)) closing (by simp at hn ⊢; omega)
    have hother := ih' n rest line' (by simp at hn ⊢; omega)
    simp [statementWithin, statementOver, ifStatement, condition_append condition, hbody, hother]
  | @loop line opening closing es bs c c₁ c' e ss condition body ih =>
    intro rest last hn hrest
    obtain ⟨n, rfl, hn⟩ := exists_eq_succ_of_length_cons_le hn
    have hbody := ih n rest closing (by simp at hn ⊢; omega)
    simp [statementWithin, statementOver, whileStatement, condition_append condition, hbody]
  | @forLoop line opening semi semi' closing is es ps bs c c₁ c₂ c₃ c' init step e ss hinit
      condition hstep body ih =>
    intro rest last hn hrest
    obtain ⟨n, rfl, hn⟩ := exists_eq_succ_of_length_cons_le hn
    have hbody := ih n rest closing (by simp at hn ⊢; omega)
    have hinit' := simpleStatement_complete _ _ _ _ (⟨.semicolon, semi⟩ ::
      (es ++ ⟨.semicolon, semi'⟩ :: (ps ++ ⟨.closeParen, closing⟩ :: (bs ++ rest)))) opening hinit
      (.semicolon _ _)
    have hcond : Stops 0 (⟨.semicolon, semi'⟩ :: (ps ++ ⟨.closeParen, closing⟩ :: (bs ++ rest))) :=
      .of_not_operator rfl
    have hstep' := simpleStatement_complete _ _ _ _ (⟨.closeParen, closing⟩ :: (bs ++ rest)) semi'
      hstep (.closeParen _ _)
    simp [statementWithin, statementOver, forStatement, hinit', expression_append condition hcond,
      hstep', hbody]
  | @ret line semi es c c' e value =>
    intro rest last hn hrest
    obtain ⟨n, rfl, hn⟩ := exists_eq_succ_of_length_cons_le hn
    have hend : Stops 0 (⟨.semicolon, semi⟩ :: rest) := .of_not_operator rfl
    simp [statementWithin, statementOver, returnStatement, expression_append value hend]
  | nil =>
    intro m rest last closing hn hm
    obtain ⟨m, rfl⟩ : ∃ k, m = k + 1 := ⟨m - 1, by omega⟩
    simp [untilBrace]
  | @cons ts us c c₁ c' st ss first others ih ih' =>
    intro m rest last closing hn hm
    obtain ⟨m, rfl⟩ : ∃ k, m = k + 1 := ⟨m - 1, by omega⟩
    have hpos := first.length_pos
    have hbrace : next? (ts ++ (us ++ ⟨.closeBrace, closing⟩ :: rest)) ≠ some .closeBrace := by
      obtain ⟨t, us', rfl, ht, -⟩ := first.head
      simpa using ht
    have helse : next? (us ++ ⟨.closeBrace, closing⟩ :: rest) ≠ some .kwElse :=
      others.next_ne_else (by simp)
    have hfirst := ih n _ last (by simp at hn ⊢; omega) helse
    have hothers := ih' n m rest (lineAfter last ts) closing (by simp at hn ⊢; omega)
      (by simp at hm ⊢; omega)
    simp [untilBrace, skipIf_of_ne _ _ _ _ hbrace, hfirst, hothers]
  | @block opening closing ts c c' ss body ih =>
    intro rest last hn
    have hbody := ih n (ts.length + (rest.length + 1)) rest opening closing
      (by simp at hn ⊢; omega) (by simp)
    simp [blockOf, hbody]

/-- Every reading of a statement is found, unless an `else` follows. -/
private theorem statement_append {st : Stmt} (h : Reads ts c (.statement st) c')
    (hrest : next? rest ≠ some .kwElse) :
    statement ⟨ts ++ rest, last, c⟩ = .ok st ⟨rest, lineAfter last ts, c'⟩ :=
  parses_of_reads h (ts ++ rest).length rest last (Nat.le_refl _) hrest

/-- Every reading of a body that goes up to the end of the text is found. -/
theorem untilEnd_complete {n : Nat} {ss : List Stmt} (h : Reads ts c (.body ss) c')
    (hn : ts.length ≤ n) :
    untilEnd n ⟨ts, last, c⟩ = .ok ss ⟨[], lineAfter last ts, c'⟩ := by
  induction n generalizing ts c last ss with
  | zero =>
    cases h with
    | nil => rfl
    | cons first _ =>
      have hpos := first.length_pos
      rw [List.length_append] at hn
      omega
  | succ n ih =>
    cases h with
    | nil => simp [untilEnd]
    | @cons ts us _ c₁ _ st ss first others =>
      have hpos := first.length_pos
      have helse : next? (us ++ []) ≠ some .kwElse := others.next_ne_else (by simp)
      rw [List.append_nil] at helse
      have hsome : (next? (ts ++ us)).isNone = false := by
        obtain ⟨t, us', rfl, -⟩ := first.head
        rfl
      have hn' : us.length ≤ n := by simp at hn; omega
      simp only [untilEnd, bind_apply, peek_apply, hsome]
      simp [statement_append first helse, ih others hn']

end Parser

/-- **Parsing.** A program is parsed if and only if its tokens read as a body, and the checker has
then heard of that body. -/
theorem parse_eq_ok_iff {tokens : List Located} {c c' : Checker} {p : Program} :
    parse tokens c = (.ok p, c') ↔
      ∃ c₁, Reads tokens c (.body p.body) c₁ ∧ c' = c₁.note (.parsed p.body.length) := by
  unfold parse Parser.program
  rw [Parser.bind_apply]
  constructor
  · intro h
    cases hrun : Parser.untilEnd tokens.length { unread := tokens, checker := c } with
    | error e s => simp [hrun] at h
    | ok ss s =>
      obtain ⟨rfl, rfl⟩ : (⟨ss⟩ : Program) = p ∧ s.checker.note (.parsed ss.length) = c' := by
        simpa [hrun] using h
      obtain ⟨hreads, -⟩ := Parser.untilEnd_sound
        (show (ParseState.mk tokens 1 c).unread.length ≤ tokens.length from Nat.le_refl _) hrun
      exact ⟨s.checker, hreads, rfl⟩
  · rintro ⟨c₁, hreads, rfl⟩
    simp [Parser.untilEnd_complete hreads (Nat.le_refl _)]

end TinyImp
