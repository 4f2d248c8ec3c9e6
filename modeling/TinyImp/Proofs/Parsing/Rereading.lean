import TinyImp.Proofs.Parsing.Lookahead

/-!
# Readings and the parsers that decide them

A parser **decides** a reading (`Parser.Decides`) if it returns readings only, finds every reading
that stands in front of tokens of a kind, and repeats its runs. What is known of the parser then
carries over to the reading: tokens of the same kinds have a reading with every checker, up to the
view in which the parser repeats itself, and where a phrase ends is determined by the tokens.
-/

namespace TinyImp

open Grammar (words ReadableAs)

namespace Parser

variable {α γ : Type} {p : Parser α} {R : ReadingOf α} {follow : List Located → Prop}
  {view : α → γ} {ts us rest rest' : List Located} {c c' : Checker}

/-- The reading as a body. -/
abbrev ReadsBody : ReadingOf (List Stmt) := fun ts c ss c' => Reads ts c (.body ss) c'

/-- The parser returns readings, finds those in front of tokens of a kind, and repeats itself up to
a view of the values. -/
structure Decides (p : Parser α) (R : ReadingOf α) (follow : List Located → Prop) (view : α → γ) :
    Prop where
  sound : Sound p R
  complete : Complete p R follow
  repeats (n n' : Nat) : Repeats n n' view p p

namespace Decides

/-- Tokens of the same kinds are read alike with every checker. -/
theorem reread (h : Decides p R follow view) {a : α} (hreads : R ts c a c') (rest : List Located)
    (hrest : follow rest) (hwords : words us = words ts) (d : Checker) :
    ∃ a' d', R us d a' d' ∧ view a' = view a := by
  have hrun := h.complete ts c a c' rest 1 hreads hrest
  obtain ⟨read, hread, hrep⟩ := (h.repeats _ (us ++ rest).length).ok (Nat.le_refl _) hrun
  obtain rfl : read = ts := List.append_cancel_right hread.unread_eq.symm
  have hus : (ParseState.mk (us ++ rest) 1 d).Reads us ⟨rest, lineAfter 1 us, d⟩ := ⟨rfl, rfl⟩
  obtain ⟨a', d', hrun', hview⟩ := hrep hus hwords rfl (Nat.le_refl _)
  obtain ⟨read', hread', hreads'⟩ := h.sound _ _ _ hrun'
  obtain rfl : read' = us := List.append_cancel_right hread'.unread_eq.symm
  exact ⟨a', d', hreads', hview⟩

/-- A phrase ends in one place only. -/
theorem append_inj (h : Decides p R follow view) (hts : ReadableAs R ts) (hus : ReadableAs R us)
    (hrest : follow rest) (hrest' : follow rest') (heq : ts ++ rest = us ++ rest') :
    ts = us ∧ rest = rest' := by
  obtain ⟨a, c, hreads⟩ := hts {}
  obtain ⟨a', c', hreads'⟩ := hus {}
  have hrun := h.complete ts {} a c rest 1 hreads hrest
  rw [heq, h.complete us {} a' c' rest' 1 hreads' hrest'] at hrun
  obtain rfl : rest' = rest := congrArg ParseState.unread (EStateM.Result.ok.inj hrun).2
  exact ⟨List.append_cancel_right heq, rfl⟩

end Decides

/-- The parser decides what is an expression, up to types. -/
theorem decides_expression : Decides expression (ReadsExpr 0) (Stops 0) Expr.erase where
  sound := expression_sound
  complete _ _ _ _ _ _ h hstop := expression_append h hstop
  repeats _ _ := expression_repeats

private theorem decides_params :
    Decides (listInParens parameter) (ReadsList ReadsParam) (fun _ => True) (List.map id) where
  sound := listInParens_sound parameter_sound
  complete := listInParens_complete parameter_complete fun _ _ _ _ h => h.head
  repeats _ _ := listInParens_repeats (fun _ _ => parameter_repeats) failsAtEnd_parameter
    consumes_parameter

/-- It decides what is a simple statement. -/
theorem decides_simpleStatement :
    Decides simpleStatement ReadsSimple FollowsSimple Stmt.erase where
  sound := simpleStatement_sound
  complete := simpleStatement_complete
  repeats _ _ := simpleStatement_repeats

/-- It decides what is a block. -/
theorem decides_block :
    Decides (bounded fun n => blockOf (statementWithin n)) ReadsBlock (fun _ => True)
      Stmt.eraseAll where
  sound s := blockOf_sound (statementWithin_sound _) s
  complete _ _ _ _ rest last h _ := parses_of_reads h _ rest last (Nat.le_refl _)
  repeats _ _ := .bounded fun _ _ => blockOf_repeats (statementWithin_repeats _) _

/-- It decides what is a body of a program. -/
theorem decides_body :
    Decides (bounded untilEnd) ReadsBody (· = []) Stmt.eraseAll where
  sound s ss s' hrun := by
    have hrepeats : Repeats s.unread.length 0 Stmt.eraseAll (bounded untilEnd) (bounded untilEnd) :=
      .bounded fun _ _ => untilEnd_repeats _ _
    obtain ⟨ts, hts, -⟩ := hrepeats.ok (Nat.le_refl _) hrun
    obtain ⟨hreads, hend⟩ := untilEnd_sound (Nat.le_refl _) hrun
    have hunread : s.unread = ts := by rw [hts.unread_eq, hend, List.append_nil]
    exact ⟨ts, hts, hunread ▸ hreads⟩
  complete ts _ _ _ rest _ h hrest := by
    rw [hrest, List.append_nil]
    exact untilEnd_complete h (Nat.le_refl _)
  repeats _ _ := .bounded fun _ _ => untilEnd_repeats _ _

/-- Parameters are read as the same ones with every checker. -/
theorem reread_params {params : List Param} (h : ReadsList ReadsParam ts c params c)
    (d : Checker) : ReadsList ReadsParam ts d params d := by
  obtain ⟨params', d', hreads, hparams⟩ :=
    decides_params.reread h [] trivial rfl d
  obtain rfl : params' = params := by simpa using hparams
  obtain rfl : d' = d := readsList_readsParam_checker hreads
  exact hreads

end Parser

variable {ts : List Located} {c c' : Checker}

/-- The tokens of an expression can be read again with any other checker. Only the types may differ.
-/
theorem ReadsExpr.reread {e : Expr} (h : ReadsExpr 0 ts c e c') (d : Checker) :
    ∃ e' d', ReadsExpr 0 ts d e' d' ∧ e'.erase = e.erase :=
  Parser.decides_expression.reread h [] (.nil 0) rfl d

/-- So can those of a simple statement. -/
theorem ReadsSimple.reread {s : Stmt} (h : ReadsSimple ts c s c') (d : Checker) :
    ∃ s' d', ReadsSimple ts d s' d' ∧ s'.erase = s.erase :=
  Parser.decides_simpleStatement.reread h [⟨.semicolon, 1⟩] (.semicolon 1 []) rfl d

/-- Tokens whose words are of a category are readable. -/
theorem Grammar.readable_of_word {A : Category} (h : Word A (words ts)) : Readable ts A := by
  obtain ⟨us, _, rfl, hus, rfl⟩ := matches_of_derives h
  rw [List.append_nil]
  exact hus

end TinyImp
