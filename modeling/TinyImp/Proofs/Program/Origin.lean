import TinyImp.Proofs.Checking.Scoping
import TinyImp.Proofs.Program.TreeView

/-!
# Where identifiers and constants come from

The identifiers and constants of a program are those of its tokens: what holds of all tokens that
were read holds of everything that is spelled out in the program (`Reads.spelled`). Scanned
identifiers are words and scanned constants are numbers, and so **every compiled program has a
legible tree** (`legibleOutline_of_compile`).
-/

namespace TinyImp

section

variable (P : String → Prop) (Q : Const → Prop)

/-- The token is an identifier with one property, a constant with another, or neither. -/
def Token.Carries : Token → Prop
  | .identifier name => P name
  | .intLit value => Q (.int value)
  | .floatLit value => Q (.float value)
  | _ => True

/-- All that is spelled out in a phrase has the properties. -/
def Phrase.Spelled : Phrase → Prop
  | .statement s => Stmt.Spelled P Q s.nodes
  | .body ss => Stmt.Spelled P Q (Stmt.nodesAll ss)
  | .block ss => Stmt.Spelled P Q (Stmt.nodesAll ss)

end

variable {P : String → Prop} {Q : Const → Prop} {ts : List Located} {c c' : Checker}

/-! ### Readings -/

/-- What holds of the tokens holds of the names and constants of the expression. -/
private theorem ReadsExpr.spelled {least : Nat} {e : Expr} (h : ReadsExpr least ts c e c')
    (hts : ∀ t ∈ ts, t.token.Carries P Q) : e.Spelled P Q := by
  induction h with
  | var => exact Expr.spelled_var.mpr (hts _ List.mem_cons_self)
  | int => exact Expr.spelled_const.mpr (hts _ List.mem_cons_self)
  | float => exact Expr.spelled_const.mpr (hts _ List.mem_cons_self)
  | parens inner ih => exact ih fun t ht => hts t (by simp [ht])
  | @binary _ _ _ op _ _ _ _ _ _ _ _ _ _ _ ihl ihr =>
    have hl := ihl fun t ht => hts t (by simp [ht])
    have hr := ihr fun t ht => hts t (by simp [ht])
    cases op with
    | arith => exact Expr.spelled_arith.mpr ⟨hl, hr⟩
    | compare => exact Expr.spelled_compare.mpr ⟨hl, hr⟩

/-- What holds of every item whose tokens have a property holds of all items of a list. -/
theorem ReadsSeparated.forall_of_tokens {α : Type} {item : ReadingOf α} {as : List α}
    {T : Located → Prop} {R : α → Prop} (h : ReadsSeparated item ts c as c')
    (hts : ∀ t ∈ ts, T t) (hitem : ∀ ts c a c', item ts c a c' → (∀ t ∈ ts, T t) → R a) :
    ∀ a ∈ as, R a := by
  induction h with
  | one h => exact List.forall_mem_singleton.mpr (hitem _ _ _ _ h hts)
  | cons h others ih =>
    obtain ⟨hfirst, hothers⟩ := List.forall_mem_append.mp hts
    refine List.forall_mem_cons.mpr ⟨hitem _ _ _ _ h hfirst, ih fun t ht => ?_⟩
    exact hothers t (List.mem_cons_of_mem _ ht)

private theorem ReadsList.forall_of_tokens {α : Type} {item : ReadingOf α} {as : List α}
    {T : Located → Prop} {R : α → Prop} (h : ReadsList item ts c as c') (hts : ∀ t ∈ ts, T t)
    (hitem : ∀ ts c a c', item ts c a c' → (∀ t ∈ ts, T t) → R a) : ∀ a ∈ as, R a := by
  cases h with
  | nil => exact List.forall_mem_nil _
  | items h => exact h.forall_of_tokens (List.forall_mem_append.mp hts).1 hitem

private theorem ReadsParam.spelled {p : Param} (h : ReadsParam ts c p c')
    (hts : ∀ t ∈ ts, t.token.Carries P Q) : P p.name := by
  cases h with
  | @mk _ line' _ name => exact hts ⟨.identifier name, line'⟩ (by simp)

private theorem ReadsSimple.spelled {s : Stmt} (h : ReadsSimple ts c s c')
    (hts : ∀ t ∈ ts, t.token.Carries P Q) : Stmt.Spelled P Q s.nodes := by
  have hsingle {s : Stmt} (hnames : ∀ name ∈ s.ownNames, P name)
      (hexpressions : ∀ e ∈ s.expressions, e.Spelled P Q) : Stmt.Spelled P Q [s] :=
    List.forall_mem_singleton.mpr ⟨hnames, hexpressions⟩
  cases h with
  | @declare _ line' _ name =>
    have hname : P name := hts ⟨.identifier name, line'⟩ (by simp)
    exact hsingle (List.forall_mem_singleton.mpr hname) (List.forall_mem_nil _)
  | @declareAssign _ line' _ _ name _ _ _ _ _ _ init =>
    have hname : P name := hts ⟨.identifier name, line'⟩ (by simp)
    have hinit := init.spelled fun t ht => hts t (by simp [ht])
    exact hsingle (List.forall_mem_singleton.mpr hname) (List.forall_mem_singleton.mpr hinit)
  | @assign line _ name _ _ _ _ value =>
    have hname : P name := hts ⟨.identifier name, line⟩ (by simp)
    have hvalue := value.spelled fun t ht => hts t (by simp [ht])
    exact hsingle (List.forall_mem_singleton.mpr hname) (List.forall_mem_singleton.mpr hvalue)
  | @call line _ name _ _ _ _ hargs =>
    have hname : P name := hts ⟨.identifier name, line⟩ (by simp)
    refine hsingle (List.forall_mem_singleton.mpr hname) ?_
    exact hargs.forall_of_tokens (fun t ht => hts t (by simp [ht])) fun _ _ _ _ => ReadsExpr.spelled

/-- **The identifiers and constants of a phrase are those of its tokens.** -/
theorem Reads.spelled {p : Phrase} (h : Reads ts c p c')
    (hts : ∀ t ∈ ts, t.token.Carries P Q) : p.Spelled P Q := by
  have hcondition {e : Expr} {s : Stmt} {ss : List Stmt} (hnames : s.ownNames = [])
      (hexpressions : s.expressions = [e]) (he : e.Spelled P Q) (hss : Stmt.Spelled P Q ss) :
      Stmt.Spelled P Q (s :: ss) := by
    rw [Stmt.spelled_cons, hnames, hexpressions]
    exact ⟨⟨List.forall_mem_nil _, List.forall_mem_singleton.mpr he⟩, hss⟩
  induction h with
  | simple h => exact h.spelled fun t ht => hts t (List.mem_append_left _ ht)
  | @function _ line' _ _ name _ _ _ params _ _ _ _ hparams _ ih =>
    have hname : P name := hts ⟨.identifier name, line'⟩ (by simp)
    have hparams : ∀ p ∈ params, P p.name := hparams.forall_of_tokens
      (fun t ht => hts t (by simp [ht])) fun _ _ _ _ => ReadsParam.spelled
    have hbody := ih fun t ht => hts t (by simp [ht])
    refine Stmt.spelled_cons.mpr ⟨⟨?_, List.forall_mem_nil _⟩, hbody⟩
    exact List.forall_mem_cons.mpr ⟨hname, List.forall_mem_map.mpr hparams⟩
  | ifThen condition _ ih =>
    exact hcondition rfl rfl (condition.spelled fun t ht => hts t (by simp [ht]))
      (ih fun t ht => hts t (by simp [ht]))
  | ifElse condition _ _ ih ih' =>
    refine hcondition rfl rfl (condition.spelled fun t ht => hts t (by simp [ht])) ?_
    exact Stmt.spelled_append.mpr
      ⟨ih fun t ht => hts t (by simp [ht]), ih' fun t ht => hts t (by simp [ht])⟩
  | loop condition _ ih =>
    exact hcondition rfl rfl (condition.spelled fun t ht => hts t (by simp [ht]))
      (ih fun t ht => hts t (by simp [ht]))
  | @forLoop _ _ _ _ _ _ _ _ _ _ _ _ _ _ init step e ss hinit condition hstep _ ih =>
    have hinit := hinit.spelled fun t ht => hts t (by simp [ht])
    have hstep := hstep.spelled fun t ht => hts t (by simp [ht])
    have he := condition.spelled fun t ht => hts t (by simp [ht])
    have hbody := ih fun t ht => hts t (by simp [ht])
    have hloop : Stmt.Spelled P Q (Stmt.loop e (ss ++ [step])).nodes := by
      refine hcondition rfl rfl he ?_
      rw [Stmt.nodesAll_append, Stmt.spelled_append]
      exact ⟨hbody, Stmt.spelled_append.mpr ⟨hstep, List.forall_mem_nil _⟩⟩
    refine Stmt.spelled_cons.mpr ⟨⟨List.forall_mem_nil _, List.forall_mem_nil _⟩, ?_⟩
    exact Stmt.spelled_append.mpr
      ⟨hinit, Stmt.spelled_append.mpr ⟨hloop, List.forall_mem_nil _⟩⟩
  | ret value =>
    exact hcondition rfl rfl (value.spelled fun t ht => hts t (by simp [ht]))
      (List.forall_mem_nil _)
  | nil => exact List.forall_mem_nil _
  | cons _ _ ih ih' =>
    obtain ⟨hfirst, hrest⟩ := List.forall_mem_append.mp hts
    exact Stmt.spelled_append.mpr ⟨ih hfirst, ih' hrest⟩
  | block _ ih => exact ih fun t ht => hts t (by simp [ht])

/-! ### Scanned tokens -/

/-- A token carries a word or a number, if it carries anything. -/
private theorem Lexical.Denotes.carries {w : List Char} {t : Token} (h : Denotes w t) :
    t.Carries (·.toList ∈ Lexical.word) Const.IsNumber := by
  cases h with
  | fixed ht =>
    have hplain : ∀ t ∈ reserved ++ symbols, t.Carries (·.toList ∈ word) Const.IsNumber := by
      simp [reserved, symbols, Token.Carries]
    exact hplain t ht
  | identifier hw => simpa [Token.Carries] using hw
  | integer => trivial
  | decimal _ _ hrounded => exact hrounded.unsigned.2

private theorem Lexical.Tokenises.carries {before : List Char} {pieces : List Lexical.Piece}
    (h : Tokenises before pieces ts) :
    ∀ t ∈ ts, t.token.Carries (·.toList ∈ Lexical.word) Const.IsNumber := by
  induction h with
  | nil => exact List.forall_mem_nil _
  | blank _ ih => exact ih
  | lexeme ht _ _ ih => exact List.forall_mem_cons.mpr ⟨ht.carries, ih⟩
  | stray _ ih => exact ih

/-- **The tokens of every text carry words and numbers.** -/
private theorem carries_scan (source : String) :
    ∀ t ∈ (scan source).tokens, t.token.Carries (·.toList ∈ Lexical.word) Const.IsNumber := by
  have htokens : Lexical.Tokenises [] ((Lexeme.split source.toList).map Lexeme.piece)
      (scan source).tokens :=
    Scan.tokenises_ofLexemes (Lexeme.wellFormed_split source.toList) rfl
  exact htokens.carries

/-- **Every label in the tree of a compiled program can be read.** -/
theorem legibleOutline_of_compile {source : String} {options : Options} {p : Program}
    (hp : (compile source options).program = .ok p) : LegibleOutline p.outline := by
  obtain ⟨c₁, hreads, -⟩ := parse_eq_ok_iff.mp (parse_of_compile hp)
  have hbody := hreads.spelled (carries_scan source)
  rw [Program.outline, legibleOutline_cons]
  exact ⟨trivial, Stmt.legible_outlineAll 1 p.body hbody⟩

end TinyImp
