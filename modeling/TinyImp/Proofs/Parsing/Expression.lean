import TinyImp.Proofs.Parsing.Basic
import TinyImp.Proofs.Parsing.Reading

/-!
# Expressions are parsed by their reading

The parser for expressions of a level returns exactly the readings at that level whose tokens are
followed by no operator of the level (`Parser.expression_eq_ok_iff`). Both halves follow the
expression that has been read so far through the loop over the operators: it is a reading at the
level of the next operator, whatever that is.
-/

namespace TinyImp

/-! ### Where an expression ends -/

/-- No operator that binds as tightly as `least` comes next. -/
def Stops (least : Nat) (unread : List Located) : Prop :=
  ∀ op, (next? unread).bind Token.operator? = some op → op.precedence < least

namespace Stops

variable {m n line : Nat} {w : Token} {rest : List Located}

private theorem mono (h : Stops m rest) (hmn : m ≤ n) : Stops n rest := fun op hop =>
  Nat.lt_of_lt_of_le (h op hop) hmn

/-- An operator cannot go on an expression of the next higher level. -/
theorem of_operator {op : BinaryOp} (h : w.operator? = some op) :
    Stops (op.precedence + 1) (⟨w, line⟩ :: rest) := by
  intro op' hop'
  obtain rfl : op = op' := by simpa [h] using hop'
  exact Nat.lt_succ_self _

/-- What is no operator cannot go on an expression of any level. -/
theorem of_not_operator (h : w.operator? = none) : Stops m (⟨w, line⟩ :: rest) := by
  intro op hop
  simp [h] at hop

/-- Else an operator comes next that does. -/
theorem exists_operator (h : ¬ Stops m rest) :
    ∃ w line us op, rest = ⟨w, line⟩ :: us ∧ w.operator? = some op ∧ m ≤ op.precedence := by
  obtain ⟨op, hop⟩ := Classical.not_forall.mp h
  obtain ⟨hop, hle⟩ := Classical.not_imp.mp hop
  cases rest with
  | nil => simp at hop
  | cons t us => exact ⟨t.token, t.line, us, op, rfl, by simpa using hop, Nat.not_lt.mp hle⟩

end Stops

/-- Multiplication and division bind most tightly. -/
theorem BinaryOp.precedence_le (op : BinaryOp) : op.precedence ≤ 50 := by
  cases op with
  | arith op => cases op <;> decide
  | compare op => exact Nat.le_add_right 35 15

namespace Parser

variable {rhs : Nat → Parser Expr} {inner : Parser Expr} {least n k : Nat} {lhs e : Expr}
  {s s' : ParseState}

/-! ### The loop over the operators -/

/-- The loop over the operators ends where none of the level follows. -/
theorem operators_of_stops (h : Stops least s.unread) :
    operators rhs least k lhs s = .ok lhs s := by
  cases k with
  | zero => rfl
  | succ k =>
    simp only [operators, bind_apply, peek_apply]
    cases hop : (next? s.unread).bind Token.operator? with
    | none => rfl
    | some op => simp [h op hop]

/-- The loop reads an operator of the level and its right-hand side, and goes on. -/
theorem operators_cons {w : Token} {op : BinaryOp} {line last : Nat} {rest : List Located}
    {c : Checker} (hop : w.operator? = some op) (hle : least ≤ op.precedence) :
    operators rhs least (k + 1) lhs ⟨⟨w, line⟩ :: rest, last, c⟩ =
      (rhs (op.precedence + 1) >>= fun right => operators rhs least k (op.apply lhs right))
        ⟨rest, line, c⟩ := by
  simp [operators, hop, Nat.not_lt.mpr hle]

/-- The loop ends, or it reads an operator and its right-hand side. -/
theorem operators_eq_ok (h : operators rhs least (k + 1) lhs s = .ok e s') :
    (e = lhs ∧ s' = s ∧ Stops least s.unread) ∨
      ∃ w line op right s₁ s₂, w.operator? = some op ∧ least ≤ op.precedence ∧
        s.Reads [⟨w, line⟩] s₁ ∧ s₁.checker = s.checker ∧
        rhs (op.precedence + 1) s₁ = .ok right s₂ ∧
        operators rhs least k (op.apply lhs right) s₂ = .ok e s' := by
  by_cases hstop : Stops least s.unread
  · rw [operators_of_stops hstop] at h
    cases h
    exact .inl ⟨rfl, rfl, hstop⟩
  · obtain ⟨unread, last, c⟩ := s
    obtain ⟨w, line, rest, op, rfl, hop, hle⟩ := Stops.exists_operator hstop
    rw [operators_cons hop hle] at h
    obtain ⟨right, s₂, hright, h⟩ := bind_eq_ok.mp h
    exact .inr ⟨w, line, op, right, ⟨rest, line, c⟩, s₂, hop, hle, ⟨rfl, rfl⟩, rfl, hright, h⟩

/-! ### Soundness -/

/-- What the parser for the expressions of a level returns on at most `n` tokens is a reading. -/
def SoundWithin (n : Nat) (p : Nat → Parser Expr) : Prop :=
  ∀ m s e s', s.unread.length ≤ n → p m s = .ok e s' →
    ∃ ts, s.Reads ts s' ∧ ReadsExpr m ts s.checker e s'.checker ∧ Stops m s'.unread

/-- An operand is a reading at every level. -/
theorem operand_sound (hrhs : SoundWithin n rhs) (hn : s.unread.length ≤ n + 1)
    (h : operand (rhs 0) s = .ok e s') :
    ∃ ts, s.Reads ts s' ∧ ∀ m, ReadsExpr m ts s.checker e s'.checker := by
  obtain ⟨o, s₀, hpeek, h⟩ := bind_eq_ok.mp h
  obtain ⟨hw, rfl⟩ : next? s.unread = o ∧ s = s₀ := by simpa using hpeek
  cases o with
  | none => exact absurd h reject_ne_ok
  | some w =>
    cases w with
    | identifier name =>
      obtain ⟨⟨name, line⟩, s₁, hname, h⟩ := bind_eq_ok.mp h
      obtain ⟨hread, hc⟩ := identifier_eq_ok hname
      obtain ⟨rfl, rfl⟩ : .var name (s₁.checker.typeOf name line).1 = e ∧
          { s₁ with checker := (s₁.checker.typeOf name line).2 } = s' := by simpa using h
      rw [hc]
      exact ⟨_, hread.checker_right _, fun m => .var⟩
    | intLit value =>
      obtain ⟨t, s₁, hnext, h⟩ := bind_eq_ok.mp h
      obtain ⟨hread, hc⟩ := next_eq_ok_of_next? hw hnext
      obtain ⟨rfl, rfl⟩ := pure_eq_ok.mp h
      rw [hc]
      exact ⟨_, hread, fun m => .int⟩
    | floatLit value =>
      obtain ⟨t, s₁, hnext, h⟩ := bind_eq_ok.mp h
      obtain ⟨hread, hc⟩ := next_eq_ok_of_next? hw hnext
      obtain ⟨rfl, rfl⟩ := pure_eq_ok.mp h
      rw [hc]
      exact ⟨_, hread, fun m => .float⟩
    | openParen =>
      obtain ⟨_, s₁, hopen, h⟩ := bind_eq_ok.mp h
      obtain ⟨e', s₂, hinner, h⟩ := bind_eq_ok.mp h
      obtain ⟨_, s₃, hclose, h⟩ := bind_eq_ok.mp h
      obtain ⟨rfl, rfl⟩ := pure_eq_ok.mp h
      obtain ⟨opening, hread, hc⟩ := expect_eq_ok hopen
      have hlen := hread.length_eq
      obtain ⟨ts, hts, hreads, -⟩ := hrhs 0 s₁ e' s₂ (by simp at hlen; omega) hinner
      obtain ⟨closing, hread', hc'⟩ := expect_eq_ok hclose
      rw [hc', ← hc]
      exact ⟨_, hread.trans (hts.trans hread'), fun m => .parens hreads⟩
    | _ => exact absurd h reject_ne_ok

/-- The loop extends a reading that ends at the level `q` or a higher one. -/
theorem operators_sound (hrhs : SoundWithin n rhs) (hk : k ≤ n) {q : Nat} {ts₀ : List Located}
    {c₀ : Checker} (hlen : s.unread.length ≤ k) (hlhs : ReadsExpr q ts₀ c₀ lhs s.checker)
    (hq : least ≤ q) (hstop : Stops (q + 1) s.unread)
    (h : operators rhs least k lhs s = .ok e s') :
    ∃ ts, s.Reads ts s' ∧ ReadsExpr least (ts₀ ++ ts) c₀ e s'.checker ∧
      Stops least s'.unread := by
  induction k generalizing lhs s q ts₀ with
  | zero =>
    obtain ⟨rfl, rfl⟩ := pure_eq_ok.mp h
    have hnil : s.unread = [] := List.length_eq_zero_iff.mp (Nat.le_zero.mp hlen)
    refine ⟨[], .refl s, ?_, ?_⟩
    · rw [List.append_nil]
      exact hlhs.mono hq
    · intro op hop
      simp [hnil] at hop
  | succ k ih =>
    obtain ⟨rfl, rfl, hend⟩ | ⟨w, line, op, right, s₁, s₂, hop, hle, hread, hc, hright, h⟩ :=
      operators_eq_ok h
    · refine ⟨[], .refl s', ?_, hend⟩
      rw [List.append_nil]
      exact hlhs.mono hq
    · have hlen₁ := hread.length_eq
      obtain ⟨us, hus, hreads, hstop₂⟩ :=
        hrhs _ s₁ right s₂ (by simp at hlen₁; omega) hright
      -- the operator binds no more tightly than the expression in front of it allows
      have hopq : op.precedence ≤ q := by
        refine Nat.lt_succ_iff.mp (hstop op ?_)
        simp [hread.unread_eq, hop]
      have hnew : ReadsExpr op.precedence (ts₀ ++ ⟨w, line⟩ :: us) c₀ (op.apply lhs right)
          s₂.checker :=
        .binary hop (Nat.le_refl _) (hlhs.mono hopq) (hc ▸ hreads)
      have hlen₂ := hus.length_eq
      obtain ⟨ts, hts, hreads', hend⟩ :=
        ih (Nat.le_of_succ_le hk) (by simp at hlen₁; omega) hnew hle hstop₂ h
      refine ⟨⟨w, line⟩ :: (us ++ ts), hread.trans (hus.trans hts), ?_, hend⟩
      simpa using hreads'

/-- **What the parser returns is a reading**, at every level and within every bound. -/
theorem expressionWithin_sound (n : Nat) : SoundWithin n (expressionWithin n) := by
  induction n with
  | zero =>
    intro m s e s' _ h
    exact absurd h failAtEnd_ne_ok
  | succ n ih =>
    intro m s e s' hn h
    obtain ⟨lhs, s₁, hlhs, h⟩ := bind_eq_ok.mp h
    obtain ⟨ts, hts, hreads⟩ := operand_sound ih hn hlhs
    have hpos := (hreads 0).length_pos
    have hlen := hts.length_eq
    have hstop : Stops (max m 50 + 1) s₁.unread := by
      intro op _
      have := op.precedence_le
      omega
    obtain ⟨us, hus, hreads', hend⟩ :=
      operators_sound ih (Nat.le_refl _) (by omega) (hreads _) (Nat.le_max_left m 50) hstop h
    exact ⟨ts ++ us, hts.trans hus, hreads', hend⟩

/-! ### Completeness -/

/-- After the tokens of a reading the parser is in its loop, with the expression read. -/
theorem expressionWithin_eq_operators {q : Nat} {ts : List Located} {c c' : Checker}
    (h : ReadsExpr q ts c e c') {n least last : Nat} {rest : List Located} (hq : least ≤ q)
    (hn : (ts ++ rest).length ≤ n + 1) (hstop : Stops (q + 1) rest) :
    ∃ k, rest.length ≤ k ∧
      expressionWithin (n + 1) least ⟨ts ++ rest, last, c⟩ =
        operators (expressionWithin n) least k e ⟨rest, lineAfter last ts, c'⟩ := by
  induction h generalizing n least last rest with
  | var | int | float => exact ⟨n, by simpa using hn, by simp [expressionWithin, operand]⟩
  | @parens _ opening closing ts c c' e inner ih =>
    obtain ⟨n, rfl⟩ : ∃ m, n = m + 1 := ⟨n - 1, by simp at hn; omega⟩
    have hend : Stops 0 (⟨.closeParen, closing⟩ :: rest) := .of_not_operator rfl
    obtain ⟨k, -, heq⟩ := @ih n 0 opening (⟨.closeParen, closing⟩ :: rest) (Nat.le_refl 0)
      (by simp at hn ⊢; omega) (hend.mono (Nat.zero_le 1))
    rw [operators_of_stops hend] at heq
    refine ⟨n + 1, by simp at hn; omega, ?_⟩
    rw [expressionWithin]
    simp [operand, heq]
  | @binary q line w op ts us c c₁ c' lhs rhs hop hle left right ihl ihr =>
    obtain ⟨n, rfl⟩ : ∃ m, n = m + 1 := ⟨n - 1, by
      have := left.length_pos
      simp at hn; omega⟩
    have hpos := left.length_pos
    obtain ⟨k, hk, heq⟩ := @ihl (n + 1) least last (⟨w, line⟩ :: (us ++ rest))
      (Nat.le_trans hq hle) (by simpa using hn) (.of_operator hop)
    obtain ⟨k, rfl⟩ : ∃ m, k = m + 1 := ⟨k - 1, by simp at hk; omega⟩
    -- the right-hand side ends where the whole expression does
    have hend : Stops (op.precedence + 1) rest := hstop.mono (Nat.succ_le_succ hle)
    obtain ⟨k', -, heq'⟩ := @ihr n (op.precedence + 1) line rest (Nat.le_refl _)
      (by simp at hn ⊢; omega) (hend.mono (Nat.le_succ _))
    rw [operators_of_stops hend] at heq'
    refine ⟨k, by simp at hk; omega, ?_⟩
    rw [operators_cons hop (Nat.le_trans hq hle)] at heq
    simpa [heq'] using heq

private theorem expressionWithin_complete {ts rest : List Located} {c c' : Checker} {last : Nat}
    (h : ReadsExpr least ts c e c') (hn : (ts ++ rest).length ≤ n) (hstop : Stops least rest) :
    expressionWithin n least ⟨ts ++ rest, last, c⟩ = .ok e ⟨rest, lineAfter last ts, c'⟩ := by
  obtain ⟨n, rfl⟩ : ∃ m, n = m + 1 := ⟨n - 1, by
    have := h.length_pos
    simp at hn; omega⟩
  obtain ⟨k, -, heq⟩ := expressionWithin_eq_operators h (Nat.le_refl _) hn
    (hstop.mono (Nat.le_succ _))
  rw [heq, operators_of_stops hstop]

/-! ### The parser for expressions -/

/-- What the parser returns is a reading of the tokens that it has read, and no operator follows
them. -/
theorem expression_eq_ok (h : expression s = .ok e s') :
    ∃ ts, s.Reads ts s' ∧ ReadsExpr 0 ts s.checker e s'.checker ∧ Stops 0 s'.unread :=
  expressionWithin_sound _ _ _ _ _ (Nat.le_refl _) h

/-- A reading is found if no operator follows it. -/
theorem expression_append {ts rest : List Located} {c c' : Checker} {last : Nat}
    (h : ReadsExpr 0 ts c e c') (hstop : Stops 0 rest) :
    expression ⟨ts ++ rest, last, c⟩ = .ok e ⟨rest, lineAfter last ts, c'⟩ :=
  expressionWithin_complete h (Nat.le_refl _) hstop

/-- **Expressions.** The parser returns exactly the readings that no operator follows. -/
theorem expression_eq_ok_iff :
    expression s = .ok e s' ↔
      ∃ ts, s.Reads ts s' ∧ ReadsExpr 0 ts s.checker e s'.checker ∧ Stops 0 s'.unread := by
  constructor
  · exact expression_eq_ok
  · rintro ⟨ts, ⟨hunread, hline⟩, hreads, hstop⟩
    obtain ⟨unread, last, c⟩ := s
    obtain rfl : unread = ts ++ s'.unread := hunread
    rw [expression_append hreads hstop, ← hline]

end Parser

end TinyImp
