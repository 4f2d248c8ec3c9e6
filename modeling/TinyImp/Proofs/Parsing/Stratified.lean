import TinyImp.Proofs.Parsing.SingleToken

/-!
# Precedence climbing and levels of expressions

The parser for expressions climbs: one loop takes operators of all precedences, and the right-hand
side of each is read with the next higher least precedence. A **stratified** parser has a parser of
its own for each precedence instead,

    comparison := sum (("<" | ">" | "==") sum)*
    sum        := product (("+" | "-") product)*
    product    := operand (("*" | "/") operand)*

and folds what it reads to the left (`Parser.comparison`, `Parser.stratified`).

**The two are the same parser** (`Parser.expression_eq_stratified`): on every state they return the
same tree or fail with the same error, and leave the same tokens and the same checker. For each
precedence the loop for all operators that bind as tightly is the loop for those that bind more
tightly, followed by the loop for those of that precedence (`Parser.climb_eq`). That nothing is left
over in between is due to the right-hand sides: behind one of them stands no operator that it could
have taken.
-/

namespace TinyImp.Parser

variable {α β : Type}

/-! ### The stratified parser -/

/-- Extends an expression by operators of a kind and the right-hand sides that they ask for, folding
to the left, at most a number of times. -/
def chainWithin (read : Token → Option BinaryOp) (rhs : BinaryOp → Parser Expr) :
    Nat → Expr → Parser Expr
  | 0, lhs => pure lhs
  | n + 1, lhs => do
    match (← peek).bind read with
    | none => pure lhs
    | some op =>
      let _ ← next
      let right ← rhs op
      chainWithin read rhs n (op.apply lhs right)

/-- Extends an expression by operators of a kind for as long as one comes next. -/
def chain (read : Token → Option BinaryOp) (rhs : BinaryOp → Parser Expr) (lhs : Expr) :
    Parser Expr :=
  bounded fun n => chainWithin read rhs n lhs

/-- One item or more with operators of a kind between them, folded to the left. -/
def leftAssociative (read : Token → Option BinaryOp) (item : Parser Expr) : Parser Expr := do
  let first ← item
  chain read (fun _ => item) first

/-- The operators of products. -/
def productOperator? : Token → Option BinaryOp
  | .star => some (.arith .mul)
  | .slash => some (.arith .div)
  | _ => none

/-- The operators of sums. -/
def sumOperator? : Token → Option BinaryOp
  | .plus => some (.arith .add)
  | .minus => some (.arith .sub)
  | _ => none

/-- The operators of comparisons. -/
def comparisonOperator? : Token → Option BinaryOp
  | .less => some (.compare .less)
  | .greater => some (.compare .greater)
  | .equal => some (.compare .equal)
  | _ => none

/-- A product of factors. -/
def product (factor : Parser Expr) : Parser Expr :=
  leftAssociative productOperator? factor

/-- A sum of products. -/
def sum (factor : Parser Expr) : Parser Expr :=
  leftAssociative sumOperator? (product factor)

/-- A comparison of sums. -/
def comparison (factor : Parser Expr) : Parser Expr :=
  leftAssociative comparisonOperator? (sum factor)

/-- A comparison over operands, within a number of tokens. What is in parentheses is a comparison
again. -/
def stratifiedWithin : Nat → Parser Expr
  | 0 => failAtEnd
  | n + 1 => comparison (operand (stratifiedWithin n))

/-- The stratified parser for expressions. -/
def stratified : Parser Expr :=
  bounded stratifiedWithin

/-! ### Parsers that do the same on few tokens -/

/-- The two parsers do the same on at most `n` tokens. -/
def EqWithin (n : Nat) (p q : Parser α) : Prop :=
  ∀ s, s.unread.length ≤ n → p s = q s

/-- If the parser succeeds there are not more tokens left behind it. -/
def Shrinks (p : Parser α) : Prop :=
  ∀ s a s', p s = .ok a s' → s'.unread.length ≤ s.unread.length

/-- A sequence leaves no more tokens than its parts. -/
private theorem Shrinks.bind {p : Parser α} {f : α → Parser β} (h : Shrinks p)
    (hf : ∀ a, Shrinks (f a)) :
    Shrinks (p >>= f) := by
  intro s b s' hrun
  obtain ⟨a, s₁, hp, hfa⟩ := bind_eq_ok.mp hrun
  exact Nat.le_trans (hf a s₁ b s' hfa) (h s a s₁ hp)

private theorem Consumes.shrinks {p : Parser α} (h : Consumes p) : Shrinks p := fun _ _ _ hrun =>
  Nat.le_of_lt (h hrun)

/-- What comes behind a parser matters only where the parser leads. -/
theorem bind_apply_congr {p : Parser α} {f g : α → Parser β} {s : ParseState}
    (h : ∀ a s', p s = .ok a s' → f a s' = g a s') : (p >>= f) s = (p >>= g) s := by
  rw [bind_apply, bind_apply]
  cases hrun : p s with
  | ok a s' => exact h a s' hrun
  | error e s' => rfl

/-- Sequences agree within a bound if their parts do, as long as the first does not give tokens
back. -/
private theorem EqWithin.bind {n : Nat} {p q : Parser α} {f g : α → Parser β} (h : EqWithin n p q)
    (hq : Shrinks q) (hf : ∀ a, EqWithin n (f a) (g a)) : EqWithin n (p >>= f) (q >>= g) := by
  intro s hn
  calc (p >>= f) s = (q >>= f) s := by rw [bind_apply, bind_apply, h s hn]
    _ = (q >>= g) s := bind_apply_congr fun a s₁ hrun =>
        hf a s₁ (Nat.le_trans (hq s a s₁ hrun) hn)

/-- Behind a parser that reads something there is one token less. -/
theorem EqWithin.bind_succ {n : Nat} {p q : Parser α} {f g : α → Parser β}
    (h : EqWithin (n + 1) p q) (hq : Consumes q) (hf : ∀ a, EqWithin n (f a) (g a)) :
    EqWithin (n + 1) (p >>= f) (q >>= g) := by
  intro s hn
  calc (p >>= f) s = (q >>= f) s := by rw [bind_apply, bind_apply, h s hn]
    _ = (q >>= g) s := bind_apply_congr fun a s₁ hrun =>
        hf a s₁ (Nat.lt_succ_iff.mp (Nat.lt_of_lt_of_le (hq hrun) hn))

/-! ### Chains -/

section Chains

variable {read : Token → Option BinaryOp} {rhs rhs' : BinaryOp → Parser Expr}

/-- A chain ends where no operator of its kind follows. -/
private theorem chainWithin_of_none {n : Nat} {lhs : Expr} {s : ParseState}
    (h : (next? s.unread).bind read = none) : chainWithin read rhs n lhs s = .ok lhs s := by
  cases n with
  | zero => rfl
  | succ n => simp [chainWithin, h]

/-- A chain reads an operator and its right-hand side, and goes on with both joined. -/
private theorem chainWithin_cons {n line last : Nat} {lhs : Expr} {w : Token} {op : BinaryOp}
    {rest : List Located} {c : Checker} (hop : read w = some op) :
    chainWithin read rhs (n + 1) lhs ⟨⟨w, line⟩ :: rest, last, c⟩ =
      (rhs op >>= fun right => chainWithin read rhs n (op.apply lhs right)) ⟨rest, line, c⟩ := by
  simp [chainWithin, hop]

/-- No operator of the kind comes next, or there is one. -/
theorem next?_bind_cases (read : Token → Option BinaryOp) (unread : List Located) :
    (next? unread).bind read = none ∨
      ∃ w line rest op, unread = ⟨w, line⟩ :: rest ∧ read w = some op := by
  cases unread with
  | nil => exact .inl rfl
  | cons t rest =>
    cases hop : read t.token with
    | none => exact .inl (by simpa using hop)
    | some op => exact .inr ⟨t.token, t.line, rest, op, rfl, hop⟩

/-- Neither the bound of a chain matters nor what a right-hand side does on more tokens than are
left. -/
theorem chainWithin_congr {n : Nat} (hrhs : ∀ op, EqWithin n (rhs op) (rhs' op))
    (hshrinks : ∀ op, Shrinks (rhs' op)) {k k' : Nat} {lhs : Expr} {s : ParseState}
    (hn : s.unread.length ≤ n + 1) (hk : s.unread.length ≤ k) (hk' : s.unread.length ≤ k') :
    chainWithin read rhs k lhs s = chainWithin read rhs' k' lhs s := by
  induction k generalizing k' lhs s with
  | zero =>
    have hnil : s.unread = [] := List.length_eq_zero_iff.mp (Nat.le_zero.mp hk)
    have hnone : (next? s.unread).bind read = none := by simp [hnil]
    rw [chainWithin_of_none hnone, chainWithin_of_none hnone]
  | succ k ih =>
    obtain ⟨unread, last, c⟩ := s
    obtain hnone | ⟨w, line, rest, op, rfl, hop⟩ := next?_bind_cases read unread
    · rw [chainWithin_of_none hnone, chainWithin_of_none hnone]
    · simp only [List.length_cons] at hn hk hk'
      obtain ⟨k', rfl⟩ : ∃ m, k' = m + 1 := ⟨k' - 1, by omega⟩
      rw [chainWithin_cons hop, chainWithin_cons hop, bind_apply,
        hrhs op ⟨rest, line, c⟩ (Nat.le_of_succ_le_succ hn), ← bind_apply]
      refine bind_apply_congr fun right s₁ hrun => ?_
      have hlen : s₁.unread.length ≤ rest.length := hshrinks op _ _ _ hrun
      exact ih (by omega) (by omega) (by omega)

private theorem chain_of_none {lhs : Expr} {s : ParseState}
    (h : (next? s.unread).bind read = none) :
    chain read rhs lhs s = .ok lhs s :=
  chainWithin_of_none h

/-- A chain goes on with every operator of the kind that comes next. -/
theorem chain_cons (hshrinks : ∀ op, Shrinks (rhs op)) {line last : Nat} {lhs : Expr} {w : Token}
    {op : BinaryOp} {rest : List Located} {c : Checker} (hop : read w = some op) :
    chain read rhs lhs ⟨⟨w, line⟩ :: rest, last, c⟩ =
      (rhs op >>= fun right => chain read rhs (op.apply lhs right)) ⟨rest, line, c⟩ := by
  rw [chain, bounded_apply, List.length_cons, chainWithin_cons hop]
  refine bind_apply_congr fun right s₁ hrun => ?_
  have hlen : s₁.unread.length ≤ rest.length := hshrinks op _ _ _ hrun
  exact chainWithin_congr (fun _ _ _ => rfl) hshrinks (Nat.le_succ_of_le hlen) hlen (Nat.le_refl _)

private theorem shrinks_chainWithin (hshrinks : ∀ op, Shrinks (rhs op)) (n : Nat) (lhs : Expr) :
    Shrinks (chainWithin read rhs n lhs) := by
  induction n generalizing lhs with
  | zero =>
    intro s e s' hrun
    obtain ⟨-, rfl⟩ := pure_eq_ok.mp hrun
    exact Nat.le_refl _
  | succ n ih =>
    intro s e s' hrun
    obtain ⟨unread, last, c⟩ := s
    obtain hnone | ⟨w, line, rest, op, rfl, hop⟩ := next?_bind_cases read unread
    · rw [chainWithin_of_none hnone] at hrun
      cases hrun
      exact Nat.le_refl _
    · rw [chainWithin_cons hop] at hrun
      have hlen := (hshrinks op).bind (fun right => ih (op.apply lhs right)) _ _ _ hrun
      exact Nat.le_succ_of_le hlen

private theorem shrinks_chain (hshrinks : ∀ op, Shrinks (rhs op)) (lhs : Expr) :
    Shrinks (chain read rhs lhs) := fun s e s' hrun =>
  shrinks_chainWithin hshrinks _ lhs s e s' hrun

end Chains

/-! ### Climbing without bounds -/

/-- The expressions of a least precedence. -/
def level (least : Nat) : Parser Expr :=
  bounded fun n => expressionWithin n least

/-- The operator that a token stands for, if it binds at least as tightly as `least`. -/
def operatorFrom? (least : Nat) (w : Token) : Option BinaryOp :=
  w.operator?.filter (least ≤ ·.precedence)

/-- Extends an expression by all operators that bind at least as tightly as `least`. -/
def climb (least : Nat) : Expr → Parser Expr :=
  chain (operatorFrom? least) fun op => level (op.precedence + 1)

/-- The loop over the operators is a chain of all operators of the level or higher. -/
private theorem operators_eq_chainWithin (rhs : Nat → Parser Expr) (least n : Nat) (lhs : Expr) :
    operators rhs least n lhs =
      chainWithin (operatorFrom? least) (fun op => rhs (op.precedence + 1)) n lhs := by
  induction n generalizing lhs with
  | zero => rfl
  | succ n ih =>
    simp only [operators, chainWithin, ih]
    refine congrArg (peek >>= ·) (funext fun next => ?_)
    cases hop : next.bind Token.operator? with
    | none =>
      have hnone : next.bind (operatorFrom? least) = none := by
        cases next <;> simp_all [operatorFrom?]
      rw [hnone]
    | some op =>
      obtain ⟨w, rfl, hw⟩ := Option.bind_eq_some_iff.mp hop
      by_cases hle : least ≤ op.precedence
      · simp [operatorFrom?, hw, hle, Nat.not_lt.mpr hle, Option.filter]
      · simp [operatorFrom?, hw, hle, Nat.lt_of_not_le hle, Option.filter]

private theorem consumes_operand {inner : Parser Expr} (h : Shrinks inner) :
    Consumes (operand inner) := by
  intro s s' e hrun
  rw [operand_eq_take] at hrun
  obtain ⟨⟨lead, line⟩, s₁, htake, hlead⟩ := bind_eq_ok.mp hrun
  refine Nat.lt_of_le_of_lt ?_ (consumes_take htake)
  cases lead with
  | variableName | constant =>
    cases hlead
    exact Nat.le_refl _
  | parenthesis =>
    have hexpect : Shrinks (expect .closeParen) := Consumes.shrinks (consumes_expect _)
    refine (h.bind fun e => hexpect.bind fun _ => ?_) _ _ _ hlead
    intro s a s' hpure
    cases hpure
    exact Nat.le_refl _

/-- Operands agree with one token more than the expressions in their parentheses. -/
private theorem operand_eqWithin {n : Nat} {inner inner' : Parser Expr}
    (h : EqWithin n inner inner')
    (hshrinks : Shrinks inner') : EqWithin (n + 1) (operand inner) (operand inner') := by
  rw [operand_eq_take, operand_eq_take]
  refine EqWithin.bind_succ (fun _ _ => rfl) consumes_take ?_
  rintro ⟨lead, line⟩
  cases lead with
  | variableName | constant => exact fun _ _ => rfl
  | parenthesis => exact h.bind hshrinks fun _ _ _ => rfl

private theorem shrinks_level (least : Nat) : Shrinks (level least) := by
  intro s e s' hrun
  obtain ⟨ts, hts, -⟩ := expressionWithin_sound _ least s e s' (Nat.le_refl _) hrun
  have hlen := hts.length_eq
  omega

/-- Within a bound, an expression is an operand that operators are climbed from. -/
private theorem expressionWithin_succ_eqWithin {n : Nat}
    (h : ∀ least, EqWithin n (expressionWithin n least) (level least)) (least : Nat) :
    EqWithin (n + 1) (expressionWithin (n + 1) least) (operand expression >>= climb least) := by
  rw [expressionWithin]
  refine (operand_eqWithin (h 0) (shrinks_level 0)).bind_succ (consumes_operand (shrinks_level 0))
    fun lhs s hn => ?_
  rw [operators_eq_chainWithin]
  exact chainWithin_congr (fun op => h _) (fun op => shrinks_level _) (Nat.le_succ_of_le hn) hn
    (Nat.le_refl _)

/-- The bound of the parser plays no part, if it is no smaller than the number of tokens left. -/
theorem expressionWithin_eqWithin (n : Nat) :
    ∀ least, EqWithin n (expressionWithin n least) (level least) := by
  induction n using Nat.strongRecOn with
  | ind n ih =>
    intro least s hn
    obtain ⟨unread, last, c⟩ := s
    cases unread with
    | nil => rw [failsAtEnd_expressionWithin n least last c, level, bounded_apply,
        failsAtEnd_expressionWithin _ least last c]
    | cons t rest =>
      obtain ⟨n, rfl⟩ : ∃ m, n = m + 1 := ⟨n - 1, by simp at hn; omega⟩
      have hrest : rest.length ≤ n := by simpa using hn
      rw [expressionWithin_succ_eqWithin (ih n (Nat.lt_succ_self n)) least _ hn, level,
        bounded_apply, List.length_cons,
        expressionWithin_succ_eqWithin (ih rest.length (Nat.lt_succ_of_le hrest)) least _
          (Nat.le_refl _)]

/-- An expression is an operand and the operators behind it. -/
theorem level_eq (least : Nat) : level least = operand expression >>= climb least := by
  funext s
  rw [← expressionWithin_eqWithin (s.unread.length + 1) least s (Nat.le_succ _)]
  exact expressionWithin_succ_eqWithin (expressionWithin_eqWithin _) least s (Nat.le_succ _)

/-! ### One precedence at a time -/

/-- What stops a level stops a chain of its operators. -/
private theorem bind_eq_none_of_stops {read : Token → Option BinaryOp} {least : Nat}
    {unread : List Located} (h : Stops least unread)
    (hread : ∀ w op, read w = some op → w.operator? = some op ∧ least ≤ op.precedence) :
    (next? unread).bind read = none := by
  refine Option.eq_none_iff_forall_not_mem.mpr fun op hop => ?_
  obtain ⟨w, hw, hwread⟩ := Option.bind_eq_some_iff.mp hop
  obtain ⟨hwop, hle⟩ := hread w op hwread
  have hlt : op.precedence < least := h op (by rw [hw]; exact hwop)
  exact absurd hle (Nat.not_le.mpr hlt)

private theorem climb_of_stops {least : Nat} {lhs : Expr} {s : ParseState}
    (h : Stops least s.unread) :
    climb least lhs s = .ok lhs s := by
  refine chain_of_none (bind_eq_none_of_stops h fun w op hop => ?_)
  obtain ⟨hwop, hle⟩ := Option.filter_eq_some_iff.mp hop
  exact ⟨hwop, of_decide_eq_true hle⟩

/-- Climbing reads an operator and a right-hand side of a higher level, and goes on. -/
private theorem climb_cons {least line last : Nat} {lhs : Expr} {w : Token} {op : BinaryOp}
    {rest : List Located} {c : Checker} (hop : w.operator? = some op)
    (hle : least ≤ op.precedence) :
    climb least lhs ⟨⟨w, line⟩ :: rest, last, c⟩ =
      (level (op.precedence + 1) >>= fun right => climb least (op.apply lhs right))
        ⟨rest, line, c⟩ :=
  chain_cons (fun _ => shrinks_level _)
    (by rw [operatorFrom?, hop, Option.filter_some, if_pos (decide_eq_true hle)])

/-- Behind a level no operator of it is left. -/
private theorem level_stops {least : Nat} {s s' : ParseState} {e : Expr}
    (h : level least s = .ok e s') :
    Stops least s'.unread := by
  obtain ⟨-, -, -, hstop⟩ := expressionWithin_sound _ least s e s' (Nat.le_refl _) h
  exact hstop

section Level

variable {read : Token → Option BinaryOp} {least p : Nat}

/-- Where nothing can be climbed any more, a chain has nothing to add. -/
private theorem climb_eq_of_stops (hread : ∀ w, read w = w.operator?.filter (·.precedence = p))
    (hleast : ∀ op : BinaryOp, least ≤ op.precedence ↔ p ≤ op.precedence) {lhs : Expr}
    {s : ParseState} (hstop : Stops least s.unread) :
    climb least lhs s = (climb (p + 1) lhs >>= chain read fun _ => level (p + 1)) s := by
  have hhigher : Stops (p + 1) s.unread := by
    intro op hop
    have hlt := Nat.not_le.mpr (hstop op hop)
    have hp := mt (hleast op).mpr hlt
    omega
  have hnone : (next? s.unread).bind read = none := by
    refine bind_eq_none_of_stops hstop fun w op hop => ?_
    rw [hread] at hop
    obtain ⟨hwop, heq⟩ := Option.filter_eq_some_iff.mp hop
    exact ⟨hwop, (hleast op).mpr (Nat.le_of_eq (of_decide_eq_true heq).symm)⟩
  rw [climb_of_stops hstop, bind_apply, climb_of_stops hhigher]
  exact (chain_of_none hnone).symm

/-- The loop over the operators of precedence `p` and higher is the one over those of higher
precedence followed by the one over those of precedence `p`. -/
theorem climb_eq (hread : ∀ w, read w = w.operator?.filter (·.precedence = p))
    (hleast : ∀ op : BinaryOp, least ≤ op.precedence ↔ p ≤ op.precedence) (lhs : Expr) :
    climb least lhs = climb (p + 1) lhs >>= chain read fun _ => level (p + 1) := by
  suffices h : ∀ n, ∀ lhs, EqWithin n (climb least lhs)
      (climb (p + 1) lhs >>= chain read fun _ => level (p + 1)) from
    funext fun s => h s.unread.length lhs s (Nat.le_refl _)
  intro n
  induction n with
  | zero =>
    intro lhs s hn
    have hnil : s.unread = [] := List.length_eq_zero_iff.mp (Nat.le_zero.mp hn)
    exact climb_eq_of_stops hread hleast (hnil ▸ Stops.nil least)
  | succ n ih =>
    intro lhs s hn
    by_cases hstop : Stops least s.unread
    · exact climb_eq_of_stops hread hleast hstop
    · obtain ⟨unread, last, c⟩ := s
      obtain ⟨w, line, rest, op, rfl, hop, hle⟩ := Stops.exists_operator hstop
      have hrest : rest.length ≤ n := by simpa using hn
      rw [climb_cons hop hle]
      obtain hlt | heq := Nat.lt_or_eq_of_le ((hleast op).mp hle)
      · -- The loop for the higher precedences takes the operator as well.
        rw [bind_apply _ _ (ParseState.mk _ last c), climb_cons hop hlt, ← bind_apply, bind_assoc]
        refine bind_apply_congr fun right s₁ hrun => ih _ s₁ ?_
        exact Nat.le_trans (shrinks_level _ _ _ _ hrun) hrest
      · -- It stops before the operator, and again behind the right-hand side of the operator.
        subst heq
        have hw : read w = some op := by
          rw [hread, hop, Option.filter_some, if_pos (decide_eq_true rfl)]
        rw [bind_apply _ _ (ParseState.mk _ last c), climb_of_stops (Stops.of_operator hop)]
        refine Eq.trans ?_ (chain_cons (fun _ => shrinks_level _) hw).symm
        refine bind_apply_congr fun right s₁ hrun => ?_
        rw [ih _ s₁ (Nat.le_trans (shrinks_level _ _ _ _ hrun) hrest), bind_apply,
          climb_of_stops (level_stops hrun)]

private theorem level_eq_leftAssociative
    (hread : ∀ w, read w = w.operator?.filter (·.precedence = p))
    (hleast : ∀ op : BinaryOp, least ≤ op.precedence ↔ p ≤ op.precedence) :
    level least = leftAssociative read (level (p + 1)) := by
  have hclimb : climb least = fun lhs => climb (p + 1) lhs >>= chain read fun _ => level (p + 1) :=
    funext (climb_eq hread hleast)
  rw [leftAssociative, level_eq least, hclimb, ← bind_assoc, ← level_eq]

end Level

/-- Above the highest precedence there is no operator to extend an operand by. -/
theorem level_eq_operand : level 51 = operand expression := by
  have hclimb (lhs : Expr) : climb 51 lhs = pure lhs := by
    refine funext fun s => climb_of_stops fun op _ => ?_
    exact Nat.lt_succ_of_le op.precedence_le
  rw [level_eq, funext hclimb, bind_pure]

private theorem precedence_cases (op : BinaryOp) :
    op.precedence = 35 ∨ op.precedence = 45 ∨ op.precedence = 50 := by
  rcases op with (_ | _ | _ | _) | _ <;> simp [BinaryOp.precedence]

private theorem level_eq_product : level 46 = product (operand expression) := by
  rw [product, ← level_eq_operand]
  refine level_eq_leftAssociative (fun w => ?_) fun op => ?_
  · cases w <;> rfl
  · have hop := precedence_cases op
    omega

private theorem level_eq_sum : level 36 = sum (operand expression) := by
  rw [sum, ← level_eq_product]
  refine level_eq_leftAssociative (fun w => ?_) fun op => ?_
  · cases w <;> rfl
  · have hop := precedence_cases op
    omega

private theorem expression_eq_comparison : expression = comparison (operand expression) := by
  rw [comparison, ← level_eq_sum]
  refine level_eq_leftAssociative (fun w => ?_) fun op => ?_
  · cases w <;> rfl
  · have hop := precedence_cases op
    omega

/-! ### The stratified parser without bounds -/

section LeftAssociative

variable {read : Token → Option BinaryOp} {item item' : Parser Expr}

private theorem Shrinks.leftAssociative (h : Shrinks item) : Shrinks (leftAssociative read item) :=
  h.bind fun _ => shrinks_chain (fun _ => h) _

private theorem EqWithin.leftAssociative {n : Nat} (h : EqWithin n item item')
    (hshrinks : Shrinks item') :
    EqWithin n (leftAssociative read item) (leftAssociative read item') :=
  h.bind hshrinks fun _ _ hn =>
    chainWithin_congr (fun _ => h) (fun _ => hshrinks) (Nat.le_succ_of_le hn) (Nat.le_refl _)
      (Nat.le_refl _)

private theorem EqWithin.comparison {n : Nat} (h : EqWithin n item item')
    (hshrinks : Shrinks item') :
    EqWithin n (comparison item) (comparison item') :=
  ((h.leftAssociative hshrinks).leftAssociative hshrinks.leftAssociative).leftAssociative
    hshrinks.leftAssociative.leftAssociative

end LeftAssociative

private theorem stratifiedWithin_eqWithin (n : Nat) :
    EqWithin n (stratifiedWithin n) expression := by
  induction n with
  | zero =>
    rintro ⟨unread, last, c⟩ hn
    obtain rfl : unread = [] := List.length_eq_zero_iff.mp (Nat.le_zero.mp hn)
    exact (failsAtEnd_expression last c).symm
  | succ n ih =>
    have hshrinks : Shrinks expression := shrinks_level 0
    rw [expression_eq_comparison]
    exact (operand_eqWithin ih hshrinks).comparison (Consumes.shrinks (consumes_operand hshrinks))

/-- **Precedence climbing is the stratified parser.** Over the same operands the parser for
expressions is the parser of comparisons of sums of products, and so it is the parser that has
nothing but these levels all the way down, also between parentheses. As functions of the state they
agree on the tree with its types or on the error, on the tokens that are left, and on everything
that the checker has been told. -/
theorem expression_eq_stratified :
    expression = comparison (operand expression) ∧ expression = stratified := by
  refine ⟨expression_eq_comparison, funext fun s => ?_⟩
  exact (stratifiedWithin_eqWithin s.unread.length s (Nat.le_refl _)).symm

end TinyImp.Parser
