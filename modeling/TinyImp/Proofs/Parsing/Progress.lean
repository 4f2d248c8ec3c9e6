import TinyImp.Proofs.Parsing.Stratified
import TinyImp.Proofs.Parsing.Unbounded

/-!
# The parser comes to an end

The parser without bounds comes to an end on every list of tokens, well-formed or not, and its
outcome is that of the parser with bounds: a bound is never what ends a parse. The cursor that it
moves stays within the tokens, although nothing in its moves keeps it there.

All of this has one cause. What succeeds has gone past a token, so whatever is called or repeated
behind it has fewer tokens left; and what moves the cursor without looking has been looked at
before. The invariant `Unbounded.Settles n k` carries this through the parser: from a cursor within
the tokens that has at most `n` of them left, a run ends in the way in which the bounded parser ends
on the view of the cursor, with a cursor within the tokens that is not in front of the first one,
and at least `k` tokens further if the run is a success. In a sequence the second parser has as much
room as the first one leaves (`Unbounded.Settles.bind_of`), and the induction is on that room.

So the position never goes back and never passes the end, whether the parser succeeds or fails, and
it goes forward whenever the parser succeeds and in every round of a loop
(`Unbounded.round_reaches`).
-/

namespace TinyImp

namespace Unbounded

open Cursor (Within Reaches)
open TinyImp.Parser (FailsAtEnd bind_eq_ok)

variable {α β : Type}

/-- A parser without calls ends in its own result only. -/
private theorem ends_run_iff {q : CursorParser α} {c : Cursor}
    {r : EStateM.Result ParseError Cursor α} :
    Ends (.run q) c r ↔ r = q c := by
  constructor
  · intro h
    cases h
    rfl
  · rintro rfl
    exact .run q c

/-- The token that is seen on the view of a cursor is the one at its position. -/
private theorem peek_bind_view (c : Cursor) (f : Option Token → Parser β) :
    (Parser.peek >>= f) c.view = f (c.here?.map (·.token)) c.view := by
  rw [Parser.bind_apply, Parser.peek_apply, c.next?_unread_view]

/-- The run from a cursor and the run of a bounded parser on its view **end alike**. They return the
same value or fail with the same error, and the view of the cursor behind the first run is the state
behind the second one. That cursor is within the tokens; it is not in front of the first cursor, and
at least `k` tokens further if the runs succeed. -/
inductive SettlesAt (c : Cursor) (k : Nat) (u : Unbounded α) (p : Parser α) : Prop
  | ok {a : α} {c' : Cursor} (hends : Ends u c (.ok a c')) (hrun : p c.view = .ok a c'.view)
      (hreaches : c.Reaches k c')
  | error {e : ParseError} {c' : Cursor} (hends : Ends u c (.error e c'))
      (hrun : p c.view = .error e c'.view) (hreaches : c.Reaches 0 c')

/-! ### Rules at a cursor -/

namespace SettlesAt

variable {c : Cursor} {j k : Nat} {u : Unbounded α} {p : Parser α} {v : α → Unbounded β}
  {f : α → Parser β}

/-- A run that goes past at least `k` tokens goes past any smaller number. -/
private theorem mono (h : SettlesAt c k u p) (hj : j ≤ k) : SettlesAt c j u p := by
  cases h with
  | ok hends hrun hreaches => exact .ok hends hrun (hreaches.mono hj)
  | error hends hrun hreaches => exact .error hends hrun hreaches

/-- Another parser that does the same on the view. -/
theorem congr {q : Parser α} (h : SettlesAt c k u p) (hq : q c.view = p c.view) :
    SettlesAt c k u q := by
  cases h with
  | ok hends hrun hreaches => exact .ok hends (hq.trans hrun) hreaches
  | error hends hrun hreaches => exact .error hends (hq.trans hrun) hreaches

/-- Another parser that does the same at the cursor. -/
theorem congr_run {q q' : CursorParser α} (h : SettlesAt c k (.run q) p) (hq : q' c = q c) :
    SettlesAt c k (.run q') p := by
  cases h with
  | ok hends hrun hreaches =>
    exact .ok (ends_run_iff.mpr ((ends_run_iff.mp hends).trans hq.symm)) hrun hreaches
  | error hends hrun hreaches =>
    exact .error (ends_run_iff.mpr ((ends_run_iff.mp hends).trans hq.symm)) hrun hreaches

/-- A call does what the body of the procedure does. -/
theorem call {procedure : Procedure α} (h : SettlesAt c k (body procedure) p) :
    SettlesAt c k (.call procedure) p := by
  cases h with
  | ok hends hrun hreaches => exact .ok (.call hends) hrun hreaches
  | error hends hrun hreaches => exact .error (.call hends) hrun hreaches

/-- **Sequences.** The second parser goes on wherever the first one leads. -/
theorem bind (h : SettlesAt c k u p)
    (hf : ∀ a c₁, c.Reaches k c₁ → SettlesAt c₁ j (v a) (f a)) :
    SettlesAt c (k + j) (u >>= v) (p >>= f) := by
  cases h with
  | error hends hrun hreaches =>
    refine .error (.error hends) ?_ hreaches
    rw [Parser.bind_apply, hrun]
  | @ok a c₁ hends hrun hreaches =>
    have hbind : (p >>= f) c.view = f a c₁.view := by rw [Parser.bind_apply, hrun]
    cases hf a c₁ hreaches with
    | ok hends' hrun' hreaches' =>
      exact .ok (.ok hends hends') (hbind.trans hrun') (hreaches.trans hreaches')
    | error hends' hrun' hreaches' =>
      exact .error (.ok hends hends') (hbind.trans hrun')
        ((hreaches.trans hreaches').mono (Nat.zero_le _))

protected theorem pure (hin : c.Within) (a : α) :
    SettlesAt c 0 (Pure.pure a) (Pure.pure a : Parser α) :=
  .ok (.run _ c) rfl (.refl hin _)

/-- What follows a look at the token at the position knows this token. -/
theorem peek_bind {v : Option Token → Unbounded β} {f : Option Token → Parser β}
    (h : SettlesAt c k (v (c.here?.map (·.token))) (f (c.here?.map (·.token)))) :
    SettlesAt c k ((Cursor.peek : Unbounded _) >>= v) (Parser.peek >>= f) := by
  have hbind := peek_bind_view c f
  cases h with
  | ok hends hrun hreaches => exact .ok (.ok (.run _ c) hends) (hbind.trans hrun) hreaches
  | error hends hrun hreaches => exact .error (.ok (.run _ c) hends) (hbind.trans hrun) hreaches

/-- **A step without looking** is safe where a token has been looked at. -/
theorem bump {t : Located} (h : c.here? = some t) :
    SettlesAt c 1 (Cursor.bump : Unbounded Unit) (Parser.expect t.token) := by
  obtain ⟨last, hview, hview'⟩ := Cursor.view_of_here? h
  refine .ok (.run _ c) ?_ (Cursor.reaches_bumped h)
  rw [hview, hview']
  exact Parser.expect_cons t.token t.line last _ c.checker

/-- What follows such a step knows the token. -/
theorem bump_bind {t : Located} (h : c.here? = some t) {v : Unit → Unbounded β}
    {f : Located → Parser β} (hf : ∀ c₁, c.Reaches 1 c₁ → SettlesAt c₁ 0 (v ()) (f t)) :
    SettlesAt c 1 ((Cursor.bump : Unbounded Unit) >>= v) (Parser.next >>= f) := by
  obtain ⟨w, line⟩ := t
  refine ((bump h).bind fun _ => hf).congr ?_
  obtain ⟨last, hview, -⟩ := Cursor.view_of_here? h
  rw [hview, Parser.bind_apply, Parser.next_cons, Parser.bind_apply, Parser.expect_cons]

/-- A token that stands for something is gone past. -/
theorem take_of_some {t : Located} (h : c.here? = some t) {read : Token → Option α} {a : α}
    (hread : read t.token = some a) (cause : Token → ParseError.Cause) :
    SettlesAt c 1 (Cursor.take read cause : Unbounded _) (Parser.take read cause) := by
  obtain ⟨last, hview, hview'⟩ := Cursor.view_of_here? h
  refine .ok (ends_run_iff.mpr (Cursor.take_of_some h hread cause).symm) ?_
    (Cursor.reaches_bumped h)
  rw [hview, hview']
  exact Parser.take_cons_of_some read cause hread _ last c.checker

/-- A failure at the end. -/
theorem of_end (hin : c.Within) (h : c.here? = none) (hp : FailsAtEnd p)
    (hends : Ends u c (.error ⟨.unexpectedEnd, c.line⟩ c)) : SettlesAt c k u p := by
  refine .error hends ?_ (.refl hin _)
  rw [Cursor.view_of_end h]
  exact hp c.line c.checker

/-- A failure at a token that has only been looked at. -/
theorem failHere (hin : c.Within) {t : Located} (h : c.here? = some t)
    (cause : Token → ParseError.Cause) :
    SettlesAt c k (Cursor.failHere (cause t.token) : Unbounded α) (Parser.reject cause) := by
  obtain ⟨last, hview, -⟩ := Cursor.view_of_here? h
  refine .error (.run _ c) ?_ (.refl hin _)
  rw [hview, Cursor.line_of_here? h]
  rfl

end SettlesAt

/-! ### Rules -/

/-- From every cursor within the tokens that has **at most `n` tokens left**, the two runs end
alike. -/
def Settles (n k : Nat) (u : Unbounded α) (p : Parser α) : Prop :=
  ∀ c : Cursor, c.Within → c.left ≤ n → SettlesAt c k u p

namespace Settles

variable {n m k : Nat} {u : Unbounded α} {p : Parser α} {v : α → Unbounded β} {f : α → Parser β}

/-- With less room, and for fewer tokens, it settles as well. -/
private theorem mono {j : Nat} (h : Settles n k u p) (hm : m ≤ n) (hj : j ≤ k) : Settles m j u p :=
  fun c hin hn => (h c hin (Nat.le_trans hn hm)).mono hj

/-- Fewer tokens are a special case. -/
theorem of_le (h : Settles n k u p) (hm : m ≤ n) : Settles m k u p :=
  h.mono hm (Nat.le_refl k)

/-- How much is read need not matter. -/
theorem weaken (h : Settles n k u p) : Settles n 0 u p :=
  h.mono (Nat.le_refl n) (Nat.zero_le k)

/-- A call settles as the body of the procedure does. -/
private theorem call {procedure : Procedure α} (h : Settles n k (body procedure) p) :
    Settles n k (.call procedure) p :=
  fun c hin hn => (h c hin hn).call

/-- Behind a cursor that has gone past `k` tokens there is less room by `k`. -/
theorem at_reaches (h : Settles m k u p) {c c₁ : Cursor} {j : Nat} (hreaches : c.Reaches j c₁)
    (hn : c.left ≤ m + j) : SettlesAt c₁ k u p := by
  refine h c₁ hreaches.within ?_
  have hleft := hreaches.left_add_le
  omega

/-- **Sequences.** The second parser has as much room as the first one leaves. -/
theorem bind_of {j : Nat} (h : Settles n k u p) (hf : ∀ a, Settles m j (v a) (f a))
    (hroom : n ≤ m + k) : Settles n (k + j) (u >>= v) (p >>= f) :=
  fun c hin hn => (h c hin hn).bind fun a _ hreaches =>
    (hf a).at_reaches hreaches (Nat.le_trans hn hroom)

/-- The second parser does the reading that counts. -/
theorem bind {j : Nat} (h : Settles n j u p) (hf : ∀ a, Settles n k (v a) (f a)) :
    Settles n k (u >>= v) (p >>= f) :=
  (h.bind_of hf (Nat.le_add_right n j)).mono (Nat.le_refl n) (Nat.le_add_left k j)

/-- The first parser does the reading that counts. -/
theorem bind_left (h : Settles n k u p) (hf : ∀ a, Settles n 0 (v a) (f a)) :
    Settles n k (u >>= v) (p >>= f) :=
  h.bind_of hf (Nat.le_add_right n k)

/-- Behind a parser that reads something there is one token less. -/
theorem bind_succ (h : Settles (n + 1) 1 u p) (hf : ∀ a, Settles n 0 (v a) (f a)) :
    Settles (n + 1) 1 (u >>= v) (p >>= f) :=
  h.bind_of hf (Nat.le_refl (n + 1))

/-- A value is returned without reading. -/
protected theorem pure (a : α) : Settles n 0 (Pure.pure a) (Pure.pure a : Parser α) :=
  fun _ hin _ => .pure hin a

/-- The bound of a parser is the number of tokens left. -/
theorem bounded {p : Nat → Parser α} (h : ∀ m ≤ n, Settles m k u (p m)) :
    Settles n k u (Parser.bounded p) := by
  intro c hin hn
  refine (h c.left hn c hin (Nat.le_refl _)).congr ?_
  rw [Parser.bounded_apply, c.length_unread_view]

/-- With no token left, a bound that is used up is the end of the text. -/
theorem of_failsAtEnd (hp : FailsAtEnd p)
    (h : ∀ c : Cursor, c.here? = none → Ends u c (.error ⟨.unexpectedEnd, c.line⟩ c)) :
    Settles 0 k u p := by
  intro c hin hn
  have hend := Cursor.here?_eq_none_iff.mpr (Nat.le_zero.mp hn)
  exact .of_end hin hend hp (h c hend)

/-- With no token left, a loop that has met its bound has met the end. -/
theorem pure_of_end {a : α} (h : ∀ c : Cursor, c.here? = none → Ends u c (.ok a c)) :
    Settles 0 0 u (Pure.pure a) := by
  intro c hin hn
  exact .ok (h c (Cursor.here?_eq_none_iff.mpr (Nat.le_zero.mp hn))) rfl (.refl hin _)

/-! ### Single tokens -/

/-- A result that is changed on is settled in the same way. -/
private theorem map {q : CursorParser α} (h : Settles n k (.run q) p) (g : α → β) :
    Settles n k (.run (g <$> q)) (p >>= fun a => Pure.pure (g a)) := by
  intro c hin hn
  cases h c hin hn with
  | @ok a c' hends hrun hreaches =>
    have hmap : (g <$> q) c = .ok (g a) c' := by
      change EStateM.map g q c = _
      rw [EStateM.map, ← ends_run_iff.mp hends]
    refine .ok (ends_run_iff.mpr hmap.symm) ?_ hreaches
    rw [Parser.bind_apply, hrun]
    rfl
  | @error e c' hends hrun hreaches =>
    have hmap : (g <$> q) c = .error e c' := by
      change EStateM.map g q c = _
      rw [EStateM.map, ← ends_run_iff.mp hends]
    refine .error (ends_run_iff.mpr hmap.symm) ?_ hreaches
    rw [Parser.bind_apply, hrun]

/-- A token is gone past also by a failure, if the cause of the failure says so. -/
theorem take (read : Token → Option α) {cause : Token → ParseError.Cause}
    (hcause : ∀ w, (cause w).ahead = false) :
    Settles n 1 (Cursor.take read cause : Unbounded _) (Parser.take read cause) := by
  intro c hin _
  cases hhere : c.here? with
  | none =>
    exact .of_end hin hhere (fun _ _ => rfl)
      (ends_run_iff.mpr (Cursor.take_of_end hhere cause).symm)
  | some t =>
    cases hread : read t.token with
    | some a => exact .take_of_some hhere hread cause
    | none =>
      obtain ⟨last, hview, hview'⟩ := Cursor.view_of_here? hhere
      refine .error (ends_run_iff.mpr (Cursor.take_of_none hhere hread cause).symm) ?_
        ((Cursor.reaches_bumped hhere).mono (Nat.zero_le 1))
      rw [hview, hview', Parser.take_cons_of_none read cause hread, hcause t.token]
      rfl

/-- The wanted token is gone past, or both fail in the same way. -/
private theorem expect (w : Token) :
    Settles n 1 (Cursor.expect w : Unbounded _) (Parser.expect w) := by
  rw [Parser.expect_eq_take]
  exact (take _ fun _ => rfl).map _

/-- An identifier is gone past, or both fail in the same way. -/
private theorem identifier : Settles n 1 (Cursor.identifier : Unbounded _) Parser.identifier := by
  rw [Parser.identifier_eq_take, bind_pure]
  exact take _ fun _ => rfl

/-- A type is gone past, or both fail in the same way. -/
private theorem typeSpecifier :
    Settles n 1 (Cursor.typeSpecifier : Unbounded _) Parser.typeSpecifier := by
  rw [Parser.typeSpecifier_eq_take]
  exact (take _ fun _ => rfl).map _

/-- Both see the same token, and go past none. -/
private theorem peek : Settles n 0 (Cursor.peek : Unbounded _) Parser.peek := by
  intro c hin _
  refine .ok (.run _ c) ?_ (.refl hin _)
  rw [Parser.peek_apply, c.next?_unread_view]

/-- What follows a look at a token that has to be there knows this token. -/
theorem peekOrFail_bind {v : Token → Unbounded β} {f : Option Token → Parser β}
    (hend : FailsAtEnd (f none))
    (h : ∀ (c : Cursor) (t : Located), c.Within → c.left ≤ n → c.here? = some t →
      SettlesAt c k (v t.token) (f (some t.token))) :
    Settles n k ((Cursor.peekOrFail : Unbounded _) >>= v) (Parser.peek >>= f) := by
  intro c hin hn
  have hbind := peek_bind_view c f
  cases hhere : c.here? with
  | none =>
    have hfails := ends_run_iff.mpr (Cursor.peekOrFail_of_end hhere).symm
    refine (SettlesAt.of_end hin hhere hend (.error hfails)).congr ?_
    rw [hbind, hhere, Option.map_none]
  | some t =>
    have hfound := ends_run_iff.mpr (Cursor.peekOrFail_of_here? hhere).symm
    rw [hhere, Option.map_some] at hbind
    cases h c t hin hn hhere with
    | ok hends hrun hreaches => exact .ok (.ok hfound hends) (hbind.trans hrun) hreaches
    | error hends hrun hreaches => exact .error (.ok hfound hends) (hbind.trans hrun) hreaches

/-- Looking before the step keeps the cursor within the tokens. -/
theorem bumpIf (w : Token) : Settles n 0 (Cursor.bumpIf w : Unbounded _) (Parser.skipIf w) := by
  intro c hin _
  have hrun := Cursor.bumpIf_apply w c
  by_cases hw : c.here?.map (·.token) = some w
  · obtain ⟨⟨w, line⟩, hhere, rfl⟩ := Option.map_eq_some_iff.mp hw
    obtain ⟨last, hview, hview'⟩ := Cursor.view_of_here? hhere
    rw [if_pos hw] at hrun
    refine .ok (ends_run_iff.mpr hrun.symm) ?_ ((Cursor.reaches_bumped hhere).mono (Nat.zero_le 1))
    rw [hview, hview']
    exact Parser.skipIf_cons w line last _ c.checker
  · rw [if_neg hw] at hrun
    rw [← c.next?_unread_view] at hw
    exact .ok (ends_run_iff.mpr hrun.symm) (Parser.skipIf_of_ne w _ _ _ hw) (.refl hin _)

/-- Neither succeeds, so that any number of tokens can be said to be gone past. -/
private theorem unexpected :
    Settles n k (Cursor.unexpected : Unbounded α) (Parser.unexpected : Parser α) := by
  intro c hin _
  cases hhere : c.here? with
  | none =>
    exact .of_end hin hhere (fun _ _ => rfl)
      (ends_run_iff.mpr (Cursor.unexpected_of_end hhere).symm)
  | some t =>
    exact (SettlesAt.failHere hin hhere .unexpected).congr_run (Cursor.unexpected_of_here? hhere)

/-- To be at the end is to see no token. -/
theorem atEnd_bind {v : Bool → Unbounded β} {f : Option Token → Parser β}
    (h : ∀ o, Settles n k (v o.isNone) (f o)) :
    Settles n k ((Cursor.atEnd : Unbounded _) >>= v) (Parser.peek >>= f) := by
  intro c hin hn
  have hbind := peek_bind_view c f
  have hatEnd := ends_run_iff.mpr c.atEnd_apply.symm
  cases h _ c hin hn with
  | ok hends hrun hreaches => exact .ok (.ok hatEnd hends) (hbind.trans hrun) hreaches
  | error hends hrun hreaches => exact .error (.ok hatEnd hends) (hbind.trans hrun) hreaches

private theorem ask (g : Checker → α × Checker) :
    Settles n 0 (Cursor.ask g : Unbounded _) (Parser.ask g) :=
  fun c hin _ => .ok (.run _ c) rfl (.refl hin _)

private theorem tell (g : Checker → Checker) :
    Settles n 0 (Cursor.tell g : Unbounded _) (Parser.tell g) :=
  fun c hin _ => .ok (.run _ c) rfl (.refl hin _)

end Settles

/-! ### Expressions -/

section Expressions

variable {n : Nat} {inner : Parser Expr} {rhs : Nat → Parser Expr}

/-- An operand settles with room for one token more than an expression in parentheses. -/
private theorem operand_settles (h : Settles n 1 (.call (.expression 0)) inner) :
    Settles (n + 1) 1 (.call .operand) (Parser.operand inner) := by
  refine Settles.call (Settles.peekOrFail_bind (fun _ _ => rfl) fun c t hin hn hhere => ?_)
  obtain ⟨w, line⟩ := t
  cases w with
  | identifier name =>
    exact (Settles.identifier.bind_left fun _ => (Settles.ask _).bind fun _ => .pure _) c hin hn
  | intLit value => exact .bump_bind hhere fun c₁ hreaches => .pure hreaches.within _
  | floatLit value => exact .bump_bind hhere fun c₁ hreaches => .pure hreaches.within _
  | openParen =>
    exact ((Settles.expect _).bind_succ fun _ => h.bind fun _ =>
      (Settles.expect _).bind fun _ => .pure _) c hin hn
  | _ => exact .failHere hin hhere .expectedExpression

/-- If an operator is seen, there is a token to see. -/
private theorem exists_here?_of_operator {c : Cursor} {op : BinaryOp}
    (h : (c.here?.map (·.token)).bind Token.operator? = some op) :
    ∃ t, c.here? = some t ∧ t.token.operator? = some op := by
  obtain ⟨w, hw, hop⟩ := Option.bind_eq_some_iff.mp h
  obtain ⟨t, hhere, rfl⟩ := Option.map_eq_some_iff.mp hw
  exact ⟨t, hhere, hop⟩

/-- A round over the operators begins where an operator has been looked at, and goes past it. -/
theorem operation_settlesAt (h : ∀ least, Settles n 1 (.call (.expression least)) (rhs least))
    {c : Cursor} (hn : c.left ≤ n + 1) {op : BinaryOp}
    (hop : (c.here?.map (·.token)).bind Token.operator? = some op) (precedence : Nat) (lhs : Expr) :
    SettlesAt c 1 (operation precedence lhs) (do
      let _ ← Parser.next
      let right ← rhs (precedence + 1)
      Pure.pure (op.apply lhs right)) := by
  obtain ⟨t, hhere, hop⟩ := exists_here?_of_operator hop
  have hrest (x : BinaryOp × Nat) := (h (precedence + 1)).bind fun right =>
    Settles.pure (n := n) (x.1.apply lhs right)
  have hround := (SettlesAt.take_of_some hhere hop .unexpected).bind fun x c₁ hreaches =>
    (hrest x).at_reaches hreaches hn
  refine hround.congr ?_
  obtain ⟨last, hview, -⟩ := Cursor.view_of_here? hhere
  rw [hview, Parser.bind_apply, Parser.next_cons, Parser.bind_apply,
    Parser.take_cons_of_some _ _ hop]

/-- The loop over the operators settles: every round goes past an operator. -/
private theorem operators_settles (h : ∀ least, Settles n 1 (.call (.expression least)) (rhs least))
    (least : Nat) {k : Nat} (hk : k ≤ n) (lhs : Expr) :
    Settles k 0 (.call (.operators least lhs)) (Parser.operators rhs least k lhs) := by
  induction k generalizing lhs with
  | zero =>
    refine Settles.pure_of_end fun c hend => .call (.ok (.run Cursor.peek c) ?_)
    rw [hend]
    exact .run (Pure.pure lhs) c
  | succ k ih =>
    rw [Parser.operators]
    intro c hin hn
    refine .call (.peek_bind ?_)
    cases hop : (c.here?.map (·.token)).bind Token.operator? with
    | none => exact .pure hin lhs
    | some op =>
      dsimp only
      split
      · exact .pure hin lhs
      · have hrhs (m : Nat) := (h m).of_le (Nat.le_of_succ_le hk)
        have hround := operation_settlesAt hrhs hn hop op.precedence lhs
        have hloop := hround.bind fun extended c₁ hreaches =>
          (ih (Nat.le_of_succ_le hk) extended).at_reaches hreaches hn
        -- the bounded loop does not bracket its rounds
        simpa only [bind_assoc, pure_bind] using hloop.mono (Nat.zero_le _)

/-- **Expressions settle at every level**, by induction on the room. -/
private theorem expressionWithin_settles (n least : Nat) :
    Settles n 1 (.call (.expression least)) (Parser.expressionWithin n least) := by
  induction n generalizing least with
  | zero =>
    -- the bound is used up only where no token is left, and there the operand fails by itself
    refine Settles.of_failsAtEnd Parser.failsAtEnd_failAtEnd fun c hend => ?_
    exact .call (.error (.call (.error (ends_run_iff.mpr (Cursor.peekOrFail_of_end hend).symm))))
  | succ n ih =>
    exact Settles.call ((operand_settles (ih 0)).bind_succ fun lhs =>
      operators_settles ih least (Nat.le_refl n) lhs)

private theorem level_settles (least : Nat) :
    Settles n 1 (.call (.expression least)) (Parser.level least) :=
  .bounded fun m _ => expressionWithin_settles m least

private theorem expression_settles : Settles n 1 (.call (.expression 0)) Parser.expression :=
  level_settles 0

end Expressions

/-! ### Lists -/

section Lists

variable {n : Nat} {item : Unbounded α} {p : Parser α}

/-- A round over the items of a list goes past an item at least. -/
theorem element_settles (h : Settles n 1 item p) :
    Settles n 1 (element item) (do
      let a ← p
      let more ← Parser.skipIf .comma
      Pure.pure (a, more)) :=
  h.bind_left fun _ => (Settles.bumpIf _).bind fun _ => .pure _

/-- A procedure that is the loop over the items of a list. -/
theorem commaSeparated_settles {items : Procedure (List α)}
    (hbody : body items = commaSeparated item (.call items)) (h : ∀ n, Settles n 1 item p)
    (hend : FailsAtEnd p) (n : Nat) :
    Settles n 1 (.call items) (Parser.commaSeparated p n) := by
  induction n with
  | zero =>
    intro c hin hn
    have hhere := Cursor.here?_eq_none_iff.mpr (Nat.le_zero.mp hn)
    have hfails : p c.view = Parser.failAtEnd c.view := by
      rw [Cursor.view_of_end hhere]
      exact hend c.line c.checker
    refine .call ?_
    rw [hbody, Parser.commaSeparated]
    cases h 0 c hin hn with
    | ok hends hrun hreaches =>
      rw [hfails] at hrun
      cases hrun
    | error hends hrun hreaches =>
      rw [hfails] at hrun
      injection hrun with herror hview
      refine .error (.error (.error hends)) ?_ hreaches
      rw [← herror, ← hview]
      rfl
  | succ n ih =>
    have hround : Parser.commaSeparated p (n + 1) =
        (do
          let a ← p
          let more ← Parser.skipIf .comma
          Pure.pure (a, more)) >>= fun first =>
        if first.2 then do
          let rest ← Parser.commaSeparated p n
          Pure.pure (first.1 :: rest)
        else Pure.pure [first.1] := by
      simp only [Parser.commaSeparated, bind_assoc, pure_bind]
    refine Settles.call ?_
    rw [hbody, hround]
    refine (element_settles (h (n + 1))).bind_succ fun first => ?_
    split
    · exact ih.bind fun _ => .pure _
    · exact .pure _

/-- A list in parentheses goes past the closing one at least. -/
private theorem listInParens_settles {items : Unbounded (List α)}
    (h : ∀ n, Settles n 1 items (Parser.commaSeparated p n)) :
    Settles n 1 (listInParens items) (Parser.listInParens p) := by
  refine Settles.peek.bind fun o => ?_
  split
  · exact (Settles.pure []).bind fun _ => (Settles.expect _).bind_left fun _ => .pure _
  · exact (Settles.bounded fun m _ => h m).bind fun _ =>
      (Settles.expect _).bind_left fun _ => .pure _

private theorem arguments_settles (n : Nat) :
    Settles n 1 (.call .arguments) (Parser.commaSeparated Parser.expression n) :=
  commaSeparated_settles rfl (fun _ => expression_settles) Parser.failsAtEnd_expression n

private theorem parameter_settles : Settles n 1 parameter Parser.parameter :=
  Settles.typeSpecifier.bind_left fun _ => Settles.identifier.bind fun _ => .pure _

private theorem parameters_settles (n : Nat) :
    Settles n 1 (.call .parameters) (Parser.commaSeparated Parser.parameter n) :=
  commaSeparated_settles rfl (fun _ => parameter_settles) Parser.failsAtEnd_parameter n

end Lists

/-! ### Statements without blocks -/

section Simple

variable {n : Nat}

/-- Behind the name of a variable there may be nothing to go past. -/
private theorem variableTail_settles (type : Ty) (name : String) (line : Nat) :
    Settles n 0 (variableTail type name line) (Parser.variableTail type name line) := by
  refine (Settles.bumpIf _).bind fun b => ?_
  cases b with
  | true =>
    exact expression_settles.bind fun _ => (Settles.tell _).bind fun _ =>
      (Settles.tell _).bind fun _ => .pure _
  | false => exact (Settles.tell _).bind fun _ => .pure _

/-- What stands behind the name has been looked at before the cursor goes past it. -/
theorem assignOrCall_settles : Settles n 1 assignOrCall Parser.assignOrCall := by
  refine Settles.identifier.bind_left fun target => fun c hin hn => .peek_bind ?_
  cases hhere : c.here? with
  | none => exact Settles.unexpected c hin hn
  | some t =>
    obtain ⟨w, line⟩ := t
    have hbump := SettlesAt.bump hhere
    cases w with
    | assign =>
      have hrest := (expression_settles (n := n)).bind fun value =>
        (Settles.tell (·.assign target.1 target.2)).bind fun _ => .pure (Stmt.assign target.1 value)
      exact (hbump.bind fun _ c₁ hreaches =>
        hrest.at_reaches hreaches (Nat.le_add_right_of_le hn)).mono (Nat.zero_le _)
    | openParen =>
      have hrest := (listInParens_settles (n := n) arguments_settles).bind fun args =>
        (Settles.tell (·.call target.1 args target.2)).bind fun _ => .pure (Stmt.call target.1 args)
      exact (hbump.bind fun _ c₁ hreaches =>
        hrest.at_reaches hreaches (Nat.le_add_right_of_le hn)).mono (Nat.zero_le _)
    | _ => exact Settles.unexpected c hin hn

/-- A simple statement goes past its type or its name at least. -/
private theorem simpleStatement_settles : Settles n 1 simpleStatement Parser.simpleStatement := by
  refine Settles.peekOrFail_bind (fun _ _ => rfl) fun c t hin hn hhere => ?_
  obtain ⟨w, line⟩ := t
  cases w with
  | identifier name => exact assignOrCall_settles c hin hn
  | kwInt | kwFloat =>
    exact (Settles.typeSpecifier.bind_left fun type => Settles.identifier.bind fun target =>
      variableTail_settles type target.1 target.2) c hin hn
  | _ => exact Settles.unexpected c hin hn

private theorem condition_settles : Settles n 1 condition Parser.condition :=
  (Settles.expect _).bind_left fun _ => expression_settles.bind fun _ =>
    (Settles.expect _).bind fun _ => .pure _

private theorem returnStatement_settles : Settles n 1 returnStatement Parser.returnStatement :=
  (Settles.expect _).bind_left fun _ => expression_settles.bind fun _ =>
    (Settles.expect _).bind fun _ => .pure _

end Simple

/-! ### Statements with blocks -/

section Blocks

variable {n : Nat} {p : Parser (List Stmt)}

private theorem functionTail_settles (h : Settles n 1 (.call .block) p) (type : Ty)
    (name : String) :
    Settles n 1 (functionTail type name) (Parser.functionTail p type name) :=
  (Settles.expect _).bind_left fun _ => (listInParens_settles parameters_settles).bind fun _ =>
    (Settles.tell _).bind fun _ => h.bind fun _ => .pure _

private theorem declaration_settles (h : Settles n 1 (.call .block) p) :
    Settles n 1 declaration (Parser.declaration p) := by
  refine Settles.typeSpecifier.bind_left fun type => Settles.identifier.bind fun target =>
    Settles.peek.bind fun o => ?_
  split
  · exact (functionTail_settles h type target.1).weaken
  · exact (variableTail_settles type target.1 target.2).bind fun _ =>
      (Settles.expect _).bind fun _ => .pure _

private theorem ifStatement_settles (h : Settles n 1 (.call .block) p) :
    Settles n 1 ifStatement (Parser.ifStatement p) := by
  refine (Settles.expect _).bind_left fun _ => condition_settles.bind fun _ => h.bind fun _ =>
    (Settles.bumpIf _).bind fun b => ?_
  cases b with
  | true => exact h.bind fun _ => .pure _
  | false => exact .pure _

private theorem whileStatement_settles (h : Settles n 1 (.call .block) p) :
    Settles n 1 whileStatement (Parser.whileStatement p) :=
  (Settles.expect _).bind_left fun _ => condition_settles.bind fun _ => h.bind fun _ => .pure _

private theorem forStatement_settles (h : Settles n 1 (.call .block) p) :
    Settles n 1 forStatement (Parser.forStatement p) :=
  (Settles.expect _).bind_left fun _ => (Settles.expect _).bind fun _ =>
    (Settles.tell _).bind fun _ => simpleStatement_settles.bind fun _ =>
    (Settles.expect _).bind fun _ => expression_settles.bind fun _ =>
    (Settles.expect _).bind fun _ => simpleStatement_settles.bind fun _ =>
    (Settles.expect _).bind fun _ => h.bind fun _ => (Settles.tell _).bind fun _ => .pure _

/-- A statement of every kind settles, if blocks do. -/
private theorem statementOver_settles (h : Settles n 1 (.call .block) p) :
    Settles n 1 (.call .statement) (Parser.statementOver p) := by
  refine Settles.call (Settles.peekOrFail_bind (fun _ _ => rfl) fun c t hin hn hhere => ?_)
  obtain ⟨w, line⟩ := t
  cases w with
  | kwInt | kwFloat => exact declaration_settles h c hin hn
  | identifier name =>
    exact (assignOrCall_settles.bind_left fun _ => (Settles.expect _).bind fun _ => .pure _)
      c hin hn
  | kwReturn => exact returnStatement_settles c hin hn
  | kwIf => exact ifStatement_settles h c hin hn
  | kwWhile => exact whileStatement_settles h c hin hn
  | kwFor => exact forStatement_settles h c hin hn
  | _ => exact Settles.unexpected c hin hn

end Blocks

/-! ### Bodies and programs -/

section Bodies

variable {n : Nat}

/-- A statement fails at the end, where it has no token to look at. -/
private theorem statement_ends_of_end {c : Cursor} (h : c.here? = none) :
    Ends (.call .statement) c (.error ⟨.unexpectedEnd, c.line⟩ c) :=
  .call (.error (ends_run_iff.mpr (Cursor.peekOrFail_of_end h).symm))

/-- A block that is not closed fails at the end, by the statement that would have to follow. -/
theorem untilBrace_settles {p : Parser Stmt} (h : Settles n 1 (.call .statement) p) {k : Nat}
    (hk : k ≤ n) : Settles k 0 (.call .untilBrace) (Parser.untilBrace p k) := by
  induction k with
  | zero =>
    refine Settles.of_failsAtEnd Parser.failsAtEnd_failAtEnd fun c hend => ?_
    have hbumpIf : Cursor.bumpIf .closeBrace c = .ok false c := by
      rw [Cursor.bumpIf_apply, hend]
      rfl
    exact .call (.ok (ends_run_iff.mpr hbumpIf.symm) (.error (statement_ends_of_end hend)))
  | succ k ih =>
    refine Settles.call ((Settles.bumpIf _).bind fun b => ?_)
    cases b with
    | true => exact .pure _
    | false =>
      have hround := (h.of_le hk).bind_succ fun s =>
        (ih (Nat.le_of_succ_le hk)).bind fun rest => .pure (s :: rest)
      exact hround.weaken

/-- A block settles with room for one token more than its statements, which is its brace. -/
private theorem blockOf_settles {p : Parser Stmt} (h : Settles n 1 (.call .statement) p) :
    Settles (n + 1) 1 (.call .block) (Parser.blockOf p) :=
  Settles.call ((Settles.expect _).bind_succ fun _ => (Settles.tell _).bind fun _ =>
    (Settles.bounded fun _ hm => untilBrace_settles h hm).bind fun _ =>
    (Settles.tell _).bind fun _ => .pure _)

/-- **Statements settle**, by induction on the room. -/
private theorem statementWithin_settles (n : Nat) :
    Settles n 1 (.call .statement) (Parser.statementWithin n) := by
  induction n with
  | zero =>
    exact Settles.of_failsAtEnd Parser.failsAtEnd_failAtEnd fun _ => statement_ends_of_end
  | succ n ih => exact statementOver_settles (blockOf_settles ih)

private theorem statement_settles : Settles n 1 (.call .statement) Parser.statement :=
  .bounded fun m _ => statementWithin_settles m

/-- The statements up to the end settle. There may be none. -/
private theorem untilEnd_settles (n : Nat) : Settles n 0 (.call .untilEnd) (Parser.untilEnd n) := by
  induction n with
  | zero =>
    refine Settles.pure_of_end fun c hend => ?_
    have hatEnd : Cursor.atEnd c = .ok true c := by
      rw [Cursor.atEnd_apply, hend]
      rfl
    exact .call (.ok (ends_run_iff.mpr hatEnd.symm) (.run (Pure.pure []) c))
  | succ n ih =>
    refine Settles.call (Settles.atEnd_bind fun o => ?_)
    split
    · exact .pure _
    · have hround := (statement_settles (n := n + 1)).bind_succ fun s =>
        ih.bind fun rest => .pure (s :: rest)
      exact hround.weaken

/-- **The parser without bounds and the running one agree** on every cursor. -/
private theorem program_settles : Settles n 0 program Parser.program :=
  (Settles.bounded fun m _ => untilEnd_settles m).bind fun _ => (Settles.tell _).bind fun _ =>
    .pure _

end Bodies

/-! ### Rounds -/

/-- On its way from a cursor to the head of a loop a run goes past at least `k` tokens. -/
def EntersAfter (k : Nat) (loop : Loop) (u : Unbounded α) (c : Cursor) : Prop :=
  ∀ c', Enters loop u c c' → c.Reaches k c'

namespace EntersAfter

variable {k : Nat} {loop : Loop} {u : Unbounded α} {p : Parser α} {v : α → Unbounded β} {c : Cursor}

/-- Without calls there is no loop to come to. -/
private theorem run (q : CursorParser α) : EntersAfter k loop (.run q) c := fun _ h =>
  absurd h not_enters_run

/-- A call may be at the head of a loop at once. -/
private theorem call (hin : c.Within) (procedure : Procedure α) :
    EntersAfter 0 loop (.call procedure) c := by
  intro c' h
  obtain ⟨-, rfl⟩ := enters_call.mp h
  exact .refl hin _

/-- A procedure that is no loop is not at the head of one. -/
theorem call_of_none {procedure : Procedure α} (hnone : loop? procedure = none) :
    EntersAfter k loop (.call procedure) c := by
  intro c' h
  have hsome := (enters_call.mp h).1
  simp [hnone] at hsome

/-- The loop lies behind what comes first and goes past at least `j` tokens. -/
theorem bind_of {i j : Nat} (hu : EntersAfter k loop u c) (h : SettlesAt c j u p)
    (hv : ∀ a c₁, c.Reaches j c₁ → EntersAfter i loop (v a) c₁) (hk : k ≤ j + i) :
    EntersAfter k loop (u >>= v) c := by
  intro c' hc'
  obtain hc' | ⟨a, c₁, hends, hc'⟩ := enters_bind.mp hc'
  · exact hu c' hc'
  · cases h with
    | ok hends' hrun hreaches =>
      cases hends'.unique hends
      exact (hreaches.trans (hv a c₁ hreaches c' hc')).mono hk
    | error hends' hrun hreaches => cases hends'.unique hends

/-- A sequence comes to the loop late, if both of its parts do. -/
private theorem bind {j : Nat} (hu : EntersAfter k loop u c) (h : SettlesAt c j u p)
    (hv : ∀ a c₁, c.Reaches j c₁ → EntersAfter k loop (v a) c₁) :
    EntersAfter k loop (u >>= v) c :=
  hu.bind_of h hv (Nat.le_add_left k j)

/-- What a first part goes past counts for the second one. -/
private theorem bind_left (hu : EntersAfter k loop u c) (h : SettlesAt c k u p)
    (hv : ∀ a c₁, c.Reaches k c₁ → EntersAfter 0 loop (v a) c₁) :
    EntersAfter k loop (u >>= v) c :=
  hu.bind_of h hv (Nat.le_refl k)

/-- Looking at a token goes past none, but decides how to go on. -/
private theorem peek_bind {v : Option Token → Unbounded β}
    (h : EntersAfter k loop (v (c.here?.map (·.token))) c) :
    EntersAfter k loop ((Cursor.peek : Unbounded _) >>= v) c := by
  intro c' hc'
  obtain hc' | ⟨o, c₁, hends, hc'⟩ := enters_bind.mp hc'
  · exact absurd hc' not_enters_run
  · cases ends_run_iff.mp hends
    exact h c' hc'

/-- So does the question whether the end has been reached. -/
private theorem atEnd_bind {v : Bool → Unbounded β} (h : ∀ b, EntersAfter k loop (v b) c) :
    EntersAfter k loop ((Cursor.atEnd : Unbounded _) >>= v) c := by
  intro c' hc'
  obtain hc' | ⟨b, c₁, hends, hc'⟩ := enters_bind.mp hc'
  · exact absurd hc' not_enters_run
  · cases ends_run_iff.mp hends
    exact h _ c' hc'

/-- The loop does not lie behind what comes first. -/
theorem bind_run (hu : EntersAfter k loop u c) (f : α → CursorParser β) :
    EntersAfter k loop (u >>= fun a => .run (f a)) c := by
  intro c' hc'
  obtain hc' | ⟨a, c₁, -, hc'⟩ := enters_bind.mp hc'
  · exact hu c' hc'
  · exact absurd hc' not_enters_run

end EntersAfter

section Rounds

variable {loop : Loop} {c : Cursor}

/-- A round of the loop over operators goes past at least one token. -/
private theorem operators_round (least : Nat) (lhs : Expr) :
    EntersAfter 1 (.operators least) (body (.operators least lhs)) c := by
  refine .peek_bind ?_
  cases hop : (c.here?.map (·.token)).bind Token.operator? with
  | none => exact .run _
  | some op =>
    dsimp only
    split
    · exact .run _
    · obtain ⟨t, hhere, htoken⟩ := exists_here?_of_operator hop
      have hoperation : EntersAfter 1 (.operators least) (operation op.precedence lhs) c :=
        (EntersAfter.run _).bind_left (.take_of_some hhere htoken .unexpected) fun _ _ _ =>
          (EntersAfter.call_of_none rfl).bind_run _
      have hsettles := operation_settlesAt (fun m => level_settles (n := c.left) m)
        (Nat.le_succ c.left) hop op.precedence lhs
      exact hoperation.bind_left hsettles fun _ c₁ hreaches => .call hreaches.within _

/-- The items of a list are read outside of the loop over them. -/
theorem commaSeparated_round (hin : c.Within) {item : Unbounded α} {p : Parser α}
    (items : Procedure (List α)) (hitem : ∀ n, Settles n 1 item p)
    (hout : EntersAfter 1 loop item c) :
    EntersAfter 1 loop (commaSeparated item (.call items)) c := by
  have helement : EntersAfter 1 loop (element item) c :=
    hout.bind_left (hitem c.left c hin (Nat.le_refl _)) fun _ _ _ => (EntersAfter.run _).bind_run _
  have hsettles := element_settles (hitem c.left) c hin (Nat.le_refl _)
  refine helement.bind_left hsettles fun first c₁ hreaches => ?_
  split
  · exact (EntersAfter.call hreaches.within items).bind_run _
  · exact .run _

/-- Statements are read outside of the loops over them. -/
theorem statements_round (hin : c.Within) (items : Procedure (List Stmt)) :
    EntersAfter 1 loop (do
      let s ← Unbounded.call .statement
      let rest ← Unbounded.call items
      Pure.pure (s :: rest)) c :=
  (EntersAfter.call_of_none rfl).bind_left (statement_settles c hin (Nat.le_refl _))
    fun _ _ hreaches => (EntersAfter.call hreaches.within items).bind_run _

/-- **Every round of a loop** goes past a token, and stays within the tokens. -/
theorem round_reaches {procedure : Procedure α} (h : loop? procedure = some loop)
    (hin : c.Within) : EntersAfter 1 loop (body procedure) c := by
  cases procedure with
  | operators least lhs =>
    cases h
    exact operators_round least lhs
  | arguments =>
    cases h
    exact commaSeparated_round hin _ (fun _ => expression_settles) (.call_of_none rfl)
  | parameters =>
    cases h
    exact commaSeparated_round hin _ (fun _ => parameter_settles)
      ((EntersAfter.run _).bind_left (Settles.typeSpecifier c hin (Nat.le_refl _)) fun _ _ _ =>
        (EntersAfter.run _).bind_run _)
  | untilBrace =>
    cases h
    refine (EntersAfter.run _).bind (Settles.bumpIf .closeBrace c hin (Nat.le_refl _))
      fun b c₁ hreaches => ?_
    cases b with
    | true => exact .run _
    | false => exact statements_round hreaches.within _
  | untilEnd =>
    cases h
    refine .atEnd_bind fun b => ?_
    split
    · exact .run _
    · exact statements_round hin _
  | _ => cases h

end Rounds

/-! ### Progress -/

section Outcomes

variable {c : Cursor} {k : Nat} {u : Unbounded α} {p : Parser α} {s' : ParseState}

/-- The bounded parser tells how the run ends and at which position. -/
theorem SettlesAt.ends_of_ok (h : SettlesAt c k u p) {a : α} (hrun : p c.view = .ok a s') :
    Ends u c (.ok a ⟨c.tokens, c.tokens.length - s'.unread.length, s'.checker⟩) := by
  cases h with
  | ok hends hrun' hreaches =>
    cases hrun'.symm.trans hrun
    rwa [hreaches.eq_of_view] at hends
  | error hends hrun' hreaches => cases hrun'.symm.trans hrun

/-- Where the running parser fails, the one without bounds does, at the position that is given by
what is left. -/
private theorem SettlesAt.ends_of_error (h : SettlesAt c k u p) {e : ParseError}
    (hrun : p c.view = .error e s') :
    Ends u c (.error e ⟨c.tokens, c.tokens.length - s'.unread.length, s'.checker⟩) := by
  cases h with
  | ok hends hrun' hreaches => cases hrun'.symm.trans hrun
  | error hends hrun' hreaches =>
    cases hrun'.symm.trans hrun
    rwa [hreaches.eq_of_view] at hends

end Outcomes

section Programs

variable {tokens : List Located} {checker checker' : Checker}

/-- The two parsers agree from the beginning of the tokens on. -/
private theorem program_settles_start (tokens : List Located) (checker : Checker) :
    SettlesAt ⟨tokens, 0, checker⟩ 0 program Parser.program :=
  program_settles ⟨tokens, 0, checker⟩ (Nat.zero_le _) (Nat.le_refl _)

/-- Behind a whole program nothing is left. -/
theorem unread_of_program {s s' : ParseState} {p : Program} (h : Parser.program s = .ok p s') :
    s'.unread = [] := by
  obtain ⟨body, s₁, hbody, hrest⟩ := bind_eq_ok.mp h
  obtain ⟨-, hnil⟩ := Parser.untilEnd_sound (Nat.le_refl _) hbody
  obtain ⟨-, rfl⟩ : _ ∧ { s₁ with checker := s₁.checker.note (.parsed body.length) } = s' := by
    simpa using hrest
  exact hnil

/-- A program that is parsed has been read to the end of its tokens. -/
theorem ends_program_of_parse_ok {p : Program} (h : parse tokens checker = (.ok p, checker')) :
    Ends program ⟨tokens, 0, checker⟩ (.ok p ⟨tokens, tokens.length, checker'⟩) := by
  unfold parse at h
  cases hrun : Parser.program ⟨tokens, 1, checker⟩ with
  | error e s' => simp [hrun] at h
  | ok p' s' =>
    obtain ⟨rfl, rfl⟩ : p' = p ∧ s'.checker = checker' := by simpa [hrun] using h
    have hends := (program_settles_start tokens checker).ends_of_ok hrun
    rwa [unread_of_program hrun] at hends

/-- A parse that fails is a run without bounds that fails within the tokens. -/
private theorem ends_program_of_parse_error {e : ParseError}
    (h : parse tokens checker = (.error e, checker')) :
    ∃ position ≤ tokens.length,
      Ends program ⟨tokens, 0, checker⟩ (.error e ⟨tokens, position, checker'⟩) := by
  unfold parse at h
  cases hrun : Parser.program ⟨tokens, 1, checker⟩ with
  | ok p s' => simp [hrun] at h
  | error e' s' =>
    obtain ⟨rfl, rfl⟩ : e' = e ∧ s'.checker = checker' := by simpa [hrun] using h
    exact ⟨_, Nat.sub_le _ _, (program_settles_start tokens checker).ends_of_error hrun⟩

end Programs

/-- **The parser terminates, and every success is progress.** From every position of every list of
tokens, and whatever the checker has heard before, the parsers for expressions of every level,
operands, simple statements, blocks and statements come to an end without any bound, and so do those
for the arguments of a call and the parameters of a function. They end as the parsers with bounds
do. Although nothing in a step keeps it there, the position never goes back nor past the end of the
tokens, on success and on failure, and a success moves it forward. Every round of a loop moves it
forward. The parser for programs comes to an end too, and if a program is parsed the position is the
one behind the last token. -/
theorem parser_terminates_and_advances (c : Cursor) (hposition : c.position ≤ c.tokens.length) :
    (∀ least, SettlesAt c 1 (.call (.expression least)) (Parser.level least)) ∧
      SettlesAt c 1 (.call .operand) (Parser.operand Parser.expression) ∧
      SettlesAt c 1 simpleStatement Parser.simpleStatement ∧
      SettlesAt c 1 (.call .block) (Parser.blockOf Parser.statement) ∧
      SettlesAt c 1 (.call .statement) Parser.statement ∧
      SettlesAt c 1 (.call .arguments)
        (Parser.bounded (Parser.commaSeparated Parser.expression)) ∧
      SettlesAt c 1 (.call .parameters)
        (Parser.bounded (Parser.commaSeparated Parser.parameter)) ∧
      (∀ (α : Type) (procedure : Procedure α) loop c', loop? procedure = some loop →
        Enters loop (body procedure) c c' → c.Reaches 1 c') ∧
      (∀ p checker', parse c.tokens c.checker = (.ok p, checker') →
        Ends program ⟨c.tokens, 0, c.checker⟩ (.ok p ⟨c.tokens, c.tokens.length, checker'⟩)) ∧
      ∀ e checker', parse c.tokens c.checker = (.error e, checker') →
        ∃ position ≤ c.tokens.length,
          Ends program ⟨c.tokens, 0, c.checker⟩ (.error e ⟨c.tokens, position, checker'⟩) := by
  have hleft := Nat.le_refl c.left
  have hleft' := Nat.le_succ c.left
  refine ⟨fun least => ?_, ?_, ?_, ?_, ?_, ?_, ?_, ?_, ?_, ?_⟩
  · exact level_settles least c hposition hleft
  · exact operand_settles expression_settles c hposition hleft'
  · exact simpleStatement_settles c hposition hleft
  · exact blockOf_settles statement_settles c hposition hleft'
  · exact statement_settles c hposition hleft
  · exact Settles.bounded (fun m _ => arguments_settles m) c hposition hleft
  · exact Settles.bounded (fun m _ => parameters_settles m) c hposition hleft
  · intro α procedure loop c' hloop hround
    exact round_reaches hloop hposition c' hround
  · intro p checker' h
    exact ends_program_of_parse_ok h
  · intro e checker' h
    exact ends_program_of_parse_error h

/-- The tokens of `if (x) { x = 1; }`. -/
def guardedAssignment : List Located :=
  [⟨.kwIf, 1⟩, ⟨.openParen, 1⟩, ⟨.identifier "x", 1⟩, ⟨.closeParen, 1⟩, ⟨.openBrace, 1⟩,
    ⟨.identifier "x", 2⟩, ⟨.assign, 2⟩, ⟨.intLit 1, 2⟩, ⟨.semicolon, 2⟩, ⟨.closeBrace, 3⟩]

/-- From its opening brace the block is read to the end, and so is the program. Behind the brace the
first round of the loop over the statements leads to the closing one. Without that the block comes
to an end as well, with a failure at the end of the tokens. An operand fails at the closing
parenthesis and does not go past it. -/
theorem guardedAssignment_read_to_end :
    4 ≤ guardedAssignment.length ∧
      (∃ statements checker', Ends (.call .block) ⟨guardedAssignment, 4, {}⟩
        (.ok statements ⟨guardedAssignment, 10, checker'⟩)) ∧
      (∃ c', Enters .untilBrace (body .untilBrace) ⟨guardedAssignment, 5, {}⟩ c' ∧
        c'.position = 9 ∧ Reaches ⟨guardedAssignment, 5, {}⟩ 1 c') ∧
      (∃ p checker', parse guardedAssignment {} = (.ok p, checker') ∧
        Ends program ⟨guardedAssignment, 0, {}⟩ (.ok p ⟨guardedAssignment, 10, checker'⟩)) ∧
      (∃ checker', Ends (.call .block) ⟨guardedAssignment.take 9, 4, {}⟩
        (.error ⟨.unexpectedEnd, 2⟩ ⟨guardedAssignment.take 9, 9, checker'⟩)) ∧
      Ends (.call .operand) ⟨guardedAssignment, 3, {}⟩
        (.error ⟨.expectedExpression .closeParen, 1⟩ ⟨guardedAssignment, 3, {}⟩) := by
  have hlength : 4 ≤ guardedAssignment.length := by decide
  obtain ⟨-, -, -, hblock, -, -, -, -, hparse, -⟩ :=
    parser_terminates_and_advances ⟨guardedAssignment, 4, {}⟩ hlength
  obtain ⟨-, -, -, -, hstatement, -, -, hround, -⟩ :=
    parser_terminates_and_advances ⟨guardedAssignment, 5, {}⟩ (by decide)
  obtain ⟨-, -, -, hopen, -⟩ :=
    parser_terminates_and_advances ⟨guardedAssignment.take 9, 4, {}⟩ (by decide)
  obtain ⟨-, hoperand, -⟩ :=
    parser_terminates_and_advances ⟨guardedAssignment, 3, {}⟩ (by decide)
  have henters : Enters .untilBrace (body .untilBrace) ⟨guardedAssignment, 5, {}⟩ _ :=
    .second (.run (Cursor.bumpIf .closeBrace) _)
      (.second (hstatement.ends_of_ok rfl) (.first (.call rfl)))
  exact ⟨hlength, ⟨_, _, hblock.ends_of_ok rfl⟩, ⟨_, henters, rfl, hround _ _ _ _ rfl henters⟩,
    ⟨_, _, rfl, hparse _ _ rfl⟩, ⟨_, hopen.ends_of_error rfl⟩, hoperand.ends_of_error rfl⟩

end Unbounded

end TinyImp
