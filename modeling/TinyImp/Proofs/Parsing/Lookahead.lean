import TinyImp.Proofs.Checking.Resolve
import TinyImp.Proofs.Parsing.Grammar
import TinyImp.Proofs.Parsing.SingleToken

/-!
# One token of lookahead

What a run of the parser does depends on the kinds of the tokens that it reads and, if it succeeds,
on the kind of the one behind them. The tokens after that, the lines of the tokens and all that the
checker knows have no part in it: a second run on tokens of the same kinds **repeats** the first
(`Parser.Repeats`). A run that succeeds is repeated with a value that has the same *view*, which for
trees is the tree without its types; a run that fails at a token is repeated with the same cause,
whatever follows that token; a run that fails at the end is repeated at the end.

The two runs have bounds of their own, since a bound is the number of tokens left. Neither of them
is ever reached in another way than by the end of the text.
-/

namespace TinyImp

open Grammar (words)

/-- What is left behind tokens of the same kinds leaves the same room. -/
theorem ParseState.Reads.length_le_of_words {s s' : ParseState} {ts us us' : List Located}
    {n m : Nat} (h : s.Reads (us ++ us') s') (hw : words us = words ts)
    (hn : s.unread.length ≤ n) (hm : n ≤ m + ts.length) : (us' ++ s'.unread).length ≤ m := by
  have hlen : us.length = ts.length := by simpa using congrArg List.length hw
  have hall := h.length_eq
  rw [List.length_append] at hall ⊢
  omega

/-- The first token has the same kind if the tokens up to it have. -/
theorem next?_append_congr {ts us rest rest' : List Located} (h : words us = words ts)
    (hrest : ts = [] → next? rest' = next? rest) : next? (us ++ rest') = next? (ts ++ rest) := by
  cases ts with
  | nil =>
    obtain rfl : us = [] := List.map_eq_nil_iff.mp h
    exact hrest rfl
  | cons t ts =>
    obtain ⟨u, us, rfl, hu, -⟩ := List.map_eq_cons_iff.mp h
    simp [hu]

namespace Parser

variable {α β γ δ : Type} {n n' : Nat}

/-- On tokens of the same kinds, `p'` does what `p` does on at most `n` tokens, as far as the view
of the values shows. The second run is one on at most `n'` tokens. -/
structure Repeats (n n' : Nat) (view : α → γ) (p p' : Parser α) : Prop where
  /-- A success is repeated if the token behind is of the same kind. -/
  ok {s s₁ : ParseState} {a : α} (hn : s.unread.length ≤ n) (h : p s = .ok a s₁) :
    ∃ ts, s.Reads ts s₁ ∧ ∀ {s' s₁' us}, s'.Reads us s₁' → words us = words ts →
      next? s₁'.unread = next? s₁.unread → s'.unread.length ≤ n' →
      ∃ a' c', p' s' = .ok a' { s₁' with checker := c' } ∧ view a' = view a
  /-- A failure is repeated whatever is behind, but the end has to be an end again. -/
  error {s s₁ : ParseState} {e : ParseError} (hn : s.unread.length ≤ n) (h : p s = .error e s₁) :
    ∃ ts, s.Reads ts (s₁.past e.cause) ∧ e.line = (s₁.past e.cause).lastLine ∧
      (e.cause = .unexpectedEnd → (s₁.past e.cause).unread = []) ∧
      (ts = [] → e.cause = .unexpectedEnd) ∧
      ∀ {s' s₁' us}, s'.Reads us s₁' → words us = words ts →
        (e.cause = .unexpectedEnd → s₁'.unread = []) → s'.unread.length ≤ n' →
        ∃ s₂', p' s' = .error ⟨e.cause, s₁'.lastLine⟩ s₂'

/-! ### Rules -/

namespace Repeats

variable {view : α → γ} {view' : β → δ} {p p' : Parser α}

/-- A smaller bound is a special case. -/
theorem mono {m m' : Nat} (h : Repeats n n' view p p') (hm : m ≤ n) (hm' : m' ≤ n') :
    Repeats m m' view p p' where
  ok hn hrun := by
    obtain ⟨ts, hts, hrep⟩ := h.ok (Nat.le_trans hn hm) hrun
    exact ⟨ts, hts, fun hus hw hnext hlen => hrep hus hw hnext (Nat.le_trans hlen hm')⟩
  error hn hrun := by
    obtain ⟨ts, hts, hline, hend, hread, hrep⟩ := h.error (Nat.le_trans hn hm) hrun
    exact ⟨ts, hts, hline, hend, hread,
      fun hus hw hend hlen => hrep hus hw hend (Nat.le_trans hlen hm')⟩

private theorem pure {a a' : α} (h : view a' = view a) :
    Repeats n n' view (Pure.pure a) (Pure.pure a') where
  ok {s s₁ b} _ hrun := by
    obtain ⟨rfl, rfl⟩ := pure_eq_ok.mp hrun
    refine ⟨[], .refl s, fun {s' s₁' us} hus hw _ _ => ⟨a', s'.checker, ?_, h⟩⟩
    obtain rfl : us = [] := List.map_eq_nil_iff.mp hw
    rw [pure_apply, ← hus.eq_of_nil]
  error _ hrun := by cases hrun

/-- **Sequences.** The second parser has as much room as the first one leaves. -/
theorem bind_of {m m' : Nat} {f f' : α → Parser β} (h : Repeats n n' view p p')
    (hf : ∀ {a a'}, view a' = view a → Repeats m m' view' (f a) (f' a'))
    (hroom : ∀ {s s₁ a ts}, s.unread.length ≤ n → p s = .ok a s₁ → s.Reads ts s₁ →
      n ≤ m + ts.length ∧ n' ≤ m' + ts.length) :
    Repeats n n' view' (p >>= f) (p' >>= f') where
  ok {s s₂ b} hn hrun := by
    obtain ⟨a, s₁, hp, hfa⟩ := bind_eq_ok.mp hrun
    obtain ⟨ts, hts, hrep⟩ := h.ok hn hp
    obtain ⟨hm, hm'⟩ := hroom hn hp hts
    have hlen : s₁.unread.length ≤ m := by
      have := hts.length_eq
      omega
    obtain ⟨ts', hts', -⟩ := (hf (a := a) rfl).ok hlen hfa
    refine ⟨ts ++ ts', hts.trans hts', fun {s' s₂' us} hus hw hnext hlen' => ?_⟩
    obtain ⟨us, us', rfl, hw₁, hw₂⟩ := List.map_eq_append_iff.mp (hw.trans List.map_append)
    have hmid : next? (us' ++ s₂'.unread) = next? s₁.unread := by
      rw [hts'.unread_eq]
      exact next?_append_congr hw₂ fun _ => hnext
    obtain ⟨a', c₁, hp', ha⟩ := hrep (hus.split s'.checker).1 hw₁ hmid hlen'
    obtain ⟨ts₂, hts₂, hrep'⟩ := (hf ha).ok hlen hfa
    obtain rfl := hts'.unique hts₂
    have hlen₂ := hus.length_le_of_words hw₁ hlen' hm'
    obtain ⟨b', c₂, hfa', hb⟩ := hrep' (hus.split c₁).2 hw₂ hnext hlen₂
    exact ⟨b', c₂, bind_eq_ok.mpr ⟨a', _, hp', hfa'⟩, hb⟩
  error {s s₂ e} hn hrun := by
    obtain hp | ⟨a, s₁, hp, hfa⟩ := bind_eq_error.mp hrun
    · obtain ⟨ts, hts, hline, hend, hread, hrep⟩ := h.error hn hp
      refine ⟨ts, hts, hline, hend, hread, fun hus hw hend' hlen' => ?_⟩
      obtain ⟨c', hp'⟩ := hrep hus hw hend' hlen'
      exact ⟨c', bind_eq_error.mpr (.inl hp')⟩
    · obtain ⟨ts, hts, hrep⟩ := h.ok hn hp
      obtain ⟨hm, hm'⟩ := hroom hn hp hts
      have hlen : s₁.unread.length ≤ m := by
        have := hts.length_eq
        omega
      obtain ⟨ts', hts', hline, hend, hread, -⟩ := (hf (a := a) rfl).error hlen hfa
      refine ⟨ts ++ ts', hts.trans hts', hline, hend,
        fun hnil => hread (List.append_eq_nil_iff.mp hnil).2,
        fun {s' s₂' us} hus hw hend' hlen' => ?_⟩
      obtain ⟨us, us', rfl, hw₁, hw₂⟩ := List.map_eq_append_iff.mp (hw.trans List.map_append)
      -- where the second parser fails without reading, both texts end
      have hmid : next? (us' ++ s₂'.unread) = next? s₁.unread := by
        rw [hts'.unread_eq]
        refine next?_append_congr hw₂ fun hnil => ?_
        rw [hend (hread hnil), hend' (hread hnil)]
      obtain ⟨a', c₁, hp', ha⟩ := hrep (hus.split s'.checker).1 hw₁ hmid hlen'
      obtain ⟨ts₂, hts₂, -, -, -, hrep'⟩ := (hf ha).error hlen hfa
      obtain rfl := hts'.unique hts₂
      have hlen₂ := hus.length_le_of_words hw₁ hlen' hm'
      obtain ⟨c₂, hfa'⟩ := hrep' (hus.split c₁).2 hw₂ hend' hlen₂
      exact ⟨c₂, bind_eq_error.mpr (.inr ⟨a', _, hp', hfa'⟩)⟩

/-- **Sequences are repeated** if their parts are. -/
private theorem bind {f f' : α → Parser β} (h : Repeats n n' view p p')
    (hf : ∀ {a a'}, view a' = view a → Repeats n n' view' (f a) (f' a')) :
    Repeats n n' view' (p >>= f) (p' >>= f') :=
  h.bind_of hf fun _ _ _ => ⟨Nat.le_add_right _ _, Nat.le_add_right _ _⟩

/-- Behind a parser that reads something the bounds are smaller by one. -/
theorem bind_succ {f f' : α → Parser β} (h : Repeats (n + 1) (n' + 1) view p p')
    (hpos : ∀ {s s₁ a}, s.unread.length ≤ n + 1 → p s = .ok a s₁ →
      s₁.unread.length < s.unread.length)
    (hf : ∀ {a a'}, view a' = view a → Repeats n n' view' (f a) (f' a')) :
    Repeats (n + 1) (n' + 1) view' (p >>= f) (p' >>= f') := by
  refine h.bind_of hf fun hn hrun hts => ?_
  have hlt := hpos hn hrun
  have hlen := hts.length_eq
  omega

/-- Behind a value that is the same in both runs. -/
theorem bind_id {f f' : α → Parser β} (h : Repeats n n' id p p')
    (hf : ∀ a, Repeats n n' view' (f a) (f' a)) : Repeats n n' view' (p >>= f) (p' >>= f') := by
  refine h.bind fun {a a'} ha => ?_
  obtain rfl : a' = a := ha
  exact hf a'

/-- Behind a value that is the same in both runs, on a line that need not be. -/
theorem bind_fst {p p' : Parser (α × Nat)} {f f' : α × Nat → Parser β}
    (h : Repeats n n' Prod.fst p p')
    (hf : ∀ a line line', Repeats n n' view' (f (a, line)) (f' (a, line'))) :
    Repeats n n' view' (p >>= f) (p' >>= f') := by
  refine h.bind ?_
  rintro ⟨a, line⟩ ⟨a', line'⟩ ha
  obtain rfl : a' = a := ha
  exact hf a' line line'

/-- Two runs on the empty text. -/
theorem of_failsAtEnd (h : FailsAtEnd p) (h' : FailsAtEnd p') : Repeats 0 n' view p p' where
  ok {s s₁ a} hn hrun := by
    obtain ⟨unread, last, c⟩ := s
    obtain rfl : unread = [] := List.length_eq_zero_iff.mp (Nat.le_zero.mp hn)
    rw [h last c] at hrun
    cases hrun
  error {s s₁ e} hn hrun := by
    obtain ⟨unread, last, c⟩ := s
    obtain rfl : unread = [] := List.length_eq_zero_iff.mp (Nat.le_zero.mp hn)
    rw [h last c] at hrun
    cases hrun
    refine ⟨[], .refl _, rfl, fun _ => rfl, fun _ => rfl, fun {s' s₁' us} hus hw hend _ => ?_⟩
    obtain rfl : us = [] := List.map_eq_nil_iff.mp hw
    refine ⟨⟨[], s₁'.lastLine, s'.checker⟩, ?_⟩
    rw [hus.eq_of_nil, hend rfl, h']

/-- A loop that ends with the text, and one that has met its bound there. -/
theorem pure_of_end {a a' : α} (h : view a' = view a)
    (hp' : ∀ last c, p' ⟨[], last, c⟩ = .ok a' ⟨[], last, c⟩) :
    Repeats 0 n' view (Pure.pure a) p' where
  ok {s s₁ b} hn hrun := by
    obtain ⟨rfl, rfl⟩ := pure_eq_ok.mp hrun
    obtain ⟨unread, last, c⟩ := s
    obtain rfl : unread = [] := List.length_eq_zero_iff.mp (Nat.le_zero.mp hn)
    refine ⟨[], .refl _, fun {s' s₁' us} hus hw hnext _ => ⟨a', s'.checker, ?_, h⟩⟩
    obtain rfl : us = [] := List.map_eq_nil_iff.mp hw
    rw [hus.eq_of_nil, next?_eq_none.mp hnext, hp']
  error _ hrun := by cases hrun

/-- Where the second text is empty, only what the second parser does at the end counts. -/
theorem zero_right {q : Parser α} (h : Repeats n (n' + 1) view p q)
    (hq : ∀ last c, p' ⟨[], last, c⟩ = q ⟨[], last, c⟩) : Repeats n 0 view p p' := by
  have hrun : ∀ s, s.unread.length ≤ 0 → p' s = q s := by
    rintro ⟨unread, last, c⟩ hn
    obtain rfl : unread = [] := List.length_eq_zero_iff.mp (Nat.le_zero.mp hn)
    exact hq last c
  constructor
  · intro s s₁ a hn hp
    obtain ⟨ts, hts, hrep⟩ := h.ok hn hp
    refine ⟨ts, hts, fun hus hw hnext hlen => ?_⟩
    rw [hrun _ hlen]
    exact hrep hus hw hnext (Nat.le_trans hlen (Nat.zero_le _))
  · intro s s₁ e hn hp
    obtain ⟨ts, hts, hline, hend, hread, hrep⟩ := h.error hn hp
    refine ⟨ts, hts, hline, hend, hread, fun hus hw hend' hlen => ?_⟩
    rw [hrun _ hlen]
    exact hrep hus hw hend' (Nat.le_trans hlen (Nat.zero_le _))

/-- The number of tokens left plays no part. -/
theorem bounded {p p' : Nat → Parser α}
    (h : ∀ {k k'}, k ≤ n → k' ≤ n' → Repeats k k' view (p k) (p' k')) :
    Repeats n n' view (bounded p) (Parser.bounded p') where
  ok {s s₁ a} hn hrun := by
    obtain ⟨ts, hts, -⟩ := (h hn (Nat.zero_le n')).ok (Nat.le_refl _) hrun
    refine ⟨ts, hts, fun hus hw hnext hn' => ?_⟩
    obtain ⟨ts', hts', hrep⟩ := (h hn hn').ok (Nat.le_refl _) hrun
    obtain rfl := hts.unique hts'
    exact hrep hus hw hnext (Nat.le_refl _)
  error {s s₁ e} hn hrun := by
    obtain ⟨ts, hts, hline, hend, hread, -⟩ :=
      (h hn (Nat.zero_le n')).error (Nat.le_refl _) hrun
    refine ⟨ts, hts, hline, hend, hread, fun hus hw hend' hn' => ?_⟩
    obtain ⟨ts', hts', -, -, -, hrep⟩ := (h hn hn').error (Nat.le_refl _) hrun
    obtain rfl := hts.unique hts'
    exact hrep hus hw hend' (Nat.le_refl _)

/-! ### Single tokens and the checker -/

/-- A token of the same kind stands for the same. -/
private theorem take {read : Token → Option α} {cause : Token → ParseError.Cause}
    (hcause : ∀ w, cause w ≠ .unexpectedEnd) :
    Repeats n n' Prod.fst (take read cause) (Parser.take read cause) where
  ok {s s₁ x} _ hrun := by
    obtain ⟨a, line⟩ := x
    obtain ⟨w, hread, hts⟩ := take_eq_ok hrun
    refine ⟨_, hts, fun {s' s₁' us} hus hw _ _ => ?_⟩
    obtain ⟨⟨w, line'⟩, rfl, rfl⟩ := List.map_eq_singleton_iff.mp hw
    refine ⟨(a, line'), s'.checker, ?_, rfl⟩
    rw [hus.eq_of_singleton, take_cons_of_some _ _ hread, hus.lastLine_eq]
    rfl
  error {s s₁ e} _ hrun := by
    obtain ⟨hnil, rfl, rfl⟩ | ⟨⟨w, line⟩, hread, hts, rfl⟩ := take_eq_error hrun
    · refine ⟨[], .refl _, rfl, fun _ => hnil, fun _ => rfl, fun {s' s₁' us} hus hw hend _ => ?_⟩
      obtain rfl : us = [] := List.map_eq_nil_iff.mp hw
      refine ⟨⟨[], s₁'.lastLine, s'.checker⟩, ?_⟩
      rw [hus.eq_of_nil, hend rfl, take_nil]
    · refine ⟨_, hts, hts.lastLine_eq.symm, fun h => absurd h (hcause _), by simp,
        fun {s' s₁' us} hus hw _ _ => ?_⟩
      obtain ⟨⟨w, line'⟩, rfl, rfl⟩ := List.map_eq_singleton_iff.mp hw
      have hread : read (Located.mk w line').token = none := hread
      rw [hus.eq_of_singleton, take_cons_of_none _ _ hread, hus.lastLine_eq]
      exact ⟨_, rfl⟩

private theorem next : Repeats n n' Located.token next Parser.next := by
  rw [next_eq_take]
  exact (take (by simp)).bind fun h => pure h

private theorem expect (wanted : Token) :
    Repeats n n' id (expect wanted) (Parser.expect wanted) := by
  rw [expect_eq_take]
  exact (take (by simp)).bind fun _ => pure rfl

private theorem identifier : Repeats n n' Prod.fst identifier Parser.identifier := by
  rw [identifier_eq_take]
  exact (take (by simp)).bind fun h => pure h

private theorem typeSpecifier : Repeats n n' id typeSpecifier Parser.typeSpecifier := by
  rw [typeSpecifier_eq_take]
  exact (take (by simp)).bind fun h => pure h

/-- The failure is repeated at a token of the same kind. -/
private theorem unexpected : Repeats n n' view unexpected Parser.unexpected := by
  rw [unexpected_eq_take]
  exact (take (by simp)).bind fun {x} _ => x.1.elim

private theorem peek : Repeats n n' id peek Parser.peek where
  ok {s s₁ o} _ hrun := by
    obtain ⟨rfl, rfl⟩ : next? s.unread = o ∧ s = s₁ := by simpa using hrun
    refine ⟨[], .refl s, fun {s' s₁' us} hus hw hnext _ => ?_⟩
    obtain rfl : us = [] := List.map_eq_nil_iff.mp hw
    refine ⟨next? s.unread, s'.checker, ?_, rfl⟩
    rw [hus.eq_of_nil, peek_apply, ← hnext]
  error _ hrun := by cases hrun

private theorem skipIf (wanted : Token) :
    Repeats n n' id (skipIf wanted) (Parser.skipIf wanted) where
  ok {s s₁ b} _ hrun := by
    obtain ⟨rfl, line, hts, -⟩ | ⟨rfl, rfl, hne⟩ := skipIf_eq_ok hrun
    · refine ⟨_, hts, fun {s' s₁' us} hus hw _ _ => ?_⟩
      obtain ⟨⟨w, line'⟩, rfl, rfl⟩ := List.map_eq_singleton_iff.mp hw
      refine ⟨true, s'.checker, ?_, rfl⟩
      rw [hus.eq_of_singleton, skipIf_cons, hus.lastLine_eq]
      rfl
    · refine ⟨[], .refl _, fun {s' s₁' us} hus hw hnext _ => ?_⟩
      obtain rfl : us = [] := List.map_eq_nil_iff.mp hw
      refine ⟨false, s'.checker, ?_, rfl⟩
      rw [hus.eq_of_nil]
      exact skipIf_of_ne _ _ _ _ (hnext ▸ hne)
  error {s s₁ e} _ hrun := by
    obtain ⟨unread, last, c⟩ := s
    cases unread with
    | nil => cases hrun
    | cons t rest =>
      by_cases h : t.token = wanted
      · simp [Parser.skipIf, h] at hrun
      · simp [Parser.skipIf, h] at hrun

/-- Whatever the checker answers, it leaves the tokens alone. -/
theorem ask (f f' : Checker → α × Checker) (view : α → γ)
    (h : ∀ c c', view (f' c').1 = view (f c).1) :
    Repeats n n' view (ask f) (Parser.ask f') where
  ok {s s₁ a} _ hrun := by
    obtain ⟨rfl, rfl⟩ : (f s.checker).1 = a ∧ { s with checker := (f s.checker).2 } = s₁ := by
      simpa using hrun
    refine ⟨[], (ParseState.Reads.refl s).checker_right _, fun {s' s₁' us} hus hw _ _ => ?_⟩
    obtain rfl : us = [] := List.map_eq_nil_iff.mp hw
    refine ⟨_, (f' s'.checker).2, ?_, h s.checker s'.checker⟩
    rw [ask_apply, hus.eq_of_nil]
  error _ hrun := by cases hrun

/-- What the checkers are told need not be the same. -/
private theorem tell (f f' : Checker → Checker) : Repeats n n' id (tell f) (Parser.tell f') :=
  ask (fun c => ((), f c)) (fun c => ((), f' c)) id fun _ _ => rfl

end Repeats

/-! ### Two bounds -/

/-- Induction over two bounds. Only the first decreases in the induction hypothesis. -/
theorem bounds_induction {P : Nat → Nat → Prop} (zero : ∀ n', P 0 n')
    (zero_right : ∀ n, P n 1 → P n 0)
    (succ : ∀ n, (∀ n', P n n') → ∀ n', P (n + 1) (n' + 1)) (n n' : Nat) : P n n' := by
  induction n generalizing n' with
  | zero => exact zero n'
  | succ n ih =>
    cases n' with
    | zero => exact zero_right _ (succ n ih 0)
    | succ n' => exact succ n ih n'

/-! ### Expressions -/

/-- The loop over the operators is repeated from left-hand sides on that are the same, types apart.
-/
private theorem operators_repeats {rhs rhs' : Nat → Parser Expr}
    (hrhs : ∀ m, Repeats n n' Expr.erase (rhs m) (rhs' m)) (least k k' : Nat) :
    k ≤ n + 1 → k' ≤ n' + 1 → ∀ {lhs lhs' : Expr}, lhs'.erase = lhs.erase →
      Repeats k k' Expr.erase (operators rhs least k lhs) (operators rhs' least k' lhs') := by
  induction k, k' using bounds_induction with
  | zero k' =>
    intro _ _ lhs lhs' hlhs
    exact .pure_of_end hlhs fun last c => operators_of_stops (.nil least)
  | zero_right k h =>
    intro hk _ lhs lhs' hlhs
    exact (h hk (Nat.le_add_left 1 n') hlhs).zero_right fun last c =>
      (operators_of_stops (.nil least)).symm
  | succ k ih k' =>
    intro hk hk' lhs lhs' hlhs
    refine Repeats.peek.bind_id fun o => ?_
    cases o.bind Token.operator? with
    | none => exact .pure hlhs
    | some op =>
      dsimp only
      split
      · exact .pure hlhs
      · refine Repeats.next.bind_succ (fun _ h => consumes_next h) fun _ => ?_
        refine ((hrhs _).mono (by omega) (by omega)).bind fun hright => ?_
        exact ih k' (by omega) (by omega) (op.erase_apply_congr hlhs hright)

/-- An operand is repeated with one token more than what stands in its parentheses. -/
private theorem operand_repeats {inner inner' : Parser Expr}
    (h : Repeats n n' Expr.erase inner inner') :
    Repeats (n + 1) (n' + 1) Expr.erase (operand inner) (operand inner') := by
  rw [operand_eq_take, operand_eq_take]
  refine (Repeats.take (by simp)).bind_succ (fun _ h => consumes_take h) ?_
  rintro ⟨lead, line⟩ ⟨lead', line'⟩ hlead
  obtain rfl : lead' = lead := hlead
  cases lead' with
  | variableName name =>
    -- the types that the two checkers give may differ
    exact (Repeats.ask _ _ (fun _ => ()) fun _ _ => rfl).bind fun _ => .pure rfl
  | constant value => exact .pure rfl
  | parenthesis => exact h.bind fun he => (Repeats.expect _).bind_id fun _ => .pure he

/-- Expressions are repeated at every level, within any bounds that have room for the tokens. -/
private theorem expressionWithin_repeats (n n' : Nat) :
    ∀ least, Repeats n n' Expr.erase (expressionWithin n least) (expressionWithin n' least) := by
  induction n, n' using bounds_induction with
  | zero n' =>
    exact fun least => .of_failsAtEnd failsAtEnd_failAtEnd (failsAtEnd_expressionWithin _ _)
  | zero_right n h =>
    exact fun least => (h least).zero_right fun last c =>
      (failsAtEnd_expressionWithin _ _ last c).symm
  | succ n ih n' =>
    intro least
    rw [expressionWithin, expressionWithin]
    exact (operand_repeats (ih n' 0)).bind_succ length_lt_of_operand fun he =>
      operators_repeats (ih n') least n n' (Nat.le_succ n) (Nat.le_succ n') he

/-- An expression is parsed in the same way again, types apart, on tokens of the same kinds. -/
theorem expression_repeats : Repeats n n' Expr.erase expression expression :=
  .bounded fun {k k'} _ _ => expressionWithin_repeats k k' 0

/-! ### Lists in parentheses -/

section Lists

variable {item item' : Parser α} {view : α → γ}

/-- Lists are repeated, if their items are. Items have tokens, so that both bounds last. -/
private theorem commaSeparated_repeats (hitem : ∀ n n', Repeats n n' view item item)
    (hend : FailsAtEnd item) (hpos : Consumes item) (n n' : Nat) :
    Repeats n n' (List.map view) (commaSeparated item n) (commaSeparated item n') := by
  induction n, n' using bounds_induction with
  | zero n' => exact .of_failsAtEnd failsAtEnd_failAtEnd (failsAtEnd_commaSeparated hend _)
  | zero_right n h =>
    exact h.zero_right fun last c => (failsAtEnd_commaSeparated hend _ last c).symm
  | succ n ih n' =>
    refine (hitem _ _).bind_succ (fun _ h => hpos h) fun {a a'} ha => ?_
    refine (Repeats.skipIf _).bind_id fun b => ?_
    cases b with
    | true => exact (ih n').bind fun has => .pure (by simp [ha, has])
    | false => exact .pure (by simp [ha])

/-- So is a list in parentheses, if its items are. -/
theorem listInParens_repeats (hitem : ∀ n n', Repeats n n' view item item)
    (hend : FailsAtEnd item) (hpos : Consumes item) :
    Repeats n n' (List.map view) (listInParens item) (listInParens item) := by
  refine Repeats.peek.bind_id fun o => ?_
  split
  · exact (Repeats.pure rfl).bind fun has => (Repeats.expect _).bind_id fun _ => .pure has
  · exact (Repeats.bounded fun _ _ => commaSeparated_repeats hitem hend hpos _ _).bind fun has =>
      (Repeats.expect _).bind_id fun _ => .pure has

end Lists

private theorem arguments_repeats :
    Repeats n n' (List.map Expr.erase) (listInParens expression) (listInParens expression) :=
  listInParens_repeats (fun _ _ => expression_repeats) failsAtEnd_expression consumes_expression

theorem parameter_repeats : Repeats n n' id parameter parameter :=
  Repeats.typeSpecifier.bind_id fun _ => Repeats.identifier.bind_fst fun _ _ _ => .pure rfl

/-! ### Statements without blocks -/

private theorem variableTail_repeats (type : Ty) (name : String) (line line' : Nat) :
    Repeats n n' Stmt.erase (variableTail type name line) (variableTail type name line') := by
  refine (Repeats.skipIf _).bind_id fun b => ?_
  cases b with
  | true =>
    exact expression_repeats.bind fun he => (Repeats.tell _ _).bind_id fun _ =>
      (Repeats.tell _ _).bind_id fun _ => .pure (by simp [Stmt.erase, he])
  | false => exact (Repeats.tell _ _).bind_id fun _ => .pure rfl

private theorem assignOrCall_repeats : Repeats n n' Stmt.erase assignOrCall assignOrCall := by
  refine Repeats.identifier.bind_fst fun name line line' => ?_
  refine Repeats.peek.bind_id fun o => ?_
  cases o with
  | none => exact .unexpected
  | some w =>
    cases w with
    | assign =>
      exact (Repeats.expect _).bind_id fun _ => expression_repeats.bind fun he =>
        (Repeats.tell _ _).bind_id fun _ => .pure (by simp [Stmt.erase, he])
    | openParen =>
      exact (Repeats.expect _).bind_id fun _ => arguments_repeats.bind fun hes =>
        (Repeats.tell _ _).bind_id fun _ => .pure (by simp [Stmt.erase, hes])
    | _ => exact .unexpected

/-- So is a simple statement. -/
theorem simpleStatement_repeats : Repeats n n' Stmt.erase simpleStatement simpleStatement := by
  refine Repeats.peek.bind_id fun o => ?_
  cases o with
  | none => exact .unexpected
  | some w =>
    cases w with
    | identifier name => exact assignOrCall_repeats
    | kwInt | kwFloat =>
      exact Repeats.typeSpecifier.bind_id fun type =>
        Repeats.identifier.bind_fst fun name line line' => variableTail_repeats type name line line'
    | _ => exact .unexpected

private theorem condition_repeats : Repeats n n' Expr.erase condition condition :=
  (Repeats.expect _).bind_id fun _ => expression_repeats.bind fun he =>
    (Repeats.expect _).bind_id fun _ => .pure he

private theorem returnStatement_repeats : Repeats n n' Stmt.erase returnStatement returnStatement :=
  (Repeats.expect _).bind_id fun _ => expression_repeats.bind fun he =>
    (Repeats.expect _).bind_id fun _ => .pure (by simp [Stmt.erase, he])

/-! ### Statements with blocks -/

section Blocks

variable {block block' : Parser (List Stmt)}

private theorem functionTail_repeats (hblock : Repeats n n' Stmt.eraseAll block block') (type : Ty)
    (name : String) :
    Repeats n n' Stmt.erase (functionTail block type name) (functionTail block' type name) := by
  refine (Repeats.expect _).bind_id fun _ => ?_
  refine (listInParens_repeats (fun _ _ => parameter_repeats) failsAtEnd_parameter
    consumes_parameter).bind fun {params params'} hparams => ?_
  obtain rfl : params' = params := by simpa using hparams
  exact (Repeats.tell _ _).bind_id fun _ => hblock.bind fun hss => .pure (by simp [Stmt.erase, hss])

private theorem declaration_repeats (hblock : Repeats n n' Stmt.eraseAll block block') :
    Repeats (n + 1) (n' + 1) Stmt.erase (declaration block) (declaration block') := by
  refine Repeats.typeSpecifier.bind_succ (fun _ h => consumes_typeSpecifier h)
    fun {type type'} htype => Repeats.identifier.bind_fst fun name line line' => ?_
  obtain rfl : type' = type := htype
  refine Repeats.peek.bind_id fun o => ?_
  split
  · exact functionTail_repeats hblock _ _
  · exact (variableTail_repeats _ _ _ _).bind fun hst =>
      (Repeats.expect _).bind_id fun _ => .pure hst

private theorem ifStatement_repeats (hblock : Repeats n n' Stmt.eraseAll block block') :
    Repeats (n + 1) (n' + 1) Stmt.erase (ifStatement block) (ifStatement block') := by
  refine (Repeats.expect _).bind_succ (fun _ h => consumes_expect _ h) fun _ =>
    condition_repeats.bind fun he => hblock.bind fun hss => ?_
  refine (Repeats.skipIf _).bind_id fun b => ?_
  cases b with
  | true => exact hblock.bind fun hss' => .pure (by simp [Stmt.erase, he, hss, hss'])
  | false => exact .pure (by simp [Stmt.erase, he, hss])

private theorem whileStatement_repeats (hblock : Repeats n n' Stmt.eraseAll block block') :
    Repeats (n + 1) (n' + 1) Stmt.erase (whileStatement block) (whileStatement block') :=
  (Repeats.expect _).bind_succ (fun _ h => consumes_expect _ h) fun _ =>
    condition_repeats.bind fun he => hblock.bind fun hss => .pure (by simp [Stmt.erase, he, hss])

private theorem forStatement_repeats (hblock : Repeats n n' Stmt.eraseAll block block') :
    Repeats (n + 1) (n' + 1) Stmt.erase (forStatement block) (forStatement block') :=
  (Repeats.expect _).bind_succ (fun _ h => consumes_expect _ h) fun _ =>
    (Repeats.expect _).bind_id fun _ =>
    (Repeats.tell _ _).bind_id fun _ => simpleStatement_repeats.bind fun hinit =>
    (Repeats.expect _).bind_id fun _ => expression_repeats.bind fun he =>
    (Repeats.expect _).bind_id fun _ => simpleStatement_repeats.bind fun hstep =>
    (Repeats.expect _).bind_id fun _ => hblock.bind fun hss =>
    (Repeats.tell _ _).bind_id fun _ => .pure (by
      simp [Stmt.erase, Stmt.eraseAll, Stmt.eraseAll_append, hinit, he, hstep, hss])

/-- A statement of every kind is repeated, if blocks are. -/
private theorem statementOver_repeats (hblock : Repeats n n' Stmt.eraseAll block block') :
    Repeats (n + 1) (n' + 1) Stmt.erase (statementOver block) (statementOver block') := by
  refine Repeats.peek.bind_id fun o => ?_
  cases o with
  | none => exact .unexpected
  | some w =>
    cases w with
    | kwInt | kwFloat => exact declaration_repeats hblock
    | identifier name =>
      exact assignOrCall_repeats.bind fun hst => (Repeats.expect _).bind_id fun _ => .pure hst
    | kwReturn => exact returnStatement_repeats
    | kwIf => exact ifStatement_repeats hblock
    | kwWhile => exact whileStatement_repeats hblock
    | kwFor => exact forStatement_repeats hblock
    | _ => exact .unexpected

end Blocks

/-! ### Bodies and programs -/

/-- Statements up to a brace are repeated, if single statements are. -/
private theorem untilBrace_repeats
    (hst : ∀ n', Repeats n n' Stmt.erase (statementWithin n) (statementWithin n')) (k k' : Nat) :
    k ≤ n → ∀ {n'}, k' ≤ n' → Repeats k k' Stmt.eraseAll (untilBrace (statementWithin n) k)
      (untilBrace (statementWithin n') k') := by
  induction k, k' using bounds_induction with
  | zero k' =>
    intro _ n' _
    exact .of_failsAtEnd failsAtEnd_failAtEnd
      (failsAtEnd_untilBrace (failsAtEnd_statementWithin n') k')
  | zero_right k h =>
    intro hk n' _
    exact (h hk (Nat.le_refl 1)).zero_right fun last c =>
      (failsAtEnd_untilBrace (failsAtEnd_statementWithin 1) 1 last c).symm
  | succ k ih k' =>
    intro hk n' hk'
    refine (Repeats.skipIf _).bind_id fun b => ?_
    cases b with
    | true => exact .pure rfl
    | false =>
      refine ((hst n').mono hk hk').bind_succ (fun _ h => consumes_statementWithin _ h)
        fun hfirst => ?_
      exact (ih k' (Nat.le_of_succ_le hk) (Nat.le_of_succ_le hk')).bind fun hrest =>
        .pure (by simp [Stmt.eraseAll, hfirst, hrest])

/-- So is a block, if the statements in it are. -/
theorem blockOf_repeats
    (hst : ∀ n', Repeats n n' Stmt.erase (statementWithin n) (statementWithin n')) (n' : Nat) :
    Repeats n n' Stmt.eraseAll (blockOf (statementWithin n)) (blockOf (statementWithin n')) :=
  (Repeats.expect _).bind_id fun _ => (Repeats.tell _ _).bind_id fun _ =>
    (Repeats.bounded fun hk hk' => untilBrace_repeats hst _ _ hk hk').bind fun hss =>
    (Repeats.tell _ _).bind_id fun _ => .pure hss

/-- So is a statement, within any bounds that have room for its tokens. -/
theorem statementWithin_repeats (n n' : Nat) :
    Repeats n n' Stmt.erase (statementWithin n) (statementWithin n') := by
  induction n, n' using bounds_induction with
  | zero n' => exact .of_failsAtEnd failsAtEnd_failAtEnd (failsAtEnd_statementWithin n')
  | zero_right n h => exact h.zero_right fun last c => (failsAtEnd_statementWithin 1 last c).symm
  | succ n ih n' => exact statementOver_repeats (blockOf_repeats ih n')

private theorem statement_repeats : Repeats n n' Stmt.erase statement statement :=
  .bounded fun _ _ => statementWithin_repeats _ _

/-- So are the statements up to the end of the text. -/
theorem untilEnd_repeats (n n' : Nat) :
    Repeats n n' Stmt.eraseAll (untilEnd n) (untilEnd n') := by
  induction n, n' using bounds_induction with
  | zero n' => exact .pure_of_end rfl (untilEnd_nil n')
  | zero_right n h => exact h.zero_right fun last c => (untilEnd_nil 1 last c).symm
  | succ n ih n' =>
    refine Repeats.peek.bind_id fun o => ?_
    split
    · exact .pure rfl
    · refine statement_repeats.bind_succ (fun _ h => consumes_statementWithin _ h) fun hfirst => ?_
      exact (ih n').bind fun hrest => .pure (by simp [Stmt.eraseAll, hfirst, hrest])

/-- **A program is parsed in the same way again**, types apart. -/
theorem program_repeats : Repeats n n' Program.erase program program :=
  (Repeats.bounded fun _ _ => untilEnd_repeats _ _).bind fun hss =>
    (Repeats.tell _ _).bind_id fun _ => .pure (by simp [Program.erase, hss])

end Parser

end TinyImp
