import TinyImp.Proofs.Parsing.Language
import TinyImp.Proofs.Parsing.SingleToken

/-!
# Parsers recognise languages

A parser **recognises** a language if what it reads when it succeeds is a word of the language, and
if it fails no earlier than it has to: what it has read up to the token that it fails at is the
beginning of a word, and so is all of the text if it fails at the end (`Parser.Recognises`). The
languages are composed as the parsers are: a sequence of parsers recognises a product, a parser that
skips an optional token a sum, and the loop over the operators a Kleene star. That each parser
recognises the words of its category is then an inequality between languages, which the productions
of the category give.
-/

namespace TinyImp

open Computability
open Grammar (words Category productions)

namespace ParseError.Cause

/-- The token that a cause complains of. -/
def got? : Cause → Option Token
  | .expected _ got => some got
  | .expectedIdentifier got => some got
  | .expectedType got => some got
  | .unexpected got => some got
  | .expectedExpression got => some got
  | .unexpectedEnd => none

/-- The token that should have been there, if a cause knows one. -/
def wanted? : Cause → Option Token
  | .expected wanted _ => some wanted
  | _ => none

end ParseError.Cause

open Grammar (language Viable language_mul language_cons language_nil language_le_phrase
  exists_mem_language)

namespace Parser

variable {α β : Type} {n : Nat} {L L' : Language Token}

/-- A failure is the fault of the end of the text or of one of its tokens. What is in front is a
viable prefix, and stays one with the token that should have been there. -/
inductive Blames (L : Language Token) (s : ParseState) (e : ParseError) (s' : ParseState) : Prop
  | atEnd (hcause : e.cause = .unexpectedEnd) (hviable : Viable L (words s.unread))
  | atToken (ts : List Located) (t : Located) 
      (hread : s.unread = ts ++ t :: (s'.past e.cause).unread)
      (hgot : e.cause.got? = some t.token) (hviable : Viable L (words ts))
      (hwanted : ∀ w, e.cause.wanted? = some w → Viable L (words ts ++ [w]))

/-- What is blamed with one language is blamed with every other that has its beginnings of words. -/
private theorem Blames.mono {s s' : ParseState} {e : ParseError} (h : Blames L s e s')
    (hL : ∀ {ws}, Viable L ws → Viable L' ws) : Blames L' s e s' := by
  cases h with
  | atEnd hcause hviable => exact .atEnd hcause (hL hviable)
  | atToken ts t hread hgot hviable hwanted =>
    exact .atToken ts t hread hgot (hL hviable) fun w hw => hL (hwanted w hw)

/-- The blame is the same for a reader who has read more in front. -/
theorem Blames.append {s s₁ s' : ParseState} {e : ParseError} {ts : List Located}
    (h : Blames L' s₁ e s') (hts : s.Reads ts s₁) (hL : words ts ∈ L) :
    Blames (L * L') s e s' := by
  cases h with
  | atEnd hcause hviable =>
    refine .atEnd hcause ?_
    rw [hts.unread_eq, words, List.map_append]
    exact .append hL hviable
  | atToken us t hread hgot hviable hwanted =>
    refine .atToken (ts ++ us) t ?_ hgot ?_ fun w hw => ?_
    · rw [hts.unread_eq, hread, List.append_assoc]
    · rw [words, List.map_append]
      exact .append hL hviable
    · rw [words, List.map_append, List.append_assoc]
      exact .append hL (hwanted w hw)

/-- On at most `n` tokens the parser reads words of the language, and fails only where it has to. -/
structure Recognises (n : Nat) (L : Language Token) (p : Parser α) : Prop where
  nonempty : ∃ ws, ws ∈ L
  ok {s s' : ParseState} {a : α} (hn : s.unread.length ≤ n) (h : p s = .ok a s') :
    ∃ ts, s.Reads ts s' ∧ words ts ∈ L
  error {s s' : ParseState} {e : ParseError} (hn : s.unread.length ≤ n) (h : p s = .error e s') :
    Blames L s e s'

namespace Recognises

variable {p : Parser α} {f : α → Parser β}

/-- What recognises a language recognises every larger one. -/
private theorem mono (h : Recognises n L p) (hL : L ≤ L') : Recognises n L' p where
  nonempty := h.nonempty.imp fun _ hws => hL hws
  ok hn hrun := by
    obtain ⟨ts, hts, hw⟩ := h.ok hn hrun
    exact ⟨ts, hts, hL hw⟩
  error hn hrun := (h.error hn hrun).mono fun hv => hv.mono hL

/-- A parser recognises a language among fewer tokens as well. -/
private theorem of_le {m : Nat} (h : Recognises n L p) (hm : m ≤ n) : Recognises m L p where
  nonempty := h.nonempty
  ok hn hrun := h.ok (hn.trans hm) hrun
  error hn hrun := h.error (hn.trans hm) hrun

/-- It is enough that the parser runs, on each state, as one that recognises the language. -/
theorem of_forall (hL : ∃ ws, ws ∈ L) (h : ∀ s, ∃ q, p s = q s ∧ Recognises n L q) :
    Recognises n L p where
  nonempty := hL
  ok {s s' a} hn hrun := by
    obtain ⟨q, hq, hrec⟩ := h s
    exact hrec.ok hn (hq ▸ hrun)
  error {s s' e} hn hrun := by
    obtain ⟨q, hq, hrec⟩ := h s
    exact hrec.error hn (hq ▸ hrun)

private theorem pure (a : α) : Recognises n 1 (Pure.pure a : Parser α) where
  nonempty := ⟨[], rfl⟩
  ok {s s' b} _ hrun := by
    obtain ⟨rfl, rfl⟩ := pure_eq_ok.mp hrun
    exact ⟨[], .refl s, rfl⟩
  error _ hrun := by cases hrun

/-- **Sequences.** The second parser has as much room as the first one leaves. -/
theorem bind_of {m : Nat} [Nonempty α] (h : Recognises n L p) (hf : ∀ a, Recognises m L' (f a))
    (hroom : ∀ {s s' a}, s.unread.length ≤ n → p s = .ok a s' → s'.unread.length ≤ m) :
    Recognises n (L * L') (p >>= f) where
  nonempty := by
    obtain ⟨us, hus⟩ := h.nonempty
    obtain ⟨vs, hvs⟩ := (hf (Classical.arbitrary α)).nonempty
    exact ⟨us ++ vs, Language.append_mem_mul hus hvs⟩
  ok hn hrun := by
    obtain ⟨a, s₁, hp, hfa⟩ := bind_eq_ok.mp hrun
    obtain ⟨ts, hts, hw⟩ := h.ok hn hp
    obtain ⟨us, hus, hw'⟩ := (hf a).ok (hroom hn hp) hfa
    refine ⟨ts ++ us, hts.trans hus, ?_⟩
    rw [words, List.map_append]
    exact Language.append_mem_mul hw hw'
  error hn hrun := by
    obtain hp | ⟨a, s₁, hp, hfa⟩ := bind_eq_error.mp hrun
    · -- the second factor completes what the first one has begun
      have hL' := (hf (Classical.arbitrary α)).nonempty
      exact (h.error hn hp).mono fun hv => hv.mul_right hL'
    · obtain ⟨ts, hts, hw⟩ := h.ok hn hp
      exact ((hf a).error (hroom hn hp) hfa).append hts hw

/-- **A sequence recognises the words put together** from those of its parts. -/
private theorem bind [Nonempty α] (h : Recognises n L p) (hf : ∀ a, Recognises n L' (f a)) :
    Recognises n (L * L') (p >>= f) := by
  refine h.bind_of hf fun hn hrun => ?_
  obtain ⟨ts, hts, -⟩ := h.ok hn hrun
  have hlen := hts.length_eq
  omega

/-- Behind a parser that reads something the bound is smaller by one. -/
theorem bind_succ [Nonempty α] (h : Recognises (n + 1) L p)
    (hpos : ∀ {s s' a}, s.unread.length ≤ n + 1 → p s = .ok a s' →
      s'.unread.length < s.unread.length)
    (hf : ∀ a, Recognises n L' (f a)) : Recognises (n + 1) (L * L') (p >>= f) := by
  refine h.bind_of hf fun hn hrun => ?_
  have hlt := hpos hn hrun
  omega

/-- Behind a parser that reads nothing. -/
theorem bind_one [Nonempty α] (h : Recognises n 1 p) (hf : ∀ a, Recognises n L (f a)) :
    Recognises n L (p >>= f) := by
  rw [← one_mul L]
  exact h.bind hf

/-- In front of a parser that reads nothing. -/
theorem then_one [Nonempty α] (h : Recognises n L p) (hf : ∀ a, Recognises n 1 (f a)) :
    Recognises n L (p >>= f) := by
  rw [← mul_one L]
  exact h.bind hf

private theorem map [Nonempty α] (h : Recognises n L p) (g : α → β) :
    Recognises n L (p >>= fun a => Pure.pure (g a)) :=
  h.then_one fun a => pure (g a)

/-- The bound is the number of tokens left, so that it is enough for them. -/
private theorem bounded {p : Nat → Parser α} (hL : ∃ ws, ws ∈ L)
    (h : ∀ k ≤ n, Recognises k L (p k)) : Recognises n L (bounded p) where
  nonempty := hL
  ok hn hrun := (h _ hn).ok (Nat.le_refl _) hrun
  error hn hrun := (h _ hn).error (Nat.le_refl _) hrun

private theorem failAtEnd (hL : ∃ ws, ws ∈ L) : Recognises 0 L (failAtEnd : Parser α) where
  nonempty := hL
  ok _ hrun := by cases hrun
  error {s s' e} hn hrun := by
    have hnil : s.unread = [] := List.length_eq_zero_iff.mp (Nat.le_zero.mp hn)
    cases hrun
    exact .atEnd rfl (hnil ▸ Viable.nil hL)

/-! ### Single tokens and the checker -/

/-- A token, and what follows it. -/
theorem take_bind {read : Token → Option α} {cause : Token → ParseError.Cause}
    {g : α × Nat → Parser β} (hL : ∃ ws, ws ∈ L) (hgot : ∀ w, (cause w).got? = some w)
    (hwanted : ∀ w w', (cause w).wanted? = some w' → Viable L [w'])
    (hg : ∀ w a line, read w = some a →
      ∃ L', language [.token w] * L' ≤ L ∧ Recognises n L' (g (a, line))) :
    Recognises (n + 1) L (take read cause >>= g) where
  nonempty := hL
  ok hn hrun := by
    obtain ⟨⟨a, line⟩, s₁, htake, hrun⟩ := bind_eq_ok.mp hrun
    obtain ⟨w, hread, hw⟩ := take_eq_ok htake
    obtain ⟨L', hle, hrec⟩ := hg w a line hread
    have hlt := consumes_take htake
    obtain ⟨ts, hts, hmem⟩ := hrec.ok (by omega) hrun
    exact ⟨_, hw.trans hts, hle (Language.append_mem_mul (Grammar.mem_language_token w) hmem)⟩
  error {s s' e} hn hrun := by
    obtain htake | ⟨⟨a, line⟩, s₁, htake, hrun⟩ := bind_eq_error.mp hrun
    · obtain ⟨hnil, rfl, rfl⟩ | ⟨t, -, hts, rfl⟩ := take_eq_error htake
      · exact .atEnd rfl (hnil ▸ Viable.nil hL)
      · exact .atToken [] t hts.unread_eq (hgot _) (.nil hL) (hwanted t.token)
    · obtain ⟨w, hread, hw⟩ := take_eq_ok htake
      obtain ⟨L', hle, hrec⟩ := hg w a line hread
      have hlt := consumes_take htake
      exact ((hrec.error (by omega) hrun).append hw (Grammar.mem_language_token w)).mono
        fun hv => hv.mono hle

/-- A token that is a word of the language. -/
theorem take_map {read : Token → Option α} {cause : Token → ParseError.Cause} (g : α × Nat → β)
    (hL : ∃ ws, ws ∈ L) (hgot : ∀ w, (cause w).got? = some w)
    (hwanted : ∀ w w', (cause w).wanted? = some w' → Viable L [w'])
    (hread : ∀ w a, read w = some a → [w] ∈ L) :
    Recognises n L (Parser.take read cause >>= fun x => Pure.pure (g x)) := by
  refine of_le (take_bind hL hgot hwanted fun w a line hw => ⟨1, ?_, pure _⟩) (Nat.le_succ n)
  rw [mul_one]
  exact Grammar.language_token_le (hread w a hw)

private theorem expect (w : Token) : Recognises n (language [.token w]) (expect w) := by
  have hmem := Grammar.mem_language_token w
  rw [expect_eq_take]
  refine take_map _ ⟨_, hmem⟩ (fun _ => rfl) ?_ fun w' a hw' => ?_
  · rintro _ _ ⟨⟩
    exact .of_mem hmem
  · obtain rfl : w' = w := by simpa using hw'
    exact hmem

private theorem identifier : Recognises n (language [.identifier]) identifier := by
  rw [identifier_eq_take]
  refine take_map _ ⟨[.identifier ""], .identifier .nil⟩ (fun _ => rfl) (by rintro _ _ ⟨⟩)
    fun w name hw => ?_
  cases w with
  | identifier name => exact .identifier .nil
  | _ => cases hw

private theorem typeSpecifier : Recognises n (language [.phrase .type]) typeSpecifier := by
  rw [typeSpecifier_eq_take]
  exact take_map _ ⟨[.kwInt], Grammar.word_type rfl⟩ (fun _ => rfl) (by rintro _ _ ⟨⟩)
    fun w type hw => Grammar.word_type hw

/-- The failing parser recognises every language that has a word. -/
private theorem unexpected (hL : ∃ ws, ws ∈ L) : Recognises n L (unexpected : Parser α) := by
  rw [unexpected_eq_take]
  refine (take_bind hL (fun _ => rfl) (by rintro _ _ ⟨⟩) ?_).of_le (Nat.le_succ n)
  rintro _ _ _ ⟨⟩

private theorem ask (g : Checker → α × Checker) : Recognises n 1 (ask g) where
  nonempty := ⟨[], rfl⟩
  ok {s s' a} _ hrun := by
    obtain ⟨-, rfl⟩ : _ ∧ { s with checker := (g s.checker).2 } = s' := by simpa using hrun
    exact ⟨[], (ParseState.Reads.refl s).checker_right _, rfl⟩
  error _ hrun := by cases hrun

private theorem tell (g : Checker → Checker) : Recognises n 1 (tell g) :=
  ask fun c => ((), g c)

/-- Whatever token comes next. -/
theorem peek_bind {f : Option Token → Parser β} (h : ∀ o, Recognises n L (f o)) :
    Recognises n L (peek >>= f) :=
  of_forall (h none).nonempty fun s => ⟨f (next? s.unread), by simp, h _⟩

/-- A token that may be left out. -/
theorem skipIf_bind {w : Token} {f : Bool → Parser β} (h : Recognises n L (f true))
    (h' : Recognises n L' (f false)) :
    Recognises n (language [.token w] * L + L') (skipIf w >>= f) := by
  have hleft : language [.token w] * L ≤ language [.token w] * L + L' := le_add_right le_rfl
  have hright : L' ≤ language [.token w] * L + L' := le_add_left le_rfl
  refine of_forall (h'.mono hright).nonempty ?_
  rintro ⟨unread, last, c⟩
  by_cases hw : next? unread = some w
  · refine ⟨Parser.expect w >>= fun _ => f true, ?_, ((expect w).bind fun _ => h).mono hleft⟩
    obtain ⟨⟨w, line⟩, ⟨rest, rfl⟩, rfl⟩ :
        ∃ t : Located, (∃ rest, unread = t :: rest) ∧ t.token = w := by
      simpa [next?, List.head?_eq_some_iff] using hw
    simp
  · exact ⟨f false, by simp [skipIf_of_ne _ _ _ _ hw], h'.mono hright⟩

end Recognises

/-! ### Expressions -/

instance : Nonempty Expr := ⟨.const (.int 0)⟩

instance : Nonempty Stmt := ⟨.block []⟩

instance : Nonempty Param := ⟨⟨"", .int⟩⟩

/-- The loop over the operators reads an operator and an expression at a time. -/
theorem operators_recognises {rhs : Nat → Parser Expr}
    (hrhs : ∀ m, Recognises n (language [.phrase .expr]) (rhs m)) (least k : Nat) (hk : k ≤ n)
    (lhs : Expr) :
    Recognises k (language [.phrase .operator, .phrase .expr])∗ (operators rhs least k lhs) := by
  induction k generalizing lhs with
  | zero => exact (Recognises.pure lhs).mono one_le_kstar
  | succ k ih =>
    refine .of_forall ⟨[], Language.nil_mem_kstar _⟩ ?_
    rintro ⟨unread, last, c⟩
    by_cases hstop : Stops least unread
    · exact ⟨pure lhs, operators_of_stops hstop, (Recognises.pure lhs).mono one_le_kstar⟩
    · obtain ⟨w, line, rest, op, rfl, hop, hle⟩ := Stops.exists_operator hstop
      -- the loop reads this operator, and its right-hand side, and runs once more
      refine ⟨expect w >>= fun _ => rhs (op.precedence + 1) >>= fun right =>
        operators rhs least k (op.apply lhs right), ?_, ?_⟩
      · simp [operators_cons hop hle]
      · have hround : language [.token w] * language [.phrase .expr] ≤
            language [.phrase .operator, .phrase .expr] := by
          rw [language_cons (.phrase .operator)]
          gcongr
          exact Grammar.language_token_le (Grammar.word_operator hop)
        refine .mono (.bind_succ (.expect w) (fun _ h => consumes_expect w h) fun _ =>
          .bind ((hrhs _).of_le (by omega)) fun right => ih (by omega) _) ?_
        calc
          _ = language [.token w] * language [.phrase .expr] *
              (language [.phrase .operator, .phrase .expr])∗ := (mul_assoc ..).symm
          _ ≤ language [.phrase .operator, .phrase .expr] *
              (language [.phrase .operator, .phrase .expr])∗ := by gcongr
          _ ≤ _ := mul_kstar_le_kstar

/-- An operand is an expression, if the parser in parentheses recognises expressions. -/
private theorem operand_recognises {inner : Parser Expr}
    (h : Recognises n (language [.phrase .expr]) inner) :
    Recognises (n + 1) (language [.phrase .expr]) (operand inner) := by
  rw [operand_eq_take]
  refine .take_bind (exists_mem_language _) (fun _ => rfl) (by rintro _ _ ⟨⟩)
    fun w lead line hlead => ?_
  cases w with
  | identifier name =>
    cases hlead
    refine ⟨1, ?_, (Recognises.ask _).map _⟩
    rw [mul_one]
    exact Grammar.language_token_le (.word (by simp [productions]) (.identifier .nil))
  | intLit value =>
    cases hlead
    refine ⟨1, ?_, .pure _⟩
    rw [mul_one]
    exact Grammar.language_token_le (.word (by simp [productions]) (.int .nil))
  | floatLit value =>
    cases hlead
    refine ⟨1, ?_, .pure _⟩
    rw [mul_one]
    exact Grammar.language_token_le (.word (by simp [productions]) (.float .nil))
  | openParen =>
    cases hlead
    refine ⟨_, ?_, h.bind fun e => (Recognises.expect _).map fun _ => e⟩
    simp only [language_mul]
    exact language_le_phrase (by simp [productions])
  | _ => cases hlead

/-- **Every level of expressions recognises the expressions** of the grammar, which has no levels.
-/
private theorem expressionWithin_recognises (n least : Nat) :
    Recognises n (language [.phrase .expr]) (expressionWithin n least) := by
  induction n generalizing least with
  | zero => exact .failAtEnd (exists_mem_language _)
  | succ n ih =>
    refine .mono (.bind_succ (operand_recognises (ih 0)) length_lt_of_operand fun lhs =>
      operators_recognises ih least n (Nat.le_refl n) lhs) (mul_kstar_le_self ?_)
    rw [language_mul]
    exact language_le_phrase (by simp [productions])

private theorem expression_recognises : Recognises n (language [.phrase .expr]) expression :=
  .bounded (exists_mem_language _) fun k _ => expressionWithin_recognises k 0

/-! ### Lists in parentheses -/

section Lists

variable {item : Parser α} {A S P : Category}

/-- Lists with commas are recognised, if the grammar has a production for a single item and one for
further ones. -/
private theorem commaSeparated_recognises [Nonempty α]
    (hitem : ∀ n, Recognises n (language [.phrase A]) item) (hpos : Consumes item)
    (hone : [.phrase A] ∈ productions S)
    (hcons : [.phrase A, .token .comma, .phrase S] ∈ productions S) (n : Nat) :
    Recognises n (language [.phrase S]) (commaSeparated item n) := by
  induction n with
  | zero => exact .failAtEnd (exists_mem_language _)
  | succ n ih =>
    refine .mono (.bind_succ (hitem (n + 1)) (fun _ h => hpos h) fun first =>
      .skipIf_bind (.map ih _) (.pure _)) ?_
    rw [mul_add, mul_one, language_mul, language_mul]
    exact add_le (language_le_phrase hcons) (language_le_phrase hone)

/-- Behind the opening parenthesis stand a list that may be empty and the closing one. -/
theorem listInParens_recognises [Nonempty α]
    (hitem : ∀ n, Recognises n (language [.phrase A]) item) (hpos : Consumes item)
    (hone : [.phrase A] ∈ productions S)
    (hcons : [.phrase A, .token .comma, .phrase S] ∈ productions S)
    (hnone : [] ∈ productions P) (hsome : [.phrase S] ∈ productions P) :
    Recognises n (language [.phrase P, .token .closeParen]) (listInParens item) := by
  have hlist := commaSeparated_recognises hitem hpos hone hcons
  rw [language_cons]
  refine .peek_bind fun o => ?_
  split
  · refine .mono (.bind (.pure []) fun items => .map (.expect _) _) ?_
    gcongr
    rw [← language_nil]
    exact language_le_phrase hnone
  · refine .mono (.bind (.bounded (exists_mem_language _) fun k _ => hlist k) fun items =>
      .map (.expect _) _) ?_
    gcongr
    exact language_le_phrase hsome

end Lists

private theorem arguments_recognises :
    Recognises n (language [.phrase .args, .token .closeParen]) (listInParens expression) :=
  listInParens_recognises (S := .argList) (fun _ => expression_recognises) consumes_expression
    (by simp [productions]) (by simp [productions]) (by simp [productions]) (by simp [productions])

private theorem parameter_recognises : Recognises n (language [.phrase .param]) parameter := by
  refine .mono (.bind .typeSpecifier fun type => .map .identifier _) ?_
  rw [language_mul]
  exact language_le_phrase (by simp [productions])

private theorem parameters_recognises :
    Recognises n (language [.phrase .params, .token .closeParen]) (listInParens parameter) :=
  listInParens_recognises (S := .paramList) (fun _ => parameter_recognises) consumes_parameter
    (by simp [productions]) (by simp [productions]) (by simp [productions]) (by simp [productions])

/-! ### Statements without blocks -/

/-- A first value may be left out. -/
theorem variableTail_recognises (type : Ty) (name : String) (line : Nat) :
    Recognises n (language [.token .assign, .phrase .expr] + 1) (variableTail type name line) := by
  rw [language_cons]
  exact .skipIf_bind (.then_one expression_recognises fun e => .bind_one (.tell _) fun _ =>
    .map (.tell _) _) (.map (.tell _) _)

private theorem assignOrCall_recognises :
    Recognises n (language [.phrase .simple]) assignOrCall := by
  have hassign : [.identifier, .token .assign, .phrase .expr] ∈ productions .simple := by
    simp [productions]
  have hcall : [.identifier, .token .openParen, .phrase .args, .token .closeParen] ∈
      productions .simple := by
    simp [productions]
  refine .mono (L := language [.identifier] * (language [.token .assign, .phrase .expr] +
    language [.token .openParen, .phrase .args, .token .closeParen])) ?_ ?_
  · refine .bind .identifier fun x => .peek_bind fun o => ?_
    split
    · refine .mono ?_ (le_add_right le_rfl)
      rw [language_cons]
      exact .bind (.expect _) fun _ => .then_one expression_recognises fun e => .map (.tell _) _
    · refine .mono ?_ (le_add_left le_rfl)
      rw [language_cons]
      exact .bind (.expect _) fun _ => .then_one arguments_recognises fun args => .map (.tell _) _
    · exact .unexpected ((exists_mem_language _).imp fun _ => .inl)
  · rw [mul_add, language_mul, language_mul]
    exact add_le (language_le_phrase hassign) (language_le_phrase hcall)

/-- The words that declare a variable, with a first value or without, are simple statements. -/
private theorem variable_recognises :
    language [.phrase .type] * (language [.identifier] *
      (language [.token .assign, .phrase .expr] + 1)) ≤ language [.phrase .simple] := by
  rw [mul_add, mul_add, mul_one, language_mul, language_mul, language_mul]
  exact add_le (language_le_phrase (by simp [productions]))
    (language_le_phrase (by simp [productions]))

private theorem simpleStatement_recognises :
    Recognises n (language [.phrase .simple]) simpleStatement := by
  refine .peek_bind fun o => ?_
  split
  · exact assignOrCall_recognises
  · exact .mono (.bind .typeSpecifier fun type => .bind .identifier fun x =>
      variableTail_recognises type x.1 x.2) variable_recognises
  · exact .mono (.bind .typeSpecifier fun type => .bind .identifier fun x =>
      variableTail_recognises type x.1 x.2) variable_recognises
  · exact .unexpected (exists_mem_language _)

private theorem condition_recognises :
    Recognises n (language [.token .openParen, .phrase .expr, .token .closeParen]) condition := by
  rw [language_cons, language_cons (.phrase .expr)]
  exact .bind (.expect _) fun _ => .bind expression_recognises fun e => .map (.expect _) _

private theorem returnStatement_recognises :
    Recognises n (language [.phrase .statement]) returnStatement := by
  refine .mono (.bind (.expect _) fun _ => .bind expression_recognises fun e =>
    .map (.expect _) _) ?_
  rw [language_mul, language_mul]
  exact language_le_phrase (by simp [productions])

/-! ### Statements with blocks -/

section Blocks

variable {block : Parser (List Stmt)}

/-- Behind the name of a function there are its parameters and its body. -/
private theorem functionTail_recognises (h : Recognises n (language [.phrase .block]) block)
    (type : Ty)
    (name : String) :
    Recognises n
      (language [.token .openParen, .phrase .params, .token .closeParen, .phrase .block])
      (functionTail block type name) := by
  refine .mono (.bind (.expect _) fun _ => .bind parameters_recognises fun params =>
    .bind_one (.tell _) fun _ => .map h _) ?_
  rw [language_mul, language_mul]
  exact le_rfl

private theorem declaration_recognises (h : Recognises n (language [.phrase .block]) block) :
    Recognises (n + 1) (language [.phrase .statement]) (declaration block) := by
  refine .mono (L := language [.phrase .type] * (language [.identifier] *
    (language [.token .openParen, .phrase .params, .token .closeParen, .phrase .block] +
      (language [.token .assign, .phrase .expr] + 1) * language [.token .semicolon]))) ?_ ?_
  · refine .bind_succ .typeSpecifier (fun _ h => consumes_typeSpecifier h) fun type =>
      .bind .identifier fun x => .peek_bind fun o => ?_
    split
    · exact .mono (functionTail_recognises h type x.1) (le_add_right le_rfl)
    · exact .mono (.bind (variableTail_recognises type x.1 x.2) fun st => .map (.expect _) _)
        (le_add_left le_rfl)
  · rw [mul_add, mul_add]
    refine add_le ?_ ?_
    · rw [language_mul, language_mul]
      exact language_le_phrase (by simp [productions])
    · -- the declaration of a variable is a simple statement and a semicolon
      calc
        _ = language [.phrase .type] * (language [.identifier] *
              (language [.token .assign, .phrase .expr] + 1)) * language [.token .semicolon] := by
          simp only [mul_assoc]
        _ ≤ language [.phrase .simple] * language [.token .semicolon] := by
          gcongr
          exact variable_recognises
        _ ≤ _ := by
          rw [language_mul]
          exact language_le_phrase (by simp [productions])

private theorem ifStatement_recognises (h : Recognises n (language [.phrase .block]) block) :
    Recognises (n + 1) (language [.phrase .statement]) (ifStatement block) := by
  refine .mono (.bind_succ (.expect _) (fun _ h => consumes_expect _ h) fun _ =>
    .bind condition_recognises fun e => .bind h fun body => .skipIf_bind (.map h _) (.pure _)) ?_
  simp only [mul_add, mul_one, language_mul]
  exact add_le (language_le_phrase (by simp [productions]))
    (language_le_phrase (by simp [productions]))

private theorem whileStatement_recognises (h : Recognises n (language [.phrase .block]) block) :
    Recognises (n + 1) (language [.phrase .statement]) (whileStatement block) := by
  refine .mono (.bind_succ (.expect _) (fun _ h => consumes_expect _ h) fun _ =>
    .bind condition_recognises fun e => .map h _) ?_
  simp only [language_mul]
  exact language_le_phrase (by simp [productions])

private theorem forStatement_recognises (h : Recognises n (language [.phrase .block]) block) :
    Recognises (n + 1) (language [.phrase .statement]) (forStatement block) := by
  refine .mono (.bind_succ (.expect _) (fun _ h => consumes_expect _ h) fun _ =>
    .bind (.expect _) fun _ => .bind_one (.tell _) fun _ =>
    .bind simpleStatement_recognises fun init => .bind (.expect _) fun _ =>
    .bind expression_recognises fun e => .bind (.expect _) fun _ =>
    .bind simpleStatement_recognises fun step => .bind (.expect _) fun _ =>
    .then_one h fun body => .map (.tell _) _) ?_
  simp only [language_mul]
  exact language_le_phrase (by simp [productions])

/-- A statement of every kind is recognised, if blocks are. -/
private theorem statementOver_recognises (h : Recognises n (language [.phrase .block]) block) :
    Recognises (n + 1) (language [.phrase .statement]) (statementOver block) := by
  refine .peek_bind fun o => ?_
  split
  · exact declaration_recognises h
  · exact declaration_recognises h
  · refine .mono (.bind assignOrCall_recognises fun st => .map (.expect _) _) ?_
    rw [language_mul]
    exact language_le_phrase (by simp [productions])
  · exact returnStatement_recognises
  · exact ifStatement_recognises h
  · exact whileStatement_recognises h
  · exact forStatement_recognises h
  · exact .unexpected (exists_mem_language _)

end Blocks

/-! ### Bodies and programs -/

/-- Statements up to a closing brace are recognised. Each reads a token, so that the bound lasts. -/
private theorem untilBrace_recognises {statement : Parser Stmt}
    (h : Recognises n (language [.phrase .statement]) statement) (hpos : Consumes statement)
    (k : Nat) (hk : k ≤ n) :
    Recognises k (language [.phrase .statements, .token .closeBrace])
      (untilBrace statement k) := by
  induction k with
  | zero => exact .failAtEnd (exists_mem_language _)
  | succ k ih =>
    refine .mono (.skipIf_bind (.pure _) (.bind_succ (h.of_le hk) (fun _ h => hpos h) fun st =>
      .map (ih (by omega)) _)) ?_
    rw [mul_one, language_cons (.phrase .statements), ← mul_assoc]
    nth_rewrite 1 [← one_mul (language [.token .closeBrace])]
    rw [← add_mul]
    gcongr
    refine add_le ?_ ?_
    · rw [← language_nil]
      exact language_le_phrase (by simp [productions])
    · rw [language_mul]
      exact language_le_phrase (by simp [productions])

private theorem blockOf_recognises {statement : Parser Stmt}
    (h : Recognises n (language [.phrase .statement]) statement) (hpos : Consumes statement) :
    Recognises n (language [.phrase .block]) (blockOf statement) := by
  refine .mono (.bind (.expect _) fun _ => .bind_one (.tell _) fun _ =>
    .then_one (.bounded (exists_mem_language _) fun k hk => untilBrace_recognises h hpos k hk)
      fun ss => .map (.tell _) _) ?_
  rw [language_mul]
  exact language_le_phrase (by simp [productions])

/-- **Statements are recognised within every bound**, by induction on the bound. -/
private theorem statementWithin_recognises (n : Nat) :
    Recognises n (language [.phrase .statement]) (statementWithin n) := by
  induction n with
  | zero => exact .failAtEnd (exists_mem_language _)
  | succ n ih => exact statementOver_recognises (blockOf_recognises ih (consumes_statementWithin n))

/-- The statements up to the end are recognised. There may be none. -/
private theorem untilEnd_recognises (n : Nat) :
    Recognises n (language [.phrase .statements]) (untilEnd n) := by
  have hnil : (1 : Language Token) ≤ language [.phrase .statements] := by
    rw [← language_nil]
    exact language_le_phrase (by simp [productions])
  induction n with
  | zero => exact .mono (.pure []) hnil
  | succ n ih =>
    refine .peek_bind fun o => ?_
    split
    · exact .mono (.pure []) hnil
    · refine .mono (.bind_succ (.bounded (exists_mem_language _) fun k _ =>
        statementWithin_recognises k) (fun _ h => consumes_statementWithin _ h) fun st =>
        .map ih _) ?_
      rw [language_mul]
      exact language_le_phrase (by simp [productions])

/-- **The parser for programs recognises the grammar.** -/
theorem program_recognises : Recognises n (language [.phrase .program]) program := by
  refine .mono (.then_one (.bounded (exists_mem_language _) fun k _ => untilEnd_recognises k)
    fun body => .map (.tell _) _) ?_
  exact language_le_phrase (by simp [productions])

end Parser

end TinyImp
