import Mathlib.Computability.Language
import Mathlib.Order.CompletePartialOrder
import TinyImp.Proofs.Parsing.Grammar

/-!
# The languages of the grammar

The words that a list of symbols derives are a language, and the languages of the grammar are an
ordered algebra: symbols in a row are a product (`Grammar.language_mul`), and every production is an
inequality (`Grammar.language_le_phrase`). A list of tokens is a **viable prefix** of a language if
it can be continued to a word (`Grammar.Viable`).
-/

namespace TinyImp

namespace Grammar

/-! ### The languages of the grammar -/

/-- The words that a list of symbols derives, as a language. -/
def language (σ : List Symbol) : Language Token :=
  {ws | Derives σ ws}

private theorem mem_language {σ : List Symbol} {ws : List Token} : ws ∈ language σ ↔ Derives σ ws :=
  Iff.rfl

theorem language_nil : language [] = 1 := by
  ext ws
  rw [Language.mem_one, mem_language]
  constructor
  · rintro ⟨⟩
    rfl
  · rintro rfl
    exact .nil

theorem mem_language_token (w : Token) : [w] ∈ language [.token w] :=
  .token .nil

/-- A language that has the token on its own includes that of the token. -/
theorem language_token_le {L : Language Token} {w : Token} (h : [w] ∈ L) :
    language [.token w] ≤ L := by
  rintro _ ⟨⟩
  rename_i hnil
  cases hnil
  exact h

private theorem Derives.append {σ τ : List Symbol} {us vs : List Token} (h : Derives σ us)
    (h' : Derives τ vs) : Derives (σ ++ τ) (us ++ vs) := by
  induction h with
  | nil => exact h'
  | token _ ih => exact .token ih
  | identifier _ ih => exact .identifier ih
  | int _ ih => exact .int ih
  | float _ ih => exact .float ih
  | phrase hrhs h _ _ ih =>
    rw [List.append_assoc]
    exact .phrase hrhs h ih

private theorem Derives.of_append {σ τ : List Symbol} {ws : List Token} (h : Derives (σ ++ τ) ws) :
    ∃ us vs, ws = us ++ vs ∧ Derives σ us ∧ Derives τ vs := by
  induction σ generalizing ws with
  | nil => exact ⟨[], ws, rfl, .nil, h⟩
  | cons X σ ih =>
    cases h with
    | token h =>
      obtain ⟨us, vs, rfl, hus, hvs⟩ := ih h
      exact ⟨_ :: us, vs, rfl, .token hus, hvs⟩
    | identifier h =>
      obtain ⟨us, vs, rfl, hus, hvs⟩ := ih h
      exact ⟨_ :: us, vs, rfl, .identifier hus, hvs⟩
    | int h =>
      obtain ⟨us, vs, rfl, hus, hvs⟩ := ih h
      exact ⟨_ :: us, vs, rfl, .int hus, hvs⟩
    | float h =>
      obtain ⟨us, vs, rfl, hus, hvs⟩ := ih h
      exact ⟨_ :: us, vs, rfl, .float hus, hvs⟩
    | phrase hrhs h hrest =>
      obtain ⟨us, vs, rfl, hus, hvs⟩ := ih hrest
      exact ⟨_ ++ us, vs, (List.append_assoc ..).symm, .phrase hrhs h hus, hvs⟩

/-- Words in a row are the words of the symbols in a row. -/
theorem language_mul (σ τ : List Symbol) : language σ * language τ = language (σ ++ τ) := by
  ext ws
  constructor
  · rintro ⟨us, hus, vs, hvs, rfl⟩
    exact Derives.append hus hvs
  · intro h
    obtain ⟨us, vs, rfl, hus, hvs⟩ := Derives.of_append h
    exact ⟨us, hus, vs, hvs, rfl⟩

/-- The words along a list of symbols are put together from those of its first symbol and those of
the others. -/
theorem language_cons (X : Symbol) (σ : List Symbol) :
    language (X :: σ) = language [X] * language σ :=
  (language_mul [X] σ).symm

/-- The words of a right-hand side are words of the category. -/
theorem language_le_phrase {A : Category} {rhs : List Symbol} (h : rhs ∈ productions A) :
    language rhs ≤ language [.phrase A] := fun _ hws =>
  Derives.word h hws

/-- Every category has words. -/
theorem exists_word (A : Category) : ∃ ws, Word A ws := by
  have type : Word .type [.kwInt] := .word (by simp [productions]) (.token .nil)
  have expr : Word .expr [.intLit 0] := .word (by simp [productions]) (.int .nil)
  have param : Word .param [.kwInt, .identifier ""] :=
    .word (by simp [productions]) (.cons type (.identifier .nil))
  have simple : Word .simple [.kwInt, .identifier ""] :=
    .word (by simp [productions]) (.cons type (.identifier .nil))
  have statements : Word .statements [] := .word (by simp [productions]) .nil
  cases A with
  | program => exact ⟨_, .word (by simp [productions]) statements⟩
  | block =>
    exact ⟨[.openBrace, .closeBrace],
      .word (by simp [productions]) (.token (.cons statements (.token .nil)))⟩
  | statements => exact ⟨_, statements⟩
  | statement =>
    exact ⟨[.kwInt, .identifier "", .semicolon],
      .word (by simp [productions]) (.cons simple (.token .nil))⟩
  | simple => exact ⟨_, simple⟩
  | params => exact ⟨_, .word (by simp [productions]) .nil⟩
  | paramList => exact ⟨_, .word (by simp [productions]) param⟩
  | param => exact ⟨_, param⟩
  | args => exact ⟨_, .word (by simp [productions]) .nil⟩
  | argList => exact ⟨_, .word (by simp [productions]) expr⟩
  | expr => exact ⟨_, expr⟩
  | type => exact ⟨_, type⟩
  | operator => exact ⟨[.plus], .word (by simp [productions]) (.token .nil)⟩

/-- Every list of symbols has a word. So whatever has been read so far can be gone on with. -/
theorem exists_mem_language (σ : List Symbol) : ∃ ws, ws ∈ language σ := by
  induction σ with
  | nil => exact ⟨[], .nil⟩
  | cons X σ ih =>
    obtain ⟨ws, hws⟩ := ih
    cases X with
    | token w => exact ⟨w :: ws, .token hws⟩
    | identifier => exact ⟨.identifier "" :: ws, .identifier hws⟩
    | number => exact ⟨.intLit 0 :: ws, .int hws⟩
    | phrase A =>
      obtain ⟨us, hus⟩ := exists_word A
      exact ⟨us ++ ws, .cons hus hws⟩

/-! ### Viable prefixes -/

/-- Some continuation makes the tokens a word of the language. -/
def Viable (L : Language Token) (ws : List Token) : Prop :=
  ∃ vs, ws ++ vs ∈ L

namespace Viable

variable {L L' : Language Token} {us vs : List Token}

/-- A beginning of a word is one in every larger language. -/
theorem mono (h : Viable L us) (hL : L ≤ L') : Viable L' us := by
  obtain ⟨vs, hvs⟩ := h
  exact ⟨vs, hL hvs⟩

/-- A word is a beginning of itself. -/
theorem of_mem (h : us ∈ L) : Viable L us :=
  ⟨[], by rwa [List.append_nil]⟩

theorem nil (h : ∃ ws, ws ∈ L) : Viable L [] := h

/-- A prefix of the first factor, which the second factor completes. -/
theorem mul_right (h : Viable L us) (h' : ∃ ws, ws ∈ L') : Viable (L * L') us := by
  obtain ⟨vs, hvs⟩ := h
  obtain ⟨ws, hws⟩ := h'
  exact ⟨vs ++ ws, (List.append_assoc ..) ▸ Language.append_mem_mul hvs hws⟩

/-- A word of the first factor and a prefix of the second. -/
theorem append (h : us ∈ L) (h' : Viable L' vs) : Viable (L * L') (us ++ vs) := by
  obtain ⟨ws, hws⟩ := h'
  exact ⟨ws, (List.append_assoc ..).symm ▸ Language.append_mem_mul h hws⟩

end Viable

end Grammar

end TinyImp
