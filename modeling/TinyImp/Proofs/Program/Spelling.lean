import TinyImp.Proofs.Code.Names
import TinyImp.Proofs.Number.ReadBack

/-!
# The spelling of programs

What of a program is written as it is in its tree and in its listing: the identifiers and the
constants, wherever they stand in it. A property of all of them holds of the identifiers and
constants of each part (`Stmt.Spelled`).
-/

namespace TinyImp

/-! ### Identifiers and constants -/

/-- The value of a constant. -/
def Expr.constant? : Expr → Option Const
  | .const value => some value
  | _ => none

/-- The identifiers in the statement itself, outside of its expressions and blocks. -/
def Stmt.ownNames : Stmt → List String
  | .declare name _ => [name]
  | .declareAssign name _ _ => [name]
  | .assign name _ => [name]
  | .function name _ params _ => name :: params.map (·.name)
  | .call name _ => [name]
  | _ => []

namespace Program

/-- All identifiers of a program. -/
def identifiers (p : Program) : List String :=
  p.statements.flatMap Stmt.ownNames ++ (Stmt.exprNodes p.statements).filterMap Expr.readName?

/-- All constants of a program. -/
def constants (p : Program) : List Const :=
  (Stmt.exprNodes p.statements).filterMap Expr.constant?

end Program

section

variable (P : String → Prop) (Q : Const → Prop)

/-- The variables of an expression have one property, and its constants another. -/
def Expr.Spelled (e : Expr) : Prop :=
  (∀ name ∈ e.nodes.filterMap readName?, P name) ∧
    ∀ value ∈ e.nodes.filterMap constant?, Q value

/-- The identifiers in statements and their expressions have one property, and the constants
another. Statements inside of these are not looked at. -/
def Stmt.Spelled (ss : List Stmt) : Prop :=
  ∀ s ∈ ss, (∀ name ∈ s.ownNames, P name) ∧ ∀ e ∈ s.expressions, e.Spelled P Q

end

variable {P : String → Prop} {Q : Const → Prop}

namespace Expr

@[simp]
theorem spelled_const {value : Const} : (Expr.const value).Spelled P Q ↔ Q value := by
  simp [Spelled, nodes, readName?, constant?]

@[simp]
theorem spelled_var {name : String} {type : Ty} : (Expr.var name type).Spelled P Q ↔ P name := by
  simp [Spelled, nodes, readName?, constant?]

/-- An operation is spelled so exactly if both of its sides are. -/
@[simp]
theorem spelled_arith {op : ArithOp} {type : Ty} {lhs rhs : Expr} :
    (Expr.arith op type lhs rhs).Spelled P Q ↔ lhs.Spelled P Q ∧ rhs.Spelled P Q := by
  simp only [Spelled, nodes, List.filterMap_cons, readName?, constant?, List.filterMap_append,
    List.forall_mem_append]
  tauto

/-- A comparison is spelled so exactly if both of its sides are. -/
@[simp]
theorem spelled_compare {op : CompareOp} {lhs rhs : Expr} :
    (Expr.compare op lhs rhs).Spelled P Q ↔ lhs.Spelled P Q ∧ rhs.Spelled P Q := by
  simp only [Spelled, nodes, List.filterMap_cons, readName?, constant?, List.filterMap_append,
    List.forall_mem_append]
  tauto

end Expr

namespace Stmt

/-- Statements are spelled so exactly if the first is and the others are. -/
theorem spelled_cons {s : Stmt} {rest : List Stmt} :
    Spelled P Q (s :: rest) ↔ ((∀ name ∈ s.ownNames, P name) ∧
      ∀ e ∈ s.expressions, e.Spelled P Q) ∧ Spelled P Q rest :=
  List.forall_mem_cons

theorem spelled_append {first second : List Stmt} :
    Spelled P Q (first ++ second) ↔ Spelled P Q first ∧ Spelled P Q second :=
  List.forall_mem_append

end Stmt

/-- A property of all identifiers and constants of a program holds in each of its statements. -/
theorem Program.spelled_statements {p : Program} (hnames : ∀ name ∈ p.identifiers, P name)
    (hconstants : ∀ value ∈ p.constants, Q value) : Stmt.Spelled P Q p.statements := by
  have hnode {s : Stmt} (hs : s ∈ p.statements) {e n : Expr} (he : e ∈ s.expressions)
      (hn : n ∈ e.nodes) : n ∈ Stmt.exprNodes p.statements :=
    List.mem_flatMap.mpr ⟨s, hs, List.mem_flatMap.mpr ⟨e, he, hn⟩⟩
  refine fun s hs => ⟨fun name hname => hnames name (List.mem_append_left _ ?_), fun e he => ?_⟩
  · exact List.mem_flatMap.mpr ⟨s, hs, hname⟩
  · refine ⟨fun name hname => hnames name (List.mem_append_right _ ?_), fun value hvalue =>
      hconstants value ?_⟩
    · obtain ⟨n, hn, hname⟩ := List.mem_filterMap.mp hname
      exact List.mem_filterMap.mpr ⟨n, hnode hs he hn, hname⟩
    · obtain ⟨n, hn, hvalue⟩ := List.mem_filterMap.mp hvalue
      exact List.mem_filterMap.mpr ⟨n, hnode hs he hn, hvalue⟩

/-! ### Characters of identifiers -/

/-- The characters of an identifier. -/
theorem isWordPart_of_mem_word {w : List Char} (h : w ∈ Lexical.word) :
    ∀ c ∈ w, Lexeme.isWordPart c := by
  obtain ⟨c, rest, rfl, hc, hrest⟩ := Lexical.mem_word.mp h
  exact List.forall_mem_cons.mpr ⟨Lexical.isWordPart_iff.mpr (.inl hc), hrest⟩

/-- A character that is no part of words is in none. -/
theorem notMem_of_mem_word {w : List Char} (h : w ∈ Lexical.word) {c : Char}
    (hc : Lexeme.isWordPart c = false) : c ∉ w := fun hmem => by
  rw [isWordPart_of_mem_word h c hmem] at hc
  cases hc

end TinyImp
