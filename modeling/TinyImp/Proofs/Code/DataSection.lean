import Mathlib.Data.List.Induction
import TinyImp.Proofs.Checking.Balance
import TinyImp.Proofs.Checking.Leniency
import TinyImp.Proofs.Code.Names

/-!
# The data section

The data section of the listing names the variables that a program declares outside of all blocks,
each once and in the order of the first declarations. **These are the names in the outermost scope
of the symbol table** behind the program (`data_section_is_global_scope`). In a clean compilation
the code uses no other variable, but for the parameters of functions and the variables that are
declared within blocks and in the headers of `for` loops.
-/

namespace TinyImp

open Asm

/-! ### Declarations in order -/

namespace Program

/-- The index of the first statement of a program that declares a variable of the name. -/
def firstDeclaration (p : Program) (name : String) : Nat :=
  p.body.findIdx fun s => s.declared? = some name

/-- A statement behind those that declare a name does not change where it is declared first. -/
theorem firstDeclaration_append {body : List Stmt} {name : String}
    (h : ∃ s ∈ body, s.declared? = some name) (after : List Stmt) :
    firstDeclaration ⟨body ++ after⟩ name = firstDeclaration ⟨body⟩ name ∧
      firstDeclaration ⟨body⟩ name < body.length := by
  have hlt : body.findIdx (fun s => s.declared? = some name) < body.length :=
    List.findIdx_lt_length.mpr (by simpa using h)
  refine ⟨?_, hlt⟩
  rw [firstDeclaration, firstDeclaration, List.findIdx_append, if_pos hlt]

/-- A name is added behind the others where it is declared for the first time. -/
theorem dataNames_append_singleton (body : List Stmt) (s : Stmt) :
    (dataNames ⟨body ++ [s]⟩ = dataNames ⟨body⟩ ∧
        ∀ name, s.declared? = some name → name ∈ dataNames ⟨body⟩) ∨
      ∃ name, s.declared? = some name ∧ name ∉ dataNames ⟨body⟩ ∧
        dataNames ⟨body ++ [s]⟩ = dataNames ⟨body⟩ ++ [name] := by
  have hfold : dataNames ⟨body ++ [s]⟩ = s.declared?.toList.foldl
      (fun names name => if name ∈ names then names else names ++ [name]) (dataNames ⟨body⟩) := by
    rw [dataNames, List.filterMap_append, List.foldl_append, dataNames]
    cases s <;> rfl
  rw [hfold]
  cases s.declared? with
  | none => exact .inl ⟨rfl, by simp⟩
  | some name =>
    by_cases hin : name ∈ dataNames ⟨body⟩
    · exact .inl ⟨if_pos hin, by simpa using hin⟩
    · exact .inr ⟨name, rfl, hin, if_neg hin⟩

/-- A name that nothing in front declares is declared first by the last statement. -/
theorem firstDeclaration_last {body : List Stmt} {s : Stmt} {name : String}
    (h : ¬ ∃ t ∈ body, t.declared? = some name) (hs : s.declared? = some name) :
    firstDeclaration ⟨body ++ [s]⟩ name = body.length := by
  have hbody : body.findIdx (fun t => t.declared? = some name) = body.length :=
    List.findIdx_eq_length.mpr (by simpa using h)
  rw [firstDeclaration, List.findIdx_append, hbody, if_neg (Nat.lt_irrefl _)]
  simp [List.findIdx_cons, hs]

/-- The data section has the variables that the program itself declares. -/
theorem mem_dataNames_iff (p : Program) (name : String) :
    name ∈ p.dataNames ↔ ∃ s ∈ p.body, s.declared? = some name := by
  obtain ⟨body⟩ := p
  induction body using List.reverseRecOn with
  | nil => simp [dataNames]
  | append_singleton body s ih =>
    have hdeclared : (∃ t ∈ body ++ [s], t.declared? = some name) ↔
        name ∈ dataNames ⟨body⟩ ∨ s.declared? = some name := by
      rw [ih]
      simp only [List.mem_append, List.mem_singleton, or_and_right, exists_or, exists_eq_left]
    rw [hdeclared]
    obtain ⟨heq, hold⟩ | ⟨new, hs, -, heq⟩ := dataNames_append_singleton body s
    · rw [heq]
      exact ⟨.inl, fun h => h.elim id (hold name)⟩
    · rw [heq, hs, List.mem_append, List.mem_singleton, Option.some.injEq, eq_comm (a := new)]

/-- **The data section is in order** of the first declarations. -/
theorem pairwise_dataNames (p : Program) :
    p.dataNames.Pairwise fun x y => p.firstDeclaration x < p.firstDeclaration y := by
  obtain ⟨body⟩ := p
  induction body using List.reverseRecOn with
  | nil => exact .nil
  | append_singleton body s ih =>
    -- the names so far are declared first where they were
    have hkept : ∀ x ∈ dataNames ⟨body⟩,
        firstDeclaration ⟨body ++ [s]⟩ x = firstDeclaration ⟨body⟩ x ∧
          firstDeclaration ⟨body⟩ x < body.length :=
      fun x hx => firstDeclaration_append ((mem_dataNames_iff _ x).mp hx) [s]
    have hold : (dataNames ⟨body⟩).Pairwise fun x y =>
        firstDeclaration ⟨body ++ [s]⟩ x < firstDeclaration ⟨body ++ [s]⟩ y := by
      refine ih.imp_of_mem fun {x y} hx hy hlt => ?_
      rw [(hkept x hx).1, (hkept y hy).1]
      exact hlt
    obtain ⟨heq, -⟩ | ⟨new, hs, hnew, heq⟩ := dataNames_append_singleton body s
    · rw [heq]
      exact hold
    · rw [heq, List.pairwise_append]
      refine ⟨hold, List.pairwise_singleton _ _, fun x hx y hy => ?_⟩
      obtain rfl := List.mem_singleton.mp hy
      rw [(hkept x hx).1, firstDeclaration_last ((mem_dataNames_iff _ y).not.mp hnew) hs]
      exact (hkept x hx).2

end Program

/-! ### Names that a phrase introduces -/

namespace Stmt

/-- The parameters of a function. -/
def params : Stmt → List Param
  | .function _ _ params _ => params
  | _ => []

/-- The names that statements introduce: variables and parameters. -/
def introduced (ss : List Stmt) : List String :=
  ss.flatMap fun s => s.declared?.toList ++ s.params.map (·.name)

private theorem introduced_subset {ss others : List Stmt} (h : ss ⊆ others) :
    introduced ss ⊆ introduced others := fun _ hname => by
  obtain ⟨s, hs, hname⟩ := List.mem_flatMap.mp hname
  exact List.mem_flatMap.mpr ⟨s, h hs, hname⟩

end Stmt

/-- All statements of a phrase, at any depth. -/
def Phrase.nodes : Phrase → List Stmt
  | .statement s => s.nodes
  | .body ss => Stmt.nodesAll ss
  | .block ss => Stmt.nodesAll ss

namespace Context

variable {Γ : Context} {name : String}

/-- A new scope declares nothing but what it is entered with. -/
theorem Declares.of_enter {ds : List Param} (h : (Γ.enter ds).Declares name) :
    Γ.Declares name ∨ name ∈ ds.map (·.name) := by
  obtain ⟨scope, hscope, d, hd, rfl⟩ := h
  rcases List.mem_cons.mp hscope with rfl | hscope
  · exact .inr (List.mem_map_of_mem hd)
  · exact .inl ⟨scope, hscope, d, hd, rfl⟩

/-- What an extended context declares, it declared before or has been extended by. -/
private theorem Declares.of_extend {ds : List Param} {hs : List (String × List Param)}
    (h : (Γ.extend ds hs).Declares name) : Γ.Declares name ∨ name ∈ ds.map (·.name) := by
  obtain ⟨scope, hscope, d, hd, rfl⟩ := h
  rcases List.mem_cons.mp hscope with rfl | hscope
  · rcases List.mem_append.mp hd with hd | hd
    · exact .inl ⟨Γ.innermost, List.mem_cons_self, d, hd, rfl⟩
    · exact .inr (List.mem_map_of_mem hd)
  · exact .inl ⟨scope, List.mem_cons_of_mem _ hscope, d, hd, rfl⟩

end Context

/-- The variables in the code of an expression in scope are declared. -/
private theorem Expr.Scoped.declares {Γ : Context} {e : Expr} (h : e.Scoped Γ) {name : String}
    (hname : .data name ∈ e.mentioned) : Γ.Declares name := by
  induction e with
  | const value => simp [mentioned, nodes, ownOperands] at hname
  | var x type =>
    obtain rfl : name = x := by simpa [mentioned, nodes, ownOperands] using hname
    exact h
  | arith op type lhs rhs ihl ihr =>
    rw [mem_mentioned_arith] at hname
    rcases hname with ⟨-, hname⟩ | hname | hname
    · cases hname
    · exact ihl h.1 hname
    · exact ihr h.2 hname
  | compare op lhs rhs ihl ihr =>
    have hparts : .data name ∈ lhs.mentioned ∨ .data name ∈ rhs.mentioned := by
      simpa [mentioned, nodes, ownOperands] using hname
    rcases hparts with hname | hname
    · exact ihl h.1 hname
    · exact ihr h.2 hname

/-- What a statement declares is introduced in it. -/
private theorem Stmt.declarations_subset_introduced (s : Stmt) :
    s.declarations.map (·.name) ⊆ introduced s.nodes := by
  cases s <;> simp [declarations, introduced, nodes, declared?]

/-- What is declared behind a statement has been declared in front of it, or is introduced by it. -/
theorem Context.Declares.of_after {Γ : Context} {name : String} {s : Stmt}
    (h : (Γ.after (.statement s)).Declares name) :
    Γ.Declares name ∨ name ∈ Stmt.introduced s.nodes :=
  h.of_extend.imp_right fun hname => s.declarations_subset_introduced hname

/-- Every variable that the statements use is declared in the context, or is one of the names. -/
def Context.Explains (Γ : Context) (names : List String) (ss : List Stmt) : Prop :=
  ∀ name, .data name ∈ Stmt.mentioned ss → Γ.Declares name ∨ name ∈ names

namespace Context.Explains

variable {Γ Γ' : Context} {names : List String} {ss : List Stmt}

/-- The names in the code of statements are explained one statement after the other. -/
private theorem cons {s : Stmt}
    (hown : ∀ name, .data name ∈ s.ownOperands → Γ.Declares name ∨ name ∈ names)
    (hexpr : ∀ e ∈ s.expressions, e.Scoped Γ) (h : Γ.Explains names ss) :
    Γ.Explains names (s :: ss) := by
  intro name hname
  rcases Stmt.mem_mentioned_cons.mp hname with (hname | hname) | hname
  · exact hown name hname
  · obtain ⟨e, he, hname⟩ := List.mem_flatMap.mp hname
    exact .inl ((hexpr e he).declares hname)
  · exact h name hname

private theorem nil : Γ.Explains names [] := fun name hname => by simp at hname

private theorem append {others : List Stmt} (h : Γ.Explains names ss)
    (h' : Γ.Explains names others) :
    Γ.Explains names (ss ++ others) := by
  intro name hname
  rw [Stmt.mentioned_append, List.mem_append] at hname
  exact hname.elim (h name) (h' name)

/-- In an outer context more names may be needed. -/
theorem weaken {names' : List String} (h : Γ'.Explains names' ss)
    (hcontext : ∀ name, Γ'.Declares name → Γ.Declares name ∨ name ∈ names)
    (hnames : names' ⊆ names) : Γ.Explains names ss :=
  fun name hname => (h name hname).elim (hcontext name) fun hin => .inr (hnames hin)

end Context.Explains

/-- The parts of a `for` loop stand in contexts that grow from the initialization to the step, and
from there to the body. -/
theorem explains_forLoop {Γ Γ₁ Γ₂ : Context} {init step : Stmt} {e : Expr} {body : List Stmt}
    (hinit : (Γ.enter []).Explains (Stmt.introduced init.nodes) init.nodes)
    (hΓ₁ : Γ₁ = (Γ.enter []).after (.statement init)) (h : e.Scoped Γ₁)
    (hstep : Γ₁.Explains (Stmt.introduced step.nodes) step.nodes)
    (hΓ₂ : Γ₂ = Γ₁.after (.statement step))
    (hbody : Γ₂.Explains (Stmt.introduced (Stmt.nodesAll body)) (Stmt.nodesAll body)) :
    Γ.Explains (Stmt.introduced (Stmt.block [init, .loop e (body ++ [step])]).nodes)
      (Stmt.block [init, .loop e (body ++ [step])]).nodes := by
  have hnodes : (Stmt.block [init, .loop e (body ++ [step])]).nodes =
      .block [init, .loop e (body ++ [step])] :: (init.nodes ++
        ([.loop e (body ++ [step])] ++ (Stmt.nodesAll body ++ step.nodes))) := by
    simp [Stmt.nodes, Stmt.nodesAll, Stmt.nodesAll_append]
  rw [hnodes]
  generalize hall : Stmt.introduced (_ :: (init.nodes ++ (_ ++ (_ ++ step.nodes)))) = all
  have hinit' : Stmt.introduced init.nodes ⊆ all :=
    hall ▸ Stmt.introduced_subset fun s hs => by simp [hs]
  have hstep' : Stmt.introduced step.nodes ⊆ all :=
    hall ▸ Stmt.introduced_subset fun s hs => by simp [hs]
  have hbody' : Stmt.introduced (Stmt.nodesAll body) ⊆ all :=
    hall ▸ Stmt.introduced_subset fun s hs => by simp [hs]
  have hΓ : ∀ name, (Γ.enter []).Declares name → Γ.Declares name ∨ name ∈ all :=
    fun name hname => .inl (by simpa using hname.of_enter)
  have hΓ₁ : ∀ name, Γ₁.Declares name → Γ.Declares name ∨ name ∈ all := by
    subst hΓ₁
    exact fun name hname => hname.of_after.elim (hΓ name) fun hin => .inr (hinit' hin)
  have hΓ₂ : ∀ name, Γ₂.Declares name → Γ.Declares name ∨ name ∈ all := by
    subst hΓ₂
    exact fun name hname => hname.of_after.elim (hΓ₁ name) fun hin => .inr (hstep' hin)
  have hloop : Γ₁.Explains all [.loop e (body ++ [step])] :=
    .cons (by simp [Stmt.ownOperands]) (by simpa [Stmt.expressions] using h) .nil
  refine .cons (by simp [Stmt.ownOperands]) (by simp [Stmt.expressions]) ?_
  refine (hinit.weaken hΓ hinit').append ((hloop.weaken hΓ₁ (List.Subset.refl _)).append ?_)
  exact (hbody.weaken hΓ₂ hbody').append (hstep.weaken hΓ₁ hstep')

/-- **Variables have a declaration.** What a well-formed phrase uses is declared in front of it, or
introduced by one of its statements. -/
theorem WellFormed.explains {Γ : Context} {phrase : Phrase} (h : WellFormed Γ phrase) :
    Γ.Explains (Stmt.introduced phrase.nodes) phrase.nodes := by
  induction h with
  | declare => exact .cons (by simp [Stmt.ownOperands]) (by simp [Stmt.expressions]) .nil
  | declareAssign h =>
    refine .cons (fun name hname => .inr ?_) (by simpa [Stmt.expressions] using h) .nil
    obtain rfl : name = _ := by simpa [Stmt.ownOperands] using hname
    simp [Stmt.introduced, Stmt.declared?, Phrase.nodes, Stmt.nodes]
  | assign h htarget =>
    refine .cons (fun name hname => .inl ?_) (by simpa [Stmt.expressions] using h) .nil
    obtain rfl : name = _ := by simpa [Stmt.ownOperands] using hname
    exact htarget
  | call h => exact .cons (by simp [Stmt.ownOperands]) (by simpa [Stmt.expressions] using h) .nil
  | ret h => exact .cons (by simp [Stmt.ownOperands]) (by simpa [Stmt.expressions] using h) .nil
  | ifThen h _ ih =>
    refine .cons (by simp [Stmt.ownOperands]) (by simpa [Stmt.expressions] using h) ?_
    exact ih.weaken (fun _ => .inl) (Stmt.introduced_subset (List.subset_cons_self _ _))
  | ifElse h _ _ ih ih' =>
    refine .cons (by simp [Stmt.ownOperands]) (by simpa [Stmt.expressions] using h) (.append ?_ ?_)
    · exact ih.weaken (fun _ => .inl) (Stmt.introduced_subset (by simp [Phrase.nodes, Stmt.nodes]))
    · refine ih'.weaken (fun name hname => .inl ?_)
        (Stmt.introduced_subset (by simp [Phrase.nodes, Stmt.nodes]))
      -- the first block has left headers behind, but no declarations
      simpa using hname.of_extend
  | loop h _ ih =>
    refine .cons (by simp [Stmt.ownOperands]) (by simpa [Stmt.expressions] using h) ?_
    exact ih.weaken (fun _ => .inl) (Stmt.introduced_subset (List.subset_cons_self _ _))
  | forLoop _ hΓ₁ h _ hΓ₂ _ ihinit ihstep ihbody =>
    exact explains_forLoop ihinit hΓ₁ h ihstep hΓ₂ ihbody
  | @function Γ name type params body _ ih =>
    refine .cons (by simp [Stmt.ownOperands]) (by simp [Stmt.expressions]) ?_
    refine ih.weaken (fun x hx => ?_) (Stmt.introduced_subset (List.subset_cons_self _ _))
    rcases hx.of_enter with hx | hx
    · exact .inl (by simpa using hx.of_extend)
    · exact .inr (List.mem_flatMap.mpr ⟨_, List.mem_cons_self, List.mem_append_right _ hx⟩)
  | nil => exact .nil
  | @cons Γ s ss _ _ ih ih' =>
    have hfirst := Stmt.introduced_subset (List.subset_append_left s.nodes (Stmt.nodesAll ss))
    refine .append (ih.weaken (fun _ => .inl) hfirst) ?_
    refine ih'.weaken (fun name hname => ?_) (Stmt.introduced_subset (List.subset_append_right _ _))
    exact hname.of_after.imp_right (hfirst ·)
  | block _ ih =>
    exact ih.weaken (fun name hname => .inl (by simpa using hname.of_enter)) (List.Subset.refl _)

/-! ### Programs -/

/-- The statements inside a statement, at any depth. -/
def Stmt.inner (s : Stmt) : List Stmt :=
  s.nodes.tail

private theorem Stmt.nodes_eq_cons (s : Stmt) : s.nodes = s :: s.inner := by
  cases s <;> rfl

/-- A statement is among those listed, or inside of one of them. -/
theorem Stmt.mem_nodesAll_iff {t : Stmt} {ss : List Stmt} :
    t ∈ nodesAll ss ↔ t ∈ ss ∨ ∃ s ∈ ss, t ∈ s.inner := by
  induction ss with
  | nil => simp [nodesAll]
  | cons s rest ih =>
    rw [nodesAll, List.mem_append, ih, nodes_eq_cons]
    simp only [List.mem_cons, exists_eq_or_imp]
    tauto

/-- A variable in the code of a well-formed program is in the data section, or a parameter, or
declared further inside. -/
theorem Program.WellFormed.mem_data_or {p : Program} (h : p.WellFormed) {name : String}
    (hname : .data name ∈ operands p.assembly.text) :
    name ∈ p.assembly.data ∨ (∃ f ∈ p.statements, ∃ param ∈ f.params, param.name = name) ∨
      ∃ s ∈ p.body, ∃ t ∈ s.inner, t.declared? = some name := by
  have hmentioned : .data name ∈ Stmt.mentioned (Stmt.nodesAll p.body) :=
    (Stmt.mem_operands_codeAll rfl 0 0 p.body).mp hname
  rcases h.explains name hmentioned with ⟨scope, hscope, d, hd, -⟩ | hin
  · -- nothing is declared in front of a program
    obtain rfl : scope = [] := by simpa [Context.scopes] using hscope
    cases hd
  · obtain ⟨t, ht, hin⟩ := List.mem_flatMap.mp hin
    rcases List.mem_append.mp hin with hin | hin
    · have hdeclared : t.declared? = some name := by simpa using hin
      rcases Stmt.mem_nodesAll_iff.mp ht with htop | ⟨s, hs, hinner⟩
      · exact .inl ((p.mem_dataNames_iff name).mpr ⟨t, htop, hdeclared⟩)
      · exact .inr (.inr ⟨s, hs, t, hinner, hdeclared⟩)
    · obtain ⟨param, hparam, rfl⟩ := List.mem_map.mp hin
      exact .inr (.inl ⟨t, ht, param, hparam, rfl⟩)

/-- Behind a program only the outermost scope is open, and has the names that it declares. -/
theorem exists_finalSymbols_scopes {source : String} {options : Options} {p : Program}
    (hp : (compile source options).program = .ok p) :
    ∃ global, (finalSymbols source options).scopes = [global] ∧
      ∀ name, (global.lookup name).isSome = true ↔ ∃ s ∈ p.body, s.declared? = some name := by
  have hstart : (Checker.recordScan { options } (scan source)).symbols = {} := by
    rw [Checker.recordScan, Checker.foldl_record]
    rfl
  obtain ⟨-, hinnermost, henclosing, -⟩ := balances_parse (parse_of_compile hp)
  rw [hstart] at hinnermost henclosing
  refine ⟨_, congrArg₂ List.cons rfl (List.forall₂_nil_left_iff.mp henclosing), fun name => ?_⟩
  refine (hinnermost.names_iff name).trans ?_
  rw [List.mem_filterMap]
  simp

/-- **The data section is the outermost scope.** For every text that parses, the data section of
the listing has no name twice. Its names are those that statements of the program itself declare, in
the order of their first declarations, and they are the names in the only scope that is open behind
the program. If the compilation is clean, every other variable in the code is a parameter of a
function, or is declared by a statement inside another one. -/
theorem data_section_is_global_scope {source : String} {options : Options} {p : Program}
    (hp : (compile source options).program = .ok p) :
    ∃ a global, (compile source options).assembly = some a ∧
      (finalSymbols source options).scopes = [global] ∧
      a.data.Nodup ∧
      a.data.Pairwise (fun x y => p.firstDeclaration x < p.firstDeclaration y) ∧
      (∀ name, name ∈ a.data ↔ ∃ s ∈ p.body, s.declared? = some name) ∧
      (∀ name, name ∈ a.data ↔ (global.lookup name).isSome = true) ∧
      (options = {} → (compile source options).isClean = true →
        ∀ name, .data name ∈ operands a.text → name ∉ a.data →
          (∃ f ∈ p.statements, ∃ param ∈ f.params, param.name = name) ∨
            ∃ s ∈ p.body, ∃ t ∈ s.inner, t.declared? = some name) := by
  obtain ⟨global, hscopes, hglobal⟩ := exists_finalSymbols_scopes hp
  have horder := p.pairwise_dataNames
  refine ⟨p.assembly, global, assembly_compile_of_program hp, hscopes, ?_, horder,
    p.mem_dataNames_iff, fun name => (p.mem_dataNames_iff name).trans (hglobal name).symm, ?_⟩
  · refine horder.imp fun {x y} hlt heq => ?_
    rw [heq] at hlt
    exact Nat.lt_irrefl _ hlt
  · rintro rfl hclean name hname hdata
    exact ((wellFormed_of_isClean hp hclean).mem_data_or hname).resolve_left hdata

/-- A variable that is declared twice, and another one in a block. -/
def twoOfThree : String := "int y; int x; int y; if (x) \x7b int z = y; \x7d"

def twoOfThreeTokens : List Located :=
  [.kwInt, .identifier "y", .semicolon, .kwInt, .identifier "x", .semicolon, .kwInt,
    .identifier "y", .semicolon, .kwIf, .openParen, .identifier "x", .closeParen, .openBrace,
    .kwInt, .identifier "z", .assign, .identifier "y", .semicolon, .closeBrace].map fun w => ⟨w, 1⟩

def twoOfThreeProgram : Program :=
  ⟨[.declare "y" .int, .declare "x" .int, .declare "y" .int,
    .ifThen (.var "x" .int) [.declareAssign "z" .int (.var "y" .int)]]⟩

/-- The data section has the two names outside of the block; the third is in the code all the
same. -/
theorem twoOfThree_data :
    (compile twoOfThree {}).program = .ok twoOfThreeProgram ∧
      (compile twoOfThree {}).isClean = true ∧
      ∃ a, (compile twoOfThree {}).assembly = some a ∧ a.data = ["y", "x"] ∧ a.data.Nodup ∧
        .data "z" ∈ operands a.text ∧
        ((∃ f ∈ twoOfThreeProgram.statements, ∃ param ∈ f.params, param.name = "z") ∨
          ∃ s ∈ twoOfThreeProgram.body, ∃ t ∈ s.inner, t.declared? = some "z") := by
  have htokens : (scan twoOfThree).tokens = twoOfThreeTokens := by decide +kernel
  have hp : (compile twoOfThree {}).program = .ok twoOfThreeProgram := by
    rw [program_compile_of_scan htokens (by decide +kernel)]
    rfl
  have hclean : (compile twoOfThree {}).isClean = true := by decide +kernel
  obtain ⟨a, global, ha, -, hnodup, -, -, -, hlocal⟩ := data_section_is_global_scope hp
  obtain rfl : twoOfThreeProgram.assembly = a :=
    Option.some.inj ((assembly_compile_of_program hp).symm.trans ha)
  have hz : .data "z" ∈ operands twoOfThreeProgram.assembly.text := by decide
  exact ⟨hp, hclean, _, ha, rfl, hnodup, hz, hlocal rfl hclean "z" hz (by decide)⟩

end TinyImp
