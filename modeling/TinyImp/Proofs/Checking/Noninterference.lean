import TinyImp.Compilation
import TinyImp.Proofs.Parsing.CorrectPrefix

/-!
# What syntax and code do not depend on

The parser asks the checker for a type at every variable and keeps the answer in the tree, and it
knows the line of every token. Nothing of this decides anything: over tokens of the same kinds, two
parses with checkers in any two states **go the same way**. Either both fail, for the same cause, or
both succeed, with trees that differ in their types only (`parse_ok_of_words`,
`parse_error_of_words`). The code of a program does not look at the types of its tree either
(`Program.assembly_erase`), so that the two programs have the same code.
-/

namespace TinyImp

open Asm
open Grammar (words)

/-! ### Code without types -/

namespace Expr

/-- Types take no registers. -/
@[simp]
theorem registers_erase (e : Expr) : e.erase.registers = e.registers := by
  induction e with
  | const value => rfl
  | var name type => rfl
  | arith op type lhs rhs ihl ihr => simp [erase, registers, ihl, ihr]
  | compare op lhs rhs ihl ihr => simp [erase, registers, ihl, ihr]

@[simp]
theorem operand_erase (reg : Nat) (e : Expr) : e.erase.operand reg = e.operand reg := by
  induction e with
  | const value => rfl
  | var name type => rfl
  | arith op type lhs rhs ihl ihr => simp [erase, operand]
  | compare op lhs rhs ihl ihr => simp [erase, operand, ihl]

/-- **The code of an expression does not depend on types.** -/
@[simp]
theorem code_erase (reg : Nat) (e : Expr) : e.erase.code reg = e.code reg := by
  induction e generalizing reg with
  | const value => rfl
  | var name type => rfl
  | arith op type lhs rhs ihl ihr => simp [erase, code, operand, ihl, ihr]
  | compare op lhs rhs ihl ihr => simp [erase, code, ihl, ihr]

/-- Neither does that of a condition. -/
@[simp]
theorem conditionCode_erase (reg : Nat) (e : Expr) (ifZero : String) :
    e.erase.conditionCode reg ifZero = e.conditionCode reg ifZero := by
  simp [conditionCode]

end Expr

namespace Args

@[simp]
theorem registers_map_erase (args : List Expr) :
    registers (args.map Expr.erase) = registers args := by
  induction args with
  | nil => rfl
  | cons e rest ih => simp [registers, ih]

private theorem code_map_erase (reg : Nat) (args : List Expr) :
    code reg (args.map Expr.erase) = code reg args := by
  induction args generalizing reg with
  | nil => rfl
  | cons e rest ih => simp [code, ih]

private theorem operands_map_erase (reg : Nat) (args : List Expr) :
    operands reg (args.map Expr.erase) = operands reg args := by
  induction args generalizing reg with
  | nil => rfl
  | cons e rest ih => simp [operands, ih]

/-- Neither does that of a call. -/
@[simp]
theorem callCode_map_erase (reg : Nat) (name : String) (args : List Expr) :
    callCode reg name (args.map Expr.erase) = callCode reg name args := by
  simp [callCode, code_map_erase, operands_map_erase]

end Args

namespace Stmt

mutual

private theorem registers_erase : (s : Stmt) → s.erase.registers = s.registers
  | .declare _ _ => rfl
  | .declareAssign _ _ init => init.registers_erase
  | .assign _ value => value.registers_erase
  | .ifThen _ body | .loop _ body => by simp [erase, registers, registersAll_eraseAll body]
  | .ifElse _ body otherwise => by
    simp [erase, registers, registersAll_eraseAll body, registersAll_eraseAll otherwise]
  | .block body => registersAll_eraseAll body
  | .function _ _ _ body => registersAll_eraseAll body
  | .call _ args => Args.registers_map_erase args
  | .ret value => value.registers_erase

/-- Statements take the same registers without their types. -/
theorem registersAll_eraseAll : (ss : List Stmt) → registersAll (eraseAll ss) = registersAll ss
  | [] => rfl
  | s :: rest => by
    simp [eraseAll, registersAll, registers_erase s, registersAll_eraseAll rest]

end

mutual

private theorem labels_erase : (s : Stmt) → s.erase.labels = s.labels
  | .declare _ _ | .declareAssign _ _ _ | .assign _ _ | .call _ _ | .ret _ => rfl
  | .ifThen _ body | .loop _ body => by simp [erase, labels, labelsAll_eraseAll body]
  | .ifElse _ body otherwise => by
    simp [erase, labels, labelsAll_eraseAll body, labelsAll_eraseAll otherwise]
  | .block body => labelsAll_eraseAll body
  | .function _ _ _ body => labelsAll_eraseAll body

/-- Statements take the same labels without their types. -/
theorem labelsAll_eraseAll : (ss : List Stmt) → labelsAll (eraseAll ss) = labelsAll ss
  | [] => rfl
  | s :: rest => by simp [eraseAll, labelsAll, labels_erase s, labelsAll_eraseAll rest]

end

mutual

/-- The code of a statement does not look at the types in it. -/
theorem code_erase (reg label : Nat) : (s : Stmt) → s.erase.code reg label = s.code reg label
  | .declare _ _ => rfl
  | .declareAssign _ _ _ | .assign _ _ | .ret _ => by simp [erase, code]
  | .ifThen _ body | .loop _ body => by
    simp [erase, code, codeAll_eraseAll _ _ body]
  | .ifElse _ body otherwise => by
    simp [erase, code, codeAll_eraseAll _ _ body, codeAll_eraseAll _ _ otherwise,
      registersAll_eraseAll, labelsAll_eraseAll]
  | .block body => codeAll_eraseAll reg label body
  | .function _ _ _ body => by simp [erase, code, codeAll_eraseAll _ _ body]
  | .call name args => Args.callCode_map_erase reg name args

/-- **The code of statements does not depend on types.** -/
theorem codeAll_eraseAll (reg label : Nat) : (ss : List Stmt) →
    codeAll reg label (eraseAll ss) = codeAll reg label ss
  | [] => rfl
  | s :: rest => by
    simp [eraseAll, codeAll, code_erase reg label s, registers_erase, labels_erase,
      codeAll_eraseAll _ _ rest]

end

private theorem declared?_erase (s : Stmt) : s.erase.declared? = s.declared? := by
  cases s <;> rfl

private theorem filterMap_declared?_eraseAll (ss : List Stmt) :
    (eraseAll ss).filterMap declared? = ss.filterMap declared? := by
  induction ss with
  | nil => rfl
  | cons s rest ih => simp [eraseAll, List.filterMap_cons, declared?_erase, ih]

end Stmt

/-- **Types leave no trace in the code.** -/
theorem Program.assembly_erase (p : Program) : p.erase.assembly = p.assembly := by
  simp [assembly, erase, dataNames, Stmt.filterMap_declared?_eraseAll, Stmt.codeAll_eraseAll]

/-- Trees that differ in their types only have the same code. -/
theorem Program.assembly_congr {p q : Program} (h : q.erase = p.erase) :
    q.assembly = p.assembly := by
  rw [← q.assembly_erase, h, p.assembly_erase]

/-! ### Two parses -/

section TwoParses

variable {ts us : List Located} {c c' : Checker}

private theorem parse_eq_ok {p : Program} (h : parse ts c = (.ok p, c')) :
    ∃ s, Parser.program ⟨ts, 1, c⟩ = .ok p s := by
  unfold parse at h
  split at h
  · rename_i hrun
    cases h
    exact ⟨_, hrun⟩
  · cases h

/-- What is read from tokens of the same kinds leaves tokens of the same kinds. -/
theorem exists_reads_of_words (hwords : words us = words ts) {read : List Located} {s : ParseState}
    (hread : (ParseState.mk ts 1 c).Reads read s) (d : Checker) :
    ∃ read' s', (ParseState.mk us 1 d).Reads read' s' ∧ words read' = words read ∧
      words s'.unread = words s.unread := by
  have hts : ts = read ++ s.unread := hread.unread_eq
  rw [hts, words, words, List.map_append] at hwords
  obtain ⟨read', rest', rfl, hread', hrest'⟩ := List.map_eq_append_iff.mp hwords
  exact ⟨read', ⟨rest', lineAfter 1 read', d⟩, ⟨rfl, rfl⟩, hread', hrest'⟩

/-- A parse that succeeds does so over all tokens of these kinds and with every checker, and the
trees differ in their types only. -/
theorem parse_ok_of_words (hwords : words us = words ts) {p : Program}
    (h : parse ts c = (.ok p, c')) (d : Checker) :
    ∃ q d', parse us d = (.ok q, d') ∧ q.erase = p.erase := by
  obtain ⟨s, hrun⟩ := parse_eq_ok h
  have hrepeats : Parser.Repeats ts.length us.length Program.erase Parser.program Parser.program :=
    Parser.program_repeats
  obtain ⟨read, hread, hrep⟩ := hrepeats.ok (Nat.le_refl _) hrun
  obtain ⟨read', s', hread', hw, hrest⟩ := exists_reads_of_words hwords hread d
  have hnext : next? s'.unread = next? s.unread := by
    simpa [next?, words] using congrArg List.head? hrest
  obtain ⟨q, d', hrun', herase⟩ := hrep hread' hw hnext (Nat.le_refl _)
  exact ⟨q, d', by rw [parse, hrun'], herase⟩

/-- A parse that fails does so over all tokens of these kinds and with every checker, for the same
cause. -/
theorem parse_error_of_words (hwords : words us = words ts) {e : ParseError}
    (h : parse ts c = (.error e, c')) (d : Checker) :
    ∃ e' d', parse us d = (.error e', d') ∧ e'.cause = e.cause := by
  obtain ⟨s, hrun⟩ := parse_eq_error h
  have hrepeats : Parser.Repeats ts.length us.length Program.erase Parser.program Parser.program :=
    Parser.program_repeats
  obtain ⟨read, hread, -, hend, -, hrep⟩ := hrepeats.error (Nat.le_refl _) hrun
  obtain ⟨read', s', hread', hw, hrest⟩ := exists_reads_of_words hwords hread d
  have hend' : e.cause = .unexpectedEnd → s'.unread = [] := fun hcause => by
    simpa [hend hcause] using hrest
  obtain ⟨s₂, hrun'⟩ := hrep hread' hw hend' (Nat.le_refl _)
  exact ⟨⟨e.cause, s'.lastLine⟩, s₂.checker, by rw [parse, hrun'], rfl⟩

end TwoParses

/-- **Neither syntax nor code depends on types, lines, options or the state of the checker.** Two
parses over tokens of the same kinds both fail for the same cause, or give trees that differ in
their types only and have the same code. So two texts with tokens of the same kinds, compiled with
any options, both fail for the same cause or have the same code. -/
theorem syntax_and_code_depend_on_words_only :
    (∀ (ts us : List Located) (c d : Checker), words us = words ts →
      (∃ e e', (parse ts c).1 = .error e ∧ (parse us d).1 = .error e' ∧ e'.cause = e.cause) ∨
      ∃ p q, (parse ts c).1 = .ok p ∧ (parse us d).1 = .ok q ∧ q.erase = p.erase ∧
        q.assembly = p.assembly) ∧
    ∀ (source source' : String) (options options' : Options),
      words (scan source').tokens = words (scan source).tokens →
      (∃ e e', (compile source options).program = .error e ∧
        (compile source' options').program = .error e' ∧ e'.cause = e.cause) ∨
      ∃ a, (compile source options).assembly = some a ∧
        (compile source' options').assembly = some a := by
  have hparse : ∀ (ts us : List Located) (c d : Checker), words us = words ts →
      (∃ e e', (parse ts c).1 = .error e ∧ (parse us d).1 = .error e' ∧ e'.cause = e.cause) ∨
      ∃ p q, (parse ts c).1 = .ok p ∧ (parse us d).1 = .ok q ∧ q.erase = p.erase ∧
        q.assembly = p.assembly := by
    intro ts us c d hwords
    cases hrun : parse ts c with
    | mk result c' =>
      cases result with
      | error e =>
        obtain ⟨e', d', hrun', hcause⟩ := parse_error_of_words hwords hrun d
        exact .inl ⟨e, e', rfl, by rw [hrun'], hcause⟩
      | ok p =>
        obtain ⟨q, d', hrun', herase⟩ := parse_ok_of_words hwords hrun d
        exact .inr ⟨p, q, rfl, by rw [hrun'], herase, Program.assembly_congr herase⟩
  refine ⟨hparse, fun source source' options options' hwords => ?_⟩
  rw [assembly_compile, assembly_compile, program_compile, program_compile]
  obtain hfail | ⟨p, q, hp, hq, -, hcode⟩ := hparse (scan source).tokens (scan source').tokens
    (Checker.recordScan { options } (scan source))
    (Checker.recordScan { options := options' } (scan source')) hwords
  · exact .inl hfail
  · refine .inr ⟨p.assembly, ?_, ?_⟩
    · rw [hp]
      rfl
    · rw [hq, ← hcode]
      rfl

/-- A copy of a variable, on one line. -/
def variableCopy : String := "y = x;"

/-- The same tokens, each on a line of its own. -/
def variableCopySpread : String := "y\n=\nx\n;"

/-- Whether `x` is unknown or a `float`, the copy is parsed alike; whatever the lines and the
options are, it has the same code. -/
theorem variableCopy_sameCode :
    words (scan variableCopySpread).tokens = words (scan variableCopy).tokens ∧
    (∃ p q, (parse (scan variableCopy).tokens {}).1 = .ok p ∧
      (parse (scan variableCopySpread).tokens (Checker.declare {} "x" .float)).1 = .ok q ∧
      q.erase = p.erase ∧ q.assembly = p.assembly) ∧
    ∃ a, (compile variableCopy {}).assembly = some a ∧
      (compile variableCopySpread { assumeIntParams := true }).assembly = some a := by
  have hwords : words (scan variableCopySpread).tokens = words (scan variableCopy).tokens := by
    decide +kernel
  have hparse : (parse (scan variableCopy).tokens {}).1.isOk = true := by decide +kernel
  have hcompile : (compile variableCopy {}).program.isOk = true := by decide +kernel
  obtain ⟨htokens, hsources⟩ := syntax_and_code_depend_on_words_only
  refine ⟨hwords, (htokens _ _ {} (Checker.declare {} "x" .float) hwords).resolve_left ?_,
    (hsources _ _ {} { assumeIntParams := true } hwords).resolve_left ?_⟩
  · rintro ⟨e, e', he, -⟩
    rw [he] at hparse
    cases hparse
  · rintro ⟨e, e', he, -⟩
    rw [he] at hcompile
    cases hcompile

end TinyImp
