import TinyImp.Proofs.Checking.WellFormed
import TinyImp.Proofs.Code.Nodes
import TinyImp.Proofs.Execution.Evaluation

/-!
# Calls in the code

The code of a call evaluates the arguments, pushes them, calls, and takes them off the stack again.
A program has one **call site** for each of its calls (`Program.callSites`), and its code consists
of the codes of these calls and of lines that have nothing to do with the stack (`CallsAt`).

A site also knows which function headers stand in front of the call in the source. That is not the
order of the code where a `for` loop is concerned: the step is written in front of the body, and its
code stands behind it.
-/

namespace TinyImp

open Asm

/-! ### Spots in the code -/

/-- Where a statement stands: the first free register and label, its first line in the code, and
the function headers in front of it in the source, first to last. -/
structure Spot where
  reg : Nat := 0
  label : Nat := 0
  line : Nat := 0
  headers : List (String × List Param) := []

namespace Spot

/-- Further on in the code. -/
def skip (spot : Spot) (registers labels lines : Nat) : Spot :=
  { spot with
    reg := spot.reg + registers
    label := spot.label + labels
    line := spot.line + lines }

/-- The same spot in the code, with other headers in front. -/
def under (spot : Spot) (headers : List (String × List Param)) : Spot :=
  { spot with headers }

/-- The spot behind a statement. -/
def after (spot : Spot) (s : Stmt) : Spot where
  reg := spot.reg + s.registers
  label := spot.label + s.labels
  line := spot.line + (s.code spot.reg spot.label).length
  headers := spot.headers ++ s.headers

/-- The spot behind several statements. -/
def afterAll (spot : Spot) (ss : List Stmt) : Spot where
  reg := spot.reg + Stmt.registersAll ss
  label := spot.label + Stmt.labelsAll ss
  line := spot.line + (Stmt.codeAll spot.reg spot.label ss).length
  headers := spot.headers ++ Stmt.headersAll ss

end Spot

/-! ### Call sites -/

/-- A call of a program, and where it stands. -/
structure CallSite where
  spot : Spot
  name : String
  args : List Expr

namespace CallSite

variable (site : CallSite)

/-- The lines that evaluate the arguments. -/
def evaluation : List Instr :=
  Args.code site.spot.reg site.args

/-- The lines that push the arguments, first to last. -/
def pushes : List Instr :=
  (Args.operands site.spot.reg site.args).mapIdx fun i src => .push src i

/-- The lines from the first push on. -/
def protocol : List Instr :=
  site.pushes ++ [.call site.name, .freeStack (4 * site.args.length)]

/-- The first line of the protocol. -/
def first : Nat :=
  site.spot.line + site.evaluation.length

/-- The line with the call itself. -/
def line : Nat :=
  site.first + site.args.length

end CallSite

mutual

/-- The calls in a statement, in the order of the code. A block is a `for` loop, and the last
statement of the loop in it is the step, which the source has in front of the body. -/
def Stmt.callSites (spot : Spot) (inBlock : Bool) : Stmt → List CallSite
  | .ifThen e body =>
    let condition := e.conditionCode spot.reg (labelName spot.label)
    Stmt.callSitesAll (spot.skip e.registers 1 condition.length) none false body
  | .ifElse e body otherwise =>
    let condition := e.conditionCode spot.reg (labelName spot.label)
    let inner := spot.skip e.registers 2 condition.length
    Stmt.callSitesAll inner none false body ++
      Stmt.callSitesAll ((inner.afterAll body).skip 0 0 2) none false otherwise
  | .loop e body =>
    let condition := e.conditionCode spot.reg (labelName (spot.label + 1))
    let step? := if inBlock then some spot.headers else none
    Stmt.callSitesAll (spot.skip e.registers 2 (condition.length + 1)) step? false body
  | .block body => Stmt.callSitesAll spot none true body
  | .function name _ params body =>
    Stmt.callSitesAll ((spot.skip 0 0 2).under (spot.headers ++ [(name, params)])) none false body
  | .call name args => [⟨spot, name, args⟩]
  | _ => []

/-- The calls in several statements. The last of them may be a step, with its own headers in
front. -/
def Stmt.callSitesAll (spot : Spot) (step? : Option (List (String × List Param)))
    (inBlock : Bool) : List Stmt → List CallSite
  | [] => []
  | s :: rest =>
    let headers := if rest.isEmpty then step?.getD spot.headers else spot.headers
    s.callSites (spot.under headers) inBlock ++
      Stmt.callSitesAll (spot.after s) step? inBlock rest

end

/-- The calls of a program, in the order of the code. -/
def Program.callSites (p : Program) : List CallSite :=
  Stmt.callSitesAll {} none false p.body

/-- The name and the arguments of a call. -/
def Stmt.call? : Stmt → Option (String × List Expr)
  | .call name args => some (name, args)
  | _ => none

mutual

/-- Every call of a statement has its site. -/
theorem Stmt.map_callSites (spot : Spot) (inBlock : Bool) : (s : Stmt) →
    (s.callSites spot inBlock).map (fun site => (site.name, site.args)) = s.nodes.filterMap call?
  | .declare _ _ | .declareAssign _ _ _ | .assign _ _ | .call _ _ | .ret _ => rfl
  | .ifThen _ body => Stmt.map_callSitesAll _ _ _ body
  | .ifElse _ body otherwise => by
    rw [callSites, List.map_append, map_callSitesAll _ _ _ body, map_callSitesAll _ _ _ otherwise,
      nodes, List.filterMap_cons_none rfl, List.filterMap_append]
  | .loop _ body => Stmt.map_callSitesAll _ _ _ body
  | .block body => Stmt.map_callSitesAll _ _ _ body
  | .function _ _ _ body => Stmt.map_callSitesAll _ _ _ body

/-- **Every call has a site**, and the sites are in the order of the calls. -/
theorem Stmt.map_callSitesAll (spot : Spot) (step? : Option (List (String × List Param)))
    (inBlock : Bool) : (ss : List Stmt) →
    (callSitesAll spot step? inBlock ss).map (fun site => (site.name, site.args)) =
      (nodesAll ss).filterMap call?
  | [] => rfl
  | s :: rest => by
    rw [callSitesAll, List.map_append, Stmt.map_callSites _ _ s, Stmt.map_callSitesAll _ _ _ rest,
      nodesAll, List.filterMap_append]

end

/-! ### The code of calls -/

namespace Asm

/-- The instruction is part of a call: it works on the stack, or calls. -/
def Instr.usesStack : Instr → Bool
  | .push _ _ => true
  | .call _ => true
  | .freeStack _ => true
  | _ => false

end Asm

/-- The code of expressions does not touch the stack. -/
private theorem Expr.usesStack_of_mem_code {i : Instr} {reg : Nat} {e : Expr} (h : i ∈ e.code reg) :
    i.usesStack = false := by
  induction e generalizing reg with
  | const value =>
    obtain rfl : i = .mov (.reg reg) (.imm value) := by simpa [code] using h
    rfl
  | var name type => simp [code] at h
  | arith op type lhs rhs ihl ihr =>
    simp only [code, List.mem_append] at h
    rcases h with (h | h) | h
    · exact ihl h
    · exact ihr h
    · cases op <;> simp [arithCode] at h <;> grind [Instr.usesStack]
  | compare op lhs rhs ihl ihr =>
    simp only [code, List.mem_append] at h
    rcases h with (h | h) | h
    · exact ihl h
    · exact ihr h
    · rw [List.mem_singleton.mp h]
      rfl

/-- The code of conditions does not touch the stack. -/
private theorem Expr.usesStack_of_mem_conditionCode {i : Instr} {reg : Nat} {e : Expr}
    {ifZero : String}
    (h : i ∈ e.conditionCode reg ifZero) : i.usesStack = false := by
  rw [conditionCode, List.mem_append] at h
  rcases h with h | h
  · exact usesStack_of_mem_code h
  · simp only [List.mem_cons, List.not_mem_nil, or_false] at h
    rcases h with rfl | rfl <;> rfl

/-- The code of arguments does not touch the stack. -/
theorem Args.usesStack_of_mem_code {i : Instr} {reg : Nat} {args : List Expr}
    (h : i ∈ code reg args) : i.usesStack = false := by
  induction args generalizing reg with
  | nil => cases h
  | cons e rest ih =>
    rcases List.mem_append.mp h with h | h
    · exact Expr.usesStack_of_mem_code h
    · exact ih h

private theorem Args.length_operands (reg : Nat) (args : List Expr) :
    (operands reg args).length = args.length := by
  induction args generalizing reg with
  | nil => rfl
  | cons e rest ih => rw [operands, List.length_cons, List.length_cons, ih]

/-- The code of a call is the evaluation of its arguments and the protocol. -/
theorem CallSite.callCode_eq (site : CallSite) :
    Args.callCode site.spot.reg site.name site.args = site.evaluation ++ site.protocol := by
  rw [Args.callCode, protocol, ← List.append_assoc, Nat.mul_comm]
  rfl

/-- Every argument is pushed once. -/
private theorem CallSite.length_pushes (site : CallSite) :
    site.pushes.length = site.args.length := by
  rw [pushes, List.length_mapIdx, Args.length_operands]

/-- From a line on, the code consists of the codes of calls, at their sites, and of lines that do
not use the stack. -/
inductive CallsAt : Nat → List Instr → List CallSite → Prop
  | nil {line : Nat} : CallsAt line [] []
  | plain {line : Nat} {i : Instr} {code : List Instr} {sites : List CallSite}
      (hi : i.usesStack = false) (h : CallsAt (line + 1) code sites) :
      CallsAt line (i :: code) sites
  | call {line : Nat} {site : CallSite} {code : List Instr} {sites : List CallSite}
      (hline : site.spot.line = line)
      (h : CallsAt (line + (site.evaluation ++ site.protocol).length) code sites) :
      CallsAt line (site.evaluation ++ site.protocol ++ code) (site :: sites)

namespace CallsAt

variable {line : Nat} {code front back : List Instr} {sites others : List CallSite}
  {site : CallSite}

/-- Pieces of code have their sites one after the other. -/
private theorem append {line' : Nat} (h : CallsAt line code sites)
    (hline : line + code.length = line')
    (h' : CallsAt line' back others) : CallsAt line (code ++ back) (sites ++ others) := by
  subst hline
  induction h with
  | nil => exact h'
  | plain hi _ ih => exact .plain hi (ih (by rwa [Nat.add_assoc, Nat.add_comm 1]))
  | call hsite _ ih =>
    rw [List.append_assoc, List.cons_append]
    exact .call hsite (ih (by rwa [Nat.add_assoc, ← List.length_append]))

/-- Code that does not touch the stack has no site. -/
private theorem of_plain (hplain : ∀ i ∈ code, i.usesStack = false) : CallsAt line code [] := by
  induction code generalizing line with
  | nil => exact .nil
  | cons i code ih =>
    obtain ⟨hi, hcode⟩ := List.forall_mem_cons.mp hplain
    exact .plain hi (ih hcode)

/-- Lines in front of the code. -/
theorem behind {line' : Nat} (hplain : ∀ i ∈ front, i.usesStack = false)
    (hline : line + front.length = line') (h : CallsAt line' code sites) :
    CallsAt line (front ++ code) sites :=
  (of_plain hplain).append hline h

/-- Lines behind the code. -/
theorem followed (h : CallsAt line code sites) (hplain : ∀ i ∈ back, i.usesStack = false) :
    CallsAt line (code ++ back) sites := by
  have happend := h.append rfl (of_plain hplain)
  rwa [List.append_nil] at happend

end CallsAt

namespace Stmt

mutual

/-- **The code of a statement** has its calls at their sites, and no other line that uses the
stack. -/
theorem callsAt_code (spot : Spot) (inBlock : Bool) : (s : Stmt) →
    CallsAt spot.line (s.code spot.reg spot.label) (s.callSites spot inBlock)
  | .declare _ _ => .plain rfl .nil
  | .declareAssign _ _ _ | .assign _ _ =>
    .behind (fun _ => Expr.usesStack_of_mem_code) rfl (.plain rfl .nil)
  | .ifThen e body =>
    .followed (.behind (fun _ => Expr.usesStack_of_mem_conditionCode) rfl
      (callsAt_codeAll (spot.skip e.registers 1 _) none false body)) (by simp [Instr.usesStack])
  | .ifElse e body otherwise => by
    let inner := spot.skip e.registers 2 (e.conditionCode spot.reg (labelName spot.label)).length
    have hbody := callsAt_codeAll inner none false body
    have hotherwise := callsAt_codeAll ((inner.afterAll body).skip 0 0 2) none false otherwise
    have hfirst : CallsAt spot.line _ _ :=
      .behind (fun _ => Expr.usesStack_of_mem_conditionCode) rfl hbody
    refine .followed (.append (hfirst.followed ?_) ?_ hotherwise) (by simp [Instr.usesStack])
    · simp [Instr.usesStack]
    · simp [inner, Spot.skip, Spot.afterAll, Nat.add_assoc]
  | .loop e body => by
    have hbody := callsAt_codeAll (spot.skip e.registers 2
      ((e.conditionCode spot.reg (labelName (spot.label + 1))).length + 1))
      (if inBlock then some spot.headers else none) false body
    refine .followed (.plain rfl (.behind (fun _ => Expr.usesStack_of_mem_conditionCode) ?_ hbody))
      (by simp [Instr.usesStack])
    rw [Nat.add_assoc, Nat.add_comm 1]
    rfl
  | .block body => callsAt_codeAll spot none true body
  | .function name _ params body =>
    .followed (.plain rfl (.plain rfl (callsAt_codeAll
      ((spot.skip 0 0 2).under (spot.headers ++ [(name, params)])) none false body)))
      (by simp [Instr.usesStack])
  | .call name args => by
    have hcall : CallsAt spot.line _ [⟨spot, name, args⟩] := .call rfl .nil
    rwa [List.append_nil, ← CallSite.callCode_eq] at hcall
  | .ret _ => .behind (fun _ => Expr.usesStack_of_mem_code) rfl (.plain rfl (.plain rfl .nil))

/-- **The code pushes and calls at the sites** of the statements, and nowhere else. -/
theorem callsAt_codeAll (spot : Spot) (step? : Option (List (String × List Param)))
    (inBlock : Bool) : (ss : List Stmt) →
    CallsAt spot.line (codeAll spot.reg spot.label ss) (callSitesAll spot step? inBlock ss)
  | [] => .nil
  | s :: rest => by
    have hfirst (headers : List (String × List Param)) : CallsAt spot.line
        (s.code spot.reg spot.label) (s.callSites (spot.under headers) inBlock) :=
      callsAt_code (spot.under headers) inBlock s
    rw [codeAll, callSitesAll]
    exact (hfirst _).append rfl (callsAt_codeAll (spot.after s) step? inBlock rest)

end

end Stmt

/-! ### What the stack is used for -/

namespace CallSite

variable {site : CallSite} {k : Nat} {i : Instr}

/-- The lines of the protocol: the pushes with their indices, the call, and the line behind it. -/
theorem getElem?_protocol (h : site.protocol[k]? = some i) :
    (∃ src, i = .push src k ∧ k < site.args.length) ∨
      (i = .call site.name ∧ k = site.args.length) ∨
      (i = .freeStack (4 * site.args.length) ∧ k = site.args.length + 1) := by
  rcases Nat.lt_or_ge k site.args.length with hk | hk
  · rw [protocol, List.getElem?_append_left (by rwa [site.length_pushes]), pushes,
      List.getElem?_mapIdx] at h
    obtain ⟨src, -, rfl⟩ := Option.map_eq_some_iff.mp h
    exact .inl ⟨src, rfl, hk⟩
  · rw [protocol, List.getElem?_append_right (by rwa [site.length_pushes]), site.length_pushes] at h
    obtain ⟨d, rfl⟩ := Nat.exists_eq_add_of_le hk
    rw [Nat.add_sub_cancel_left] at h
    rcases d with _ | _ | d
    · exact .inr (.inl ⟨by simpa using h.symm, rfl⟩)
    · exact .inr (.inr ⟨by simpa using h.symm, rfl⟩)
    · simp at h

end CallSite

namespace CallsAt

variable {line : Nat} {code : List Instr} {sites : List CallSite} {site : CallSite}

/-- The code of every site stands in its place. No push stands in front of it. -/
theorem exists_eq (h : CallsAt line code sites) (hsite : site ∈ sites) :
    ∃ before after, code = before ++ (site.evaluation ++ site.protocol) ++ after ∧
      line + before.length = site.spot.line ∧ ∀ src k, before.getLast? ≠ some (.push src k) := by
  induction h with
  | nil => cases hsite
  | @plain line i code sites hi _ ih =>
    obtain ⟨before, after, rfl, hline, hlast⟩ := ih hsite
    refine ⟨i :: before, after, rfl, ?_, fun src k hpush => ?_⟩
    · rw [← hline, List.length_cons]
      omega
    · cases before with
      | nil =>
        obtain rfl : i = .push src k := by simpa using hpush
        cases hi
      | cons j before => exact hlast src k (by rwa [List.getLast?_cons_cons] at hpush)
  | @call line first code sites hline _ ih =>
    rcases List.mem_cons.mp hsite with rfl | hsite
    · exact ⟨[], code, rfl, hline.symm, by simp⟩
    · obtain ⟨before, after, rfl, hline, hlast⟩ := ih hsite
      refine ⟨first.evaluation ++ first.protocol ++ before, after, by simp, ?_,
        fun src k hpush => ?_⟩
      · rw [← hline, List.length_append, Nat.add_assoc]
      · -- the code of the call in front ends with another line
        rw [List.getLast?_append] at hpush
        cases hbefore : before.getLast? with
        | none => simp [hbefore, CallSite.protocol] at hpush
        | some j => exact hlast src k (by simpa [hbefore] using hpush)

/-- A line that uses the stack belongs to the protocol of a site. -/
theorem exists_site (h : CallsAt line code sites) {n : Nat} {i : Instr} (hi : code[n]? = some i)
    (hstack : i.usesStack = true) :
    ∃ site ∈ sites, ∃ k, line + n = site.first + k ∧ site.protocol[k]? = some i := by
  induction h generalizing n with
  | nil => simp at hi
  | @plain line j code sites hj _ ih =>
    cases n with
    | zero =>
      obtain rfl : j = i := by simpa using hi
      rw [hj] at hstack
      cases hstack
    | succ n =>
      obtain ⟨site, hsite, k, hline, hk⟩ := ih (by simpa using hi)
      exact ⟨site, hsite, k, by omega, hk⟩
  | @call line first code sites hline _ ih =>
    rcases Nat.lt_or_ge n (first.evaluation ++ first.protocol).length with hn | hn
    · rw [List.getElem?_append_left hn] at hi
      rcases Nat.lt_or_ge n first.evaluation.length with hn | hn
      · rw [List.getElem?_append_left hn] at hi
        have hplain := Args.usesStack_of_mem_code (List.mem_of_getElem? hi)
        rw [hplain] at hstack
        cases hstack
      · rw [List.getElem?_append_right hn] at hi
        refine ⟨first, List.mem_cons_self, _, ?_, hi⟩
        rw [CallSite.first, hline]
        omega
    · rw [List.getElem?_append_right hn] at hi
      obtain ⟨site, hsite, k, hline, hk⟩ := ih hi
      exact ⟨site, List.mem_cons_of_mem _ hsite, k, by omega, hk⟩

/-- Every site stands from the line on. -/
theorem le_line (h : CallsAt line code sites) (hsite : site ∈ sites) : line ≤ site.spot.line := by
  obtain ⟨before, -, -, hline, -⟩ := h.exists_eq hsite
  omega

/-- The sites are in the order of the code. -/
theorem pairwise (h : CallsAt line code sites) : sites.Pairwise fun a b => a.line < b.line := by
  induction h with
  | nil => exact .nil
  | plain _ _ ih => exact ih
  | @call line first code sites hline h ih =>
    refine .cons (fun site hsite => ?_) ih
    have hle := h.le_line hsite
    rw [List.length_append, CallSite.protocol, List.length_append, first.length_pushes] at hle
    rw [CallSite.line, CallSite.line, CallSite.first, CallSite.first, hline]
    simp only [List.length_cons] at hle
    omega

end CallsAt

/-! ### The operands hold the arguments -/

/-- **The code of arguments computes their values**, which are in the operands then, first to last.
What one argument has left in its register the code of the next ones leaves alone. -/
theorem Args.computes {V : Type} (I : Interpretation V) {args : List Expr} {m : Memory V}
    {vs : List V} (h : args.map (Expr.eval I m.store) = vs.map some) (reg : Nat) :
    ∃ m', m.effects I (code reg args) = some m' ∧ m.AgreesBelow reg m' ∧
      (operands reg args).map (m'.read I) = vs := by
  induction args generalizing m vs reg with
  | nil =>
    obtain rfl : vs = [] := by simpa using h
    exact ⟨m, rfl, .refl m, rfl⟩
  | cons e rest ih =>
    obtain ⟨v, vs, rfl⟩ : ∃ v others, vs = v :: others := by
      cases vs with
      | nil => simp at h
      | cons v others => exact ⟨v, others, rfl⟩
    obtain ⟨hv, hvs⟩ := List.cons.inj h
    obtain ⟨m₁, heffects, hagree, hread⟩ := e.computes I reg m v hv
    rw [← hagree.store_eq] at hvs
    obtain ⟨m', heffects', hagree', hreads⟩ := ih hvs (reg + e.registers)
    refine ⟨m', ?_, hagree.trans (hagree'.mono (Nat.le_add_right _ _)), ?_⟩
    · rw [code, Memory.effects_append, heffects, Option.bind_some, heffects']
    · rw [operands, List.map_cons, hreads, hagree'.read_eq (e.operand_below reg), hread]

/-! ### Labels in front of calls -/

/-- Every header has its label in front of the line. -/
def Labelled (text : List Instr) (line : Nat) (headers : List (String × List Param)) : Prop :=
  ∀ h ∈ headers, ∃ j < line, text[j]? = some (.label h.1)

namespace Labelled

variable {text : List Instr} {line line' : Nat} {headers others : List (String × List Param)}

private theorem mono (h : Labelled text line headers) (hle : line ≤ line') :
    Labelled text line' headers := fun header hheader => by
  obtain ⟨j, hj, hlabel⟩ := h header hheader
  exact ⟨j, Nat.lt_of_lt_of_le hj hle, hlabel⟩

private theorem append (h : Labelled text line headers) (h' : Labelled text line others) :
    Labelled text line (headers ++ others) := fun header hheader =>
  (List.mem_append.mp hheader).elim (h header) (h' header)

end Labelled

namespace Stmt

variable {text : List Instr}

mutual

/-- The code of a statement has the labels of the functions in it. -/
theorem labelled_code (reg label line : Nat) : (s : Stmt) → CodeAt text line (s.code reg label) →
    Labelled text (line + (s.code reg label).length) s.headers
  | .declare _ _, _ | .declareAssign _ _ _, _ | .assign _ _, _ | .call _ _, _ | .ret _, _ =>
    List.forall_mem_nil _
  | .ifThen e body, h => by
    refine (labelled_codeAll _ _ _ body h.left.right).mono ?_
    simp only [code, List.length_append]
    omega
  | .ifElse e body otherwise, h => by
    refine Labelled.append ((labelled_codeAll _ _ _ body h.left.left.left.right).mono ?_)
      ((labelled_codeAll _ _ _ otherwise h.left.right).mono ?_)
    · simp only [code, List.length_append]
      omega
    · simp only [code, List.length_append]
      omega
  | .loop e body, h => by
    refine (labelled_codeAll _ _ _ body h.left.right).mono ?_
    simp only [code, List.length_append]
    omega
  | .block body, h => labelled_codeAll reg label line body h
  | .function name _ params body, h => by
    have hbody := labelled_codeAll _ _ _ body h.left.right
    refine fun header hheader => ?_
    rcases List.mem_cons.mp hheader with rfl | hheader
    · refine ⟨line + 1, ?_, h.left.left.tail.head⟩
      simp only [code, List.length_append, List.length_cons]
      omega
    · refine hbody.mono ?_ header hheader
      simp only [code, List.length_append]
      omega

/-- Behind the code of statements, their functions have labels. -/
private theorem labelled_codeAll (reg label line : Nat) : (ss : List Stmt) →
    CodeAt text line (codeAll reg label ss) →
    Labelled text (line + (codeAll reg label ss).length) (headersAll ss)
  | [], _ => List.forall_mem_nil _
  | s :: rest, h => by
    rw [codeAll, List.length_append, ← Nat.add_assoc]
    exact ((labelled_code _ _ _ s h.left).mono (Nat.le_add_right _ _)).append
      (labelled_codeAll _ _ _ rest h.right)

end

mutual

/-- In front of the code of a call stand the labels of all functions whose headers stand in front
of the call in the source. -/
theorem labelled_callSites (spot : Spot) (inBlock : Bool) : (s : Stmt) →
    CodeAt text spot.line (s.code spot.reg spot.label) →
    Labelled text spot.line spot.headers → ∀ site ∈ s.callSites spot inBlock,
      Labelled text site.spot.line site.spot.headers
  | .declare _ _, _, _ | .declareAssign _ _ _, _, _ | .assign _ _, _, _ | .ret _, _, _ =>
    List.forall_mem_nil _
  | .ifThen e body, hcode, h =>
    labelled_callSitesAll _ none false body hcode.left.right (h.mono (Nat.le_add_right _ _))
      (by simp)
  | .ifElse e body otherwise, hcode, h => by
    let inner := spot.skip e.registers 2 (e.conditionCode spot.reg (labelName spot.label)).length
    have hinner : Labelled text inner.line inner.headers := h.mono (Nat.le_add_right _ _)
    have hbody := hcode.left.left.left.right
    have hotherwise := hcode.left.right
    have hline : spot.line + (e.conditionCode spot.reg (labelName spot.label) ++
          codeAll (spot.reg + e.registers) (spot.label + 2) body ++
          [Instr.jmp (labelName (spot.label + 1)), Instr.label (labelName spot.label)]).length =
        ((inner.afterAll body).skip 0 0 2).line := by
      simp [inner, Spot.skip, Spot.afterAll, Nat.add_assoc]
    rw [hline] at hotherwise
    refine List.forall_mem_append.mpr ⟨?_, ?_⟩
    · exact labelled_callSitesAll inner none false body hbody hinner (by simp)
    · refine labelled_callSitesAll _ none false otherwise hotherwise ?_ (by simp)
      refine .mono (.append (hinner.mono (Nat.le_add_right _ _)) ?_) (Nat.le_add_right _ 2)
      exact labelled_codeAll _ _ _ body hbody
  | .loop e body, hcode, h => by
    refine labelled_callSitesAll _ _ false body hcode.left.right (h.mono (Nat.le_add_right _ _)) ?_
    -- the step stands where the loop stands
    intro headers hheaders
    obtain rfl : headers = spot.headers := by cases inBlock <;> simp_all
    exact h.mono (Nat.le_add_right _ _)
  | .block body, hcode, h => labelled_callSitesAll spot none true body hcode h (by simp)
  | .function name _ params body, hcode, h => by
    refine labelled_callSitesAll ((spot.skip 0 0 2).under (spot.headers ++ [(name, params)])) none
      false body hcode.left.right (.append (h.mono (Nat.le_add_right _ _)) ?_) (by simp)
    intro header hheader
    obtain rfl := List.mem_singleton.mp hheader
    exact ⟨spot.line + 1, Nat.lt_succ_self _, hcode.left.left.tail.head⟩
  | .call name args, _, h => by simpa [callSites] using h

/-- At every site the labels of the functions that are in sight have been set. -/
theorem labelled_callSitesAll (spot : Spot) (step? : Option (List (String × List Param)))
    (inBlock : Bool) : (ss : List Stmt) → CodeAt text spot.line (codeAll spot.reg spot.label ss) →
    Labelled text spot.line spot.headers → (∀ headers ∈ step?, Labelled text spot.line headers) →
    ∀ site ∈ callSitesAll spot step? inBlock ss, Labelled text site.spot.line site.spot.headers
  | [], _, _, _ => List.forall_mem_nil _
  | s :: rest, hcode, h, hstep => by
    have hbehind : spot.line ≤ (spot.after s).line := Nat.le_add_right _ _
    rw [callSitesAll]
    refine List.forall_mem_append.mpr ⟨?_, ?_⟩
    · refine labelled_callSites (spot.under _) inBlock s hcode.left ?_
      cases step? with
      | none => simpa [Spot.under] using h
      | some headers =>
        cases rest with
        | nil => exact hstep headers rfl
        | cons t rest => exact h
    · refine labelled_callSitesAll (spot.after s) step? inBlock rest hcode.right ?_
        fun headers hheaders => (hstep headers hheaders).mono hbehind
      exact (h.mono hbehind).append (labelled_code _ _ _ s hcode.left)

end

end Stmt

end TinyImp
