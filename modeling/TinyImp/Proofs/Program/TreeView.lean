import TinyImp.Program.Tree
import TinyImp.Proofs.Program.Spelling

/-!
# The tree view determines the program

A tree view can be read back in three steps. Each line is a node behind its blanks, and the label of
a node gives the node (`Node.read_text`). The depths of the nodes give the tree
(`RoseTree.read_outlineAll`): read from the last node to the first, a node takes over all trees that
stand deeper than itself. And the tree gives the program, but for the return types of functions,
which are not shown (`Stmt.forgetReturn_eq_of_view_eq`).

So two programs with the same tree view differ in nothing but return types
(`Program.forgetReturns_eq_of_tree_eq`).
-/

namespace TinyImp

/-! ### Labels -/

/-- The type with the given text. -/
def Ty.read : String → Ty
  | "int" => .int
  | "float" => .float
  | "bool" => .bool
  | _ => .unknown

private theorem Ty.read_text (type : Ty) : read type.text = type := by
  cases type <;> rfl

/-- The operator with the given text. -/
def ArithOp.read : String → ArithOp
  | "+" => .add
  | "-" => .sub
  | "*" => .mul
  | _ => .div

private theorem ArithOp.read_text (op : ArithOp) : read op.text = op := by
  cases op <;> rfl

/-- The comparison with the given text. -/
def CompareOp.read : String → CompareOp
  | "<" => .less
  | ">" => .greater
  | _ => .equal

private theorem CompareOp.read_text (op : CompareOp) : read op.text = op := by
  cases op <;> rfl

namespace Const

instance : Nonempty Const :=
  ⟨.int 0⟩

/-- The constant with the given text. -/
noncomputable def read (t : String) : Const :=
  Function.invFunOn text {value | value.IsNumber} t

private theorem read_text {value : Const} (h : value.IsNumber) : read value.text = value := by
  have hinj : Set.InjOn text {value | value.IsNumber} := fun _ ha _ hb => text_injective ha hb
  exact hinj.leftInvOn_invFunOn h

end Const

namespace Node

/-- The node is one whose label can be read back: names are words, and constants are numbers. -/
def Legible : Node → Prop
  | .declare _ name => name.toList ∈ Lexical.word
  | .declareAssign _ name => name.toList ∈ Lexical.word
  | .assign name => name.toList ∈ Lexical.word
  | .function name => name.toList ∈ Lexical.word
  | .param p => p.name.toList ∈ Lexical.word
  | .call name => name.toList ∈ Lexical.word
  | .const value => value.IsNumber
  | .var name _ => name.toList ∈ Lexical.word
  | _ => True

/-- The kind of a node, and the words in the parentheses behind it. -/
def parts : Node → String × List String
  | .program => ("program", [])
  | .block => ("block", [])
  | .declare type name => ("declare", [type.text, name])
  | .declareAssign type name => ("declare_assign", [type.text, name])
  | .assign name => ("assign", [name])
  | .ifThen => ("if", [])
  | .ifElse => ("if_else", [])
  | .loop => ("while", [])
  | .function name => ("func_decl", [name])
  | .params => ("params", [])
  | .param p => ("param", [p.type.text, p.name])
  | .call name => ("func_call", [name])
  | .ret => ("return", [])
  | .arith op type => ("binop", [op.text, ":", type.text])
  | .compare op => ("cmpop", [op.text, ":", Ty.bool.text])
  | .const value => ("number", [value.text, ":", value.type.text])
  | .var name type => ("id", [name, ":", type.text])

/-- The text of a kind and the words behind it. There are no parentheses without words. -/
def join : String × List String → List Char
  | (kind, []) => kind.toList
  | (kind, word :: words) =>
    kind.toList ++ '(' :: ([' '].intercalate ((word :: words).map String.toList) ++ [')'])

/-- A node is written as its kind with its words in parentheses. -/
theorem toList_text (node : Node) : node.text.toList = join node.parts := by
  rw [text.eq_def]
  cases node <;> simp [parts, join, toString, Param.text, List.intercalate_cons_cons,
    List.intercalate_singleton]

private theorem newline_notMem_join {kind : String} {words : List String}
    (hkind : '\n' ∉ kind.toList)
    (hwords : ∀ word ∈ words, '\n' ∉ word.toList) : '\n' ∉ join (kind, words) := by
  have hjoined {ws : List (List Char)} (h : ∀ w ∈ ws, '\n' ∉ w) : '\n' ∉ [' '].intercalate ws := by
    induction ws with
    | nil => simp
    | cons w rest ih =>
      obtain ⟨hw, hrest⟩ := List.forall_mem_cons.mp h
      cases rest with
      | nil => simpa using hw
      | cons w' rest => simp [List.intercalate_cons_cons, hw, ih hrest]
  cases words with
  | nil => exact hkind
  | cons word words => simpa [join, hkind] using hjoined (List.forall_mem_map.mpr hwords)

/-- The kind and the words of a text. -/
def split (t : List Char) : String × List String :=
  (String.ofList (cut '(' t).1,
    if (cut '(' t).2 = [] then [] else ((cut '(' t).2.dropLast.splitOn ' ').map String.ofList)

/-- A node is split into the words that it was joined from. -/
private theorem split_join {kind : String} {words : List String} (hkind : '(' ∉ kind.toList)
    (hwords : ∀ word ∈ words, ' ' ∉ word.toList) : split (join (kind, words)) = (kind, words) := by
  cases words with
  | nil => rw [join, split, cut_of_notMem hkind, String.ofList_toList, if_pos rfl]
  | cons word rest =>
    have hsplit : ([' '].intercalate ((word :: rest).map String.toList)).splitOn ' ' =
        (word :: rest).map String.toList :=
      List.splitOn_intercalate ' ' (by simpa using hwords) (by simp)
    rw [join, split, cut_append hkind, String.ofList_toList, if_neg (by simp),
      List.dropLast_concat, hsplit, List.map_map]
    simp only [Function.comp_def, String.ofList_toList, List.map_id']

/-- The node of the given kind with the given words. -/
noncomputable def ofParts (kind : String) (words : List String) : Node :=
  let word (k : Nat) : String := words.getD k ""
  match kind with
  | "block" => .block
  | "declare" => .declare (.read (word 0)) (word 1)
  | "declare_assign" => .declareAssign (.read (word 0)) (word 1)
  | "assign" => .assign (word 0)
  | "if" => .ifThen
  | "if_else" => .ifElse
  | "while" => .loop
  | "func_decl" => .function (word 0)
  | "params" => .params
  | "param" => .param ⟨word 1, .read (word 0)⟩
  | "func_call" => .call (word 0)
  | "return" => .ret
  | "binop" => .arith (.read (word 0)) (.read (word 2))
  | "cmpop" => .compare (.read (word 0))
  | "number" => .const (.read (word 0))
  | "id" => .var (word 0) (.read (word 2))
  | _ => .program

/-- A legible node is given back by its parts. -/
private theorem ofParts_parts {node : Node} (h : node.Legible) :
    ofParts node.parts.1 node.parts.2 = node := by
  cases node with
  | const value => simp [parts, ofParts, Const.read_text h]
  | _ => simp [parts, ofParts, Ty.read_text, ArithOp.read_text, CompareOp.read_text]

/-- The characters in the words of a label. -/
def isPart (c : Char) : Bool :=
  Lexeme.isWordPart c || Const.isPart c || [':', '+', '-', '*', '/', '<', '>', '='].contains c

private theorem isPart_of_mem_parts {node : Node} (h : node.Legible) :
    ∀ word ∈ node.parts.2, ∀ c ∈ word.toList, isPart c := by
  have hname {name : String} (h : name.toList ∈ Lexical.word) : ∀ c ∈ name.toList, isPart c :=
    fun c hc => by simp [isPart, isWordPart_of_mem_word h c hc]
  have htype (type : Ty) : ∀ c ∈ type.text.toList, isPart c :=
    List.all_eq_true.mp (by cases type <;> rfl)
  cases node with
  | const value =>
    have hvalue : ∀ c ∈ value.text.toList, isPart c := fun c hc => by
      simp [isPart, Const.isPart_of_mem_text h c hc]
    simp only [parts, List.forall_mem_cons]
    exact ⟨hvalue, by simp [isPart], htype _, by simp⟩
  | arith op type =>
    have hop : ∀ c ∈ op.text.toList, isPart c := List.all_eq_true.mp (by cases op <;> rfl)
    simp only [parts, List.forall_mem_cons]
    exact ⟨hop, by simp [isPart], htype _, by simp⟩
  | compare op =>
    have hop : ∀ c ∈ op.text.toList, isPart c := List.all_eq_true.mp (by cases op <;> rfl)
    simp only [parts, List.forall_mem_cons]
    exact ⟨hop, by simp [isPart], htype _, by simp⟩
  | var name type =>
    simp only [parts, List.forall_mem_cons]
    exact ⟨hname h, by simp [isPart], htype _, by simp⟩
  | declare | declareAssign | param =>
    simp only [parts, List.forall_mem_cons]
    exact ⟨htype _, hname h, by simp⟩
  | assign | function | call => exact List.forall_mem_singleton.mpr (hname h)
  | program | block | ifThen | ifElse | loop | params | ret => exact List.forall_mem_nil _

/-- The node with the given label. -/
noncomputable def read (t : List Char) : Node :=
  ofParts (split t).1 (split t).2

/-- **A node is read back from its label.** -/
theorem read_text {node : Node} (h : node.Legible) : read node.text.toList = node := by
  have hkind : '(' ∉ node.parts.1.toList := by
    cases node <;> simp [parts]
  have hblank : ∀ word ∈ node.parts.2, ' ' ∉ word.toList := fun word hword hmem =>
    absurd (isPart_of_mem_parts h word hword _ hmem) (by decide)
  rw [toList_text, read, split_join hkind hblank, ofParts_parts h]

/-- A label begins with a letter, and takes one line. -/
theorem head_text (node : Node) :
    ∃ c rest, node.text.toList = c :: rest ∧ c ≠ ' ' := by
  rw [toList_text]
  cases node <;> simp [parts, join]

private theorem newline_notMem_text {node : Node} (h : node.Legible) : '\n' ∉ node.text.toList := by
  have hwords : ∀ word ∈ node.parts.2, '\n' ∉ word.toList := fun word hword hmem =>
    absurd (isPart_of_mem_parts h word hword _ hmem) (by decide)
  have hkind : '\n' ∉ node.parts.1.toList := by
    cases node <;> simp [parts]
  rw [toList_text]
  exact newline_notMem_join hkind hwords

end Node

/-! ### Depths -/

/-- A tree whose nodes have any number of subtrees. -/
inductive RoseTree (α : Type) where
  | node (label : α) (children : List (RoseTree α))

namespace RoseTree

variable {α : Type}

mutual

/-- The labels of a tree whose root is at the given depth, each with its own depth. -/
def outline (depth : Nat) : RoseTree α → List (Nat × α)
  | .node label children => (depth, label) :: outlineAll (depth + 1) children

/-- The labels of several trees at the same depth. -/
def outlineAll (depth : Nat) : List (RoseTree α) → List (Nat × α)
  | [] => []
  | t :: rest => t.outline depth ++ outlineAll depth rest

end

/-- The trees with the given labels, read from the last one to the first: a label takes over the
trees behind it that are deeper than itself. -/
def read : List (Nat × α) → List (Nat × RoseTree α)
  | [] => []
  | (depth, label) :: rest =>
    (depth, .node label (((read rest).takeWhile (depth < ·.1)).map (·.2))) ::
      (read rest).dropWhile (depth < ·.1)

/-- The list does not begin deeper than at the given depth. -/
def Ends (depth : Nat) (items : List (Nat × α)) : Prop :=
  ∀ item ∈ items.head?, item.1 ≤ depth

private theorem Ends.read {depth : Nat} {items : List (Nat × α)} (h : Ends depth items) :
    (read items).takeWhile (depth < ·.1) = [] ∧
      (read items).dropWhile (depth < ·.1) = read items := by
  cases items with
  | nil => exact ⟨rfl, rfl⟩
  | cons item rest =>
    have hitem : item.1 ≤ depth := h item rfl
    simp [RoseTree.read, hitem]

/-- An outline at a depth does not begin deeper than that. -/
private theorem ends_outlineAll {depth : Nat} {rest : List (Nat × α)} (h : Ends depth rest)
    (ts : List (RoseTree α)) : Ends depth (outlineAll depth ts ++ rest) := by
  cases ts with
  | nil => exact h
  | cons t ts =>
    obtain ⟨label, children⟩ := t
    simp [Ends, outlineAll, outline]

mutual

/-- **A tree is read back from its outline.** -/
theorem read_outline (depth : Nat) {rest : List (Nat × α)} (h : Ends depth rest) :
    (t : RoseTree α) → read (t.outline depth ++ rest) = (depth, t) :: read rest
  | .node label children => by
    have hrest : Ends (depth + 1) rest := fun item hitem => (h item hitem).trans (Nat.le_succ depth)
    have hchildren := read_outlineAll (depth + 1) hrest children
    have hdeeper : ∀ item ∈ children.map (depth + 1, ·), decide (depth < item.1) = true := by
      simp
    rw [outline, List.cons_append, read, hchildren, List.takeWhile_append_of_pos hdeeper,
      List.dropWhile_append_of_pos hdeeper, h.read.1, h.read.2, List.append_nil, List.map_map]
    simp [Function.comp_def]

/-- The same for several trees. -/
theorem read_outlineAll (depth : Nat) {rest : List (Nat × α)} (h : Ends depth rest) :
    (ts : List (RoseTree α)) → read (outlineAll depth ts ++ rest) = ts.map (depth, ·) ++ read rest
  | [] => rfl
  | t :: ts => by
    rw [outlineAll, List.append_assoc, read_outline depth (ends_outlineAll h ts) t,
      read_outlineAll depth h ts, List.map_cons, List.cons_append]

end

end RoseTree

/-! ### Programs as trees -/

/-- The tree of an expression. -/
def Expr.view : Expr → RoseTree Node
  | .const value => .node (.const value) []
  | .var name type => .node (.var name type) []
  | .arith op type lhs rhs => .node (.arith op type) [lhs.view, rhs.view]
  | .compare op lhs rhs => .node (.compare op) [lhs.view, rhs.view]

namespace Stmt

mutual

/-- The tree of a statement. -/
def view : Stmt → RoseTree Node
  | .declare name type => .node (.declare type name) []
  | .declareAssign name type init => .node (.declareAssign type name) [init.view]
  | .assign name value => .node (.assign name) [value.view]
  | .ifThen condition body => .node .ifThen [condition.view, .node .block (viewAll body)]
  | .ifElse condition body otherwise =>
    .node .ifElse [condition.view, .node .block (viewAll body), .node .block (viewAll otherwise)]
  | .loop condition body => .node .loop [condition.view, .node .block (viewAll body)]
  | .block body => .node .block (viewAll body)
  | .function name _ params body =>
    .node (.function name)
      [.node .params (params.map fun p => .node (.param p) []), .node .block (viewAll body)]
  | .call name args => .node (.call name) (args.map Expr.view)
  | .ret value => .node .ret [value.view]

/-- The trees of several statements. -/
def viewAll : List Stmt → List (RoseTree Node)
  | [] => []
  | s :: rest => s.view :: viewAll rest

end

mutual

/-- The statement with one and the same return type in all functions. -/
def forgetReturn : Stmt → Stmt
  | .ifThen condition body => .ifThen condition (forgetReturnAll body)
  | .ifElse condition body otherwise =>
    .ifElse condition (forgetReturnAll body) (forgetReturnAll otherwise)
  | .loop condition body => .loop condition (forgetReturnAll body)
  | .block body => .block (forgetReturnAll body)
  | .function name _ params body => .function name .unknown params (forgetReturnAll body)
  | s => s

/-- The same for several statements. -/
def forgetReturnAll : List Stmt → List Stmt
  | [] => []
  | s :: rest => s.forgetReturn :: forgetReturnAll rest

end

end Stmt

/-- The program with one and the same return type in all functions. -/
def Program.forgetReturns (p : Program) : Program :=
  ⟨Stmt.forgetReturnAll p.body⟩

/-- Expressions with the same view are the same. -/
private theorem Expr.view_injective : Function.Injective Expr.view := by
  intro e
  induction e with
  | const value =>
    intro e' h
    cases e' <;> simp_all [view]
  | var name type =>
    intro e' h
    cases e' <;> simp_all [view]
  | arith op type lhs rhs ihl ihr =>
    intro e' h
    cases e' with
    | arith op' type' lhs' rhs' =>
      simp only [view, RoseTree.node.injEq, Node.arith.injEq, List.cons.injEq] at h
      obtain ⟨⟨rfl, rfl⟩, hl, hr, -⟩ := h
      rw [ihl hl, ihr hr]
    | _ => simp [view] at h
  | compare op lhs rhs ihl ihr =>
    intro e' h
    cases e' with
    | compare op' lhs' rhs' =>
      simp only [view, RoseTree.node.injEq, Node.compare.injEq, List.cons.injEq] at h
      obtain ⟨rfl, hl, hr, -⟩ := h
      rw [ihl hl, ihr hr]
    | _ => simp [view] at h

namespace Stmt

private theorem params_view_injective :
    Function.Injective fun params : List Param =>
      params.map fun p => RoseTree.node (Node.param p) [] :=
  List.map_injective_iff.mpr fun p q h => by simpa using h

mutual

/-- **The tree of a statement gives the statement**, return types apart. -/
theorem forgetReturn_eq_of_view_eq : (s s' : Stmt) → s.view = s'.view →
    s.forgetReturn = s'.forgetReturn
  | .declare name type, s', h => by
    cases s' with
    | declare name' type' =>
      simp only [view, RoseTree.node.injEq, Node.declare.injEq] at h
      rw [h.1.1, h.1.2]
    | _ => simp [view] at h
  | .declareAssign name type init, s', h => by
    cases s' with
    | declareAssign name' type' init' =>
      simp only [view, RoseTree.node.injEq, Node.declareAssign.injEq, List.cons.injEq] at h
      rw [h.1.1, h.1.2, Expr.view_injective h.2.1]
    | _ => simp [view] at h
  | .assign name value, s', h => by
    cases s' with
    | assign name' value' =>
      simp only [view, RoseTree.node.injEq, Node.assign.injEq, List.cons.injEq] at h
      rw [h.1, Expr.view_injective h.2.1]
    | _ => simp [view] at h
  | .ifThen condition body, s', h => by
    cases s' with
    | ifThen condition' body' =>
      simp only [view, RoseTree.node.injEq, List.cons.injEq] at h
      rw [forgetReturn, forgetReturn, Expr.view_injective h.2.1,
        forgetReturnAll_eq_of_viewAll_eq body body' h.2.2.1.2]
    | _ => simp [view] at h
  | .ifElse condition body otherwise, s', h => by
    cases s' with
    | ifElse condition' body' otherwise' =>
      simp only [view, RoseTree.node.injEq, List.cons.injEq] at h
      rw [forgetReturn, forgetReturn, Expr.view_injective h.2.1,
        forgetReturnAll_eq_of_viewAll_eq body body' h.2.2.1.2,
        forgetReturnAll_eq_of_viewAll_eq otherwise otherwise' h.2.2.2.1.2]
    | _ => simp [view] at h
  | .loop condition body, s', h => by
    cases s' with
    | loop condition' body' =>
      simp only [view, RoseTree.node.injEq, List.cons.injEq] at h
      rw [forgetReturn, forgetReturn, Expr.view_injective h.2.1,
        forgetReturnAll_eq_of_viewAll_eq body body' h.2.2.1.2]
    | _ => simp [view] at h
  | .block body, s', h => by
    cases s' with
    | block body' =>
      simp only [view, RoseTree.node.injEq] at h
      rw [forgetReturn, forgetReturn, forgetReturnAll_eq_of_viewAll_eq body body' h.2]
    | _ => simp [view] at h
  | .function name type params body, s', h => by
    cases s' with
    | function name' type' params' body' =>
      simp only [view, RoseTree.node.injEq, Node.function.injEq, List.cons.injEq] at h
      rw [forgetReturn, forgetReturn, h.1, params_view_injective h.2.1.2,
        forgetReturnAll_eq_of_viewAll_eq body body' h.2.2.1.2]
    | _ => simp [view] at h
  | .call name args, s', h => by
    cases s' with
    | call name' args' =>
      simp only [view, RoseTree.node.injEq, Node.call.injEq] at h
      rw [h.1, List.map_injective_iff.mpr Expr.view_injective h.2]
    | _ => simp [view] at h
  | .ret value, s', h => by
    cases s' with
    | ret value' =>
      simp only [view, RoseTree.node.injEq, List.cons.injEq] at h
      rw [Expr.view_injective h.2.1]
    | _ => simp [view] at h

/-- The same for several statements. -/
theorem forgetReturnAll_eq_of_viewAll_eq : (ss ss' : List Stmt) → viewAll ss = viewAll ss' →
    forgetReturnAll ss = forgetReturnAll ss'
  | [], ss', h => by
    cases ss' with
    | nil => rfl
    | cons s' rest' => simp [viewAll] at h
  | s :: rest, ss', h => by
    cases ss' with
    | nil => simp [viewAll] at h
    | cons s' rest' =>
      obtain ⟨hs, hrest⟩ := List.cons.inj h
      rw [forgetReturnAll, forgetReturnAll, forgetReturn_eq_of_view_eq s s' hs,
        forgetReturnAll_eq_of_viewAll_eq rest rest' hrest]

end

end Stmt

/-! ### Outlines -/

private theorem Expr.outline_view (depth : Nat) (e : Expr) :
    e.view.outline depth = e.outline depth := by
  induction e generalizing depth with
  | const | var => rfl
  | arith op type lhs rhs ihl ihr | compare op lhs rhs ihl ihr =>
    simp [view, outline, RoseTree.outline, RoseTree.outlineAll, ihl, ihr]

private theorem Args.outlineAll_view (depth : Nat) (args : List Expr) :
    RoseTree.outlineAll depth (args.map Expr.view) = args.flatMap (Expr.outline depth) := by
  induction args with
  | nil => rfl
  | cons e rest ih =>
    rw [List.map_cons, RoseTree.outlineAll, e.outline_view, ih, List.flatMap_cons]

private theorem Param.outlineAll_view (depth : Nat) (params : List Param) :
    RoseTree.outlineAll depth (params.map fun p => .node (Node.param p) []) =
      params.map fun p => (depth, Node.param p) := by
  induction params with
  | nil => rfl
  | cons p rest ih =>
    rw [List.map_cons, RoseTree.outlineAll, ih, List.map_cons]
    rfl

namespace Stmt

mutual

/-- The outline of a statement is that of its tree. -/
theorem outline_view (depth : Nat) : (s : Stmt) → s.view.outline depth = s.outline depth
  | .declare _ _ => rfl
  | .declareAssign _ _ init => by
    simp [view, outline, RoseTree.outline, RoseTree.outlineAll, init.outline_view]
  | .assign _ value => by
    simp [view, outline, RoseTree.outline, RoseTree.outlineAll, value.outline_view]
  | .ifThen condition body => by
    simp [view, outline, RoseTree.outline, RoseTree.outlineAll, condition.outline_view,
      outlineAll_view _ body]
  | .ifElse condition body otherwise => by
    simp [view, outline, RoseTree.outline, RoseTree.outlineAll, condition.outline_view,
      outlineAll_view _ body, outlineAll_view _ otherwise]
  | .loop condition body => by
    simp [view, outline, RoseTree.outline, RoseTree.outlineAll, condition.outline_view,
      outlineAll_view _ body]
  | .block body => by
    simp [view, outline, RoseTree.outline, outlineAll_view _ body]
  | .function _ _ params body => by
    simp [view, outline, RoseTree.outline, RoseTree.outlineAll, Param.outlineAll_view,
      outlineAll_view _ body]
  | .call _ args => by
    simp [view, outline, RoseTree.outline, Args.outlineAll_view]
  | .ret value => by
    simp [view, outline, RoseTree.outline, RoseTree.outlineAll, value.outline_view]

/-- The same for several statements. -/
theorem outlineAll_view (depth : Nat) : (ss : List Stmt) →
    RoseTree.outlineAll depth (viewAll ss) = outlineAll depth ss
  | [] => rfl
  | s :: rest => by
    rw [viewAll, RoseTree.outlineAll, outlineAll, outline_view depth s, outlineAll_view depth rest]

end

end Stmt

/-- All labels can be read back. -/
def LegibleOutline (items : List (Nat × Node)) : Prop :=
  ∀ item ∈ items, item.2.Legible

private theorem legibleOutline_append {first second : List (Nat × Node)} :
    LegibleOutline (first ++ second) ↔ LegibleOutline first ∧ LegibleOutline second :=
  List.forall_mem_append

/-- An outline is legible node by node. -/
theorem legibleOutline_cons {item : Nat × Node} {items : List (Nat × Node)} :
    LegibleOutline (item :: items) ↔ item.2.Legible ∧ LegibleOutline items :=
  List.forall_mem_cons

private theorem Expr.legible_outline {e : Expr}
    (he : e.Spelled (·.toList ∈ Lexical.word) Const.IsNumber) (depth : Nat) :
    LegibleOutline (e.outline depth) := by
  induction e generalizing depth with
  | const value => exact List.forall_mem_singleton.mpr (spelled_const.mp he)
  | var name type => exact List.forall_mem_singleton.mpr (spelled_var.mp he)
  | arith op type lhs rhs ihl ihr =>
    obtain ⟨hl, hr⟩ := spelled_arith.mp he
    rw [outline, legibleOutline_cons, legibleOutline_append]
    exact ⟨trivial, ihl hl _, ihr hr _⟩
  | compare op lhs rhs ihl ihr =>
    obtain ⟨hl, hr⟩ := spelled_compare.mp he
    rw [outline, legibleOutline_cons, legibleOutline_append]
    exact ⟨trivial, ihl hl _, ihr hr _⟩

namespace Stmt

mutual

/-- The labels of a statement can be read back, if its names are words. -/
theorem legible_outline (depth : Nat) : (s : Stmt) →
    Spelled (·.toList ∈ Lexical.word) Const.IsNumber s.nodes → LegibleOutline (s.outline depth)
  | .declare name _, h => by
    obtain ⟨hname, -⟩ := (spelled_cons.mp h).1
    exact List.forall_mem_singleton.mpr (hname name List.mem_cons_self)
  | .declareAssign name _ init, h => by
    obtain ⟨hname, he⟩ := (spelled_cons.mp h).1
    rw [outline, legibleOutline_cons]
    exact ⟨hname name List.mem_cons_self, init.legible_outline (he init List.mem_cons_self) _⟩
  | .assign name value, h => by
    obtain ⟨hname, he⟩ := (spelled_cons.mp h).1
    rw [outline, legibleOutline_cons]
    exact ⟨hname name List.mem_cons_self, value.legible_outline (he value List.mem_cons_self) _⟩
  | .ifThen e body, h => by
    obtain ⟨⟨-, he⟩, hbody⟩ := spelled_cons.mp h
    rw [outline, legibleOutline_cons, legibleOutline_append, legibleOutline_cons]
    exact ⟨trivial, e.legible_outline (he e List.mem_cons_self) _, trivial,
      legible_outlineAll _ body hbody⟩
  | .ifElse e body otherwise, h => by
    obtain ⟨⟨-, he⟩, hbodies⟩ := spelled_cons.mp h
    obtain ⟨hbody, hotherwise⟩ := spelled_append.mp hbodies
    rw [outline, legibleOutline_cons, legibleOutline_append, legibleOutline_append,
      legibleOutline_cons, legibleOutline_cons]
    exact ⟨trivial, ⟨e.legible_outline (he e List.mem_cons_self) _, trivial,
      legible_outlineAll _ body hbody⟩, trivial, legible_outlineAll _ otherwise hotherwise⟩
  | .loop e body, h => by
    obtain ⟨⟨-, he⟩, hbody⟩ := spelled_cons.mp h
    rw [outline, legibleOutline_cons, legibleOutline_append, legibleOutline_cons]
    exact ⟨trivial, e.legible_outline (he e List.mem_cons_self) _, trivial,
      legible_outlineAll _ body hbody⟩
  | .block body, h => by
    rw [outline, legibleOutline_cons]
    exact ⟨trivial, legible_outlineAll _ body (spelled_cons.mp h).2⟩
  | .function name _ params body, h => by
    obtain ⟨⟨hname, -⟩, hbody⟩ := spelled_cons.mp h
    obtain ⟨hname, hparams⟩ := List.forall_mem_cons.mp hname
    have hparams : ∀ p ∈ params, p.name.toList ∈ Lexical.word := fun p hp =>
      hparams p.name (List.mem_map_of_mem hp)
    rw [outline, legibleOutline_cons, legibleOutline_cons, legibleOutline_append,
      legibleOutline_cons]
    exact ⟨hname, trivial, List.forall_mem_map.mpr hparams, trivial,
      legible_outlineAll _ body hbody⟩
  | .call name args, h => by
    obtain ⟨hname, hargs⟩ := (spelled_cons.mp h).1
    rw [outline, legibleOutline_cons]
    refine ⟨hname name List.mem_cons_self, fun item hitem => ?_⟩
    obtain ⟨e, he, hitem⟩ := List.mem_flatMap.mp hitem
    exact e.legible_outline (hargs e he) _ item hitem
  | .ret value, h => by
    obtain ⟨-, he⟩ := (spelled_cons.mp h).1
    rw [outline, legibleOutline_cons]
    exact ⟨trivial, value.legible_outline (he value List.mem_cons_self) _⟩

/-- The same for several statements. -/
theorem legible_outlineAll (depth : Nat) : (ss : List Stmt) →
    Spelled (·.toList ∈ Lexical.word) Const.IsNumber (nodesAll ss) →
      LegibleOutline (outlineAll depth ss)
  | [], _ => List.forall_mem_nil _
  | s :: rest, h => by
    obtain ⟨hs, hrest⟩ := spelled_append.mp h
    rw [outlineAll, legibleOutline_append]
    exact ⟨legible_outline depth s hs, legible_outlineAll depth rest hrest⟩

end

end Stmt

/-! ### Tree views -/

namespace Program

/-- The line of a node, without its end. -/
def label (item : Nat × Node) : String :=
  String.ofList (List.replicate (2 * item.1) ' ') ++ item.2.text

/-- The node on a line with its depth. -/
noncomputable def readLabel (line : String) : Nat × Node :=
  ((line.toList.takeWhile (· = ' ')).length / 2, .read (line.toList.dropWhile (· = ' ')))

private theorem readLabel_label {item : Nat × Node} (h : item.2.Legible) :
    readLabel (label item) = item := by
  obtain ⟨depth, node⟩ := item
  obtain ⟨c, rest, hcons, hc⟩ := node.head_text
  have hblank : ∀ c ∈ List.replicate (2 * depth) ' ', decide (c = ' ') = true := fun c hc =>
    decide_eq_true (List.eq_of_mem_replicate hc)
  have hlabel : (label (depth, node)).toList =
      List.replicate (2 * depth) ' ' ++ node.text.toList := by
    simp [label]
  have htake : (label (depth, node)).toList.takeWhile (· = ' ') =
      List.replicate (2 * depth) ' ' := by
    rw [hlabel, List.takeWhile_append_of_pos hblank, hcons, List.takeWhile_cons_of_neg (by simpa),
      List.append_nil]
  have hdrop : (label (depth, node)).toList.dropWhile (· = ' ') = node.text.toList := by
    rw [hlabel, List.dropWhile_append_of_pos hblank, hcons, List.dropWhile_cons_of_neg (by simpa)]
  rw [readLabel, htake, hdrop, Node.read_text h, List.length_replicate,
    Nat.mul_div_cancel_left _ Nat.two_pos]

/-- The tree is the text of the lines of the outline. -/
theorem tree_eq (p : Program) : p.tree = String.join ((p.outline.map label).map (· ++ "\n")) := by
  rw [tree, List.map_map]
  rfl

variable {p q : Program}

private theorem legible_outline (hnames : ∀ name ∈ p.identifiers, name.toList ∈ Lexical.word)
    (hconstants : ∀ value ∈ p.constants, value.IsNumber) : LegibleOutline p.outline := by
  rw [outline, legibleOutline_cons]
  exact ⟨trivial, Stmt.legible_outlineAll 1 p.body (spelled_statements hnames hconstants)⟩

/-- No label of a legible outline has a line feed. -/
theorem newline_notMem_labels {items : List (Nat × Node)} (h : LegibleOutline items) :
    ∀ line ∈ items.map label, '\n' ∉ line.toList := by
  rintro line hline
  obtain ⟨item, hitem, rfl⟩ := List.mem_map.mp hline
  simp [label, Node.newline_notMem_text (h item hitem)]

/-- Outlines with the same lines are the same. -/
theorem outline_eq_of_labels_eq {items items' : List (Nat × Node)} (h : LegibleOutline items)
    (h' : LegibleOutline items') (heq : items.map label = items'.map label) : items = items' := by
  have hread {items : List (Nat × Node)} (h : LegibleOutline items) :
      (items.map label).map readLabel = items := by
    rw [List.map_map]
    exact (List.map_congr_left fun item hitem => readLabel_label (h item hitem)).trans
      (List.map_id items)
  rw [← hread h, heq, hread h']

private theorem viewAll_eq_of_outline_eq (h : p.outline = q.outline) :
    Stmt.viewAll p.body = Stmt.viewAll q.body := by
  have hread (p : Program) : RoseTree.read p.outline.tail = (Stmt.viewAll p.body).map (1, ·) := by
    have hends : RoseTree.Ends 1 ([] : List (Nat × Node)) := fun item hitem => by simp at hitem
    have := RoseTree.read_outlineAll 1 hends (Stmt.viewAll p.body)
    rwa [List.append_nil, Stmt.outlineAll_view, RoseTree.read, List.append_nil] at this
  have hmap := (hread p).symm.trans (h ▸ hread q)
  exact List.map_injective_iff.mpr (Prod.mk_right_injective 1) hmap

/-- **The tree view determines the program, return types of functions apart**, if identifiers are
words and no constant is a not-a-number. -/
theorem forgetReturns_eq_of_tree_eq
    (hp : ∀ name ∈ p.identifiers, name.toList ∈ Lexical.word)
    (hpc : ∀ value ∈ p.constants, value.IsNumber)
    (hq : ∀ name ∈ q.identifiers, name.toList ∈ Lexical.word)
    (hqc : ∀ value ∈ q.constants, value.IsNumber)
    (h : p.tree = q.tree) : p.forgetReturns = q.forgetReturns := by
  have hlegible := legible_outline hp hpc
  have hlegible' := legible_outline hq hqc
  rw [tree_eq, tree_eq] at h
  have hlabels : p.outline.map label = q.outline.map label :=
    Text.join_injective (newline_notMem_labels hlegible) (newline_notMem_labels hlegible') h
  have houtline : p.outline = q.outline := outline_eq_of_labels_eq hlegible hlegible' hlabels
  have hviews := viewAll_eq_of_outline_eq houtline
  rw [forgetReturns, forgetReturns, Stmt.forgetReturnAll_eq_of_viewAll_eq _ _ hviews]

/-- A function with an empty block in one branch, and a call of it. -/
def halfOnce (returns : Ty) : Program :=
  ⟨[.function "half" returns [⟨"x", .float⟩]
      [.ifElse (.compare .less (.var "x" .float) (.const (.float ⟨0x3FE0000000000000⟩)))
        [.block []] [.ret (.var "x" .float)]],
    .call "half" [.const (.int 1)]]⟩

/-- Two programs that differ in the type that a function returns have the same tree. -/
theorem halfOnce_tree :
    halfOnce .int ≠ halfOnce .float ∧
      (halfOnce .int).tree = (halfOnce .float).tree ∧
      (halfOnce .int).forgetReturns = (halfOnce .float).forgetReturns := by
  have hnames (returns : Ty) :
      ∀ name ∈ (halfOnce returns).identifiers, name.toList ∈ Lexical.word := by
    have hhalf : "half".toList ∈ Lexical.word := Token.cons_mem_word_of_all (by decide)
    have hx : "x".toList ∈ Lexical.word := Token.cons_mem_word_of_all (by decide)
    have hall : (halfOnce returns).identifiers = ["half", "x", "half", "x", "x"] := rfl
    rw [hall]
    simp only [List.forall_mem_cons]
    exact ⟨hhalf, hx, hhalf, hx, hx, List.forall_mem_nil _⟩
  have hconstants (returns : Ty) : ∀ value ∈ (halfOnce returns).constants, value.IsNumber := by
    have hall : (halfOnce returns).constants = [.float ⟨0x3FE0000000000000⟩, .int 1] := rfl
    rw [hall, List.forall_mem_cons, List.forall_mem_singleton]
    decide
  have htree : (halfOnce .int).tree = (halfOnce .float).tree := rfl
  exact ⟨by simp [halfOnce], htree,
    forgetReturns_eq_of_tree_eq (hnames .int) (hconstants .int) (hnames .float) (hconstants .float)
      htree⟩

end Program

end TinyImp
