import TinyImp.Stmt

/-!
# The tree view

The tree view of a program shows one node on each line, two spaces farther to the right on each
level. It is built in two steps: `outline` lists the nodes with their depths, and `tree` writes
them out.
-/

namespace TinyImp

/-- A node of the tree view. The return type of a function is not shown. -/
inductive Node where
  | program
  | block
  | declare (type : Ty) (name : String)
  | declareAssign (type : Ty) (name : String)
  | assign (name : String)
  | ifThen
  | ifElse
  | loop
  | function (name : String)
  | params
  | param (p : Param)
  | call (name : String)
  | ret
  | arith (op : ArithOp) (type : Ty)
  | compare (op : CompareOp)
  | const (value : Const)
  | var (name : String) (type : Ty)
  deriving DecidableEq

/-- The label of a node: its kind, and what distinguishes it in parentheses. -/
def Node.text : Node → String
  | .program => "program"
  | .block => "block"
  | .declare type name => s!"declare({type.text} {name})"
  | .declareAssign type name => s!"declare_assign({type.text} {name})"
  | .assign name => s!"assign({name})"
  | .ifThen => "if"
  | .ifElse => "if_else"
  | .loop => "while"
  | .function name => s!"func_decl({name})"
  | .params => "params"
  | .param p => s!"param({p.text})"
  | .call name => s!"func_call({name})"
  | .ret => "return"
  | .arith op type => s!"binop({op.text} : {type.text})"
  | .compare op => s!"cmpop({op.text} : {Ty.bool.text})"
  | .const value => s!"number({value.text} : {value.type.text})"
  | .var name type => s!"id({name} : {type.text})"

/-- The nodes of an expression whose root is at the given depth, each with its own depth. -/
def Expr.outline (depth : Nat) : Expr → List (Nat × Node)
  | .const value => [(depth, .const value)]
  | .var name type => [(depth, .var name type)]
  | .arith op type lhs rhs =>
    (depth, .arith op type) :: (lhs.outline (depth + 1) ++ rhs.outline (depth + 1))
  | .compare op lhs rhs =>
    (depth, .compare op) :: (lhs.outline (depth + 1) ++ rhs.outline (depth + 1))

mutual

/-- The nodes of a statement whose root is at the given depth. -/
def Stmt.outline (depth : Nat) : Stmt → List (Nat × Node)
  | .declare name type => [(depth, .declare type name)]
  | .declareAssign name type init =>
    (depth, .declareAssign type name) :: init.outline (depth + 1)
  | .assign name value => (depth, .assign name) :: value.outline (depth + 1)
  | .ifThen condition body =>
    (depth, .ifThen) :: (condition.outline (depth + 1) ++
      (depth + 1, .block) :: Stmt.outlineAll (depth + 2) body)
  | .ifElse condition body otherwise =>
    (depth, .ifElse) :: (condition.outline (depth + 1) ++
      (depth + 1, .block) :: Stmt.outlineAll (depth + 2) body ++
      (depth + 1, .block) :: Stmt.outlineAll (depth + 2) otherwise)
  | .loop condition body =>
    (depth, .loop) :: (condition.outline (depth + 1) ++
      (depth + 1, .block) :: Stmt.outlineAll (depth + 2) body)
  | .block body => (depth, .block) :: Stmt.outlineAll (depth + 1) body
  | .function name _ params body =>
    (depth, .function name) :: (depth + 1, .params) ::
      (params.map (fun p => (depth + 2, Node.param p)) ++
        (depth + 1, .block) :: Stmt.outlineAll (depth + 2) body)
  | .call name args => (depth, .call name) :: args.flatMap (Expr.outline (depth + 1))
  | .ret value => (depth, .ret) :: value.outline (depth + 1)

/-- The nodes of several statements at the same depth. -/
def Stmt.outlineAll (depth : Nat) : List Stmt → List (Nat × Node)
  | [] => []
  | s :: rest => s.outline depth ++ Stmt.outlineAll depth rest

end

namespace Program

/-- The nodes of a program. -/
def outline (p : Program) : List (Nat × Node) :=
  (0, .program) :: Stmt.outlineAll 1 p.body

/-- The line of a node: two spaces for each level, then its label. -/
def nodeLine (depth : Nat) (node : Node) : String :=
  String.ofList (List.replicate (2 * depth) ' ') ++ node.text ++ "\n"

/-- The tree view of a program. -/
def tree (p : Program) : String :=
  String.join (p.outline.map fun (depth, node) => nodeLine depth node)

end Program

end TinyImp
