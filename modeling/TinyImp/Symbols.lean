import TinyImp.Symbols.Fault

/-!
# The symbol table

The symbol table knows the variables of all open scopes, innermost first, and the functions that
have been declared. The outermost scope is always there. Within one scope the first declaration of
a name counts; a function that is declared again takes its new signature.

The parameters of a declared function are *pending* until the next scope opens, which is that of
its body, and are the first variables of that scope.
-/

namespace TinyImp

/-- What is known of a variable. -/
structure Variable where
  type : Ty
  initialized : Bool := false
  deriving DecidableEq

/-- The variables that one scope declares; no name stands twice. -/
abbrev Scope := List (String × Variable)

namespace Scope

/-- Adds a variable, unless the scope has one of that name. -/
def declare (scope : Scope) (name : String) (type : Ty) : Scope :=
  if (scope.lookup name).isSome then scope else (name, { type }) :: scope

/-- Notes that a variable has a value. -/
def markInitialized (scope : Scope) (name : String) : Scope :=
  scope.map fun (other, v) => (other, if other = name then { v with initialized := true } else v)

end Scope

/-- What is known of a function. -/
structure Signature where
  returnType : Ty
  params : List Param
  deriving DecidableEq

/-- The variables in scope and the functions declared so far. -/
structure Symbols where
  innermost : Scope := []
  enclosing : List Scope := []
  /-- The signatures, the latest declaration first. -/
  functions : List (String × Signature) := []
  /-- The parameters of a function whose body has not been opened yet. -/
  pending : Option (List Param) := none
  /-- The innermost scope was opened with parameters, and no scope has been closed since. -/
  inParamScope : Bool := false
  deriving DecidableEq

namespace Symbols

/-! ### Questions -/

/-- The open scopes, innermost first. -/
def scopes (s : Symbols) : List Scope :=
  s.innermost :: s.enclosing

/-- The number of open scopes. -/
def depth (s : Symbols) : Nat :=
  s.scopes.length

/-- The variable that a name stands for: the one of the innermost scope that declares it. -/
def lookup (s : Symbols) (name : String) : Option Variable :=
  s.scopes.findSome? (·.lookup name)

/-- Some open scope declares the name as a variable. -/
def isDeclared (s : Symbols) (name : String) : Bool :=
  (s.lookup name).isSome

/-- The variable that the name stands for has been assigned to. -/
def isInitialized (s : Symbols) (name : String) : Bool :=
  (s.lookup name).any (·.initialized)

/-- The latest signature of a function. -/
def function (s : Symbols) (name : String) : Option Signature :=
  s.functions.lookup name

/-- The number of parameters of a function. -/
def arity (s : Symbols) (name : String) : Option Nat :=
  (s.function name).map (·.params.length)

/-- A function has been declared and no scope has been opened since. -/
def hasPending (s : Symbols) : Bool :=
  s.pending.isSome

/-- The type of a variable. -/
def typeOf (s : Symbols) (name : String) : Except Fault Ty :=
  match s.lookup name with
  | some v => .ok v.type
  | none => .error (.readUndeclared name)

/-- The faults of a call with arguments of the given types. A wrong number of arguments is the
only fault then reported; otherwise each argument of a wrong type is one. -/
def callFaults (s : Symbols) (name : String) (types : List Ty) : List Fault :=
  match s.function name with
  | none => [.unknownFunction name]
  | some signature =>
    if types.length ≠ signature.params.length then
      [.argumentCount name signature.params.length types.length]
    else
      (List.zip types signature.params).zipIdx.filterMap fun ((got, param), i) =>
        if got = param.type then none else some (.argumentType name (i + 1) param.type got)

/-! ### Changes -/

/-- Declares a variable in the innermost scope. -/
def declare (s : Symbols) (name : String) (type : Ty) : Symbols :=
  { s with innermost := s.innermost.declare name type }

/-- Opens a scope, with the pending parameters as its first variables. -/
def openScope (s : Symbols) : Symbols :=
  let params := s.pending.getD []
  { s with
    innermost := params.foldl (fun scope p => scope.declare p.name p.type) []
    enclosing := s.scopes
    pending := none
    inParamScope := !params.isEmpty }

/-- Closes the innermost scope; the outermost scope stays. -/
def closeScope (s : Symbols) : Symbols :=
  match s.enclosing with
  | [] => { s with inParamScope := false }
  | scope :: rest => { s with innermost := scope, enclosing := rest, inParamScope := false }

/-- Marks a variable as initialized in the first of several scopes that declares it. -/
def markInitializedIn (name : String) : List Scope → List Scope
  | [] => []
  | scope :: rest =>
    if (scope.lookup name).isSome then scope.markInitialized name :: rest
    else scope :: markInitializedIn name rest

/-- Notes an assignment to a variable. -/
def assign (s : Symbols) (name : String) : Except Fault Symbols :=
  if (s.innermost.lookup name).isSome then
    .ok { s with innermost := s.innermost.markInitialized name }
  else if s.isDeclared name then
    .ok { s with enclosing := markInitializedIn name s.enclosing }
  else
    .error (.assignedUndeclared name)

/-- Declares a function, whose parameters are pending from now on. -/
def declareFunction (s : Symbols) (name : String) (returnType : Ty) (params : List Param) :
    Symbols :=
  { s with
    functions := (name, { returnType, params }) :: s.functions
    pending := some params }

/-! ### The number of open scopes -/

/-- The outermost scope is always open. -/
theorem depth_pos (s : Symbols) : 0 < s.depth := by
  simp [depth, scopes]

@[simp]
theorem depth_openScope (s : Symbols) : s.openScope.depth = s.depth + 1 := by
  simp [openScope, depth, scopes]

/-- The outermost scope is never closed. -/
@[simp]
theorem depth_closeScope (s : Symbols) : s.closeScope.depth = max 1 (s.depth - 1) := by
  unfold closeScope depth scopes
  cases s.enclosing with
  | nil => simp
  | cons scope rest => simp

@[simp]
theorem depth_declare (s : Symbols) (name : String) (type : Ty) :
    (s.declare name type).depth = s.depth :=
  rfl

/-- A scope that is opened and closed again leaves the scopes as they were. -/
theorem scopes_closeScope_openScope (s : Symbols) : s.openScope.closeScope.scopes = s.scopes := by
  simp [openScope, closeScope, scopes]

end Symbols

end TinyImp
