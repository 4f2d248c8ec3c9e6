import TinyImp.Checker
import TinyImp.Command.Path

/-!
# Command-line arguments

The arguments are read from left to right. Each flag may be given once, in full; the output file
takes a value, in the next argument or in the same one; and there is exactly one input file. Behind
`--` everything is an input file. A request for the version or for help counts at once, unless an
argument before it was wrong.
-/

namespace TinyImp

/-- What the command is to do with its input. -/
structure Choices where
  /-- List the tokens and stop. -/
  lex : Bool := false
  /-- Show the tree and stop. -/
  parse : Bool := false
  /-- Show the tree and go on. -/
  tree : Bool := false
  /-- Take undeclared names for an `int`, where the compiler has that option. -/
  assumeIntParams : Bool := false
  /-- The file for the listing, if it is not the one beside the input. -/
  output : Option String := none
  deriving DecidableEq

/-- A complete command: an input file, and what to do with it. -/
structure Arguments extends Choices where
  input : String
  deriving DecidableEq

namespace Arguments

/-- The options that a compilation takes. -/
def options (a : Arguments) : Options :=
  { assumeIntParams := a.assumeIntParams }

/-- Where the listing goes: to the file asked for, or beside the input. -/
def outputPath (a : Arguments) : String :=
  a.output.getD (Path.withExtension a.input "asm")

end Arguments

/-- The cause of a refused command line. -/
inductive UsageError where
  | unknownOption (arg : String)
  | repeated (option : String)
  /-- A value given to a flag that takes none. -/
  | unneededValue (arg : String)
  | missingValue (option : String)
  | emptyValue
  | extraInput (arg : String)
  | missingInput
  deriving DecidableEq

/-- What is wrong with the command line. -/
def UsageError.message : UsageError → String
  | .unknownOption arg => s!"unexpected argument '{arg}' found"
  | .repeated option => s!"the argument '{option}' cannot be used multiple times"
  | .unneededValue arg => s!"unexpected value in '{arg}'"
  | .missingValue option => s!"a value is required for '{option}' but none was supplied"
  | .emptyValue => "a value is required but an empty one was supplied"
  | .extraInput arg => s!"unexpected argument '{arg}' found"
  | .missingInput => "no input file was supplied"

/-- What a command line asks for. -/
inductive Request where
  | compile (arguments : Arguments)
  | version
  | help
  deriving DecidableEq

namespace Request

/-- The arguments read so far. -/
structure Given extends Choices where
  input : Option String := none

namespace Given

/-- Takes an input file. -/
def takeInput (g : Given) (arg : String) : Except UsageError Given :=
  if g.input.isSome then .error (.extraInput arg)
  else if arg = "" then .error .emptyValue
  else .ok { g with input := some arg }

/-- Takes the output file. -/
def takeOutput (g : Given) (value : String) : Except UsageError Given :=
  if g.output.isSome then .error (.repeated "--output <FILE>")
  else if value = "" then .error .emptyValue
  else .ok { g with output := some value }

/-- Takes a flag by its name, which begins with two dashes. -/
def takeFlag (g : Given) (name : String) : Except UsageError Given :=
  match name with
  | "--lex" => if g.lex then .error (.repeated name) else .ok { g with lex := true }
  | "--parse" => if g.parse then .error (.repeated name) else .ok { g with parse := true }
  | "--tree" => if g.tree then .error (.repeated name) else .ok { g with tree := true }
  | "--assume-int-params" =>
    if g.assumeIntParams then .error (.repeated name) else .ok { g with assumeIntParams := true }
  | _ => .error (.unknownOption name)

/-- The request of a command line that has been read to its end. -/
def finish (g : Given) : Except UsageError Request :=
  match g.input with
  | none => .error .missingInput
  | some input => .ok (.compile { g.toChoices with input })

end Given

/-- What a single argument is by its form. -/
inductive Form where
  /-- Two dashes and nothing else. -/
  | escape
  /-- Two dashes and a name, with a value behind an equals sign or without. -/
  | long (name : String) (value : Option String)
  /-- A dash and letters. -/
  | short (letters : List Char)
  | plain
  deriving DecidableEq

/-- The form of an argument. A dash alone is no option. -/
def Form.ofArg (arg : String) : Form :=
  match arg.toList with
  | ['-', '-'] => .escape
  | '-' :: '-' :: rest =>
    let name := String.ofList ('-' :: '-' :: rest.takeWhile (· ≠ '='))
    match rest.dropWhile (· ≠ '=') with
    | [] => .long name none
    | _ :: value => .long name (some (String.ofList value))
  | '-' :: c :: rest => .short (c :: rest)
  | _ => .plain

/-- The flags that take no value. -/
def flagNames : List String :=
  ["--lex", "--parse", "--tree", "--assume-int-params", "--version", "--help"]

/-- The value written in the same argument as the letter of an option; an equals sign may stand
between the two. -/
def attached : List Char → String
  | '=' :: value => String.ofList value
  | value => String.ofList value

/-- Reads the arguments behind those that have been read. -/
def readArgs (g : Given) : List String → Except UsageError Request
  | [] => g.finish
  | arg :: rest =>
    match Form.ofArg arg with
    | .escape => do (← rest.foldlM Given.takeInput g).finish
    | .plain => do readArgs (← g.takeInput arg) rest
    | .long "--output" (some value) => do readArgs (← g.takeOutput value) rest
    | .long "--output" none => readValue g rest
    | .long name (some _) =>
      if name ∈ flagNames then .error (.unneededValue arg) else .error (.unknownOption arg)
    | .long "--version" none => .ok .version
    | .long "--help" none => .ok .help
    | .long name none => do readArgs (← g.takeFlag name) rest
    | .short ('V' :: _) => .ok .version
    | .short ('h' :: _) => .ok .help
    | .short ['o'] => readValue g rest
    | .short ('o' :: value) => do readArgs (← g.takeOutput (attached value)) rest
    | .short _ => .error (.unknownOption arg)
where
  /-- Reads the value of the output option, which stands in an argument of its own, and the
  arguments behind it. -/
  readValue (g : Given) : List String → Except UsageError Request
  | [] => .error (.missingValue "--output <FILE>")
  | value :: rest =>
    if Form.ofArg value = .plain then do readArgs (← g.takeOutput value) rest
    else .error (.missingValue "--output <FILE>")

/-- The request that a command line makes. -/
def ofArgs (args : List String) : Except UsageError Request :=
  readArgs {} args

end Request

end TinyImp
