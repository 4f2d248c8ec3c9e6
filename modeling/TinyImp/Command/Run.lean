import TinyImp.Command.Arguments
import TinyImp.Command.Files
import TinyImp.Compilation
import TinyImp.Program.Tree

/-!
# Running the command

The command reads the input file, compiles it, shows what was asked for and the summary of the
diagnostics, and writes the listing. It fails if the input cannot be read, if it cannot be parsed
where more than its tokens is wanted, or if the listing cannot be written.
-/

namespace TinyImp

/-- What a run of the command leaves behind for its caller. -/
structure Outcome where
  exitCode : Nat
  stdout : String
  stderr : String
  deriving DecidableEq

/-- The cause of a failed run. -/
inductive CommandError where
  | read (path : String) (cause : FileError)
  | write (path : String) (cause : FileError)
  | parse (cause : ParseError)
  deriving DecidableEq

namespace CommandError

/-- The error behind the failure. -/
def cause : CommandError → String
  | .read _ cause => cause.message
  | .write _ cause => cause.message
  | .parse cause => cause.message

/-- What went wrong. -/
def message : CommandError → String
  | .read path cause => s!"can't read {path}: {cause.message}"
  | .write path cause => s!"can't write {path}: {cause.message}"
  | .parse cause => s!"parse error: {cause.message}"

/-- The report of a failure: the failure, and its cause below it. -/
def report (e : CommandError) : String :=
  s!"Error: {e.message}\n\nCaused by:\n    {e.cause}\n"

end CommandError

namespace Outcome

/-- The run succeeded. -/
def success (stdout : String) : Outcome :=
  ⟨0, stdout, ""⟩

/-- The run failed after it had shown something. -/
def failure (stdout : String) (e : CommandError) : Outcome :=
  ⟨1, stdout, e.report⟩

/-- The command line was refused. -/
def refusal (e : UsageError) : Outcome :=
  ⟨2, "", s!"error: {e.message}\n"⟩

end Outcome

/-- The listing of tokens, one on each line. -/
def tokenListing (tokens : List Located) : String :=
  String.join (tokens.map (·.description ++ "\n"))

/-- The name and the version of the command. -/
def versionText : String := "cemi 0.1.0\n"

/-- How the command is used. -/
def helpText : String :=
  String.join
    [ "Compiles a small imperative language into pseudo-assembly\n\n",
      "Usage: cemi [OPTIONS] <INPUT>\n\n",
      "Arguments:\n",
      "  <INPUT>\n\n",
      "Options:\n",
      "      --lex\n",
      "      --parse\n",
      "      --tree\n",
      "      --assume-int-params\n",
      "  -o, --output <FILE>\n",
      "  -h, --help               Print help\n",
      "  -V, --version            Print version\n" ]

section

variable {m : Type → Type} [Monad m] [Files m]

/-- Compiles a text and does what the arguments ask for with the result. -/
def Arguments.process (a : Arguments) (source : String) : m Outcome :=
  let c := compile source a.options
  let summary := Diagnostic.summary c.diagnostics
  if a.lex then
    pure (.success (tokenListing c.tokens ++ summary))
  else
    match c.program with
    | .error e => pure (.failure (tokenListing c.tokens ++ summary) (.parse e))
    | .ok p =>
      let shown := if a.tree || a.parse then p.tree else ""
      if a.parse then
        pure (.success (shown ++ summary))
      else do
        match ← Files.write a.outputPath p.assembly.listing.toUTF8 with
        | .error e => pure (.failure shown (.write a.outputPath e))
        | .ok () => pure (.success (shown ++ summary))

/-- Runs the command on a file. -/
def Arguments.run (a : Arguments) : m Outcome := do
  match ← Files.readText a.input with
  | .error e => pure (.failure "" (.read a.input e))
  | .ok source => a.process source

/-- Runs the command with the arguments of a command line. -/
def runCommand (args : List String) : m Outcome :=
  match Request.ofArgs args with
  | .error e => pure (.refusal e)
  | .ok .version => pure (.success versionText)
  | .ok .help => pure (.success helpText)
  | .ok (.compile a) => a.run

end

end TinyImp
