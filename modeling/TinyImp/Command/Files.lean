import TinyImp.Number.Written

/-!
# Files

What a command needs of a file system: to read a file whole and to replace a file whole. Both can
fail.
-/

namespace TinyImp

/-- The cause of a failed access to a file. -/
inductive FileError where
  | noSuchFile
  | notDirectory
  | isDirectory
  | nameTooLong
  /-- The bytes of the file are not the UTF-8 form of a text. -/
  | notText
  /-- Any other failure, with the number and the words that the system has for it. -/
  | system (code : Nat) (details : String)
  deriving DecidableEq

namespace FileError

/-- The words and the number of a failure that the system reports. -/
def systemText (code : Nat) (details : String) : String :=
  s!"{details} (os error {digits code})"

/-- What went wrong. -/
def message : FileError → String
  | .noSuchFile => systemText 2 "No such file or directory"
  | .notDirectory => systemText 20 "Not a directory"
  | .isDirectory => systemText 21 "Is a directory"
  | .nameTooLong => systemText 36 "File name too long"
  | .notText => "stream did not contain valid UTF-8"
  | .system code details => systemText code details

end FileError

/-- Access to files, by path. -/
class Files (m : Type → Type) where
  read : String → m (Except FileError ByteArray)
  write : String → ByteArray → m (Except FileError Unit)

/-- Reads a file as text. -/
def Files.readText {m : Type → Type} [Monad m] [Files m] (path : String) :
    m (Except FileError String) := do
  let result ← Files.read path
  pure <| result.bind fun bytes =>
    match String.fromUTF8? bytes with
    | some text => .ok text
    | none => .error .notText

end TinyImp
