/-!
# Paths

A path is a text whose components are separated by slashes. Empty components and components that
are a single dot only repeat the place they stand at, unless the dot comes first.
-/

namespace TinyImp.Path

/-- The texts between slashes; there is always at least one. -/
def splitSlash : List Char → List (List Char)
  | [] => [[]]
  | c :: rest =>
    if c = '/' then [] :: splitSlash rest
    else
      match splitSlash rest with
      | [] => [[c]]
      | part :: parts => (c :: part) :: parts

/-- The texts with a slash between each two. -/
def joinSlash : List (List Char) → List Char
  | [] => []
  | [part] => part
  | part :: parts => part ++ '/' :: joinSlash parts

/-- There is a text before the first slash. -/
theorem splitSlash_ne_nil (path : List Char) : splitSlash path ≠ [] := by
  cases path with
  | nil => simp [splitSlash]
  | cons c rest =>
    unfold splitSlash
    split
    · simp
    · split <;> simp

/-- Splitting loses nothing but the slashes. -/
theorem joinSlash_splitSlash (path : List Char) : joinSlash (splitSlash path) = path := by
  induction path with
  | nil => rfl
  | cons c rest ih =>
    have hne := splitSlash_ne_nil rest
    cases hparts : splitSlash rest with
    | nil => exact absurd hparts hne
    | cons part parts =>
      rw [hparts] at ih
      by_cases hc : c = '/'
      · simp [splitSlash, hparts, hc, joinSlash, ih]
      · cases parts with
        | nil => simp_all [splitSlash, joinSlash]
        | cons next parts => simp_all [splitSlash, joinSlash]

/-- The component does not lead anywhere. -/
def isIdle (part : List Char) : Bool :=
  part = [] || part = ['.']

/-- The components without the idle ones at the end; the first component stays in any case. -/
def trimEnd : List (List Char) → List (List Char)
  | [] => []
  | first :: rest => first :: (rest.reverse.dropWhile isIdle).reverse

/-- The name without its extension, which is what follows the last dot. A dot in front is part of
the name. -/
def stem (name : List Char) : List Char :=
  match name.reverse.dropWhile (· ≠ '.') with
  | [] => name
  | [_] => name
  | _ :: before => before.reverse

/-- The component names a file or a directory, and not a place relative to another one. -/
def isName (part : List Char) : Bool :=
  !isIdle part && part ≠ ['.', '.']

/-- The path with another extension. A path that does not end in a name stays as it is. -/
def withExtension (path : String) (extension : String) : String :=
  let parts := trimEnd (splitSlash path.toList)
  match parts.getLast? with
  | none => path
  | some name =>
    if isName name then
      String.ofList (joinSlash (parts.dropLast ++ [stem name ++ '.' :: extension.toList]))
    else path

end TinyImp.Path
