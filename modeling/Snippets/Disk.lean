import Snippets.Text

/-!
# Files

What the program needs of a file system, in any monad. A path is a text with slashes.
-/

namespace Snippets

namespace Path

/-- A path inside a directory; an absolute path stands for itself. -/
def join (directory name : Text) : Text :=
  if name.head? == some '/' || directory.isEmpty then name
  else if directory.getLast? == some '/' then directory ++ name
  else directory ++ '/' :: name

def components : Text → List Text
  | [] => [[]]
  | '/' :: rest => [] :: components rest
  | c :: rest => match components rest with
    | first :: others => (c :: first) :: others
    | [] => [[c]]

def parent (path : Text) : Text :=
  (path.reverse.dropWhile (· != '/')).tail.reverse

def hasExtension (extension name : Text) : Bool :=
  let ending := '.' :: extension
  ending.length < name.length && ending.reverse.isPrefixOf name.reverse

end Path

structure Disk (m : Type → Type) where
  /-- The text of a file; none when it cannot be read or is no text. -/
  read : Text → m (Option Text)
  /-- Writes a file; false when that is not possible. -/
  write : Text → Text → m Bool
  /-- There is a file or directory. -/
  isPresent : Text → m Bool
  /-- The names in a directory, in any order. -/
  names : Text → m (List Text)
  /-- Makes a directory and those around it where they are missing. -/
  makeDirectory : Text → m Unit

end Snippets
