import AppsScript.Path.Basic

/-!
# File systems

What the program asks of the place where projects live: a state, questions about it, and operations
that give a new state, also when they fail. A fault is a cause; each file system has its own words for
it.
-/

namespace AppsScript

/-- Why a file system operation fails. -/
inductive Fault
  | denied
  | notFound
  | alreadyExists
  | isADirectory
  | notADirectory
  /-- The bytes of a file are no text. -/
  | notText
  /-- Something other than a file was to be copied. -/
  | notAFile
  /-- A walk came back to a directory that it is in. -/
  | walkLoop
  /-- A path leads through too many links. -/
  | linkLoop
  | nameTooLong
  /-- A path has a character that no name may have. -/
  | badName
deriving DecidableEq, Repr

/-- A place where projects live, with states of type `σ`. -/
class FileSystem (σ : Type) where
  /-- The content of a text file. -/
  readText : σ → Path → Except Fault Text
  /-- Whether there is a file or directory. -/
  isThere : σ → Path → Bool
  /-- The files below a directory in the order of their paths; none if there is no such directory. -/
  walk : σ → Path → Except Fault (List Path)
  /-- Creates a directory and those above it that are missing. -/
  createDirs : σ → Path → Except Fault Unit × σ
  /-- Gives a file a content, creating it if need be. -/
  write : σ → Path → Text → Except Fault Unit × σ
  /-- Gives the second file the content of the first; the result is its size in bytes. -/
  copy : σ → (source target : Path) → Except Fault Nat × σ
  /-- The wording of a fault. -/
  describe : σ → Fault → Text

end AppsScript
