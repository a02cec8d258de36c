import AppsScript.FileSystem.Basic
import AppsScript.Log
import AppsScript.Source.Comment
import AppsScript.Text.Blank

/-!
# Empty source files

A source file with nothing but white space and comments in it has no code to build.
-/

namespace AppsScript.Discovery

variable {σ : Type} [FileSystem σ]

/-- Whether there is no code in a text. -/
def isBlankCode (code : Text) : Bool := (Text.trim (Source.strip code)).isEmpty

/-- Whether there is no code in a file. One that cannot be read counts as empty. -/
def isEmpty (fs : σ) (path : Path) : Logged Bool :=
  match FileSystem.readText fs path with
  | .ok code => pure (isBlankCode code)
  | .error fault => do
    Logged.tell (.unreadableSource path (FileSystem.describe fs fault))
    pure true

end AppsScript.Discovery
