import AppsScript.FileSystem.Basic
import AppsScript.Options.Settings

/-!
# Aliases by convention

Directory names that many projects use, and the aliases they are known by.
-/

namespace AppsScript.Alias

/-- Each alias with the directories it may stand for, the most likely first. -/
def conventions : List (Text × List Text) :=
  [("@", ["src", "app", "lib"]),
    ("~", ["src", "app"]),
    ("@components", ["src/components", "components"]),
    ("@utils", ["src/utils", "utils", "src/lib", "lib"]),
    ("@types", ["src/types", "types", "@types"])]

variable {σ : Type} [FileSystem σ]

/-- Each conventional alias with the first of its directories that is there. -/
def byConvention (fs : σ) (root : Path) : AliasMap :=
  .ofList <| conventions.filterMap fun (name, dirs) =>
    (dirs.find? fun dir => FileSystem.isThere fs (root.join ⟨dir⟩)).map fun dir => (name, "./" ++ dir)

end AppsScript.Alias
