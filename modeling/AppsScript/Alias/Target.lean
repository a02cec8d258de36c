import AppsScript.Path.Basic

/-!
# Alias targets

An alias of a project file stands for a directory relative to a base. The alias table names it relative
to the root of the project.
-/

namespace AppsScript.Alias

/-- The ending of patterns that stand for everything in a directory. -/
def wildcardEnding : Text := "/*"

/-- The directory that a target of a project file names. -/
def targetDir (target : Text) : Text :=
  let dir := Text.dropEnding wildcardEnding target
  if dir = "*" then [] else dir

/-- Whether a text tells that it is a path, by a slash at its start or by leading out of the root. -/
def isExplicit (dir : Text) : Bool :=
  dir.head? == some '/' || (Text.after? "../" dir).isSome || dir == ".."

/-- The directory `target`, given relative to `baseUrl`, as seen from the root of the project. -/
def target (baseUrl target : Text) : Text :=
  let dir := targetDir target
  if Path.isAbsolute ⟨dir⟩ then dir
  else
    let resolved := (Path.join ⟨baseUrl⟩ ⟨dir⟩).normalize.text
    if isExplicit resolved then resolved else "./" ++ resolved

end AppsScript.Alias
