import AppsScript.Alias.Target
import AppsScript.FileSystem.Basic
import AppsScript.Json.Commented
import AppsScript.Json.Value
import AppsScript.Log
import AppsScript.Options.Settings

/-!
# Aliases of the project file

The project file is JSON with comments. Its aliases are the members of `compilerOptions.paths`, relative
to `compilerOptions.baseUrl`. `ProjectFile.read?` refuses a file in which one of these is not what it has
to be; any other member is skipped, and so is a single alias without a target (`aliases`).
-/

namespace AppsScript.Alias

open Json

/-- What a project file says about aliases. -/
structure ProjectFile where
  baseUrl : Option Text := none
  paths : OrderedMap Text Value := .empty

/-- A reader of a value: it gives what it has read and the tokens behind. -/
abbrev Reader (α : Type) := List Token → Option (α × List Token)

/-- A key and how its value changes what has been read so far. -/
abbrev Member (α : Type) := Text × (α → Reader α)

/-- Reads the members of an object from a key on, at most `count` of them, into `a`. A key in `known`
occurs once at most, and those in `seen` have occurred; the value of any other key is skipped. -/
def readMembers {α : Type} (known : List (Member α)) : (count : Nat) → (seen : List Text) → α → Reader α
  | count + 1, seen, a, .text (some k) :: .colon :: rest => do
    let (a, seen, rest) ←
      match known.find? fun member => member.1 == k with
      | none => (skipValue? rest).map fun rest => (a, seen, rest)
      | some (_, read) =>
        if k ∈ seen then none else (read a rest).map fun r => (r.1, k :: seen, r.2)
    match rest with
    | .closeBrace :: rest => some (a, rest)
    | .comma :: rest => readMembers known count seen a rest
    | _ => none
  | _, _, _, _ => none

def readObject {α : Type} (known : List (Member α)) (a : α) : Reader α
  | .openBrace :: .closeBrace :: rest => some (a, rest)
  | .openBrace :: rest => readMembers known rest.length [] a rest
  | _ => none

def readBaseUrl (file : ProjectFile) : Reader ProjectFile
  | .null :: rest => some ({ file with baseUrl := none }, rest)
  | .text (some t) :: rest => some ({ file with baseUrl := some t }, rest)
  | _ => none

/-- How deep the values in `paths` and that object itself may be nested; with the two objects around it
that makes 127. -/
def pathsDepth : Nat := 125

/-- Reads the targets of the aliases, of whatever form. A repeated key keeps its first position and
takes its last value. -/
def readPaths (file : ProjectFile) : Reader ProjectFile := fun tokens =>
  match Value.read? (pathsDepth + 1) tokens with
  | some (.object members, rest) => some ({ file with paths := .ofList members }, rest)
  | _ => none

/-- Reads the compiler options: an object, or an array of the two that matter, the second of which may be
missing. -/
def readCompilerOptions (file : ProjectFile) : Reader ProjectFile
  | .openBracket :: rest => do
    let (file, rest) ← readBaseUrl file rest
    match rest with
    | .closeBracket :: rest => some (file, rest)
    | .comma :: rest =>
      let (file, rest) ← readPaths file rest
      match rest with
      | .closeBracket :: rest => some (file, rest)
      | _ => none
    | _ => none
  | tokens => readObject [("baseUrl", readBaseUrl), ("paths", readPaths)] file tokens

/-- Reads a project file: an object, or an array of the compiler options or of nothing. -/
def readProjectFile : Reader ProjectFile
  | .openBracket :: .closeBracket :: rest => some ({}, rest)
  | .openBracket :: rest => do
    let (file, rest) ← readCompilerOptions {} rest
    match rest with
    | .closeBracket :: rest => some (file, rest)
    | _ => none
  | tokens => readObject [("compilerOptions", readCompilerOptions)] {} tokens

/-- The project file that a text with comments holds. -/
def ProjectFile.read? (text : Text) : Option ProjectFile :=
  match readProjectFile (tokens (plain text)) with
  | some (file, []) => some file
  | _ => none

/-- The target that a value of `paths` names: the first of an array. -/
def firstTarget? : Value → Option Text
  | .array (.text t :: _) => some t
  | _ => none

/-- The aliases that a project file declares. One that is declared twice, with and without a wildcard,
keeps its first position and takes its last target. -/
def ProjectFile.aliases (file : ProjectFile) : AliasMap :=
  .ofList <| file.paths.toList.filterMap fun (pattern, value) =>
    (firstTarget? value).map fun t =>
      (Text.dropEnding wildcardEnding pattern, target (file.baseUrl.getD ".") t)

def projectFileName : Path := "tsconfig.json"

variable {σ : Type} [FileSystem σ]

/-- The aliases that the project file in `root` declares; none if there is no such file or it makes no
sense. -/
def ofProjectFile (fs : σ) (root : Path) : Logged AliasMap :=
  let path := root.join projectFileName
  match FileSystem.readText fs path with
  | .error fault => do
    Logged.tell (.noProjectFile path (FileSystem.describe fs fault))
    return .empty
  | .ok content =>
    match ProjectFile.read? content with
    | some file => return file.aliases
    | none => do
      Logged.tell (.badProjectFile path)
      return .empty

end AppsScript.Alias
