import AppsScript.Discovery.Empty
import AppsScript.Discovery.EntryName
import AppsScript.Glob

/-!
# The entries of a project

`detect` looks for source files in the given directories and gives each one with code in it an entry
name of its own. The result depends on the files alone, not on the order in which they are found.
-/

namespace AppsScript

/-- Entry names with the source files they stand for. -/
abbrev EntryMap := OrderedMap Text Path

namespace Discovery

def sourceExtension : Text := "ts"

/-- Patterns of what is never an entry: declarations, dependencies and tests. -/
def alwaysIgnored : List Text := ["**/*.d.ts", "**/node_modules/**", "**/__tests__/**"]

variable {σ : Type} [FileSystem σ]

/-- The source files in the given directories, each once, in the order of their paths. -/
def sourceFiles (fs : σ) (cwd : Path) (includes : List Text) : Except Fault (List Path) := do
  let found ← includes.mapM fun dir => FileSystem.walk fs (cwd.join ⟨dir⟩)
  let sources := found.flatten.filter fun file => file.extension? == some sourceExtension
  return ((sources.map Path.normalize).mergeSort Path.le).eraseDups

/-- A name for the entry of a file that no other entry has. -/
def freshName (entries : EntryMap) (name : Text) (shown : Path) : Logged Text :=
  if entries.contains name then do
    let unique := EntryName.unique entries.keys name
    Logged.tell (.nameTaken name unique shown)
    return unique
  else pure name

/-- Adds the entries of the files that no pattern matches and that have code in them; none if a match
breaks off. -/
def addEntries (fs : σ) (cwd base : Path) (ignored : List Text) :
    List Path → EntryMap → Logged (Option EntryMap)
  | [], entries => pure (some entries)
  | file :: files, entries => do
    let shown := file.shownFrom cwd
    match Glob.matchesAny? ignored shown.text with
    | none => return none
    | some true => addEntries fs cwd base ignored files entries
    | some false =>
      if ← isEmpty fs file then
        Logged.tell (.emptySource shown)
        addEntries fs cwd base ignored files entries
      else
        let name ← freshName entries (EntryName.ofPath file base) shown
        addEntries fs cwd base ignored files (entries.insert name file)

/-- The directory that entry names are relative to. -/
def baseDir (cwd : Path) (includes : List Text) : Path :=
  (cwd.join ⟨includes.headD "src"⟩).normalize

/-- The entries for the source files in the directories `includes`, those left out that match one of
the patterns `excludes`. A search that fails finds none. -/
def detect (fs : σ) (cwd : Path) (includes excludes : List Text) : Logged EntryMap :=
  match sourceFiles fs cwd includes with
  | .error fault => do
    Logged.tell (.searchFailed (FileSystem.describe fs fault))
    return .empty
  | .ok files => do
    match ← addEntries fs cwd (baseDir cwd includes) (alwaysIgnored ++ excludes) files .empty with
    | some entries => return entries
    | none =>
      Logged.tell .searchBrokeOff
      return .empty

end Discovery

end AppsScript
