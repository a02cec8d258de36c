import AppsScript.OrderedMap
import AppsScript.Path.Basic

/-!
# Diagnostics

What the program tells while it works. A diagnostic is a value that says what happened; its level, its
source and its wording are functions of it. `Logged` is a computation that emits diagnostics.
-/

namespace AppsScript

/-- How important a diagnostic is, the most important first. -/
inductive Level
  | error
  | warn
  | info
  | debug
deriving DecidableEq, Repr

inductive Diagnostic
  /-- A file counts as empty because it cannot be read. -/
  | unreadableSource (path : Path) (fault : Text)
  /-- A source file is left out because there is no code in it. -/
  | emptySource (shown : Path)
  /-- An entry gets a name with a number because another one has its name. -/
  | nameTaken (name unique : Text) (shown : Path)
  /-- The search for source files failed. -/
  | searchFailed (fault : Text)
  /-- The search for source files broke off. -/
  | searchBrokeOff
  | noSources (includes : List Text)
  /-- There is no project file to read aliases from. -/
  | noProjectFile (path : Path) (fault : Text)
  /-- The project file makes no sense. -/
  | badProjectFile (path : Path)
  | aliasesFound (aliases : OrderedMap Text Text)
  /-- The entries found, each with its path as it is shown. -/
  | sourcesFound (entries : List (Text × Path))
  | noManifest (root : Path)
  | manifestCopied (dir : Path)
  | manifestNotCopied (dir : Path) (fault : Text)
deriving DecidableEq

namespace Diagnostic

def level : Diagnostic → Level
  | manifestNotCopied .. => .error
  | nameTaken .. | searchFailed .. | searchBrokeOff | noSources .. | noManifest .. => .warn
  | aliasesFound .. | sourcesFound .. | manifestCopied .. => .info
  | unreadableSource .. | emptySource .. | noProjectFile .. | badProjectFile .. => .debug

/-- The part of the program that speaks, by the name that log filters know it by. -/
def source : Diagnostic → Text
  | unreadableSource .. => "gaspack::discovery::is_empty"
  | emptySource .. | nameTaken .. | searchFailed .. | searchBrokeOff =>
    "gaspack::discovery::file_detector"
  | noSources .. => "gaspack::config_processor"
  | noProjectFile .. | badProjectFile .. => "gaspack::path_alias::tsconfig"
  | aliasesFound .. => "gaspack::path_alias"
  | sourcesFound .. => "gaspack::build_config"
  | noManifest .. | manifestCopied .. | manifestNotCopied .. => "gaspack::manifest"

def message : Diagnostic → Text
  | unreadableSource path fault =>
    Text.concat ["Treating unreadable ", path.text, " as empty: ", fault]
  | emptySource shown => Text.concat ["Skipping empty source file ", shown.text]
  | nameTaken name unique shown =>
    Text.concat ["Entry name `", name, "` is already taken, using `", unique, "` for ", shown.text]
  | searchFailed fault => Text.concat ["Failed to detect source files: ", fault]
  | searchBrokeOff => "Source file detection did not finish"
  | noSources includes => Text.concat ["No source files found in ", Text.joinWith ", " includes]
  | noProjectFile path fault => Text.concat ["No path aliases from ", path.text, ": ", fault]
  | badProjectFile path => Text.concat ["Could not parse ", path.text, " for path aliases"]
  | aliasesFound aliases =>
    let shown := aliases.toList.map fun p => Text.concat [p.1, " -> ", p.2]
    Text.concat ["Auto-detected path aliases: \x7b", Text.joinWith ", " shown, "\x7d"]
  | sourcesFound entries =>
    let shown := entries.map fun e => Text.concat ["  ", e.1, ": ", e.2.text]
    Text.concat ["Auto-detected ", Text.ofNat entries.length, " source file(s):\n",
      Text.joinWith "\n" shown]
  | noManifest root => Text.concat ["appsscript.json not found in ", root.text, ", skipping copy"]
  | manifestCopied dir => Text.concat ["Copied appsscript.json to ", dir.text]
  | manifestNotCopied dir fault =>
    Text.concat ["Failed to copy appsscript.json to ", dir.text, ": ", fault]

end Diagnostic

/-- A value and the diagnostics on the way to it, in order. -/
structure Logged (α : Type) where
  value : α
  log : List Diagnostic

namespace Logged

instance : Monad Logged where
  pure a := ⟨a, []⟩
  bind m f := ⟨(f m.value).value, m.log ++ (f m.value).log⟩

def tell (d : Diagnostic) : Logged Unit := ⟨(), [d]⟩

variable {α β : Type}

@[simp] theorem value_pure (a : α) : (pure a : Logged α).value = a := rfl
@[simp] theorem value_bind (m : Logged α) (f : α → Logged β) :
    (m >>= f).value = (f m.value).value := rfl
@[simp] theorem log_bind (m : Logged α) (f : α → Logged β) :
    (m >>= f).log = m.log ++ (f m.value).log := rfl

end Logged

end AppsScript
