import AppsScript.Config.Basic
import AppsScript.Discovery.Entries

/-!
# The shape of the output

The host runs one self-contained module per entry: nothing external, nothing shared, nothing renamed.
-/

namespace AppsScript

/-- The newest language level that the host is known to run. -/
def hostLevel : LanguageLevel := .es2017

def EntryMap.inputs (entries : EntryMap) : List Input :=
  entries.toList.map fun (name, path) => { name := some name, source := path.text }

namespace Config

/-- The configuration with the given aliases added to those it declares. -/
def withAliases (aliases : AliasMap) (config : Config) : Config :=
  let declared := config.resolve.aliases.getD .empty
  { config with resolve := { config.resolve with aliases := some (declared.addMissing aliases) } }

/-- The configuration that builds the entries for the host. Without aliases the alias table stays as it
is. -/
def forHost (entries : EntryMap) (outDir : Text) (aliases : Option AliasMap) (config : Config) :
    Config :=
  let build :=
    { config.build with
      inputs := some entries.inputs
      isLibrary := some false
      outDir := some outDir
      entryFileNames := some "[name].js"
      format := some .esm
      codeSplitting := some false
      inlineDynamicImports := some false
      external := some .never
      treeshake := some false
      minify := some false
      sourcemap := some false
      target := some hostLevel }
  let config := { config with build := build }
  match aliases with
  | some aliases => config.withAliases aliases
  | none => config

end Config

/-- Tells which source files have become entries, their paths shown from `cwd`. -/
def tellSources (entries : EntryMap) (cwd : Path) : Logged Unit :=
  Logged.tell (.sourcesFound ((entries.mapValues fun _ path => path.shownFrom cwd).toList))

end AppsScript
