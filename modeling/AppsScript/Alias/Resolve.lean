import AppsScript.Alias.Convention
import AppsScript.Alias.ProjectFile
import AppsScript.Config.Basic

/-!
# The aliases of a build

Aliases come from the configuration, the project file, the layout of the directories and the options.
What is declared in one place is not overruled from a later one.
-/

namespace AppsScript.Alias

variable {σ : Type} [FileSystem σ]

def ofConfig (config : Config) : AliasMap := config.resolve.aliases.getD .empty

/-- The aliases that are found: those declared in the configuration, then others of the project file; if
there are none, those by convention. -/
def detect (fs : σ) (root : Path) (declared : AliasMap) : Logged AliasMap := do
  let found := declared.addMissing (← ofProjectFile fs root)
  let aliases := if found.isEmpty then byConvention fs root else found
  Logged.tell (.aliasesFound aliases)
  return aliases

/-- The aliases of a build, or none if it is to have no aliases: those that are found if they are looked
for and there are any, else those of the options. -/
def resolve (fs : σ) (root : Path) (config : Config) (settings : Settings) :
    Logged (Option AliasMap) := do
  if !settings.enablePathAliases then return none
  let found ← if settings.autoDetectPathAliases then detect fs root (ofConfig config) else pure .empty
  return some (if found.isEmpty then settings.pathAliases else found)

end AppsScript.Alias
