import AppsScript.Alias.Resolve
import AppsScript.Build.HostShape

/-!
# Preparing a build

All that the options do to the configuration of a build (`Config.prepare`): compiler options first, then
entries, aliases and the shape of the output.
-/

namespace AppsScript

/-- The compiler options for the host. Functions keep their names because the host looks them up by name;
with `keepComments` nothing is minified or left out. -/
def CompilerSection.forHost (keepComments : Bool) (compiler : CompilerSection) : CompilerSection :=
  let named :=
    { compiler with target := some (compiler.target.getD hostLevel), keepNames := some true }
  if keepComments then
    { named with
      legalComments := some .inPlace
      minifyWhitespace := some false
      minifyIdentifiers := some false
      minifySyntax := some false
      removeComments := some false }
  else named

namespace Config

variable {σ : Type} [FileSystem σ]

/-- The configuration that builds the entries found below the root of the project. If none is found, the
build and resolve sections stay as they are. -/
def withEntries (fs : σ) (root : Path) (settings : Settings) (config : Config) : Logged Config := do
  let entries ← Discovery.detect fs root settings.includes settings.excludes
  if entries.isEmpty then
    Logged.tell (.noSources settings.includes)
    return config
  let aliases ← Alias.resolve fs root config settings
  tellSources entries root
  return config.forHost entries settings.outDir aliases

/-- The configuration of a build for the host; `current` is the directory that the program runs in. -/
def prepare (fs : σ) (current : Path) (settings : Settings) (config : Config) : Logged Config :=
  let config := { config with compiler := config.compiler.forHost settings.preserveComments }
  if settings.autoDetect then config.withEntries fs (config.root current) settings else pure config

end Config

end AppsScript
