import AppsScript.Build.Manifest
import AppsScript.Build.Prepare
import AppsScript.Plugin.Basic
import AppsScript.Script.Chunk

/-!
# The plugin for the host

It prepares the configuration, makes the passes over compiled modules and chunks, and puts the manifest
next to them.
-/

namespace AppsScript.Plugin

variable {σ : Type} [FileSystem σ]

/-- Whether a key of the bundle is that of a script file. -/
def isScriptKey (key : Text) : Bool := (Text.before? ".js" key).isSome

/-- The bundle with the last pass made over every chunk under the key of a script file. -/
def finishBundle (settings : Settings) (bundle : Bundle) : Bundle :=
  bundle.mapValues fun key output =>
    if isScriptKey key then output.mapCode (finishChunk settings) else output

/-- The plugin that adapts a build to the host. It runs late, when the code has been compiled. -/
def host (current : Path) (settings : Settings) : Plugin σ where
  name := "gaspack:gas"
  order := .late
  config fs config := do
    let config ← config.prepare fs current settings
    return (config, none)
  transform id code :=
    .ok (if isScript id then some (adaptModule settings code) else none)
  generateBundle bundle := pure (finishBundle settings bundle, none)
  writeBundle written fs :=
    if settings.copyManifest then do
      let (_, fs) ← Manifest.copy fs written.cwd written.dir
      return (fs, none)
    else pure (fs, none)

end AppsScript.Plugin
