import AppsScript.Plugin.Basic

/-!
# A plugin that signs

A plugin to watch a pipeline with: it leaves its name wherever it comes by. At chosen stages it fails
instead.
-/

namespace AppsScript.Plugin

/-- How a signing plugin behaves. -/
structure Signing where
  name : Text
  order : Order := .unordered
  /-- Whether it leaves the code of modules as it is. -/
  skipsModules : Bool := false
  /-- The stages at which it fails. -/
  fails : List Stage := []
  failure : Failure := "boom"

namespace Signing

/-- A hook that signs a state, unless the plugin fails at the stage. -/
def hook {S : Type} (signing : Signing) (stage : Stage) (sign : S → S) : Hook S := fun s =>
  pure (if stage ∈ signing.fails then (s, some signing.failure) else (sign s, none))

/-- The configuration with a signed output directory. -/
def signConfig (name : Text) (config : Config) : Config :=
  { config with build.outDir := some (config.build.outDir.getD [] ++ name) }

/-- The bundle with every chunk signed. -/
def signBundle (name : Text) (bundle : Bundle) : Bundle :=
  bundle.mapValues fun _ output => output.mapCode (· ++ name)

def plugin (σ : Type) (signing : Signing) : Plugin σ where
  name := signing.name
  order := signing.order
  config _ := signing.hook .config (signConfig signing.name)
  transform _ code :=
    if .transform ∈ signing.fails then .error signing.failure
    else .ok (if signing.skipsModules then none else some (code ++ signing.name))
  generateBundle := signing.hook .generateBundle (signBundle signing.name)
  writeBundle _ := signing.hook .writeBundle id

end Signing

end AppsScript.Plugin
