import AppsScript.OrderedMap
import AppsScript.Text.Basic

/-!
# Options and settings

`Options` holds what a user wrote, each field on its own or not at all. `Options.settings` fills in the
defaults.
-/

namespace AppsScript

/-- Alias tokens such as `@` with the directories they stand for. -/
abbrev AliasMap := OrderedMap Text Text

/-- The options a user gave. -/
structure Options where
  /-- Whether source files are looked for and become entries. -/
  autoDetect : Option Bool := none
  /-- The directories to look in; entry names are relative to the first. -/
  includes : Option (List Text) := none
  /-- Patterns of paths to leave out, on top of those that are always left out. -/
  excludes : Option (List Text) := none
  /-- The directory the output goes to. -/
  outDir : Option Text := none
  /-- Whether console calls are redirected to the host's logger. -/
  transformLogger : Option Bool := none
  /-- Whether the host's manifest is copied next to the output. -/
  copyManifest : Option Bool := none
  /-- Whether import aliases are configured. -/
  enablePathAliases : Option Bool := none
  /-- Whether they are looked for. -/
  autoDetectPathAliases : Option Bool := none
  /-- The aliases to use if they are not looked for or none is found. -/
  pathAliases : Option AliasMap := none
  /-- Whether comments are kept, which rules out every kind of minification. -/
  preserveComments : Option Bool := none
deriving DecidableEq

/-- The options with every default filled in. -/
structure Settings where
  autoDetect : Bool
  includes : List Text
  excludes : List Text
  outDir : Text
  transformLogger : Bool
  copyManifest : Bool
  enablePathAliases : Bool
  autoDetectPathAliases : Bool
  pathAliases : AliasMap
  preserveComments : Bool
deriving DecidableEq

/-- The settings when nothing is given. -/
def Settings.default : Settings where
  autoDetect := true
  includes := ["src"]
  excludes := ["**/*.d.ts", "**/*.test.ts", "**/*.spec.ts"]
  outDir := "dist"
  transformLogger := true
  copyManifest := true
  enablePathAliases := true
  autoDetectPathAliases := true
  pathAliases := .ofList [("@", "./src"), ("~", "./src")]
  preserveComments := false

/-- What is given, and the default for every other option on its own. -/
def Options.settings (options : Options) : Settings where
  autoDetect := options.autoDetect.getD Settings.default.autoDetect
  includes := options.includes.getD Settings.default.includes
  excludes := options.excludes.getD Settings.default.excludes
  outDir := options.outDir.getD Settings.default.outDir
  transformLogger := options.transformLogger.getD Settings.default.transformLogger
  copyManifest := options.copyManifest.getD Settings.default.copyManifest
  enablePathAliases := options.enablePathAliases.getD Settings.default.enablePathAliases
  autoDetectPathAliases :=
    options.autoDetectPathAliases.getD Settings.default.autoDetectPathAliases
  pathAliases := options.pathAliases.getD Settings.default.pathAliases
  preserveComments := options.preserveComments.getD Settings.default.preserveComments

end AppsScript
