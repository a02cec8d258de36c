import AppsScript.Config.External
import AppsScript.Config.LanguageLevel
import AppsScript.Options.Settings
import AppsScript.Path.Basic

/-!
# The configuration of a build

What a build tool is told before it starts. A field that is not set leaves the choice to the tool.
-/

namespace AppsScript

/-- An entry of the build. -/
structure Input where
  name : Option Text := none
  /-- The path of its source file, as a text. -/
  source : Text
deriving DecidableEq

/-- The kind of module that the output is made of. -/
inductive ModuleFormat
  | esm
  | cjs
  | iife
deriving DecidableEq, Repr

/-- Where comments with a licence go. -/
inductive LegalComments
  | nowhere
  | inPlace
  | atEnd
deriving DecidableEq, Repr

/-- What is built and how it is put out. -/
structure BuildSection where
  inputs : Option (List Input) := none
  isLibrary : Option Bool := none
  outDir : Option Text := none
  entryFileNames : Option Text := none
  chunkFileNames : Option Text := none
  format : Option ModuleFormat := none
  codeSplitting : Option Bool := none
  inlineDynamicImports : Option Bool := none
  external : Option External := none
  treeshake : Option Bool := none
  minify : Option Bool := none
  sourcemap : Option Bool := none
  target : Option LanguageLevel := none

/-- How imports are resolved. -/
structure ResolveSection where
  aliases : Option AliasMap := none
  extensions : Option (List Text) := none
deriving DecidableEq

/-- What the compiler is told that runs before the build. -/
structure CompilerSection where
  target : Option LanguageLevel := none
  keepNames : Option Bool := none
  legalComments : Option LegalComments := none
  minifyWhitespace : Option Bool := none
  minifyIdentifiers : Option Bool := none
  minifySyntax : Option Bool := none
  removeComments : Option Bool := none
deriving DecidableEq

structure Config where
  cwd : Option Path := none
  build : BuildSection := {}
  resolve : ResolveSection := {}
  compiler : CompilerSection := {}

/-- The absolute root of the project; `current` is the absolute directory that a relative one is
relative to, and the root if none is set. -/
def Config.root (current : Path) (config : Config) : Path :=
  (current.join (config.cwd.getD "")).normalize

end AppsScript
