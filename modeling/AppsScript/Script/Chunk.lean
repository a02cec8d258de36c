import AppsScript.Options.Settings
import AppsScript.Script.Arrow
import AppsScript.Script.Logger
import AppsScript.Script.ModuleSyntax
import AppsScript.Script.Trigger

/-!
# Passes over modules and chunks

The passes go over a module when it is loaded (`adaptModule`) and over a finished chunk once more
(`finishChunk`). Only compiled script files of the project itself are such modules (`isScript`).
-/

namespace AppsScript

/-- Whether a module id, a path with maybe a query behind a `?`, names a script file outside every
`node_modules` directory. -/
def isScript (id : Text) : Bool :=
  let path := Text.upTo '?' id
  (Text.before? ".js" path).isSome &&
    !(Text.pieces (· ∈ ['/', '\\']) path).contains ("node_modules" : Text)

/-- Console calls redirected, if the settings ask for it. -/
def redirectCalls (settings : Settings) (code : Text) : Text :=
  if settings.transformLogger then Logger.redirect code else code

/-- The pass over one module: no module syntax, calls of the host's logger, marked triggers. -/
def adaptModule (settings : Settings) (code : Text) : Text :=
  Trigger.mark (redirectCalls settings (ModuleSyntax.remove code))

/-- The pass over a finished chunk. Arrow functions are declared before triggers are marked, so that
those among them are marked too. -/
def finishChunk (settings : Settings) (code : Text) : Text :=
  Trigger.mark (Arrow.declare (redirectCalls settings (ModuleSyntax.remove code)))

end AppsScript
