import AppsScript.Scan

/-!
# Calls of the host's logger

The runtime has no console that anyone reads; its log is the global `Logger`. Calls of `console.log`,
`console.warn` and `console.error` become calls of it, unless `console` is the end of a longer name or
a member of something.
-/

namespace AppsScript.Logger

/-- The logging global of the runtime. -/
def host : Text := "Logger"

/-- The characters that make `console` behind them a part of something else. -/
def extendsName (c : Char) : Bool := Text.isAlphanumeric c || c == '_' || c == '$' || c == '.'

/-- A call of the console, up to its opening parenthesis; the result is the call of the host's logger,
or `none` where `console` is not a name of its own. -/
def consoleCall : Scan (Option Text) := do
  let c ← Scan.here
  .word "console."
  let method ← Scan.oneOf ["log", "warn", "error"]
  .word "("
  pure (if c.before.head?.any extendsName then none
    else some (Text.concat [host, ".", method, "("]))

def redirect (code : Text) : Text := consoleCall.edit code

end AppsScript.Logger
