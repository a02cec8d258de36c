import AppsScript.CommandLine.ValuePattern
import AppsScript.Log

/-!
# Log filters

Which diagnostics are shown. A filter is a list of directives separated by commas, such as
`warn,name=debug`: a level for everything, or for the parts of the program whose name starts in a certain
way. The most specific directive for a diagnostic decides.
-/

namespace AppsScript.CommandLine

/-- How much is shown: 0 for nothing, then a level more each time, 5 for even more than diagnostics. -/
abbrev Verbosity := Nat

/-- The least verbosity at which a level is shown. -/
def verbosityOf : Level → Verbosity
  | .error => 1
  | .warn => 2
  | .info => 3
  | .debug => 4

def everything : Verbosity := 5

def verbosityNames : List Text := ["off", "error", "warn", "info", "debug", "trace"]

def natOf? (text : Text) : Option Nat :=
  let digits := match text with
    | '+' :: digits => digits
    | digits => digits
  if digits ≠ [] ∧ digits.all Char.isDigit then
    some (digits.foldl (fun n c => n * 10 + (c.toNat - '0'.toNat)) 0)
  else none

/-- The verbosity that a text names, by its number or in letters of either case. -/
def verbosity? (text : Text) : Option Verbosity :=
  match natOf? text with
  | some n => if n ≤ everything then some n else none
  | none => verbosityNames.findIdx? fun name => name == Text.lowerAscii text

/-- Why a text is not read as a filter. -/
inductive Misreading
  | senseless
  /-- It would have to be cut within a character. -/
  | cutCharacter
deriving DecidableEq

/-- Says how much of the diagnostics of certain parts of the program is shown. -/
structure Directive where
  /-- What the names of the parts start with; all parts if none is given. -/
  source : Option Text := none
  /-- What a diagnostic has to have. -/
  fields : List Text := []
  verbosity : Verbosity := everything
  /-- Whether it is about certain moments only, at which this program never is. -/
  isMomentary : Bool := false
deriving DecidableEq

namespace Directive

/-- The field that every diagnostic has, and its only one. -/
def messageField : Text := "message"

def cares (directive : Directive) (d : Diagnostic) : Bool :=
  directive.source.all (fun source => (Text.after? source d.source).isSome) &&
    directive.fields.all fun name => name == messageField

/-- Whether the directive is at least as specific as another: a longer name, then more fields. -/
def isAtLeast (directive other : Directive) : Bool :=
  let length (d : Directive) := d.source.elim 0 fun source => source.length + 1
  length other < length directive ||
    (length other == length directive && other.fields.length ≤ directive.fields.length)

/-- What can stand at the start of a directive, other than a bracket. -/
def startsName (c : Char) : Bool := c == '-' || c == ':' || c == '_' || Text.isAlphanumeric c

/-- The directive with the verbosity that a text names; an empty text asks for everything. -/
def withVerbosity (text : Text) (directive : Directive) : Except Misreading Directive :=
  if text = [] then .ok { directive with verbosity := everything }
  else
    match verbosity? text with
    | some v => .ok { directive with verbosity := v }
    | none => .error .senseless

/-- The directive that a text without brackets and equals sign is: a verbosity, or else a name. -/
def ofName (text : Text) : Directive :=
  match verbosity? text with
  | some v => { verbosity := v }
  | none => { source := some text }

def behind (start : Nat) (whole : Text) : Except Misreading Text :=
  match Text.splitBytes? start whole with
  | some parts => .ok parts.2
  | none => .error .cutCharacter

def between (start stop : Nat) (whole : Text) : Except Misreading Text := do
  match Text.splitBytes? (stop - start) (← behind start whole) with
  | some parts => .ok parts.1
  | none => .error .cutCharacter

/-- Reads what follows the brackets: nothing, or an equals sign and a verbosity. `whole` is cut at the
byte that has been reached. -/
def readEnd (whole : Text) (place : Nat) (directive : Directive) : Text → Except Misreading Directive
  | [] => .ok { directive with verbosity := everything }
  | '=' :: _ => do directive.withVerbosity (← behind (place + 1) whole)
  | _ => .error .senseless

/-- Reads the brackets of a directive from behind the first one: a name, and in braces a field or a field
with its value. -/
def readBrackets (whole : Text) (place : Nat) (directive : Directive) (text : Text) :
    Except Misreading Directive := do
  let name := text.takeWhile fun c => c != ']' && c != '\x7b'
  let stop := place + Text.byteCount name
  match text.drop name.length with
  | ']' :: rest =>
    let _ ← between place stop whole
    readEnd whole (stop + 1) { directive with isMomentary := true } rest
  | '\x7b' :: rest =>
    let _ ← between place stop whole
    let inner := Text.upTo '\x7d' rest
    let fieldStop := stop + 1 + Text.byteCount inner
    match rest.drop inner.length with
    | '\x7d' :: rest =>
      let field ← between (stop + 1) fieldStop whole
      -- What stands behind a second equals sign does not count.
      let value := Text.upTo '=' ((field.dropWhile (· != '=')).drop 1)
      if inner = [] || !ValuePattern.isValue value then .error .senseless
      else
        match rest with
        | ']' :: rest =>
          let isMomentary := name ≠ [] || field.contains '='
          readEnd whole (fieldStop + 2)
            { directive with fields := [Text.upTo '=' field], isMomentary := isMomentary } rest
        | _ => .error .senseless
    | _ => .error .senseless
  | _ => .error .senseless

/-- Reads a directive. It is divided as if no blanks stood around it, but its parts are then cut from all
of the text at the bytes found, so that it comes to nothing if blanks stand before it. -/
def read (whole : Text) : Except Misreading Directive := do
  match Text.trim whole with
  | [] => .error .senseless
  | '[' :: text => readBrackets whole 1 {} text
  | c :: text =>
    let name := (c :: text).takeWhile fun c => c != '=' && c != '['
    let place := Text.byteCount name
    if !startsName c then .error .senseless
    else
      match (c :: text).drop name.length with
      | [] => .ok (ofName whole)
      | '=' :: _ =>
        let source ← between 0 place whole
        withVerbosity (← behind (place + 1) whole) { source := some source }
      | _ :: rest =>
        let source ← between 0 place whole
        readBrackets whole (place + 1) { source := some source } rest

end Directive

/-- Decides which diagnostics are shown. -/
structure LogFilter where
  directives : List Directive
deriving DecidableEq

namespace LogFilter

/-- Shows what is at least as important as the level. -/
def upTo (level : Level) : LogFilter := ⟨[{ verbosity := verbosityOf level }]⟩

/-- The filter that a text describes; without directives it shows nothing. -/
def read (text : Text) : Except Misreading LogFilter := do
  let parts := (Text.pieces (· == ',') text).filter fun part => !part.isEmpty
  return ⟨← parts.mapM Directive.read⟩

/-- The directive that decides about a diagnostic: the most specific, of several the last. -/
def deciding? (filter : LogFilter) (d : Diagnostic) : Option Directive :=
  filter.directives.foldl (fun best directive =>
    if directive.isMomentary || !directive.cares d then best
    else if best.all directive.isAtLeast then some directive
    else best) none

/-- Whether a diagnostic is shown. -/
def shows (filter : LogFilter) (d : Diagnostic) : Bool :=
  (filter.deciding? d).any fun directive => verbosityOf d.level ≤ directive.verbosity

end LogFilter

end AppsScript.CommandLine
