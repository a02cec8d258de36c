import AppsScript.Scan
import AppsScript.Text.Blank

/-!
# Words and blanks of a script

The small scans that the grammars of statements are put together from.
-/

namespace AppsScript.Source

/-- A space or a tab. -/
def isIndent (c : Char) : Bool := c == ' ' || c == '\t'

/-- The characters of names. -/
def isName (c : Char) : Bool := Text.isWord c || c == '$'

/-- Any spaces and tabs. -/
def indent : Scan Unit := .many isIndent

def indent1 : Scan Unit := .many1 isIndent

/-- Any white space, line breaks included. -/
def space : Scan Unit := .many Text.isBlank

def space1 : Scan Unit := .many1 Text.isBlank

/-- A name of no interest. -/
def anyName : Scan Unit := .many1 isName

def name : Scan Text := anyName.text

/-- A line feed, maybe behind a carriage return. -/
def lineBreak : Scan Unit := do
  let _ ← Scan.maybe (.word "\r")
  .word "\n"

end AppsScript.Source
