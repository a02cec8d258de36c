import AppsScript.Text.Basic

/-!
# Comments in source text

A reader of script text is at any moment in code, in a literal between one of the three kinds of
quote, or in a comment (`Mode`). `strip` removes the comments it sees on the way. Regular expression
literals are read as code.
-/

namespace AppsScript.Source

/-- What the next character of a source text belongs to. -/
inductive Mode
  | code
  | literal (quote : Char)
  | lineComment
  | blockComment
deriving DecidableEq, Repr

/-- The characters that open and close literals. -/
def isQuote (c : Char) : Bool := c == '\'' || c == '"' || c == '`'

/-- The mode behind a character of code that opens no comment. -/
def Mode.behind (c : Char) : Mode := if isQuote c then .literal c else .code

/-- `strip` from the middle of a text. -/
def stripFrom : Mode → Text → Text
  | _, [] => []
  | .code, '/' :: '/' :: cs => stripFrom .lineComment cs
  | .code, '/' :: '*' :: cs => stripFrom .blockComment cs
  | .code, c :: cs => c :: stripFrom (.behind c) cs
  | .literal q, '\\' :: c :: cs => '\\' :: c :: stripFrom (.literal q) cs
  | .literal q, c :: cs => c :: stripFrom (if c = q then .code else .literal q) cs
  | .lineComment, c :: cs => if c = '\n' then c :: stripFrom .code cs else stripFrom .lineComment cs
  | .blockComment, '*' :: '/' :: cs => ' ' :: stripFrom .code cs
  | .blockComment, _ :: cs => stripFrom .blockComment cs

/-- The text without its comments: a line comment leaves the line feed that ends it, a closed block
comment leaves one space, an unclosed one nothing. -/
def strip (text : Text) : Text := stripFrom .code text

end AppsScript.Source
