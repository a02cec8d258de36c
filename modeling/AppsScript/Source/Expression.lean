import AppsScript.Source.Comment
import AppsScript.Text.Blank

/-!
# Ends of expressions

Three tests that together decide whether an expression is complete at the end of its line: what
follows it (`continues`), its last character (`endsOpen`) and a comma that is part of the declaration
and not of the expression (`hasOuterComma`).
-/

namespace AppsScript.Source

/-- `skipBlank` from the middle of a text; literals are not entered. -/
def skipBlankFrom : Mode → Text → Text
  | _, [] => []
  | .lineComment, c :: cs => if c = '\n' then skipBlankFrom .code cs else skipBlankFrom .lineComment cs
  | .blockComment, '*' :: '/' :: cs => skipBlankFrom .code cs
  | .blockComment, _ :: cs => skipBlankFrom .blockComment cs
  | _, '/' :: '/' :: cs => skipBlankFrom .lineComment cs
  | _, '/' :: '*' :: cs => skipBlankFrom .blockComment cs
  | _, c :: cs => if Text.isBlank c then skipBlankFrom .code cs else c :: cs

/-- The text from its first character on that is neither white space nor in a comment. -/
def skipBlank (text : Text) : Text := skipBlankFrom .code text

/-- The characters that go on with an expression when they come first on a line. -/
def continuing : Text := ".?:+-*/%&|^,=<>([`"

/-- Whether the text that follows an expression goes on with it, so that no statement end is implied
between them. -/
def continues (rest : Text) : Bool := (skipBlank rest).head?.any continuing.contains

/-- The characters after which an expression is not complete. -/
def opening : Text := "+-*/%&|^!~<>=?:,([."

/-- Whether an expression that ends so goes on behind its line; `++` and `--` complete one. -/
def endsOpen (body : Text) : Bool :=
  (Text.before? "++" body).isNone && (Text.before? "--" body).isNone &&
    body.getLast?.any opening.contains

/-- `hasOuterComma` from the middle of a text, inside `depth` brackets and maybe inside a literal. -/
def outerCommaFrom : (quote : Option Char) → (depth : Nat) → Text → Bool
  | _, _, [] => false
  | some q, depth, '\\' :: _ :: cs => outerCommaFrom (some q) depth cs
  | some q, depth, c :: cs => outerCommaFrom (if c = q then none else some q) depth cs
  | none, depth, c :: cs =>
    if isQuote c then outerCommaFrom (some c) depth cs
    else if c = '(' ∨ c = '[' then outerCommaFrom none (depth + 1) cs
    else if c = ')' ∨ c = ']' then outerCommaFrom none (depth - 1) cs
    else if c = ',' ∧ depth = 0 then true
    else outerCommaFrom none depth cs

/-- Whether a comma stands outside brackets and literals. -/
def hasOuterComma (body : Text) : Bool := outerCommaFrom none 0 body

end AppsScript.Source
