import AppsScript.Source.Comment

/-!
# Blocks in source text

`codeChars` picks out the characters of a text that are read as code. Counting the braces among them
tells which lines begin outside every block (`topLevelStarts`) and where a block ends
(`afterBlock?`).
-/

namespace AppsScript.Source

/-- `codeChars` from the middle of a text, at offset `i`. -/
def codeCharsFrom : Mode → (i : Nat) → Text → List (Nat × Char)
  | _, _, [] => []
  | .code, i, '/' :: '/' :: cs => codeCharsFrom .lineComment (i + 2) cs
  | .code, i, '/' :: '*' :: cs => codeCharsFrom .blockComment (i + 2) cs
  | .code, i, c :: cs => (i, c) :: codeCharsFrom (.behind c) (i + 1) cs
  | .literal q, i, '\\' :: _ :: cs => codeCharsFrom (.literal q) (i + 2) cs
  | .literal q, i, c :: cs => codeCharsFrom (if c = q then .code else .literal q) (i + 1) cs
  | .lineComment, i, c :: cs =>
    if c = '\n' then (i, c) :: codeCharsFrom .code (i + 1) cs
    else codeCharsFrom .lineComment (i + 1) cs
  | .blockComment, i, '*' :: '/' :: cs => codeCharsFrom .code (i + 2) cs
  | .blockComment, i, _ :: cs => codeCharsFrom .blockComment (i + 1) cs

/-- The characters outside literals and comments with their offsets. The quote that opens a literal
and the line feed that ends a comment are among them. -/
def codeChars (text : Text) : List (Nat × Char) := codeCharsFrom .code 0 text

/-- The offsets behind the line feeds that are read at depth 0, where a closing brace without an
opening one does not count. -/
def startsAt (depth : Nat) : List (Nat × Char) → List Nat
  | [] => []
  | (i, c) :: rest =>
    if c = '\x7b' then startsAt (depth + 1) rest
    else if c = '\x7d' then startsAt (depth - 1) rest
    else if c = '\n' ∧ depth = 0 then (i + 1) :: startsAt depth rest
    else startsAt depth rest

/-- The offsets of the lines that begin outside every block, literal and comment, in order. -/
def topLevelStarts (text : Text) : List Nat := 0 :: startsAt 0 (codeChars text)

/-- The offset of the brace that closes the last of `depth` open blocks. -/
def closingAt (depth : Nat) : List (Nat × Char) → Option Nat
  | [] => none
  | (i, c) :: rest =>
    if c = '\x7b' then closingAt (depth + 1) rest
    else if c = '\x7d' then if depth ≤ 1 then some i else closingAt (depth - 1) rest
    else closingAt depth rest

/-- The offset of the brace that closes the block which `text` starts with. -/
def closingBrace? (text : Text) : Option Nat := closingAt 0 (codeChars text)

/-- What follows the block which `text` starts with, if it is closed. -/
def afterBlock? (text : Text) : Option Text := (closingBrace? text).map fun i => text.drop (i + 1)

end AppsScript.Source
