import AppsScript.Source.Lexicon

/-!
# Removing module syntax

Six forms of statement tie a module to others: two of `import` and two of `export` are removed whole
(`importFrom`, `importOnly`, `exportList`, `exportAll`), of an exported declaration only the words in
front go (`exportDefault`, `exportModifier`). A statement starts a line or follows a `;`.
-/

namespace AppsScript.ModuleSyntax

open Source

/-- The start of a line, or a `;`, which is the result. -/
def statementStart : Scan Text := (do Scan.lineStart; pure []) <|> (Scan.word ";").text

/-- The end of a whole statement; the result is the line break it includes, if any. -/
def statementEnd : Scan Text := do
  indent
  let _ ← Scan.maybe (.word ";")
  indent
  let newline ← Scan.maybe lineBreak.text
  pure (newline.getD [])

/-- What remains of a whole statement: the `;` it followed, and then the line break that ended it,
because earlier code shares its line. -/
def remainder (separator newline : Text) : Text :=
  if separator.isEmpty then [] else separator ++ newline

/-- The name of a module in quotes of either kind. -/
def specifier : Scan Unit := do
  let _ ← Scan.char (· ∈ ['"', '\''])
  .many (· ∉ ['"', '\'', '\n'])
  let _ ← Scan.char (· ∈ ['"', '\''])

/-- A list in braces. -/
def braces : Scan Unit := do
  .word "\x7b"
  .many (· != '\x7d')
  .word "\x7d"

/-- `as NAME`. -/
def asName : Scan Unit := do
  .word "as"
  space1
  anyName

/-- `import ... from SPECIFIER`, maybe with attributes. -/
def importFrom : Scan Text := do
  let separator ← statementStart
  indent
  .word "import"
  .wordEdge
  space
  let _ ← Scan.maybe do
    .word "type"
    space1
  let _ ← Scan.maybe do
    anyName
    space
    .word ","
    space
  braces <|> (do Scan.word "*"; space; asName) <|> anyName
  space
  .word "from"
  space
  specifier
  let _ ← Scan.maybe do
    space
    let _ ← Scan.oneOf ["with", "assert"]
    space
    braces
  let newline ← statementEnd
  pure (remainder separator newline)

/-- `import SPECIFIER`. -/
def importOnly : Scan Text := do
  let separator ← statementStart
  indent
  .word "import"
  space
  specifier
  let newline ← statementEnd
  pure (remainder separator newline)

/-- `from SPECIFIER` behind white space. -/
def source : Scan Unit := do
  space
  .word "from"
  space
  specifier

/-- `export { ... }`, maybe of another module. -/
def exportList : Scan Text := do
  let separator ← statementStart
  indent
  .word "export"
  space
  let _ ← Scan.maybe do
    .word "type"
    space
  braces
  let _ ← Scan.maybe source
  let newline ← statementEnd
  pure (remainder separator newline)

/-- `export * from SPECIFIER`, maybe under a name. -/
def exportAll : Scan Text := do
  let separator ← statementStart
  indent
  .word "export"
  space
  .word "*"
  let _ ← Scan.maybe do
    space
    asName
  source
  let newline ← statementEnd
  pure (remainder separator newline)

/-- `export default` in front of an expression or declaration. -/
def exportDefault : Scan Text := do
  let separator ← statementStart
  let margin ← indent.text
  .word "export"
  space1
  .word "default"
  space1
  pure (separator ++ margin)

/-- The words that start a declaration. -/
def modifiers : List Text :=
  ["async", "function", "class", "const", "let", "var", "interface", "type", "enum", "abstract",
    "declare", "namespace"]

/-- `export` in front of a declaration, and the first word of that, which remains. -/
def exportModifier : Scan Text := do
  let separator ← statementStart
  let margin ← indent.text
  .word "export"
  space1
  let modifier ← Scan.oneOf modifiers
  .wordEdge
  pure (separator ++ margin ++ modifier)

/-- The forms in the order in which they are removed. -/
def forms : List (Scan Text) :=
  [importFrom, importOnly, exportList, exportAll, exportDefault, exportModifier]

/-- A run of at least two blank lines behind a line feed, down to a single blank line. -/
def blankLines : Scan Text := do
  .word "\n"
  indent
  .word "\n"
  .many fun c => isIndent c || c == '\n'
  .word "\n"
  pure "\n\n"

/-- Replaces what `form` reads until a round changes nothing. Every round that changes a text shortens
it, so that as many rounds suffice as the text has characters. -/
def exhaust (form : Scan Text) : (rounds : Nat) → Text → Text
  | 0, text => text
  | rounds + 1, text =>
    let next := form.replace text
    if next = text then text else exhaust form rounds next

/-- Removes one form of module syntax wherever it occurs, and wherever it occurs after that: a
statement may start a line only once its predecessor is gone. -/
def removeForm (text : Text) (form : Scan Text) : Text := exhaust form text.length text

/-- The text without module syntax, the declarations that were exported kept. Blank lines that the
removal leaves behind are merged; a text without module syntax is not changed. -/
def remove (code : Text) : Text :=
  let bare := forms.foldl removeForm code
  if bare = code then code else blankLines.replace bare

end AppsScript.ModuleSyntax
