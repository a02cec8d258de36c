import AppsScript.Source.Expression
import AppsScript.Source.Lexicon
import AppsScript.Source.Nesting

/-!
# Arrow functions as declarations

An arrow function bound to a name at the top level of a script becomes a function declaration, so that
the runtime can find it by its name:

    export const run = (a) => {   becomes   export function run(a) {
    const add = (a, b) => a + b;  becomes   function add(a, b) { return a + b; }

A binding inside a block keeps its arrow and with it the `this` around it, and so does one whose value
goes on behind the function.
-/

namespace AppsScript.Arrow

open Source

/-- What stands before the body of an arrow function that is bound to a name. -/
structure Head where
  margin : Text
  isExported : Bool
  isAsync : Bool
  name : Text
  params : Text
deriving DecidableEq

/-- The same function as a declaration, up to its body. -/
def Head.declaration (head : Head) : Text :=
  Text.concat [head.margin, if head.isExported then "export " else [],
    if head.isAsync then "async " else [], "function ", head.name, "(", head.params, ")"]

/-- A line from its start up to the body of the arrow function that it binds. -/
def head : Scan Head := do
  .lineStart
  let margin ← indent.text
  let exported ← Scan.maybe do
    .word "export"
    indent1
  let _ ← Scan.oneOf ["const", "let", "var"]
  indent1
  let bound ← name
  indent
  .word "="
  indent
  let async ← Scan.maybe do
    .word "async"
    indent1
  let params ← (do
      .word "("
      let params ← (Scan.many (· ∉ ['(', ')', '\n'])).text
      .word ")"
      pure params) <|> name
  indent
  .word "=>"
  indent
  pure ⟨margin, exported.isSome, async.isSome, bound, params⟩

/-- A binding up to the brace that opens the body of its function. -/
def blockBinding : Scan Head := do
  let head ← head
  .word "\x7b"
  pure head

/-- A binding whose function has an expression for its body, up to the end of the line. -/
structure ExpressionBinding where
  head : Head
  body : Text
  isTerminated : Bool
  carriageReturn : Text
deriving DecidableEq

/-- A line that binds an arrow function with an expression for its body. -/
def expressionBinding : Scan ExpressionBinding := do
  let head ← head
  let start ← Scan.here
  .few1 (· ∉ [';', '\x7b', '\x7d', '\n'])
  let stop ← Scan.here
  indent
  let semicolon ← Scan.maybe do
    .word ";"
    indent
  let carriageReturn ← (Scan.maybe (.word "\r")).text
  .lineEnd
  pure ⟨head, start.upTo stop, semicolon.isSome, carriageReturn⟩

/-- Whether the text contains `word`. -/
def mentions (word : Text) : Text → Bool
  | [] => word.isEmpty
  | c :: cs => (Text.after? word (c :: cs)).isSome || mentions word cs

/-- Whether the body is certainly the whole value, given the text behind its line. -/
def ExpressionBinding.isComplete (binding : ExpressionBinding) (rest : Text) : Bool :=
  let body := Text.trim binding.body
  !(mentions "//" body || mentions "/*" body || endsOpen body || hasOuterComma body ||
    (!binding.isTerminated && continues rest))

/-- The declaration that takes the place of the line. -/
def ExpressionBinding.declaration (binding : ExpressionBinding) : Text :=
  Text.concat [binding.head.declaration, " \x7b return ", Text.trim binding.body, "; \x7d",
    binding.carriageReturn]

/-- A binding with a block for its body, as a declaration up to the brace, if it starts at one of
`starts` and nothing goes on with the value behind the block. A block that is not closed has nothing
behind it. -/
def blockEdit (starts : List Nat) : Scan (Option Text) := do
  let c ← Scan.here
  let head ← blockBinding
  let d ← Scan.here
  let goesOn := (afterBlock? ('\x7b' :: d.after)).any continues
  pure (if starts.contains c.offset && !goesOn then some (head.declaration ++ " \x7b") else none)

/-- A binding with an expression for its body, as a declaration, if it starts at one of `starts` and
its line holds the whole value. -/
def expressionEdit (starts : List Nat) : Scan (Option Text) := do
  let c ← Scan.here
  let binding ← expressionBinding
  let d ← Scan.here
  pure (if starts.contains c.offset && binding.isComplete d.after then some binding.declaration else none)

/-- Declares the functions with a block for their body. -/
def declareBlocks (code : Text) : Text := (blockEdit (topLevelStarts code)).edit code

/-- Declares the functions with an expression for their body. -/
def declareExpressions (code : Text) : Text := (expressionEdit (topLevelStarts code)).edit code

/-- Every arrow function that is bound at the top level and whose value ends with it, as a
declaration. -/
def declare (code : Text) : Text := declareExpressions (declareBlocks code)

end AppsScript.Arrow
