import AppsScript.Source.Lexicon

/-!
# Functions that the runtime calls

The runtime calls some functions by name. Their declarations get a comment `/* @preserve NAME */` in
front, which keeps tools that shrink code from dropping them.
-/

namespace AppsScript.Trigger

open Source

/-- The functions that the runtime calls: simple triggers and web app entry points. -/
def names : List Text :=
  ["onOpen", "onEdit", "onSelectionChange", "onFormSubmit", "doGet", "doPost", "onInstall"]

/-- The comment that keeps the function `name`. -/
def marker (name : Text) : Text := Text.concat ["/* @preserve ", name, " */"]

/-- Whether the text whose characters are `before`, nearest first, ends with the marker of `name`, up
to white space. -/
def isMarked (name : Text) (before : List Char) : Bool :=
  (Text.after? (marker name).reverse (before.dropWhile Text.isBlank)).isSome

/-- The head of the declaration of a function that the runtime calls, up to its parenthesis; the
result is the head with its marker, or `none` where it has one. -/
def declarationHead : Scan (Option Text) := do
  let c ← Scan.here
  .wordEdge
  .word "function"
  space1
  let name ← Scan.oneOf names
  space
  .word "("
  pure (if isMarked name c.before then none
    else some (Text.concat [marker name, " function ", name, "("]))

/-- The code with a marker on every declaration of a function that the runtime calls. -/
def mark (code : Text) : Text := declarationHead.edit code

end AppsScript.Trigger
