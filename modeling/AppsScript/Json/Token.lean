import AppsScript.Json.Number

/-!
# JSON tokens

`tokens` cuts a text into the tokens of JSON. A text that goes on with something that is no token ends
in the token `invalid`, so that a reader of tokens meets faults in the order of the text.
-/

namespace AppsScript.Json

/-- A character of a string, or a UTF-16 unit written by its number. -/
inductive Unit16
  | char (c : Char)
  | unit (n : Nat)
deriving DecidableEq

/-- The smallest parts that JSON text consists of. -/
inductive Token
  | openBrace
  | closeBrace
  | openBracket
  | closeBracket
  | colon
  | comma
  | null
  | boolean (b : Bool)
  | number (n : Number)
  /-- A string, without its value if it has half of a surrogate pair on its own. -/
  | text (value : Option Text)
  /-- Something that is no token. -/
  | invalid
deriving DecidableEq

/-- The white space between tokens. -/
def isSpace (c : Char) : Bool := c == ' ' || c == '\n' || c == '\t' || c == '\r'

/-- The number that four hexadecimal digits write. -/
def hex4? (a b c d : Char) : Option Nat := do
  let a ← Text.hexDigit? a
  let b ← Text.hexDigit? b
  let c ← Text.hexDigit? c
  let d ← Text.hexDigit? d
  some (((a * 16 + b) * 16 + c) * 16 + d)

/-- What a character stands for behind a backslash. -/
def escaped? : Char → Option Char
  | '"' => some '"'
  | '\\' => some '\\'
  | '/' => some '/'
  | 'b' => some '\x08'
  | 'f' => some '\x0c'
  | 'n' => some '\n'
  | 'r' => some '\r'
  | 't' => some '\t'
  | _ => none

/-- The content of a string whose opening quote has been read, and the text behind the string. Control
characters have to be escaped. -/
def readString? : Text → Option (List Unit16 × Text)
  | [] => none
  | '"' :: rest => some ([], rest)
  | '\\' :: 'u' :: a :: b :: c :: d :: rest => do
    let n ← hex4? a b c d
    let (units, rest) ← readString? rest
    some (.unit n :: units, rest)
  | '\\' :: c :: rest => do
    let c ← escaped? c
    let (units, rest) ← readString? rest
    some (.char c :: units, rest)
  | c :: rest =>
    if c.toNat < 0x20 ∨ c = '\\' then none
    else do
      let (units, rest) ← readString? rest
      some (.char c :: units, rest)

/-- The text that characters and UTF-16 units write, if every surrogate is half of a pair. -/
def ofUnits? : List Unit16 → Option Text
  | [] => some []
  | .char c :: rest => (ofUnits? rest).map (c :: ·)
  | .unit high :: .unit low :: rest =>
    if 0xd800 ≤ high ∧ high < 0xdc00 then
      if 0xdc00 ≤ low ∧ low < 0xe000 then
        (ofUnits? rest).map
          (Char.ofNat (0x10000 + (high - 0xd800) * 0x400 + (low - 0xdc00)) :: ·)
      else none
    else if 0xdc00 ≤ high ∧ high < 0xe000 then none
    else (ofUnits? (.unit low :: rest)).map (Char.ofNat high :: ·)
  | .unit n :: rest =>
    if 0xd800 ≤ n ∧ n < 0xe000 then none else (ofUnits? rest).map (Char.ofNat n :: ·)

/-- The token that a text without leading white space starts with, and the text behind it. -/
def readToken? : Text → Option (Token × Text)
  | [] => none
  | '\x7b' :: rest => some (.openBrace, rest)
  | '\x7d' :: rest => some (.closeBrace, rest)
  | '[' :: rest => some (.openBracket, rest)
  | ']' :: rest => some (.closeBracket, rest)
  | ':' :: rest => some (.colon, rest)
  | ',' :: rest => some (.comma, rest)
  | '"' :: rest => (readString? rest).map fun r => (.text (ofUnits? r.1), r.2)
  | 'n' :: 'u' :: 'l' :: 'l' :: rest => some (.null, rest)
  | 't' :: 'r' :: 'u' :: 'e' :: rest => some (.boolean true, rest)
  | 'f' :: 'a' :: 'l' :: 's' :: 'e' :: rest => some (.boolean false, rest)
  | text => (Number.read? text).map fun r => (.number r.1, r.2)

/-- The tokens of a text, at most `count` of them. -/
def tokensFrom : (count : Nat) → Text → List Token
  | 0, _ => []
  | count + 1, text =>
    match text.dropWhile isSpace with
    | [] => []
    | rest =>
      match readToken? rest with
      | some (token, rest) => token :: tokensFrom count rest
      | none => [.invalid]

/-- The tokens of a text. There are no more of them than characters. -/
def tokens (text : Text) : List Token := tokensFrom text.length text

end AppsScript.Json
