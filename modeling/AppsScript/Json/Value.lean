import AppsScript.Json.Token

/-!
# JSON values

Reading a value from its tokens (`Value.read?`), with a limit on how deeply arrays and objects may be
nested, and skipping one whose content does not matter (`skipValue?`), without a limit.
-/

namespace AppsScript.Json

/-- A JSON value; the members of an object in the order of the text, repeated keys included. -/
inductive Value
  | null
  | boolean (b : Bool)
  | number (n : Number)
  | text (t : Text)
  | array (elements : List Value)
  | object (members : List (Text × Value))

mutual

/-- Reads a value; `depth` is the number of brackets, this value's included, that may still be opened,
plus one. -/
def readValue? : (steps depth : Nat) → List Token → Option (Value × List Token)
  | 0, _, _ => none
  | _ + 1, _, .null :: rest => some (.null, rest)
  | _ + 1, _, .boolean b :: rest => some (.boolean b, rest)
  | _ + 1, _, .number n :: rest => n.value?.map fun _ => (.number n, rest)
  | _ + 1, _, .text (some t) :: rest => some (.text t, rest)
  | steps + 1, depth + 2, .openBracket :: rest =>
    match rest with
    | .closeBracket :: rest => some (.array [], rest)
    | _ => (readElements? steps (depth + 1) rest).map fun r => (.array r.1, r.2)
  | steps + 1, depth + 2, .openBrace :: rest =>
    match rest with
    | .closeBrace :: rest => some (.object [], rest)
    | _ => (readMembers? steps (depth + 1) rest).map fun r => (.object r.1, r.2)
  | _ + 1, _, _ => none

def readElements? : (steps depth : Nat) → List Token → Option (List Value × List Token)
  | 0, _, _ => none
  | steps + 1, depth, tokens => do
    let (v, rest) ← readValue? steps depth tokens
    match rest with
    | .closeBracket :: rest => some ([v], rest)
    | .comma :: rest =>
      let (vs, rest) ← readElements? steps depth rest
      some (v :: vs, rest)
    | _ => none

def readMembers? : (steps depth : Nat) → List Token → Option (List (Text × Value) × List Token)
  | 0, _, _ => none
  | steps + 1, depth, .text (some key) :: .colon :: rest => do
    let (v, rest) ← readValue? steps depth rest
    match rest with
    | .closeBrace :: rest => some ([(key, v)], rest)
    | .comma :: rest =>
      let (ms, rest) ← readMembers? steps depth rest
      some ((key, v) :: ms, rest)
    | _ => none
  | _ + 1, _, _ => none

end

/-- Reads the value that the tokens start with; its arrays and objects are nested less than `depth`
deep. -/
def Value.read? (depth : Nat) (tokens : List Token) : Option (Value × List Token) :=
  readValue? (2 * tokens.length + 1) depth tokens

/-- What is expected next inside the innermost bracket. -/
inductive Expecting
  /-- A value. -/
  | value
  /-- A value or the end of an array. -/
  | valueOrEnd
  /-- A key. -/
  | key
  /-- A key or the end of an object. -/
  | keyOrEnd
  /-- The colon behind a key. -/
  | colon
  /-- A comma or the end. -/
  | commaOrEnd
deriving DecidableEq

/-- `skipValue?` inside open brackets, the innermost first; `true` stands for an object. -/
def skipFrom? : List Bool → Expecting → List Token → Option (List Token)
  | [], .commaOrEnd, rest => some rest
  | _, _, [] => none
  | false :: stack, .valueOrEnd, .closeBracket :: rest => skipFrom? stack .commaOrEnd rest
  | stack, .value, token :: rest | stack, .valueOrEnd, token :: rest =>
    match token with
    | .null | .boolean _ | .number _ | .text _ => skipFrom? stack .commaOrEnd rest
    | .openBracket => skipFrom? (false :: stack) .valueOrEnd rest
    | .openBrace => skipFrom? (true :: stack) .keyOrEnd rest
    | _ => none
  | stack, .key, .text _ :: rest => skipFrom? stack .colon rest
  | stack, .keyOrEnd, .text _ :: rest => skipFrom? stack .colon rest
  | _ :: stack, .keyOrEnd, .closeBrace :: rest => skipFrom? stack .commaOrEnd rest
  | stack, .colon, .colon :: rest => skipFrom? stack .value rest
  | false :: stack, .commaOrEnd, .comma :: rest => skipFrom? (false :: stack) .value rest
  | true :: stack, .commaOrEnd, .comma :: rest => skipFrom? (true :: stack) .key rest
  | false :: stack, .commaOrEnd, .closeBracket :: rest => skipFrom? stack .commaOrEnd rest
  | true :: stack, .commaOrEnd, .closeBrace :: rest => skipFrom? stack .commaOrEnd rest
  | _, _, _ => none

/-- The tokens behind the value that they start with. -/
def skipValue? (tokens : List Token) : Option (List Token) := skipFrom? [] .value tokens

end AppsScript.Json
