import AppsScript.Decimal.Shortest
import AppsScript.Json.Token
import AppsScript.Options.Settings
import AppsScript.Text.Quoted

/-!
# Reading options

The text of an options file is a JSON object with a member per option, or an array of all options in
their order. It is read from left to right, and the first fault in the order of the text is the one
reported (`DecodeError`).
-/

namespace AppsScript.Options

open Json

/-- The options by name. -/
inductive Field
  | autoDetect
  | includes
  | excludes
  | outDir
  | transformLogger
  | copyManifest
  | enablePathAliases
  | autoDetectPathAliases
  | pathAliases
  | preserveComments
deriving DecidableEq, Repr

namespace Field

def all : List Field :=
  [autoDetect, includes, excludes, outDir, transformLogger, copyManifest, enablePathAliases,
    autoDetectPathAliases, pathAliases, preserveComments]

def key : Field → Text
  | autoDetect => "autoDetect"
  | includes => "include"
  | excludes => "exclude"
  | outDir => "outDir"
  | transformLogger => "transformLogger"
  | copyManifest => "copyManifest"
  | enablePathAliases => "enablePathAliases"
  | autoDetectPathAliases => "autoDetectPathAliases"
  | pathAliases => "pathAliases"
  | preserveComments => "preserveComments"

/-- A second key of `copyManifest`. -/
def manifestKey : Text := "copyAppsscriptJson"

/-- The option of a key. -/
def ofKey? (k : Text) : Option Field :=
  if k = manifestKey then some copyManifest else all.find? fun f => f.key == k

/-- The keys of an option, as a message lists them. -/
def keys (f : Field) : List Text := if f = copyManifest then [manifestKey, f.key] else [f.key]

end Field

/-- What a value in the text is, as far as a message tells. -/
inductive Found
  | null
  | boolean (b : Bool)
  | integer (i : Int)
  | floating (x : Float)
  | text (t : Text)
  | sequence
  | map

/-- What an option or the whole text has to be. -/
inductive Wanted
  | boolean
  | text
  | sequence
  | map
  | options
deriving DecidableEq

/-- Why a text gives no options. -/
inductive DecodeError
  /-- The text is not JSON. -/
  | syntaxFault
  | unknownField (key : Text)
  | duplicateField (field : Field)
  /-- The array ends after `found` elements. -/
  | tooShort (found : Nat)
  | wrongType (found : Found) (wanted : Wanted)

/-- Numbers in messages are positional from `0.00001` up to sixteen digits. -/
def numberStyle : Decimal.Notation := ⟨-5, 15⟩

/-- The name of what was found. -/
def Found.message : Found → Text
  | null => "null"
  | boolean b => Text.concat ["boolean `", if b then "true" else "false", "`"]
  | integer i =>
    Text.concat ["integer `", if i < 0 then "-" else [], Text.ofNat i.natAbs, "`"]
  | floating x => Text.concat ["floating point `", Decimal.ofFiniteFloat numberStyle x, "`"]
  | text t => Text.concat ["string ", Text.quoted t]
  | sequence => "sequence"
  | map => "map"

/-- The name of what was wanted. -/
def Wanted.message : Wanted → Text
  | boolean => "a boolean"
  | text => "a string"
  | sequence => "a sequence"
  | map => "a map"
  | options => "struct GasPluginOptions"

/-- The message for the user; a fault in the syntax has none of its own. -/
def DecodeError.message : DecodeError → Text
  | syntaxFault => []
  | unknownField k =>
    let listed := (Field.all.flatMap Field.keys).map fun k => Text.concat ["`", k, "`"]
    Text.concat ["unknown field `", k, "`, expected one of ", Text.joinWith ", " listed]
  | duplicateField f => Text.concat ["duplicate field `", f.key, "`"]
  | tooShort n =>
    Text.concat ["invalid length ", Text.ofNat n, ", expected struct GasPluginOptions with 10 elements"]
  | wrongType found wanted =>
    Text.concat ["invalid type: ", found.message, ", expected ", wanted.message]

/-- What a reader gives: a value or a fault. -/
abbrev Result := Except DecodeError

/-- The fault when a value starts with a token that is not of the wanted type. -/
def mismatch (token : Token) (wanted : Wanted) : DecodeError :=
  match token with
  | .null => .wrongType .null wanted
  | .boolean b => .wrongType (.boolean b) wanted
  | .number n =>
    match n.value? with
    | none => .syntaxFault
    | some (.integer i) => .wrongType (.integer i) wanted
    | some (.floating x) => .wrongType (.floating x) wanted
  | .text (some t) => .wrongType (.text t) wanted
  | .openBracket => .wrongType .sequence wanted
  | .openBrace => .wrongType .map wanted
  | _ => .syntaxFault

def readFlag : List Token → Result (Bool × List Token)
  | .boolean b :: rest => .ok (b, rest)
  | token :: _ => .error (mismatch token .boolean)
  | [] => .error .syntaxFault

/-- The text that a token is. -/
def asText : Token → Result Text
  | .text (some t) => .ok t
  | token => .error (mismatch token .text)

def readText : List Token → Result (Text × List Token)
  | token :: rest => (asText token).map fun t => (t, rest)
  | [] => .error .syntaxFault

/-- Reads the texts of an array from an element on. -/
def readTextsFrom : List Token → Result (List Text × List Token)
  | token :: .comma :: rest => do
    let t ← asText token
    let (ts, rest) ← readTextsFrom rest
    pure (t :: ts, rest)
  | token :: rest => do
    let t ← asText token
    match rest with
    | .closeBracket :: rest => pure ([t], rest)
    | _ => throw .syntaxFault
  | [] => .error .syntaxFault

def readTexts : List Token → Result (List Text × List Token)
  | .openBracket :: .closeBracket :: rest => .ok ([], rest)
  | .openBracket :: rest => readTextsFrom rest
  | token :: _ => .error (mismatch token .sequence)
  | [] => .error .syntaxFault

/-- Reads the members of an object of texts from a key on. -/
def readPairsFrom : List Token → Result (List (Text × Text) × List Token)
  | .text (some k) :: .colon :: token :: .comma :: rest => do
    let v ← asText token
    let (pairs, rest) ← readPairsFrom rest
    pure ((k, v) :: pairs, rest)
  | .text (some k) :: .colon :: token :: rest => do
    let v ← asText token
    match rest with
    | .closeBrace :: rest => pure ([(k, v)], rest)
    | _ => throw .syntaxFault
  | _ => .error .syntaxFault

/-- Reads an object of texts. A repeated key keeps its first position and takes its last value. -/
def readMap : List Token → Result (AliasMap × List Token)
  | .openBrace :: .closeBrace :: rest => .ok (.empty, rest)
  | .openBrace :: rest => (readPairsFrom rest).map fun r => (.ofList r.1, r.2)
  | token :: _ => .error (mismatch token .map)
  | [] => .error .syntaxFault

/-- Reads `null` or what `read` reads. -/
def readOptional {α : Type} (read : List Token → Result (α × List Token)) :
    List Token → Result (Option α × List Token)
  | .null :: rest => .ok (none, rest)
  | tokens => (read tokens).map fun r => (some r.1, r.2)

/-- Reads the value of an option into `options`. -/
def readField (options : Options) (field : Field) (tokens : List Token) :
    Result (Options × List Token) :=
  let put {α : Type} (read : List Token → Result (α × List Token)) (set : Option α → Options) :
      Result (Options × List Token) :=
    (readOptional read tokens).map fun r => (set r.1, r.2)
  match field with
  | .autoDetect => put readFlag fun v => { options with autoDetect := v }
  | .includes => put readTexts fun v => { options with includes := v }
  | .excludes => put readTexts fun v => { options with excludes := v }
  | .outDir => put readText fun v => { options with outDir := v }
  | .transformLogger => put readFlag fun v => { options with transformLogger := v }
  | .copyManifest => put readFlag fun v => { options with copyManifest := v }
  | .enablePathAliases => put readFlag fun v => { options with enablePathAliases := v }
  | .autoDetectPathAliases => put readFlag fun v => { options with autoDetectPathAliases := v }
  | .pathAliases => put readMap fun v => { options with pathAliases := v }
  | .preserveComments => put readFlag fun v => { options with preserveComments := v }

/-- Reads the members of an object from a key on; every option in `missing` may still come. -/
def readMembers :
    (missing : List Field) → Options → List Token → Result (Options × List Token)
  | missing, options, .text (some k) :: rest =>
    match Field.ofKey? k with
    | none => .error (.unknownField k)
    | some f =>
      if _h : f ∈ missing then
        match rest with
        | .colon :: rest => do
          let (options, rest) ← readField options f rest
          match rest with
          | .closeBrace :: rest => pure (options, rest)
          | .comma :: rest => readMembers (missing.erase f) options rest
          | _ => throw .syntaxFault
        | _ => .error .syntaxFault
      else .error (.duplicateField f)
  | _, _, _ => .error .syntaxFault
termination_by missing => missing.length
decreasing_by
  have := List.length_pos_of_mem ‹f ∈ missing›
  rw [List.length_erase_of_mem ‹f ∈ missing›]
  omega

/-- Reads the elements of an array, one per option in `missing`, from an element on, after `found`
elements. -/
def readElements (found : Nat) :
    (missing : List Field) → Options → List Token → Result (Options × List Token)
  | [], options, tokens =>
    match tokens with
    | .closeBracket :: rest => .ok (options, rest)
    | _ => .error .syntaxFault
  | f :: missing, options, tokens => do
    let tokens ←
      match tokens with
      | .closeBracket :: _ => throw (.tooShort found)
      | .comma :: .closeBracket :: _ => throw .syntaxFault
      | .comma :: rest => if found = 0 then throw .syntaxFault else pure rest
      | rest => if found = 0 then pure rest else throw .syntaxFault
    let (options, rest) ← readField options f tokens
    readElements (found + 1) missing options rest

def readOptions : List Token → Result (Options × List Token)
  | .openBrace :: .closeBrace :: rest => .ok ({}, rest)
  | .openBrace :: rest => readMembers Field.all {} rest
  | .openBracket :: rest => readElements 0 Field.all {} rest
  | token :: _ => .error (mismatch token .options)
  | [] => .error .syntaxFault

/-- The options that a text holds. -/
def decode (text : Text) : Result Options := do
  let (options, rest) ← readOptions (tokens text)
  if rest.isEmpty then pure options else throw .syntaxFault

end AppsScript.Options
