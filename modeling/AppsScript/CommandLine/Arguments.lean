import AppsScript.Config.LanguageLevel
import AppsScript.Options.Settings
import AppsScript.Path.Basic

/-!
# The arguments of the program

Arguments are read from left to right (`Request.ofTexts`). The first that makes no sense, or asks for
help or the version, decides.
-/

namespace AppsScript.CommandLine

structure Arguments where
  /-- The root of the project. -/
  cwd : Option Path := none
  /-- The file with options. -/
  config : Option Path := none
  includes : Option (List Text) := none
  excludes : Option (List Text) := none
  /-- The compiled modules. -/
  inputs : List Path := []
  outDir : Option Text := none
  noCopyManifest : Bool := false
  target : Option LanguageLevel := none
  noTransformLogger : Bool := false
  noPathAliases : Bool := false
  preserveComments : Bool := false
  silent : Bool := false
deriving DecidableEq

/-- An argument without a value that says something about a build. -/
inductive Switch
  | noCopyManifest
  | noTransformLogger
  | noPathAliases
  | preserveComments
  | silent
deriving DecidableEq

/-- An argument with a value. -/
inductive Parameter
  | cwd
  | config
  | includes
  | excludes
  | input
  | outDir
  | target
deriving DecidableEq

/-- What a name of an argument stands for. -/
inductive Argument
  | switch (s : Switch)
  | parameter (p : Parameter)
  | help
  | version
deriving DecidableEq

def Argument.ofLong? (name : Text) : Option Argument :=
  if name = "cwd" then some (.parameter .cwd)
  else if name = "config" then some (.parameter .config)
  else if name = "include" then some (.parameter .includes)
  else if name = "exclude" then some (.parameter .excludes)
  else if name = "input" then some (.parameter .input)
  else if name = "out-dir" then some (.parameter .outDir)
  else if name = "no-copy-manifest" then some (.switch .noCopyManifest)
  else if name = "target" then some (.parameter .target)
  else if name = "no-transform-logger" then some (.switch .noTransformLogger)
  else if name = "no-path-aliases" then some (.switch .noPathAliases)
  else if name = "preserve-comments" then some (.switch .preserveComments)
  else if name = "silent" then some (.switch .silent)
  else if name = "help" then some .help
  else if name = "version" then some .version
  else none

def Argument.ofShort? : Char → Option Argument
  | 'd' => some (.parameter .outDir)
  | 's' => some (.switch .silent)
  | 'h' => some .help
  | 'V' => some .version
  | _ => none

/-- The levels that can be asked for. -/
def targets : List LanguageLevel := [.es2015, .es2016, .es2017, .es2018, .es2019, .es2020]

inductive Request
  | build (arguments : Arguments)
  | help
  | version
  /-- Something that the program does not understand. -/
  | misuse
deriving DecidableEq

/-- A path from an argument, which must not be empty. -/
def pathOf? (value : Text) : Option Path := if value = [] then none else some ⟨value⟩

namespace Arguments

/-- The arguments with a switch turned on; none if it is on already. -/
def turnOn? (a : Arguments) : Switch → Option Arguments
  | .noCopyManifest => if a.noCopyManifest then none else some { a with noCopyManifest := true }
  | .noTransformLogger =>
    if a.noTransformLogger then none else some { a with noTransformLogger := true }
  | .noPathAliases => if a.noPathAliases then none else some { a with noPathAliases := true }
  | .preserveComments =>
    if a.preserveComments then none else some { a with preserveComments := true }
  | .silent => if a.silent then none else some { a with silent := true }

/-- The arguments with a parameter set; none if the value is not allowed or the parameter is set already
and can have only one value. -/
def set? (a : Arguments) (parameter : Parameter) (value : Text) : Option Arguments :=
  match parameter with
  | .cwd => if a.cwd.isSome then none else (pathOf? value).map fun p => { a with cwd := some p }
  | .config =>
    if a.config.isSome then none else (pathOf? value).map fun p => { a with config := some p }
  | .includes => some { a with includes := some (a.includes.getD [] ++ [value]) }
  | .excludes => some { a with excludes := some (a.excludes.getD [] ++ [value]) }
  | .input => (pathOf? value).map fun p => { a with inputs := a.inputs ++ [p] }
  | .outDir => if a.outDir.isSome then none else some { a with outDir := some value }
  | .target =>
    if a.target.isSome then none
    else (targets.find? fun t => t.name == value).map fun t => { a with target := some t }

end Arguments

/-- Whether a text on its own is a value, not the name of an argument. -/
def isValue (text : Text) : Bool := text == "-" || text.head? != some '-'

def withoutEquals : Text → Text
  | '=' :: value => value
  | value => value

/-- What comes of one argument. -/
inductive Progress
  /-- The arguments so far, and the texts that follow. -/
  | goOn (arguments : Arguments) (rest : List Text)
  | stop (request : Request)

namespace Progress

/-- Goes on if there are arguments to go on with. -/
def ofOption (arguments : Option Arguments) (rest : List Text) : Progress :=
  match arguments with
  | some a => goOn a rest
  | none => stop .misuse

def ofParameter (a : Arguments) (p : Parameter) (value : Option Text) (rest : List Text) : Progress :=
  match value, rest with
  | some v, rest => ofOption (a.set? p v) rest
  | none, v :: rest => if isValue v then ofOption (a.set? p v) rest else stop .misuse
  | none, [] => stop .misuse

/-- What comes of an argument with a long name, maybe with its value behind an equals sign. -/
def ofLong (a : Arguments) (text : Text) (rest : List Text) : Progress :=
  let name := Text.upTo '=' text
  let value := if text.length = name.length then none else some (text.drop (name.length + 1))
  match Argument.ofLong? name, value with
  | some (.parameter p), value => ofParameter a p value rest
  | some (.switch s), none => ofOption (a.turnOn? s) rest
  | some .help, none => stop .help
  | some .version, none => stop .version
  | _, _ => stop .misuse

/-- What comes of letters behind a single dash. A parameter takes the letters behind it as its value. -/
def ofShort (a : Arguments) : (letters : Text) → (rest : List Text) → Progress
  | [], rest => goOn a rest
  | c :: letters, rest =>
    match Argument.ofShort? c with
    | some (.parameter p) =>
      ofParameter a p (if letters = [] then none else some (withoutEquals letters)) rest
    | some (.switch s) =>
      match a.turnOn? s with
      | some a => ofShort a letters rest
      | none => stop .misuse
    | some .help => stop .help
    | some .version => stop .version
    | none => stop .misuse

/-- What comes of the first of the texts. Two dashes alone end the arguments, and nothing may follow
them. -/
def ofFirst (a : Arguments) (text : Text) (rest : List Text) : Progress :=
  match text with
  | ['-', '-'] => if rest = [] then goOn a [] else stop .misuse
  | '-' :: '-' :: long => ofLong a long rest
  | '-' :: c :: letters => ofShort a (c :: letters) rest
  | _ => stop .misuse

end Progress

/-- Reads texts, at most `count` of them, after the arguments so far. -/
def readFrom : (count : Nat) → Arguments → List Text → Request
  | _, a, [] => .build a
  | 0, _, _ => .misuse
  | count + 1, a, text :: rest =>
    match Progress.ofFirst a text rest with
    | .goOn a rest => readFrom count a rest
    | .stop request => request

/-- What the texts on the command line ask for. -/
def Request.ofTexts (texts : List Text) : Request := readFrom texts.length {} texts

/-- The options with those on the command line in place of those of the file. -/
def Arguments.over (a : Arguments) (options : Options) : Options :=
  { options with
    includes := a.includes.or options.includes
    excludes := a.excludes.or options.excludes
    outDir := a.outDir.or options.outDir
    copyManifest := if a.noCopyManifest then some false else options.copyManifest
    transformLogger := if a.noTransformLogger then some false else options.transformLogger
    enablePathAliases := if a.noPathAliases then some false else options.enablePathAliases
    preserveComments := if a.preserveComments then some true else options.preserveComments }

end AppsScript.CommandLine
