import AppsScript.Build.Run

/-!
# What the program prints

Log lines, the summary of a build and its failures, all as text for a terminal.
-/

namespace AppsScript.CommandLine

inductive Style
  | dim
  | cyan
  | green
  | red
deriving DecidableEq

namespace Style

def code : Style → Text
  | dim => "2;37"
  | cyan => "36"
  | green => "32"
  | red => "31"

def paint (style : Style) (text : Text) : Text :=
  Text.concat ["\x1b[", style.code, "m", text, "\x1b[0m"]

end Style

/-- The text as a line of its own. -/
def line (parts : List Text) : Text := Text.concat parts ++ ['\n']

/-- The name of a level, five characters wide. -/
def levelLabel : Level → Text
  | .error => "ERROR"
  | .warn => " WARN"
  | .info => " INFO"
  | .debug => "DEBUG"

def hexadecimal (n : Nat) : Text := Nat.toDigits 16 n

/-- A character of a log message. One that could be the start of an order to the terminal is shown by its
number. -/
def visible (c : Char) : Text :=
  if c ∈ ['\x1b', '\x07', '\x08', '\x0c', '\x7f'] then
    let digits := hexadecimal c.toNat
    "\\x" ++ (if digits.length < 2 then '0' :: digits else digits)
  else if 0x80 ≤ c.toNat ∧ c.toNat ≤ 0x9f then Text.concat ["\\u\x7b", hexadecimal c.toNat, "\x7d"]
  else [c]

def logLine (d : Diagnostic) : Text := line [levelLabel d.level, " ", d.message.flatMap visible]

/-- The quotient rounded to the nearest number, a half to the even neighbour. -/
def roundDiv (n d : Nat) : Nat :=
  let q := n / d
  let twice := 2 * (n % d)
  if twice < d ∨ (twice = d ∧ q % 2 = 0) then q else q + 1

/-- A number of bytes in kilobytes of 1024 bytes with two decimals. -/
def kilobytes (bytes : Nat) : Text :=
  let n := roundDiv (bytes * 100) 1024
  let decimals := Text.ofNat (n % 100)
  Text.concat [Text.ofNat (n / 100), ".", if decimals.length < 2 then "0" else [], decimals]

/-- Blanks that make up for what a text lacks of a width. -/
def padding (width length : Nat) : Text := List.replicate (width - length) ' '

/-- The lines on the configuration of a build: language level, entries, aliases. -/
def configLines (config : Config) : List Text :=
  let target := config.compiler.target.toList.map fun level =>
    line [Style.dim.paint "target", " ", Style.cyan.paint level.name]
  let entries := (config.build.inputs.getD []).map fun input =>
    line [Style.dim.paint "entry", " ", Style.cyan.paint (input.name.getD []), " ",
      Style.dim.paint input.source]
  let aliases := (config.resolve.aliases.getD .empty).toList.map fun (name, dir) =>
    line [Style.dim.paint "alias", " ", Style.cyan.paint name, " ", Style.dim.paint dir]
  target ++ entries ++ aliases

/-- The lines on the outputs of a build, names and sizes in columns. -/
def outputLines (outputs : List Output) (dir : Path) : List Text :=
  let size (output : Output) : Text := kilobytes (Text.byteCount output.content)
  let left := (outputs.map fun output => Text.byteCount output.fileName).foldl Nat.max 0
  let right := (outputs.map fun output => (size output).length).foldl Nat.max 0
  outputs.map fun output =>
    line [Style.dim.paint (dir.text ++ ['/']), Style.cyan.paint output.fileName,
      padding left (Text.byteCount output.fileName), " ",
      Style.dim.paint (if output.isChunk then "chunk" else "asset"), Style.dim.paint " │ size: ",
      padding right (size output).length, size output, " kB"]

def summary (product : Build.Product) : Text :=
  Text.concat (configLines product.config ++ outputLines product.bundle.values product.outDir)

def failureLine (failure : Failure) : Text := line [Style.red.paint "Error:", " ", failure.text]

/-- The lines that tell that a build has finished, up to the time it has taken. -/
def closing : Text := Text.concat ["\n", Style.green.paint "✔", " Finished in"]

end AppsScript.CommandLine
