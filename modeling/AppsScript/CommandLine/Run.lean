import AppsScript.CommandLine.Arguments
import AppsScript.CommandLine.LogFilter
import AppsScript.CommandLine.Report
import AppsScript.Options.Decode
import AppsScript.Plugin.Host

/-!
# The program

From the arguments and a file system to what is printed and a file system (`run`). Whatever goes wrong in
a build is printed; only arguments that make no sense, or a log filter that cannot be cut into its parts,
are told by the exit code.
-/

namespace AppsScript.CommandLine

/-- What comes of running the program. -/
structure Outcome (σ : Type) where
  exitCode : Nat := 0
  /-- What is printed. -/
  output : Text := []
  /-- Whether the time that the build has taken is to be printed behind it. -/
  tellsTime : Bool := false
  fs : σ

/-- Everything that is printed, with the given text for the time. -/
def Outcome.text {σ : Type} (time : Text) (outcome : Outcome σ) : Text :=
  if outcome.tellsTime then outcome.output ++ time ++ ['\n'] else outcome.output

def versionLine : Text := line ["gaspack_cli 0.1.0"]

def helpText : Text :=
  Text.concat <| List.map (fun text => line [text])
    ["Usage: gaspack [OPTIONS]",
      "",
      "Options:",
      "      --cwd <CWD>            Project root, defaults to the current directory",
      "      --config <CONFIG>      JSON file with plugin options",
      "      --include <INCLUDE>    Directory with source files",
      "      --exclude <EXCLUDE>    Pattern of source files to leave out",
      "      --input <INPUT>        Compiled module to run through the plugin",
      "  -d, --out-dir <OUT_DIR>    Output directory",
      "      --no-copy-manifest     Leave the manifest where it is",
      "      --target <TARGET>      Language level, es2015 to es2020",
      "      --no-transform-logger  Leave console calls as they are",
      "      --no-path-aliases      Configure no aliases",
      "      --preserve-comments    Keep comments and do not minify",
      "  -s, --silent               Print no summary",
      "  -h, --help                 Print help",
      "  -V, --version              Print version"]

variable {σ : Type} [FileSystem σ]

/-- The options of the file that the arguments name, if they name one, with those of the command line in
their place. -/
def loadOptions (fs : σ) (current : Path) (arguments : Arguments) : Except Failure Options :=
  match arguments.config with
  | none => .ok (arguments.over {})
  | some path =>
    match FileSystem.readText fs (current.join path) with
    | .error fault => .error (Build.ioFailure fs "read" path fault)
    | .ok content =>
      match Options.decode content with
      | .ok options => .ok (arguments.over options)
      | .error _ => .error ⟨[Text.concat ["Invalid options in ", path.text]]⟩

/-- The filter for log lines: the one that the environment asks for, if it makes sense. There is none if
its text is cut within a character. -/
def logFilter? (log : Option Text) (silent : Bool) : Option LogFilter :=
  match log.map LogFilter.read with
  | some (.ok filter) => some filter
  | some (.error .cutCharacter) => none
  | _ => some (.upTo (if silent then .warn else .info))

def report (silent : Bool) : Except (List Failure) Build.Product → Text
  | .ok product => (if silent then [] else summary product) ++ closing
  | .error failures => failures.flatMap failureLine

def runBuild (fs : σ) (current : Path) (filter : LogFilter) (arguments : Arguments) : Outcome σ :=
  match loadOptions fs current arguments with
  | .error failure => { output := failureLine failure, fs := fs }
  | .ok options =>
    let settings := options.settings
    let pipeline := Pipeline.ofPlugins [Plugin.host current settings]
    let config : Config := { cwd := arguments.cwd, compiler.target := arguments.target }
    let built := Build.run fs current pipeline settings.outDir config arguments.inputs
    let (result, fs) := built.value
    let logLines := (built.log.filter filter.shows).flatMap logLine
    { output := logLines ++ report arguments.silent result, tellsTime := result.toOption.isSome, fs := fs }

/-- Runs the program in the directory `current` with the given arguments; `log` is the text of a log
filter. -/
def run (fs : σ) (current : Path) (log : Option Text) (arguments : List Text) : Outcome σ :=
  match Request.ofTexts arguments with
  | .build arguments =>
    match logFilter? log arguments.silent with
    | some filter => runBuild fs current filter arguments
    | none => { exitCode := 101, fs := fs }
  | .help => { output := helpText, fs := fs }
  | .version => { output := versionLine, fs := fs }
  | .misuse => { exitCode := 2, fs := fs }

end AppsScript.CommandLine
