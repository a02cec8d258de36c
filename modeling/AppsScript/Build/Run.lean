import AppsScript.FileSystem.Basic
import AppsScript.Plugin.Pipeline

/-!
# Running a build

A build without a bundler: every module is an input of its own and becomes a chunk of its own. Nothing is
written before all modules have been read.
-/

namespace AppsScript.Build

structure Product where
  config : Config
  bundle : Bundle
  /-- The directory that the bundle has been written to. -/
  outDir : Path

variable {σ : Type} [FileSystem σ]

/-- The name of the chunk that a module becomes. -/
def chunkName (path : Path) : Text := path.fileStem?.getD "index"

/-- The failure of an operation at a path. -/
def ioFailure (fs : σ) (doing : Text) (path : Path) (fault : Fault) : Failure :=
  ⟨[Text.concat ["Failed to ", doing, " ", path.text], FileSystem.describe fs fault]⟩

def readChunk (fs : σ) (pipeline : Pipeline σ) (path : Path) : Except Failure (Text × Output) :=
  match FileSystem.readText fs path with
  | .error fault => .error (ioFailure fs "read" path fault)
  | .ok content =>
    (pipeline.transform path.text content).map fun code =>
      let name := chunkName path
      let fileName := name ++ ".js"
      (fileName, .chunk name fileName code)

/-- The bundle of the chunks that the inputs become, added to `bundle`. Of two chunks for one file the last
one stays. -/
def readChunks (fs : σ) (pipeline : Pipeline σ) (root : Path) :
    (inputs : List Path) → Bundle → Except Failure Bundle
  | [], bundle => .ok bundle
  | input :: inputs, bundle => do
    let (key, output) ← readChunk fs pipeline (root.join input)
    readChunks fs pipeline root inputs (bundle.insert key output)

/-- Writes outputs into a directory, up to the first that fails. -/
def writeOutputs (fs : σ) (dir : Path) : List Output → Except Failure Unit × σ
  | [] => (.ok (), fs)
  | output :: outputs =>
    let path := dir.join ⟨output.fileName⟩
    match FileSystem.write fs path output.content with
    | (.ok (), fs) => writeOutputs fs dir outputs
    | (.error fault, after) => (.error (ioFailure fs "write" path fault), after)

/-- Writes a bundle into a directory, which is made if there is anything to write. -/
def writeOut (fs : σ) (dir : Path) (bundle : Bundle) : Except Failure Unit × σ :=
  if bundle.isEmpty then (.ok (), fs)
  else
    match FileSystem.createDirs fs dir with
    | (.ok (), fs) => writeOutputs fs dir bundle.values
    | (.error fault, after) => (.error (ioFailure fs "create" dir fault), after)

/-- Runs a build: configuration, modules, bundle, output. `current` is the directory that the program runs
in, and `outDir` is where the output goes if the configuration does not say. -/
def run (fs : σ) (current : Path) (pipeline : Pipeline σ) (outDir : Text) (config : Config)
    (inputs : List Path) : Logged (Except (List Failure) Product × σ) := do
  let (config, failures) ← pipeline.config fs config
  if !failures.isEmpty then return (.error failures, fs)
  let root := config.root current
  match readChunks fs pipeline root inputs .empty with
  | .error failure => return (.error failure.alone, fs)
  | .ok bundle =>
    let (bundle, failures) ← pipeline.generateBundle bundle
    if !failures.isEmpty then return (.error failures, fs)
    let dir := root.join ⟨config.build.outDir.getD outDir⟩
    match writeOut fs dir bundle with
    | (.error failure, fs) => return (.error failure.alone, fs)
    | (.ok (), fs) =>
      let (fs, failures) ← pipeline.writeBundle { cwd := root, dir := dir, bundle := bundle } fs
      return (Failure.result failures ⟨config, bundle, dir⟩, fs)

end AppsScript.Build
