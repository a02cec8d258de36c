import AppsScript.FileSystem.Basic
import AppsScript.FileSystem.Key
import AppsScript.OrderedMap

/-!
# A file system in memory

Files with their contents, and directories, each known by its key. A path is resolved by its names
alone. Chosen operations can be made to fail at chosen places (`FaultPlan`).
-/

namespace AppsScript

/-- The places at which operations fail. -/
structure FaultPlan where
  read : List Key := []
  walk : List Key := []
  createDirs : List Key := []
  write : List Key := []
deriving DecidableEq

/-- Files and directories in memory. -/
structure Memory where
  files : OrderedMap Key Text
  dirs : List Key
  plan : FaultPlan
deriving DecidableEq

namespace Memory

/-- Adds the directories that are not there yet. -/
def addDirs (dirs new : List Key) : List Key :=
  new.foldl (fun dirs key => if dirs.contains key then dirs else dirs ++ [key]) dirs

/-- The given files and directories and every directory above them. -/
def ofContents (files : List (Key × Text)) (dirs : List Key) (plan : FaultPlan) : Memory where
  files := .ofList files
  dirs := addDirs [[]] ((files.map (·.1.dropLast) ++ dirs).flatMap Key.onTheWay)
  plan := plan

/-- The content of a file. A directory is none, even if there is a file of its name. -/
def readText (m : Memory) (p : Path) : Except Fault Text :=
  let key := Key.ofPath p
  if m.plan.read.contains key then .error .denied
  else if m.dirs.contains key then .error .isADirectory
  else
    match m.files.get? key with
    | some content => .ok content
    | none => .error .notFound

def isThere (m : Memory) (p : Path) : Bool :=
  let key := Key.ofPath p
  m.files.contains key || m.dirs.contains key

/-- The files below a directory, each spelled as the directory is, in the order of paths. -/
def walk (m : Memory) (dir : Path) : Except Fault (List Path) :=
  let key := Key.ofPath dir
  if !m.dirs.contains key then .ok []
  else if m.plan.walk.contains key then .error .denied
  else
    let found := m.files.keys.filterMap fun file =>
      (Key.below? key file).map fun rest => dir.join ⟨Text.joinWith "/" rest⟩
    .ok (found.mergeSort Path.le)

/-- Creates a directory and those above it. -/
def createDirs (m : Memory) (p : Path) : Except Fault Unit × Memory :=
  let key := Key.ofPath p
  if m.plan.createDirs.contains key then (.error .denied, m)
  else if key.onTheWay.any m.files.contains then (.error .notADirectory, m)
  else (.ok (), { m with dirs := addDirs m.dirs key.onTheWay })

/-- Gives a file a content. Its directory has to be there. -/
def write (m : Memory) (p : Path) (content : Text) : Except Fault Unit × Memory :=
  let key := Key.ofPath p
  if m.plan.write.contains key then (.error .denied, m)
  else if m.dirs.contains key then (.error .isADirectory, m)
  else if !m.dirs.contains key.dropLast then (.error .notFound, m)
  else (.ok (), { m with files := m.files.insert key content })

/-- Reads the one file and writes the other. -/
def copy (m : Memory) (source target : Path) : Except Fault Nat × Memory :=
  match m.readText source with
  | .error fault => (.error fault, m)
  | .ok content =>
    let (result, m) := m.write target content
    (result.map fun _ => Text.byteCount content, m)

/-- The wording of faults. -/
def describe : Fault → Text
  | .denied => "denied"
  | .notFound => "not found"
  | .alreadyExists => "already exists"
  | .isADirectory => "is a directory"
  | .notADirectory => "not a directory"
  | .notText => "not text"
  | .notAFile => "not a file"
  | .walkLoop | .linkLoop => "too many links"
  | .nameTooLong => "name too long"
  | .badName => "bad name"

instance : FileSystem Memory where
  readText := readText
  isThere := isThere
  walk := walk
  createDirs := createDirs
  write := write
  copy := copy
  describe _ := describe

end Memory

end AppsScript
