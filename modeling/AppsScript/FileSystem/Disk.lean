import AppsScript.FileSystem.Basic
import AppsScript.FileSystem.Key
import AppsScript.OrderedMap

/-!
# A file system on a disk

Files of bytes, directories, and symbolic links. A path is followed step by step, through links as well
(`Disk.follow`), so `..` leads out of the directory that a link leads into. All else is said in terms of
where a path leads.
-/

namespace AppsScript

/-- What there can be under a name. -/
inductive Node
  | file (content : List UInt8)
  | dir
  /-- A link to a path, relative to the directory that the link is in. -/
  | link (target : Text)
deriving DecidableEq

/-- What there is below the root, by key. -/
structure Disk where
  nodes : OrderedMap Key Node
deriving DecidableEq

/-- Where a path leads. -/
inductive Spot
  | there (key : Key) (node : Node)
  /-- To nothing yet, but its directory is there; `slash` tells that the path goes on with a slash. -/
  | free (dir : Key) (name : Text) (slash : Bool)

/-- What a path is followed for. -/
inductive Purpose
  /-- To find what is there. -/
  | find
  /-- To write a file, there or new. -/
  | write
  /-- To make something new, which no link at the end may lead elsewhere. -/
  | make
deriving DecidableEq

namespace Disk

def empty : Disk := ⟨.empty⟩

def node? (d : Disk) (key : Key) : Option Node := if key = [] then some .dir else d.nodes.get? key

/-- The number of links that a path may lead through. -/
def maxLinks : Nat := 40

/-- The number of bytes that a name may have. -/
def maxName : Nat := 255

/-- The number of bytes that a path may have. -/
def maxPath : Nat := 4095

/-- What keeps a text from being followed as a path. -/
def spellingFault? (text : Text) : Option Fault :=
  if text.contains '\x00' then some .badName
  else if text = [] then some .notFound
  else if maxPath < Text.byteCount text then some .nameTooLong
  else none

/-- Follows the segments of a path from `dir` on; `links` is the number of links it may still lead
through. -/
def follow (d : Disk) (purpose : Purpose) :
    (links : Nat) → (dir : Key) → List Text → Except Fault Spot
  | _, dir, [] => .ok (.there dir .dir)
  | links, dir, segment :: rest =>
    let isLast := rest.all List.isEmpty
    if segment = [] ∨ segment = "." then follow d purpose links dir rest
    else if segment = ".." then follow d purpose links dir.dropLast rest
    -- A slash at the end says that it is a directory.
    else if isLast ∧ rest ≠ [] ∧ purpose = .write then .error .isADirectory
    else if maxName < Text.byteCount segment then .error .nameTooLong
    else
      let key := dir ++ [segment]
      match d.node? key with
      | none => if isLast then .ok (.free dir segment !rest.isEmpty) else .error .notFound
      | some .dir => follow d purpose links key rest
      | some (.file content) =>
        if rest = [] ∨ (isLast ∧ purpose = .make) then .ok (.there key (.file content))
        else .error .notADirectory
      | some (.link target) =>
        -- A new directory or link never goes where a link leads.
        if isLast ∧ purpose = .make then .ok (.there key (.link target))
        else
          match links with
          | 0 => .error .linkLoop
          | links + 1 =>
            let start := if Path.isAbsolute ⟨target⟩ then [] else dir
            follow d purpose links start (Path.segments ⟨target⟩ ++ rest)
termination_by links _ segments => (links, segments.length)

/-- Where a path leads; a relative one starts at the root. -/
def spot (d : Disk) (purpose : Purpose) (p : Path) : Except Fault Spot :=
  match spellingFault? p.text with
  | some fault => .error fault
  | none => d.follow purpose maxLinks [] p.segments

/-- What there is where a path leads. -/
def find (d : Disk) (p : Path) : Except Fault (Key × Node) :=
  match d.spot .find p with
  | .ok (.there key node) => .ok (key, node)
  | .ok (.free ..) => .error .notFound
  | .error fault => .error fault

def readBytes (d : Disk) (p : Path) : Except Fault (List UInt8) :=
  match d.find p with
  | .ok (_, .file content) => .ok content
  | .ok _ => .error .isADirectory
  | .error fault => .error fault

def readText (d : Disk) (p : Path) : Except Fault Text := do
  match Text.ofUtf8? (← d.readBytes p) with
  | some content => .ok content
  | none => .error .notText

def isThere (d : Disk) (p : Path) : Bool := (d.find p).toOption.isSome

def isDir (d : Disk) (p : Path) : Bool :=
  match d.find p with
  | .ok (_, .dir) => true
  | _ => false

def put (d : Disk) (key : Key) (node : Node) : Disk := ⟨d.nodes.insert key node⟩

/-- Makes a new directory. -/
def makeDir (d : Disk) (p : Path) : Except Fault Unit × Disk :=
  match d.spot .make p with
  | .ok (.free dir name _) => (.ok (), d.put (dir ++ [name]) .dir)
  | .ok (.there ..) => (.error .alreadyExists, d)
  | .error fault => (.error fault, d)

def makeLink (d : Disk) (p : Path) (target : Text) : Except Fault Unit × Disk :=
  match spellingFault? target, d.spot .make p with
  | _, .error .badName => (.error .badName, d)
  | some fault, _ => (.error fault, d)
  | none, .ok (.free dir name slash) =>
    if slash then (.error .notFound, d) else (.ok (), d.put (dir ++ [name]) (.link target))
  | none, .ok (.there ..) => (.error .alreadyExists, d)
  | none, .error fault => (.error fault, d)

/-- Makes a directory unless it is there. -/
def makeDirIfNew (d : Disk) (p : Path) : Except Fault Unit × Disk :=
  match d.makeDir p with
  | (.error fault, d) => (if d.isDir p then .ok () else .error fault, d)
  | made => made

/-- Makes a directory and the `above` nearest directories above it, as far as they are missing. -/
def createDirsFrom (d : Disk) : (above : Nat) → Path → Except Fault Unit × Disk
  | 0, p => d.makeDirIfNew p
  | above + 1, p =>
    match d.makeDirIfNew p with
    | (.error .notFound, d) =>
      match createDirsFrom d above (p.parent?.getD "") with
      | (.ok (), d) => d.makeDirIfNew p
      | failed => failed
    | made => made

/-- Makes a directory and those above it that are missing. -/
def createDirs (d : Disk) (p : Path) : Except Fault Unit × Disk :=
  if p.text = [] then (.ok (), d) else d.createDirsFrom p.components.length p

/-- Gives a file a content, making it if need be. -/
def writeBytes (d : Disk) (p : Path) (content : List UInt8) : Except Fault Unit × Disk :=
  match d.spot .write p with
  | .ok (.free dir name _) => (.ok (), d.put (dir ++ [name]) (.file content))
  | .ok (.there key (.file _)) => (.ok (), d.put key (.file content))
  | .ok (.there ..) => (.error .isADirectory, d)
  | .error fault => (.error fault, d)

/-- Whether two paths lead to the same thing. -/
def isSame (d : Disk) (p q : Path) : Bool :=
  match d.find p, d.find q with
  | .ok (a, _), .ok (b, _) => a == b
  | _, _ => false

/-- Copies a file. It is emptied before it is written, so nothing is left of one copied onto itself. -/
def copy (d : Disk) (source target : Path) : Except Fault Nat × Disk :=
  match d.find source with
  | .ok (_, .file content) =>
    let content := if d.isSame source target then [] else content
    let (result, d) := d.writeBytes target content
    (result.map fun _ => content.length, d)
  | .ok _ => (.error .notAFile, d)
  | .error fault => (.error fault, d)

/-- The names in a directory, in alphabetical order. -/
def names (d : Disk) (dir : Key) : List Text :=
  let found := d.nodes.keys.filterMap fun key =>
    match Key.below? dir key with
    | some [name] => some name
    | _ => none
  found.mergeSort fun a b => (Text.compare a b).isLE

/-- Whether there is a file under a key, not a link to one. -/
def isPlainFile (d : Disk) (key : Key) : Bool :=
  match d.node? key with
  | some (.file _) => true
  | _ => false

/-- The files below a directory spelled `p`, at most `depth` levels of them. `dirs` are the directories on
the way, this one included, to which no link below may lead back. -/
def walkFrom (d : Disk) : (depth : Nat) → (dirs : List Key) → (dir : Key) → Path →
    Except Fault (List Path)
  | 0, _, _, _ => .ok []
  | depth + 1, dirs, dir, p => do
    let found ← (d.names dir).mapM fun name => do
      let q := p.join ⟨name⟩
      if d.isPlainFile (dir ++ [name]) then .ok [q]
      else
        match ← d.find q with
        | (_, .file _) => .ok [q]
        | (key, _) =>
          if dirs.contains key then .error .walkLoop else walkFrom d depth (key :: dirs) key q
    return found.flatten

/-- The files below a directory, also through links, in the order of their paths. -/
def walk (d : Disk) (p : Path) : Except Fault (List Path) :=
  match d.find p with
  | .ok (key, .dir) =>
    (d.walkFrom (d.nodes.size + 1) [key] key p).map fun found => found.mergeSort Path.le
  | _ => .ok []

/-- The wording of faults, with their numbers. -/
def describe : Fault → Text
  | .denied => "Permission denied (os error 13)"
  | .notFound => "No such file or directory (os error 2)"
  | .alreadyExists => "File exists (os error 17)"
  | .isADirectory => "Is a directory (os error 21)"
  | .notADirectory => "Not a directory (os error 20)"
  | .notText => "stream did not contain valid UTF-8"
  | .notAFile => "the source path is neither a regular file nor a symlink to a regular file"
  | .walkLoop => "File system loop found"
  | .linkLoop => "Too many levels of symbolic links (os error 40)"
  | .nameTooLong => "File name too long (os error 36)"
  | .badName => "file name contained an unexpected NUL byte"

instance : FileSystem Disk where
  readText := readText
  isThere := isThere
  walk := walk
  createDirs := createDirs
  write d p content := d.writeBytes p (Text.utf8 content)
  copy := copy
  describe _ := describe

end Disk

end AppsScript
