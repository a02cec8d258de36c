import AppsScript.CommandLine.Footprint
import AppsScript.FileSystem.Disk

/-!
# The command line program

Takes what a build looks at from the real disk, runs the program on that, and puts what has changed
back.
-/

namespace AppsScript.CommandLine

def systemPath (p : Path) : String := String.ofList p.text

def keyPath (key : Key) : String := String.ofList key.text

/-- Takes what there is along a path, from `dir` on, from the real disk. A link becomes one to where it
leads in the end. -/
partial def takeAlong (d : Disk) (dir : Key) : List Text → IO Disk
  | [] => pure d
  | segment :: rest => do
    if segment = [] ∨ segment = "." then takeAlong d dir rest
    else if segment = ".." then takeAlong d dir.dropLast rest
    else
      let key := dir ++ [segment]
      try
        let real ← IO.FS.realPath (keyPath dir)
        let here := real / String.ofList segment
        match (← here.symlinkMetadata).type with
        | .dir => takeAlong (d.put key .dir) key rest
        | .file => return d.put key (.file (← IO.FS.readBinFile here).toList)
        | .symlink =>
          let target := (← IO.FS.realPath here).toString.toList
          let d := d.put key (.link target)
          if target = key.text then pure d else takeAlong d [] (Path.segments ⟨target⟩ ++ rest)
        | .other => pure d
      catch _ => pure d

/-- Takes what there is below a path as well; `dirs` are the directories on the way. -/
partial def takeTree (d : Disk) (dirs : List Key) (p : Path) : IO Disk := do
  let d ← takeAlong d [] p.segments
  match d.find p with
  | .ok (key, .dir) =>
    if key ∈ dirs then return d
    let names ← try
        let real ← IO.FS.realPath (systemPath p)
        pure ((← real.readDir).toList.map fun entry => entry.fileName.toList)
      catch _ => pure []
    names.foldlM (fun d name => takeTree d (key :: dirs) (p.join ⟨name⟩)) d
  | _ => return d

/-- Takes the part of the real disk that the arguments ask for. -/
def takeDisk (current : Path) (texts : List Text) : IO Disk := do
  let d ← takeAlong .empty [] current.segments
  match Request.ofTexts texts with
  | .build arguments =>
    let d ← (arguments.config.toList.map current.join).foldlM (fun d p => takeAlong d [] p.segments) d
    match loadOptions d current arguments with
    | .error _ => return d
    | .ok options =>
      let footprint := Footprint.ofBuild current arguments options.settings
      let d ← footprint.places.foldlM (fun d p => takeAlong d [] p.segments) d
      footprint.trees.foldlM (fun d p => takeTree d [] p) d
  | _ => return d

/-- Puts what has changed back on the real disk. -/
def putDisk (before after : Disk) : IO Unit :=
  after.nodes.toList.forM fun (key, node) =>
    if before.nodes.get? key = some node then pure ()
    else
      match node with
      | .dir => IO.FS.createDirAll (keyPath key)
      | .file content => IO.FS.writeBinFile (keyPath key) ⟨content.toArray⟩
      | .link _ => pure ()

def elapsed (nanoseconds : Nat) : Text :=
  let n := roundDiv nanoseconds 10000
  let decimals := Text.ofNat (n % 100)
  Text.concat [" \x1b[1;37m", Text.ofNat (n / 100), ".", if decimals.length < 2 then "0" else [],
    decimals, " ms\x1b[0m"]

end AppsScript.CommandLine

open AppsScript CommandLine in
def main (arguments : List String) : IO UInt32 := do
  let start ← IO.monoNanosNow
  let texts := arguments.map String.toList
  let current : Path := ⟨(← IO.currentDir).toString.toList⟩
  let log := (← IO.getEnv "GASPACK_LOG").map String.toList
  let disk ← takeDisk current texts
  let outcome := run disk current log texts
  putDisk disk outcome.fs
  let time := elapsed ((← IO.monoNanosNow) - start)
  IO.print (String.ofList (outcome.text time))
  if outcome.exitCode = 2 then IO.eprintln "error: arguments not understood, try '--help'"
  return outcome.exitCode.toUInt32
