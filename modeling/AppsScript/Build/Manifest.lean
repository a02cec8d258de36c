import AppsScript.FileSystem.Basic
import AppsScript.Log

/-!
# The manifest

The host wants a manifest next to the code. It lies in the root of the project and is copied as it is.
-/

namespace AppsScript.Manifest

def fileName : Path := "appsscript.json"

variable {σ : Type} [FileSystem σ]

/-- Creates the directory and copies the manifest into it. -/
def copyInto (fs : σ) (source dir target : Path) : Except Fault Nat × σ :=
  match FileSystem.createDirs fs dir with
  | (.error fault, fs) => (.error fault, fs)
  | (.ok (), fs) => FileSystem.copy fs source target

/-- Copies the manifest from `root` into `dir`. The result is where it has gone; without a manifest, or if
copying fails, nothing but a diagnostic comes of it. -/
def copy (fs : σ) (root dir : Path) : Logged (Option Path × σ) :=
  let source := root.join fileName
  let target := dir.join fileName
  if !FileSystem.isThere fs source then do
    Logged.tell (.noManifest root)
    return (none, fs)
  else
    match copyInto fs source dir target with
    | (.ok _, fs) => do
      Logged.tell (.manifestCopied dir)
      return (some target, fs)
    | (.error fault, after) => do
      Logged.tell (.manifestNotCopied dir (FileSystem.describe fs fault))
      return (none, after)

end AppsScript.Manifest
