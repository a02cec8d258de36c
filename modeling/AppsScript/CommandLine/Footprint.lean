import AppsScript.CommandLine.Run

/-!
# What a build looks at

The places on a disk that a build reads, asks for or writes to. Nothing else there matters to it, so a
part of a disk that has these will do for all of it.
-/

namespace AppsScript.CommandLine

/-- Paths that matter to a build. -/
structure Footprint where
  /-- Those that matter with all that is below them. -/
  trees : List Path
  /-- Those that matter by themselves. -/
  places : List Path

/-- What a build in the directory `current` looks at. -/
def Footprint.ofBuild (current : Path) (arguments : Arguments) (settings : Settings) : Footprint :=
  let root := Config.root current { cwd := arguments.cwd }
  let outDir := root.join ⟨settings.outDir⟩
  let inputs := arguments.inputs.map root.join
  let outputs := inputs.map fun path => outDir.join ⟨Build.chunkName path ++ ".js"⟩
  let conventional := (Alias.conventions.flatMap Prod.snd).map fun dir => root.join ⟨dir⟩
  { trees := settings.includes.map fun dir => root.join ⟨dir⟩
    places :=
      [root, root.join Alias.projectFileName, root.join Manifest.fileName, outDir,
        outDir.join Manifest.fileName] ++ inputs ++ outputs ++ conventional }

end AppsScript.CommandLine
