import AppsScript.Build.Run
import AppsScript.CommandLine.Run
import AppsScript.FileSystem.Memory
import AppsScript.Plugin.Host
import AppsScript.Proofs.AliasPrecedence

/-!
# Runs of a build

A build reads all its inputs before it writes anything. So an input that cannot be read ends it with nothing changed
(`Build.run_unreadable`), wherever in the list it stands.
-/

namespace AppsScript

variable {σ S : Type} {stage : Stage} {hook : Plugin σ → Hook S} {plugin : Plugin σ} {s s' : S}

namespace Pipeline

/-! ### The pipeline of the host -/

theorem ofPlugins_singleton (plugin : Plugin σ) : ofPlugins [plugin] = ⟨[plugin]⟩ := by
  rw [ofPlugins, List.mergeSort_singleton]

theorem value_runAll_singleton (h : (hook plugin s).value = (s', none)) :
    (runAll stage hook [plugin] s).value = (s', []) := by
  simp only [runAll, Logged.value_bind, h]
  rfl

variable [FileSystem σ] {fs : σ} {current : Path} {settings : Settings} {config : Config} {bundle : Bundle}

/-- The pipeline that a build for the host goes through. -/
abbrev host (σ : Type) [FileSystem σ] (current : Path) (settings : Settings) : Pipeline σ :=
  ofPlugins [Plugin.host current settings]

theorem value_config_host : ((host σ current settings).config fs config).value =
    ((config.prepare fs current settings).value, []) := by
  rw [host, ofPlugins_singleton]
  exact value_runAll_singleton rfl

theorem transform_host (id code : Text) : (host σ current settings).transform id code =
    .ok (if isScript id then adaptModule settings code else code) := by
  rw [host, ofPlugins_singleton]
  change Except.ok (Option.getD (if isScript id then some (adaptModule settings code) else none) code) = _
  cases isScript id <;> rfl

theorem value_generateBundle_host : ((host σ current settings).generateBundle bundle).value =
    (Plugin.finishBundle settings bundle, []) := by
  rw [host, ofPlugins_singleton]
  exact value_runAll_singleton rfl

theorem value_writeBundle_host (written : Written) : ((host σ current settings).writeBundle written fs).value =
    (if settings.copyManifest then (Manifest.copy fs written.cwd written.dir).value.2 else fs, []) := by
  have hhook : ((Plugin.host current settings).writeBundle written fs).value =
      (if settings.copyManifest then (Manifest.copy fs written.cwd written.dir).value.2 else fs, none) := by
    change (if settings.copyManifest then _ else _ : Logged (σ × Option Failure)).value = _
    by_cases h : settings.copyManifest
    · rw [if_pos h, if_pos h]
      rfl
    · rw [if_neg h, if_neg h]
      rfl
  rw [host, ofPlugins_singleton, writeBundle]
  exact value_runAll_singleton hhook

end Pipeline

namespace Build

variable [FileSystem σ] {fs : σ} {current root path input : Path} {pipeline : Pipeline σ} {settings : Settings}
  {config : Config} {outDir content : Text} {inputs before after : List Path} {bundle : Bundle} {fault : Fault}
  {failure : Failure}

/-! ### Reading -/

theorem readChunks_of_error (hbefore : ∀ earlier ∈ before, ∃ chunk, readChunk fs pipeline (root.join earlier) = .ok chunk)
    (hinput : readChunk fs pipeline (root.join input) = .error failure) :
    readChunks fs pipeline root (before ++ input :: after) bundle = .error failure := by
  induction before generalizing bundle with
  | nil =>
    rw [List.nil_append, readChunks, hinput]
    rfl
  | cons earlier before ih =>
    obtain ⟨chunk, hchunk⟩ := hbefore earlier (by simp)
    rw [List.cons_append, readChunks, hchunk]
    exact ih fun e he => hbefore e (by simp [he])

/-- The failure to read a file. -/
def readFailure (fs : σ) (path : Path) (fault : Fault) : Failure :=
  ⟨[Text.concat ["Failed to read ", path.text], FileSystem.describe fs fault]⟩

theorem readChunk_of_unreadable (h : FileSystem.readText fs path = .error fault) :
    readChunk fs pipeline path = .error (readFailure fs path fault) := by
  rw [readChunk, h]
  rfl

theorem readChunk_host (h : FileSystem.readText fs path = .ok content) :
    readChunk fs (.host σ current settings) path =
      .ok (chunkName path ++ ".js", .chunk (chunkName path) (chunkName path ++ ".js")
        (if isScript path.text then adaptModule settings content else content)) := by
  rw [readChunk, h]
  simp only [Pipeline.transform_host]
  rfl

/-! ### Running -/

theorem value_run_of_error (hconfig : (pipeline.config fs config).value.2 = [])
    (hread : readChunks fs pipeline ((pipeline.config fs config).value.1.root current) inputs .empty = .error failure) :
    (run fs current pipeline outDir config inputs).value = (.error [failure], fs) := by
  simp only [run, Logged.value_bind, hconfig, hread]
  rfl

theorem root_config_host : ((Pipeline.host σ current settings).config fs config).value.1.root current =
    config.root current := by
  rw [Pipeline.value_config_host]
  exact Config.root_prepare

/-- Of the inputs that cannot be read there is a first one. -/
theorem exists_first_unreadable (h : ∃ input ∈ inputs, ∃ fault, FileSystem.readText fs (root.join input) = .error fault) :
    ∃ before input after fault, inputs = before ++ input :: after ∧
      (∀ earlier ∈ before, ∃ content, FileSystem.readText fs (root.join earlier) = .ok content) ∧
      FileSystem.readText fs (root.join input) = .error fault := by
  induction inputs with
  | nil => simp at h
  | cons first inputs ih =>
    cases hfirst : FileSystem.readText fs (root.join first) with
    | error fault => exact ⟨[], first, inputs, fault, rfl, by simp, hfirst⟩
    | ok content =>
      obtain ⟨input, hmem, fault, hfault⟩ := h
      have hne : input ≠ first := by
        rintro rfl
        rw [hfirst] at hfault
        cases hfault
      obtain ⟨before, x, after, y, rfl, hbefore, hx⟩ := ih ⟨input, List.mem_of_ne_of_mem hne hmem, fault, hfault⟩
      refine ⟨first :: before, x, after, y, rfl, fun e he => ?_, hx⟩
      rcases List.mem_cons.1 he with rfl | he
      · exact ⟨content, hfirst⟩
      · exact hbefore e he

/-- The first input that cannot be read is what a build fails with. -/
theorem value_run_of_unreadable (config : Config) (settings : Settings) (outDir : Text) (after : List Path)
    (hbefore : ∀ earlier ∈ before, ∃ content, FileSystem.readText fs ((config.root current).join earlier) = .ok content)
    (hfault : FileSystem.readText fs ((config.root current).join input) = .error fault) :
    (run fs current (.host σ current settings) outDir config (before ++ input :: after)).value =
      (.error [readFailure fs ((config.root current).join input) fault], fs) := by
  refine value_run_of_error (by rw [Pipeline.value_config_host]) ?_
  rw [root_config_host]
  refine readChunks_of_error (fun earlier hearlier => ?_) (readChunk_of_unreadable hfault)
  obtain ⟨content, hcontent⟩ := hbefore earlier hearlier
  exact ⟨_, readChunk_host hcontent⟩

/-- A build with an input that cannot be read fails, and the file system is as it was. -/
theorem run_unreadable (settings : Settings) (outDir : Text) (hinput : ∃ input ∈ inputs, ∃ fault,
      FileSystem.readText fs ((config.root current).join input) = .error fault) :
    ∃ before input after fault, inputs = before ++ input :: after ∧
      (∀ earlier ∈ before, ∃ content, FileSystem.readText fs ((config.root current).join earlier) = .ok content) ∧
      FileSystem.readText fs ((config.root current).join input) = .error fault ∧
      (run fs current (.ofPlugins [Plugin.host current settings]) outDir config inputs).value =
        (.error [readFailure fs ((config.root current).join input) fault], fs) := by
  obtain ⟨before, input, after, fault, rfl, hbefore, hfault⟩ := exists_first_unreadable hinput
  exact ⟨before, input, after, fault, rfl, hbefore, hfault, value_run_of_unreadable config settings outDir after hbefore hfault⟩

/-- A project that lacks one of its modules. -/
def incomplete : Memory := .ofContents [(["p", "main.js"], "run();"), (["p", "menu.js"], "show();")] [] {}

theorem run_unreadable_incomplete :
    FileSystem.readText incomplete ((Config.root "/p" {}).join "gone.js") = .error .notFound ∧
    (run incomplete "/p" (.ofPlugins [Plugin.host "/p" ({} : Options).settings]) "dist" {}
        ["main.js", "gone.js", "menu.js"]).value =
      (.error [⟨["Failed to read /p/gone.js", "not found"]⟩], incomplete) := by
  have hgone : FileSystem.readText incomplete ((Config.root "/p" {}).join "gone.js") = .error .notFound := by
    rfl
  refine ⟨hgone, ?_⟩
  have hinput : ∃ input ∈ (["main.js", "gone.js", "menu.js"] : List Path), ∃ fault,
      FileSystem.readText incomplete ((Config.root "/p" {}).join input) = .error fault :=
    ⟨"gone.js", by simp, .notFound, hgone⟩
  obtain ⟨before, input, after, fault, hinputs, -, hfault, hrun⟩ :=
    run_unreadable ({} : Options).settings "dist" hinput
  have hmem : input ∈ (["main.js", "gone.js", "menu.js"] : List Path) := by
    rw [hinputs]
    simp
  have hmain : FileSystem.readText incomplete ((Config.root "/p" {}).join "main.js") = .ok "run();" := rfl
  have hmenu : FileSystem.readText incomplete ((Config.root "/p" {}).join "menu.js") = .ok "show();" := rfl
  obtain rfl : input = "gone.js" := by
    simp only [List.mem_cons, List.not_mem_nil, or_false] at hmem
    rcases hmem with rfl | rfl | rfl
    · exact absurd (hfault.symm.trans hmain) (by simp)
    · rfl
    · exact absurd (hfault.symm.trans hmenu) (by simp)
  obtain rfl : fault = .notFound := Except.error.inj (hfault.symm.trans hgone)
  rw [hrun]
  rfl

end Build

namespace CommandLine

variable [FileSystem σ] {fs : σ} {current : Path} {filter : LogFilter} {arguments : Arguments}

/-- The program leaves the file system as it was if a module on its command line cannot be read. -/
theorem runBuild_of_unreadable (hinput : ∃ input ∈ arguments.inputs, ∃ fault,
      FileSystem.readText fs ((Config.root current { cwd := arguments.cwd }).join input) = .error fault) :
    (runBuild fs current filter arguments).fs = fs ∧ (runBuild fs current filter arguments).tellsTime = false := by
  rw [runBuild]
  cases loadOptions fs current arguments with
  | error failure => exact ⟨rfl, rfl⟩
  | ok options =>
    obtain ⟨before, input, after, fault, hinputs, hbefore, hfault⟩ := Build.exists_first_unreadable hinput
    have hrun := Build.value_run_of_unreadable { cwd := arguments.cwd, compiler.target := arguments.target }
      options.settings options.settings.outDir after hbefore hfault
    rw [← hinputs] at hrun
    simp only [hrun]
    exact ⟨trivial, rfl⟩

end CommandLine

end AppsScript
