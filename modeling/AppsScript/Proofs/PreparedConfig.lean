import AppsScript.Proofs.AliasPrecedence
import AppsScript.Proofs.SourceEntries

/-!
# What a run leaves alone

A run that finds no entry changes the compiler section only. When that is so can be told from the files
(`Discovery.FindsNothing`, `Discovery.isEmpty_detect_iff`): a failed walk, a match that breaks off and files
none of which counts all come to the same. `Config.Framed` says what else a run does not touch, and
`Config.framed_prepare` that it does not.
-/

namespace AppsScript

theorem Glob.anySuccess_eq_true {α : Type} {trial : α → Option Bool} {as : List α}
    (h : anySuccess trial as = some true) : ∃ a ∈ as, trial a = some true := by
  induction as with
  | nil => simp [anySuccess] at h
  | cons a as ih =>
    rw [anySuccess] at h
    cases ha : trial a with
    | none => simp [ha] at h
    | some b =>
      cases b with
      | true => exact ⟨a, by simp, ha⟩
      | false =>
        rw [ha] at h
        obtain ⟨x, hx, hmatch⟩ := ih h
        exact ⟨x, List.mem_cons_of_mem _ hx, hmatch⟩

namespace Discovery

variable {σ : Type} [FileSystem σ] {fs : σ} {cwd base file p : Path} {includes excludes ignored : List Text}
  {files : List Path} {entries : EntryMap}

/-- The file does not become an entry: a pattern matches it, it cannot be read, or there is no code in it. -/
def IsLeftOut (fs : σ) (cwd : Path) (ignored : List Text) (file : Path) : Prop :=
  (∃ pattern ∈ ignored, Glob.matches? pattern (file.shownFrom cwd).text = some true) ∨
    (∃ fault, FileSystem.readText fs file = .error fault) ∨
    ∃ code, FileSystem.readText fs file = .ok code ∧ isBlankCode code = true

/-- Nothing becomes an entry. -/
inductive FindsNothing (fs : σ) (cwd : Path) (includes excludes : List Text) : Prop
  | walkFails {dir : Text} {fault : Fault} (hdir : dir ∈ includes)
    (hwalk : FileSystem.walk fs (cwd.join ⟨dir⟩) = .error fault)
  /-- Patterns are nested too deeply for one of the files. -/
  | breaksOff {file : Path} (hfile : IsSource fs cwd includes file)
    (hglob : Glob.matchesAny? (patterns excludes) (file.shownFrom cwd).text = none)
  /-- All files that are found are left out, if there are any. -/
  | leavesOut (h : ∀ file, IsSource fs cwd includes file → IsLeftOut fs cwd (patterns excludes) file)

theorem value_isEmpty : (isEmpty fs file).value = true ↔ (∃ fault, FileSystem.readText fs file = .error fault) ∨
    ∃ code, FileSystem.readText fs file = .ok code ∧ isBlankCode code = true := by
  rw [isEmpty]
  cases FileSystem.readText fs file <;> simp

theorem IsLeftOut.not_isEligible (h : IsLeftOut fs cwd ignored file) : ¬ IsEligible fs cwd ignored file := by
  rintro ⟨hpatterns, hempty⟩
  rcases h with ⟨pattern, hp, hmatch⟩ | hblank
  · rw [hpatterns pattern hp] at hmatch
    exact absurd hmatch (by simp)
  · rw [value_isEmpty.2 hblank] at hempty
    exact absurd hempty (by simp)

/-- If no match breaks off, a file is left out or becomes an entry. -/
theorem isLeftOut_of_not_isEligible (hglob : Glob.matchesAny? ignored (file.shownFrom cwd).text ≠ none)
    (h : ¬ IsEligible fs cwd ignored file) : IsLeftOut fs cwd ignored file := by
  obtain ⟨b, hb⟩ := Option.ne_none_iff_exists'.1 hglob
  cases b with
  | true => exact .inl (Glob.anySuccess_eq_true hb)
  | false =>
    refine .inr (value_isEmpty.1 ?_)
    by_contra hempty
    exact h ⟨Glob.anySuccess_eq_false.1 hb, by simpa using hempty⟩

/-- One match that breaks off ends the search. -/
theorem addEntries_of_breaksOff (hfile : file ∈ files)
    (hglob : Glob.matchesAny? ignored (file.shownFrom cwd).text = none) :
    (addEntries fs cwd base ignored files entries).value = none := by
  induction files generalizing entries with
  | nil => simp at hfile
  | cons f files ih =>
    rw [addEntries]
    rcases List.mem_cons.1 hfile with rfl | hfile
    · rw [hglob]
      rfl
    · cases hmatch : Glob.matchesAny? ignored (f.shownFrom cwd).text with
      | none => rfl
      | some b =>
        cases b with
        | true => exact ih hfile
        | false =>
          simp only [Logged.value_bind]
          split
          · exact ih hfile
          · exact ih hfile

theorem detect_of_breaksOff (hwalk : ∀ dir ∈ includes, ∃ found, FileSystem.walk fs (cwd.join ⟨dir⟩) = .ok found)
    (hfile : IsSource fs cwd includes file)
    (hglob : Glob.matchesAny? (patterns excludes) (file.shownFrom cwd).text = none) :
    (detect fs cwd includes excludes).value = .empty := by
  obtain ⟨files, hfiles, -, hmem⟩ := sourceFiles_ok hwalk
  rw [detect, hfiles]
  simp only [Logged.value_bind, ← patterns_eq, addEntries_of_breaksOff ((hmem file).2 hfile) hglob]
  rfl

theorem not_walk_ok (h : ¬ ∀ dir ∈ includes, ∃ found, FileSystem.walk fs (cwd.join ⟨dir⟩) = .ok found) :
    ∃ dir ∈ includes, ∃ fault, FileSystem.walk fs (cwd.join ⟨dir⟩) = .error fault := by
  push Not at h
  obtain ⟨dir, hdir, hwalk⟩ := h
  cases hresult : FileSystem.walk fs (cwd.join ⟨dir⟩) with
  | ok found => exact absurd hresult (hwalk found)
  | error fault => exact ⟨dir, hdir, fault, hresult⟩

/-- A search that finds something finds the entries of the project. -/
theorem detected_of_not_findsNothing (h : ¬ FindsNothing fs cwd includes excludes) :
    Detected fs cwd includes excludes (detect fs cwd includes excludes).value := by
  refine detect_of_ok ?_ fun p hp hglob => h (.breaksOff hp hglob)
  by_contra hwalk
  obtain ⟨dir, hdir, fault, hfault⟩ := not_walk_ok hwalk
  exact h (.walkFails hdir hfault)

theorem isEmpty_detect_iff :
    (detect fs cwd includes excludes).value.isEmpty = true ↔ FindsNothing fs cwd includes excludes := by
  constructor
  · intro hempty
    by_contra hnothing
    have hdetected := detected_of_not_findsNothing hnothing
    refine hnothing (.leavesOut fun file hfile => isLeftOut_of_not_isEligible ?_ fun heligible => ?_)
    · exact fun hglob => hnothing (.breaksOff hfile hglob)
    · have hmem := (hdetected.mem_values file).2 ⟨hfile, heligible⟩
      rw [OrderedMap.isEmpty_iff.1 hempty] at hmem
      exact List.not_mem_nil hmem
  · intro hnothing
    by_cases hwalk : ∀ dir ∈ includes, ∃ found, FileSystem.walk fs (cwd.join ⟨dir⟩) = .ok found
    · cases hnothing with
      | walkFails hdir hfault =>
        obtain ⟨found, hfound⟩ := hwalk _ hdir
        rw [hfault] at hfound
        exact absurd hfound (by simp)
      | breaksOff hfile hglob =>
        rw [detect_of_breaksOff hwalk hfile hglob]
        rfl
      | leavesOut h =>
        by_cases hglob : ∃ file, IsSource fs cwd includes file ∧
            Glob.matchesAny? (patterns excludes) (file.shownFrom cwd).text = none
        · obtain ⟨file, hfile, hglob⟩ := hglob
          rw [detect_of_breaksOff hwalk hfile hglob]
          rfl
        · have hdetected : Detected fs cwd includes excludes (detect fs cwd includes excludes).value :=
            detect_of_ok hwalk fun p hp hnone => hglob ⟨p, hp, hnone⟩
          refine OrderedMap.isEmpty_iff.2 (List.eq_nil_iff_forall_not_mem.2 fun p hp => ?_)
          obtain ⟨hsource, heligible⟩ := (hdetected.mem_values p).1 hp
          exact (h p hsource).not_isEligible heligible
    · rw [detect_of_error (not_walk_ok hwalk)]
      rfl

end Discovery

namespace Config

open Discovery

variable {σ : Type} [FileSystem σ] {fs : σ} {current : Path} {settings : Settings} {config : Config}

/-- What a run does to a configuration, and what it does not do. -/
structure Framed (fs : σ) (current : Path) (settings : Settings) (before after : Config) : Prop where
  cwd : after.cwd = before.cwd
  chunkFileNames : after.build.chunkFileNames = before.build.chunkFileNames
  extensions : after.resolve.extensions = before.resolve.extensions
  /-- A language level that is set stays. -/
  target : ∀ level, before.compiler.target = some level → after.compiler.target = some level
  keepNames : after.compiler.keepNames = some true
  /-- Comments are kept if the settings ask for it. -/
  commentsKept : settings.preserveComments = true → after.compiler.legalComments = some .inPlace ∧
    after.compiler.minifyWhitespace = some false ∧ after.compiler.minifyIdentifiers = some false ∧
    after.compiler.minifySyntax = some false ∧ after.compiler.removeComments = some false
  /-- Else nothing is said about them. -/
  commentsFree : settings.preserveComments = false → after.compiler.legalComments = before.compiler.legalComments ∧
    after.compiler.minifyWhitespace = before.compiler.minifyWhitespace ∧
    after.compiler.minifyIdentifiers = before.compiler.minifyIdentifiers ∧
    after.compiler.minifySyntax = before.compiler.minifySyntax ∧
    after.compiler.removeComments = before.compiler.removeComments
  /-- Without entries nothing is built differently. -/
  untouched : settings.autoDetect = false ∨
      FindsNothing fs (before.root current) settings.includes settings.excludes →
    after.build = before.build ∧ after.resolve = before.resolve
  /-- With entries, these are what is built, each under its name. -/
  composed : settings.autoDetect = true →
      ¬ FindsNothing fs (before.root current) settings.includes settings.excludes →
    ∃ entries inputs, Detected fs (before.root current) settings.includes settings.excludes entries ∧
      entries.toList ≠ [] ∧ after.build.inputs = some inputs ∧
      List.Forall₂ (fun entry input => input.name = some entry.1 ∧ input.source = entry.2.text)
        entries.toList inputs ∧
      after.build.outDir = some settings.outDir

/-- A run for some entries changes the fields of the build section that it sets. -/
theorem build_forHost (config : Config) (entries : EntryMap) (outDir : Text) (aliases : Option AliasMap) :
    (config.forHost entries outDir aliases).build.chunkFileNames = config.build.chunkFileNames ∧
      (config.forHost entries outDir aliases).build.inputs = some entries.inputs ∧
      (config.forHost entries outDir aliases).build.outDir = some outDir := by
  cases aliases <;> exact ⟨rfl, rfl, rfl⟩

theorem extensions_forHost (entries : EntryMap) (outDir : Text) (aliases : Option AliasMap) :
    (config.forHost entries outDir aliases).resolve.extensions = config.resolve.extensions := by
  cases aliases <;> rfl

theorem forall₂_inputs (entries : EntryMap) :
    List.Forall₂ (fun (entry : Text × Path) (input : Input) =>
      input.name = some entry.1 ∧ input.source = entry.2.text) entries.toList entries.inputs := by
  rw [EntryMap.inputs, List.forall₂_map_right_iff]
  exact List.forall₂_same.2 fun _ _ => ⟨rfl, rfl⟩

theorem compiler_prepare :
    (config.prepare fs current settings).value.compiler = config.compiler.forHost settings.preserveComments := by
  rw [value_prepare]
  split
  · rw [compiler_forHost]
  · rfl

theorem finds_iff : (settings.autoDetect && !(config.entriesOf fs current settings).isEmpty) = true ↔
    settings.autoDetect = true ∧
      ¬ FindsNothing fs (config.root current) settings.includes settings.excludes := by
  rw [Bool.and_eq_true, Bool.not_eq_true', ← Bool.not_eq_true, isEmpty_detect_iff]

theorem framed_prepare (fs : σ) (current : Path) (settings : Settings) (config : Config) :
    Framed fs current settings config (config.prepare fs current settings).value where
  cwd := by
    rw [value_prepare]
    split
    · rw [cwd_forHost]
    · rfl
  chunkFileNames := by
    rw [value_prepare]
    split
    · rw [(build_forHost ..).1]
    · rfl
  extensions := by
    rw [value_prepare]
    split
    · rw [extensions_forHost]
    · rfl
  target level h := by
    rw [compiler_prepare, CompilerSection.forHost]
    cases settings.preserveComments <;> simp [h]
  keepNames := by
    rw [compiler_prepare, CompilerSection.forHost]
    cases settings.preserveComments <;> rfl
  commentsKept h := by
    rw [compiler_prepare, h]
    exact ⟨rfl, rfl, rfl, rfl, rfl⟩
  commentsFree h := by
    rw [compiler_prepare, h]
    exact ⟨rfl, rfl, rfl, rfl, rfl⟩
  untouched h := by
    have hfinds : ¬ (settings.autoDetect && !(config.entriesOf fs current settings).isEmpty) = true := by
      rw [finds_iff]
      rintro ⟨hdetect, hsome⟩
      rcases h with h | h
      · rw [hdetect] at h
        exact absurd h (by simp)
      · exact hsome h
    rw [value_prepare, if_neg hfinds]
    exact ⟨rfl, rfl⟩
  composed hdetect hsome := by
    have hfinds : (settings.autoDetect && !(config.entriesOf fs current settings).isEmpty) = true :=
      finds_iff.2 ⟨hdetect, hsome⟩
    have hne : (config.entriesOf fs current settings).toList ≠ [] := fun hnil =>
      hsome (isEmpty_detect_iff.1 (List.isEmpty_iff.2 hnil))
    rw [value_prepare, if_pos hfinds]
    obtain ⟨-, hinputs, hout⟩ := build_forHost (config.compiled settings) (config.entriesOf fs current settings)
      settings.outDir (Alias.resolve fs (config.root current) (config.compiled settings) settings).value
    exact ⟨_, _, detected_of_not_findsNothing hsome, hne, hinputs, forall₂_inputs _, hout⟩

end Config

end AppsScript
