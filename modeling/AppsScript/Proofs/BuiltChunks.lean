import AppsScript.Proofs.BuildRuns
import AppsScript.Proofs.CopiedManifest
import AppsScript.Proofs.DiskFiles
import Mathlib

/-!
# The chunks of a build

A chunk is known by the name of its module, without the directory. `Build.Builds` says what comes of the inputs of a
build then: there is a chunk for each name, that of the last input with the name, in the bundle and on the disk. So each
input has a chunk of its own exactly if the names differ.
-/

namespace AppsScript

open Component

variable {d d' before after : Disk} {current root path p : Path} {dir : Key} {name : Text} {settings : Settings}
  {config : Config} {outDir : Text} {inputs : List Path} {bundle : Bundle} {product : Build.Product}
  {outputs : List Output} {output : Output}

namespace Disk

/-! ### Writing into one directory -/

/-- No link in the directory leads elsewhere. -/
def HasNoLinks (d : Disk) (dir : Key) : Prop := ∀ name target, d.node? (dir ++ [name]) ≠ some (.link target)

theorem HasNoLinks.of_grows (hgrows : Grows d d') (h : HasNoLinks d' dir) : HasNoLinks d dir :=
  fun name target hlink => h name target ((hgrows.link _ _).2 hlink)

theorem HasNoLinks.of_values (h : ∀ target, .link target ∉ d.nodes.values) : d.HasNoLinks dir := by
  intro name target hlink
  rw [node?, if_neg (by simp)] at hlink
  exact h target (OrderedMap.mem_values_of_get? hlink)

theorem HasNoLinks.mono (hgrows : Grows d d') (h : HasNoLinks d dir) : HasNoLinks d' dir :=
  fun name target hlink => h name target ((hgrows.link _ _).1 hlink)

/-- The output is a file in the directory `dir`, the one that `p` leads to. -/
structure Has (d : Disk) (p : Path) (dir : Key) (output : Output) : Prop where
  node : d.node? (dir ++ [output.fileName]) = some (.file (Text.utf8 output.content))
  spelled : IsSpelled p output.fileName

theorem Has.extends (hextends : Extends d d') (h : d.Has p dir output) : d'.Has p dir output :=
  ⟨hextends.node _ _ h.node, h.spelled⟩

theorem grows_writeOutputs (d : Disk) (p : Path) (outputs : List Output) :
    Grows d (Build.writeOutputs d p outputs).2 := by
  induction outputs generalizing d with
  | nil => exact .refl d
  | cons output outputs ih =>
    have hfirst : Grows d (FileSystem.write d (p.join ⟨output.fileName⟩) output.content).2 := grows_writeBytes d _ _
    rw [Build.writeOutputs]
    split
    · next made hmade =>
      rw [hmade] at hfirst
      exact hfirst.trans (ih made)
    · next hmade =>
      rw [hmade] at hfirst
      exact hfirst

/-- Outputs written under different names stay, each as it was written. -/
theorem has_of_writeOutputs (hp : LeadsTo d p dir) (hlinks : d.HasNoLinks dir)
    (hnames : ∀ output ∈ outputs, IsStep (.normal output.fileName)) (hnodup : (outputs.map Output.fileName).Nodup)
    (hwrite : Build.writeOutputs d p outputs = (.ok (), d')) :
    (∀ name ∉ outputs.map Output.fileName, d'.node? (dir ++ [name]) = d.node? (dir ++ [name])) ∧
      ∀ output ∈ outputs, d'.Has p dir output := by
  induction outputs generalizing d with
  | nil =>
    obtain rfl := (Prod.ext_iff.1 hwrite).2
    exact ⟨fun _ _ => rfl, by simp⟩
  | cons output outputs ih =>
    rw [List.map_cons, List.nodup_cons] at hnodup
    rw [Build.writeOutputs] at hwrite
    cases hfirst : FileSystem.write d (p.join ⟨output.fileName⟩) output.content with
    | mk result made =>
      rw [hfirst] at hwrite
      cases result with
      | error fault => simp at hwrite
      | ok =>
        obtain ⟨hput, -, hspelled⟩ := writeBytes_eq hp (hnames output (by simp)) (hlinks output.fileName) hfirst
        have hgrows : Grows d made := by
          have hwritten := grows_writeBytes d (p.join ⟨output.fileName⟩) (Text.utf8 output.content)
          rwa [show d.writeBytes _ _ = _ from hfirst] at hwritten
        obtain ⟨hothers, hhas⟩ := ih (hp.mono hgrows) (hlinks.mono hgrows)
          (fun o ho => hnames o (List.mem_cons_of_mem _ ho)) hnodup.2 hwrite
        have hnode : made.node? (dir ++ [output.fileName]) = some (.file (Text.utf8 output.content)) := by
          rw [hput, node?_put (by simp), if_pos rfl]
        refine ⟨fun name hname => ?_, fun o ho => ?_⟩
        · rw [List.map_cons, List.mem_cons, not_or] at hname
          rw [hothers name hname.2, hput, node?_put (by simp), if_neg (by simpa using hname.1)]
        · rcases List.mem_cons.1 ho with rfl | ho
          · exact ⟨(hothers _ hnodup.1).trans hnode, hspelled⟩
          · exact hhas o ho

theorem has_copy {source : Path} (hp : LeadsTo d p dir) (hlinks : d.HasNoLinks dir) (hname : IsStep (.normal name))
    (hne : output.fileName ≠ name) (h : d.Has p dir output) : (d.copy source (p.join ⟨name⟩)).2.Has p dir output := by
  refine ⟨?_, h.spelled⟩
  rw [copy]
  cases d.find source with
  | error fault => exact h.node
  | ok found =>
    obtain ⟨key, node⟩ := found
    cases node with
    | dir => exact h.node
    | link target => exact h.node
    | file content =>
      simp only []
      cases hwrite : d.writeBytes (p.join ⟨name⟩) (if d.isSame source (p.join ⟨name⟩) then [] else content) with
      | mk result made =>
        cases result with
        | error fault =>
          obtain rfl := writeBytes_error hwrite
          exact h.node
        | ok =>
          obtain ⟨rfl, -⟩ := writeBytes_eq hp hname (hlinks name) hwrite
          simp only []
          rw [node?_put (by simp), if_neg (by simpa using hne), h.node]

theorem grows_copy (d : Disk) (source target : Path) : Grows d (d.copy source target).2 := by
  rw [copy]
  split
  · exact grows_writeBytes d target _
  · exact .refl d
  · exact .refl d

theorem has_of_writeOut (hp : p.text ≠ []) (hlinks : ∀ dir, LeadsTo d' p dir → d'.HasNoLinks dir)
    (hkeys : ∀ e ∈ bundle.toList, e.2.fileName = e.1 ∧ IsStep (.normal e.1))
    (hwrite : Build.writeOut d p bundle = (.ok (), d')) (hne : bundle.isEmpty = false) :
    ∃ dir, LeadsTo d' p dir ∧ ∀ output ∈ bundle.values, d'.Has p dir output := by
  have hfileNames : bundle.values.map Output.fileName = bundle.keys := by
    rw [OrderedMap.values, OrderedMap.keys, List.map_map]
    exact List.map_congr_left fun e he => (hkeys e he).1
  rw [Build.writeOut, if_neg (by simp [hne])] at hwrite
  have hmakes : Makes d p (FileSystem.createDirs d p) := makes_createDirs d hp
  cases hmade : FileSystem.createDirs d p with
  | mk result made =>
    rw [hmade] at hwrite hmakes
    cases result with
    | error fault => simp at hwrite
    | ok =>
      obtain ⟨dir, hleads⟩ := hmakes.leadsTo rfl
      have hgrows : Grows made d' := by
        have hwritten := grows_writeOutputs made p bundle.values
        rwa [show Build.writeOutputs made p bundle.values = _ from hwrite] at hwritten
      replace hleads : LeadsTo made p dir := hleads
      refine ⟨dir, hleads.mono hgrows, (has_of_writeOutputs hleads
        ((hlinks dir (hleads.mono hgrows)).of_grows hgrows) (fun output houtput => ?_) ?_ hwrite).2⟩
      · obtain ⟨e, he, rfl⟩ := List.mem_map.1 houtput
        rw [(hkeys e he).1]
        exact (hkeys e he).2
      · rw [hfileNames]
        exact bundle.nodup_keys

/-! ### The manifest -/

/-- Copying the manifest makes a directory, and at most copies one file into it then. -/
theorem exists_manifest (d : Disk) (root : Path) (hp : p.text ≠ []) : ∃ made, Extends d made ∧
    ((Manifest.copy d root p).value.2 = made ∨
      (Manifest.copy d root p).value.2 = (made.copy (root.join Manifest.fileName) (p.join Manifest.fileName)).2) := by
  rw [Manifest.value_copy]
  split_ifs
  · have hmakes : Makes d p (FileSystem.createDirs d p) := makes_createDirs d hp
    cases hmade : FileSystem.createDirs d p with
    | mk result made =>
      rw [hmade] at hmakes
      refine ⟨made, hmakes.extended, ?_⟩
      cases result with
      | error fault =>
        rw [Manifest.copyInto_of_error hmade]
        exact .inl rfl
      | ok =>
        rw [Manifest.copyInto_of_ok hmade]
        exact .inr rfl
  · exact ⟨d, .refl d, .inl rfl⟩

theorem grows_manifest (d : Disk) (root : Path) (hp : p.text ≠ []) :
    Grows d (Manifest.copy d root p).value.2 := by
  obtain ⟨made, hmade, hcopy | hcopy⟩ := d.exists_manifest root hp
  · rw [hcopy]
    exact hmade.grows
  · rw [hcopy]
    exact hmade.grows.trans (grows_copy made _ _)

/-- The manifest that is copied next to outputs leaves them. -/
theorem Has.manifest (hp : LeadsTo d p dir) (htext : p.text ≠ []) (hlinks : d.HasNoLinks dir)
    (hne : output.fileName ≠ Manifest.fileName.text) (h : d.Has p dir output) :
    (Manifest.copy d root p).value.2.Has p dir output := by
  have hname : IsStep (.normal Manifest.fileName.text) := by decide
  obtain ⟨made, hmade, hcopy | hcopy⟩ := d.exists_manifest root htext
  · rw [hcopy]
    exact h.extends hmade
  · rw [hcopy]
    exact has_copy (hp.mono hmade.grows) (hlinks.mono hmade.grows) hname hne (h.extends hmade)

end Disk

namespace Build

/-! ### The bundle -/

/-- The name of a module: that of its file, without the extension. -/
def nameOf (path : Path) : Text := path.fileStem?.getD "index"

/-- The name of the file that the chunk of a module goes to. -/
def chunkFile (path : Path) : Text := nameOf path ++ ".js"

theorem chunkFile_inj {q : Path} : chunkFile path = chunkFile q ↔ nameOf path = nameOf q :=
  List.append_left_inj _

theorem slash_notMem_of_fileName? (h : path.fileName? = some name) : '/' ∉ name := by
  obtain ⟨c, hlast, hc⟩ := Option.bind_eq_some_iff.1 h
  obtain ⟨first, body, hcomponents, hfirst, hbody⟩ := Path.exists_components path
  have hmem := List.mem_of_getLast? hlast
  rw [hcomponents, List.mem_append] at hmem
  cases c with
  | normal found =>
    obtain rfl : found = name := Option.some.inj hc
    rcases hmem with hmem | hmem
    · rcases hfirst with rfl | rfl | rfl <;> simp at hmem
    · exact (hbody _ hmem).2
  | _ => cases hc

theorem mem_of_mem_splitName {c : Char} (h : c ∈ (Path.splitName name).1) : c ∈ name := by
  rw [Path.splitName] at h
  simp only [] at h
  split at h
  · exact h
  · exact h
  · next dot stem _ hdrop =>
    have hsuffix : stem <:+ name.reverse := by
      refine (List.suffix_cons dot stem).trans ?_
      rw [← hdrop]
      exact List.dropWhile_suffix _
    exact List.mem_reverse.1 (hsuffix.mem (List.mem_reverse.1 h))

theorem slash_notMem_chunkFile (path : Path) : '/' ∉ chunkFile path := by
  rw [chunkFile, List.mem_append, not_or]
  refine ⟨?_, by decide⟩
  rw [nameOf, Path.fileStem?]
  cases hname : path.fileName? with
  | none => decide
  | some name => exact fun h => slash_notMem_of_fileName? hname (mem_of_mem_splitName h)

theorem isStep_chunkFile (path : Path) : IsStep (.normal (chunkFile path)) := by
  have hlength : 3 ≤ (chunkFile path).length := by
    rw [chunkFile, List.length_append]
    exact Nat.le_add_left 3 _
  have hne {t : Text} (ht : t.length < 3) : chunkFile path ≠ t := by
    rintro rfl
    omega
  refine ⟨?_, slash_notMem_chunkFile path⟩
  rw [Component.text, ofSegment?, if_neg (not_or.2 ⟨hne (by decide), hne (by decide)⟩), if_neg (hne (by decide))]

theorem chunkFile_ne_manifest (path : Path) : chunkFile path ≠ Manifest.fileName.text := by
  intro h
  have hsuffix : (".js" : Text) <:+ Manifest.fileName.text := by
    rw [← h]
    exact List.suffix_append _ _
  exact absurd hsuffix (by decide)

theorem isScriptKey_chunkFile (path : Path) : Plugin.isScriptKey (chunkFile path) = true := by
  rw [Plugin.isScriptKey, chunkFile, Text.before?_eq_some_iff.2 rfl]
  rfl

/-- The chunk of a module before the last pass, with its key. -/
def adapted (settings : Settings) (path : Path) (content : Text) : Text × Output :=
  (chunkFile path, .chunk (nameOf path) (chunkFile path) (adaptModule settings content))

/-- The text of a file, empty if it cannot be read. -/
def contentAt {σ : Type} [FileSystem σ] (fs : σ) (path : Path) : Text := (FileSystem.readText fs path).toOption.getD []

/-- The bundle of the modules with the given paths. -/
def bundleOf {σ : Type} [FileSystem σ] (fs : σ) (settings : Settings) (paths : List Path) : Bundle :=
  .ofList (paths.map fun path => adapted settings path (contentAt fs path))

section

variable {σ : Type} [FileSystem σ] {fs fs' : σ} {bundle' : Bundle} {paths : List Path}

theorem readable_of_readChunks (h : readChunks fs (.host σ current settings) root inputs bundle = .ok bundle') :
    ∀ input ∈ inputs, ∃ content, FileSystem.readText fs (root.join input) = .ok content := by
  by_contra! hnot
  obtain ⟨input, hinput, hunreadable⟩ := hnot
  have hfault : ∃ fault, FileSystem.readText fs (root.join input) = .error fault := by
    cases hread : FileSystem.readText fs (root.join input) with
    | error fault => exact ⟨fault, rfl⟩
    | ok content => exact absurd hread (hunreadable content)
  obtain ⟨before, input, after, fault, rfl, hbefore, hfault⟩ := exists_first_unreadable ⟨input, hinput, hfault⟩
  rw [readChunks_of_error (fun earlier hearlier => ?_) (readChunk_of_unreadable hfault)] at h
  · cases h
  · obtain ⟨content, hcontent⟩ := hbefore earlier hearlier
    exact ⟨_, readChunk_host hcontent⟩

theorem readText_contentAt (h : ∃ content, FileSystem.readText fs path = .ok content) :
    FileSystem.readText fs path = .ok (contentAt fs path) := by
  obtain ⟨content, hcontent⟩ := h
  rw [contentAt, hcontent]
  rfl

theorem readChunks_host (hscript : ∀ input ∈ inputs, isScript (root.join input).text)
    (hreadable : ∀ input ∈ inputs, ∃ content, FileSystem.readText fs (root.join input) = .ok content) :
    readChunks fs (.host σ current settings) root inputs bundle =
      .ok (((inputs.map root.join).map fun path => adapted settings path (contentAt fs path)).foldl
        (fun m p => m.insert p.1 p.2) bundle) := by
  induction inputs generalizing bundle with
  | nil => rfl
  | cons input inputs ih =>
    have hread := readText_contentAt (hreadable input (by simp))
    rw [readChunks, readChunk_host hread, if_pos (hscript input (by simp))]
    exact ih (fun i hi => hscript i (List.mem_cons_of_mem _ hi)) fun i hi => hreadable i (List.mem_cons_of_mem _ hi)

/-- What a run that succeeds has done. -/
structure Done (fs : σ) (root : Path) (settings : Settings) (inputs : List Path) (product : Product) (fs' : σ) : Prop where
  readable : ∀ input ∈ inputs, FileSystem.readText fs (root.join input) = .ok (contentAt fs (root.join input))
  bundle : product.bundle = Plugin.finishBundle settings (bundleOf fs settings (inputs.map root.join))
  outDir : ∃ dir, product.outDir = root.join dir
  written : ∃ written, writeOut fs product.outDir product.bundle = (.ok (), written) ∧
    fs' = if settings.copyManifest then (Manifest.copy written root product.outDir).value.2 else written

/-- What a build makes of the bundle of its modules. -/
def productOf (fs : σ) (current : Path) (settings : Settings) (outDir : Text) (config : Config) (bundle : Bundle) : Product :=
  let prepared := (config.prepare fs current settings).value
  ⟨prepared, Plugin.finishBundle settings bundle, (config.root current).join ⟨prepared.build.outDir.getD outDir⟩⟩

/-- A build whose inputs can all be read goes on to writing. -/
theorem value_run_of_ok (outDir : Text)
    (hread : readChunks fs (.host σ current settings) (config.root current) inputs .empty = .ok bundle) :
    (run fs current (.host σ current settings) outDir config inputs).value =
      let product := productOf fs current settings outDir config bundle
      match writeOut fs product.outDir product.bundle with
      | (.error failure, written) => (.error failure.alone, written)
      | (.ok (), written) => (.ok product,
          if settings.copyManifest then (Manifest.copy written (config.root current) product.outDir).value.2
          else written) := by
  simp only [run, Logged.value_bind, Pipeline.value_config_host, Config.root_prepare, hread, List.isEmpty_nil,
    Bool.not_true, Bool.false_eq_true, if_false, Pipeline.value_generateBundle_host, productOf]
  generalize (config.root current).join ⟨(config.prepare fs current settings).value.build.outDir.getD outDir⟩ = dir
  cases hwrite : writeOut fs dir (Plugin.finishBundle settings bundle) with
  | mk result written =>
    cases result with
    | error failure => rfl
    | ok =>
      simp only [Logged.value_bind, Pipeline.value_writeBundle_host]
      rfl

theorem done_of_run (hscript : ∀ input ∈ inputs, isScript ((config.root current).join input).text)
    (h : (run fs current (.host σ current settings) outDir config inputs).value = (.ok product, fs')) :
    Done fs (config.root current) settings inputs product fs' := by
  cases hread : readChunks fs (.host σ current settings) (config.root current) inputs .empty with
  | error failure =>
    simp only [run, Logged.value_bind, Pipeline.value_config_host, Config.root_prepare, hread] at h
    cases (Prod.ext_iff.1 h).1
  | ok bundle =>
    have hreadable := readable_of_readChunks hread
    have hbundle := hread.symm.trans (readChunks_host hscript hreadable)
    rw [value_run_of_ok outDir hread] at h
    cases hwrite : writeOut fs (productOf fs current settings outDir config bundle).outDir
        (productOf fs current settings outDir config bundle).bundle with
    | mk result written =>
      simp only [hwrite] at h
      cases result with
      | error failure => cases (Prod.ext_iff.1 h).1
      | ok =>
        obtain ⟨hproduct, hfs'⟩ := Prod.ext_iff.1 h
        obtain rfl := Except.ok.inj hproduct
        exact ⟨fun input hinput => readText_contentAt (hreadable input hinput),
          congrArg (Plugin.finishBundle settings) (Except.ok.inj hbundle), ⟨_, rfl⟩, written, hwrite, hfs'.symm⟩

end

/-! ### The chunks -/

section

variable {σ : Type} [FileSystem σ] {fs : σ} {paths later : List Path} {key : Text}

theorem keys_adapted (fs : σ) (settings : Settings) (paths : List Path) :
    (paths.map fun path => adapted settings path (contentAt fs path)).map Prod.fst = paths.map chunkFile := by
  rw [List.map_map]
  rfl

theorem mem_keys_finishBundle : key ∈ (Plugin.finishBundle settings (bundleOf fs settings paths)).keys ↔
    ∃ path ∈ paths, key = chunkFile path := by
  rw [Plugin.finishBundle, OrderedMap.keys_mapValues, bundleOf, OrderedMap.mem_keys_ofList, keys_adapted, List.mem_map]
  simp only [eq_comm]

theorem size_finishBundle_eq_iff : (Plugin.finishBundle settings (bundleOf fs settings paths)).size = paths.length ↔
    (paths.map nameOf).Nodup := by
  have hsize : (Plugin.finishBundle settings (bundleOf fs settings paths)).size = (bundleOf fs settings paths).size :=
    List.length_map _
  have hlength : paths.length = (paths.map fun path => adapted settings path (contentAt fs path)).length :=
    (List.length_map _).symm
  have hfiles : paths.map chunkFile = (paths.map nameOf).map (fun name : Text => name ++ ".js") := by
    rw [List.map_map]
    rfl
  rw [hsize, hlength, bundleOf, OrderedMap.size_ofList_eq_iff, keys_adapted, hfiles]
  exact List.nodup_map_iff fun _ _ h => List.append_cancel_right h

/-- Of the modules with a name the last one has its chunk in the bundle. -/
theorem get?_finishBundle (fs : σ) (settings : Settings) (earlier : List Path)
    (hlater : ∀ q ∈ later, nameOf q ≠ nameOf path) :
    (Plugin.finishBundle settings (bundleOf fs settings (earlier ++ path :: later))).get? (chunkFile path) =
      some (.chunk (nameOf path) (chunkFile path) (finishChunk settings (adaptModule settings (contentAt fs path)))) := by
  have hget : (bundleOf fs settings (earlier ++ path :: later)).get? (chunkFile path) =
      some (adapted settings path (contentAt fs path)).2 := by
    rw [bundleOf, List.map_append, List.map_cons]
    refine OrderedMap.get?_ofList fun p hp => ?_
    obtain ⟨q, hq, rfl⟩ := List.mem_map.1 hp
    exact fun h => hlater q hq (chunkFile_inj.1 h)
  rw [Plugin.finishBundle, OrderedMap.get?_mapValues, hget, Option.map_some, if_pos (isScriptKey_chunkFile path)]
  rfl

theorem fileName_mapCode (f : Text → Text) (output : Output) : (output.mapCode f).fileName = output.fileName := by
  cases output <;> rfl

theorem fileName_of_mem_finishBundle {e : Text × Output}
    (h : e ∈ (Plugin.finishBundle settings (bundleOf fs settings paths)).toList) :
    e.2.fileName = e.1 ∧ ∃ path ∈ paths, e.1 = chunkFile path := by
  obtain ⟨⟨key, output⟩, hmem, rfl⟩ := List.mem_map.1 h
  obtain ⟨path, hpath, hadapted⟩ := List.mem_map.1 (OrderedMap.mem_of_mem_ofList hmem)
  obtain ⟨rfl, rfl⟩ := Prod.mk.inj hadapted
  refine ⟨?_, path, hpath, rfl⟩
  simp only []
  split_ifs
  · exact fileName_mapCode _ _
  · rfl

end

/-- The module has its chunk in the bundle and in the output directory, made by both passes of the content that it had
before the build. -/
def HasChunk (before after : Disk) (settings : Settings) (product : Product) (path : Path) : Prop :=
  ∃ content, before.readText path = .ok content ∧
    product.bundle.get? (chunkFile path) =
      some (.chunk (nameOf path) (chunkFile path) (finishChunk settings (adaptModule settings content))) ∧
    after.readText (product.outDir.join ⟨chunkFile path⟩) = .ok (finishChunk settings (adaptModule settings content))

/-- What becomes of the modules with the given paths. -/
structure Builds (before after : Disk) (settings : Settings) (product : Product) (paths : List Path) : Prop where
  mem_keys : ∀ key, key ∈ product.bundle.keys ↔ ∃ path ∈ paths, key = chunkFile path
  /-- There are as many chunks as modules exactly if their names differ. -/
  size_eq_iff : product.bundle.size = paths.length ↔ (paths.map nameOf).Nodup
  /-- Of the modules with a name the last one has a chunk. -/
  last : ∀ earlier path later, paths = earlier ++ path :: later → (∀ q ∈ later, nameOf q ≠ nameOf path) →
    HasChunk before after settings product path
  hasChunk : (paths.map nameOf).Nodup → ∀ path ∈ paths, HasChunk before after settings product path

theorem Builds.of_last {paths : List Path} (mem_keys : ∀ key, key ∈ product.bundle.keys ↔ ∃ path ∈ paths, key = chunkFile path)
    (size_eq_iff : product.bundle.size = paths.length ↔ (paths.map nameOf).Nodup)
    (last : ∀ earlier path later, paths = earlier ++ path :: later → (∀ q ∈ later, nameOf q ≠ nameOf path) →
      HasChunk before after settings product path) : Builds before after settings product paths := by
  refine ⟨mem_keys, size_eq_iff, last, fun hnodup path hpath => ?_⟩
  obtain ⟨earlier, later, rfl⟩ := List.append_of_mem hpath
  refine last earlier path later rfl fun q hq hname => ?_
  rw [List.map_append, List.map_cons] at hnodup
  exact (List.nodup_cons.1 (List.nodup_append.1 hnodup).2.1).1 (hname ▸ List.mem_map_of_mem hq)

theorem text_join_ne_nil (hp : root.text ≠ []) (q : Path) : (root.join q).text ≠ [] := by
  rw [Path.join]
  split_ifs with habsolute
  · rintro hnil
    rw [Path.isAbsolute, hnil] at habsolute
    cases habsolute
  · simp [hp]
  · simp

theorem Done.readText (h : Done before root settings inputs product after) (hroot : root.text ≠ [])
    (hlinks : ∀ dir, after.LeadsTo product.outDir dir → after.HasNoLinks dir) {code : Text}
    (hget : product.bundle.get? (chunkFile path) = some (.chunk (nameOf path) (chunkFile path) code)) :
    after.readText (product.outDir.join ⟨chunkFile path⟩) = .ok code := by
  obtain ⟨sub, hsub⟩ := h.outDir
  have htext : product.outDir.text ≠ [] := hsub ▸ text_join_ne_nil hroot sub
  obtain ⟨written, hwrite, hafter⟩ := h.written
  have hgrows : Disk.Grows written after := by
    rw [hafter]
    split_ifs
    · exact Disk.grows_manifest written root htext
    · exact .refl written
  have hkeys : ∀ e ∈ product.bundle.toList, e.2.fileName = e.1 ∧ IsStep (.normal e.1) := fun e he => by
    rw [h.bundle] at he
    obtain ⟨hname, q, -, hkey⟩ := fileName_of_mem_finishBundle he
    exact ⟨hname, hkey ▸ isStep_chunkFile q⟩
  have hmem := OrderedMap.mem_values_of_get? hget
  have hne : product.bundle.isEmpty = false := by
    refine Bool.eq_false_iff.2 fun hempty => ?_
    rw [OrderedMap.isEmpty_iff.1 hempty] at hmem
    cases hmem
  obtain ⟨dir, hleads, hhas⟩ := Disk.has_of_writeOut htext
    (fun dir hdir => (hlinks dir (hdir.mono hgrows)).of_grows hgrows) hkeys hwrite hne
  have hchunk : after.Has product.outDir dir (.chunk (nameOf path) (chunkFile path) code) := by
    rw [hafter]
    split_ifs
    · exact (hhas _ hmem).manifest hleads htext ((hlinks dir (hleads.mono hgrows)).of_grows hgrows)
        (chunkFile_ne_manifest path)
    · exact hhas _ hmem
  exact Disk.readText_of_node? (hleads.mono hgrows) (isStep_chunkFile path) hchunk.spelled hchunk.node

/-- A build that succeeds keeps of the modules with one name the last, so no module is lost exactly if their names
differ. -/
theorem builds_run (hcurrent : current.isAbsolute)
    (hscript : ∀ input ∈ inputs, isScript ((config.root current).join input).text)
    (hrun : (run before current (.ofPlugins [Plugin.host current settings]) outDir config inputs).value =
      (.ok product, after))
    (hlinks : ∀ dir, after.find product.outDir = .ok (dir, .dir) → after.HasNoLinks dir) :
    Builds before after settings product (inputs.map (config.root current).join) := by
  have hdone := done_of_run hscript hrun
  have hroot : (config.root current).text ≠ [] := by
    obtain ⟨t, ht⟩ := Path.exists_text_of_isAbsolute (Path.isAbsolute_normalize
      (Path.isAbsolute_join hcurrent (config.cwd.getD "")))
    rw [Config.root, ht]
    simp
  refine .of_last (fun key => ?_) ?_ fun earlier path later hpaths hlater => ?_
  · rw [hdone.bundle, mem_keys_finishBundle]
  · rw [hdone.bundle, size_finishBundle_eq_iff]
  · have hget := get?_finishBundle before settings earlier hlater
    rw [← hpaths, ← hdone.bundle] at hget
    obtain ⟨input, hinput, rfl⟩ := List.mem_map.1 (show path ∈ inputs.map (config.root current).join by simp [hpaths])
    exact ⟨_, hdone.readable input hinput, hget,
      hdone.readText hroot (fun dir hdir => hlinks dir (Disk.leadsTo_iff.1 hdir)) hget⟩

/-! ### Modules of one name -/

/-- A project with two modules of one name. -/
def twins : Disk :=
  ⟨.ofList [(["p"], .dir), (["p", "a"], .dir), (["p", "b"], .dir), (["p", "a", "main.js"], .file (Text.utf8 "one();")),
    (["p", "b", "main.js"], .file (Text.utf8 "two();")), (["p", "b", "menu.js"], .file (Text.utf8 "show();"))]⟩

/-- The project with files in its output directory. -/
def twinsWith (files : List (Text × Text)) : Disk :=
  files.foldl (fun d file => d.put ["p", "dist", file.1] (.file (Text.utf8 file.2))) (twins.put ["p", "dist"] .dir)

abbrev defaults : Settings := ({} : Options).settings

theorem readable_twins : ∀ input ∈ (["a/main.js", "b/main.js", "b/menu.js"] : List Path),
    isScript (Path.join "/p" input).text ∧ ∃ content, FileSystem.readText twins (Path.join "/p" input) = .ok content := by
  have hone : twins.readText "/p/a/main.js" = .ok "one();" := by cbv
  have htwo : twins.readText "/p/b/main.js" = .ok "two();" := by cbv
  have hmenu : twins.readText "/p/b/menu.js" = .ok "show();" := by cbv
  simp only [List.forall_mem_cons, List.not_mem_nil, false_implies, implies_true, and_true]
  exact ⟨⟨by decide, _, hone⟩, ⟨by decide, _, htwo⟩, by decide, _, hmenu⟩

theorem run_twins (inputs : List Path) (bundle : Bundle)
    (hinputs : inputs ⊆ ["a/main.js", "b/main.js", "b/menu.js"])
    (hbundle : Plugin.finishBundle defaults (bundleOf twins defaults (inputs.map (Path.join "/p"))) = bundle)
    (hwrite : writeOut twins "/p/dist" bundle = (.ok (), after))
    (hmanifest : after.isThere "/p/appsscript.json" = false) :
    ∃ product : Product, product.bundle = bundle ∧ product.outDir = "/p/dist" ∧
      (run twins "/p" (.host Disk "/p" defaults) "dist" {} inputs).value = (.ok product, after) := by
  have hroot : Config.root "/p" {} = "/p" := rfl
  have hread : readChunks twins (.host Disk "/p" defaults) (Config.root "/p" {}) inputs .empty =
      .ok (bundleOf twins defaults (inputs.map (Path.join "/p"))) := by
    rw [hroot]
    exact readChunks_host (fun i hi => (readable_twins i (hinputs hi)).1) fun i hi => (readable_twins i (hinputs hi)).2
  generalize bundleOf twins defaults (inputs.map (Path.join "/p")) = read at hbundle hread
  have hdir : (productOf twins "/p" defaults "dist" {} read).outDir = "/p/dist" := by
    have hnone : (Config.prepare twins "/p" defaults {}).value.build.outDir = none := by cbv
    simp only [productOf, hnone]
    rfl
  have hcopy : (Manifest.copy after "/p" "/p/dist").value.2 = after := by
    rw [Manifest.value_copy, if_neg]
    exact Bool.eq_false_iff.1 hmanifest
  replace hbundle : (productOf twins "/p" defaults "dist" {} read).bundle = bundle := hbundle
  refine ⟨productOf twins "/p" defaults "dist" {} read, hbundle, hdir, ?_⟩
  rw [value_run_of_ok "dist" hread]
  simp only [hdir, hbundle, hwrite, hroot, hcopy, ite_self]

/-- No module is lost of two with different names. -/
theorem builds_run_twins : ∃ product after, Path.isAbsolute "/p" ∧
    (∀ input ∈ (["a/main.js", "b/menu.js"] : List Path), isScript ((Config.root "/p" {}).join input).text) ∧
    (run twins "/p" (.ofPlugins [Plugin.host "/p" defaults]) "dist" {} ["a/main.js", "b/menu.js"]).value =
      (.ok product, after) ∧
    (∀ dir, after.find product.outDir = .ok (dir, .dir) → after.HasNoLinks dir) ∧
    Builds twins after defaults product ["/p/a/main.js", "/p/b/menu.js"] := by
  let after := twinsWith [("main.js", "one();"), ("menu.js", "show();")]
  have hmanifest : after.isThere "/p/appsscript.json" = false := by cbv
  obtain ⟨product, -, hdir, hrun⟩ := run_twins ["a/main.js", "b/menu.js"] _ (by simp) rfl
    (by cbv : writeOut twins "/p/dist" _ = (.ok (), after)) hmanifest
  have hscript : ∀ input ∈ (["a/main.js", "b/menu.js"] : List Path),
      isScript ((Config.root "/p" {}).join input).text := by decide
  have hlinks : ∀ dir, after.find product.outDir = .ok (dir, .dir) → after.HasNoLinks dir := by
    have hvalues : after.nodes.values = [.dir, .dir, .dir, .file (Text.utf8 "one();"), .file (Text.utf8 "two();"),
        .file (Text.utf8 "show();"), .dir, .file (Text.utf8 "one();"), .file (Text.utf8 "show();")] := by cbv
    exact fun dir _ => .of_values fun target => by simp [hvalues]
  exact ⟨product, after, rfl, hscript, hrun, hlinks, builds_run rfl hscript hrun hlinks⟩

/-- Of two modules with one name the first is lost. -/
theorem exists_lost : ∃ product after,
    (run twins "/p" (.ofPlugins [Plugin.host "/p" defaults]) "dist" {} ["a/main.js", "b/main.js"]).value =
      (.ok product, after) ∧ twins.readText "/p/a/main.js" = .ok "one();" ∧ product.bundle.size = 1 ∧
    (∀ output ∈ product.bundle.values, output.content ≠ finishChunk defaults (adaptModule defaults "one();")) ∧
    after.readText "/p/dist/main.js" = .ok "two();" := by
  let after := twinsWith [("main.js", "two();")]
  have hmanifest : after.isThere "/p/appsscript.json" = false := by cbv
  obtain ⟨product, hbundle, -, hrun⟩ := run_twins ["a/main.js", "b/main.js"]
    (.ofList [("main.js", .chunk "main" "main.js" "two();")]) (by simp) (by cbv)
    (by cbv : writeOut twins "/p/dist" _ = (.ok (), after)) hmanifest
  refine ⟨product, after, hrun, by cbv, ?_⟩
  rw [hbundle]
  exact ⟨by cbv, by decide +kernel, by cbv⟩

end Build

end AppsScript
