import AppsScript.Proofs.PreparedConfig
import AppsScript.Proofs.WalkedFiles

/-!
# Which directories are searched, and how they are spelled

What a search finds (`Discovery.Finds`) determines its entries, names and all (`Discovery.detect_congr`). A directory
that is searched twice, or inside another one, adds nothing (`Discovery.detect_directories`). How the directory is
spelled in which the search starts does matter, but only to the patterns (`Discovery.respelled`).
-/

namespace AppsScript

open Component

namespace Discovery

variable {σ : Type} [FileSystem σ] {fs : σ} {cwd cwd' base file p : Path} {first : Text}
  {includes includes' excludes excludes' taken : List Text} {key key' : Text} {l l' : List (Text × Path)}
  {entries entries' : EntryMap} {files : Key → Prop}

/-! ### Entries are determined by their files -/

theorem Named.unique (h : Named base taken file key) (h' : Named base taken file key') : key = key' := by
  rcases h with ⟨hfree, rfl⟩ | ⟨htaken, n, hn, rfl, hfree, hleast⟩
  · rcases h' with ⟨-, rfl⟩ | ⟨htaken, -⟩
    · rfl
    · exact absurd htaken hfree
  · rcases h' with ⟨hfree', -⟩ | ⟨-, k, hk, rfl, hfree', hleast'⟩
    · exact absurd htaken hfree'
    · rcases lt_trichotomy k n with hlt | rfl | hlt
      · exact absurd (hleast k hk hlt) hfree'
      · rfl
      · exact absurd (hleast' n hn hlt) hfree

/-- Each file has its name in view of the names `taken` and of those before it. -/
def AllNamed (base : Path) (taken : List Text) (l : List (Text × Path)) : Prop :=
  ∀ before key file after, l = before ++ (key, file) :: after →
    Named base (taken ++ before.map Prod.fst) file key

theorem AllNamed.cons (h : AllNamed base taken ((key, file) :: l)) :
    Named base taken file key ∧ AllNamed base (taken ++ [key]) l := by
  refine ⟨by simpa using h [] key file l rfl, fun before k f after heq => ?_⟩
  have := h ((key, file) :: before) k f after (by rw [heq]; rfl)
  simpa using this

theorem AllNamed.eq (h : AllNamed base taken l) (h' : AllNamed base taken l')
    (hfiles : l.map Prod.snd = l'.map Prod.snd) : l = l' := by
  induction l generalizing l' taken with
  | nil => exact (List.map_eq_nil_iff.1 hfiles.symm).symm
  | cons e l ih =>
    cases l' with
    | nil => exact absurd hfiles (by simp)
    | cons e' l' =>
      obtain ⟨key, file⟩ := e
      obtain ⟨key', file'⟩ := e'
      obtain ⟨rfl, hrest⟩ := List.cons.inj hfiles
      obtain ⟨hkey, hl⟩ := h.cons
      obtain ⟨hkey', hl'⟩ := h'.cons
      -- both names are given in view of the same ones, so the same are taken for the rest
      obtain rfl := hkey.unique hkey'
      rw [ih hl hl' hrest]

theorem Detected.allNamed (h : Detected fs cwd includes excludes entries) :
    AllNamed (baseDir cwd includes) [] entries.toList := h.named

/-- Entries with the same files, named from the same directory, are the same. -/
theorem Detected.eq (h : Detected fs cwd includes excludes entries)
    (h' : Detected fs cwd' includes' excludes' entries') (hbase : baseDir cwd includes = baseDir cwd' includes')
    (hmem : ∀ p, p ∈ entries.values ↔ p ∈ entries'.values) : entries = entries' := by
  have hvalues : entries.values = entries'.values := h.sorted.eq_of_mem_iff h'.sorted hmem
  exact OrderedMap.toList_injective (h.allNamed.eq (hbase ▸ h'.allNamed) hvalues)

/-- The search finds `file`: no walk fails, no match breaks off, and the file is not left out. -/
structure Finds (fs : σ) (cwd : Path) (includes excludes : List Text) (file : Path) : Prop where
  walks : ∀ dir ∈ includes, ∃ found, FileSystem.walk fs (cwd.join ⟨dir⟩) = .ok found
  goesThrough : ∀ q, IsSource fs cwd includes q →
    Glob.matchesAny? (patterns excludes) (q.shownFrom cwd).text ≠ none
  source : IsSource fs cwd includes file
  eligible : IsEligible fs cwd (patterns excludes) file

theorem mem_values_detect :
    p ∈ (detect fs cwd includes excludes).value.values ↔ Finds fs cwd includes excludes p := by
  by_cases hnothing : FindsNothing fs cwd includes excludes
  · have hvalues := OrderedMap.isEmpty_iff.1 (isEmpty_detect_iff.2 hnothing)
    rw [hvalues]
    refine ⟨fun hp => absurd hp List.not_mem_nil, fun hp => ?_⟩
    exfalso
    cases hnothing with
    | walkFails hdir hfault =>
      obtain ⟨found, hfound⟩ := hp.walks _ hdir
      rw [hfault] at hfound
      exact absurd hfound (by simp)
    | breaksOff hfile hglob => exact hp.goesThrough _ hfile hglob
    | leavesOut h => exact (h p hp.source).not_isEligible hp.eligible
  · rw [(detected_of_not_findsNothing hnothing).mem_values]
    refine ⟨fun ⟨hsource, heligible⟩ => ⟨?_, fun q hq hglob => hnothing (.breaksOff hq hglob), hsource, heligible⟩,
      fun hp => ⟨hp.source, hp.eligible⟩⟩
    by_contra hwalk
    obtain ⟨dir, hdir, fault, hfault⟩ := not_walk_ok hwalk
    exact hnothing (.walkFails hdir hfault)

theorem detected_of_ne_nil (h : (detect fs cwd includes excludes).value.values ≠ []) :
    Detected fs cwd includes excludes (detect fs cwd includes excludes).value :=
  detected_of_not_findsNothing fun hnothing => h (OrderedMap.isEmpty_iff.1 (isEmpty_detect_iff.2 hnothing))

/-- Searches that name their files from the same directory have the same result if they find the same. -/
theorem detect_congr (hbase : baseDir cwd includes = baseDir cwd' includes')
    (h : ∀ p, Finds fs cwd includes excludes p ↔ Finds fs cwd' includes' excludes' p) :
    (detect fs cwd includes excludes).value = (detect fs cwd' includes' excludes').value := by
  have hmem (p : Path) : p ∈ (detect fs cwd includes excludes).value.values ↔
      p ∈ (detect fs cwd' includes' excludes').value.values := by
    rw [mem_values_detect, mem_values_detect, h]
  have hnil : (detect fs cwd includes excludes).value.values = [] ↔
      (detect fs cwd' includes' excludes').value.values = [] := by
    simp only [List.eq_nil_iff_forall_not_mem, hmem]
  by_cases hnone : (detect fs cwd includes excludes).value.values = []
  -- a search that fails as a whole is not `Detected`
  · have htoList := List.map_eq_nil_iff.1 hnone
    have htoList' := List.map_eq_nil_iff.1 (hnil.1 hnone)
    exact OrderedMap.toList_injective (htoList.trans htoList'.symm)
  · exact (detected_of_ne_nil hnone).eq (detected_of_ne_nil (mt hnil.2 hnone)) hbase hmem

/-- Searches of the same files find the same if they show them in the same way. -/
theorem finds_congr
    (hwalk : (∀ dir ∈ includes, ∃ found, FileSystem.walk fs (cwd.join ⟨dir⟩) = .ok found) ↔
      ∀ dir ∈ includes', ∃ found, FileSystem.walk fs (cwd'.join ⟨dir⟩) = .ok found)
    (hsource : (∀ dir ∈ includes, ∃ found, FileSystem.walk fs (cwd.join ⟨dir⟩) = .ok found) →
      ∀ q, IsSource fs cwd includes q ↔ IsSource fs cwd' includes' q)
    (hshown : ∀ q, IsSource fs cwd includes q → q.shownFrom cwd = q.shownFrom cwd') (p : Path) :
    Finds fs cwd includes excludes p ↔ Finds fs cwd' includes' excludes p := by
  constructor
  · rintro ⟨hok, hglob, hp, heligible⟩
    refine ⟨hwalk.1 hok, fun q hq => ?_, (hsource hok p).1 hp, ?_⟩
    · rw [← hshown q ((hsource hok q).2 hq)]
      exact hglob q ((hsource hok q).2 hq)
    · rwa [IsEligible, ← hshown p hp]
  · rintro ⟨hok', hglob, hp, heligible⟩
    have hok := hwalk.2 hok'
    refine ⟨hok, fun q hq => ?_, (hsource hok p).2 hp, ?_⟩
    · rw [hshown q hq]
      exact hglob q ((hsource hok q).1 hq)
    · rwa [IsEligible, hshown p ((hsource hok p).2 hp)]

/-- If nothing makes the search as a whole fail, it finds what is not left out. -/
theorem finds_iff_of_goesThrough
    (hwalk : ∀ dir ∈ includes, ∃ found, FileSystem.walk fs (cwd.join ⟨dir⟩) = .ok found)
    (hglob : ∀ q, IsSource fs cwd includes q →
      Glob.matchesAny? (patterns excludes) (q.shownFrom cwd).text ≠ none) :
    Finds fs cwd includes excludes p ↔ IsSource fs cwd includes p ∧
      Glob.matchesAny? (patterns excludes) (p.shownFrom cwd).text = some false ∧
      (isEmpty fs p).value = false := by
  rw [Glob.matchesAny?, Glob.anySuccess_eq_false]
  constructor
  · exact fun h => ⟨h.source, h.eligible⟩
  · rintro ⟨hsource, heligible⟩
    exact ⟨hwalk, hglob, hsource, heligible⟩

/-! ### Directories that add nothing -/

/-- The order and the number of the directories behind the first one do not matter. -/
theorem detect_of_mem_iff {rest rest' : List Text} (h : ∀ dir, dir ∈ first :: rest' ↔ dir ∈ first :: rest) :
    (detect fs cwd (first :: rest') excludes).value = (detect fs cwd (first :: rest) excludes).value := by
  refine detect_congr rfl (finds_congr ?_ (fun _ q => ?_) fun _ _ => rfl)
  · exact ⟨fun hok dir hdir => hok dir ((h dir).2 hdir), fun hok dir hdir => hok dir ((h dir).1 hdir)⟩
  · simp only [IsSource, h]

/-- A directory inside one that is searched adds nothing. -/
theorem detect_of_inside (hwalks : Walks fs files) (hcwd : cwd.isAbsolute) {before after : List Text}
    {outer inner : Text} (houter : outer ∈ first :: (before ++ after))
    (hbelow : Key.ofPath (cwd.join ⟨outer⟩) <+: Key.ofPath (cwd.join ⟨inner⟩))
    (hinner : ∃ found, FileSystem.walk fs (cwd.join ⟨inner⟩) = .ok found) :
    (detect fs cwd (first :: (before ++ inner :: after)) excludes).value =
      (detect fs cwd (first :: (before ++ after)) excludes).value := by
  have hmem (dir : Text) : dir ∈ first :: (before ++ inner :: after) ↔
      dir = inner ∨ dir ∈ first :: (before ++ after) := by
    simp only [List.mem_cons, List.mem_append]
    tauto
  refine detect_congr rfl (finds_congr ?_ (fun hok q => ?_) fun _ _ => rfl)
  · constructor
    · exact fun hok dir hdir => hok dir ((hmem dir).2 (.inr hdir))
    · intro hok dir hdir
      rcases (hmem dir).1 hdir with rfl | hdir
      · exact hinner
      · exact hok dir hdir
  · rw [hwalks.isSource_iff hcwd, hwalks.isSource_iff hcwd]
    constructor
    · rintro ⟨dir, hdir, hfound, hq⟩
      rcases (hmem dir).1 hdir with rfl | hdir
      -- the walk of `outer` does not fail either, and lists the file too
      · exact ⟨outer, houter, hok outer ((hmem outer).2 (.inr houter)), hq.of_prefix hbelow⟩
      · exact ⟨dir, hdir, hfound, hq⟩
    · rintro ⟨dir, hdir, hfound, hq⟩
      exact ⟨dir, (hmem dir).2 (.inr hdir), hfound, hq⟩

theorem nodup_detect (hwalks : Walks fs files) (hcwd : cwd.isAbsolute) :
    ((detect fs cwd includes excludes).value.values.map Key.ofPath).Nodup := by
  have hnodup : (detect fs cwd includes excludes).value.values.Nodup := by
    by_cases hnone : (detect fs cwd includes excludes).value.values = []
    · rw [hnone]
      exact List.nodup_nil
    · exact (detected_of_ne_nil hnone).sorted.imp fun {p q} hlt => by
        rintro rfl
        exact Path.compare_ne_lt_self p hlt
  refine hnodup.map_on fun p hp q hq hkey => ?_
  have hp' := hwalks.eq_text hcwd (mem_values_detect.1 hp).source
  have hq' := hwalks.eq_text hcwd (mem_values_detect.1 hq).source
  rw [hp', hq', hkey]

/-- Behind the first directory, which names the files, only the set of the directories counts, and not even those
inside others; no file comes twice. -/
theorem detect_directories (hwalks : Walks fs files) (hcwd : cwd.isAbsolute) (first : Text)
    (rest excludes : List Text) :
    (∀ rest', (∀ dir, dir ∈ first :: rest' ↔ dir ∈ first :: rest) →
      (detect fs cwd (first :: rest') excludes).value = (detect fs cwd (first :: rest) excludes).value) ∧
    (∀ before after outer inner, rest = before ++ after → outer ∈ first :: rest →
      Key.ofPath (cwd.join ⟨outer⟩) <+: Key.ofPath (cwd.join ⟨inner⟩) →
      (∃ found, FileSystem.walk fs (cwd.join ⟨inner⟩) = .ok found) →
      (detect fs cwd (first :: (before ++ inner :: after)) excludes).value =
        (detect fs cwd (first :: rest) excludes).value) ∧
    ((detect fs cwd (first :: rest) excludes).value.values.map Key.ofPath).Nodup := by
  refine ⟨fun rest' h => detect_of_mem_iff h, ?_, nodup_detect hwalks hcwd⟩
  rintro before after outer inner rfl houter hbelow hinner
  exact detect_of_inside hwalks hcwd houter hbelow hinner

theorem detect_directories_colliding :
    (detect (colliding {}) "/p" ["src", "src/a", "lib", "src/a"] []).value =
      (detect (colliding {}) "/p" ["src", "lib", "src/a"] []).value ∧
    (detect (colliding {}) "/p" ["src", "lib", "src/a"] []).value =
      (detect (colliding {}) "/p" ["src", "lib"] []).value ∧
    ((detect (colliding {}) "/p" ["src", "lib"] []).value.values.map Key.ofPath).Nodup := by
  have hwalks : Walks (colliding {}) _ := Memory.walks_ofContents (by decide) [] {}
  have hcwd : ("/p" : Path).isAbsolute := by decide
  obtain ⟨-, hinside, hnodup⟩ := detect_directories hwalks hcwd "src" ["lib"] []
  obtain ⟨hsame, -, -⟩ := detect_directories hwalks hcwd "src" ["lib", "src/a"] []
  refine ⟨hsame ["src/a", "lib", "src/a"] ?_, ?_, hnodup⟩
  · intro dir
    simp only [List.mem_cons, List.not_mem_nil, or_false]
    tauto
  · exact hinside ["lib"] [] "src" "src/a" rfl (by simp) (by decide) ⟨_, rfl⟩

/-! ### The spelling of the directory to start in -/

section Spelling

variable (hwalks : Walks fs files) (hfails : FailsByKey fs) (hcwd : cwd.isAbsolute)
include hcwd

theorem ofPath_join_normalize (dir : Path) :
    Key.ofPath (cwd.join dir) = Key.ofPath (cwd.normalize.join dir) :=
  Key.ofPath_join_congr (Path.ofPath_normalize hcwd).symm dir

theorem baseDir_normalize (includes : List Text) : baseDir cwd includes = baseDir cwd.normalize includes := by
  rw [baseDir, baseDir, Path.normalize_eq_text (Path.isAbsolute_join hcwd _),
    Path.normalize_eq_text (Path.isAbsolute_join (Path.isAbsolute_normalize hcwd) _), ofPath_join_normalize hcwd]

/-- Without steps to parents, a path shows every file as its normal form does. -/
theorem shownFrom_normalize_of_parent_notMem (h : parent ∉ cwd.components) (p : Path) :
    p.shownFrom cwd.normalize = p.shownFrom cwd :=
  Path.shownFrom_congr (Path.components_of_parent_notMem hcwd h) p

include hfails

theorem walk_normalize_iff (dir : Path) : (∃ found, FileSystem.walk fs (cwd.join dir) = .ok found) ↔
    ∃ found, FileSystem.walk fs (cwd.normalize.join dir) = .ok found := by
  have habs := Path.isAbsolute_join hcwd dir
  have habs' := Path.isAbsolute_join (Path.isAbsolute_normalize hcwd) dir
  have hkey := ofPath_join_normalize hcwd dir
  exact ⟨hfails.walk_ok habs habs' hkey, hfails.walk_ok habs' habs hkey.symm⟩

include hwalks

/-- The files that are found are the same for both spellings. -/
theorem isSource_normalize_iff (p : Path) :
    IsSource fs cwd includes p ↔ IsSource fs cwd.normalize includes p := by
  rw [hwalks.isSource_iff hcwd, hwalks.isSource_iff (Path.isAbsolute_normalize hcwd)]
  simp only [walk_normalize_iff hfails hcwd, ofPath_join_normalize hcwd]

end Spelling

/-- What a search that starts in `cwd` has to do with one that starts in its normal form. -/
structure Respelled (fs : σ) (files : Key → Prop) (cwd : Path) (includes excludes : List Text) : Prop where
  /-- The same source files are found. -/
  source : ∀ p, IsSource fs cwd includes p ↔ IsSource fs cwd.normalize includes p
  /-- From the normal form, a file is shown by the names that lead to it. -/
  relative : ∀ rest, rest ≠ [] → files (Key.ofPath cwd ++ rest) →
    (⟨(Key.ofPath cwd ++ rest).text⟩ : Path).shownFrom cwd.normalize = Key.spelled rest
  /-- So it is from every spelling without steps to parents. -/
  shown : parent ∉ cwd.components → ∀ p : Path, p.shownFrom cwd.normalize = p.shownFrom cwd
  /-- From one with steps to parents, every file is shown whole. -/
  whole : parent ∈ cwd.components → ∀ p, IsSource fs cwd includes p → p.shownFrom cwd = p
  /-- Without steps to parents the result is the same. -/
  same : parent ∉ cwd.components →
    (detect fs cwd includes excludes).value = (detect fs cwd.normalize includes excludes).value
  /-- With them, it is the same exactly if the same files are found. -/
  agrees : (detect fs cwd includes excludes).value = (detect fs cwd.normalize includes excludes).value ↔
    ∀ p, Finds fs cwd includes excludes p ↔ Finds fs cwd.normalize includes excludes p
  /-- That is, if nothing makes a search fail, exactly if the patterns leave out the same files with code in them. -/
  patterns : (∀ dir ∈ includes, ∃ found, FileSystem.walk fs (cwd.join ⟨dir⟩) = .ok found) →
    (∀ p, IsSource fs cwd includes p →
      Glob.matchesAny? (patterns excludes) (p.shownFrom cwd).text ≠ none ∧
      Glob.matchesAny? (patterns excludes) (p.shownFrom cwd.normalize).text ≠ none) →
    ((detect fs cwd includes excludes).value = (detect fs cwd.normalize includes excludes).value ↔
      ∀ p, IsSource fs cwd includes p → (isEmpty fs p).value = false →
        (Glob.matchesAny? (patterns excludes) (p.shownFrom cwd).text = some false ↔
          Glob.matchesAny? (patterns excludes) (p.shownFrom cwd.normalize).text = some false))

theorem detect_normalize_iff (hcwd : cwd.isAbsolute) :
    (detect fs cwd includes excludes).value = (detect fs cwd.normalize includes excludes).value ↔
      ∀ p, Finds fs cwd includes excludes p ↔ Finds fs cwd.normalize includes excludes p := by
  refine ⟨fun heq p => ?_, detect_congr (baseDir_normalize hcwd includes)⟩
  rw [← mem_values_detect, heq, mem_values_detect]

theorem respelled (hwalks : Walks fs files) (hfails : FailsByKey fs) (hcwd : cwd.isAbsolute)
    (includes excludes : List Text) : Respelled fs files cwd includes excludes where
  source := isSource_normalize_iff hwalks hfails hcwd
  relative rest hne hrest := Path.shownFrom_normalize hcwd hne (hwalks.isStep _ hrest)
  shown := shownFrom_normalize_of_parent_notMem hcwd
  whole hparent p hp := by
    obtain ⟨file, hfile, rfl⟩ := hwalks.exists_eq_normalize hcwd hp
    exact Path.shownFrom_of_parent_mem hfile hparent
  same hparent := by
    refine detect_congr (baseDir_normalize hcwd includes) (finds_congr ?_ (fun _ => ?_) fun q _ => ?_)
    · exact forall₂_congr fun dir _ => walk_normalize_iff hfails hcwd ⟨dir⟩
    · exact isSource_normalize_iff hwalks hfails hcwd
    · exact (shownFrom_normalize_of_parent_notMem hcwd hparent q).symm
  agrees := detect_normalize_iff hcwd
  patterns hok hglob := by
    have hok' : ∀ dir ∈ includes, ∃ found, FileSystem.walk fs (cwd.normalize.join ⟨dir⟩) = .ok found :=
      fun dir hdir => (walk_normalize_iff hfails hcwd ⟨dir⟩).1 (hok dir hdir)
    have hsource (p : Path) : IsSource fs cwd includes p ↔ IsSource fs cwd.normalize includes p :=
      isSource_normalize_iff hwalks hfails hcwd p
    rw [detect_normalize_iff hcwd]
    refine forall_congr' fun p => ?_
    rw [finds_iff_of_goesThrough hok fun q hq => (hglob q hq).1,
      finds_iff_of_goesThrough hok' fun q hq => (hglob q ((hsource q).2 hq)).2, ← hsource p]
    constructor
    · intro h hp hcode
      exact ⟨fun hshown => (h.1 ⟨hp, hshown, hcode⟩).2.1, fun hshown => (h.2 ⟨hp, hshown, hcode⟩).2.1⟩
    · exact fun h => and_congr_right fun hp => and_congr_left fun hcode => h hp hcode

/-- A project with nothing but a test in it. -/
def tested : Memory := .ofContents [(["p", "src", "main.test.ts"], "test()")] [] {}

theorem respelled_tested :
    (detect tested "/p/./" ["src"] ["src/*.test.ts"]).value =
      (detect tested (Path.normalize "/p/./") ["src"] ["src/*.test.ts"]).value ∧
    ∀ p : Path, IsSource tested "/p/lib/.." ["src"] p → p.shownFrom "/p/lib/.." = p := by
  have hwalks : Walks tested _ := Memory.walks_ofContents (by decide) [] {}
  have hfails := Memory.failsByKey tested
  exact ⟨(respelled hwalks hfails (by decide) ["src"] ["src/*.test.ts"]).same (by decide),
    (respelled hwalks hfails (by decide) ["src"] ["src/*.test.ts"]).whole (by decide)⟩

/-- From another spelling of the same directory, the pattern for tests matches no file. -/
theorem keys_detect_tested : Path.normalize "/p/lib/.." = "/p" ∧
    (detect tested "/p" ["src"] ["src/*.test.ts"]).value.keys = [] ∧
    (detect tested "/p/lib/.." ["src"] ["src/*.test.ts"]).value.keys = ["main_test"] := by
  decide +kernel

end Discovery

end AppsScript
