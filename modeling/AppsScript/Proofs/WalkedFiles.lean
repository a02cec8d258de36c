import AppsScript.Proofs.Keys
import AppsScript.Proofs.SourceEntries

/-!
# Files below a directory

`Discovery.Walks` says that a walk lists exactly the files below a directory, in terms of their keys. Which source files
are found below a directory then depends on its key only (`Discovery.Walks.isSource_iff`). Walks in memory are such
(`Memory.walks_ofContents`).
-/

namespace AppsScript

open Component

namespace Discovery

variable {σ : Type} [FileSystem σ] {fs : σ} {cwd p : Path} {includes : List Text} {found : List Path}
  {files : Key → Prop} {inner outer : Key}

/-- Walks in `fs` list exactly the files below a directory, each spelled as the directory is. The keys of all files
are `files`. -/
structure Walks (fs : σ) (files : Key → Prop) : Prop where
  isStep : ∀ key, files key → ∀ name ∈ key, IsStep (normal name)
  mem_walk : ∀ dir found, dir.isAbsolute → FileSystem.walk fs dir = .ok found → ∀ p, p ∈ found ↔
    ∃ rest, rest ≠ [] ∧ files (Key.ofPath dir ++ rest) ∧ p = dir.join (Key.spelled rest)

/-- `p` is the spelling of a source file below a directory. -/
def IsSourceBelow (files : Key → Prop) (dir : Key) (p : Path) : Prop :=
  ∃ rest, rest ≠ [] ∧ files (dir ++ rest) ∧ p = ⟨(dir ++ rest).text⟩ ∧ p.extension? = some "ts"

theorem IsSourceBelow.of_prefix (h : IsSourceBelow files inner p) (hbelow : outer <+: inner) :
    IsSourceBelow files outer p := by
  obtain ⟨between, rfl⟩ := hbelow
  obtain ⟨rest, hne, hfile, hp, hext⟩ := h
  rw [List.append_assoc] at hfile hp
  exact ⟨between ++ rest, by simp [hne], hfile, hp, hext⟩

namespace Walks

/-- What is found below a directory depends on its key only. -/
theorem exists_mem_walk_iff (hwalks : Walks fs files) {dir : Path} (hdir : dir.isAbsolute)
    (hfound : FileSystem.walk fs dir = .ok found) :
    (∃ file ∈ found, file.extension? = some "ts" ∧ p = file.normalize) ↔
      IsSourceBelow files (Key.ofPath dir) p := by
  -- the extension is read off the last name, which the normal form keeps
  have hfile {rest : Key} (hne : rest ≠ []) (hrest : files (Key.ofPath dir ++ rest)) :
      (dir.join (Key.spelled rest)).normalize = ⟨(Key.ofPath dir ++ rest).text⟩ ∧
      (⟨(Key.ofPath dir ++ rest).text⟩ : Path).extension? = (dir.join (Key.spelled rest)).extension? := by
    have hsteps : ∀ name ∈ rest, IsStep (normal name) := fun name hname =>
      hwalks.isStep _ hrest name (List.mem_append_right _ hname)
    have habs := Path.isAbsolute_join hdir (Key.spelled rest)
    have hkey := Key.ofPath_join_spelled dir hne hsteps
    have hnormal := Path.normalize_eq_text habs
    rw [hkey] at hnormal
    refine ⟨hnormal, ?_⟩
    rw [← hnormal, Path.extension?, Path.fileName?_normalize habs, hkey, List.getLast?_append_of_ne_nil _ hne,
      Path.extension?, Path.fileName?_join_spelled hdir hne hsteps]
  constructor
  · rintro ⟨file, hmem, hext, rfl⟩
    obtain ⟨rest, hne, hrest, rfl⟩ := (hwalks.mem_walk dir found hdir hfound file).1 hmem
    obtain ⟨hnormal, hextension⟩ := hfile hne hrest
    rw [hnormal]
    exact ⟨rest, hne, hrest, rfl, hextension.trans hext⟩
  · rintro ⟨rest, hne, hrest, rfl, hext⟩
    obtain ⟨hnormal, hextension⟩ := hfile hne hrest
    exact ⟨_, (hwalks.mem_walk dir found hdir hfound _).2 ⟨rest, hne, hrest, rfl⟩, hextension.symm.trans hext,
      hnormal.symm⟩

theorem isSource_iff (hwalks : Walks fs files) (hcwd : cwd.isAbsolute) :
    IsSource fs cwd includes p ↔ ∃ dir ∈ includes, (∃ found, FileSystem.walk fs (cwd.join ⟨dir⟩) = .ok found) ∧
      IsSourceBelow files (Key.ofPath (cwd.join ⟨dir⟩)) p := by
  constructor
  · rintro ⟨dir, hdir, found, hfound, hp⟩
    exact ⟨dir, hdir, ⟨found, hfound⟩, (hwalks.exists_mem_walk_iff (Path.isAbsolute_join hcwd _) hfound).1 hp⟩
  · rintro ⟨dir, hdir, ⟨found, hfound⟩, hp⟩
    exact ⟨dir, hdir, found, hfound, (hwalks.exists_mem_walk_iff (Path.isAbsolute_join hcwd _) hfound).2 hp⟩

theorem exists_eq_normalize (hwalks : Walks fs files) (hcwd : cwd.isAbsolute) (hp : IsSource fs cwd includes p) :
    ∃ file : Path, file.isAbsolute ∧ p = file.normalize := by
  obtain ⟨dir, -, found, hfound, file, hfile, -, rfl⟩ := hp
  have hdir := Path.isAbsolute_join hcwd ⟨dir⟩
  obtain ⟨rest, -, -, rfl⟩ := (hwalks.mem_walk _ _ hdir hfound file).1 hfile
  exact ⟨_, Path.isAbsolute_join hdir _, rfl⟩

theorem eq_text (hwalks : Walks fs files) (hcwd : cwd.isAbsolute) (hp : IsSource fs cwd includes p) :
    p = ⟨(Key.ofPath p).text⟩ := by
  obtain ⟨file, hfile, rfl⟩ := hwalks.exists_eq_normalize hcwd hp
  rw [Path.ofPath_normalize hfile, Path.normalize_eq_text hfile]

end Walks

/-- Where a walk fails does not depend on how the directory is spelled. -/
def FailsByKey (fs : σ) : Prop :=
  ∀ dir dir' : Path, dir.isAbsolute → dir'.isAbsolute → Key.ofPath dir = Key.ofPath dir' →
    ∀ fault, FileSystem.walk fs dir = .error fault → FileSystem.walk fs dir' = .error fault

theorem FailsByKey.walk_ok (hfails : FailsByKey fs) {dir dir' : Path} (hdir : dir.isAbsolute)
    (hdir' : dir'.isAbsolute) (hkey : Key.ofPath dir = Key.ofPath dir')
    (hok : ∃ found, FileSystem.walk fs dir = .ok found) : ∃ found, FileSystem.walk fs dir' = .ok found := by
  obtain ⟨found, hfound⟩ := hok
  cases hwalk : FileSystem.walk fs dir' with
  | ok found => exact ⟨found, rfl⟩
  | error fault =>
    rw [hfails dir' dir hdir' hdir hkey.symm fault hwalk] at hfound
    exact absurd hfound (by simp)

end Discovery

/-! ### Walks in memory -/

namespace Memory

open Discovery

variable {contents : List (Key × Text)} {dirs new : List Key} {plan : FaultPlan} {key : Key}

theorem mem_addDirs : key ∈ addDirs dirs new ↔ key ∈ dirs ∨ key ∈ new := by
  induction new generalizing dirs with
  | nil => simp [addDirs]
  | cons dir new ih =>
    rw [addDirs, List.foldl_cons, ← addDirs, ih, List.mem_cons]
    split_ifs with hdir
    · rw [List.contains_iff_mem] at hdir
      rw [← or_assoc]
      exact or_congr_left (or_iff_left_of_imp fun h => h ▸ hdir).symm
    · rw [List.mem_append, List.mem_singleton, or_assoc]

/-- Every directory with a file below it is there. -/
theorem mem_dirs_ofContents {rest : Key} (hne : rest ≠ []) (h : key ++ rest ∈ contents.map Prod.fst) :
    key ∈ (ofContents contents dirs plan).dirs := by
  obtain ⟨e, he, hkey⟩ := List.mem_map.1 h
  refine mem_addDirs.2 (.inr (List.mem_flatMap.2 ⟨e.1.dropLast, ?_, ?_⟩))
  · exact List.mem_append_left _ (List.mem_map.2 ⟨e, he, rfl⟩)
  · rw [Key.mem_onTheWay, hkey, List.dropLast_append_of_ne_nil hne]
    exact List.prefix_append _ _

theorem walks_ofContents (h : ∀ e ∈ contents, ∀ name ∈ e.1, IsStep (normal name)) (dirs : List Key)
    (plan : FaultPlan) : Walks (ofContents contents dirs plan) (· ∈ contents.map Prod.fst) where
  isStep key hkey := by
    obtain ⟨e, he, rfl⟩ := List.mem_map.1 hkey
    exact h e he
  mem_walk dir found hdir hfound p := by
    have hkeys : (ofContents contents dirs plan).files.keys = (OrderedMap.ofList contents).keys := rfl
    change walk _ dir = _ at hfound
    rw [walk] at hfound
    split_ifs at hfound with hthere hfails
    · obtain rfl := Except.ok.inj hfound
      refine ⟨fun hp => absurd hp List.not_mem_nil, ?_⟩
      rintro ⟨rest, hne, hrest, -⟩
      rw [Bool.not_eq_true', ← Bool.not_eq_true, List.contains_iff_mem] at hthere
      exact absurd (mem_dirs_ofContents hne hrest) hthere
    · obtain rfl := Except.ok.inj hfound
      rw [List.mem_mergeSort, List.mem_filterMap]
      simp only [hkeys, OrderedMap.mem_keys_ofList, Option.map_eq_some_iff, Key.below?_eq_some_iff]
      constructor
      · rintro ⟨key, hkey, rest, ⟨hne, rfl⟩, rfl⟩
        exact ⟨rest, hne, hkey, rfl⟩
      · rintro ⟨rest, hne, hkey, rfl⟩
        exact ⟨_, hkey, rest, ⟨hne, rfl⟩, rfl⟩

theorem failsByKey (m : Memory) : FailsByKey m := by
  intro dir dir' _ _ hkey fault hfault
  change walk m dir = _ at hfault
  change walk m dir' = _
  rw [walk] at hfault ⊢
  rw [← hkey]
  split_ifs at hfault ⊢
  exact hfault

end Memory

end AppsScript
