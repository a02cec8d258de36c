import AppsScript.Build.Manifest
import AppsScript.Proofs.OrderedMaps
import AppsScript.Proofs.WalkedFiles
import Mathlib.Algebra.Order.Group.Nat

/-!
# Where the manifest goes

Copying the manifest makes a directory, reads one file and writes another, and each of these may fail.
`Manifest.Copies` says what is left of a project in memory then, `Manifest.copies_copy` that it is. The directory may
be the root of the project, so that the manifest is copied onto itself, or any other place.
-/

namespace AppsScript

variable {m after : Memory} {p source target root dir : Path} {key : Key} {content : Text} {fault : Fault} {n : Nat}

namespace Memory

/-! ### The operations -/

/-- The directory can be made: this is allowed, and no file is in the way. -/
def HasRoomFor (m : Memory) (dir : Key) : Prop :=
  dir ∉ m.plan.createDirs ∧ ∀ key, key <+: dir → key ∉ m.files.keys

def withDirs (m : Memory) (dir : Key) : Memory := { m with dirs := addDirs m.dirs dir.onTheWay }

theorem mem_withDirs {dir : Key} : key ∈ (m.withDirs dir).dirs ↔ key ∈ m.dirs ∨ key <+: dir := by
  rw [withDirs, mem_addDirs, Key.mem_onTheWay]

theorem readText_eq_ok_iff : m.readText p = .ok content ↔
    Key.ofPath p ∉ m.plan.read ∧ Key.ofPath p ∉ m.dirs ∧ m.files.get? (Key.ofPath p) = some content := by
  rw [readText]
  simp only [List.contains_iff_mem]
  split_ifs with hdenied hdir
  · simp [hdenied]
  · simp [hdir]
  · cases hget : m.files.get? (Key.ofPath p) <;> simp [hdenied, hdir]

theorem any_onTheWay_iff {dir : Key} : dir.onTheWay.any m.files.contains = true ↔
    ∃ key, key <+: dir ∧ key ∈ m.files.keys := by
  simp only [List.any_eq_true, Key.mem_onTheWay, OrderedMap.contains_iff]

/-- Directories are made all or none. -/
theorem createDirs_cases (m : Memory) (p : Path) :
    m.HasRoomFor (Key.ofPath p) ∧ m.createDirs p = (.ok (), m.withDirs (Key.ofPath p)) ∨
      ¬ m.HasRoomFor (Key.ofPath p) ∧ ∃ fault, m.createDirs p = (.error fault, m) := by
  rw [createDirs, HasRoomFor]
  simp only [List.contains_iff_mem]
  split_ifs with hdenied hfile
  · exact .inr ⟨fun h => h.1 hdenied, _, rfl⟩
  · obtain ⟨key, hway, hkey⟩ := any_onTheWay_iff.1 hfile
    exact .inr ⟨fun h => h.2 key hway hkey, _, rfl⟩
  · exact .inl ⟨⟨hdenied, fun key hway hkey => hfile (any_onTheWay_iff.2 ⟨key, hway, hkey⟩)⟩, rfl⟩

/-- A file can be written: this is allowed, it is no directory, and it lies in one. -/
def HasPlaceFor (m : Memory) (key : Key) : Prop :=
  key ∉ m.plan.write ∧ key ∉ m.dirs ∧ key.dropLast ∈ m.dirs

def withFile (m : Memory) (key : Key) (content : Text) : Memory := { m with files := m.files.insert key content }

theorem write_cases (m : Memory) (p : Path) (content : Text) :
    m.HasPlaceFor (Key.ofPath p) ∧ m.write p content = (.ok (), m.withFile (Key.ofPath p) content) ∨
      ¬ m.HasPlaceFor (Key.ofPath p) ∧ ∃ fault, m.write p content = (.error fault, m) := by
  rw [write, HasPlaceFor]
  simp only [List.contains_iff_mem, Bool.not_eq_true', ← Bool.not_eq_true]
  split_ifs with hdenied hdir hparent
  · exact .inr ⟨fun h => h.1 hdenied, _, rfl⟩
  · exact .inr ⟨fun h => h.2.1 hdir, _, rfl⟩
  · exact .inl ⟨⟨hdenied, hdir, hparent⟩, rfl⟩
  · exact .inr ⟨fun h => hparent h.2.2, _, rfl⟩

/-- A file is copied or nothing has happened. -/
theorem copy_cases (m : Memory) (source target : Path) :
    (∃ content, m.readText source = .ok content ∧ m.HasPlaceFor (Key.ofPath target) ∧
        m.copy source target = (.ok (Text.byteCount content), m.withFile (Key.ofPath target) content)) ∨
      (¬ ∃ content, m.readText source = .ok content ∧ m.HasPlaceFor (Key.ofPath target)) ∧
        ∃ fault, m.copy source target = (.error fault, m) := by
  rw [copy]
  cases hread : m.readText source with
  | error fault => exact .inr ⟨by simp, fault, rfl⟩
  | ok content =>
    rcases m.write_cases target content with ⟨hplace, hwrite⟩ | ⟨hplace, fault, hwrite⟩
    · refine .inl ⟨content, rfl, hplace, ?_⟩
      simp only [hwrite]
      rfl
    · refine .inr ⟨fun ⟨_, _, h⟩ => hplace h, fault, ?_⟩
      simp only [hwrite]
      rfl

theorem mem_keys_of_get? (h : m.files.get? key = some content) : key ∈ m.files.keys := by
  by_contra hkey
  rw [OrderedMap.get?_eq_none hkey] at h
  cases h

/-- A file that is there is none of the directories that are made. -/
theorem readText_withDirs {dir : Key} (h : m.HasRoomFor dir) :
    (m.withDirs dir).readText p = .ok content ↔ m.readText p = .ok content := by
  rw [readText_eq_ok_iff, readText_eq_ok_iff, mem_withDirs, not_or]
  refine and_congr_right fun _ => ⟨fun h => ⟨h.1.1, h.2⟩, fun ⟨hdir, hget⟩ => ⟨⟨hdir, fun hway => ?_⟩, hget⟩⟩
  exact h.2 _ hway (mem_keys_of_get? hget)

theorem hasPlaceFor_withDirs {dir : Key} {name : Text} :
    (m.withDirs dir).HasPlaceFor (dir ++ [name]) ↔ dir ++ [name] ∉ m.plan.write ∧ dir ++ [name] ∉ m.dirs := by
  have hinner : ¬ dir ++ [name] <+: dir := fun h => by simpa using h.length_le
  have hparent : (dir ++ [name]).dropLast ∈ (m.withDirs dir).dirs := by
    rw [List.dropLast_concat, mem_withDirs]
    exact .inr (List.prefix_refl dir)
  rw [HasPlaceFor, mem_withDirs]
  exact and_congr_right fun _ => ⟨fun h hdir => h.1 (.inl hdir), fun h => ⟨fun hdir => hdir.elim h hinner, hparent⟩⟩

theorem readText_withFile (hread : m.readText p = .ok content) :
    (m.withFile key content).readText p = .ok content := by
  rw [readText_eq_ok_iff] at hread ⊢
  refine ⟨hread.1, hread.2.1, ?_⟩
  rw [withFile, OrderedMap.get?_insert]
  split_ifs
  · rfl
  · exact hread.2.2

end Memory

namespace Manifest

/-! ### Copying -/

/-- Where the manifest of a directory lies. -/
def manifestIn (dir : Path) : Path := dir.join "appsscript.json"

theorem join_fileName (dir : Path) : dir.join fileName = manifestIn dir := rfl

theorem ofPath_manifestIn (dir : Path) : Key.ofPath (manifestIn dir) = Key.ofPath dir ++ [fileName.text] := by
  have hsteps : ∀ name ∈ [fileName.text], Component.IsStep (.normal name) := by decide
  exact Key.ofPath_join_spelled dir (by simp) hsteps

section

variable {σ : Type} [FileSystem σ] {fs made : σ}

theorem copyInto_of_ok (h : FileSystem.createDirs fs dir = (.ok (), made)) :
    copyInto fs source dir target = FileSystem.copy made source target := by
  rw [copyInto, h]

theorem copyInto_of_error (h : FileSystem.createDirs fs dir = (.error fault, made)) :
    copyInto fs source dir target = (.error fault, made) := by
  rw [copyInto, h]

theorem value_copy (fs : σ) (root dir : Path) : (copy fs root dir).value =
    if FileSystem.isThere fs (root.join fileName) then
      let (result, after) := copyInto fs (root.join fileName) dir (dir.join fileName)
      (result.toOption.map fun _ => dir.join fileName, after)
    else (none, fs) := by
  rw [copy]
  cases FileSystem.isThere fs (root.join fileName)
  · rfl
  · obtain ⟨result, after⟩ := copyInto fs (root.join fileName) dir (dir.join fileName)
    cases result <;> rfl

end

/-- How far copying a file into a new directory gets. -/
inductive CopiesInto (m : Memory) (source dir target : Path) : Except Fault Nat × Memory → Prop
  | noRoom {fault : Fault} (hroom : ¬ m.HasRoomFor (Key.ofPath dir)) : CopiesInto m source dir target (.error fault, m)
  | notCopied {fault : Fault} (hroom : m.HasRoomFor (Key.ofPath dir))
    (hcopy : ¬ ∃ content, (m.withDirs (Key.ofPath dir)).readText source = .ok content ∧
      (m.withDirs (Key.ofPath dir)).HasPlaceFor (Key.ofPath target)) :
    CopiesInto m source dir target (.error fault, m.withDirs (Key.ofPath dir))
  | copied {content : Text} (hroom : m.HasRoomFor (Key.ofPath dir))
    (hread : (m.withDirs (Key.ofPath dir)).readText source = .ok content)
    (hplace : (m.withDirs (Key.ofPath dir)).HasPlaceFor (Key.ofPath target)) :
    CopiesInto m source dir target
      (.ok (Text.byteCount content), (m.withDirs (Key.ofPath dir)).withFile (Key.ofPath target) content)

theorem copiesInto_copyInto (m : Memory) (source dir target : Path) :
    CopiesInto m source dir target (copyInto m source dir target) := by
  rcases m.createDirs_cases dir with ⟨hroom, hmade⟩ | ⟨hroom, fault, hmade⟩
  · rw [copyInto_of_ok hmade]
    change CopiesInto m source dir target ((m.withDirs (Key.ofPath dir)).copy source target)
    rcases (m.withDirs (Key.ofPath dir)).copy_cases source target with
      ⟨content, hread, hplace, hcopy⟩ | ⟨hnot, fault, hcopy⟩
    · rw [hcopy]
      exact .copied hroom hread hplace
    · rw [hcopy]
      exact .notCopied hroom hnot
  · rw [copyInto_of_error hmade]
    exact .noRoom hroom

/-- Nothing keeps the manifest of `root` from being copied into `dir`. -/
def CanCopy (m : Memory) (root dir : Path) : Prop :=
  (∃ content, m.readText (manifestIn root) = .ok content) ∧ m.HasRoomFor (Key.ofPath dir) ∧
    Key.ofPath (manifestIn dir) ∉ m.plan.write ∧ Key.ofPath (manifestIn dir) ∉ m.dirs

theorem canCopy_iff : CanCopy m root dir ↔ m.HasRoomFor (Key.ofPath dir) ∧
    ∃ content, (m.withDirs (Key.ofPath dir)).readText (manifestIn root) = .ok content ∧
      (m.withDirs (Key.ofPath dir)).HasPlaceFor (Key.ofPath (manifestIn dir)) := by
  rw [CanCopy, ofPath_manifestIn, Memory.hasPlaceFor_withDirs]
  constructor
  · rintro ⟨⟨content, hread⟩, hroom, hplace⟩
    exact ⟨hroom, content, (Memory.readText_withDirs hroom).2 hread, hplace⟩
  · rintro ⟨hroom, content, hread, hplace⟩
    exact ⟨⟨content, (Memory.readText_withDirs hroom).1 hread⟩, hroom, hplace⟩

/-- `after` has the directories of `m`, `dir` and those above it. -/
def GainsDirs (m after : Memory) (dir : Path) : Prop :=
  ∀ key, key ∈ after.dirs ↔ key ∈ m.dirs ∨ key <+: Key.ofPath dir

/-- The manifest of `root` has been copied to `target`, a file in `dir`. -/
structure Copied (m : Memory) (root dir target : Path) (after : Memory) : Prop where
  target_eq : target = manifestIn dir
  /-- The copy and the manifest have the content that the manifest had before, also if they are one file. -/
  content : ∃ content, m.readText (manifestIn root) = .ok content ∧
    after.files.get? (Key.ofPath target) = some content ∧ Key.ofPath target ∉ after.dirs ∧
    after.readText (manifestIn root) = .ok content
  /-- All other files are unchanged. -/
  others : ∀ key, key ≠ Key.ofPath target → after.files.get? key = m.files.get? key
  dirs : GainsDirs m after dir

/-- What comes of copying the manifest of `root` into `dir`: where it has gone, if it has, and the memory behind. -/
structure Copies (m : Memory) (root dir : Path) (result : Option Path) (after : Memory) : Prop where
  isSome_iff : result.isSome ↔ CanCopy m root dir
  copied : ∀ target, result = some target → Copied m root dir target after
  /-- If it fails, no file is other than before, and directories were made completely or not at all. -/
  failed : result = none → after.files = m.files ∧ (after.dirs = m.dirs ∨ GainsDirs m after dir)
  /-- Without a manifest nothing happens. -/
  noManifest : m.isThere (manifestIn root) = false → result = none ∧ after = m
  plan : after.plan = m.plan

theorem isThere_of_readText (h : m.readText p = .ok content) : m.isThere p = true := by
  rw [Memory.isThere, Bool.or_eq_true]
  exact .inl (OrderedMap.contains_iff.2 (Memory.mem_keys_of_get? (Memory.readText_eq_ok_iff.1 h).2.2))

/-- Nothing is copied, and at most directories have been made. -/
theorem Copies.of_failure (hnot : ¬ CanCopy m root dir) (hfiles : after.files = m.files)
    (hdirs : after.dirs = m.dirs ∨ GainsDirs m after dir) (hplan : after.plan = m.plan)
    (hthere : m.isThere (manifestIn root) = true ∨ after = m) : Copies m root dir none after where
  isSome_iff := ⟨fun h => (nomatch h), fun h => absurd h hnot⟩
  copied _ h := nomatch h
  failed _ := ⟨hfiles, hdirs⟩
  noManifest h := ⟨rfl, hthere.resolve_left (by simp [h])⟩
  plan := hplan

theorem copies_of_copiesInto {ended : Except Fault Nat × Memory} (hthere : m.isThere (manifestIn root) = true)
    (hends : CopiesInto m (manifestIn root) dir (manifestIn dir) ended) :
    Copies m root dir (ended.1.toOption.map fun _ => manifestIn dir) ended.2 := by
  cases hends with
  | noRoom hroom => exact .of_failure (fun h => hroom (canCopy_iff.1 h).1) rfl (.inl rfl) rfl (.inl hthere)
  | notCopied hroom hcopy =>
    exact .of_failure (fun h => hcopy (canCopy_iff.1 h).2) rfl (.inr fun _ => Memory.mem_withDirs) rfl (.inl hthere)
  | @copied content hroom hread hplace =>
    refine ⟨⟨fun _ => canCopy_iff.2 ⟨hroom, content, hread, hplace⟩, fun _ => rfl⟩, ?_, fun h => (nomatch h),
      fun h => ?_, rfl⟩
    · rintro target ⟨⟩
      refine ⟨rfl, ⟨content, (Memory.readText_withDirs hroom).1 hread, ?_, hplace.2.1,
        Memory.readText_withFile hread⟩, fun key hkey => ?_, fun _ => Memory.mem_withDirs⟩
      · exact OrderedMap.get?_insert.trans (if_pos rfl)
      · exact OrderedMap.get?_insert.trans (if_neg hkey)
    · rw [hthere] at h
      cases h

/-- Copying the manifest changes no other file, whatever fails on the way and wherever the directory is. -/
theorem copies_copy (m : Memory) (root dir : Path) :
    Copies m root dir (copy m root dir).value.1 (copy m root dir).value.2 := by
  rw [value_copy, join_fileName, join_fileName]
  split_ifs with hthere
  · exact copies_of_copiesInto hthere (copiesInto_copyInto m (manifestIn root) dir (manifestIn dir))
  · refine .of_failure ?_ rfl (.inl rfl) rfl (.inr rfl)
    rintro ⟨⟨content, hread⟩, -⟩
    exact hthere (isThere_of_readText hread)

end Manifest

end AppsScript
