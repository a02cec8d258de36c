import AppsScript.FileSystem.Memory
import AppsScript.Proofs.AliasTargets
import AppsScript.Proofs.CommentedJson
import AppsScript.Proofs.OrderedMaps
import Mathlib

/-!
# Aliases with a wildcard

Two entries of a project file can stand for one alias: that with a wildcard and that with the bare name. If both
have a target, the one that is written last counts (`Alias.wildcard_ofProjectFile`): a bare entry overrules a
wildcard in front of it, and is overruled by one behind it.
-/

namespace AppsScript

namespace Alias

open Json OrderedMap

variable {name pattern t : Text} {file : ProjectFile}

/-- The pattern for everything in the directory that an alias stands for. -/
def wildcard (name : Text) : Text := name ++ "/*"

/-- Whether a pattern stands for everything in a directory. -/
def isWildcard (pattern : Text) : Bool := (Text.before? "/*" pattern).isSome

theorem dropEnding_wildcard : Text.dropEnding "/*" (wildcard name) = name := by
  rw [Text.dropEnding, wildcard, Text.before?_eq_some_iff.2 rfl]
  rfl

theorem dropEnding_of_not_isWildcard (h : isWildcard name = false) : Text.dropEnding "/*" name = name := by
  rw [isWildcard, Option.isSome_eq_false_iff, Option.isNone_iff_eq_none] at h
  rw [Text.dropEnding, h]
  rfl

/-- An alias comes from the pattern with a wildcard or from that with the bare name. -/
theorem dropEnding_eq_iff : Text.dropEnding "/*" pattern = name ↔
    pattern = wildcard name ∨ pattern = name ∧ isWildcard name = false := by
  constructor
  · rintro rfl
    cases hbefore : Text.before? "/*" pattern with
    | some rest =>
      rw [Text.dropEnding, hbefore]
      exact .inl (Text.before?_eq_some_iff.1 hbefore)
    | none =>
      rw [Text.dropEnding, isWildcard, hbefore, Option.getD_none, hbefore]
      exact .inr ⟨rfl, rfl⟩
  · rintro (rfl | ⟨rfl, hbare⟩)
    · exact dropEnding_wildcard
    · exact dropEnding_of_not_isWildcard hbare

/-- The target of the alias that an entry declares, if it declares one. -/
def ProjectFile.declared? (file : ProjectFile) (entry : Text × Value) : Option (Text × Text) :=
  (firstTarget? entry.2).map fun t => (Text.dropEnding "/*" entry.1, target (file.baseUrl.getD ".") t)

theorem aliases_eq (file : ProjectFile) : file.aliases = .ofList (file.paths.toList.filterMap file.declared?) := by
  unfold ProjectFile.aliases ProjectFile.declared?
  rw [wildcardEnding_eq]

/-- The target of the entry with the bare name, if that stands behind the one with a wildcard. -/
def ProjectFile.bareTarget? (file : ProjectFile) (name : Text) : Option Text :=
  if isWildcard name then none
  else
    let behind := file.paths.toList.dropWhile fun entry => entry.1 != wildcard name
    (behind.find? fun entry => entry.1 == name).bind fun entry => firstTarget? entry.2

variable {before after : List (Text × Value)} {entry : Text × Value} {p : Text × Text}

theorem name_ne_append : name ≠ wildcard name := fun h => by
  have hlength := congrArg List.length h
  simp [wildcard] at hlength

/-- Apart from the two entries that stand for an alias, those without a target declare none. -/
theorem ne_of_declared? (hp : file.declared? entry = some p) (hwild : entry.1 ≠ wildcard name)
    (hbare : entry.1 = name → isWildcard name = true ∨ firstTarget? entry.2 = none) :
    p.1 ≠ name := by
  obtain ⟨t, ht, rfl⟩ := Option.map_eq_some_iff.1 hp
  rw [Ne, dropEnding_eq_iff]
  rintro (h | ⟨h, hname⟩)
  · exact hwild h
  · rcases hbare h with hsome | hnone
    · rw [hname] at hsome
      cases hsome
    · rw [hnone] at ht
      cases ht

theorem bareTarget?_eq (hpaths : file.paths.toList = before ++ entry :: after)
    (hentry : entry.1 = wildcard name) (hbefore : ∀ e ∈ before, e.1 ≠ wildcard name) :
    file.bareTarget? name = if isWildcard name then none
      else (after.find? fun entry => entry.1 == name).bind fun entry => firstTarget? entry.2 := by
  have hbehind : (file.paths.toList.dropWhile fun e => e.1 != wildcard name) = entry :: after := by
    rw [hpaths, List.dropWhile_append_of_pos (by simpa using hbefore), List.dropWhile_cons_of_neg (by simp [hentry])]
  have hne : (entry.1 == name) = false := by
    rw [hentry, beq_eq_false_iff_ne]
    exact Ne.symm name_ne_append
  rw [ProjectFile.bareTarget?, hbehind]
  simp only [List.find?_cons, hne]

/-- The alias of an entry has its target if no entry behind it declares the same alias. -/
theorem get?_aliases_of_last {t : Text} (hpaths : file.paths.toList = before ++ entry :: after)
    (hname : Text.dropEnding "/*" entry.1 = name) (ht : firstTarget? entry.2 = some t)
    (hafter : ∀ e ∈ after, ∀ p, file.declared? e = some p → p.1 ≠ name) :
    file.aliases.get? name = some (target (file.baseUrl.getD ".") t) := by
  have hentry : file.declared? entry = some (name, target (file.baseUrl.getD ".") t) := by
    rw [ProjectFile.declared?, ht, ← hname]
    rfl
  rw [aliases_eq, hpaths, List.filterMap_append, List.filterMap_cons_some hentry]
  refine get?_ofList fun p hp => ?_
  obtain ⟨e, he, hp⟩ := List.mem_filterMap.1 hp
  exact hafter e he p hp

theorem get?_aliases {values : List Value}
    (hentry : file.paths.get? (wildcard name) = some (.array (.text t :: values))) :
    file.aliases.get? name = some (target (file.baseUrl.getD ".") ((file.bareTarget? name).getD t)) := by
  obtain ⟨before, after, hpaths, hbefore⟩ := exists_split hentry
  have hafter := ne_of_split hpaths
  -- as long as the bare name behind the wildcard declares nothing, the target of the wildcard stays
  have hkept (hbare : ∀ e ∈ after, e.1 = name →
      isWildcard name = true ∨ firstTarget? e.2 = none) :
      file.aliases.get? name = some (target (file.baseUrl.getD ".") t) :=
    get?_aliases_of_last hpaths dropEnding_wildcard rfl fun e he p hp =>
      ne_of_declared? hp (hafter e he) (hbare e he)
  rw [bareTarget?_eq hpaths rfl hbefore]
  split_ifs with hname
  · exact hkept fun _ _ _ => .inl hname
  cases hfind : after.find? fun entry => entry.1 == name with
  | none =>
    refine hkept fun e he hkey => ?_
    exact absurd (beq_iff_eq.2 hkey) (List.find?_eq_none.1 hfind e he)
  | some bare =>
    obtain ⟨hkey, between, behind, hsplit, hbetween⟩ := List.find?_eq_some_iff_append.1 hfind
    replace hkey : bare.1 = name := beq_iff_eq.1 hkey
    rw [hsplit, ← List.cons_append, ← List.append_assoc] at hpaths
    have hbehind := ne_of_split hpaths
    rw [Option.bind_some]
    cases ht : firstTarget? bare.2 with
    | none =>
      refine hkept fun e he hname => .inr ?_
      rw [hsplit, List.mem_append, List.mem_cons] at he
      rcases he with he | rfl | he
      · exact absurd (beq_iff_eq.2 hname) (by simpa using hbetween e he)
      · exact ht
      · exact absurd (hname.trans hkey.symm) (hbehind e he)
    | some t' =>
      have hbare : Text.dropEnding "/*" bare.1 = name :=
        dropEnding_eq_iff.2 (.inr ⟨hkey, by simpa using hname⟩)
      refine get?_aliases_of_last hpaths hbare ht fun e he p hp => ?_
      have hne := hbehind e he
      exact ne_of_declared? hp (hafter e (by simp [hsplit, he])) fun hname => absurd (hname.trans hkey.symm) hne

variable {σ : Type} [FileSystem σ] {fs : σ} {root : Path} {content : Text}

/-- Whatever else a project file has, a wildcard entry has its alias. The target is that of the entry, unless an
entry with the bare name behind it has one that leads elsewhere. -/
theorem wildcard_ofProjectFile {values : List Value}
    (hread : FileSystem.readText fs (root.join "tsconfig.json") = .ok content)
    (hfile : ProjectFile.read? content = some file)
    (hentry : file.paths.get? (wildcard name) = some (.array (.text t :: values))) :
    (ofProjectFile fs root).value.get? name =
      some (target (file.baseUrl.getD ".") ((file.bareTarget? name).getD t)) ∧
    ((ofProjectFile fs root).value.get? name = some (target (file.baseUrl.getD ".") t) ↔
      ∀ bare, file.bareTarget? name = some bare →
        target (file.baseUrl.getD ".") bare = target (file.baseUrl.getD ".") t) := by
  have hvalue : (ofProjectFile fs root).value = file.aliases := by
    rw [value_ofProjectFile hread, hfile]
    rfl
  rw [hvalue, get?_aliases hentry]
  refine ⟨rfl, ?_⟩
  cases file.bareTarget? name <;> simp

/-- A project file with aliases of a directory and of a file in it, in either order. -/
def indexedText : Text :=
  Text.concat ["\x7b\"compilerOptions\": \x7b\"paths\": \x7b", "\"~\": [\"src/index.ts\"], \"~/*\": [\"src/*\"], ",
    "\"@/*\": [\"src/*\"], \"@\": [\"src/index.ts\"]", "\x7d\x7d\x7d"]

def indexedFile : ProjectFile where
  paths := .ofList [("~", .array [.text "src/index.ts"]), ("~/*", .array [.text "src/*"]),
    ("@/*", .array [.text "src/*"]), ("@", .array [.text "src/index.ts"])]

/-- A project with this file. -/
def indexed : Memory := .ofContents [(["p", "tsconfig.json"], indexedText)] [] {}

theorem readText_indexed : FileSystem.readText indexed (Path.join "/p" "tsconfig.json") = .ok indexedText := by
  decide +kernel

theorem read?_indexedText : ProjectFile.read? indexedText = some indexedFile := by cbv

/-- Behind the bare name the wildcard has its own target. -/
theorem wildcard_ofProjectFile_indexed :
    indexedFile.paths.get? (wildcard "~") = some (.array [.text "src/*"]) ∧
    (ofProjectFile indexed "/p").value.get? ("~" : Text) = some ("./src" : Text) := by
  have hentry : indexedFile.paths.get? (wildcard "~") = some (.array [.text "src/*"]) := rfl
  have hnone : indexedFile.bareTarget? "~" = none := by decide +kernel
  refine ⟨hentry, ?_⟩
  rw [(wildcard_ofProjectFile readText_indexed read?_indexedText hentry).1, hnone]
  decide +kernel

/-- In front of the bare name it has not. -/
theorem wildcard_overruled :
    FileSystem.readText indexed (Path.join "/p" "tsconfig.json") = .ok indexedText ∧
    ProjectFile.read? indexedText = some indexedFile ∧
    indexedFile.paths.get? (wildcard "@") = some (.array [.text "src/*"]) ∧
    (ofProjectFile indexed "/p").value.get? ("@" : Text) = some ("./src/index.ts" : Text) ∧
    (ofProjectFile indexed "/p").value.get? ("@" : Text) ≠ some (target (indexedFile.baseUrl.getD ".") "src/*") :=
  ⟨readText_indexed, read?_indexedText, rfl, by decide +kernel, by decide +kernel⟩

end Alias

end AppsScript
