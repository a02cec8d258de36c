import AppsScript.Discovery.EntryName
import Mathlib.Data.List.Sort

/-!
# Numbered entry names

`unique` finds the least number that makes a name free (`unique_spec`): among as many numbered names as are
taken and one more, some name is free, because different numbers make different names.
-/

namespace AppsScript.EntryName

variable {taken : List Text} {name : Text} {n : Nat}

def numbered (name : Text) (n : Nat) : Text := Text.concat [name, "_", Text.ofNat n]

theorem numbered_eq (name : Text) (n : Nat) : numbered name n = name ++ '_' :: Text.ofNat n := by
  simp [numbered, Text.concat]

theorem numbered_injective (name : Text) : Function.Injective (numbered name) := by
  intro m n h
  rw [numbered_eq, numbered_eq] at h
  have hdigits := (List.cons.inj (List.append_cancel_left h)).2
  rw [← Nat.ofDigitChars_ten_toDigits (n := m), ← Nat.ofDigitChars_ten_toDigits (n := n)]
  exact congrArg (Nat.ofDigitChars 10 · 0) hdigits

theorem isPlain_iff {c : Char} : isPlain c = true ↔ c.isAlphanum ∨ c = '_' ∨ c = '$' := by
  simp [isPlain, or_assoc]

theorem isPlain_of_mem_numbered {c : Char} (hname : ∀ c ∈ name, isPlain c) (hc : c ∈ numbered name n) :
    isPlain c := by
  rw [numbered_eq] at hc
  rcases List.mem_append.1 hc with hc | hc
  · exact hname c hc
  rcases List.mem_cons.1 hc with rfl | hc
  · decide
  · have hdigit := Nat.isDigit_of_mem_toDigits (by decide) (by decide) hc
    exact isPlain_iff.2 (.inl (by simp [Char.isAlphanum, hdigit]))

/-- Some number up to the count of the taken names makes a name free. -/
theorem exists_numbered_notMem (taken : List Text) (name : Text) :
    ∃ n < taken.length + 1, numbered name (n + 2) ∉ taken := by
  by_contra h
  push Not at h
  have hnodup : ((List.range (taken.length + 1)).map fun n => numbered name (n + 2)).Nodup :=
    List.nodup_range.map fun m n hmn => Nat.add_right_cancel (numbered_injective name hmn)
  have hsub : ((List.range (taken.length + 1)).map fun n => numbered name (n + 2)) ⊆ taken := by
    intro t ht
    obtain ⟨n, hn, rfl⟩ := List.mem_map.1 ht
    exact h n (List.mem_range.1 hn)
  have hlen := hnodup.length_le_of_subset hsub
  rw [List.length_map, List.length_range] at hlen
  omega

theorem unique_spec (taken : List Text) (name : Text) : ∃ n, 2 ≤ n ∧ unique taken name = numbered name n ∧
    numbered name n ∉ taken ∧ ∀ k, 2 ≤ k → k < n → numbered name k ∈ taken := by
  have hunique : unique taken name =
      (((List.range (taken.length + 1)).find? fun n => !taken.contains (numbered name (n + 2))).map
        fun n => numbered name (n + 2)).getD [] := by
    show (((List.range (taken.length + 1)).map fun n => numbered name (n + 2)).find? _).getD [] = _
    rw [List.find?_map]
    rfl
  cases hfind : (List.range (taken.length + 1)).find? fun n => !taken.contains (numbered name (n + 2)) with
  | none =>
    obtain ⟨n, hn, hfree⟩ := exists_numbered_notMem taken name
    rw [List.find?_eq_none] at hfind
    have := hfind n (List.mem_range.2 hn)
    simp [hfree] at this
  | some n =>
    rw [hfind] at hunique
    rw [List.find?_range_eq_some] at hfind
    obtain ⟨hfree, -, hleast⟩ := hfind
    refine ⟨n + 2, by omega, hunique, by simpa using hfree, fun k hk hkn => ?_⟩
    obtain ⟨j, rfl⟩ := Nat.exists_eq_add_of_le' hk
    simpa using hleast j (by omega)

end AppsScript.EntryName
