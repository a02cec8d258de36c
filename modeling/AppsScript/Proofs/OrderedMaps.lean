import AppsScript.OrderedMap
import Mathlib.Data.List.Dedup
import Mathlib.Data.List.Induction
import Mathlib.Tactic.SplitIfs

/-!
# Keys and what they stand for

The keys of an ordered map are those that were inserted (`OrderedMap.mem_keys_ofList`). What a key stands for
is what it has been given last (`OrderedMap.get?_insert`, `OrderedMap.get?_ofList`), whereas its position is
that of the first time.
-/

namespace AppsScript

namespace OrderedMap

variable {α β γ : Type} [DecidableEq α] {m : OrderedMap α β} {k k' : α} {v : β} {p : α × β}
  {before after pairs : List (α × β)}

omit [DecidableEq α] in
theorem isEmpty_iff : m.isEmpty = true ↔ m.values = [] := by
  rw [isEmpty, List.isEmpty_iff, values, List.map_eq_nil_iff]

theorem toList_insert_of_notMem (h : k ∉ m.keys) : (m.insert k v).toList = m.toList ++ [(k, v)] := by
  rw [insert, if_neg h, insertNew, dif_neg h]

theorem mem_keys_ofList {pairs : List (α × β)} : k ∈ (ofList pairs).keys ↔ k ∈ pairs.map Prod.fst := by
  have hfold (m : OrderedMap α β) : k ∈ (pairs.foldl (fun m p => m.insert p.1 p.2) m).keys ↔
      k ∈ m.keys ∨ k ∈ pairs.map Prod.fst := by
    induction pairs generalizing m with
    | nil => simp
    | cons e pairs ih =>
      rw [List.foldl_cons, ih, keys_insert, List.map_cons, List.mem_cons]
      split_ifs with hkey
      · rw [← or_assoc]
        exact or_congr_left (or_iff_left_of_imp fun h => h ▸ hkey).symm
      · rw [List.mem_append, List.mem_singleton, or_assoc]
  rw [ofList, hfold]
  simp [keys, empty]

theorem get?_mapValues (f : α → β → γ) : (m.mapValues f).get? k = (m.get? k).map (f k) := by
  rw [get?, get?, mapValues, List.find?_map, Option.map_map, Option.map_map]
  refine Option.map_congr fun p hp => ?_
  have hkey : p.1 = k := by simpa using List.find?_some hp
  rw [← hkey]
  rfl

theorem get?_eq_none (h : k ∉ m.keys) : m.get? k = none := by
  have hfind : m.toList.find? (fun p => p.1 == k) = none :=
    List.find?_eq_none.2 fun p hp hkey => h (beq_iff_eq.1 hkey ▸ List.mem_map_of_mem hp)
  rw [get?, hfind]
  rfl

theorem get?_insertNew (h : k ∉ m.keys) :
    (m.insertNew k v).get? k' = if k' = k then some v else m.get? k' := by
  rw [get?, insertNew, dif_neg h, List.find?_append, Option.map_or, ← get?]
  by_cases hk : k' = k
  · rw [get?_eq_none (hk ▸ h), Option.none_or, if_pos hk]
    simp [hk]
  · rw [if_neg hk]
    simp [Ne.symm hk]

theorem get?_insert : (m.insert k v).get? k' = if k' = k then some v else m.get? k' := by
  by_cases h : k ∈ m.keys
  · rw [insert, if_pos h, get?_mapValues]
    split_ifs with hk
    · subst hk
      obtain ⟨p, hp, hkey⟩ := List.mem_map.1 h
      rw [get?, Option.map_map]
      cases hfind : m.toList.find? (fun p => p.1 == k') with
      | none => exact absurd (beq_iff_eq.2 hkey) (List.find?_eq_none.1 hfind p hp)
      | some q => rfl
    · simp
  · rw [insert, if_neg h, get?_insertNew h]

omit [DecidableEq α] in
theorem ne_of_split {p : α × β} (h : m.toList = before ++ p :: after) : ∀ q ∈ after, q.1 ≠ p.1 := by
  have hnodup := m.nodup_keys
  rw [h, List.map_append, List.map_cons] at hnodup
  exact fun q hq hkey => (List.nodup_cons.1 (List.nodup_append.1 hnodup).2.1).1 (hkey ▸ List.mem_map_of_mem hq)

theorem exists_split (h : m.get? k = some v) :
    ∃ before after, m.toList = before ++ (k, v) :: after ∧ ∀ p ∈ before, p.1 ≠ k := by
  obtain ⟨p, hfind, rfl⟩ := Option.map_eq_some_iff.1 h
  obtain ⟨hkey, before, after, hsplit, hbefore⟩ := List.find?_eq_some_iff_append.1 hfind
  obtain rfl := beq_iff_eq.1 hkey
  exact ⟨before, after, hsplit, fun q hq => by simpa using hbefore q hq⟩

/-- Of the values that a key is given the last one counts. -/
theorem get?_ofList (h : ∀ p ∈ after, p.1 ≠ k) : (ofList (before ++ (k, v) :: after)).get? k = some v := by
  rw [ofList, List.foldl_append, List.foldl_cons]
  generalize before.foldl (fun m p => m.insert p.1 p.2) empty = m
  induction after using List.reverseRecOn with
  | nil => rw [List.foldl_nil, get?_insert, if_pos rfl]
  | append_singleton after p ih =>
    rw [List.foldl_append, List.foldl_cons, List.foldl_nil, get?_insert, if_neg (Ne.symm (h p (by simp))),
      ih fun q hq => h q (by simp [hq])]

/-- Pairs are kept one and all exactly if no key is given twice. -/
theorem size_ofList_eq_iff : (ofList pairs).size = pairs.length ↔ (pairs.map Prod.fst).Nodup := by
  have hperm : (ofList pairs).keys.Perm (pairs.map Prod.fst).dedup := by
    refine (List.perm_ext_iff_of_nodup (ofList pairs).nodup_keys (List.nodup_dedup _)).2 fun k => ?_
    rw [List.mem_dedup]
    exact mem_keys_ofList
  have hsize : (ofList pairs).size = (pairs.map Prod.fst).dedup.length := by
    rw [← hperm.length_eq, keys, List.length_map, size]
  have hlength : pairs.length = (pairs.map Prod.fst).length := (List.length_map _).symm
  rw [hsize, hlength]
  constructor
  · intro h
    rw [← (List.dedup_sublist _).eq_of_length h]
    exact List.nodup_dedup _
  · intro h
    rw [List.dedup_eq_self.2 h]

theorem mem_values_of_get? (h : m.get? k = some v) : v ∈ m.values := by
  obtain ⟨front, back, hsplit, -⟩ := exists_split h
  rw [values, hsplit]
  simp

theorem mem_insert (h : p ∈ (m.insert k v).toList) : p ∈ m.toList ∨ p = (k, v) := by
  by_cases hk : k ∈ m.keys
  · rw [insert, if_pos hk, mapValues] at h
    obtain ⟨q, hq, rfl⟩ := List.mem_map.1 h
    split_ifs with hkey
    · exact .inr (Prod.ext hkey rfl)
    · exact .inl hq
  · rw [toList_insert_of_notMem hk, List.mem_append, List.mem_singleton] at h
    exact h

theorem mem_of_mem_ofList (h : p ∈ (ofList pairs).toList) : p ∈ pairs := by
  induction pairs using List.reverseRecOn with
  | nil => simp [ofList, empty] at h
  | append_singleton pairs q ih =>
    rw [ofList, List.foldl_append, List.foldl_cons, List.foldl_nil] at h
    rcases mem_insert h with h | rfl
    · exact List.mem_append_left _ (ih h)
    · exact List.mem_append_right _ (by simp)

theorem toList_foldl_insert (m : OrderedMap α β) (h : ((m.toList ++ pairs).map Prod.fst).Nodup) :
    (pairs.foldl (fun m p => m.insert p.1 p.2) m).toList = m.toList ++ pairs := by
  induction pairs generalizing m with
  | nil => rw [List.foldl_nil, List.append_nil]
  | cons p pairs ih =>
    have hp : p.1 ∉ m.keys := by
      rw [List.map_append, List.map_cons] at h
      exact fun hmem => (List.nodup_append.1 h).2.2 _ hmem _ (List.mem_cons_self ..) rfl
    have hinsert := toList_insert_of_notMem (v := p.2) hp
    rw [List.foldl_cons, ih, hinsert, List.append_assoc]
    · rfl
    · rw [hinsert, List.append_assoc]
      exact h

theorem ofList_toList (m : OrderedMap α β) : ofList m.toList = m := by
  have hlist : (ofList m.toList).toList = m.toList := toList_foldl_insert empty m.nodup_keys
  cases hof : ofList m.toList with
  | mk toList hnodup =>
    rw [hof] at hlist
    subst hlist
    rfl

end OrderedMap

end AppsScript
