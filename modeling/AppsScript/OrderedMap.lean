/-!
# Maps in insertion order

A map as the list of its pairs: a new key goes to the end, a key that is there already keeps its
position. No key occurs twice (`nodup_keys`).
-/

namespace AppsScript

/-- Pairs of a key and a value, each key once, in the order in which the keys were added. -/
structure OrderedMap (α β : Type) where
  toList : List (α × β)
  nodup_keys : (toList.map Prod.fst).Nodup
deriving DecidableEq

namespace OrderedMap

variable {α β γ : Type}

def keys (m : OrderedMap α β) : List α := m.toList.map Prod.fst

def values (m : OrderedMap α β) : List β := m.toList.map Prod.snd

def size (m : OrderedMap α β) : Nat := m.toList.length

def isEmpty (m : OrderedMap α β) : Bool := m.toList.isEmpty

def empty : OrderedMap α β := ⟨[], by simp⟩

instance : Inhabited (OrderedMap α β) := ⟨empty⟩

def mapValues (f : α → β → γ) (m : OrderedMap α β) : OrderedMap α γ where
  toList := m.toList.map fun p => (p.1, f p.1 p.2)
  nodup_keys := by
    have h := m.nodup_keys
    rw [List.map_map]
    exact h

@[simp] theorem keys_mapValues (f : α → β → γ) (m : OrderedMap α β) :
    (m.mapValues f).keys = m.keys := by
  simp [keys, mapValues]

variable [DecidableEq α]

def contains (m : OrderedMap α β) (k : α) : Bool := m.keys.contains k

def get? (m : OrderedMap α β) (k : α) : Option β :=
  (m.toList.find? fun p => p.1 == k).map Prod.snd

/-- Adds a key that is not there at the end; the value of a key that is there stays. -/
def insertNew (m : OrderedMap α β) (k : α) (v : β) : OrderedMap α β :=
  if h : k ∈ m.keys then m
  else
    { toList := m.toList ++ [(k, v)]
      nodup_keys := by
        rw [List.map_append, List.nodup_append]
        refine ⟨m.nodup_keys, by simp, fun a ha b hb => ?_⟩
        rw [List.map_singleton, List.mem_singleton] at hb
        rintro rfl
        subst hb
        exact h ha }

/-- Gives a key its value; a new key is added at the end. -/
def insert (m : OrderedMap α β) (k : α) (v : β) : OrderedMap α β :=
  if k ∈ m.keys then m.mapValues fun a b => if a = k then v else b else m.insertNew k v

/-- The map after its pairs have been inserted one by one. -/
def ofList (pairs : List (α × β)) : OrderedMap α β :=
  pairs.foldl (fun m p => m.insert p.1 p.2) empty

/-- `m`, then the keys of `n` that `m` lacks. -/
def addMissing (m n : OrderedMap α β) : OrderedMap α β :=
  n.toList.foldl (fun m p => m.insertNew p.1 p.2) m

theorem contains_iff {m : OrderedMap α β} {k : α} : m.contains k = true ↔ k ∈ m.keys := List.contains_iff_mem

theorem keys_insertNew (m : OrderedMap α β) (k : α) (v : β) :
    (m.insertNew k v).keys = if k ∈ m.keys then m.keys else m.keys ++ [k] := by
  by_cases h : k ∈ m.keys <;> simp [insertNew, h]
  simp [keys]

theorem keys_insert (m : OrderedMap α β) (k : α) (v : β) :
    (m.insert k v).keys = if k ∈ m.keys then m.keys else m.keys ++ [k] := by
  by_cases h : k ∈ m.keys <;> simp [insert, h, keys_insertNew]

end OrderedMap

end AppsScript
