import AppsScript.Path.Basic

/-!
# Entry names

An entry is named after the path of its source file relative to a base directory. The name is a file
name and a key, so it consists of ASCII letters, digits, `_` and `$` only.
-/

namespace AppsScript.EntryName

def isPlain (c : Char) : Bool := c.isAlphanum || c == '_' || c == '$'

/-- The name with `_` in place of every other character. -/
def sanitize (name : Text) : Text := name.map fun c => if isPlain c then c else '_'

/-- The components without those at the start that two lists have in common. -/
def dropCommon : (steps base : List Component) → List Component
  | a :: steps, b :: base => if a = b then dropCommon steps base else a :: steps
  | steps, _ => steps

/-- The name for steps from the base directory: the directories and the file without its extension,
joined by `_`. -/
def ofSteps (steps : List Component) : Text :=
  let stem := match steps.getLast? with
    | some (.normal name) => (Path.splitName name).1
    | _ => []
  sanitize (Text.joinWith "_" (steps.dropLast.filterMap Component.name? ++ [stem]))

def ofPath (path base : Path) : Text := ofSteps (dropCommon path.components base.components)

/-- The first of `name_2`, `name_3` and so on that is not taken; among as many names as are taken and
one more there is one. -/
def unique (taken : List Text) (name : Text) : Text :=
  let numbered (n : Nat) : Text := Text.concat [name, "_", Text.ofNat (n + 2)]
  (((List.range (taken.length + 1)).map numbered).find? fun t => !taken.contains t).getD []

theorem isPlain_of_mem_sanitize {c : Char} {name : Text} (h : c ∈ sanitize name) :
    isPlain c = true := by
  obtain ⟨d, _, rfl⟩ := List.mem_map.mp h
  by_cases hd : isPlain d
  · simp [hd]
  · rw [if_neg hd]
    rfl

end AppsScript.EntryName
