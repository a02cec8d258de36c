import AppsScript.Path.Basic

/-!
# Keys

A key is the list of names that lead to a file or directory from the root, without detours.
-/

namespace AppsScript

/-- The names that lead to a file or directory from the root. -/
abbrev Key := List Text

namespace Key

/-- Where a path leads, by its names alone; a relative one starts at the root, above which nothing
leads. -/
def ofPath (p : Path) : Key :=
  (p.segments.foldl (fun key segment =>
    if segment = [] ∨ segment = "." then key
    else if segment = ".." then key.drop 1
    else segment :: key) []).reverse

/-- The spelling of a key as an absolute path. -/
def text (key : Key) : Text := '/' :: Text.joinWith "/" key

/-- Every key on the way to a key, the root first and the key itself last. -/
def onTheWay : Key → List Key
  | [] => [[]]
  | name :: key => [] :: (onTheWay key).map (name :: ·)

/-- The names that lead on from `dir` to a key below it. -/
def below? : (dir key : Key) → Option Key
  | [], [] => none
  | [], key => some key
  | _ :: _, [] => none
  | a :: dir, b :: key => if a = b then below? dir key else none

end Key

end AppsScript
