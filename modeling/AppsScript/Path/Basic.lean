import AppsScript.Text.Basic

/-!
# Paths

A path keeps the spelling it was given (`Path.text`), which is what messages show. Its meaning is the
list of its components, in which repeated and trailing slashes do not occur, nor any `.` but a leading
one. `Path.normalize` resolves `..` by the names alone, without looking at a file system.
-/

namespace AppsScript

/-- A path as it is spelled. -/
structure Path where
  text : Text
deriving DecidableEq

/-- A step of a path. -/
inductive Component
  | root
  | current
  | parent
  | normal (name : Text)
deriving DecidableEq

namespace Component

/-- The spelling of a component; the root is what makes a path start with a slash. -/
def text : Component → Text
  | root => []
  | current => "."
  | parent => ".."
  | normal name => name

/-- The component that a segment between slashes stands for. Empty segments and `.` stand for none. -/
def ofSegment? (segment : Text) : Option Component :=
  if segment = [] ∨ segment = "." then none
  else if segment = ".." then some parent
  else some (normal segment)

def name? : Component → Option Text
  | normal name => some name
  | _ => none

def rank : Component → Nat
  | root => 0
  | current => 1
  | parent => 2
  | normal _ => 3

/-- The order of components: by kind, names alphabetically. -/
def compare (a b : Component) : Ordering :=
  (Ord.compare a.rank b.rank).then (Text.compare a.text b.text)

/-- Takes one more step from where `stack`, the last step first, leads to. -/
def push (stack : List Component) : Component → List Component
  | current => stack
  | parent =>
    match stack with
    | normal _ :: rest => rest
    | root :: _ => stack
    | _ => parent :: stack
  | c => c :: stack

/-- The steps with every `.` dropped and every `..` resolved by the names. -/
def resolve (steps : List Component) : List Component := (steps.foldl push []).reverse

/-- The order of lists of components: by the first difference, a shorter list before a longer one. -/
def compareAll : List Component → List Component → Ordering
  | [], [] => .eq
  | [], _ :: _ => .lt
  | _ :: _, [] => .gt
  | a :: as, b :: bs => (compare a b).then (compareAll as bs)

end Component

namespace Path

instance : Coe String Path := ⟨fun s => ⟨s⟩⟩

def isAbsolute (p : Path) : Bool := p.text.head? == some '/'

def segments (p : Path) : List Text := Text.pieces (· == '/') p.text

/-- The component that the first segment stands for. -/
def firstComponent? (p : Path) (segment : Text) : Option Component :=
  if p.isAbsolute then some .root
  else if segment = "." then some .current
  else Component.ofSegment? segment

def components (p : Path) : List Component :=
  match p.segments with
  | [] => []
  | first :: body => (p.firstComponent? first).toList ++ body.filterMap Component.ofSegment?

/-- The plainest spelling of the given steps. -/
def ofComponents : List Component → Path
  | .root :: steps => ⟨'/' :: Text.joinWith "/" (steps.map Component.text)⟩
  | steps => ⟨Text.joinWith "/" (steps.map Component.text)⟩

/-- The path without `.` and, as far as names allow, `..`: an absolute path keeps none, a relative one
those at its start that lead out of where it starts. -/
def normalize (p : Path) : Path := ofComponents (Component.resolve p.components)

/-- The path `q` as seen from `p`; an absolute `q` is the same from everywhere. -/
def join (p q : Path) : Path :=
  if q.isAbsolute then q
  else if p.text = [] ∨ p.text.getLast? = some '/' then ⟨p.text ++ q.text⟩
  else ⟨p.text ++ '/' :: q.text⟩

/-- Whether a segment behind the first stands for no component. -/
def isSilent (segment : Text) : Bool := (Component.ofSegment? segment).isNone

/-- The segments without silent ones at the end. -/
def dropSilentEnd (segments : List Text) : List Text :=
  (segments.reverse.dropWhile isSilent).reverse

/-- The segments behind the first `n` that stand for components. -/
def dropComponents : (n : Nat) → List Text → List Text
  | 0, segments => segments.dropWhile isSilent
  | _ + 1, [] => []
  | n + 1, segment :: segments =>
    if isSilent segment then dropComponents (n + 1) segments else dropComponents n segments

/-- The path without trailing slashes and `.` segments. -/
def dropTrailing (p : Path) : Path :=
  match p.segments with
  | [] => p
  | first :: body =>
    let rest := dropSilentEnd body
    if p.isAbsolute && rest.isEmpty then "/" else ⟨Text.joinWith "/" (first :: rest)⟩

/-- The rest of `p` behind `base`, as `p` spells it, if `p` starts with the components of `base`. -/
def relativeTo? (p base : Path) : Option Path :=
  let steps := base.components
  if !steps.isPrefixOf p.components then none
  else
    match steps.length with
    | 0 => some p.dropTrailing
    | n + 1 => some ⟨Text.joinWith "/" (dropSilentEnd (dropComponents n (p.segments.drop 1)))⟩

/-- The rest of `p` behind `base`, or `p` if it does not lie there. -/
def shownFrom (p base : Path) : Path := (p.relativeTo? base).getD p

/-- The path without its last component, if that is not the root. -/
def parent? (p : Path) : Option Path :=
  match p.components.reverse with
  | [] | .root :: _ => none
  | _ =>
    match (dropSilentEnd p.segments).reverse with
    | _ :: rest =>
      let before := dropTrailing ⟨Text.joinWith "/" rest.reverse⟩
      some (if p.isAbsolute && before.text.isEmpty then "/" else before)
    | [] => some ""

/-- The name of the file or directory that the path ends with. -/
def fileName? (p : Path) : Option Text := p.components.getLast?.bind Component.name?

/-- A file name cut at its last dot, unless the name starts there. -/
def splitName (name : Text) : Text × Option Text :=
  let ending := (name.reverse.takeWhile (· != '.')).reverse
  match name.reverse.dropWhile (· != '.') with
  | [] | ['.'] => (name, none)
  | _ :: stem => (stem.reverse, some ending)

/-- The file name without its extension. -/
def fileStem? (p : Path) : Option Text := p.fileName?.map fun name => (splitName name).1

/-- The part of the file name behind its last dot. -/
def extension? (p : Path) : Option Text := p.fileName?.bind fun name => (splitName name).2

/-- The order of paths: component by component. -/
def compare (p q : Path) : Ordering := Component.compareAll p.components q.components

/-- `p` lies not behind `q`. -/
def le (p q : Path) : Bool := (compare p q).isLE

end Path

end AppsScript
