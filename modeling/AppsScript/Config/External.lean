import AppsScript.Text.Quoted

/-!
# External modules

Which imported modules stay imports in the output instead of becoming a part of it.
-/

namespace AppsScript

/-- A rule that says which modules are external. -/
inductive External
  /-- Those listed. -/
  | ids (ids : List Text)
  /-- Those with a property. -/
  | property (holds : Text → Bool)

namespace External

def never : External := property fun _ => false

def holds : External → Text → Bool
  | ids listed, id => listed.contains id
  | property p, id => p id

/-- The rule as it is shown; of a property nothing can be told. -/
def shown : External → Text
  | ids listed =>
    Text.concat ["IsExternal::Ids([", Text.joinWith ", " (listed.map Text.quoted), "])"]
  | property _ => "IsExternal::Fn(..)"

@[simp] theorem holds_never (id : Text) : never.holds id = false := rfl

end External

end AppsScript
