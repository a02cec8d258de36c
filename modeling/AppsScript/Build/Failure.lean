import AppsScript.Text.Basic

/-!
# Failures of a build

A failure is told from the outside in: what was being done, then what went wrong there. A build may have
several.
-/

namespace AppsScript

/-- Why something failed: the outermost reason first, the root cause last. -/
structure Failure where
  reasons : List Text
deriving DecidableEq

namespace Failure

instance : Coe String Failure := ⟨fun s => ⟨[s]⟩⟩

/-- The failure as seen by one who was doing `context`. -/
def within (context : Text) (failure : Failure) : Failure := ⟨context :: failure.reasons⟩

def text (failure : Failure) : Text := Text.joinWith ": " failure.reasons

def textOfAll (failures : List Failure) : Text := Text.joinWith "\n" (failures.map text)

def alone (failure : Failure) : List Failure := [failure]

def result {α : Type} (failures : List Failure) (a : α) : Except (List Failure) α :=
  if failures.isEmpty then .ok a else .error failures

end Failure

end AppsScript
