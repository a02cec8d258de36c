import AppsScript.OrderedMap
import AppsScript.Text.Basic

/-!
# The output of a build

A bundle has its outputs in the order in which the build made them, each under a key.
-/

namespace AppsScript

/-- A file that a build puts out. -/
inductive Output
  /-- Code that runs. -/
  | chunk (name fileName code : Text)
  /-- Anything else. -/
  | asset (fileName content : Text)
deriving DecidableEq

namespace Output

def fileName : Output → Text
  | chunk _ fileName _ => fileName
  | asset fileName _ => fileName

def content : Output → Text
  | chunk _ _ code => code
  | asset _ content => content

def isChunk : Output → Bool
  | chunk .. => true
  | asset .. => false

/-- The output with other code, if it is code. -/
def mapCode (f : Text → Text) : Output → Output
  | chunk name fileName code => chunk name fileName (f code)
  | asset fileName content => asset fileName content

end Output

/-- The outputs of a build by key. -/
abbrev Bundle := OrderedMap Text Output

end AppsScript
