import AppsScript.Build.Bundle
import AppsScript.Build.Failure
import AppsScript.Config.Basic
import AppsScript.Log

/-!
# Plugins

A plugin takes part in a build at four stages. Its hooks change the configuration, the code of a module,
the bundle or the place where the bundle has been written to; each may fail.
-/

namespace AppsScript

/-- When a plugin runs, as compared with others. -/
inductive Order
  | early
  | unordered
  | late
deriving DecidableEq, Repr

/-- The position of plugins of the given order. -/
def Order.rank : Order → Nat
  | early => 0
  | unordered => 1
  | late => 2

/-- The stages of a build that plugins take part in. -/
inductive Stage
  | config
  | transform
  | generateBundle
  | writeBundle
deriving DecidableEq, Repr

def Stage.name : Stage → Text
  | config => "config"
  | transform => "transform"
  | generateBundle => "generate_bundle"
  | writeBundle => "write_bundle"

/-- What a hook makes of a state, and why it failed if it did. -/
abbrev Hook (S : Type) := S → Logged (S × Option Failure)

def Hook.idle {S : Type} : Hook S := fun s => pure (s, none)

/-- What is known when a bundle has been written. -/
structure Written where
  /-- The root of the project. -/
  cwd : Path
  /-- The directory that the bundle has been written to. -/
  dir : Path
  bundle : Bundle

/-- A plugin for builds in file systems with states of type `σ`. -/
structure Plugin (σ : Type) where
  name : Text
  order : Order := .unordered
  /-- Runs once before the build. -/
  config : σ → Hook Config := fun _ => .idle
  /-- The new code of a module, or none if it stays as it is. -/
  transform : (id code : Text) → Except Failure (Option Text) := fun _ _ => .ok none
  /-- Runs once before anything is written. -/
  generateBundle : Hook Bundle := .idle
  /-- Runs once after everything has been written. -/
  writeBundle : Written → Hook σ := fun _ => .idle

end AppsScript
