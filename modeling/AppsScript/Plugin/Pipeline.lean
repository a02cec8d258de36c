import AppsScript.Plugin.Basic

/-!
# Plugin pipelines

The plugins of a build in the order in which they run. A plugin that fails at a stage does not keep the
others from running, except where the code of a module goes through all of them.
-/

namespace AppsScript

/-- Plugins in the order in which they run. -/
structure Pipeline (σ : Type) where
  plugins : List (Plugin σ)

namespace Pipeline

variable {σ S : Type}

/-- The pipeline of the given plugins: early ones first, late ones last, those of the same order as they
are given. -/
def ofPlugins (plugins : List (Plugin σ)) : Pipeline σ :=
  ⟨plugins.mergeSort fun p q => p.order.rank ≤ q.order.rank⟩

def names (pipeline : Pipeline σ) : List Text := pipeline.plugins.map Plugin.name

/-- What is said of a plugin that fails at a stage. -/
def context (plugin : Plugin σ) (stage : Stage) : Text :=
  Text.concat ["plugin `", plugin.name, "` failed in `", stage.name, "`"]

/-- Runs a hook of every plugin, each on the state that its predecessor has left. The result is the last
state and every failure. -/
def runAll (stage : Stage) (hook : Plugin σ → Hook S) : List (Plugin σ) → S → Logged (S × List Failure)
  | [], s => pure (s, [])
  | plugin :: plugins, s => do
    let (s, failure?) ← hook plugin s
    let (s, failures) ← runAll stage hook plugins s
    return (s, (failure?.map (Failure.within (context plugin stage))).toList ++ failures)

/-- Lets the plugins change the configuration. -/
def config (pipeline : Pipeline σ) (fs : σ) : Config → Logged (Config × List Failure) :=
  runAll .config (fun plugin => plugin.config fs) pipeline.plugins

/-- Lets the plugins change the bundle. -/
def generateBundle (pipeline : Pipeline σ) : Bundle → Logged (Bundle × List Failure) :=
  runAll .generateBundle Plugin.generateBundle pipeline.plugins

/-- Tells the plugins that the bundle has been written. -/
def writeBundle (pipeline : Pipeline σ) (written : Written) : σ → Logged (σ × List Failure) :=
  runAll .writeBundle (fun plugin => plugin.writeBundle written) pipeline.plugins

/-- The code of a module after the given plugins, up to the first failure. -/
def transformFrom (id : Text) : List (Plugin σ) → (code : Text) → Except Failure Text
  | [], code => .ok code
  | plugin :: plugins, code =>
    match plugin.transform id code with
    | .ok new => transformFrom id plugins (new.getD code)
    | .error failure =>
      .error (failure.within (Text.concat [context plugin .transform, " for ", id]))

/-- The code of a module after all plugins. -/
def transform (pipeline : Pipeline σ) (id code : Text) : Except Failure Text :=
  transformFrom id pipeline.plugins code

end Pipeline

end AppsScript
