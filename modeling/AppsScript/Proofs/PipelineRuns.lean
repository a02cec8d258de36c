import AppsScript.Plugin.Pipeline

/-!
# What a pipeline runs

The plugins of a pipeline are those it was made of, early ones first and late ones last, without a change of
order among equals (`Pipeline.plugins_ofPlugins`). A stage calls the hook of each of them once, on the state
that the one before it has left (`Pipeline.calls`). Failing does not keep a hook from changing that state, nor
those behind it from being called: `Pipeline.Ran` says what a stage comes to, and `Pipeline.ran_runAll` that it
does. Only the code of a module goes no further than the first plugin that fails for it
(`Pipeline.Transformed`, `Pipeline.transformed_transformFrom`).
-/

namespace AppsScript

namespace Failure

variable {α : Type} {failures : List Failure} {a : α}

theorem result_eq_ok_iff : result failures a = .ok a ↔ failures = [] := by
  cases failures <;> simp [result]

theorem result_of_ne_nil (h : failures ≠ []) : result failures a = .error failures := by
  cases failures with
  | nil => exact absurd rfl h
  | cons failure failures => rfl

end Failure

namespace Pipeline

variable {σ S : Type} {plugins : List (Plugin σ)} {name : Text} {hook : Plugin σ → Hook S} {s : S}

/-! ### The order of the plugins -/

/-- The plugins of one order, as they are given. -/
def ofOrder (order : Order) (plugins : List (Plugin σ)) : List (Plugin σ) :=
  plugins.filter fun plugin => plugin.order = order

theorem ofOrder_eq_nil {order : Order} (h : ∀ plugin ∈ plugins, plugin.order ≠ order) :
    ofOrder order plugins = [] :=
  List.filter_eq_nil_iff.2 fun plugin hp => by simpa using h plugin hp

/-- Plugins that do not fall in rank are grouped by their order. -/
theorem eq_groups (h : plugins.Pairwise fun p q => p.order.rank ≤ q.order.rank) :
    plugins = ofOrder .early plugins ++ (ofOrder .unordered plugins ++ ofOrder .late plugins) := by
  induction plugins with
  | nil => rfl
  | cons plugin plugins ih =>
    obtain ⟨hle, h⟩ := List.pairwise_cons.1 h
    have hnil {order : Order} (hlt : order.rank < plugin.order.rank) : ofOrder order plugins = [] :=
      ofOrder_eq_nil fun p hp heq => absurd (hle p hp) (by rw [heq]; omega)
    have hcons (order : Order) : ofOrder order (plugin :: plugins) =
        if plugin.order = order then plugin :: ofOrder order plugins else ofOrder order plugins := by
      simp [ofOrder, List.filter_cons]
    have hgroups := ih h
    cases horder : plugin.order with
    | early => simpa [hcons, horder] using hgroups
    | unordered =>
      have hearly : ofOrder .early plugins = [] := hnil (by simp [horder, Order.rank])
      simpa [hcons, horder, hearly] using hgroups
    | late =>
      have hearly : ofOrder .early plugins = [] := hnil (by simp [horder, Order.rank])
      have hunordered : ofOrder .unordered plugins = [] := hnil (by simp [horder, Order.rank])
      simpa [hcons, horder, hearly, hunordered] using hgroups

/-- Sorting keeps the order among plugins of equal rank. -/
theorem ofOrder_ofPlugins (order : Order) (plugins : List (Plugin σ)) :
    ofOrder order (ofPlugins plugins).plugins = ofOrder order plugins := by
  have hpairwise : (ofOrder order plugins).Pairwise fun p q => decide (p.order.rank ≤ q.order.rank) = true := by
    refine List.pairwise_of_forall_mem_list fun p hp q hq => ?_
    have hp : p.order = order := by simpa using (List.mem_filter.1 hp).2
    have hq : q.order = order := by simpa using (List.mem_filter.1 hq).2
    simp [hp, hq]
  have hsub : (ofOrder order plugins).Sublist (ofPlugins plugins).plugins :=
    List.sublist_mergeSort (fun _ _ _ hab hbc => by simp at *; omega) (fun _ _ => by simp; omega) hpairwise
      List.filter_sublist
  have hsub' : (ofOrder order plugins).Sublist (ofOrder order (ofPlugins plugins).plugins) := by
    simpa [ofOrder, List.filter_filter] using hsub.filter fun plugin => plugin.order = order
  refine (hsub'.eq_of_length ?_).symm
  exact ((List.mergeSort_perm plugins _).filter _).length_eq.symm

theorem plugins_ofPlugins (plugins : List (Plugin σ)) : (ofPlugins plugins).plugins =
    ofOrder .early plugins ++ (ofOrder .unordered plugins ++ ofOrder .late plugins) := by
  have hsorted : (ofPlugins plugins).plugins.Pairwise fun p q => decide (p.order.rank ≤ q.order.rank) = true :=
    List.pairwise_mergeSort (fun _ _ _ hab hbc => by simp at *; omega) (fun _ _ => by simp; omega) plugins
  rw [eq_groups (hsorted.imp fun h => by simpa using h), ofOrder_ofPlugins, ofOrder_ofPlugins, ofOrder_ofPlugins]

/-! ### A stage -/

/-- The calls of a stage: each plugin with the state that its hook is called on. -/
def calls (hook : Plugin σ → Hook S) : List (Plugin σ) → S → List (Plugin σ × S)
  | [], _ => []
  | plugin :: plugins, s => (plugin, s) :: calls hook plugins (hook plugin s).value.1

/-- The state that hooks leave which are called one after another. -/
def left (hook : Plugin σ → Hook S) (plugins : List (Plugin σ)) (s : S) : S :=
  plugins.foldl (fun s plugin => (hook plugin s).value.1) s

/-- What is reported of a plugin whose hook of the given name fails: that it did, then the plugin's own reasons. -/
def hookFailure (name : Text) (plugin : Plugin σ) (failure : Failure) : Failure :=
  ⟨Text.concat ["plugin `", plugin.name, "` failed in `", name, "`"] :: failure.reasons⟩

/-- What a call fails with, as the pipeline reports it. -/
def failure? (name : Text) (hook : Plugin σ → Hook S) (call : Plugin σ × S) : Option Failure :=
  (hook call.1 call.2).value.2.map (hookFailure name call.1)

/-- A stage with hooks of the given name that starts in the state `s` comes to `outcome`. -/
structure Ran (name : Text) (hook : Plugin σ → Hook S) (plugins : List (Plugin σ)) (s : S)
    (outcome : Logged (S × List Failure)) : Prop where
  /-- Every plugin is called once, in order. -/
  once : (calls hook plugins s).map Prod.fst = plugins
  /-- Each call finds the state that those before it have left. -/
  handed : ∀ before plugin state after, calls hook plugins s = before ++ (plugin, state) :: after →
    state = left hook (before.map Prod.fst) s
  /-- No other call is made: what they tell is all that is told. -/
  told : outcome.log = (calls hook plugins s).flatMap fun call => (hook call.1 call.2).log
  state : outcome.value.1 = left hook plugins s
  /-- Each call that fails is reported once, in order. -/
  failures : outcome.value.2 = (calls hook plugins s).filterMap (failure? name hook)
  ok_iff : Failure.result outcome.value.2 () = .ok () ↔
    ∀ call ∈ calls hook plugins s, (hook call.1 call.2).value.2 = none
  error_of_not_ok : Failure.result outcome.value.2 () ≠ .ok () →
    Failure.result outcome.value.2 () = .error ((calls hook plugins s).filterMap (failure? name hook))

theorem map_fst_calls (hook : Plugin σ → Hook S) (plugins : List (Plugin σ)) (s : S) :
    (calls hook plugins s).map Prod.fst = plugins := by
  induction plugins generalizing s with
  | nil => rfl
  | cons plugin plugins ih => rw [calls, List.map_cons, ih]

theorem state_of_mem_calls {before after : List (Plugin σ × S)} {plugin : Plugin σ} {state : S}
    (h : calls hook plugins s = before ++ (plugin, state) :: after) :
    state = left hook (before.map Prod.fst) s := by
  induction plugins generalizing s before with
  | nil => simp [calls] at h
  | cons p plugins ih =>
    rw [calls] at h
    cases before with
    | nil =>
      obtain ⟨hcall, -⟩ := List.cons.inj h
      exact (Prod.mk.inj hcall).2.symm
    | cons call before =>
      obtain ⟨rfl, htail⟩ := List.cons.inj h
      have hstate := ih htail
      exact hstate

theorem within_stage (plugin : Plugin σ) (stage : Stage) (failure : Failure) :
    failure.within (context plugin stage) = hookFailure stage.name plugin failure := rfl

theorem value_runAll (stage : Stage) (hook : Plugin σ → Hook S) (plugins : List (Plugin σ)) (s : S) :
    (runAll stage hook plugins s).value =
      (left hook plugins s, (calls hook plugins s).filterMap (failure? stage.name hook)) := by
  induction plugins generalizing s with
  | nil => rfl
  | cons plugin plugins ih =>
    simp only [runAll, Logged.value_bind, Logged.value_pure]
    rw [ih, calls, List.filterMap_cons]
    cases hfailure : (hook plugin s).value.2 <;> simp [failure?, hfailure, left, within_stage]

theorem log_runAll (stage : Stage) (hook : Plugin σ → Hook S) (plugins : List (Plugin σ)) (s : S) :
    (runAll stage hook plugins s).log = (calls hook plugins s).flatMap fun call => (hook call.1 call.2).log := by
  induction plugins generalizing s with
  | nil => rfl
  | cons plugin plugins ih =>
    rw [runAll, Logged.log_bind, Logged.log_bind, ih, calls, List.flatMap_cons]
    exact congrArg _ (List.append_nil _)

theorem failures_eq_nil_iff {called : List (Plugin σ × S)} : called.filterMap (failure? name hook) = [] ↔
    ∀ call ∈ called, (hook call.1 call.2).value.2 = none := by
  simp [List.filterMap_eq_nil_iff, failure?]

theorem ran_runAll (stage : Stage) (hook : Plugin σ → Hook S) (plugins : List (Plugin σ)) (s : S) :
    Ran stage.name hook plugins s (runAll stage hook plugins s) where
  once := map_fst_calls hook plugins s
  handed _ _ _ _ h := state_of_mem_calls h
  told := log_runAll stage hook plugins s
  state := by rw [value_runAll]
  failures := by rw [value_runAll]
  ok_iff := by rw [Failure.result_eq_ok_iff, value_runAll, failures_eq_nil_iff]
  error_of_not_ok h := by
    rw [Ne, Failure.result_eq_ok_iff] at h
    rw [Failure.result_of_ne_nil h, value_runAll]

/-- A pipeline has the given plugins in three groups, and each of its stages that do not stop at a failure calls
them all in turn and collects what fails. -/
theorem runs_ofPlugins (plugins : List (Plugin σ)) :
    (ofPlugins plugins).plugins.Perm plugins ∧
    (ofPlugins plugins).plugins =
      ofOrder .early plugins ++ (ofOrder .unordered plugins ++ ofOrder .late plugins) ∧
    (∀ fs config, Ran "config" (fun plugin => plugin.config fs) (ofPlugins plugins).plugins config
      ((ofPlugins plugins).config fs config)) ∧
    (∀ bundle, Ran "generate_bundle" Plugin.generateBundle (ofPlugins plugins).plugins bundle
      ((ofPlugins plugins).generateBundle bundle)) ∧
    ∀ written fs, Ran "write_bundle" (fun plugin => plugin.writeBundle written) (ofPlugins plugins).plugins fs
      ((ofPlugins plugins).writeBundle written fs) :=
  ⟨List.mergeSort_perm .., plugins_ofPlugins plugins, fun _ _ => ran_runAll .config ..,
    fun _ => ran_runAll .generateBundle .., fun _ _ => ran_runAll .writeBundle ..⟩

/-! ### The code of a module -/

variable {id code : Text} {plugin : Plugin σ} {before after : List (Plugin σ)} {failure : Failure}

/-- The code that a plugin hands on: the new code, or the one that it was given if there is none. -/
def handOn (id code : Text) (plugin : Plugin σ) : Text :=
  match plugin.transform id code with
  | .ok (some new) => new
  | _ => code

/-- The code that plugins hand on one after another. -/
def handed (id : Text) (plugins : List (Plugin σ)) (code : Text) : Text := plugins.foldl (handOn id) code

/-- No hook fails for the code that those before it hand on. -/
def Succeeds (id code : Text) (plugins : List (Plugin σ)) : Prop :=
  ∀ before plugin after, plugins = before ++ plugin :: after →
    ∃ new, plugin.transform id (handed id before code) = .ok new

/-- The hook of `plugin` is the first one to fail, behind those of `before`. -/
structure FailsFirst (id code : Text) (before : List (Plugin σ)) (plugin : Plugin σ) (failure : Failure) :
    Prop where
  succeeds : Succeeds id code before
  fails : plugin.transform id (handed id before code) = .error failure

/-- What is reported of a plugin that fails for a module. -/
def moduleFailure (id : Text) (plugin : Plugin σ) (failure : Failure) : Failure :=
  ⟨Text.concat ["plugin `", plugin.name, "` failed in `transform` for ", id] :: failure.reasons⟩

/-- The way of a module through plugins comes to `outcome`. -/
structure Transformed (id code : Text) (plugins : List (Plugin σ)) (outcome : Except (List Failure) Text) :
    Prop where
  ok_iff : (∃ new, outcome = .ok new) ↔ Succeeds id code plugins
  /-- Every plugin hands the code on, in order. -/
  folded : ∀ new, outcome = .ok new → new = handed id plugins code
  /-- Of the plugins that would fail the first one is reported, and no other failure is. -/
  stopped : ¬ (∃ new, outcome = .ok new) → ∃ before plugin after failure,
    plugins = before ++ plugin :: after ∧ FailsFirst id code before plugin failure ∧
      outcome = .error [moduleFailure id plugin failure]
  /-- Whatever runs behind the first plugin that fails, the outcome is the same. -/
  settled : ∀ before plugin after failure, plugins = before ++ plugin :: after →
    FailsFirst id code before plugin failure → ∀ pipeline : Pipeline σ, ∀ others,
      pipeline.plugins = before ++ plugin :: others →
        (pipeline.transform id code).mapError Failure.alone = outcome

theorem handed_cons : handed id (plugin :: plugins) code = handed id plugins (handOn id code plugin) := rfl

theorem handOn_of_ok {new : Option Text} (h : plugin.transform id code = .ok new) :
    handOn id code plugin = new.getD code := by
  rw [handOn, h]
  cases new <;> rfl

theorem succeeds_nil : Succeeds id code ([] : List (Plugin σ)) := fun before _ _ h => by simp at h

theorem succeeds_cons : Succeeds id code (plugin :: plugins) ↔
    (∃ new, plugin.transform id code = .ok new) ∧ Succeeds id (handOn id code plugin) plugins := by
  constructor
  · refine fun h => ⟨h [] plugin plugins rfl, fun before p after hsplit => ?_⟩
    exact h (plugin :: before) p after (by rw [hsplit, List.cons_append])
  · rintro ⟨hfirst, hrest⟩ before p after hsplit
    cases before with
    | nil =>
      obtain ⟨rfl, -⟩ := List.cons.inj hsplit
      exact hfirst
    | cons q before =>
      obtain ⟨rfl, htail⟩ := List.cons.inj hsplit
      exact hrest before p after htail

/-- Plugins that do not fail hand the code on to those behind them. -/
theorem transformFrom_append (h : Succeeds id code before) :
    transformFrom id (before ++ plugins) code = transformFrom id plugins (handed id before code) := by
  induction before generalizing code with
  | nil => rfl
  | cons plugin before ih =>
    obtain ⟨⟨new, hnew⟩, hrest⟩ := succeeds_cons.1 h
    rw [List.cons_append, transformFrom, hnew, handed_cons, ← ih hrest, handOn_of_ok hnew]

theorem transformFrom_of_succeeds (h : Succeeds id code plugins) :
    transformFrom id plugins code = .ok (handed id plugins code) := by
  have happend : transformFrom id (plugins ++ []) code = .ok (handed id plugins code) := transformFrom_append h
  rwa [List.append_nil] at happend

theorem concat_concat (a b c d e f g : Text) :
    Text.concat [Text.concat [a, b, c, d, e], f, g] = Text.concat [a, b, c ++ (d ++ (e ++ f)), g] := by
  simp [Text.concat]

theorem within_context : failure.within (Text.concat [context plugin .transform, " for ", id]) =
    moduleFailure id plugin failure := by
  have hwords : ("` failed in `transform` for " : Text) = "` failed in `" ++ ("transform" ++ ("`" ++ " for ")) := rfl
  rw [moduleFailure, hwords, ← concat_concat]
  rfl

/-- Behind the first plugin that fails nothing counts. -/
theorem FailsFirst.transformFrom_eq (h : FailsFirst id code before plugin failure) (after : List (Plugin σ)) :
    transformFrom id (before ++ plugin :: after) code = .error (moduleFailure id plugin failure) := by
  rw [transformFrom_append h.succeeds, transformFrom, h.fails, ← within_context]

/-- Either no plugin fails, or there is one that fails first. -/
theorem succeeds_or_failsFirst (id code : Text) (plugins : List (Plugin σ)) : Succeeds id code plugins ∨
    ∃ before plugin after failure, plugins = before ++ plugin :: after ∧
      FailsFirst id code before plugin failure := by
  induction plugins generalizing code with
  | nil => exact .inl succeeds_nil
  | cons plugin plugins ih =>
    cases htransform : plugin.transform id code with
    | error failure => exact .inr ⟨[], plugin, plugins, failure, rfl, succeeds_nil, htransform⟩
    | ok new =>
      rcases ih (handOn id code plugin) with h | ⟨before, p, after, failure, rfl, hsucceeds, hfails⟩
      · exact .inl (succeeds_cons.2 ⟨⟨new, htransform⟩, h⟩)
      · exact .inr ⟨plugin :: before, p, after, failure, rfl, succeeds_cons.2 ⟨⟨new, htransform⟩, hsucceeds⟩, hfails⟩

theorem FailsFirst.not_succeeds (h : FailsFirst id code before plugin failure) :
    ¬ Succeeds id code (before ++ plugin :: after) := fun hsucceeds => by
  obtain ⟨new, hnew⟩ := hsucceeds before plugin after rfl
  rw [h.fails] at hnew
  cases hnew

theorem transformed_transformFrom (id code : Text) (plugins : List (Plugin σ)) :
    Transformed id code plugins ((transformFrom id plugins code).mapError Failure.alone) := by
  rcases succeeds_or_failsFirst id code plugins with hsucceeds | ⟨before, plugin, after, failure, rfl, hfirst⟩
  · have houtcome := transformFrom_of_succeeds hsucceeds
    rw [houtcome]
    refine ⟨⟨fun _ => hsucceeds, fun _ => ⟨_, rfl⟩⟩, fun new hnew => (Except.ok.inj hnew).symm,
      fun hnot => absurd ⟨_, rfl⟩ hnot, ?_⟩
    rintro before plugin after failure rfl hfirst
    exact absurd hsucceeds hfirst.not_succeeds
  · have houtcome := hfirst.transformFrom_eq after
    rw [houtcome]
    refine ⟨⟨fun ⟨new, hnew⟩ => (nomatch hnew), fun hsucceeds => absurd hsucceeds hfirst.not_succeeds⟩,
      fun new hnew => (nomatch hnew), fun _ => ⟨before, plugin, after, failure, rfl, hfirst, rfl⟩, ?_⟩
    rintro before' plugin' after' failure' hsplit hfirst' pipeline others hothers
    rw [transform, hothers, hfirst'.transformFrom_eq others, ← houtcome, hsplit, hfirst'.transformFrom_eq after']

/-- A module goes through the plugins of a pipeline, early ones first and late ones last, as far as the first one
that fails for it. -/
theorem transforms_ofPlugins (plugins : List (Plugin σ)) (id code : Text) :
    (ofPlugins plugins).plugins =
      ofOrder .early plugins ++ (ofOrder .unordered plugins ++ ofOrder .late plugins) ∧
    Transformed id code (ofPlugins plugins).plugins
      (((ofPlugins plugins).transform id code).mapError Failure.alone) :=
  ⟨plugins_ofPlugins plugins, transformed_transformFrom id code _⟩

end Pipeline

end AppsScript
