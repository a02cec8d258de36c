import AppsScript.Build.Prepare
import AppsScript.FileSystem.Memory

/-!
# Which aliases a build has

A run adds aliases to the table of the configuration behind those that are there (`Config.aliases_prepare`).
They come from the project file, from conventions or from the options, the first of these that has any. What
is there already is not looked at again, so that a second run adds nothing (`Config.prepare_prepare`).
-/

namespace AppsScript

namespace OrderedMap

variable {α β : Type}

theorem toList_injective {m n : OrderedMap α β} (h : m.toList = n.toList) : m = n := by
  cases m
  cases n
  simpa using h

variable [DecidableEq α] {m n : OrderedMap α β} {k : α}

theorem contains_eq_false_iff : m.contains k = false ↔ k ∉ m.keys := by
  rw [← contains_iff, Bool.not_eq_true]

/-- The pairs of `n` whose keys `m` lacks, in their order. -/
def lacked (m n : OrderedMap α β) : List (α × β) := n.toList.filter fun p => !m.contains p.1

theorem toList_insertNew (m : OrderedMap α β) (k : α) (v : β) :
    (m.insertNew k v).toList = m.toList ++ if m.contains k then [] else [(k, v)] := by
  by_cases h : k ∈ m.keys
  · rw [insertNew, dif_pos h, if_pos (contains_iff.2 h), List.append_nil]
  · rw [insertNew, dif_neg h, if_neg fun hc => h (contains_iff.1 hc)]

theorem toList_foldl_insertNew {l : List (α × β)} (hl : (l.map Prod.fst).Nodup) (m : OrderedMap α β) :
    (l.foldl (fun m p => m.insertNew p.1 p.2) m).toList = m.toList ++ l.filter fun p => !m.contains p.1 := by
  induction l generalizing m with
  | nil => simp
  | cons p l ih =>
    obtain ⟨hp, hl⟩ : p.1 ∉ l.map Prod.fst ∧ (l.map Prod.fst).Nodup := List.nodup_cons.1 hl
    have hcontains : l.filter (fun q => !(m.insertNew p.1 p.2).contains q.1) = l.filter fun q => !m.contains q.1 := by
      refine List.filter_congr fun q hq => ?_
      have hne : q.1 ≠ p.1 := fun h => hp (h ▸ List.mem_map_of_mem hq)
      rw [contains, contains, keys_insertNew]
      split <;> simp [hne]
    rw [List.foldl_cons, ih hl, hcontains, toList_insertNew, List.append_assoc, List.filter_cons]
    cases m.contains p.1 <;> simp

theorem toList_addMissing (m n : OrderedMap α β) : (m.addMissing n).toList = m.toList ++ m.lacked n :=
  toList_foldl_insertNew n.nodup_keys m

theorem prefix_addMissing (m n : OrderedMap α β) : m.toList <+: (m.addMissing n).toList :=
  ⟨m.lacked n, (toList_addMissing m n).symm⟩

theorem lacked_eq_nil : m.lacked n = [] ↔ ∀ k ∈ n.keys, k ∈ m.keys := by
  rw [lacked, List.filter_eq_nil_iff, keys, List.forall_mem_map]
  simp [contains_iff]

theorem addMissing_eq_left (h : ∀ k ∈ n.keys, k ∈ m.keys) : m.addMissing n = m :=
  toList_injective (by rw [toList_addMissing, lacked_eq_nil.2 h, List.append_nil])

theorem mem_keys_addMissing_left (h : k ∈ m.keys) : k ∈ (m.addMissing n).keys := by
  rw [keys, toList_addMissing, List.map_append]
  exact List.mem_append_left _ h

theorem mem_keys_addMissing_right (h : k ∈ n.keys) : k ∈ (m.addMissing n).keys := by
  by_cases hm : k ∈ m.keys
  · exact mem_keys_addMissing_left hm
  · obtain ⟨p, hp, rfl⟩ := List.mem_map.1 h
    rw [keys, toList_addMissing, List.map_append]
    refine List.mem_append_right _ (List.mem_map_of_mem (List.mem_filter.2 ⟨hp, ?_⟩))
    simpa [contains_eq_false_iff] using hm

/-- Adding what is missing of `n` adds what is missing of `n` and `m`. -/
theorem addMissing_addMissing_left : m.addMissing (m.addMissing n) = m.addMissing n := by
  refine toList_injective ?_
  have hlacked : m.lacked (m.addMissing n) = m.lacked n := by
    rw [lacked, toList_addMissing, List.filter_append]
    have hself : m.toList.filter (fun p => !m.contains p.1) = [] := lacked_eq_nil.2 fun _ h => h
    rw [hself, List.nil_append, lacked, List.filter_filter]
    simp
  rw [toList_addMissing, hlacked, toList_addMissing]

theorem lacked_of_isEmpty (h : m.isEmpty = true) : m.lacked n = n.toList := by
  have hnil : m.toList = [] := List.isEmpty_iff.1 h
  exact List.filter_eq_self.2 fun p _ => by simp [contains, keys, hnil]

theorem isEmpty_addMissing : (m.addMissing n).isEmpty = (m.isEmpty && n.isEmpty) := by
  cases hm : m.isEmpty with
  | false =>
    have hne : m.toList ≠ [] := List.isEmpty_eq_false_iff.1 hm
    simp [isEmpty, toList_addMissing, hne]
  | true =>
    rw [isEmpty, toList_addMissing, lacked_of_isEmpty hm, List.isEmpty_iff.1 hm, List.nil_append, Bool.true_and,
      isEmpty]

end OrderedMap

namespace Alias

open OrderedMap

/-- Where a build gets aliases from that its configuration does not declare. -/
structure Sources where
  isSought : Bool
  project : AliasMap
  conventional : AliasMap
  given : AliasMap

namespace Sources

variable (s : Sources) (declared : AliasMap)

/-- Aliases are looked for, and there are some in the configuration or the project file. -/
def knows : Bool := s.isSought && !(declared.addMissing s.project).isEmpty

/-- The aliases that a build adds: conventions count if nothing is known, what is given if nothing is found. -/
def added : AliasMap :=
  if s.knows declared then s.project
  else if s.isSought && !s.conventional.isEmpty then s.conventional
  else s.given

/-- The table of the build. -/
def merge : AliasMap := declared.addMissing (s.added declared)

theorem knows_iff : s.knows declared = true ↔
    s.isSought = true ∧ (declared.isEmpty = false ∨ s.project.isEmpty = false) := by
  rw [knows, isEmpty_addMissing, Bool.and_eq_true, Bool.not_eq_true', Bool.and_eq_false_iff]

theorem prefix_merge : declared.toList <+: (s.merge declared).toList := prefix_addMissing declared _

theorem knows_merge (h : s.knows declared = true) : s.knows (s.merge declared) = true := by
  obtain ⟨hsought, hsome⟩ := (s.knows_iff declared).1 h
  refine (s.knows_iff _).2 ⟨hsought, hsome.imp_left fun hdeclared => ?_⟩
  rw [merge, isEmpty_addMissing, hdeclared, Bool.false_and]

/-- A second build adds what the first one has added, or those of the project file if it has none. -/
theorem added_merge : s.added (s.merge declared) = s.added declared ∨
    s.added (s.merge declared) = s.project ∧ s.project.isEmpty = true := by
  cases hknows : s.knows declared with
  | true => exact .inl (by rw [added, added, hknows, s.knows_merge declared hknows])
  | false =>
    cases hmerge : s.knows (s.merge declared) with
    | false => exact .inl (by rw [added, added, hknows, hmerge])
    | true =>
      obtain ⟨hsought, -⟩ := (s.knows_iff _).1 hmerge
      refine .inr ⟨by rw [added, hmerge, if_pos rfl], ?_⟩
      rw [knows, isEmpty_addMissing, hsought, Bool.true_and, Bool.not_eq_false', Bool.and_eq_true] at hknows
      exact hknows.2

/-- Merging once more adds nothing. -/
theorem merge_merge : s.merge (s.merge declared) = s.merge declared := by
  refine addMissing_eq_left fun k hk => ?_
  rcases s.added_merge declared with h | ⟨h, hempty⟩
  · rw [h] at hk
    exact mem_keys_addMissing_right hk
  · rw [h, keys, List.isEmpty_iff.1 hempty] at hk
    simp at hk

/-- The aliases that are looked for and found, those of the configuration among them. -/
def found : AliasMap :=
  if s.isSought then
    if (declared.addMissing s.project).isEmpty then s.conventional else declared.addMissing s.project
  else .empty

/-- The aliases that are merged with those of the configuration: they may hold these once more. -/
def chosen : AliasMap := if (s.found declared).isEmpty then s.given else s.found declared

theorem addMissing_chosen : declared.addMissing (s.chosen declared) = s.merge declared := by
  rw [merge, added, knows, chosen, found]
  cases s.isSought with
  | false => rfl
  | true =>
    cases hknown : (declared.addMissing s.project).isEmpty with
    | false => simp [hknown, addMissing_addMissing_left]
    | true => cases hconventional : s.conventional.isEmpty <;> simp [hconventional]

end Sources

/-- What becomes of the declared aliases. They stay in front, and one of the sources adds what is missing. -/
structure Precedence (isSought : Bool) (declared project conventional given table : AliasMap) : Prop where
  ofProject : isSought = true → declared.isEmpty = false ∨ project.isEmpty = false →
    table.toList = declared.toList ++ declared.lacked project
  ofConventions : isSought = true → declared.isEmpty = true → project.isEmpty = true →
    conventional.isEmpty = false → table = conventional
  ofOptions : isSought = false ∨ declared.isEmpty = true ∧ project.isEmpty = true ∧ conventional.isEmpty = true →
    table.toList = declared.toList ++ declared.lacked given
  keeps : declared.toList <+: table.toList

theorem Sources.precedence_merge (s : Sources) (declared : AliasMap) :
    Precedence s.isSought declared s.project s.conventional s.given (s.merge declared) := by
  have hunknown (h : declared.isEmpty = true ∧ s.project.isEmpty = true) : s.knows declared = false := by
    rw [knows, isEmpty_addMissing, h.1, h.2, Bool.and_self, Bool.not_true, Bool.and_false]
  refine ⟨fun hsought hsome => ?_, fun hsought hdeclared hproject hconventional => ?_, fun hnone => ?_,
    prefix_addMissing ..⟩
  · rw [merge, toList_addMissing, added, if_pos ((s.knows_iff declared).2 ⟨hsought, hsome⟩)]
  · have hadded : s.added declared = s.conventional := by
      simp [added, hunknown ⟨hdeclared, hproject⟩, hsought, hconventional]
    refine toList_injective ?_
    rw [merge, toList_addMissing, hadded, lacked_of_isEmpty hdeclared, List.isEmpty_iff.1 hdeclared, List.nil_append]
  · have hadded : s.added declared = s.given := by
      rcases hnone with hsought | ⟨hdeclared, hproject, hconventional⟩
      · simp [added, knows, hsought]
      · simp [added, hunknown ⟨hdeclared, hproject⟩, hconventional]
    rw [merge, toList_addMissing, hadded]

variable {σ : Type} [FileSystem σ] {fs : σ} {root : Path} {settings : Settings} {config : Config}

/-- The alias `name` for the first of the directories that is there, if one of them is. -/
def standsFor? (fs : σ) (root : Path) (name : Text) (dirs : List Text) : Option (Text × Text) :=
  (dirs.find? fun dir => FileSystem.isThere fs (root.join ⟨dir⟩)).map fun dir => (name, "./" ++ dir)

/-- The aliases that directories have by the names that many projects give them. -/
def customary (fs : σ) (root : Path) : AliasMap :=
  .ofList <| List.reduceOption
    [standsFor? fs root "@" ["src", "app", "lib"],
      standsFor? fs root "~" ["src", "app"],
      standsFor? fs root "@components" ["src/components", "components"],
      standsFor? fs root "@utils" ["src/utils", "utils", "src/lib", "lib"],
      standsFor? fs root "@types" ["src/types", "types", "@types"]]

theorem byConvention_eq (fs : σ) (root : Path) : byConvention fs root = customary fs root := by
  let pair (p : Text × List Text) : Option (Text × Text) := standsFor? fs root p.1 p.2
  have hpairs : conventions.filterMap pair = (conventions.map pair).reduceOption :=
    (List.filterMap_map (f := pair) (g := id)).symm
  exact congrArg OrderedMap.ofList hpairs

/-- The sources of aliases of a build. -/
def Sources.of (fs : σ) (root : Path) (settings : Settings) : Sources where
  isSought := settings.autoDetectPathAliases
  project := (ofProjectFile fs root).value
  conventional := customary fs root
  given := settings.pathAliases

/-- The aliases that a configuration declares, in their order. -/
def tableOf (config : Config) : AliasMap := config.resolve.aliases.getD .empty

theorem ofConfig_eq (config : Config) : ofConfig config = tableOf config := rfl

theorem value_resolve : (resolve fs root config settings).value =
    if settings.enablePathAliases then some ((Sources.of fs root settings).chosen (tableOf config)) else none := by
  rw [resolve, ofConfig_eq, Sources.chosen, Sources.found]
  cases settings.enablePathAliases with
  | false => rfl
  | true => cases h : settings.autoDetectPathAliases <;> simp [Sources.of, h, detect, byConvention_eq]

end Alias

theorem CompilerSection.forHost_forHost (keepComments : Bool) (compiler : CompilerSection) :
    (compiler.forHost keepComments).forHost keepComments = compiler.forHost keepComments := by
  cases keepComments <;> rfl

namespace Config

open Alias

variable {σ : Type} [FileSystem σ] {fs : σ} {current root : Path} {settings : Settings} {config : Config}

/-- The entries that a run finds. -/
abbrev entriesOf (fs : σ) (current : Path) (settings : Settings) (config : Config) : EntryMap :=
  (Discovery.detect fs (config.root current) settings.includes settings.excludes).value

theorem value_withEntries : (config.withEntries fs root settings).value =
    let entries := (Discovery.detect fs root settings.includes settings.excludes).value
    if entries.isEmpty then config
    else config.forHost entries settings.outDir (Alias.resolve fs root config settings).value := by
  rw [withEntries, Logged.value_bind]
  dsimp only
  split <;> rfl

theorem aliases_forHost (entries : EntryMap) (outDir : Text) (aliases : Option AliasMap) :
    (config.forHost entries outDir aliases).resolve.aliases =
      (aliases.map (tableOf config).addMissing).or config.resolve.aliases := by
  cases aliases <;> rfl

/-- The configuration with the compiler options of a run. -/
abbrev compiled (settings : Settings) (config : Config) : Config :=
  { config with compiler := config.compiler.forHost settings.preserveComments }

theorem value_prepare : (config.prepare fs current settings).value =
    if settings.autoDetect && !(config.entriesOf fs current settings).isEmpty then
      (config.compiled settings).forHost (config.entriesOf fs current settings) settings.outDir
        (Alias.resolve fs (config.root current) (config.compiled settings) settings).value
    else config.compiled settings := by
  rw [prepare]
  cases settings.autoDetect with
  | false => rfl
  | true =>
    rw [if_pos rfl, value_withEntries, Bool.true_and]
    change (if (config.entriesOf fs current settings).isEmpty then _ else _) = _
    cases (config.entriesOf fs current settings).isEmpty <;> rfl

/-- A run merges the aliases that it finds, or leaves the table alone. -/
theorem aliases_prepare_eq : (config.prepare fs current settings).value.resolve.aliases =
    if settings.autoDetect && !(config.entriesOf fs current settings).isEmpty && settings.enablePathAliases then
      some ((Sources.of fs (config.root current) settings).merge (tableOf config))
    else config.resolve.aliases := by
  rw [value_prepare]
  cases settings.autoDetect && !(config.entriesOf fs current settings).isEmpty with
  | false => rfl
  | true =>
    rw [if_pos rfl, aliases_forHost, value_resolve, Bool.true_and]
    cases settings.enablePathAliases with
    | false => rfl
    | true => exact congrArg some (Sources.addMissing_chosen ..)

/-- Without alias support the table stays as it is; with it a run for some entries merges what it finds. -/
theorem aliases_prepare (fs : σ) (current : Path) (settings : Settings) (config : Config) :
    (settings.enablePathAliases = false →
      (config.prepare fs current settings).value.resolve.aliases = config.resolve.aliases) ∧
    (settings.autoDetect = true → settings.enablePathAliases = true →
      (config.entriesOf fs current settings).isEmpty = false →
      ∃ table, (config.prepare fs current settings).value.resolve.aliases = some table ∧
        Precedence settings.autoDetectPathAliases (tableOf config)
          (ofProjectFile fs (config.root current)).value (customary fs (config.root current))
          settings.pathAliases table) := by
  rw [aliases_prepare_eq]
  refine ⟨fun hdisabled => ?_, fun hdetect henabled hentries => ?_⟩
  · rw [hdisabled, Bool.and_false, if_neg Bool.false_ne_true]
  · rw [hdetect, henabled, hentries]
    exact ⟨_, rfl, (Sources.of fs (config.root current) settings).precedence_merge _⟩

/-- A project with a source file and an alias of its own. -/
def aliased : Memory :=
  .ofContents [(["p", "src", "main.ts"], "run()"),
    (["p", "tsconfig.json"],
      "\x7b\"compilerOptions\": \x7b\"paths\": \x7b\"@\": [\"lib\"], \"#/*\": [\"types/*\"]\x7d\x7d\x7d")] [] {}

/-- A configuration that has the same alias for another directory. -/
def declaring : Config where
  resolve := { aliases := some (.ofList [("@", "./src")]) }

theorem aliases_prepare_aliased :
    (declaring.prepare aliased "/p" { Settings.default with enablePathAliases := false }).value.resolve.aliases =
      declaring.resolve.aliases ∧
    ∃ table, (declaring.prepare aliased "/p" Settings.default).value.resolve.aliases = some table ∧
      table.toList = [(("@" : Text), ("./src" : Text)), (("#" : Text), ("./types" : Text))] := by
  refine ⟨(aliases_prepare aliased "/p" _ declaring).1 rfl, ?_⟩
  obtain ⟨table, htable, hprecedence⟩ := (aliases_prepare aliased "/p" Settings.default declaring).2 rfl rfl
    (by decide +kernel)
  refine ⟨table, htable, ?_⟩
  rw [hprecedence.ofProject rfl (.inl rfl)]
  decide +kernel

variable {entries : EntryMap} {outDir : Text} {first : Option AliasMap} {aliases table : AliasMap}

theorem cwd_forHost : (config.forHost entries outDir first).cwd = config.cwd := by
  cases first <;> rfl

theorem compiler_forHost : (config.forHost entries outDir first).compiler = config.compiler := by
  cases first <;> rfl

theorem forHost_forHost_none :
    (config.forHost entries outDir first).forHost entries outDir none = config.forHost entries outDir first := by
  cases first <;> rfl

theorem forHost_forHost_some : (config.forHost entries outDir first).forHost entries outDir (some aliases) =
    (config.forHost entries outDir first).withAliases aliases := by
  cases first <;> rfl

theorem withAliases_eq (htable : config.resolve.aliases = some table) (h : table.addMissing aliases = table) :
    config.withAliases aliases = config := by
  obtain ⟨cwd, build, ⟨_, extensions⟩, compiler⟩ := config
  obtain rfl := htable
  rw [withAliases, Option.getD_some, h]

/-- No run changes where the root of the project is. -/
theorem root_prepare : (config.prepare fs current settings).value.root current = config.root current := by
  rw [value_prepare, root, root]
  split
  · rw [cwd_forHost]
  · rfl

theorem compiled_prepare :
    (config.prepare fs current settings).value.compiled settings = (config.prepare fs current settings).value := by
  have hcompiler : (config.prepare fs current settings).value.compiler =
      config.compiler.forHost settings.preserveComments := by
    rw [value_prepare]
    split
    · rw [compiler_forHost]
    · rfl
  rw [compiled, hcompiler, CompilerSection.forHost_forHost, ← hcompiler]

theorem prepare_prepare : ((config.prepare fs current settings).value.prepare fs current settings).value =
    (config.prepare fs current settings).value := by
  have hvalue : (config.prepare fs current settings).value = _ := value_prepare
  have haliases : (config.prepare fs current settings).value.resolve.aliases = _ := aliases_prepare_eq
  rw [value_prepare, entriesOf, root_prepare, compiled_prepare]
  cases hruns : settings.autoDetect && !(config.entriesOf fs current settings).isEmpty with
  | false => rw [if_neg (by simp)]
  | true =>
    rw [hruns, if_pos rfl] at hvalue
    rw [hruns, Bool.true_and] at haliases
    rw [if_pos rfl, value_resolve]
    cases henabled : settings.enablePathAliases with
    | false =>
      rw [if_neg (by simp), hvalue]
      exact forHost_forHost_none
    | true =>
      rw [henabled, if_pos rfl] at haliases
      have htable : tableOf (config.prepare fs current settings).value =
          (Sources.of fs (config.root current) settings).merge (tableOf config) := by
        rw [tableOf, haliases, Option.getD_some]
      rw [if_pos rfl, hvalue, forHost_forHost_some, ← hvalue]
      refine withAliases_eq haliases ?_
      rw [htable, Sources.addMissing_chosen, Sources.merge_merge]

/-! ### Several runs -/

/-- What a run is given besides the configuration. -/
structure Run (σ : Type) where
  fs : σ
  current : Path
  settings : Settings

/-- The configuration behind some runs. -/
def prepareAll (runs : List (Run σ)) (config : Config) : Config :=
  runs.foldl (fun config run => (config.prepare run.fs run.current run.settings).value) config

/-- A run adds aliases behind those that are there. -/
theorem prefix_prepare : (tableOf config).toList <+: (tableOf (config.prepare fs current settings).value).toList := by
  rw [tableOf, tableOf, aliases_prepare_eq]
  split
  · exact Sources.prefix_merge ..
  · exact List.prefix_refl _

theorem prefix_prepareAll (runs : List (Run σ)) :
    (tableOf config).toList <+: (tableOf (config.prepareAll runs)).toList := by
  induction runs generalizing config with
  | nil => exact List.prefix_refl _
  | cons run runs ih => exact prefix_prepare.trans ih

/-- A run that is repeated changes nothing, and however many runs there are, with whatever settings, none of them
takes away, moves or changes an alias. -/
theorem prepare_settled (fs : σ) (current : Path) (settings : Settings) (config : Config) :
    ((config.prepare fs current settings).value.prepare fs current settings).value =
      (config.prepare fs current settings).value ∧
    ∀ before after : List (Run σ),
      (tableOf (config.prepareAll before)).toList <+: (tableOf (config.prepareAll (before ++ after))).toList := by
  refine ⟨prepare_prepare, fun before after => ?_⟩
  rw [prepareAll, prepareAll, List.foldl_append]
  exact prefix_prepareAll after

end Config

end AppsScript
