import AppsScript.FileSystem.Key
import AppsScript.Proofs.Paths

/-!
# Keys and normal forms

An absolute path and its key say the same: the normal form of the path is the spelling of its key
(`normalize_eq_text`). A path that is joined to another one goes on from the key of that (`Key.ofPath_join`), however
the other one is spelled.
-/

namespace AppsScript

open Component

variable {p q base : Path} {names : List Text} {name : Text} {steps : List Component}

namespace Key

/-- The names, the last one first, to which a segment leads on from others. -/
def enter (key : Key) (segment : Text) : Key :=
  if segment = [] ∨ segment = "." then key
  else if segment = ".." then key.drop 1
  else segment :: key

theorem ofPath_eq (p : Path) : ofPath p = (p.segments.foldl enter []).reverse := rfl

theorem map_normal_injective : Function.Injective fun key : Key => key.map normal :=
  List.map_injective_iff.2 fun _ _ h => Component.normal.inj h

/-- Segments lead a key on as the components that they stand for do a path. -/
theorem foldl_push_eq (segments : List Text) (key : Key) :
    (segments.filterMap ofSegment?).foldl push (key.map normal ++ [root]) =
      (segments.foldl enter key).map normal ++ [root] := by
  induction segments generalizing key with
  | nil => rfl
  | cons segment segments ih =>
    rw [List.foldl_cons, ← ih, enter]
    split_ifs with hsilent hparent
    · rw [List.filterMap_cons_none (by rw [ofSegment?, if_pos hsilent])]
    · rw [List.filterMap_cons_some (b := parent) (by rw [ofSegment?, if_neg hsilent, if_pos hparent])]
      cases key <;> rfl
    · rw [List.filterMap_cons_some (b := normal segment) (by rw [ofSegment?, if_neg hsilent, if_neg hparent])]
      rfl

theorem mem_onTheWay {dir key : Key} : dir ∈ key.onTheWay ↔ dir <+: key := by
  induction key generalizing dir with
  | nil => simp [onTheWay]
  | cons name key ih =>
    cases dir with
    | nil => simp [onTheWay]
    | cons name' dir => simp [onTheWay, List.cons_prefix_cons, ih, and_comm, eq_comm]

theorem below?_eq_some_iff {dir key rest : Key} : below? dir key = some rest ↔ rest ≠ [] ∧ key = dir ++ rest := by
  induction dir generalizing key with
  | nil =>
    cases key with
    | nil => simp [below?]
    | cons name key =>
      rw [show below? [] (name :: key) = some (name :: key) from rfl, Option.some.injEq, List.nil_append]
      exact ⟨fun h => ⟨h ▸ by simp, h⟩, fun h => h.2⟩
  | cons name dir ih =>
    cases key with
    | nil => simp [below?]
    | cons name' key =>
      rw [below?]
      split_ifs with hname
      · rw [ih, hname, List.cons_append, List.cons.injEq, and_iff_right rfl]
      · simp [Ne.symm hname]

theorem enter_of_isStep (h : IsStep (normal name)) (key : Key) : enter key name = name :: key := by
  have hname : ofSegment? name = some (normal name) := h.1
  rw [ofSegment?] at hname
  split_ifs at hname with hsilent hparent
  · exact absurd (Option.some.inj hname) (by simp)
  · rw [enter, if_neg hsilent, if_neg hparent]

theorem foldl_enter_of_isStep (h : ∀ name ∈ names, IsStep (normal name)) (key : Key) :
    names.foldl enter key = names.reverse ++ key := by
  induction names generalizing key with
  | nil => rfl
  | cons name names ih =>
    rw [List.foldl_cons, enter_of_isStep (h name (by simp)), ih fun n hn => h n (by simp [hn])]
    simp

/-- A list of names as a relative path. -/
def spelled (names : Key) : Path := ⟨Text.joinWith "/" names⟩

theorem segments_spelled (hne : names ≠ []) (h : ∀ name ∈ names, IsStep (normal name)) :
    (spelled names).segments = names :=
  Text.pieces_joinWith hne fun name hname => (h name hname).2

theorem isAbsolute_spelled (hne : names ≠ []) (h : ∀ name ∈ names, IsStep (normal name)) :
    (spelled names).isAbsolute = false := by
  obtain ⟨name, names, rfl⟩ := List.exists_cons_of_ne_nil hne
  obtain ⟨hslash, hnil, -⟩ := Path.head?_text (normal name) (h name (by simp))
  have hname : name ≠ [] := hnil
  rw [Path.isAbsolute, beq_eq_false_iff_ne, spelled, Text.head?_joinWith hname]
  exact hslash

end Key

namespace Path

theorem exists_text_of_isAbsolute (hp : p.isAbsolute) : ∃ t, p.text = '/' :: t := by
  rw [isAbsolute, beq_iff_eq] at hp
  obtain ⟨t, ht⟩ := List.head?_eq_some_iff.1 hp
  exact ⟨t, ht⟩

theorem components_of_isAbsolute (hp : p.isAbsolute) : p.components = root :: p.segments.filterMap ofSegment? := by
  obtain ⟨t, ht⟩ := exists_text_of_isAbsolute hp
  have hsegments : p.segments = [] :: Text.pieces (· == '/') t := by rw [segments, ht, Text.pieces, if_pos (by rfl)]
  rw [components, hsegments]
  simp only [firstComponent?, hp, if_true]
  rfl

theorem resolve_components (hp : p.isAbsolute) : resolve p.components = root :: (Key.ofPath p).map normal := by
  have hfold := Key.foldl_push_eq p.segments []
  rw [List.map_nil, List.nil_append] at hfold
  rw [resolve, components_of_isAbsolute hp, List.foldl_cons, show push [] root = [root] from rfl, hfold, Key.ofPath_eq]
  simp

theorem components_normalize_of_isAbsolute (hp : p.isAbsolute) :
    p.normalize.components = root :: (Key.ofPath p).map normal := by
  rw [components_normalize, resolve_components hp]

theorem normalize_eq_text (hp : p.isAbsolute) : p.normalize = ⟨(Key.ofPath p).text⟩ := by
  have hnames : ((Key.ofPath p).map normal).map Component.text = Key.ofPath p := by
    rw [List.map_map]
    exact List.map_id _
  rw [normalize, resolve_components hp, ofComponents, hnames, Key.text]

theorem isAbsolute_normalize (hp : p.isAbsolute) : p.normalize.isAbsolute := by
  rw [normalize_eq_text hp]
  rfl

theorem foldl_push_of_names (h : ∀ c ∈ steps, ∃ name, c = normal name) (stack : List Component) :
    steps.foldl push stack = steps.reverse ++ stack := by
  induction steps generalizing stack with
  | nil => rfl
  | cons c steps ih =>
    obtain ⟨name, rfl⟩ := h c (by simp)
    rw [List.foldl_cons, ih fun d hd => h d (by simp [hd])]
    simp [push]

theorem ofPath_normalize (hp : p.isAbsolute) : Key.ofPath p.normalize = Key.ofPath p := by
  have hresolve := resolve_components (isAbsolute_normalize hp)
  have hstack : resolve (root :: (Key.ofPath p).map normal) = root :: (Key.ofPath p).map normal := by
    rw [resolve, List.foldl_cons, foldl_push_of_names (by simp)]
    simp [push]
  rw [components_normalize_of_isAbsolute hp, hstack] at hresolve
  exact Key.map_normal_injective (List.cons.inj hresolve).2.symm

/-! ### Joined paths -/

/-- The segments of two paths one after another; a slash at the end of the first one adds none. -/
theorem exists_segments_join (p : Path) (hq : q.isAbsolute = false) :
    ∃ segments, (p.join q).segments = segments ++ q.segments ∧
      (p.segments = segments ∨ p.segments = segments ++ [[]]) := by
  rw [join, if_neg (by simp [hq])]
  by_cases hnil : p.text = []
  · refine ⟨[], ?_, .inr ?_⟩
    · rw [if_pos (.inl hnil), hnil]
      rfl
    · rw [segments, hnil]
      rfl
  -- behind a slash at the end there is one more segment, an empty one
  by_cases hlast : p.text.getLast? = some '/'
  · obtain ⟨t, ht⟩ := List.getLast?_eq_some_iff.1 hlast
    refine ⟨Text.pieces (· == '/') t, ?_, .inr ?_⟩
    · rw [if_pos (.inr hlast), segments, ht, List.append_assoc, List.singleton_append,
        Text.pieces_append_cons (by rfl), segments]
    · rw [segments, ht, Text.pieces_append_cons (by rfl)]
      rfl
  · refine ⟨p.segments, ?_, .inl rfl⟩
    rw [if_neg (by simp [hnil, hlast]), segments, Text.pieces_append_cons (by rfl)]
    rfl

theorem isAbsolute_join (hp : p.isAbsolute) (q : Path) : (p.join q).isAbsolute := by
  obtain ⟨t, ht⟩ := exists_text_of_isAbsolute hp
  rw [join]
  split_ifs with hq
  · exact hq
  all_goals
    rw [isAbsolute, ht]
    rfl

theorem filterMap_segments_join (p : Path) (hq : q.isAbsolute = false) :
    (p.join q).segments.filterMap ofSegment? = p.segments.filterMap ofSegment? ++ q.segments.filterMap ofSegment? := by
  obtain ⟨segments, hjoin, hp | hp⟩ := exists_segments_join p hq
  · rw [hjoin, hp, List.filterMap_append]
  · rw [hjoin, hp, List.filterMap_append, List.filterMap_append, show [[]].filterMap ofSegment? = [] from rfl,
      List.append_nil]

end Path

namespace Key

/-- A relative path goes on from the key of the path that it is joined to. -/
theorem ofPath_join (p : Path) (hq : q.isAbsolute = false) :
    ofPath (p.join q) = (q.segments.foldl enter (ofPath p).reverse).reverse := by
  rw [ofPath_eq, ofPath_eq, List.reverse_reverse]
  obtain ⟨segments, hjoin, hp | hp⟩ := Path.exists_segments_join p hq
  · rw [hjoin, hp, List.foldl_append]
  · rw [hjoin, hp, List.foldl_append, List.foldl_append, List.foldl_cons, List.foldl_nil]
    rfl

theorem ofPath_join_congr (h : ofPath p = ofPath base) (q : Path) : ofPath (p.join q) = ofPath (base.join q) := by
  by_cases hq : q.isAbsolute
  · rw [Path.join, if_pos hq, Path.join, if_pos hq]
  · rw [ofPath_join p (by simpa using hq), ofPath_join base (by simpa using hq), h]

theorem ofPath_join_spelled (p : Path) (hne : names ≠ []) (h : ∀ name ∈ names, IsStep (normal name)) :
    ofPath (p.join (spelled names)) = ofPath p ++ names := by
  rw [ofPath_join p (isAbsolute_spelled hne h), segments_spelled hne h, foldl_enter_of_isStep h]
  simp

end Key

namespace Path

theorem filterMap_of_isStep (h : ∀ name ∈ names, IsStep (normal name)) :
    names.filterMap ofSegment? = names.map normal := by
  have hsteps : ∀ c ∈ names.map normal, IsStep c := by simpa using h
  have hnames : (names.map normal).map Component.text = names := by
    rw [List.map_map]
    exact List.map_id names
  rw [← filterMap_text hsteps, hnames]

/-- A path ends with the name that its last segment is. -/
theorem fileName?_join_spelled (hp : p.isAbsolute) (hne : names ≠ []) (h : ∀ name ∈ names, IsStep (normal name)) :
    (p.join (Key.spelled names)).fileName? = names.getLast? := by
  rw [fileName?, components_of_isAbsolute (isAbsolute_join hp _),
    filterMap_segments_join p (Key.isAbsolute_spelled hne h), Key.segments_spelled hne h, filterMap_of_isStep h, ← List.cons_append,
    List.getLast?_append_of_ne_nil _ (by simpa using hne), List.getLast?_map]
  cases names.getLast? <;> rfl

theorem fileName?_normalize (hp : p.isAbsolute) : p.normalize.fileName? = (Key.ofPath p).getLast? := by
  rw [fileName?, components_normalize_of_isAbsolute hp]
  rcases List.eq_nil_or_concat (Key.ofPath p) with hnil | ⟨names, name, hnames⟩
  · rw [hnil]
    rfl
  · rw [hnames]
    simp [List.getLast?_cons, Component.name?]

/-! ### Paths as they are shown -/

theorem shownFrom_congr (h : base.components = q.components) (p : Path) : p.shownFrom base = p.shownFrom q := by
  rw [shownFrom, shownFrom, relativeTo?, relativeTo?, h]

/-- No normal form lies behind a path with a step to a parent in it, as it is spelled. -/
theorem shownFrom_of_parent_mem (hp : p.isAbsolute) (hbase : parent ∈ base.components) :
    p.normalize.shownFrom base = p.normalize := by
  have hbelow : base.components.isPrefixOf p.normalize.components = false := by
    rw [Bool.eq_false_iff, Ne, List.isPrefixOf_iff_prefix]
    intro hbelow
    have := hbelow.subset hbase
    rw [components_normalize_of_isAbsolute hp] at this
    simp at this
  rw [shownFrom, relativeTo?, hbelow]
  rfl

/-- Without steps to parents a path has the components of its normal form. -/
theorem components_of_parent_notMem (hp : p.isAbsolute) (h : parent ∉ p.components) :
    p.normalize.components = p.components := by
  have hsteps : ∀ c ∈ p.segments.filterMap ofSegment?, ∃ name, c = normal name := fun c hc => by
    obtain ⟨s, hs, hc'⟩ := List.mem_filterMap.1 hc
    have hslash : '/' ∉ s := fun hmem => by simpa using Text.not_of_mem_pieces hs '/' hmem
    rcases (isStep_of_ofSegment? hc' hslash).cases with rfl | hname
    · rw [components_of_isAbsolute hp] at h
      exact absurd (List.mem_cons_of_mem _ hc) h
    · exact hname
  rw [components_normalize, components_of_isAbsolute hp, resolve, List.foldl_cons, foldl_push_of_names hsteps]
  simp [push]

theorem dropWhile_isSilent (h : ∀ name ∈ names, IsStep (normal name)) : names.dropWhile isSilent = names := by
  cases names with
  | nil => rfl
  | cons name names =>
    have hname : ofSegment? name = some (normal name) := (h name (by simp)).1
    rw [List.dropWhile_cons_of_neg (by simp [isSilent, hname])]

theorem dropComponents_of_isStep (n : Nat) (h : ∀ name ∈ names, IsStep (normal name)) :
    dropComponents n names = names.drop n := by
  induction n generalizing names with
  | zero => rw [dropComponents, dropWhile_isSilent h, List.drop_zero]
  | succ n ih =>
    cases names with
    | nil => rfl
    | cons name names =>
      have hname : ofSegment? name = some (normal name) := (h name (by simp)).1
      rw [dropComponents, if_neg (by simp [isSilent, hname]), ih fun n hn => h n (by simp [hn])]
      rfl

theorem dropSilentEnd_of_isStep (h : ∀ name ∈ names, IsStep (normal name)) : dropSilentEnd names = names := by
  rw [dropSilentEnd, dropWhile_isSilent (by simpa using h), List.reverse_reverse]

/-- A path in normal form shows the names that lead on from it. -/
theorem shownFrom_normalize (hbase : base.isAbsolute) (hne : names ≠ [])
    (h : ∀ name ∈ Key.ofPath base ++ names, IsStep (normal name)) :
    (⟨(Key.ofPath base ++ names).text⟩ : Path).shownFrom base.normalize = Key.spelled names := by
  have hsegments : (⟨(Key.ofPath base ++ names).text⟩ : Path).segments = [] :: (Key.ofPath base ++ names) := by
    rw [segments, Key.text, Text.pieces, if_pos (by rfl),
      Text.pieces_joinWith (by simp [hne]) fun name hname => (h name hname).2]
  have hcomponents : (⟨(Key.ofPath base ++ names).text⟩ : Path).components =
      root :: (Key.ofPath base ++ names).map normal := by
    rw [components_of_isAbsolute (by rfl), hsegments, List.filterMap_cons_none (by rfl), filterMap_of_isStep h]
  have hbelow : (root :: (Key.ofPath base).map normal).isPrefixOf (root :: (Key.ofPath base ++ names).map normal) := by
    rw [List.isPrefixOf_iff_prefix]
    exact ⟨names.map normal, by simp⟩
  have hdrop : dropComponents ((Key.ofPath base).map normal).length (Key.ofPath base ++ names) = names := by
    rw [dropComponents_of_isStep _ h, List.length_map, List.drop_left]
  rw [shownFrom, relativeTo?, components_normalize_of_isAbsolute hbase, hcomponents, hbelow, hsegments]
  simp only [Bool.not_true, Bool.false_eq_true, if_false, List.length_cons, List.drop_one, List.tail_cons, hdrop]
  rw [dropSilentEnd_of_isStep fun name hname => h name (List.mem_append_right _ hname)]
  rfl

end Path

end AppsScript
