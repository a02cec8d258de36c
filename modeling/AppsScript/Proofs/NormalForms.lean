import AppsScript.Proofs.Keys
import Mathlib.Data.List.Induction

/-!
# Normal forms of any paths

A path leads from its start over its steps, and what the steps resolve to leads from anywhere to where they do
(`Component.foldl_push_resolve`). So the normal form of a joined path depends on the normal forms of its parts
only (`Path.resolve_join`), and bringing a part into normal form beforehand changes nothing.
-/

namespace AppsScript

namespace Component

variable {c : Component} {stack steps : List Component} {segment : Text} {segments : List Text}

theorem ofSegment?_ne_root : ofSegment? segment ≠ some root := by
  rw [ofSegment?]
  split_ifs <;> simp

theorem root_notMem_filterMap : root ∉ segments.filterMap ofSegment? := fun h => by
  obtain ⟨segment, -, hsegment⟩ := List.mem_filterMap.1 h
  exact ofSegment?_ne_root hsegment

theorem root_notMem_push (hstack : root ∉ stack) (hc : c ≠ root) : root ∉ push stack c := by
  cases c with
  | root => exact absurd rfl hc
  | current => exact hstack
  | normal name => simpa [push] using hstack
  | parent =>
    cases stack with
    | nil => simp [push]
    | cons d stack => cases d <;> simp_all [push]

theorem root_notMem_foldl_push (hstack : root ∉ stack) (hsteps : root ∉ steps) : root ∉ steps.foldl push stack := by
  induction steps generalizing stack with
  | nil => exact hstack
  | cons c steps ih =>
    rw [List.mem_cons, not_or] at hsteps
    exact ih (root_notMem_push hstack (Ne.symm hsteps.1)) hsteps.2

/-- A step that is taken on a stack leads on from anywhere as it does behind the steps of the stack. -/
theorem foldl_push_push (base : List Component) (hstack : root ∉ stack) (hc : c ≠ root) :
    (push stack c).reverse.foldl push base = push (stack.reverse.foldl push base) c := by
  cases c with
  | root => exact absurd rfl hc
  | current => rfl
  | normal name => simp [push]
  | parent =>
    cases stack with
    | nil => rfl
    | cons d stack => cases d <;> simp_all [push]

/-- What steps resolve to leads from anywhere to where the steps do. -/
theorem foldl_push_resolve (hsteps : root ∉ steps) (base : List Component) :
    (resolve steps).foldl push base = steps.foldl push base := by
  rw [resolve]
  -- the last step first: it is taken on the stack that those before it have left
  induction steps using List.reverseRecOn with
  | nil => rfl
  | append_singleton steps c ih =>
    rw [List.mem_append, not_or, List.mem_singleton] at hsteps
    rw [List.foldl_concat, List.foldl_concat,
      foldl_push_push base (root_notMem_foldl_push (by simp) hsteps.1) (Ne.symm hsteps.2), ih hsteps.1]

theorem foldl_push_replicate (k n : Nat) :
    (List.replicate k parent).foldl push (List.replicate n parent) = List.replicate (k + n) parent := by
  induction k generalizing n with
  | zero => rw [Nat.zero_add]; rfl
  | succ k ih =>
    have hpush : push (List.replicate n parent) parent = List.replicate (n + 1) parent := by cases n <;> rfl
    rw [List.replicate_succ, List.foldl_cons, hpush, ih, Nat.add_right_comm, Nat.add_assoc]

theorem resolve_of_isNormal (h : IsNormal steps) : resolve steps = steps := by
  obtain ⟨base, names, rfl, hbase, hnames⟩ := h
  have hstart : base.foldl push [] = base.reverse := by
    rcases hbase with rfl | ⟨k, rfl⟩
    · rfl
    · rw [List.reverse_replicate]
      exact foldl_push_replicate k 0
  rw [resolve, List.foldl_append, hstart, Path.foldl_push_of_names fun c hc => (hnames c hc).2, ← List.reverse_append,
    List.reverse_reverse]

end Component

namespace Path

open Component

variable {p q : Path}

theorem components_of_isRelative (hp : p.isAbsolute = false) : ∃ lead,
    p.components = lead ++ p.segments.filterMap ofSegment? ∧ (lead = [] ∨ lead = [current]) := by
  rw [components]
  cases p.segments with
  | nil => exact ⟨[], rfl, .inl rfl⟩
  | cons first body =>
    by_cases hdot : first = "."
    · refine ⟨[current], ?_, .inr rfl⟩
      have hnone : ofSegment? first = none := by rw [ofSegment?, if_pos (.inr hdot)]
      simp only [firstComponent?, hp, hdot, Bool.false_eq_true, if_true, if_false]
      rw [← hdot, List.filterMap_cons_none hnone]
      rfl
    · refine ⟨[], ?_, .inl rfl⟩
      simp only [firstComponent?, hp, hdot, Bool.false_eq_true, if_false]
      cases hfirst : ofSegment? first with
      | none => rw [List.filterMap_cons_none hfirst]; rfl
      | some c => rw [List.filterMap_cons_some hfirst]; rfl

theorem isAbsolute_iff_root_mem : p.isAbsolute = true ↔ root ∈ p.components := by
  refine ⟨fun hp => by simp [components_of_isAbsolute hp], fun hroot => ?_⟩
  by_contra hp
  obtain ⟨lead, hcomponents, hlead⟩ := components_of_isRelative (Bool.eq_false_of_not_eq_true hp)
  rw [hcomponents] at hroot
  rcases List.mem_append.1 hroot with hroot | hroot
  · rcases hlead with rfl | rfl <;> simp at hroot
  · exact root_notMem_filterMap hroot

/-- Where a path starts: at the root, or wherever it is looked at from. -/
def start (p : Path) : List Component := if p.isAbsolute then [root] else []

/-- A path leads over its steps from its start. -/
theorem resolve_eq_foldl (p : Path) :
    resolve p.components = ((p.segments.filterMap ofSegment?).foldl push p.start).reverse := by
  rw [start, resolve]
  by_cases hp : p.isAbsolute
  · rw [if_pos hp, components_of_isAbsolute hp]
    rfl
  · obtain ⟨lead, hcomponents, rfl | rfl⟩ := components_of_isRelative (Bool.eq_false_of_not_eq_true hp)
    all_goals
      rw [if_neg hp, hcomponents]
      rfl

theorem root_mem_resolve : root ∈ resolve p.components ↔ p.isAbsolute = true := by
  refine ⟨fun hroot => ?_, fun hp => by simp [resolve_components hp]⟩
  by_contra hp
  rw [resolve_eq_foldl, start, if_neg hp, List.mem_reverse] at hroot
  exact root_notMem_foldl_push (by simp) root_notMem_filterMap hroot

theorem isAbsolute_normalize_iff : p.normalize.isAbsolute = true ↔ p.isAbsolute = true := by
  rw [isAbsolute_iff_root_mem, components_normalize, root_mem_resolve]

theorem resolve_resolve (p : Path) : resolve (resolve p.components) = resolve p.components :=
  resolve_of_isNormal (isNormal_resolve p)

theorem normalize_normalize (p : Path) : p.normalize.normalize = p.normalize := by
  rw [normalize, components_normalize, resolve_resolve, ← normalize]

theorem current_notMem_normalize : current ∉ p.normalize.components := by
  rw [components_normalize]
  obtain ⟨base, names, hnormal, hbase, hnames⟩ := isNormal_resolve p
  rw [hnormal, List.mem_append]
  rintro (hcurrent | hcurrent)
  · rcases hbase with rfl | ⟨k, rfl⟩
    · simp at hcurrent
    · exact absurd (List.eq_of_mem_replicate hcurrent) (by simp)
  · obtain ⟨-, name, hname⟩ := hnames _ hcurrent
    cases hname

theorem parent_notMem_normalize (hp : p.isAbsolute = true) : parent ∉ p.normalize.components := by
  rw [components_normalize_of_isAbsolute hp]
  simp

/-- A relative path in normal form goes to parents first. -/
theorem components_normalize_of_isRelative (hp : p.isAbsolute = false) :
    ∃ k names, p.normalize.components = List.replicate k parent ++ names ∧ parent ∉ names := by
  obtain ⟨base, names, hnormal, hbase, hnames⟩ := isNormal_resolve p
  rw [components_normalize, hnormal]
  rcases hbase with rfl | ⟨k, rfl⟩
  · have hroot : p.isAbsolute = true := root_mem_resolve.1 (by simp [hnormal])
    rw [hp] at hroot
    cases hroot
  · refine ⟨k, names, rfl, fun hparent => ?_⟩
    obtain ⟨-, name, hname⟩ := hnames _ hparent
    cases hname

/-! ### Joined paths -/

theorem join_of_isAbsolute (hq : q.isAbsolute = true) : p.join q = q := by
  rw [join, if_pos hq]

theorem isAbsolute_join_of_isRelative (hq : q.isAbsolute = false) : (p.join q).isAbsolute = p.isAbsolute := by
  cases hp : p.isAbsolute with
  | true => exact isAbsolute_join hp q
  | false =>
    rw [isAbsolute, beq_eq_false_iff_ne] at hp hq ⊢
    rw [join, if_neg (by simpa [isAbsolute] using hq)]
    cases htext : p.text with
    | nil => simpa using hq
    | cons c t =>
      rw [htext] at hp
      split_ifs
      all_goals simpa using hp

/-- A relative path leads on as what its steps resolve to. -/
theorem foldl_push_segments (hq : q.isAbsolute = false) (stack : List Component) :
    (q.segments.filterMap ofSegment?).foldl push stack = (resolve q.components).foldl push stack := by
  have hresolve : resolve q.components = resolve (q.segments.filterMap ofSegment?) := by
    rw [resolve_eq_foldl, start, if_neg (by simp [hq]), ← resolve]
  rw [hresolve, foldl_push_resolve root_notMem_filterMap]

/-- Where a joined path leads depends on where its parts do. -/
theorem resolve_join (p : Path) (hq : q.isAbsolute = false) : resolve (p.join q).components =
    ((resolve q.components).foldl push (resolve p.components).reverse).reverse := by
  rw [← foldl_push_segments hq, resolve_eq_foldl, resolve_eq_foldl p, List.reverse_reverse,
    filterMap_segments_join p hq, List.foldl_append, start, isAbsolute_join_of_isRelative hq, ← start]

theorem normalize_join_left (p q : Path) : (p.normalize.join q).normalize = (p.join q).normalize := by
  cases hq : q.isAbsolute with
  | true => rw [join_of_isAbsolute hq, join_of_isAbsolute hq]
  | false =>
    rw [normalize, resolve_join _ hq, components_normalize, resolve_resolve, ← resolve_join p hq, ← normalize]

theorem normalize_join_right (p q : Path) : (p.join q.normalize).normalize = (p.join q).normalize := by
  cases hq : q.isAbsolute with
  | true => rw [join_of_isAbsolute (isAbsolute_normalize hq), join_of_isAbsolute hq, normalize_normalize]
  | false =>
    have hnormal : q.normalize.isAbsolute = false := by
      rw [Bool.eq_false_iff, Ne, isAbsolute_normalize_iff, hq]
      exact Bool.false_ne_true
    rw [normalize, resolve_join p hnormal, components_normalize, resolve_resolve, ← resolve_join p hq, ← normalize]

/-- A normal form has no steps that could be left out, is absolute if the path is, and is its own normal form; a
joined path may be brought into normal form part by part. -/
theorem normalize_spec (p q : Path) :
    current ∉ p.normalize.components ∧
    (p.isAbsolute = true → parent ∉ p.normalize.components) ∧
    (p.isAbsolute = false →
      ∃ k names, p.normalize.components = List.replicate k parent ++ names ∧ parent ∉ names) ∧
    (p.normalize.isAbsolute = true ↔ p.isAbsolute = true) ∧
    p.normalize.normalize = p.normalize ∧
    (p.join q).normalize = (p.normalize.join q).normalize ∧
    (p.normalize.join q).normalize = (p.join q.normalize).normalize :=
  ⟨current_notMem_normalize, parent_notMem_normalize, components_normalize_of_isRelative, isAbsolute_normalize_iff,
    normalize_normalize p, (normalize_join_left p q).symm, by rw [normalize_join_left, normalize_join_right]⟩

/-- A path that climbs out of the root stays there, and a relative one climbs out of where it starts. -/
theorem normalize_spec_climbing :
    (Path.isAbsolute "/a//./../../b" = true ∧ parent ∉ (Path.normalize "/a//./../../b").components) ∧
    (Path.isAbsolute "a/../../b" = false ∧ ∃ k names,
      (Path.normalize "a/../../b").components = List.replicate k parent ++ names ∧ parent ∉ names) ∧
    (Path.join "a/../../b" "../../c").normalize = (Path.join (Path.normalize "a/../../b") "../../c").normalize :=
  ⟨⟨by decide, (normalize_spec "/a//./../../b" "../../c").2.1 (by decide)⟩,
    ⟨by decide, (normalize_spec "a/../../b" "../../c").2.2.1 (by decide)⟩,
    (normalize_spec "a/../../b" "../../c").2.2.2.2.2.1⟩

end Path

end AppsScript
