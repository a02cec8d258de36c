import AppsScript.Path.Basic
import AppsScript.Proofs.Texts

/-!
# Paths in normal form

`Path.normalize` gives a path whose components are those that `Component.resolve` computes
(`components_normalize`), so that normal forms with the same components are the same
(`eq_of_compare_eq`). The order of paths is a total order of their components (`le_trans`, `le_total`).
-/

namespace AppsScript

namespace Component

variable {c : Component} {stack steps : List Component} {s : Text}

/-- `c` is what some segment behind the first stands for. -/
def IsStep (c : Component) : Prop := ofSegment? c.text = some c ∧ '/' ∉ c.text

instance (c : Component) : Decidable (IsStep c) := inferInstanceAs (Decidable (_ ∧ _))

theorem isStep_parent : IsStep parent := by decide

theorem isStep_of_ofSegment? (h : ofSegment? s = some c) (hs : '/' ∉ s) : IsStep c := by
  have htext : c.text = s := by
    rw [ofSegment?] at h
    split_ifs at h with h₁ h₂
    · obtain rfl := Option.some.inj h
      exact h₂.symm
    · obtain rfl := Option.some.inj h
      rfl
  rw [IsStep, htext]
  exact ⟨h, hs⟩

theorem IsStep.cases (h : IsStep c) : c = parent ∨ ∃ name, c = normal name := by
  cases c with
  | root => exact absurd h.1 (by decide)
  | current => exact absurd h.1 (by decide)
  | parent => exact .inl rfl
  | normal name => exact .inr ⟨name, rfl⟩

/-- A name between slashes. -/
def IsName (c : Component) : Prop := IsStep c ∧ ∃ name, c = normal name

/-- The steps of a path in normal form: names behind the root, or behind steps to parents. -/
def IsNormal (steps : List Component) : Prop :=
  ∃ base names, steps = base ++ names ∧ (base = [root] ∨ ∃ k, base = List.replicate k parent) ∧
    ∀ c ∈ names, IsName c

/-- One more step keeps a stack over the root, or over steps to parents, in that form. -/
theorem push_isNormal (hs : IsNormal stack.reverse) (hc : IsStep c) : IsNormal (push stack c).reverse := by
  obtain ⟨base, names, hstack, hbase, hnames⟩ := hs
  have hstack' : stack = names.reverse ++ base.reverse := by
    rw [← List.reverse_append, ← hstack, List.reverse_reverse]
  rcases hc.cases with rfl | ⟨name, rfl⟩
  · rcases List.eq_nil_or_concat names with rfl | ⟨names, d, rfl⟩
    · rcases hbase with rfl | ⟨k, rfl⟩
      · obtain rfl : stack = [root] := hstack'
        exact ⟨[root], [], rfl, .inl rfl, by simp⟩
      · obtain rfl : stack = List.replicate k parent := by simpa using hstack'
        refine ⟨List.replicate (k + 1) parent, [], ?_, .inr ⟨k + 1, rfl⟩, by simp⟩
        cases k with
        | zero => rfl
        | succ k =>
          show (List.replicate (k + 2) parent).reverse = _
          rw [List.reverse_replicate, List.append_nil]
    · obtain ⟨-, name, rfl⟩ := hnames d (by simp)
      refine ⟨base, names, ?_, hbase, fun c hc => hnames c (by simp [hc])⟩
      rw [hstack']
      simp [push]
  · refine ⟨base, names ++ [normal name], ?_, hbase, fun c hc' => ?_⟩
    · rw [hstack']
      simp [push]
    · rcases List.mem_append.1 hc' with hc' | hc'
      · exact hnames c hc'
      · obtain rfl := List.mem_singleton.1 hc'
        exact ⟨hc, name, rfl⟩

theorem foldl_push_isNormal (hs : IsNormal stack.reverse) (hsteps : ∀ c ∈ steps, IsStep c) :
    IsNormal (steps.foldl push stack).reverse := by
  induction steps generalizing stack with
  | nil => exact hs
  | cons c steps ih =>
    exact ih (push_isNormal hs (hsteps c (by simp))) fun d hd => hsteps d (by simp [hd])

theorem isStep_of_isNormal (h : IsNormal steps) : steps.head? = some root ∧ (∀ c ∈ steps.tail, IsStep c) ∨
    ∀ c ∈ steps, IsStep c := by
  obtain ⟨base, names, rfl, rfl | ⟨k, rfl⟩, hnames⟩ := h
  · exact .inl ⟨rfl, fun c hc => (hnames c (by simpa using hc)).1⟩
  · refine .inr fun c hc => ?_
    rcases List.mem_append.1 hc with hc | hc
    · rw [List.eq_of_mem_replicate hc]
      exact isStep_parent
    · exact (hnames c hc).1

theorem filterMap_text (h : ∀ c ∈ steps, IsStep c) : (steps.map text).filterMap ofSegment? = steps := by
  induction steps with
  | nil => rfl
  | cons c steps ih =>
    rw [List.map_cons, List.filterMap_cons_some (h c (by simp)).1, ih fun d hd => h d (by simp [hd])]

end Component

namespace Path

open Component

variable {p q r : Path} {steps : List Component}

theorem components_mk {t : Text} : (⟨t⟩ : Path).components = match Text.pieces (· == '/') t with
    | [] => []
    | first :: body => ((⟨t⟩ : Path).firstComponent? first).toList ++ body.filterMap ofSegment? := rfl

theorem head?_text (c : Component) (hc : IsStep c) : c.text.head? ≠ some '/' ∧ c.text ≠ [] ∧ c.text ≠ "." := by
  refine ⟨fun h => hc.2 (List.mem_of_head? h), fun h => ?_, fun h => ?_⟩
  · have := hc.1
    rw [h] at this
    simp [ofSegment?] at this
  · have := hc.1
    rw [h] at this
    simp [ofSegment?] at this

theorem components_ofComponents (h : IsNormal steps) : (ofComponents steps).components = steps := by
  have hslash (c : Component) (hc : IsStep c) : '/' ∉ c.text := hc.2
  rcases isStep_of_isNormal h with ⟨hroot, hsteps⟩ | hsteps
  · obtain ⟨rest, rfl⟩ := List.head?_eq_some_iff.1 hroot
    rw [List.tail_cons] at hsteps
    have habs : (⟨'/' :: Text.joinWith "/" (rest.map Component.text)⟩ : Path).isAbsolute = true := rfl
    rw [ofComponents, components_mk, Text.pieces, if_pos (by decide)]
    simp only [firstComponent?, habs, if_true, Option.toList_some, List.singleton_append, List.cons.injEq, true_and]
    cases rest with
    | nil => rfl
    | cons c rest =>
      rw [Text.pieces_joinWith (by simp) (by simpa using fun d hd => hslash d (hsteps d hd)), filterMap_text hsteps]
  · cases steps with
    | nil => rfl
    | cons c rest =>
      have hc := hsteps c (by simp)
      obtain ⟨hhead, hne, hdot⟩ := head?_text c hc
      have hspell : ofComponents (c :: rest) = ⟨Text.joinWith "/" ((c :: rest).map Component.text)⟩ := by
        rcases hc.cases with rfl | ⟨name, rfl⟩ <;> rfl
      have habs : (⟨Text.joinWith "/" ((c :: rest).map Component.text)⟩ : Path).isAbsolute = false := by
        rw [isAbsolute, beq_eq_false_iff_ne, List.map_cons, Text.head?_joinWith hne]
        exact hhead
      rw [hspell, components_mk, Text.pieces_joinWith (by simp) (by simpa using fun d hd => hslash d (hsteps d hd))]
      simp only [List.map_cons] at habs ⊢
      rw [firstComponent?, habs, if_neg (by simp), if_neg hdot, hc.1, filterMap_text fun d hd => hsteps d (by simp [hd])]
      rfl

/-- Only the first component of a path can be the root, or the current directory. -/
theorem exists_components (p : Path) : ∃ first body, p.components = first ++ body ∧
    (first = [root] ∨ first = [current] ∨ first = []) ∧ ∀ c ∈ body, IsStep c := by
  have hpieces {s : Text} (hs : s ∈ p.segments) : '/' ∉ s := fun h => by
    have := Text.not_of_mem_pieces hs '/' h
    simp at this
  rw [components]
  cases hseg : p.segments with
  | nil => exact ⟨[], [], rfl, .inr (.inr rfl), by simp⟩
  | cons first body =>
    rw [hseg] at hpieces
    have hbody : ∀ c ∈ body.filterMap ofSegment?, IsStep c := fun c hc => by
      obtain ⟨s, hs, hc⟩ := List.mem_filterMap.1 hc
      exact isStep_of_ofSegment? hc (hpieces (List.mem_cons_of_mem _ hs))
    simp only [firstComponent?]
    split_ifs
    · exact ⟨[root], _, rfl, .inl rfl, hbody⟩
    · exact ⟨[current], _, rfl, .inr (.inl rfl), hbody⟩
    · refine ⟨[], _, rfl, .inr (.inr rfl), fun c hc => ?_⟩
      rcases List.mem_append.1 hc with hc | hc
      · exact isStep_of_ofSegment? (Option.mem_toList.1 hc) (hpieces (by simp))
      · exact hbody c hc

theorem isNormal_resolve (p : Path) : IsNormal (resolve p.components) := by
  have hnil : IsNormal ([] : List Component).reverse := ⟨[], [], rfl, .inr ⟨0, rfl⟩, by simp⟩
  have hroot : IsNormal [root].reverse := ⟨[root], [], rfl, .inl rfl, by simp⟩
  obtain ⟨first, body, hp, hfirst, hbody⟩ := exists_components p
  rw [resolve, hp, List.foldl_append]
  rcases hfirst with rfl | rfl | rfl
  · exact foldl_push_isNormal hroot hbody
  · exact foldl_push_isNormal hnil hbody
  · exact foldl_push_isNormal hnil hbody

theorem components_normalize (p : Path) : p.normalize.components = resolve p.components :=
  components_ofComponents (isNormal_resolve p)

/-! ### The order of paths -/

end Path

namespace Text

theorem compare_eq_compareLex : compare = List.compareLex (compareOn Char.val) := by
  funext t u
  induction t generalizing u with
  | nil => cases u <;> rfl
  | cons a t ih =>
    cases u with
    | nil => rfl
    | cons b u => rw [compare, List.compareLex_cons_cons, ih]; rfl

instance : Std.TransCmp Text.compare := by
  rw [compare_eq_compareLex]
  infer_instance

theorem eq_of_compare_eq {t u : Text} (h : compare t u = .eq) : t = u := by
  induction t generalizing u with
  | nil =>
    cases u with
    | nil => rfl
    | cons b u => simp [compare] at h
  | cons a t ih =>
    cases u with
    | nil => simp [compare] at h
    | cons b u =>
      rw [compare, Ordering.then_eq_eq] at h
      obtain ⟨hab, htu⟩ := h
      rw [Char.ext (Std.LawfulEqOrd.eq_of_compare hab), ih htu]

end Text

namespace Component

/-- The alphabetical order of the spellings. -/
def compareText (a b : Component) : Ordering := Text.compare a.text b.text

instance : Std.TransCmp compareText where
  eq_swap {a b} := @Std.OrientedCmp.eq_swap _ Text.compare _ a.text b.text
  isLE_trans {a b c} := @Std.TransCmp.isLE_trans _ Text.compare _ a.text b.text c.text

theorem compare_eq_compareLex : compare = compareLex (compareOn rank) compareText := rfl

instance : Std.TransCmp Component.compare := by
  rw [compare_eq_compareLex]
  infer_instance

theorem eq_of_compare_eq {a b : Component} (h : compare a b = .eq) : a = b := by
  rw [compare, Ordering.then_eq_eq] at h
  have hrank : a.rank = b.rank := Nat.compare_eq_eq.1 h.1
  have htext := Text.eq_of_compare_eq h.2
  cases a <;> cases b <;> simp_all [rank, text]

theorem compareAll_eq_compareLex : compareAll = List.compareLex compare := by
  funext as bs
  induction as generalizing bs with
  | nil => cases bs <;> rfl
  | cons a as ih =>
    cases bs with
    | nil => rfl
    | cons b bs => rw [compareAll, List.compareLex_cons_cons, ih]

instance : Std.TransCmp compareAll := by
  rw [compareAll_eq_compareLex]
  infer_instance

theorem eq_of_compareAll_eq {as bs : List Component} (h : compareAll as bs = .eq) : as = bs := by
  induction as generalizing bs with
  | nil =>
    cases bs with
    | nil => rfl
    | cons b bs => simp [compareAll] at h
  | cons a as ih =>
    cases bs with
    | nil => simp [compareAll] at h
    | cons b bs =>
      rw [compareAll, Ordering.then_eq_eq] at h
      rw [eq_of_compare_eq h.1, ih h.2]

end Component

namespace Path

open Component (compareAll)

variable {p q r : Path}

instance : Std.TransCmp Path.compare where
  eq_swap {p q} := @Std.OrientedCmp.eq_swap _ compareAll _ p.components q.components
  isLE_trans {p q r} := @Std.TransCmp.isLE_trans _ compareAll _ p.components q.components r.components

theorem le_trans (hpq : le p q) (hqr : le q r) : le p r := Std.TransCmp.isLE_trans hpq hqr

theorem le_total (p q : Path) : le p q || le q p := by
  rw [Bool.or_eq_true]
  by_cases h : le p q
  · exact .inl h
  · exact .inr (by rw [le, Std.OrientedCmp.lt_of_not_isLE h]; rfl)

theorem compare_ne_lt_self (p : Path) : compare p p ≠ .lt := by
  rw [show compare p p = .eq from Std.ReflCmp.compare_self]
  decide

instance : Std.Irrefl fun p q : Path => compare p q = .lt := ⟨compare_ne_lt_self⟩

instance : Std.Antisymm fun p q : Path => compare p q = .lt := ⟨fun p q hpq hqp => by
  rw [Std.OrientedCmp.gt_of_lt hpq] at hqp
  exact absurd hqp (by decide)⟩

/-- Normal forms that the order does not tell apart are the same. -/
theorem eq_of_compare_eq (h : compare p.normalize q.normalize = .eq) : p.normalize = q.normalize := by
  have hc := Component.eq_of_compareAll_eq h
  rw [components_normalize, components_normalize] at hc
  rw [normalize, normalize, hc]

end Path

end AppsScript
