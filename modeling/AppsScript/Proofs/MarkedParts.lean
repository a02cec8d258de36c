import AppsScript.Proofs.RepeatedMarks

/-!
# What marking does to each declaration

A text is divided at the declarations of triggers in it (`Divides`): each part is some code without one, and a
declaration behind it. `mark` keeps the parts, in their order, and adds a marker to those that lack it (`markParts`);
the outcome is divided at the same declarations (`mark_divides`).
-/

namespace AppsScript.Trigger

open Scan Text

variable {pre pre' t x y w post rest out name s s' : Text} {p : Char → Bool}

/-- Behind `pre` the text `w` declares the trigger `name`, up to its parenthesis. -/
def Declares (pre w name : Text) : Prop :=
  ∃ s s', w = opening s name s' ∧ s ≠ [] ∧ AllBlank s ∧ name ∈ triggers ∧ AllBlank s' ∧
    pre.getLast?.any isWord = false

/-- Code, a marker that has been added to it, if any, and the declaration of a trigger up to its parenthesis. -/
structure Part where
  code : Text
  added : Text
  head : Text
  name : Text

namespace Part

/-- All of the part. -/
def text (p : Part) : Text := p.code ++ (p.added ++ p.head)

/-- The part without the marker that has been added, and without the white space in the declaration. -/
def core (p : Part) : Text := p.code ++ p.head.filter fun c => !isBlank c

/-- The part with a marker added to it. -/
def marked (p : Part) : Part :=
  { p with added := markerText p.name ++ [' '], head := opening [' '] p.name [] }

/-- The part with a character in front of it. -/
def cons (c : Char) (p : Part) : Part := { p with code := c :: p.code }

end Part

/-- No declaration starts in `x`, which stands between `pre` and `y`. -/
def Undeclared (pre x y : Text) : Prop :=
  ∀ u v w post name, x = u ++ v → v ≠ [] → v ++ y = w ++ post → ¬ Declares (pre ++ u) w name

/-- Behind `pre` the text `t` consists of the parts and of the rest, and there are no other declarations in it than
those of the parts. -/
inductive Divides : (pre : Text) → (parts : List Part) → (rest t : Text) → Prop
  | rest {pre t : Text} : Undeclared pre t [] → Divides pre [] t t
  | part {pre rest t : Text} {p : Part} {parts : List Part} : Undeclared pre (p.code ++ p.added) (p.head ++ t) →
    Declares (pre ++ (p.code ++ p.added)) p.head p.name → Divides (pre ++ p.text) parts rest t →
    Divides pre (p :: parts) rest (p.text ++ t)

/-- The parts behind `pre`, with a marker added where the text in front of the declaration does not end with it. -/
def markParts : (pre : Text) → List Part → List Part
  | _, [] => []
  | pre, p :: parts =>
    (if markerText p.name <:+ trimEnd (pre ++ p.code) then p else p.marked) :: markParts (pre ++ p.text) parts

theorem isMarked_iff_suffix : isMarked name pre.reverse = true ↔ markerText name <:+ trimEnd pre := by
  rw [isMarked, marker_eq, Option.isSome_iff_exists]
  simp only [after?_eq_some_iff]
  rw [← List.reverse_prefix, trimEnd, List.reverse_reverse]
  exact exists_congr fun r => eq_comm

/-! ### Declarations -/

theorem Declares.congr (h : Declares pre w name) (hpre : pre'.getLast? = pre.getLast?) : Declares pre' w name := by
  obtain ⟨s, s', rfl, hs, hb, hn, hs', hedge⟩ := h
  exact ⟨s, s', rfl, hs, hb, hn, hs', by rwa [hpre]⟩

theorem Declares.getLast? (h : Declares pre w name) : w.getLast? = some '(' := by
  obtain ⟨s, s', rfl, -⟩ := h
  exact getLast?_opening ..

theorem Declares.exists_head (h : Declares pre w name) : ∃ v, w = 'f' :: v ∧ 'f' ∉ v ∧ '/' ∉ w := by
  obtain ⟨s, s', rfl, -, hb, hn, hs', -⟩ := h
  obtain ⟨hslash, hf⟩ := notMem_opening hb hn hs'
  obtain ⟨q, hq⟩ : ∃ q, opening s name s' = 'f' :: q := ⟨_, opening_eq ..⟩
  exact ⟨q, hq, by simpa [hq] using hf, hslash⟩

theorem Declares.getLast?_text {p : Part} (h : Declares pre p.head p.name) : (pre' ++ p.text).getLast? = some '(' := by
  obtain ⟨v, hv, -⟩ := h.exists_head
  rw [Part.text, ← List.append_assoc, ← List.append_assoc, List.getLast?_append_of_ne_nil _ (by simp [hv]),
    h.getLast?]

theorem filter_opening (hb : AllBlank s) (hn : name ∈ triggers) (hs' : AllBlank s') :
    (opening s name s').filter (fun c => !isBlank c) = "function" ++ (name ++ ['(']) := by
  have hnone {g : Text} (hg : AllBlank g) : g.filter (fun c => !isBlank c) = [] :=
    List.filter_eq_nil_iff.2 fun c hc => by simp [hg c hc]
  have hall : ∀ name ∈ triggers, name.filter (fun c => !isBlank c) = name := by
    simp only [triggers, String.reduceToList]
    decide
  simp only [opening_eq, List.filter_append, hnone hb, hnone hs', hall name hn]
  simp only [String.reduceToList]
  rfl

theorem declares_marked (hn : name ∈ triggers) :
    Declares (pre ++ (markerText name ++ [' '])) (opening [' '] name []) name := by
  refine ⟨[' '], [], rfl, by simp, by simpa [AllBlank] using by decide, hn, by simp [AllBlank], ?_⟩
  rw [← List.append_assoc, List.getLast?_concat]
  decide

theorem not_declares_of_passes (h : declarationHead.Passes pre (w ++ post)) : ¬ Declares pre w name := by
  rintro ⟨s, s', rfl, hs, hb, hn, hs', hedge⟩
  exact fails_iff.1 (consumes_declarationHead.fails h) _ post _ rfl
    (reads_declarationHead.2 ⟨s, name, s', rfl, hs, hb, hn, hs', hedge, rfl⟩)

/-! ### Code without declarations -/

theorem Undeclared.cons {c : Char} (hc : ∀ w post name, c :: (x ++ y) = w ++ post → ¬ Declares pre w name)
    (h : Undeclared (pre ++ [c]) x y) : Undeclared pre (c :: x) y := by
  rintro (_ | ⟨d, u⟩) v w post name hx hv hw
  · obtain rfl : c :: x = v := hx
    simpa using hc w post name hw
  · obtain ⟨rfl, rfl⟩ := List.cons.inj hx
    simpa using h u v w post name rfl hv hw

theorem undeclared_of_notMem (hx : 'f' ∉ x) : Undeclared pre x y := by
  rintro u v w post name rfl hv hw h
  obtain ⟨w, rfl, -⟩ := h.exists_head
  obtain ⟨c, v, rfl⟩ := List.exists_cons_of_ne_nil hv
  obtain ⟨rfl, -⟩ := List.cons.inj hw
  exact hx (by simp)

theorem undeclared_nil : Undeclared pre [] y := undeclared_of_notMem (by simp)

theorem Undeclared.append {z : Text} (h : Undeclared pre x (y ++ z)) (h' : Undeclared (pre ++ x) y z) :
    Undeclared pre (x ++ y) z := by
  rintro u v w post name huv hv hw
  rcases List.append_eq_append_iff.1 huv with ⟨a, rfl, rfl⟩ | ⟨a, rfl, rfl⟩
  · simpa using h' a v w post name rfl hv hw
  · by_cases ha : a = []
    · subst ha
      simpa using h' [] y w post name rfl (by simpa using hv) (by simpa using hw)
    · exact h u a w post name rfl ha (by simpa using hw)

/-- A declaration cannot reach across the `/` of a marker or the `f` of another declaration. -/
theorem Undeclared.congr {y' : Text} (h : Undeclared pre x y) (hpre : pre'.getLast? = pre.getLast?)
    (hy : ∀ c ∈ y'.head?, c = '/' ∨ c = 'f') : Undeclared pre' x y' := by
  rintro u v w post name rfl hv hw hd
  have hd' : Declares (pre ++ u) w name := hd.congr (by rw [List.getLast?_append, List.getLast?_append, hpre])
  obtain ⟨q, rfl, hf, hslash⟩ := hd.exists_head
  rcases List.append_eq_append_iff.1 hw with ⟨a, hqa, rfl⟩ | ⟨a, rfl, rfl⟩
  · cases a with
    | nil => exact h u v _ y name rfl hv (by simpa using congrArg (· ++ y) hqa.symm) hd'
    | cons c a =>
      obtain ⟨d, v, rfl⟩ := List.exists_cons_of_ne_nil hv
      obtain ⟨rfl, rfl⟩ := List.cons.inj hqa
      rcases hy c rfl with rfl | rfl
      · exact hslash (by simp)
      · exact hf (by simp)
  · exact h u _ _ (a ++ y) name rfl hv (by simp) hd'

/-! ### Dividing a text -/

/-- The edit divides the text behind `pre`, and it puts the parts with their markers. -/
theorem exists_divides (h : Spliced declarationHead.Passes declarationHead.Puts pre t [] out) :
    ∃ parts rest, Divides pre parts rest t ∧ (∀ p ∈ parts, p.added = []) ∧
      out = (markParts pre parts).flatMap Part.text ++ rest := by
  generalize hpost : ([] : Text) = post at h
  induction h with
  | done => exact ⟨[], [], .rest undeclared_nil, by simp, rfl⟩
  | @keep pre t post out c hc h ih =>
    subst hpost
    rw [List.append_nil] at hc
    have hnone {x y : Text} (ht : t = x ++ y) : ∀ w post name, c :: (x ++ y) = w ++ post → ¬ Declares pre w name :=
      fun w post name hw => by
        have hpasses : declarationHead.Passes pre (w ++ post) := by rwa [← hw, ← ht]
        exact not_declares_of_passes hpasses
    obtain ⟨parts, rest, hd, hadded, rfl⟩ := ih rfl
    cases hd with
    | rest hu => exact ⟨[], c :: t, .rest (.cons (hnone (by simp)) hu), by simp, rfl⟩
    | @part _ _ t p parts hu hp hd =>
      -- The character belongs to the part that starts behind it.
      have hnil : p.added = [] := hadded p (by simp)
      have htext : pre ++ (p.cons c).text = pre ++ [c] ++ p.text := by simp [Part.text, Part.cons]
      have hcode : pre ++ (p.cons c).code = pre ++ [c] ++ p.code := by simp [Part.cons]
      have hdiv : Divides pre (p.cons c :: parts) rest ((p.cons c).text ++ t) :=
        .part (.cons (hnone (by simp [Part.text, Part.cons])) hu) (by simpa [Part.cons] using hp) (by rwa [htext])
      refine ⟨_, rest, hdiv, by simpa [Part.cons, hnil] using fun q hq => hadded q (by simp [hq]), ?_⟩
      rw [markParts, markParts, htext, hcode, show (p.cons c).name = p.name from rfl]
      split_ifs <;> simp [Part.text, Part.cons, Part.marked]
  | @put pre w t post r out hw hne h ih =>
    subst hpost
    obtain ⟨e, he, rfl⟩ := hw
    obtain ⟨s, name, s', rfl, hs, hb, hn, hs', hedge, rfl⟩ := reads_declarationHead.1 he.reads
    obtain ⟨parts, rest, hd, hadded, rfl⟩ := ih rfl
    have hdiv : Divides pre (⟨[], [], opening s name s', name⟩ :: parts) rest
        ((⟨[], [], opening s name s', name⟩ : Part).text ++ t) :=
      .part undeclared_nil ⟨s, s', rfl, hs, hb, hn, hs', by simpa using hedge⟩ (by simpa [Part.text] using hd)
    refine ⟨_, rest, hdiv, by simpa using hadded, ?_⟩
    have hmarked : isMarked name pre.reverse = true ↔ markerText name <:+ trimEnd (pre ++ []) := by
      rw [List.append_nil]
      exact isMarked_iff_suffix
    by_cases h : markerText name <:+ trimEnd (pre ++ [])
    · rw [markParts, if_pos h, if_pos (hmarked.2 h)]
      simp [Part.text]
    · rw [markParts, if_neg h, if_neg (mt hmarked.1 h)]
      simp [Part.text, Part.marked, marking_eq_append]

/-- Markers divide a text at the same declarations. -/
theorem Divides.mark {parts : List Part} (h : Divides pre parts rest t) (hadded : ∀ p ∈ parts, p.added = [])
    (hpre : pre'.getLast? = pre.getLast?) :
    Divides pre' (markParts pre parts) rest ((markParts pre parts).flatMap Part.text ++ rest) := by
  induction h generalizing pre' with
  | rest hu => exact .rest (hu.congr hpre (by simp))
  | @part pre rest t p parts hu hp hd ih =>
    have hnil : p.added = [] := hadded p (by simp)
    have hlast : (pre' ++ p.code).getLast? = (pre ++ p.code).getLast? := by
      rw [List.getLast?_append, List.getLast?_append, hpre]
    rw [hnil, List.append_nil] at hu hp
    rw [markParts]
    split_ifs with hmark
    · rw [List.flatMap_cons, List.append_assoc]
      refine .part ?_ ?_ (ih (fun q hq => hadded q (by simp [hq])) ?_)
      · rw [hnil, List.append_nil]
        refine hu.congr hpre ?_
        obtain ⟨v, hv, -⟩ := hp.exists_head
        simp [hv]
      · rw [hnil, List.append_nil]
        exact hp.congr hlast
      · rw [hp.getLast?_text, hp.getLast?_text]
    · obtain ⟨-, -, -, -, -, hn, -⟩ := id hp
      have hmarked : Declares (pre' ++ (p.marked.code ++ p.marked.added)) p.marked.head p.marked.name := by
        rw [← List.append_assoc]
        exact declares_marked hn
      rw [List.flatMap_cons, List.append_assoc]
      refine .part ?_ hmarked (ih (fun q hq => hadded q (by simp [hq])) ?_)
      · refine Undeclared.append (hu.congr hpre (by simp [Part.marked, markerText, Text.concat])) (undeclared_of_notMem ?_)
        simpa [Part.marked] using notMem_marker hn 'f' (by simp)
      · rw [hmarked.getLast?_text, hp.getLast?_text]

theorem core_markParts {parts : List Part} (h : Divides pre parts rest t) :
    (markParts pre parts).map Part.core = parts.map Part.core := by
  induction h with
  | rest => rfl
  | @part pre rest t p parts hu hp hd ih =>
    obtain ⟨s, s', hhead, -, hb, hn, hs', -⟩ := hp
    have hmarked : p.marked.core = p.core := by
      rw [Part.core, Part.core, hhead, filter_opening hb hn hs', Part.marked]
      have hblank : AllBlank [' '] := by simpa [AllBlank] using by decide
      simp only [filter_opening hblank hn (show AllBlank [] by simp [AllBlank])]
    rw [markParts, List.map_cons, List.map_cons, ih]
    split_ifs
    · rfl
    · rw [hmarked]

/-- Marking keeps a text but for its declarations without markers: to each of these, and to no other, its marker is
added, and the white space in it becomes a single blank. Without these markers, and up to this white space, the outcome
is the text again. Its declarations are those of the text, all of them have their markers, and marking it changes
nothing. -/
theorem mark_divides (t : Text) : ∃ parts rest, Divides [] parts rest t ∧ (∀ p ∈ parts, p.added = []) ∧
    Divides [] (markParts [] parts) rest (mark t) ∧ (markParts [] parts).map Part.core = parts.map Part.core ∧
    Marked (mark t) ∧ mark (mark t) = mark t := by
  obtain ⟨parts, rest, hd, hadded, hout⟩ := exists_divides (spliced_edit declarationHead t)
  refine ⟨parts, rest, hd, hadded, ?_, core_markParts hd, marked_mark t, ?_⟩
  · rw [show mark t = _ from hout]
    exact hd.mark hadded rfl
  · exact mark_of_spliced (spliced_edit declarationHead t).changes

end AppsScript.Trigger
