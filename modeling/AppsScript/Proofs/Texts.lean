import AppsScript.Proofs.Reading
import Mathlib.Data.List.Sort
import Mathlib.Data.List.TakeWhile

/-!
# Pieces of texts

Where one text is divided in two ways, one division determines the other as soon as the characters at
the cut are told apart by a class (`span_unique`) or by a character that one part lacks
(`prefix_of_notMem`). `AllBlank` and `AllIndent` name the two kinds of space between words.
-/

namespace AppsScript.Text

variable {p : Char → Bool} {u v r s t : Text} {c : Char}

theorem concat_nil : concat [] = [] := rfl

theorem concat_cons (t : Text) (ts : List Text) : concat (t :: ts) = t ++ concat ts := rfl

def AllBlank (t : Text) : Prop := ∀ c ∈ t, isBlank c

/-- The text consists of spaces and tabs. -/
def AllIndent (t : Text) : Prop := ∀ c ∈ t, c = ' ' ∨ c = '\t'

theorem isIndent_iff : Source.isIndent c ↔ c = ' ' ∨ c = '\t' := by
  rw [Source.isIndent, Bool.or_eq_true, beq_iff_eq, beq_iff_eq]

theorem allIndent_iff : AllIndent t ↔ ∀ c ∈ t, Source.isIndent c :=
  forall₂_congr fun _ _ => isIndent_iff.symm

instance : DecidablePred AllIndent := fun t =>
  decidable_of_iff (t.all Source.isIndent = true) (by rw [allIndent_iff, List.all_eq_true])

theorem AllIndent.isIndent (h : AllIndent t) : ∀ c ∈ t, Source.isIndent c := allIndent_iff.1 h

theorem allIndent_nil : AllIndent [] := by simp [AllIndent]

theorem allIndent_space : AllIndent [' '] := by simp [AllIndent]

theorem isBlank_of_isIndent (h : Source.isIndent c) : isBlank c := by
  rcases isIndent_iff.1 h with rfl | rfl <;> decide

theorem AllIndent.allBlank (h : AllIndent t) : AllBlank t := fun c hc => isBlank_of_isIndent (h.isIndent c hc)

theorem AllBlank.notMem (h : AllBlank t) (hc : isBlank c = false) : c ∉ t := fun hm => by
  have := h c hm
  rw [hc] at this
  exact absurd this (by simp)

/-- The code points of white space. -/
def blankPoints : List Nat :=
  [9, 10, 11, 12, 13, 0x20, 0x85, 0xa0, 0x1680, 0x2000, 0x2001, 0x2002, 0x2003, 0x2004, 0x2005,
   0x2006, 0x2007, 0x2008, 0x2009, 0x200a, 0x2028, 0x2029, 0x202f, 0x205f, 0x3000]

theorem toNat_mem_blankPoints (h : isBlank c) : c.toNat ∈ blankPoints := by
  simp only [isBlank, Bool.or_eq_true, Bool.and_eq_true, decide_eq_true_eq, beq_iff_eq] at h
  simp only [blankPoints, List.mem_cons, List.not_mem_nil, or_false]
  omega

theorem not_isWord_of_isBlank (h : isBlank c) : isWord c = false := by
  have hall : ∀ n ∈ blankPoints, isWord (Char.ofNat n) = false := by decide +kernel
  rw [← Char.ofNat_toNat c]
  exact hall _ (toNat_mem_blankPoints h)

theorem not_isName_of_isBlank (h : isBlank c) : Source.isName c = false := by
  rw [Source.isName, not_isWord_of_isBlank h, Bool.false_or, beq_eq_false_iff_ne]
  rintro rfl
  exact absurd h (by decide)

theorem toNat_lt_of_isAlphanum (h : c.isAlphanum) : c.toNat < 0x80 := by
  delta Char.isAlphanum Char.isAlpha Char.isUpper Char.isLower Char.isDigit at h
  simp only [Bool.or_eq_true, Bool.and_eq_true, decide_eq_true_eq, ge_iff_le, UInt32.le_iff_toNat_le] at h
  show c.val.toNat < 0x80
  rcases h with (⟨-, h⟩ | ⟨-, h⟩) | ⟨-, h⟩ <;> exact Nat.lt_of_le_of_lt h (by decide)

theorem isWord_of_isAlphanum (h : c.isAlphanum) : isWord c := by
  rw [isWord, if_pos (toNat_lt_of_isAlphanum h), h, Bool.true_or]

theorem isName_of_isAlphanum (h : c.isAlphanum) : Source.isName c := by
  rw [Source.isName, isWord_of_isAlphanum h, Bool.true_or]

/-- `t` begins with a character that is not white space. -/
def Solid (t : Text) : Prop := ∃ c v, t = c :: v ∧ isBlank c = false

theorem solid_cons : Solid (c :: t) ↔ isBlank c = false := by
  constructor
  · rintro ⟨_, _, h, hc⟩
    obtain ⟨rfl, -⟩ := List.cons.inj h
    exact hc
  · exact fun h => ⟨c, t, rfl, h⟩

theorem Solid.append (h : Solid u) (v : Text) : Solid (u ++ v) := by
  obtain ⟨c, u, rfl, hc⟩ := h
  exact ⟨c, u ++ v, rfl, hc⟩

theorem solid_of_isName (hne : t ≠ []) (h : ∀ c ∈ t, Source.isName c) : Solid t := by
  obtain ⟨c, v, rfl⟩ := List.exists_cons_of_ne_nil hne
  refine ⟨c, v, rfl, ?_⟩
  by_contra hc
  have := h c (by simp)
  rw [not_isName_of_isBlank (by simpa using hc)] at this
  exact absurd this (by simp)

theorem solid_of_isWord (hne : t ≠ []) (h : ∀ c ∈ t, isWord c) : Solid t :=
  solid_of_isName hne fun c hc => by simp [Source.isName, h c hc]

theorem not_isWord_head (hu : AllBlank u) (hv : ∀ c ∈ v.head?, ¬ isWord c) :
    ∀ c ∈ (u ++ v).head?, ¬ isWord c := by
  cases u with
  | nil => exact hv
  | cons c u => simpa using not_isWord_of_isBlank (hu c (by simp))

theorem Solid.not_isBlank (h : Solid t) : ∀ c ∈ t.head?, ¬ isBlank c := by
  obtain ⟨c, t, rfl, hc⟩ := h
  simpa using hc

theorem Solid.not_isIndent (h : Solid t) : ∀ c ∈ t.head?, ¬ Source.isIndent c :=
  fun c hc hi => h.not_isBlank c hc (isBlank_of_isIndent hi)

/-- The lines one after another, each with the line feed that ends it. -/
def unlines (ls : List Text) : Text := ls.flatMap (· ++ ['\n'])

@[simp] theorem unlines_nil : unlines [] = [] := rfl

@[simp] theorem unlines_cons (l : Text) (ls : List Text) :
    unlines (l :: ls) = l ++ '\n' :: unlines ls := by
  simp [unlines]

theorem takeWhile_append (hu : ∀ c ∈ u, p c) (hr : ∀ c ∈ r.head?, ¬ p c) :
    (u ++ r).takeWhile p = u := by
  rw [List.takeWhile_append_of_pos hu]
  cases r with
  | nil => simp
  | cons x r => simp [show p x = false by simpa using hr x]

theorem span_unique (h : u ++ r = v ++ s) (hu : ∀ c ∈ u, p c) (hv : ∀ c ∈ v, p c)
    (hr : ∀ c ∈ r.head?, ¬ p c) (hs : ∀ c ∈ s.head?, ¬ p c) : u = v ∧ r = s := by
  have huv : u = v := by rw [← takeWhile_append hu hr, h, takeWhile_append hv hs]
  subst huv
  exact ⟨rfl, List.append_cancel_left h⟩

theorem AllIndent.unique (hu : AllIndent u) (hv : AllIndent v) (h : u ++ r = v ++ s)
    (hr : ∀ c ∈ r.head?, ¬ Source.isIndent c) (hs : ∀ c ∈ s.head?, ¬ Source.isIndent c) : u = v ∧ r = s :=
  span_unique h hu.isIndent hv.isIndent hr hs

/-- A character that a text has at most in first place does not start a later part of it. -/
theorem head_ne_of_notMem_tail (ht : c ∉ t.tail) (h : u ++ v = t) (hu : u ≠ []) : v.head? ≠ some c := by
  subst h
  obtain ⟨x, u, rfl⟩ := List.exists_cons_of_ne_nil hu
  intro hv
  refine ht (List.mem_append_right _ ?_)
  exact List.mem_of_head? hv

theorem trimStart_append (hu : AllBlank u) (hr : Solid r) : trimStart (u ++ r) = r := by
  obtain ⟨c, r, rfl, hc⟩ := hr
  rw [trimStart, List.dropWhile_append_of_pos hu, List.dropWhile_cons_of_neg (by simp [hc])]

/-- Every text is white space and then nothing or something else. -/
theorem exists_trimStart (t : Text) :
    ∃ g, t = g ++ trimStart t ∧ AllBlank g ∧ (trimStart t = [] ∨ Solid (trimStart t)) := by
  refine ⟨t.takeWhile isBlank, (List.takeWhile_append_dropWhile ..).symm,
    fun c hc => List.mem_takeWhile_imp hc, ?_⟩
  cases h : trimStart t with
  | nil => exact .inl rfl
  | cons c r =>
    have hc : ¬ isBlank c := by
      have := List.head?_dropWhile_not isBlank t
      rw [show t.dropWhile isBlank = c :: r from h] at this
      simpa using this
    exact .inr ⟨c, r, rfl, by simpa using hc⟩

/-- Every text is white space, what `trim` leaves of it, and white space. -/
theorem exists_trim (t : Text) : ∃ g g', t = g ++ (trim t ++ g') ∧ AllBlank g ∧ AllBlank g' := by
  obtain ⟨g, hg, hblank, -⟩ := exists_trimStart t
  refine ⟨g, ((trimStart t).reverse.takeWhile isBlank).reverse, ?_, hblank, fun c hc => ?_⟩
  · have := congrArg List.reverse (List.takeWhile_append_dropWhile (p := isBlank) (l := (trimStart t).reverse))
    rw [List.reverse_append, List.reverse_reverse] at this
    rw [trim, trimEnd, this, ← hg]
  · exact List.mem_takeWhile_imp (List.mem_reverse.1 hc)

theorem trim_eq_nil_iff : trim t = [] ↔ AllBlank t := by
  constructor
  · intro h
    obtain ⟨g, g', ht, hg, hg'⟩ := exists_trim t
    rw [h, List.nil_append] at ht
    rw [ht]
    exact fun c hc => (List.mem_append.1 hc).elim (hg c) (hg' c)
  · intro h
    have hstart : trimStart t = [] := List.dropWhile_eq_nil_iff.2 h
    rw [trim, hstart]
    rfl

/-- A text without `c` that a text with `c` starts with ends before the first `c`. -/
theorem prefix_of_notMem (h : u ++ r = v ++ c :: s) (hu : c ∉ u) : ∃ w, v = u ++ w ∧ r = w ++ c :: s := by
  rcases List.append_eq_append_iff.1 h with ⟨w, rfl, rfl⟩ | ⟨w, rfl, hw⟩
  · exact ⟨w, rfl, rfl⟩
  · cases w with
    | nil => exact ⟨[], by simpa using hw.symm⟩
    | cons x w =>
      obtain ⟨rfl, -⟩ := List.cons.inj hw
      exact absurd (by simp) hu

/-- A cut of a text lies at or before a character of it, or behind that. -/
theorem split_cons (h : u ++ c :: v = r ++ s) :
    (∃ w, u = r ++ w ∧ s = w ++ c :: v) ∨ ∃ w, r = u ++ c :: w ∧ v = w ++ s := by
  rcases List.append_eq_append_iff.1 h with ⟨w, rfl, hw⟩ | ⟨w, rfl, hw⟩
  · cases w with
    | nil => exact .inl ⟨[], by simp, hw.symm⟩
    | cons x w =>
      obtain ⟨rfl, rfl⟩ := List.cons.inj hw
      exact .inr ⟨w, rfl, rfl⟩
  · exact .inl ⟨w, rfl, hw⟩

/-- A text has one first `c`. -/
theorem first_unique (h : u ++ c :: v = r ++ c :: s) (hu : c ∉ u) (hr : c ∉ r) : u = r ∧ v = s := by
  obtain ⟨w, rfl, hw⟩ := prefix_of_notMem h hu
  cases w with
  | nil => exact ⟨by simp, (List.cons.inj hw).2⟩
  | cons x w =>
    obtain ⟨rfl, -⟩ := List.cons.inj hw
    exact absurd (by simp) hr

/-- What stands in front of the last character of a text, and what ends with it. -/
theorem eq_append_of_concat_eq (h : t ++ [c] = u ++ v) (hv : v ≠ []) : ∃ w, v = w ++ [c] ∧ t = u ++ w := by
  obtain ⟨w, d, rfl⟩ := (List.eq_nil_or_concat v).resolve_left hv
  rw [List.concat_eq_append, ← List.append_assoc] at h
  obtain ⟨rfl, hd⟩ := List.append_inj' h rfl
  exact ⟨w, by rw [List.concat_eq_append, hd], rfl⟩

/-! ### Pieces between separators -/

theorem beq_eq_false_of_notMem (h : c ∉ t) : ∀ x ∈ t, (x == c) = false := by
  intro x hx
  rw [beq_eq_false_iff_ne]
  rintro rfl
  exact h hx

theorem pieces_ne_nil (p : Char → Bool) : ∀ t : Text, pieces p t ≠ []
  | [] => by simp [pieces]
  | c :: t => by
    rw [pieces]
    split_ifs
    · simp
    · cases pieces p t <;> simp

theorem pieces_of_not (ht : ∀ c ∈ t, p c = false) : pieces p t = [t] := by
  induction t with
  | nil => rfl
  | cons c t ih =>
    rw [pieces, if_neg (by simp [ht c (by simp)]), ih fun x hx => ht x (by simp [hx])]

theorem pieces_append_cons (hc : p c = true) : pieces p (t ++ c :: u) = pieces p t ++ pieces p u := by
  induction t with
  | nil => rw [List.nil_append, pieces_of_not (t := []) (by simp), pieces, if_pos hc, List.singleton_append]
  | cons x t ih =>
    rw [List.cons_append, pieces, pieces, ih]
    split_ifs
    · rfl
    · obtain ⟨q, qs, hq⟩ := List.exists_cons_of_ne_nil (pieces_ne_nil p t)
      rw [hq]
      rfl

theorem pieces_append (ht : ∀ c ∈ t, p c = false) (hc : p c = true) :
    pieces p (t ++ c :: u) = t :: pieces p u := by
  rw [pieces_append_cons hc, pieces_of_not ht, List.singleton_append]

theorem not_of_mem_pieces (h : u ∈ pieces p t) : ∀ c ∈ u, p c = false := by
  induction t generalizing u with
  | nil =>
    obtain rfl : u = [] := by simpa [pieces] using h
    simp
  | cons x t ih =>
    rw [pieces] at h
    split_ifs at h with hx
    · rcases List.mem_cons.1 h with rfl | h
      · simp
      · exact ih h
    · obtain ⟨q, qs, hq⟩ := List.exists_cons_of_ne_nil (pieces_ne_nil p t)
      rw [hq] at h ih
      rcases List.mem_cons.1 h with rfl | h
      · intro c hc
        rcases List.mem_cons.1 hc with rfl | hc
        · simpa using hx
        · exact ih (by simp) c hc
      · exact ih (List.mem_cons_of_mem _ h)

/-- The lines of a text, without the line feeds between them. -/
def lines (t : Text) : List Text := pieces (· == '\n') t

theorem lines_append (ht : '\n' ∉ t) : lines (t ++ '\n' :: u) = t :: lines u :=
  pieces_append (beq_eq_false_of_notMem ht) rfl

theorem lines_of_notMem (ht : '\n' ∉ t) : lines t = [t] := pieces_of_not (beq_eq_false_of_notMem ht)

theorem joinWith_cons_cons (sep t u : Text) (ts : List Text) :
    joinWith sep (t :: u :: ts) = t ++ (sep ++ joinWith sep (u :: ts)) := by
  simp [joinWith, List.intercalate]

theorem joinWith_singleton (sep t : Text) : joinWith sep [t] = t := by simp [joinWith, List.intercalate]

theorem head?_joinWith {sep : Text} {ts : List Text} (ht : t ≠ []) : (joinWith sep (t :: ts)).head? = t.head? := by
  cases ts with
  | nil => rw [joinWith_singleton]
  | cons u ts => rw [joinWith_cons_cons, List.head?_append_of_ne_nil _ ht]

theorem pieces_joinWith {ts : List Text} (hne : ts ≠ []) (hts : ∀ t ∈ ts, '/' ∉ t) :
    pieces (· == '/') (joinWith "/" ts) = ts := by
  induction ts with
  | nil => exact absurd rfl hne
  | cons t ts ih =>
    cases ts with
    | nil => rw [joinWith_singleton, pieces_of_not (beq_eq_false_of_notMem (hts t (by simp)))]
    | cons u ts =>
      rw [joinWith_cons_cons, show (("/" : Text) ++ joinWith "/" (u :: ts)) = '/' :: joinWith "/" (u :: ts) from rfl,
        pieces_append (beq_eq_false_of_notMem (hts t (by simp))) (by decide), ih (by simp) fun v hv => hts v (by simp [hv])]

end AppsScript.Text

namespace AppsScript.Source

open Scan Text

variable {pre w post : Text} {o : Unit}

@[simp] theorem reads_indent : indent.Reads pre w post o ↔ AllIndent w := by
  rw [indent, reads_many, allIndent_iff]

@[simp] theorem reads_indent1 : indent1.Reads pre w post o ↔ w ≠ [] ∧ AllIndent w := by
  rw [indent1, reads_many1, allIndent_iff]

end AppsScript.Source
