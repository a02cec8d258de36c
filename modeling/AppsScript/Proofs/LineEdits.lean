import AppsScript.Proofs.Editing
import AppsScript.Proofs.Texts

/-!
# Edits line by line

A `Linewise` scan reads within a line, from its start on. An edit by it goes from line to line
(`editAt_line`): the lines of the outcome are what becomes of the lines of the text (`OnLine`), each in its
own place (`Linewise.lineAt_edit`). What is in front of a line has changed line by line too, and so a reader that no
change of a line disturbs comes to the line as it did in the text.
-/

namespace AppsScript

namespace Text

variable {pre line post l t : Text} {i : Nat}

/-- `line` is the line of `t` with `i` others in front of it, which lies between `pre` and `post`. -/
structure LineAt (t : Text) (i : Nat) (pre line post : Text) : Prop where
  eq : t = pre ++ (line ++ post)
  start : pre.AtLineStart
  count : pre.count '\n' = i
  notMem : '\n' ∉ line
  stop : post.AtLineEnd

theorem atLineStart_nil : AtLineStart [] := by simp [AtLineStart]

theorem atLineStart_cons_newline : AtLineStart (l ++ '\n' :: pre) ↔ pre.AtLineStart := by
  rcases List.eq_nil_or_concat pre with rfl | ⟨q, c, rfl⟩
  · simp [AtLineStart]
  · have hsplit : l ++ '\n' :: (q ++ [c]) = (l ++ '\n' :: q) ++ [c] := by simp
    rw [List.concat_eq_append, hsplit, AtLineStart, AtLineStart, List.getLast?_concat, List.getLast?_concat]

/-- A text in front of a line is empty, or it starts with a line of its own. -/
theorem AtLineStart.cases (h : pre.AtLineStart) :
    pre = [] ∨ ∃ l q, pre = l ++ '\n' :: q ∧ '\n' ∉ l ∧ AtLineStart q := by
  by_cases hmem : '\n' ∈ pre
  · obtain ⟨l, q, rfl, hl⟩ := List.eq_append_cons_of_mem hmem
    exact .inr ⟨l, q, rfl, hl, atLineStart_cons_newline.1 h⟩
  · rcases List.eq_nil_or_concat pre with rfl | ⟨q, c, rfl⟩
    · exact .inl rfl
    · exact absurd (by simp [h c (by simp)]) hmem

theorem count_line (hl : '\n' ∉ l) : (l ++ '\n' :: pre).count '\n' = pre.count '\n' + 1 := by
  rw [List.count_append, List.count_eq_zero_of_not_mem hl, List.count_cons_self, Nat.zero_add]

theorem length_lines (t : Text) : (lines t).length = t.count '\n' + 1 := by
  generalize hn : t.count '\n' = n
  induction n generalizing t with
  | zero => rw [lines_of_notMem (List.count_eq_zero.1 hn), List.length_singleton]
  | succ n ih =>
    obtain ⟨l, u, rfl, hl⟩ := List.eq_append_cons_of_mem (List.count_pos_iff.1 (by omega : 0 < t.count '\n'))
    rw [count_line hl] at hn
    rw [lines_append hl, List.length_cons, ih u (by omega)]

theorem getElem?_lines (h : LineAt t i pre line post) : (lines t)[i]? = some line := by
  obtain ⟨rfl, hpre, rfl, hline, hpost⟩ := h
  generalize hn : pre.length = n
  induction n using Nat.strong_induction_on generalizing pre with
  | _ n ih =>
    rcases hpre.cases with rfl | ⟨l, q, rfl, hl, hq⟩
    · cases post with
      | nil => simp [lines_of_notMem hline]
      | cons c post =>
        obtain rfl := hpost c rfl
        simp [lines_append hline]
    · have hlt : q.length < n := by
        rw [← hn, List.length_append, List.length_cons]
        omega
      rw [List.append_assoc, List.cons_append, lines_append hl, count_line hl, List.getElem?_cons_succ]
      exact ih q.length hlt hq rfl

theorem exists_lineAt (h : (lines t)[i]? = some line) : ∃ pre post, LineAt t i pre line post := by
  induction i generalizing t with
  | zero =>
    by_cases hmem : '\n' ∈ t
    · obtain ⟨l, u, rfl, hl⟩ := List.eq_append_cons_of_mem hmem
      rw [lines_append hl] at h
      obtain rfl : l = line := by simpa using h
      exact ⟨[], '\n' :: u, by simp, atLineStart_nil, rfl, hl, by simp [AtLineEnd]⟩
    · rw [lines_of_notMem hmem] at h
      obtain rfl : t = line := by simpa using h
      exact ⟨[], [], by simp, atLineStart_nil, rfl, hmem, by simp [AtLineEnd]⟩
  | succ i ih =>
    by_cases hmem : '\n' ∈ t
    · obtain ⟨l, u, rfl, hl⟩ := List.eq_append_cons_of_mem hmem
      rw [lines_append hl, List.getElem?_cons_succ] at h
      obtain ⟨pre, post, rfl, hpre, rfl, hline, hpost⟩ := ih h
      exact ⟨l ++ '\n' :: pre, post, by simp, atLineStart_cons_newline.2 hpre, count_line hl, hline, hpost⟩
    · rw [lines_of_notMem hmem] at h
      simp at h

end Text

namespace Scan

open Text Cursor

variable {m : Scan (Option Text)} {pre w rest line post t out r : Text} {e : Option Text}

/-- `m` reads a part of a line from its start on, and what it puts is a part of one. -/
structure Linewise (m : Scan (Option Text)) : Prop where
  start : ∀ {pre w post e}, m.Reads pre w post e → pre.AtLineStart
  within : ∀ {pre w post e}, m.Reads pre w post e → '\n' ∉ w
  consumes : m.Consumes
  puts : ∀ {pre w post r}, m.Reads pre w post (some r) → '\n' ∉ r

/-- `out` becomes of the line between `pre` and `post`. -/
def OnLine (m : Scan (Option Text)) (pre line post out : Text) : Prop :=
  m.Fails pre (line ++ post) ∧ out = line ∨
    ∃ w rest e, line = w ++ rest ∧ m.ReadsFirst pre w (rest ++ post) e ∧ out = e.getD w ++ rest

theorem exists_line_prefix (hw : '\n' ∉ w) (hpost : post.AtLineEnd) (h : line ++ post = w ++ r) :
    ∃ rest, line = w ++ rest ∧ r = rest ++ post := by
  cases post with
  | nil => exact ⟨r, by simpa using h, by simp⟩
  | cons c post =>
    obtain rfl := hpost c rfl
    exact prefix_of_notMem h.symm hw

theorem Linewise.exists_onLine (hm : m.Linewise) (hpost : post.AtLineEnd) : ∃ out, m.OnLine pre line post out := by
  by_cases hf : m.Fails pre (line ++ post)
  · exact ⟨line, .inl ⟨hf, rfl⟩⟩
  · obtain ⟨w, r, e, ht, hr⟩ := exists_readsFirst hf
    obtain ⟨rest, rfl, rfl⟩ := exists_line_prefix (hm.within hr.reads) hpost ht
    exact ⟨_, .inr ⟨w, rest, e, rfl, hr, rfl⟩⟩

/-- A line stays as it is, or its start changes. -/
theorem OnLine.eq_or_changes (h : m.OnLine pre line post out) :
    out = line ∨ ∃ w rest r, line = w ++ rest ∧ m.Changes pre w (rest ++ post) r ∧ out = r ++ rest := by
  rcases h with ⟨-, rfl⟩ | ⟨w, rest, e, rfl, hr, rfl⟩
  · exact .inl rfl
  · cases e with
    | none => exact .inl rfl
    | some r => exact .inr ⟨w, rest, r, rfl, hr, rfl⟩

theorem OnLine.notMem (hm : m.Linewise) (h : m.OnLine pre line post out) (hline : '\n' ∉ line) : '\n' ∉ out := by
  rcases h.eq_or_changes with rfl | ⟨w, rest, r, rfl, hr, rfl⟩
  · exact hline
  · rw [List.mem_append, not_or] at hline ⊢
    exact ⟨hm.puts hr.reads, hline.2⟩

/-- Behind the start of a line nothing is read in it. -/
theorem Linewise.passesOver (hm : m.Linewise) (hw : w ≠ []) (hline : '\n' ∉ w ++ rest) :
    m.PassesOver (pre ++ w) rest post := by
  rintro u v rfl - u' v' e - hr
  exfalso
  have hne : w ++ u ≠ [] := by simp [hw]
  have hstart := hm.start hr.reads
  rw [AtLineStart, List.append_assoc, List.getLast?_append_of_ne_nil _ hne] at hstart
  have hlast := hstart _ (List.getLast?_eq_some_getLast hne)
  have hmem : '\n' ∈ w ++ u := by
    rw [← hlast]
    exact List.getLast_mem hne
  refine hline ?_
  rw [← List.append_assoc]
  exact List.mem_append_left _ hmem

theorem editAt_line (hm : m.Linewise) (hline : '\n' ∉ line) (h : m.OnLine pre line post out) :
    m.editAt pre (line ++ post) = out ++ m.editAt (pre ++ line) post := by
  rcases h with ⟨hf, rfl⟩ | ⟨w, rest, e, rfl, hr, rfl⟩
  · cases out with
    | nil => simp
    | cons c line =>
      have hkeep : m.Passes pre (c :: (line ++ post)) := Fails.passes hf
      have hpass : m.PassesOver (pre ++ [c]) line post :=
        hm.passesOver (List.cons_ne_nil c []) (by simpa using hline)
      rw [List.cons_append, editAt_keep hkeep, editAt_append hpass]
      simp
  · rw [List.append_assoc, editAt_put hr (hm.consumes hr.reads),
      editAt_append (hm.passesOver (hm.consumes hr.reads) hline)]
    simp

theorem editAt_newline (hm : m.Linewise) : m.editAt pre ('\n' :: t) = '\n' :: m.editAt (pre ++ ['\n']) t := by
  refine editAt_keep fun w post e hw hr => ?_
  cases w with
  | nil => rfl
  | cons c w =>
    obtain ⟨rfl, -⟩ := List.cons.inj hw
    exact absurd (by simp) (hm.within hr.reads)

theorem Linewise.atLineEnd_editAt (hm : m.Linewise) (hpost : post.AtLineEnd) : (m.editAt pre post).AtLineEnd := by
  cases post with
  | nil => simp [AtLineEnd]
  | cons c post =>
    obtain rfl := hpost c rfl
    rw [editAt_newline hm]
    simp [AtLineEnd]

/-- An edit of a text goes through what is in front of a line in it, and then through the line. It keeps the count
of the lines, and whatever a fold over the text has come to that no change disturbs. -/
theorem Linewise.exists_editAt_eq {α : Type} {f : α → Char → α} {a : α} (hm : m.Linewise) {p : Text}
    (hf : ∀ {u w v r}, p ++ (pre ++ rest) = u ++ (w ++ v) → m.Changes u w v r →
      r.foldl f (u.foldl f a) = w.foldl f (u.foldl f a)) (hpre : pre.AtLineStart) :
    ∃ q, m.editAt p (pre ++ rest) = q ++ m.editAt (p ++ pre) rest ∧ q.AtLineStart ∧
      q.count '\n' = pre.count '\n' ∧ q.foldl f (p.foldl f a) = pre.foldl f (p.foldl f a) := by
  generalize hn : pre.length = n
  induction n using Nat.strong_induction_on generalizing p pre with
  | _ n ih =>
    rcases hpre.cases with rfl | ⟨l, pre, rfl, hl, hpre'⟩
    · exact ⟨[], by simp, atLineStart_nil, rfl, rfl⟩
    · have hfeed : AtLineEnd ('\n' :: (pre ++ rest)) := by simp [AtLineEnd]
      obtain ⟨out, hout⟩ := @Linewise.exists_onLine m p l _ hm hfeed
      have hkeep : out.foldl f (p.foldl f a) = l.foldl f (p.foldl f a) := by
        rcases hout.eq_or_changes with rfl | ⟨w, v, r, rfl, hr, rfl⟩
        · rfl
        · rw [List.foldl_append, List.foldl_append, hf (by simp) hr]
      have hlt : pre.length < n := by
        rw [← hn, List.length_append, List.length_cons]
        omega
      obtain ⟨q, hq, hstart, hcount, hfold⟩ := ih pre.length hlt
        (p := p ++ (l ++ ['\n'])) (fun h => hf (by simpa using h)) hpre' rfl
      refine ⟨out ++ '\n' :: q, ?_, atLineStart_cons_newline.2 hstart, ?_, ?_⟩
      · rw [List.append_assoc, List.cons_append, editAt_line hm hl hout, editAt_newline hm]
        simpa using hq
      · rw [count_line (hout.notMem hm hl), count_line hl, hcount]
      · simp only [List.foldl_append, List.foldl_cons, List.foldl_nil] at hfold ⊢
        rw [hkeep, hfold]

/-- What becomes of a line of a text is the line of the edited text with as many others in front of it. -/
theorem Linewise.lineAt_edit {α : Type} {f : α → Char → α} {a : α} {i : Nat} (hm : m.Linewise)
    (hf : ∀ {u w v r}, t = u ++ (w ++ v) → m.Changes u w v r → r.foldl f (u.foldl f a) = w.foldl f (u.foldl f a))
    (h : LineAt t i pre line post) (hout : m.OnLine pre line post out) :
    ∃ q, LineAt (m.edit t) i q out (m.editAt (pre ++ line) post) ∧ q.foldl f a = pre.foldl f a := by
  obtain ⟨rfl, hpre, rfl, hline, hpost⟩ := h
  obtain ⟨q, hq, hstart, hcount, hfold⟩ := @Linewise.exists_editAt_eq m pre (line ++ post) α f a hm [] hf hpre
  refine ⟨q, ⟨?_, hstart, hcount, hout.notMem hm hline, hm.atLineEnd_editAt hpost⟩, hfold⟩
  rw [edit_eq, hq, List.nil_append, editAt_line hm hline hout]

theorem Linewise.count_of_spliced {K : Text → Text → Prop} (hm : m.Linewise)
    (h : Spliced K m.Changes pre t post out) : out.count '\n' = t.count '\n' := by
  induction h with
  | done => rfl
  | keep _ _ ih => rw [List.count_cons, List.count_cons, ih]
  | put hw _ _ ih =>
    rw [List.count_append, List.count_append, ih, List.count_eq_zero_of_not_mem (hm.puts hw.reads),
      List.count_eq_zero_of_not_mem (hm.within hw.reads)]

theorem Linewise.length_lines_edit (hm : m.Linewise) (t : Text) :
    (lines (m.edit t)).length = (lines t).length := by
  rw [length_lines, length_lines, hm.count_of_spliced (spliced_edit m t).changes]

end Scan

end AppsScript
