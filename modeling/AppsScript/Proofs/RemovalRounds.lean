import AppsScript.Proofs.SettledModules

/-!
# Rounds of a removal

The removal of a form is a loop that has no bound of its own: it goes on for as long as the form finds
something (`Rounds`). It comes to an end because every form puts less than it read, and `removeForm` is where it ends
(`exists_rounds_removeForm`). What every form and the merging of blank lines put is what they read without some of its
characters (`Thins`), so that nothing is written anew (`remove_sublist`).
-/

namespace AppsScript

open Scan Text

namespace Scan

variable {n : Scan Text} {K : Text → Text → Prop} {R : Text → Text → Text → Text → Prop} {pre t post out : Text}

/-- What `n` puts is what it read, maybe without some characters. -/
def Thins (n : Scan Text) : Prop := ∀ pre w post r, n.Reads pre w post r → r.Sublist w

theorem Spliced.sublist (h : Spliced K R pre t post out) (hR : ∀ {pre w post r}, R pre w post r → r.Sublist w) :
    out.Sublist t := by
  induction h with
  | done => exact .slnil
  | keep _ _ ih => exact ih.cons_cons _
  | put hw _ _ ih => exact (hR hw).append ih

theorem Thins.replace_sublist (hn : n.Thins) (t : Text) : (n.replace t).Sublist t := by
  refine (spliced_edit (some <$> n) t).changes.sublist fun hr => ?_
  obtain ⟨r, hr, heq⟩ := readsFirst_map.1 hr
  obtain rfl := Option.some.inj heq
  exact hn _ _ _ _ hr.reads

end Scan

namespace ModuleSyntax

open Source

variable {form : Scan Text} {pre w post t t' sep margin kw v nl r : Text}

/-! ### What the forms put -/

theorem remainder_sublist (hop : Opens kw pre w sep margin v) (hnl : nl <:+ v) : (remainder sep nl).Sublist w := by
  obtain ⟨y, rfl⟩ := hnl
  rw [hop.eq, remainder]
  split_ifs
  · exact List.nil_sublist _
  · have hsuffix : nl.Sublist (margin ++ kw ++ (y ++ nl)) := by
      rw [← List.append_assoc]
      exact List.sublist_append_right ..
    simpa using hsuffix.append_left sep

theorem RemovesWhole.thins (hform : RemovesWhole kw form) : form.Thins := by
  intro pre w post r h
  obtain ⟨sep, margin, v, nl, hop, hnl, rfl⟩ := hform.puts h
  exact remainder_sublist hop hnl

theorem thins_exportDefault : exportDefault.Thins := by
  intro pre w post r h
  obtain ⟨sep, margin, v, s, hop, -, -, -, rfl⟩ := reads_exportDefault.1 h
  rw [hop.eq, List.append_assoc (sep ++ margin)]
  exact List.sublist_append_left ..

theorem thins_exportModifier : exportModifier.Thins := by
  intro pre w post r h
  obtain ⟨sep, margin, v, kw, hop, -, ⟨s, -, -, rfl⟩, -, rfl⟩ := reads_exportModifier.1 h
  rw [hop.eq, List.append_assoc (sep ++ margin)]
  refine List.Sublist.append_left ?_ _
  exact (List.sublist_append_right s kw).trans (List.sublist_append_right ..)

theorem thins_of_mem_forms (hf : form ∈ forms) : form.Thins := by
  simp only [forms, List.mem_cons, List.not_mem_nil, or_false] at hf
  rcases hf with rfl | rfl | rfl | rfl | rfl | rfl
  exacts [removesWhole_importFrom.thins, removesWhole_importOnly.thins, removesWhole_exportList.thins,
    removesWhole_exportAll.thins, thins_exportDefault, thins_exportModifier]

theorem thins_blankLines : blankLines.Thins := by
  intro pre w post r h
  obtain ⟨b, v, rfl, -, -, rfl⟩ := reads_blankLines.1 h
  have hrest : ['\n'].Sublist (b ++ '\n' :: (v ++ ['\n'])) := List.singleton_sublist.2 (by simp)
  exact hrest.cons_cons '\n'

/-! ### Rounds -/

/-- `form` finds nothing in the text. -/
def Absent (form : Scan Text) (t : Text) : Prop := ∀ u v, t = u ++ v → form.Fails u v

/-- With `n` rounds, of which each replaces what `form` finds, the text `t` becomes `t'`, where `form` finds
nothing. -/
inductive Rounds (form : Scan Text) : (n : Nat) → (t t' : Text) → Prop
  | stop {t : Text} : Absent form t → Rounds form 0 t t
  | round {n : Nat} {t t' : Text} : ¬ Absent form t → Rounds form n (form.replace t) t' → Rounds form (n + 1) t t'

/-- A round changes the text exactly if it finds something. -/
theorem replace_eq_iff (hn : form.Shortens) : form.replace t = t ↔ Absent form t :=
  ⟨fun h u v huv => hn.fails_of_replace_eq h u v huv, replace_of_fails⟩

theorem exists_rounds_exhaust (hn : form.Shortens) {rounds : Nat} (h : t.length ≤ rounds) :
    ∃ n ≤ t.length, Rounds form n t (exhaust form rounds t) := by
  induction rounds generalizing t with
  | zero =>
    obtain rfl := List.eq_nil_of_length_eq_zero (Nat.le_zero.1 h)
    exact ⟨0, Nat.le_refl _, .stop ((replace_eq_iff hn).1 rfl)⟩
  | succ rounds ih =>
    rw [exhaust]
    split_ifs with heq
    · exact ⟨0, Nat.zero_le _, .stop ((replace_eq_iff hn).1 heq)⟩
    · have hlt := hn.replace_length heq
      obtain ⟨n, hle, hrounds⟩ := ih (t := form.replace t) (by omega)
      exact ⟨n + 1, by omega, .round (fun habsent => heq ((replace_eq_iff hn).2 habsent)) hrounds⟩

/-- The rounds come to an end, after no more of them than there are characters. -/
theorem exists_rounds_removeForm (hf : form ∈ forms) (t : Text) : ∃ n ≤ t.length, Rounds form n t (removeForm t form) :=
  exists_rounds_exhaust (shortens_of_mem_forms hf) (Nat.le_refl _)

theorem Rounds.sublist {n : Nat} (hf : form ∈ forms) (h : Rounds form n t t') : t'.Sublist t := by
  induction h with
  | stop => exact .refl _
  | round _ _ ih => exact ih.trans ((thins_of_mem_forms hf).replace_sublist _)

/-! ### The removal as a whole -/

theorem removeForm_sublist (hf : form ∈ forms) (t : Text) : (removeForm t form).Sublist t := by
  obtain ⟨n, -, h⟩ := exists_rounds_removeForm hf t
  exact h.sublist hf

theorem foldl_removeForm_sublist {fs : List (Scan Text)} (hfs : ∀ f ∈ fs, f ∈ forms) (t : Text) :
    (fs.foldl removeForm t).Sublist t := by
  induction fs generalizing t with
  | nil => exact .refl _
  | cons f fs ih =>
    exact (ih (fun g hg => hfs g (List.mem_cons_of_mem _ hg)) _).trans (removeForm_sublist (hfs f (by simp)) t)

theorem remove_sublist (code : Text) : (remove code).Sublist code := by
  have hbare : (forms.foldl removeForm code).Sublist code := foldl_removeForm_sublist (fun f hf => hf) code
  simp only [remove]
  split_ifs
  · exact .refl _
  · exact (thins_blankLines.replace_sublist _).trans hbare

/-- Where there is module syntax, the passes of the forms are followed by the merging of blank lines. -/
theorem remove_eq_replace {code : Text} (h : ¬ NoSyntax code) :
    remove code = blankLines.replace (forms.foldl removeForm code) := by
  have hne : forms.foldl removeForm code ≠ code := fun heq => h (remove_eq_self_iff.1 (by rw [remove, if_pos heq]))
  rw [remove, if_neg hne]

/-- Removing module syntax comes to an end, because every round that changes the text makes it shorter. What is left are
characters of the text in their order, and they are all of it exactly if it has no module syntax; only otherwise are
blank lines merged. -/
theorem remove_rounds (code : Text) :
    (remove code).Sublist code ∧ (remove code = code ↔ NoSyntax code) ∧
      (¬ NoSyntax code → remove code = blankLines.replace (forms.foldl removeForm code)) ∧
      ∀ form ∈ forms, ∀ t, (∃ n ≤ t.length, Rounds form n t (removeForm t form)) ∧
        (form.replace t ≠ t → (form.replace t).length < t.length) :=
  ⟨remove_sublist code, remove_eq_self_iff, remove_eq_replace, fun _ hf t =>
    ⟨exists_rounds_removeForm hf t, (shortens_of_mem_forms hf).replace_length⟩⟩

end ModuleSyntax

end AppsScript
