import AppsScript.Proofs.BlankRuns
import AppsScript.Proofs.RemovalRounds
import AppsScript.Proofs.SpelledStatements

/-!
# Removing module syntax again

When a statement is removed, what stood behind it may come to start the line. The form of the statement finds that in
another round, but the forms in front of it have had theirs: with the forms in their fixed order a statement can be left
(`remove_exposed`). Removing again removes it, and after enough times nothing is left (`exists_noSyntax_iterate`). Of a
text made of pieces nothing is left at once (`noSyntax_remove_unlines`), and neither the heads of exported declarations
nor the merging of blank lines is ever the cause.
-/

namespace AppsScript.ModuleSyntax

open Source Scan Text

variable {pre t l sep code : Text} {o : Option Text} {ls : List Text} {outs : List (Option Text)}

/-! ### Heads of exported declarations -/

theorem Separates.statementStart (h : Separates pre sep) : StatementStart (pre ++ sep) := by
  rcases h with ⟨rfl, hline⟩ | rfl
  · exact .inl (by simpa using hline)
  · exact .inr (by simp)

theorem absent_exportDefault (ht : Unexported DefaultHead t) : Absent exportDefault t := by
  rintro u v rfl
  rw [fails_iff]
  rintro w post r rfl h
  obtain ⟨sep, margin, _, s, hop, ⟨s', hs', hb', rfl⟩, hs, hb, -⟩ := reads_exportDefault.1 h
  refine ht (u ++ sep) (margin ++ ("export" ++ (s' ++ ("default" ++ (s ++ post))))) (by rw [hop.eq]; simp)
    hop.separates.statementStart ⟨margin, s', "default", s ++ post, rfl, hop.margin, hs', hb', rfl, ?_⟩
  obtain ⟨c, s, rfl⟩ := List.exists_cons_of_ne_nil hs
  simpa using hb c (by simp)

theorem absent_exportModifier (ht : Unexported ModifierHead t) : Absent exportModifier t := by
  rintro u v rfl
  rw [fails_iff]
  rintro w post r rfl h
  obtain ⟨sep, margin, _, kw, hop, hkw, ⟨s, hs, hb, rfl⟩, hedge, -⟩ := reads_exportModifier.1 h
  refine ht (u ++ sep) (margin ++ ("export" ++ (s ++ (kw ++ post)))) (by rw [hop.eq]; simp)
    hop.separates.statementStart ⟨margin, s, kw, post, rfl, hop.margin, hs, hb, hkw, ?_⟩
  rw [any_isWord_getLast? (List.mem_cons_of_mem _ hkw)] at hedge
  simpa using Ne.symm hedge

/-! ### Texts made of pieces -/

/-- No form changes the line. -/
def Settled (l : Text) : Prop := ∀ form ∈ forms, Turns [] form l (some l)

theorem Bare.settled (h : Bare l) : Settled l := fun _ hf => h.turns hf

theorem noSyntax_unlines (h : ∀ l ∈ ls, Settled l) : NoSyntax (unlines ls) := by
  intro form hf u v huv
  have hturns : List.Forall₂ (Turns [] form) ls (ls.map some) := by
    rw [List.forall₂_map_right_iff, List.forall₂_same]
    exact fun l hl => h l hl form hf
  have hstart : AtLineStart [] := by simp [AtLineStart]
  have heq : form.replace (unlines ls) = unlines ls := by
    rw [replace_eq, editAt_unlines (fun _ _ => calm_nil) hturns hstart]
    simp [List.reduceOption]
  exact (shortens_of_mem_forms hf).fails_of_replace_eq heq u v huv

theorem Line.bare (h : Line l (some t)) : Bare t := by
  cases h with
  | @exportDefault m g₁ g₂ r hm _ _ hr hl =>
    refine hr.bare (u := m ++ (("export" : Text) ++ (g₁ ++ (("default" : Text) ++ g₂)))) hm ?_
      fun hn => hl.notMem (by simp [hn])
    simpa using hl.compact
  | @exportModifier m g₁ kw g₂ r hm _ hkw hg₂ _ _ hl =>
    refine (exported_of_mem_declarationWords hkw hg₂.blanks).bare (u := m ++ (("export" : Text) ++ g₁)) hm ?_
      fun hn => hl.notMem (by simp [hn])
    simpa using hl.compact
  | plain hl hnot => exact ⟨hl, hnot.mono (List.subset_append_left (["import", "export"] : List Text) clauses)⟩

theorem Piece.settled (h : Piece l (some t)) : Settled t := by
  cases h with
  | line h => exact h.bare.settled
  | @statementBefore ws m s e r hm _ _ hr _ _ hn hl =>
    have hbare : Bare ([] ++ t) := hr.bare (u := m ++ (s ++ e)) allIndent_nil (by simpa using hl) hn
    exact hbare.settled
  | @exportDefault m g₁ g₂ r hm _ _ hr hn hl =>
    have hbare : Bare (m ++ r) :=
      hr.bare (u := m ++ (("export" : Text) ++ (g₁ ++ (("default" : Text) ++ g₂)))) hm (by simpa using hl) hn
    exact hbare.settled
  | exportDefaultSolid hm hg hr hl => exact fun _ hf => turns_exportDefault_solid hm hg hr hl.compact hf

theorem settled_of_mem_reduceOption (h : List.Forall₂ Piece ls outs) : ∀ l ∈ outs.reduceOption, Settled l := by
  induction h with
  | nil => simp
  | @cons l o ls outs hl _ ih =>
    cases o with
    | none => simpa using ih
    | some t =>
      rw [List.reduceOption_cons_of_some, List.forall_mem_cons]
      exact ⟨hl.settled, ih⟩

/-! ### The outcome of a removal -/

/-- What is left is decided by the forms and not by the merging of blank lines. -/
theorem noSyntax_remove_iff (code : Text) : NoSyntax (remove code) ↔ NoSyntax (forms.foldl removeForm code) := by
  rw [remove]
  split_ifs with heq
  · rw [heq]
  · exact noSyntax_blankLines _

theorem noSyntax_remove_unlines (h : List.Forall₂ Piece ls outs) : NoSyntax (remove (unlines ls)) := by
  rw [noSyntax_remove_iff, foldl_forms (h.imp fun _ _ hl => hl.leaves)]
  exact noSyntax_unlines (settled_of_mem_reduceOption h)

theorem exists_noSyntax_iterate (code : Text) : ∃ n ≤ code.length, NoSyntax (remove^[n] code) := by
  generalize hn : code.length = n
  induction n using Nat.strong_induction_on generalizing code with
  | _ n ih =>
    by_cases h : NoSyntax code
    · exact ⟨0, Nat.zero_le _, h⟩
    · have hne : remove code ≠ code := mt remove_eq_self_iff.1 h
      have hlt : (remove code).length < n := by
        rw [← hn]
        exact lt_of_le_of_ne (remove_sublist code).length_le fun heq => hne ((remove_sublist code).eq_of_length heq)
      obtain ⟨k, hk, hnone⟩ := ih _ hlt (remove code) rfl
      exact ⟨k + 1, by omega, hnone⟩

/-- Removing again changes nothing exactly if no statement is left. That is so for a text made of pieces, and otherwise
after some more times; if one is left, it is not in front of a declaration, and it was there before blank lines were
merged. -/
theorem remove_again (code : Text) :
    (remove (remove code) = remove code ↔ NoSyntax (remove code)) ∧
      (NoSyntax (remove code) ↔ NoSyntax (forms.foldl removeForm code)) ∧
      Absent exportDefault (remove code) ∧ Absent exportModifier (remove code) ∧
      (∀ ls outs, code = unlines ls → List.Forall₂ Piece ls outs → NoSyntax (remove code)) ∧
      ∃ n ≤ code.length, NoSyntax (remove^[n] code) := by
  refine ⟨remove_eq_self_iff, noSyntax_remove_iff code, absent_exportDefault (unexported_remove code).1,
    absent_exportModifier (unexported_remove code).2, ?_, exists_noSyntax_iterate code⟩
  rintro ls outs rfl h
  exact noSyntax_remove_unlines h

/-- Of each of the other forms a statement can be left, where the form of the statement in front of it comes later. -/
theorem remove_exposed :
    remove "import './polyfill' import a from 'a'\nrun(a)" = "import a from 'a'\nrun(a)" ∧
      remove "import a from 'a'\nrun(a)" = "run(a)" ∧
    remove "export \x7b a \x7d import './polyfill'\nrun()" = "import './polyfill'\nrun()" ∧
    remove "export * from './all' export \x7b a \x7d\nrun()" = "export \x7b a \x7d\nrun()" ∧
    remove "export default export * from './all'\nrun()" = "export * from './all'\nrun()" := by
  simp only [String.reduceToList]
  refine ⟨?_, ?_, ?_, ?_, ?_⟩ <;> decide +kernel

end AppsScript.ModuleSyntax
