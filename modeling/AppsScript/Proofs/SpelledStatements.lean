import AppsScript.Proofs.ModuleRemoval

/-!
# Module statements in other spellings

`Piece l out` extends the grammar of lines to statements in all the spellings of `Spelled`, and to what
may stand behind such a statement. A piece ends with a line, so that a text is again made of pieces one
below the other (`remove_spelled`). Nothing of a statement is left as long as `Spelled` covers it up to
its end: attributes are part of it only behind an `import` of bindings, and the name of a module only up
to the next quote. What follows is code like any other and stays (`remove_misspelled`).
-/

namespace AppsScript.ModuleSyntax

open Source Scan Text

variable {m g l r : Text} {c : Char}

theorem compact_nil : Compact [] := by simp [Compact]

/-- Whether a text is compact can be seen behind each `;` and each line feed in it. -/
theorem compact_cons : Compact (c :: l) ↔
    (c = ';' ∨ c = '\n' → NotBefore ["import", "export"] (l.dropWhile isIndent)) ∧ Compact l := by
  constructor
  · refine fun hl => ⟨fun hc kw hkw hp => ?_, fun u x m kw v hlu hx hm => ?_⟩
    · obtain ⟨v, hv⟩ := hp
      refine hl [] c (l.takeWhile isIndent) kw v ?_ hc (allIndent_iff.2 fun x hx => List.mem_takeWhile_imp hx) hkw
      rw [hv, List.takeWhile_append_dropWhile, List.nil_append]
    · exact hl (c :: u) x m kw v (by rw [hlu, List.cons_append]) hx hm
  · rintro ⟨hhead, htail⟩ u x m kw v hlu hx hm hkw
    cases u with
    | nil =>
      obtain ⟨rfl, rfl⟩ := List.cons.inj hlu
      refine hhead hx kw hkw ?_
      obtain ⟨y, z, rfl, hy⟩ := solid_of_mem_keywords hkw
      have hind : isIndent y = false := by
        by_contra hind
        rw [isBlank_of_isIndent (by simpa using hind)] at hy
        exact absurd hy (by simp)
      rw [List.dropWhile_append_of_pos hm.isIndent, List.cons_append, List.dropWhile_cons_of_neg (by simp [hind])]
      exact List.prefix_append ..
    | cons y u => exact htail u x m kw v (List.cons.inj hlu).2 hx hm hkw

instance decidableCompact : (l : Text) → Decidable (Compact l)
  | [] => isTrue compact_nil
  | c :: l =>
    have := decidableCompact l
    decidable_of_iff
      ((c = ';' ∨ c = '\n' → ∀ w ∈ (["import", "export"] : List Text), ¬ w <+: l.dropWhile isIndent) ∧ Compact l)
      compact_cons.symm

example : Compact "import a from 'b'; run(a)" ∧ ¬ Compact "run(); import 'b'" := by
  simp only [String.reduceToList]
  decide

/-- The piece `l` of a text is left as `out` when module syntax is removed. -/
inductive Piece : (l : Text) → (out : Option Text) → Prop
  | line {l : Text} {out : Option Text} : Line l out → Piece l out
  | statement {ws : List Text} {m s e n : Text} : AllIndent m → Spelled ws s → Ending e →
    IsBreak (n ++ ['\n']) → Compact (m ++ (s ++ (e ++ n))) → Piece (m ++ (s ++ (e ++ n))) none
  | statementBefore {ws : List Text} {m s e r : Text} : AllIndent m → Spelled ws s → Ending e → Exported r →
    NotBefore ws r → (r.head? = some ';' → ';' ∈ e) → '\n' ∉ r → Compact (m ++ (s ++ (e ++ r))) →
    Piece (m ++ (s ++ (e ++ r))) (some r)
  | exportDefault {m g₁ g₂ r : Text} : AllIndent m → Blanks g₁ → Blanks g₂ → Exported r → '\n' ∉ r →
    Compact (m ++ ("export" ++ (g₁ ++ ("default" ++ (g₂ ++ r))))) →
    Piece (m ++ ("export" ++ (g₁ ++ ("default" ++ (g₂ ++ r))))) (some (m ++ r))
  | exportDefaultSolid {m g r : Text} : AllIndent m → AllBlank g → Solid r →
    Unbroken (m ++ ("export" ++ (g ++ ("default" ++ r)))) →
    Piece (m ++ ("export" ++ (g ++ ("default" ++ r)))) (some (m ++ ("export" ++ (g ++ ("default" ++ r)))))

/-- Without white space behind `default` none of the forms reads the line. -/
theorem turns_exportDefault_solid {ws : List Text} {form : Scan Text} (hm : AllIndent m) (hg : AllBlank g) (hr : Solid r)
    (hl : Compact (m ++ (("export" : Text) ++ (g ++ (("default" : Text) ++ r))))) (hf : form ∈ forms) :
    Turns ws form (m ++ (("export" : Text) ++ (g ++ (("default" : Text) ++ r))))
      (some (m ++ (("export" : Text) ++ (g ++ (("default" : Text) ++ r))))) := by
  have hx : Solid (("default" : Text) ++ r) := ⟨'d', _, rfl, rfl⟩
  have hdef : ∀ t s y, s ≠ [] → AllBlank s → (("default" : Text) ++ r) ++ t ≠ ("default" : Text) ++ (s ++ y) := by
    intro t s y hne hs heq
    rw [List.append_assoc] at heq
    obtain ⟨c, s, rfl⟩ := List.exists_cons_of_ne_nil hne
    have hc := (hr.append t).not_isBlank c (by rw [List.append_cancel_left heq]; rfl)
    exact hc (hs c (by simp))
  have hmod : ∀ t, ∀ kw ∈ declarationWords, ¬ kw <+: (("default" : Text) ++ r) ++ t := by
    intro t kw hkw
    simp only [declarationWords, List.mem_cons, List.not_mem_nil, or_false] at hkw
    rcases hkw with rfl | rfl | rfl | rfl | rfl | rfl | rfl | rfl | rfl | rfl | rfl | rfl <;> simp
  simp only [forms, List.mem_cons, List.not_mem_nil, or_false] at hf
  rcases hf with rfl | rfl | rfl | rfl | rfl | rfl
  · exact turns_import_of_export hm hl (.inl rfl)
  · exact turns_import_of_export hm hl (.inr rfl)
  · exact turns_exportList hm hg hx hl (by simp) (by simp)
  · exact turns_exportAll hm hg hx hl (by simp)
  · exact turns_exportDefault hm hg hx hl hdef
  · exact turns_exportModifier hm hg hx hl hmod

theorem Piece.leaves {out : Option Text} (h : Piece l out) : Leaves l out := by
  cases h with
  | line h => exact h.leaves
  | statement hm hs he hn hl => exact ⟨ends_spelled hm hs he hn hl, by simp, by simp⟩
  | @statementBefore ws m s e r hm hs he hr hnot hsemi hn hl =>
    -- the margin goes with the statement
    have hbare : Bare ([] ++ r) := hr.bare (u := m ++ (s ++ e)) allIndent_nil (by simpa using hl) hn
    refine ⟨ends_spelled_before hm hs he hbare hr.solid hsemi hnot hl, fun _ => ?_, by simpa using hn⟩
    obtain ⟨kw, z, hkw, rfl⟩ := hs.exists_keyword
    obtain ⟨c, kw, rfl, -⟩ := solid_of_mem_keywords hkw
    simp
    omega
  | @exportDefault m g₁ g₂ r hm hg₁ hg₂ hr hn hl =>
    refine ⟨ends_exportDefault hm hg₁ hg₂ hr hn hl, fun _ => ?_, ?_⟩
    · simp
      omega
    · rintro _ ⟨rfl⟩ hmem
      exact (List.mem_append.1 hmem).elim (fun hmem => (clean_of_allIndent hm _ hmem).2 rfl) hn
  | exportDefaultSolid hm hg hr hl =>
    refine ⟨ends_of_turns fun p hp => ?_, fun hne => absurd rfl hne, ?_⟩
    · obtain ⟨hws, hf⟩ := subset_of_mem_passes hp
      exact ⟨calm_of_keyword hws hm (by simp), turns_exportDefault_solid hm hg hr hl.compact hf⟩
    · rintro _ ⟨rfl⟩
      exact hl.notMem

/-- Removing module syntax from a text made of pieces: of the statements nothing is left, of a default
export the expression, other code stays, and if anything changed, blank lines are merged. -/
theorem remove_spelled {ls : List Text} {outs : List (Option Text)} (h : List.Forall₂ Piece ls outs) :
    remove (unlines ls) =
      if outs = ls.map some then unlines ls else unlines (mergeBlank outs.reduceOption) :=
  remove_of_leaves (h.imp fun _ _ hl => hl.leaves)

theorem remove_spelled_pieces :
    List.Forall₂ Piece ["import \x7b\n  a,\n  b\n\x7dfrom 'c;d' with \x7b type: 'json' \x7d;", "export*from\"e\"; run(a)",
        "export default\n  b", "export \x7b d \x7d from './d.json' with \x7b type: 'json' \x7d;"]
      [none, some "run(a)", some "b", some "with \x7b type: 'json' \x7d;"] ∧
    remove (unlines ["import \x7b\n  a,\n  b\n\x7dfrom 'c;d' with \x7b type: 'json' \x7d;", "export*from\"e\"; run(a)",
      "export default\n  b", "export \x7b d \x7d from './d.json' with \x7b type: 'json' \x7d;"]) =
      unlines ["run(a)", "b", "with \x7b type: 'json' \x7d;"] := by
  have hspace : AllIndent " " := allIndent_space
  have hbrace : InBraces "\x7b type: 'json' \x7d" := ⟨" type: 'json' ", rfl, by decide⟩
  have himport : Spelled clauses (("import" : Text) ++ ((" " : Text) ++ (("\x7b\n  a,\n  b\n\x7d" : Text) ++ (([] : Text) ++
      (("from 'c;d'" : Text) ++ (" with \x7b type: 'json' \x7d" : Text)))))) := by
    refine .importFrom hspace.allBlank (by simp) (.list ⟨"\n  a,\n  b\n", rfl, by decide⟩ (by simp [AllBlank])) ?_ ?_
    · exact ⟨" ", "'c;d'", rfl, hspace.allBlank, '\'', "c;d", '\'', rfl, by simp, by simp, by simp⟩
    · exact .inr ⟨" ", "with", " ", "\x7b type: 'json' \x7d", rfl, hspace.allBlank, by simp, hspace.allBlank, hbrace⟩
  have hall : Spelled ["from"] (("export" : Text) ++ (([] : Text) ++ ('*' :: (([] : Text) ++ ("from\"e\"" : Text))))) :=
    .exportAll (by simp [AllBlank]) (by simp [AllBlank])
      ⟨[], "\"e\"", rfl, by simp [AllBlank], '"', "e", '"', rfl, by simp, by simp, by simp⟩
  have hlist : Spelled ["from"] (("export" : Text) ++ ((" " : Text) ++ (("\x7b d \x7d" : Text) ++ ((" " : Text) ++
      ("from './d.json'" : Text))))) :=
    .exportListFrom hspace.allBlank ⟨" d ", rfl, by decide⟩ hspace.allBlank
      ⟨" ", "'./d.json'", rfl, hspace.allBlank, '\'', "./d.json", '\'', rfl, by simp, by simp, by simp⟩
  have hfirst : Piece ([] ++ ((("import" : Text) ++ ((" " : Text) ++ (("\x7b\n  a,\n  b\n\x7d" : Text) ++ (([] : Text) ++
      (("from 'c;d'" : Text) ++ (" with \x7b type: 'json' \x7d" : Text)))))) ++ (([] ++ ';' :: []) ++ []))) none := by
    refine .statement allIndent_nil himport (.semicolon allIndent_nil allIndent_nil) (.inl rfl) ?_
    simp only [String.reduceToList]
    decide +kernel
  have hsecond : Piece ([] ++ ((("export" : Text) ++ (([] : Text) ++ ('*' :: (([] : Text) ++ ("from\"e\"" : Text))))) ++
      (([] ++ ';' :: " ") ++ ("run(a)" : Text)))) (some "run(a)") := by
    refine .statementBefore allIndent_nil hall (.semicolon allIndent_nil hspace)
      ⟨⟨'r', "un(a)", rfl, rfl⟩, by simp [NotBefore]⟩
      (by simp [NotBefore]) (by simp) (by simp) ?_
    simp only [String.reduceToList]
    decide +kernel
  have hthird : Piece ([] ++ (("export" : Text) ++ ((" " : Text) ++ (("default" : Text) ++ (("\n  " : Text) ++ ("b" : Text))))))
      (some ([] ++ ("b" : Text))) := by
    refine .exportDefault allIndent_nil ⟨by simp, hspace.allBlank⟩ ⟨by simp, ?_⟩
      ⟨⟨'b', [], rfl, rfl⟩, by simp [NotBefore]⟩
      (by simp) ?_
    · simpa [AllBlank] using by decide
    · simp only [String.reduceToList]
      decide +kernel
  have hfourth : Piece ([] ++ ((("export" : Text) ++ ((" " : Text) ++ (("\x7b d \x7d" : Text) ++ ((" " : Text) ++
      ("from './d.json'" : Text))))) ++ ((" " : Text) ++ ("with \x7b type: 'json' \x7d;" : Text))))
      (some "with \x7b type: 'json' \x7d;") := by
    refine .statementBefore allIndent_nil hlist (.blank hspace)
      ⟨⟨'w', "ith \x7b type: 'json' \x7d;", rfl, rfl⟩, by simp [NotBefore]⟩
      (by simp [NotBefore]) (by simp) (by simp) ?_
    simp only [String.reduceToList]
    decide +kernel
  have hpieces : List.Forall₂ Piece ["import \x7b\n  a,\n  b\n\x7dfrom 'c;d' with \x7b type: 'json' \x7d;",
      "export*from\"e\"; run(a)", "export default\n  b", "export \x7b d \x7d from './d.json' with \x7b type: 'json' \x7d;"]
      [none, some "run(a)", some "b", some "with \x7b type: 'json' \x7d;"] :=
    .cons hfirst (.cons hsecond (.cons hthird (.cons hfourth .nil)))
  refine ⟨hpieces, ?_⟩
  rw [remove_spelled hpieces, if_neg (by simp)]
  rfl

/-- What is left where a clause, a quote or a bracket is not expected by the forms. -/
theorem remove_misspelled :
    remove "export \x7b d \x7d from './d.json' with \x7b type: 'json' \x7d;\nrun();" = "with \x7b type: 'json' \x7d;\nrun();" ∧
    remove "import './d.json' with \x7b type: 'json' \x7d;\nrun();" = "with \x7b type: 'json' \x7d;\nrun();" ∧
    remove "import d from \"./it's.js\";\nrun();" = "s.js\";\nrun();" ∧
    remove "export default\x7b a: 1 \x7d;\nrun();" = "export default\x7b a: 1 \x7d;\nrun();" := by
  simp only [String.reduceToList]
  refine ⟨?_, ?_, ?_, ?_⟩ <;> decide +kernel

end AppsScript.ModuleSyntax
