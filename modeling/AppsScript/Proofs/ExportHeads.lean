import AppsScript.Proofs.BlankLines
import AppsScript.Proofs.ModuleForms

/-!
# No exported declaration is left

`Unexported E t` says that no statement of `t` starts with `export` and a word of which `E` holds. After
`remove` this is so of `default` and of the words that start declarations (`unexported_remove`): the
passes for these two see to it, and the passes behind them do not write such a head anew.
-/

namespace AppsScript.ModuleSyntax

open Source Scan Text

variable {E : Text → Option Char → Prop} {K : Text → Text → Prop} {R : Text → Text → Text → Text → Prop}
  {pre w post t r u v s kw m m' out x y q₁ q₂ : Text} {c z : Char}

/-- A statement may start behind `pre`. -/
def StatementStart (pre : Text) : Prop := pre.AtLineStart ∨ pre.getLast? = some ';'

/-- The text starts with `export` and a word; `E` holds of the word and of the character behind it. -/
def ExportsAt (E : (kw : Text) → Option Char → Prop) (t : Text) : Prop :=
  ∃ m s kw post, t = m ++ ("export" ++ (s ++ (kw ++ post))) ∧ AllIndent m ∧ s ≠ [] ∧ AllBlank s ∧
    E kw post.head?

/-- No statement starts so. -/
def Unexported (E : (kw : Text) → Option Char → Prop) (t : Text) : Prop :=
  ∀ pre post, t = pre ++ post → StatementStart pre → ¬ ExportsAt E post

/-- The word `default` with white space behind it. -/
def DefaultHead (kw : Text) (c : Option Char) : Prop := kw = "default" ∧ c.any isBlank = true

/-- A whole word that starts a declaration. -/
def ModifierHead (kw : Text) (c : Option Char) : Prop := kw ∈ declarationWords ∧ c.any isWord = false

/-! ### Heads -/

/-- The words that `export` can stand in front of. -/
def headWords : List Text := "default" :: declarationWords

/-- `E` holds of whole words only. -/
def Heads (E : (kw : Text) → Option Char → Prop) : Prop :=
  ∀ {kw c}, E kw c → kw ∈ headWords ∧ c.any isWord = false

theorem heads_default : Heads DefaultHead := by
  rintro _ c ⟨rfl, hc⟩
  refine ⟨by simp [headWords], ?_⟩
  obtain ⟨c, rfl, hc⟩ := (Option.any_eq_true ..).1 hc
  simpa using not_isWord_of_isBlank hc

theorem heads_modifier : Heads ModifierHead := by
  rintro kw c ⟨hkw, hc⟩
  exact ⟨List.mem_cons_of_mem _ hkw, hc⟩

theorem isAlphanum_of_mem_headWords (h : kw ∈ headWords) : ∀ c ∈ kw, c.isAlphanum := by
  have hall : ∀ kw ∈ headWords, ∀ c ∈ kw, c.isAlphanum := by simp [headWords, declarationWords]
  exact hall kw h

theorem isWord_of_mem_headWords (h : kw ∈ headWords) : ∀ c ∈ kw, isWord c :=
  fun c hc => isWord_of_isAlphanum (isAlphanum_of_mem_headWords h c hc)

theorem ne_nil_of_mem_headWords (h : kw ∈ headWords) : kw ≠ [] := by
  have hall : ∀ kw ∈ headWords, kw ≠ [] := by simp [headWords, declarationWords]
  exact hall kw h

theorem isWord_export : ∀ c ∈ ("export" : Text), isWord c := by
  have h : ∀ c ∈ ("export" : Text), c.isAlphanum := by simp
  exact fun c hc => isWord_of_isAlphanum (h c hc)

theorem solid_headWord (hkw : kw ∈ headWords) : Solid kw :=
  solid_of_isWord (ne_nil_of_mem_headWords hkw) (isWord_of_mem_headWords hkw)

theorem any_isWord_getLast? (hkw : kw ∈ headWords) : kw.getLast?.any isWord = true := by
  have hne := ne_nil_of_mem_headWords hkw
  rw [List.getLast?_eq_some_getLast hne, Option.any_some]
  exact isWord_of_mem_headWords hkw _ (List.getLast_mem hne)

theorem getLast?_head (hkw : kw ∈ headWords) :
    (u ++ (m ++ ("export" ++ (s ++ kw)))).getLast? = kw.getLast? := by
  have hsplit : u ++ (m ++ ("export" ++ (s ++ kw))) = (u ++ (m ++ ("export" ++ s))) ++ kw := by simp
  rw [hsplit, List.getLast?_append_of_ne_nil _ (ne_nil_of_mem_headWords hkw)]

theorem not_isWord_of_allBlank (hs : s ≠ []) (hb : AllBlank s) : ∀ c ∈ (s ++ t).head?, ¬ isWord c := by
  obtain ⟨c, s, rfl⟩ := List.exists_cons_of_ne_nil hs
  simpa using not_isWord_of_isBlank (hb c (by simp))

theorem notMem_head (hm : AllIndent m) (hb : AllBlank s) (hc : isBlank c = false)
    (he : c ∉ ("export" : Text)) (hck : c ∉ kw) : c ∉ m ++ ("export" ++ (s ++ kw)) := by
  simp only [List.mem_append, not_or]
  exact ⟨hm.allBlank.notMem hc, he, hb.notMem hc, hck⟩

theorem notMem_of_not_isWord (hm : AllIndent m) (hb : AllBlank s) (hkw : kw ∈ headWords)
    (hc : isBlank c = false) (hw : isWord c = false) : c ∉ m ++ ("export" ++ (s ++ kw)) := by
  refine notMem_head hm hb hc (fun h => ?_) (fun h => ?_)
  · exact absurd (isWord_export c h) (by simp [hw])
  · exact absurd (isWord_of_mem_headWords hkw c h) (by simp [hw])

/-- A word that `export` can stand in front of is not `export`. -/
theorem ne_export (hm : AllIndent m) (hm' : AllIndent m') (hkw : kw ∈ headWords)
    (hv : ∀ c ∈ v.head?, ¬ isWord c) (hs : s ≠ []) (hb : AllBlank s) :
    m ++ (kw ++ v) ≠ m' ++ ("export" ++ (s ++ t)) := by
  intro h
  have hexport : Solid ("export" ++ (s ++ t)) := ⟨'e', _, rfl, rfl⟩
  obtain ⟨-, h⟩ := hm.unique hm' h ((solid_headWord hkw).append v).not_isIndent hexport.not_isIndent
  obtain ⟨rfl, -⟩ := span_unique h (isWord_of_mem_headWords hkw) isWord_export hv
    (not_isWord_of_allBlank hs hb)
  exact absurd hkw (by simp [headWords, declarationWords])

/-- A line starts in a head only behind `export`. -/
theorem exists_of_lineStart (h : m ++ ("export" ++ (s ++ kw)) = q₁ ++ q₂) (hm : AllIndent m)
    (hkw : kw ∈ headWords) (hq₁ : q₁.getLast? = some '\n') (hq₂ : q₂ ≠ []) :
    ∃ s₁ s₂, s = s₁ ++ s₂ ∧ s₁ ≠ [] ∧ q₁ = m ++ ("export" ++ s₁) ∧ q₂ = s₂ ++ kw := by
  obtain ⟨p, rfl⟩ := List.getLast?_eq_some_iff.1 hq₁
  have hme : '\n' ∉ m ++ ("export" : Text) := by
    simp only [List.mem_append, not_or]
    exact ⟨fun hc => absurd (hm _ hc) (by decide), by simp⟩
  have hnkw : '\n' ∉ kw := fun hc => absurd (isWord_of_mem_headWords hkw _ hc) (by decide)
  obtain ⟨p, rfl, hp⟩ := prefix_of_notMem (u := m ++ ("export" : Text)) (r := s ++ kw) (v := p) (s := q₂)
    (by simpa using h) hme
  rcases List.append_eq_append_iff.1 hp with ⟨a, rfl, ha⟩ | ⟨a, rfl, ha⟩
  · exact absurd (show '\n' ∈ kw by simp [ha]) hnkw
  · cases a with
    | nil => exact absurd (show '\n' ∈ kw by simp [← show '\n' :: q₂ = kw from ha]) hnkw
    | cons c a =>
      obtain ⟨rfl, rfl⟩ := List.cons.inj ha
      exact ⟨p ++ ['\n'], a, by simp, by simp, by simp, rfl⟩

/-! ### Heads in an edited text -/

theorem statementStart_iff : StatementStart pre ↔ ∀ c ∈ pre.getLast?, c = '\n' ∨ c = ';' := by
  rw [StatementStart, AtLineStart]
  cases pre.getLast? with
  | none => simp
  | some c => simp

theorem statementStart_append (hw : w ≠ []) : StatementStart (u ++ w) ↔ StatementStart w := by
  rw [statementStart_iff, statementStart_iff, List.getLast?_append_of_ne_nil _ hw]

/-- A statement start of the outcome is one of the text, if no piece brings one about. -/
theorem StatementStart.of_spliced (hu : StatementStart out) (h : Spliced K R pre t post out)
    (hR : ∀ {pre w post r}, R pre w post r → r ≠ [] ∧ (StatementStart r → StatementStart w)) :
    StatementStart t := by
  rcases h.last with ⟨rfl, rfl⟩ | ⟨x, u, c, rfl, rfl⟩ | ⟨x, w, u, r, rfl, rfl, hne, hr⟩
  · exact hu
  · rw [statementStart_append (by simp)] at hu ⊢
    exact hu
  · obtain ⟨hrne, hrw⟩ := hR hr
    rw [statementStart_append hrne] at hu
    rw [statementStart_append hne]
    exact hrw hu

/-- Behind a head the outcome goes on like the text, if no piece is put there. -/
theorem head?_of_spliced (h : Spliced K R (u ++ (m ++ ("export" ++ (s ++ kw)))) t post out) (hkw : kw ∈ headWords)
    (hR : ∀ {pre w post r}, R pre w post r → pre.getLast?.any Char.isAlphanum = false) :
    out.head? = t.head? := by
  cases h with
  | done => rfl
  | keep => rfl
  | put hr =>
    have hlast := hR hr
    have hne := ne_nil_of_mem_headWords hkw
    rw [getLast?_head hkw, List.getLast?_eq_some_getLast hne, Option.any_some,
      isAlphanum_of_mem_headWords hkw _ (List.getLast_mem hne)] at hlast
    exact absurd hlast (by simp)

/-- Pieces on one line that start with a character which no head has, and not behind a word, bring no
head about. -/
theorem Unexported.of_spliced (hE : Heads E) (ht : Unexported E t) (h : Spliced K R [] t [] out)
    (hz : isBlank z = false) (hzw : ∀ kw ∈ ("export" :: headWords : List Text), z ∉ kw)
    (hR : ∀ {pre w post r}, R pre w post r → r.head? = some z ∧ (∀ c ∈ r, c ≠ '\n' ∧ c ≠ ';') ∧
      pre.getLast?.any Char.isAlphanum = false) : Unexported E out := by
  rintro u _ rfl hu ⟨m, s, kw, post, rfl, hm, hs, hb, hkw⟩
  have hstart {u r : Text} (hr : ∀ c ∈ r, c ≠ '\n' ∧ c ≠ ';') (hne : r ≠ []) :
      ¬ StatementStart (u ++ r) := fun hu => by
    rw [statementStart_append hne, statementStart_iff] at hu
    have hlast := List.getLast?_eq_some_getLast hne
    have := hr _ (List.mem_of_getLast? hlast)
    rcases hu _ hlast with hc | hc
    · exact this.1 hc
    · exact this.2 hc
  rcases h.split rfl with ⟨x, y, rfl, hx, hy⟩ | ⟨x, w, y, u', r₁, r₂, v', -, -, -, hr, h₁, h₂, -, rfl, -⟩
  · have hzq : z ∉ m ++ ("export" ++ (s ++ kw)) :=
      notMem_head hm hb hz (hzw _ (by simp)) (hzw _ (List.mem_cons_of_mem _ (hE hkw).1))
    obtain ⟨y, rfl, hv⟩ := hy.prefix_of_notMem (q := m ++ ("export" ++ (s ++ kw))) (v := post) (by simp)
      (fun hr => (hR hr).1) hzq
    rw [head?_of_spliced hv (hE hkw).1 fun hr => (hR hr).2.2] at hkw
    refine ht x _ rfl (hu.of_spliced hx fun {pre w post r} hr => ?_) ⟨m, s, kw, y, by simp, hm, hs, hb, hkw⟩
    obtain ⟨hh, hl, -⟩ := hR hr
    have hne : r ≠ [] := by
      rintro rfl
      simp at hh
    exact ⟨hne, fun hst => absurd hst (hstart (u := []) hl hne)⟩
  · refine hstart (fun c hc => ?_) h₁ hu
    exact (hR hr).2.1 c (List.mem_append_left _ hc)

/-! ### What a form finds nowhere -/

/-- A statement start is where a form can begin, or right behind the `;` where it can. -/
theorem StatementStart.exists_separates (h : StatementStart pre) :
    ∃ pre' sep, pre = pre' ++ sep ∧ Separates pre' sep := by
  rcases h with h | h
  · exact ⟨pre, [], by simp, .inl ⟨rfl, h⟩⟩
  · obtain ⟨pre', rfl⟩ := List.getLast?_eq_some_iff.1 h
    exact ⟨pre', [';'], rfl, .inr rfl⟩

theorem unexported_default (h : ∀ u v, t = u ++ v → exportDefault.Fails u v) : Unexported DefaultHead t := by
  rintro pre _ rfl hpre ⟨m, s, kw, post, rfl, hm, hs, hb, rfl, hc⟩
  obtain ⟨pre', sep, rfl, hsep⟩ := hpre.exists_separates
  obtain ⟨c, hpost, hc⟩ := (Option.any_eq_true ..).1 hc
  obtain ⟨post, rfl⟩ := List.head?_eq_some_iff.1 hpost
  have hfail := h pre' (sep ++ (m ++ ("export" ++ (s ++ (("default" : Text) ++ c :: post))))) (by simp)
  have hread : exportDefault.Reads pre' (sep ++ m ++ "export" ++ ((s ++ ("default" : Text)) ++ [c])) post
      (sep ++ m) :=
    reads_exportDefault.2 ⟨sep, m, s ++ ("default" : Text), [c], ⟨rfl, hsep, hm⟩, ⟨s, hs, hb, rfl⟩,
      by simp, by simpa [AllBlank] using hc, rfl⟩
  exact fails_iff.1 hfail _ _ _ (by simp) hread

theorem unexported_modifier (h : ∀ u v, t = u ++ v → exportModifier.Fails u v) :
    Unexported ModifierHead t := by
  rintro pre _ rfl hpre ⟨m, s, kw, post, rfl, hm, hs, hb, hkw, hpost⟩
  obtain ⟨pre', sep, rfl, hsep⟩ := hpre.exists_separates
  have hlast : kw.getLast?.any isWord = true := any_isWord_getLast? (List.mem_cons_of_mem _ hkw)
  have hfail := h pre' (sep ++ (m ++ ("export" ++ (s ++ (kw ++ post))))) (by simp)
  have hread : exportModifier.Reads pre' (sep ++ m ++ "export" ++ (s ++ kw)) post (sep ++ m ++ kw) :=
    reads_exportModifier.2 ⟨sep, m, s ++ kw, kw, ⟨rfl, hsep, hm⟩, hkw, ⟨s, hs, hb, rfl⟩,
      by rw [hlast, hpost]; decide, rfl⟩
  exact fails_iff.1 hfail _ _ _ (by simp) hread

/-! ### The removal of `export` in front of declarations -/

/-- What the pass for declarations changes. -/
theorem changes_exportModifier (h : (some <$> exportModifier).Changes pre w post r) :
    ∃ sep m v kw, Opens "export" pre w sep m (v ++ kw) ∧ kw ∈ declarationWords ∧ r = sep ++ (m ++ kw) ∧
      post.head?.any isWord = false := by
  obtain ⟨r', hr, heq⟩ := readsFirst_map.1 h
  obtain rfl := Option.some.inj heq
  obtain ⟨sep, m, _, kw, hop, hkw, ⟨v, -, -, rfl⟩, hedge, rfl⟩ := reads_exportModifier.1 hr.reads
  refine ⟨sep, m, v, kw, hop, hkw, by simp, ?_⟩
  rw [any_isWord_getLast? (List.mem_cons_of_mem _ hkw)] at hedge
  simpa using Ne.symm hedge

theorem not_atLineStart (h : pre.getLast?.any isWord = true) : ¬ pre.AtLineStart := by
  intro hp
  obtain ⟨c, hc, hw⟩ := (Option.any_eq_true ..).1 h
  rw [hp c hc] at hw
  exact absurd hw (by decide)

theorem not_statementStart (h : pre.getLast?.any isWord = true) : ¬ StatementStart pre := by
  intro hp
  obtain ⟨c, hc, hw⟩ := (Option.any_eq_true ..).1 h
  rcases statementStart_iff.1 hp c hc with rfl | rfl <;> exact absurd hw (by decide)

/-- Behind a word no piece is put but one that starts with a `;`. -/
theorem head?_of_changes (h : Spliced K (some <$> exportModifier).Changes pre t post out)
    (hpre : pre.getLast?.any isWord = true) : out.head? = t.head? ∨ out.head? = some ';' := by
  cases h with
  | done => exact .inl rfl
  | keep => exact .inl rfl
  | put hr hne h =>
    obtain ⟨sep, m, v, kw, hop, hkw, rfl, -⟩ := changes_exportModifier hr
    rcases hop.separates with ⟨-, hp⟩ | rfl
    · exact absurd hp (not_atLineStart hpre)
    · exact .inr rfl

theorem not_isWord_head? (h : Spliced K (some <$> exportModifier).Changes pre t post out)
    (hpre : pre.getLast?.any isWord = true) (ht : t.head?.any isWord = false) :
    ∀ c ∈ out.head?, ¬ isWord c := by
  intro c hc
  rw [Option.mem_def] at hc
  rcases head?_of_changes h hpre with h' | h' <;> rw [hc] at h'
  · rw [← h'] at ht
    simpa using ht
  · obtain rfl := Option.some.inj h'
    decide

theorem getLast?_of_changes (h : (some <$> exportModifier).Changes pre w post r) :
    r.getLast?.any isWord = true ∧ w.getLast?.any isWord = true ∧ w ≠ [] := by
  obtain ⟨sep, m, v, kw, hop, hkw, rfl, -⟩ := changes_exportModifier h
  have hkw' : kw ∈ headWords := List.mem_cons_of_mem _ hkw
  have hne := ne_nil_of_mem_headWords hkw'
  rw [hop.eq, ← List.append_assoc, ← List.append_assoc, List.getLast?_append_of_ne_nil _ hne,
    List.getLast?_append_of_ne_nil _ hne]
  exact ⟨any_isWord_getLast? hkw', any_isWord_getLast? hkw', by simp⟩

theorem prefix_of_default (h : Spliced K (some <$> exportModifier).Changes pre t [] out)
    (ho : out = m ++ ("export" ++ (s ++ ("default" : Text))) ++ v) (hm : AllIndent m) (hs : s ≠ [])
    (hb : AllBlank s) (hv : ∀ c ∈ v.head?, ¬ isWord c) :
    ∃ y, t = m ++ ("export" ++ (s ++ ("default" : Text))) ++ y ∧
      Spliced K (some <$> exportModifier).Changes (pre ++ (m ++ ("export" ++ (s ++ ("default" : Text))))) y [] v := by
  have hd : ("default" : Text) ∈ headWords := by simp [headWords]
  refine h.prefix_of ho fun q₁ q₂ w y r v' hq hq₂ ht hr hv' heq => ?_
  obtain ⟨-, hw, hwne⟩ := getLast?_of_changes hr
  obtain ⟨sep, m', g, kw, hop, hkw, rfl, hedge⟩ := changes_exportModifier hr
  have hkw' : kw ∈ headWords := List.mem_cons_of_mem _ hkw
  have hv'head : ∀ c ∈ v'.head?, ¬ isWord c :=
    not_isWord_head? hv' (by rwa [List.getLast?_append_of_ne_nil _ hwne]) (by simpa using hedge)
  rcases hop.separates with ⟨rfl, hline⟩ | rfl
  · rcases List.eq_nil_or_concat q₁ with rfl | ⟨q, c, rfl⟩
    · -- a whole head behind the piece would be `export` itself
      refine ne_export (t := "default" ++ v) hop.margin hm hkw' hv'head hs hb ?_
      rw [List.nil_append] at hq
      rw [← hq] at heq
      simpa using heq.symm
    · -- a line starts inside the head, and the piece is the word behind it
      have hn : c = '\n' := hline c (by simp)
      obtain ⟨s₁, s₂, rfl, -, -, rfl⟩ := exists_of_lineStart hq hm hd (by simp [hn]) hq₂
      have heq' : s₂ ++ (("default" : Text) ++ v) = m' ++ (kw ++ v') := by simpa using heq
      have hb₂ : AllBlank s₂ := fun c hc => hb c (List.mem_append_right _ hc)
      obtain ⟨-, heq'⟩ := span_unique heq' hb₂ hop.margin.allBlank ((solid_headWord hd).append v).not_isBlank
        ((solid_headWord hkw').append v').not_isBlank
      obtain ⟨rfl, -⟩ := span_unique heq' (isWord_of_mem_headWords hd) (isWord_of_mem_headWords hkw') hv
        hv'head
      exact absurd hkw (by simp [declarationWords])
  · have hsemi : ';' ∈ q₂ := by
      obtain ⟨c, q₂, rfl⟩ := List.exists_cons_of_ne_nil hq₂
      obtain ⟨rfl, -⟩ := List.cons.inj heq
      simp
    refine notMem_of_not_isWord (c := ';') hm hb hd (by decide) (by decide) ?_
    rw [hq]
    exact List.mem_append_right _ hsemi

/-- A statement starts inside a piece only behind its `;`. -/
theorem eq_of_split {sep r₁ r₂ : Text} (hop : Opens "export" pre w sep m v) (hkw : kw ∈ declarationWords)
    (h : sep ++ (m ++ kw) = r₁ ++ r₂) (hne : r₁ ≠ []) (hr₁ : StatementStart (u ++ r₁)) : r₂ = m ++ kw := by
  have hnot : ∀ q, q ≠ [] → (∀ c ∈ q, c ∈ m ++ kw) → ¬ StatementStart q := by
    intro q hq hsub hst
    have hmem := hsub _ (List.getLast_mem hq)
    have hm : ∀ c ∈ m ++ kw, c ≠ '\n' ∧ c ≠ ';' := by
      intro c hc
      rcases List.mem_append.1 hc with hc | hc
      · have := hop.margin c hc
        constructor <;> rintro rfl <;> exact absurd this (by decide)
      · have := isWord_of_mem_declarationWords hkw c hc
        constructor <;> rintro rfl <;> exact absurd this (by decide)
    rcases statementStart_iff.1 hst _ (List.getLast?_eq_some_getLast hq) with hc | hc
    · exact (hm _ hmem).1 hc
    · exact (hm _ hmem).2 hc
  rw [statementStart_append hne] at hr₁
  rcases hop.separates with ⟨rfl, -⟩ | rfl
  · refine absurd hr₁ (hnot r₁ hne fun c hc => ?_)
    rw [show m ++ kw = r₁ ++ r₂ from h]
    exact List.mem_append_left _ hc
  · obtain ⟨x, r₁, rfl⟩ := List.exists_cons_of_ne_nil hne
    obtain ⟨rfl, h'⟩ := List.cons.inj h
    by_cases hr : r₁ = []
    · rw [hr] at h'
      exact h'.symm
    · rw [show ';' :: r₁ = [';'] ++ r₁ from rfl, statementStart_append hr] at hr₁
      refine absurd hr₁ (hnot r₁ hr fun c hc => ?_)
      rw [show m ++ kw = r₁ ++ r₂ from h']
      exact List.mem_append_left _ hc

theorem unexported_default_replace (ht : Unexported DefaultHead t) :
    Unexported DefaultHead (exportModifier.replace t) := by
  rintro u v hout hu ⟨m, s, kw, post, rfl, hm, hs, hb, rfl, hc⟩
  have hd : ("default" : Text) ∈ headWords := by simp [headWords]
  obtain ⟨c, hpost, hc⟩ := (Option.any_eq_true ..).1 hc
  rcases (spliced_edit (some <$> exportModifier) t).changes.split hout with ⟨x, y, rfl, hx, hy⟩ |
    ⟨x, w, y, u', r₁, r₂, v', -, -, -, hr, h₁, h₂, hv', rfl, hv⟩
  · have hxs : StatementStart x := hu.of_spliced hx fun {pre w post r} hr => by
      have hlast := (getLast?_of_changes hr).1
      refine ⟨?_, fun hst => absurd hst (not_statementStart hlast)⟩
      rintro rfl
      simp at hlast
    have hnw : ∀ c ∈ post.head?, ¬ isWord c := by simpa [hpost] using not_isWord_of_isBlank hc
    obtain ⟨z, rfl, hz⟩ := prefix_of_default hy (by simp) hm hs hb hnw
    refine ht x _ rfl hxs ⟨m, s, "default", z, by simp, hm, hs, hb, rfl, ?_⟩
    rcases head?_of_changes hz (by rw [getLast?_head hd, any_isWord_getLast? hd]) with h' | h' <;> rw [hpost] at h'
    · rw [← h']
      exact hc
    · obtain rfl := Option.some.inj h'
      exact absurd hc (by decide)
  · obtain ⟨-, hw, hwne⟩ := getLast?_of_changes hr
    obtain ⟨sep, m', g, kw, hop, hkw, hpiece, hedge⟩ := changes_exportModifier hr
    obtain rfl := eq_of_split hop hkw hpiece.symm h₁ hu
    refine ne_export (t := ("default" : Text) ++ post) hop.margin hm (List.mem_cons_of_mem _ hkw)
      (not_isWord_head? hv' (by rwa [List.getLast?_append_of_ne_nil _ hwne]) (by simpa using hedge)) hs hb ?_
    simpa using hv.symm

/-! ### The merging of blank lines -/

theorem changes_blankLines (h : (some <$> blankLines).Changes pre w post r) :
    w.head? = some '\n' ∧ w.getLast? = some '\n' ∧ (∀ c ∈ w, isSpread c) ∧ r = "\n\n" := by
  obtain ⟨r', hr, heq⟩ := readsFirst_map.1 h
  obtain rfl := Option.some.inj heq
  obtain ⟨b, v, rfl, hb, hv, rfl⟩ := reads_blankLines.1 hr.reads
  refine ⟨rfl, ?_, fun c hc => ?_, rfl⟩
  · rw [show '\n' :: (b ++ '\n' :: (v ++ ['\n'])) = ('\n' :: (b ++ '\n' :: v)) ++ ['\n'] by simp,
      List.getLast?_concat]
  · simp only [List.mem_cons, List.mem_append, List.not_mem_nil, or_false] at hc
    rcases hc with rfl | hc | rfl | hc | rfl
    · decide
    · simp [isSpread, hb c hc]
    · decide
    · exact hv c hc
    · decide

theorem inside_blankLines {r₁ r₂ : Text} (h : (some <$> blankLines).Changes pre w post (r₁ ++ r₂))
    (hne : r₂ ≠ []) : ∃ r, r₂ = '\n' :: r := by
  obtain ⟨c, r, rfl⟩ := List.exists_cons_of_ne_nil hne
  have hc : c ∈ ("\n\n" : Text) := by
    rw [← (changes_blankLines h).2.2.2]
    simp
  exact ⟨r, by simpa using hc⟩

theorem allBlank_of_spliced (h : Spliced K (some <$> blankLines).Changes pre t post out)
    (ho : AllBlank out) : AllBlank t ∧ (out ≠ [] → t ≠ []) := by
  induction h with
  | done => exact ⟨ho, id⟩
  | @keep pre t post out x hx h ih =>
    have := ih fun c hc => ho c (List.mem_cons_of_mem _ hc)
    refine ⟨fun c hc => ?_, by simp⟩
    rcases List.mem_cons.1 hc with rfl | hc
    · exact ho c (by simp)
    · exact this.1 c hc
  | @put pre w t post r out hw hne h ih =>
    have := ih fun c hc => ho c (List.mem_append_right _ hc)
    refine ⟨fun c hc => ?_, by simp [hne]⟩
    rcases List.mem_append.1 hc with hc | hc
    · exact isBlank_of_isSpread ((changes_blankLines hw).2.2.1 c hc)
    · exact this.1 c hc

theorem unexported_blankLines (hE : Heads E) (ht : Unexported E t) : Unexported E (blankLines.replace t) := by
  rintro u v hout hu ⟨m, s, kw, post, rfl, hm, hs, hb, hkw⟩
  have hhead {pre w post r : Text} (hr : (some <$> blankLines).Changes pre w post r) :
      r.head? = some '\n' := by rw [(changes_blankLines hr).2.2.2]; rfl
  have hn {v : Text} (hv : ∀ c ∈ v, isWord c) : '\n' ∉ v := fun h => absurd (hv _ h) (by decide)
  have hword := isWord_of_mem_headWords (hE hkw).1
  rcases (spliced_edit (some <$> blankLines) t).changes.split hout with ⟨x, y, rfl, hx, hy⟩ |
    ⟨x, w, y, u', r₁, r₂, v', -, -, -, hr, h₁, h₂, hv', rfl, hv⟩
  · have hxs : StatementStart x := hu.of_spliced hx fun hr => by
      obtain ⟨-, hlast, -, rfl⟩ := changes_blankLines hr
      exact ⟨by simp, fun _ => statementStart_iff.2 (by simp [hlast])⟩
    have hmn : '\n' ∉ m ++ ("export" : Text) := by
      simp only [List.mem_append, not_or]
      exact ⟨fun hc => absurd (hm _ hc) (by decide), hn isWord_export⟩
    -- `export` is kept, of the white space behind it there may be more, and the word is kept again
    obtain ⟨y₁, rfl, hy₁⟩ := hy.prefix_of_notMem (q := m ++ ("export" : Text)) (v := s ++ (kw ++ post))
      (by simp) hhead hmn
    rcases hy₁.split rfl with ⟨s', y₂, rfl, hs', hy₂⟩ | ⟨_, _, _, _, r₁, r₂, v', -, -, -, hr, h₁, h₂, -, -, hv⟩
    · obtain ⟨hb', hne⟩ := allBlank_of_spliced hs' hb
      obtain ⟨y, rfl, hy₃⟩ := hy₂.prefix_of_notMem (q := kw) (v := post) rfl hhead (hn hword)
      have hnext : y.head? = post.head? := by
        cases hy₃ with
        | done => rfl
        | keep => rfl
        | put hr hne =>
          rw [List.head?_append_of_ne_nil _ hne, (changes_blankLines hr).1, (changes_blankLines hr).2.2.2]
          rfl
      rw [← hnext] at hkw
      exact ht x _ rfl hxs ⟨m, s', kw, y, by simp, hm, hne hs, hb', hkw⟩
    · obtain ⟨c, kw', rfl, hc⟩ := solid_headWord (hE hkw).1
      obtain ⟨r, rfl⟩ := inside_blankLines hr h₂
      obtain ⟨rfl, -⟩ := List.cons.inj hv
      exact absurd hc (by decide)
  · obtain ⟨r, rfl⟩ := inside_blankLines hr h₂
    cases m with
    | nil => exact absurd (List.cons.inj hv).1 (by decide)
    | cons c m =>
      obtain ⟨rfl, -⟩ := List.cons.inj hv
      exact absurd (hm '\n' (by simp)) (by decide)

/-! ### The removal as a whole -/

theorem unexported_removeForm (ht : Unexported DefaultHead t) :
    Unexported DefaultHead (removeForm t exportModifier) := by
  rw [removeForm]
  generalize t.length = rounds
  induction rounds generalizing t with
  | zero => exact ht
  | succ rounds ih =>
    rw [exhaust]
    split_ifs
    · exact ht
    · exact ih (unexported_default_replace ht)

/-- After the removal no statement exports a declaration or a default. -/
theorem unexported_remove (code : Text) :
    Unexported DefaultHead (remove code) ∧ Unexported ModifierHead (remove code) := by
  obtain ⟨t, ht⟩ : ∃ t, forms.foldl removeForm code = removeForm (removeForm t exportDefault) exportModifier :=
    ⟨_, rfl⟩
  have hdefault : Unexported DefaultHead (forms.foldl removeForm code) := by
    rw [ht]
    exact unexported_removeForm (unexported_default (fails_of_removeForm (by simp [forms])))
  have hmodifier : Unexported ModifierHead (forms.foldl removeForm code) := by
    rw [ht]
    exact unexported_modifier (fails_of_removeForm (by simp [forms]))
  simp only [remove]
  split_ifs with heq
  · rw [heq] at hdefault hmodifier
    exact ⟨hdefault, hmodifier⟩
  · exact ⟨unexported_blankLines heads_default hdefault, unexported_blankLines heads_modifier hmodifier⟩

end AppsScript.ModuleSyntax
