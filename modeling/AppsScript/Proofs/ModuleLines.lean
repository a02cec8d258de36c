import AppsScript.Proofs.ModuleForms

/-!
# Module statements on lines of their own

`Line l out` is the grammar of a line `l` that `remove` turns into `out`, or removes when `out` is
`none`: a whole statement (`Statement`), an exported declaration, or a line without module syntax.
`Spelled` has the same statements in every spelling that the forms know. For each of its productions there
is a lemma that its form prefers to read just it. These need to know how the text goes on (`Inert`,
`Stops`): an attribute clause or the source of a list could stand on the next line.
-/

namespace AppsScript.ModuleSyntax

open Source Scan Text

variable {pre post t g g₁ g₂ m b d e l r s : Text} {ws : List Text}

/-- Spaces and tabs between two words. -/
def Gap (g : Text) : Prop := g ≠ [] ∧ AllIndent g

/-- A name. -/
def IsName (d : Text) : Prop := d ≠ [] ∧ ∀ c ∈ d, isName c

/-- A list in braces, on one line and without a `;`. -/
def IsList (l : Text) : Prop := ∃ b, l = '\x7b' :: (b ++ ['\x7d']) ∧ ∀ c ∈ b, c ∉ ['\x7d', ';', '\n']

/-- Everything under a name. -/
def IsAll (b : Text) : Prop :=
  ∃ g g' d, b = '*' :: (g ++ ("as" ++ (g' ++ d))) ∧ Gap g ∧ Gap g' ∧ IsName d

/-- The name of a module in quotes. -/
def IsSpecifier (s : Text) : Prop :=
  ∃ q b, s = q :: (b ++ [q]) ∧ q ∈ ['"', '\''] ∧ ∀ c ∈ b, c ∉ ['"', '\'', ';', '\n']

/-- The module that something comes from. -/
def IsSource (s : Text) : Prop := ∃ g s', s = "from" ++ (g ++ s') ∧ Gap g ∧ IsSpecifier s'

/-- What an `import` binds. -/
inductive Binds : Text → Prop
  | name {d : Text} : IsName d → Binds d
  | list {l : Text} : IsList l → Binds l
  | all {b : Text} : IsAll b → Binds b
  | nameAndList {d g l : Text} : IsName d → Gap g → IsList l → Binds (d ++ (',' :: (g ++ l)))
  | nameAndAll {d g b : Text} : IsName d → Gap g → IsAll b → Binds (d ++ (',' :: (g ++ b)))

/-- A statement that is removed whole. -/
inductive Statement : Text → Prop
  | importFrom {g₁ b g₂ s : Text} : Gap g₁ → Binds b → Gap g₂ → IsSource s →
    Statement ("import" ++ (g₁ ++ (b ++ (g₂ ++ s))))
  | importOnly {g s : Text} : Gap g → IsSpecifier s → Statement ("import" ++ (g ++ s))
  | exportList {g l : Text} : Gap g → IsList l → Statement ("export" ++ (g ++ l))
  | exportListFrom {g₁ l g₂ s : Text} : Gap g₁ → IsList l → Gap g₂ → IsSource s →
    Statement ("export" ++ (g₁ ++ (l ++ (g₂ ++ s))))
  | exportAll {g₁ g₂ s : Text} : Gap g₁ → Gap g₂ → IsSource s →
    Statement ("export" ++ (g₁ ++ ('*' :: (g₂ ++ s))))
  | exportAllAs {g₁ b g₂ s : Text} : Gap g₁ → IsAll b → Gap g₂ → IsSource s →
    Statement ("export" ++ (g₁ ++ (b ++ (g₂ ++ s))))

/-- What may stand behind a statement on its line. -/
inductive Ending : Text → Prop
  | blank {e : Text} : AllIndent e → Ending e
  | semicolon {u v : Text} : AllIndent u → AllIndent v → Ending (u ++ ';' :: v)

/-- The line is one line, and no statement of a module starts behind a `;` on it. -/
structure Unbroken (l : Text) : Prop where
  notMem : '\n' ∉ l
  noLater : ∀ u m kw v, l = u ++ ';' :: (m ++ (kw ++ v)) → AllIndent m →
    kw ∉ (["import", "export"] : List Text)

/-- The text has none of the words in front. -/
def NotBefore (ws : List Text) (t : Text) : Prop := ∀ w ∈ ws, ¬ w <+: t

/-- What is left of an exported declaration goes on like this. -/
structure Exported (r : Text) : Prop where
  solid : Solid r
  notBefore : NotBefore ["import", "export"] r

/-- The line `l` is left as `out` when module syntax is removed. -/
inductive Line : (l : Text) → (out : Option Text) → Prop
  | statement {m s e : Text} : AllIndent m → Statement s → Ending e → Line (m ++ (s ++ e)) none
  | exportDefault {m g₁ g₂ r : Text} : AllIndent m → Gap g₁ → Gap g₂ → Exported r →
    Unbroken (m ++ ("export" ++ (g₁ ++ ("default" ++ (g₂ ++ r))))) →
    Line (m ++ ("export" ++ (g₁ ++ ("default" ++ (g₂ ++ r))))) (some (m ++ r))
  | exportModifier {m g₁ kw g₂ r : Text} : AllIndent m → Gap g₁ → kw ∈ declarationWords → Gap g₂ →
    Exported r → (kw = "type" → r.head? ≠ some '\x7b') →
    Unbroken (m ++ ("export" ++ (g₁ ++ (kw ++ (g₂ ++ r))))) →
    Line (m ++ ("export" ++ (g₁ ++ (kw ++ (g₂ ++ r))))) (some (m ++ (kw ++ (g₂ ++ r))))
  | plain {l : Text} : Unbroken l →
    NotBefore ["import", "export", "from", "with", "assert"] (trimStart l) → Line l (some l)

/-! ### Spellings

The same statements with white space of any kind, or none where no two words would run together, and maybe over
several lines. -/

/-- White space that keeps two words apart. -/
def Blanks (g : Text) : Prop := g ≠ [] ∧ AllBlank g

/-- A list in braces. -/
def InBraces (l : Text) : Prop := ∃ b, l = '\x7b' :: (b ++ ['\x7d']) ∧ '\x7d' ∉ b

/-- Everything under a name. -/
def AllAs (b : Text) : Prop :=
  ∃ g g' d, b = '*' :: (g ++ ("as" ++ (g' ++ d))) ∧ AllBlank g ∧ Blanks g' ∧ IsName d

/-- The name of a module in quotes, up to the next quote of either kind. -/
def IsModule (s : Text) : Prop :=
  ∃ q b q', s = q :: (b ++ [q']) ∧ q ∈ ['"', '\''] ∧ q' ∈ ['"', '\''] ∧ ∀ c ∈ b, c ∉ ['"', '\'', '\n']

/-- The module that something comes from. -/
def IsOrigin (s : Text) : Prop := ∃ g s', s = "from" ++ (g ++ s') ∧ AllBlank g ∧ IsModule s'

/-- The attributes of a module, if it has any. -/
def IsAttributes (a : Text) : Prop :=
  a = [] ∨ ∃ g kw g' l, a = g ++ (kw ++ (g' ++ l)) ∧ AllBlank g ∧ kw ∈ (["with", "assert"] : List Text) ∧ AllBlank g' ∧
    InBraces l

/-- What an `import` binds in front of the white space `g`. -/
inductive BindsBefore : (b g : Text) → Prop
  | name {d g : Text} : IsName d → Blanks g → BindsBefore d g
  | list {l g : Text} : InBraces l → AllBlank g → BindsBefore l g
  | all {b g : Text} : AllAs b → Blanks g → BindsBefore b g
  | nameAndList {d g₁ g₂ l g : Text} : IsName d → AllBlank g₁ → AllBlank g₂ → InBraces l → AllBlank g →
    BindsBefore (d ++ (g₁ ++ ',' :: (g₂ ++ l))) g
  | nameAndAll {d g₁ g₂ b g : Text} : IsName d → AllBlank g₁ → AllBlank g₂ → AllAs b → Blanks g →
    BindsBefore (d ++ (g₁ ++ ',' :: (g₂ ++ b))) g

/-- The first words of the clauses that a statement may end with. -/
def clauses : List Text := ["from", "with", "assert"]

/-- A statement that is removed whole, unless one of the words `ws` follows. -/
inductive Spelled : (ws : List Text) → Text → Prop
  | importFrom {g₁ b g₂ s a : Text} : AllBlank g₁ → (g₁ = [] → b.head? = some '\x7b' ∨ b.head? = some '*') →
    BindsBefore b g₂ → IsOrigin s → IsAttributes a →
    Spelled clauses ("import" ++ (g₁ ++ (b ++ (g₂ ++ (s ++ a)))))
  | importOnly {g s : Text} : AllBlank g → IsModule s → Spelled ["from"] ("import" ++ (g ++ s))
  | exportList {g l : Text} : AllBlank g → InBraces l → Spelled ["from"] ("export" ++ (g ++ l))
  | exportListFrom {g₁ l g₂ s : Text} : AllBlank g₁ → InBraces l → AllBlank g₂ → IsOrigin s →
    Spelled ["from"] ("export" ++ (g₁ ++ (l ++ (g₂ ++ s))))
  | exportAll {g₁ g₂ s : Text} : AllBlank g₁ → AllBlank g₂ → IsOrigin s →
    Spelled ["from"] ("export" ++ (g₁ ++ ('*' :: (g₂ ++ s))))
  | exportAllAs {g₁ b g₂ s : Text} : AllBlank g₁ → AllAs b → Blanks g₂ → IsOrigin s →
    Spelled ["from"] ("export" ++ (g₁ ++ (b ++ (g₂ ++ s))))

theorem Gap.blanks (h : Gap g) : Blanks g := ⟨h.1, h.2.allBlank⟩

theorem IsList.inBraces (h : IsList l) : InBraces l := by
  obtain ⟨b, rfl, hb⟩ := h
  exact ⟨b, rfl, fun hc => hb _ hc (by simp)⟩

theorem IsAll.allAs (h : IsAll b) : AllAs b := by
  obtain ⟨g, g', d, rfl, hg, hg', hd⟩ := h
  exact ⟨g, g', d, rfl, hg.blanks.2, hg'.blanks, hd⟩

theorem IsSpecifier.isModule (h : IsSpecifier s) : IsModule s := by
  obtain ⟨q, b, rfl, hq, hb⟩ := h
  refine ⟨q, b, q, rfl, hq, hq, fun c hc => ?_⟩
  have hne := hb c hc
  simp only [List.mem_cons, List.not_mem_nil, or_false, not_or] at hne ⊢
  exact ⟨hne.1, hne.2.1, hne.2.2.2⟩

theorem IsSource.isOrigin (h : IsSource s) : IsOrigin s := by
  obtain ⟨g, s', rfl, hg, hs⟩ := h
  exact ⟨g, s', rfl, hg.blanks.2, hs.isModule⟩

theorem Binds.before (h : Binds b) (hg : Gap g) : BindsBefore b g := by
  have hnone : AllBlank [] := by simp [AllBlank]
  cases h with
  | name hd => exact .name hd hg.blanks
  | list hl => exact .list hl.inBraces hg.blanks.2
  | all hb => exact .all hb.allAs hg.blanks
  | @nameAndList d g' l hd hg' hl =>
    have hbefore : BindsBefore (d ++ ([] ++ ',' :: (g' ++ l))) g :=
      .nameAndList hd hnone hg'.blanks.2 hl.inBraces hg.blanks.2
    exact hbefore
  | @nameAndAll d g' b hd hg' hb =>
    have hbefore : BindsBefore (d ++ ([] ++ ',' :: (g' ++ b))) g :=
      .nameAndAll hd hnone hg'.blanks.2 hb.allAs hg.blanks
    exact hbefore

theorem Statement.spelled (h : Statement s) : ∃ ws, Spelled ws s := by
  cases h with
  | @importFrom g₁ b g₂ s hg₁ hb hg₂ hs =>
    have hspelled : Spelled clauses (("import" : Text) ++ (g₁ ++ (b ++ (g₂ ++ (s ++ []))))) :=
      .importFrom hg₁.blanks.2 (fun hnil => absurd hnil hg₁.1) (hb.before hg₂) hs.isOrigin (.inl rfl)
    rw [List.append_nil] at hspelled
    exact ⟨_, hspelled⟩
  | importOnly hg hs => exact ⟨_, .importOnly hg.blanks.2 hs.isModule⟩
  | exportList hg hl => exact ⟨_, .exportList hg.blanks.2 hl.inBraces⟩
  | exportListFrom hg₁ hl hg₂ hs =>
    exact ⟨_, .exportListFrom hg₁.blanks.2 hl.inBraces hg₂.blanks.2 hs.isOrigin⟩
  | exportAll hg₁ hg₂ hs => exact ⟨_, .exportAll hg₁.blanks.2 hg₂.blanks.2 hs.isOrigin⟩
  | exportAllAs hg₁ hb hg₂ hs => exact ⟨_, .exportAllAs hg₁.blanks.2 hb.allAs hg₂.blanks hs.isOrigin⟩

/-- Behind the white space that `t` starts with there is none of the words that would go on with the
statement in front of it. -/
def Inert (ws : List Text) (t : Text) : Prop := ∀ s u, t = s ++ u → AllBlank s → NotBefore ws u

/-! ### Parts of statements -/

theorem Gap.allBlank (h : Gap g) : AllBlank g := h.2.allBlank

theorem Blanks.head (h : Blanks g) (t : Text) : ∃ c v, g ++ t = c :: v ∧ isBlank c := by
  obtain ⟨c, v, rfl⟩ := List.exists_cons_of_ne_nil h.1
  exact ⟨c, v ++ t, rfl, h.2 c (by simp)⟩

theorem Blanks.not_isName (h : Blanks g) : ∀ c ∈ (g ++ t).head?, ¬ isName c := by
  obtain ⟨c, v, hv, hc⟩ := h.head t
  rw [hv]
  simpa using not_isName_of_isBlank hc

theorem IsName.solid (h : IsName d) : Solid d := solid_of_isName h.1 h.2

theorem InBraces.solid (h : InBraces l) : Solid l := by
  obtain ⟨b, rfl, -⟩ := h
  exact ⟨_, _, rfl, by decide⟩

theorem AllAs.solid (h : AllAs b) : Solid b := by
  obtain ⟨g, g', d, rfl, -⟩ := h
  exact ⟨_, _, rfl, by decide⟩

theorem IsModule.solid (h : IsModule s) : Solid s := by
  obtain ⟨q, b, q', rfl, hq, -⟩ := h
  refine ⟨_, _, rfl, ?_⟩
  simp only [List.mem_cons, List.not_mem_nil, or_false] at hq
  rcases hq with rfl | rfl <;> decide

theorem solid_from : Solid "from" := ⟨'f', "rom", rfl, rfl⟩

theorem IsOrigin.solid (h : IsOrigin s) : Solid s := by
  obtain ⟨g, s', rfl, -⟩ := h
  exact solid_from.append _

theorem BindsBefore.solid (h : BindsBefore b g) : Solid b := by
  cases h with
  | name h => exact h.solid
  | list h => exact h.solid
  | all h => exact h.solid
  | nameAndList h => exact h.solid.append _
  | nameAndAll h => exact h.solid.append _

theorem BindsBefore.allBlank (h : BindsBefore b g) : AllBlank g := by
  cases h with
  | name _ hg => exact hg.2
  | list _ hg => exact hg
  | all _ hg => exact hg.2
  | nameAndList _ _ _ _ hg => exact hg
  | nameAndAll _ _ _ _ hg => exact hg.2

/-! ### Reading the parts -/

theorem readsFirst_space (hg : AllBlank g) (ht : Solid post) :
    space.ReadsFirst pre g post () := readsFirst_many hg ht.not_isBlank

theorem readsFirst_space1 (hg : Blanks g) (ht : Solid post) :
    space1.ReadsFirst pre g post () := readsFirst_many1 hg.1 hg.2 ht.not_isBlank

theorem readsFirst_indent (hg : AllIndent g) (ht : ∀ c ∈ post.head?, ¬ isIndent c) :
    indent.ReadsFirst pre g post () := readsFirst_many hg.isIndent ht

theorem readsFirst_anyName (hd : IsName d) (ht : ∀ c ∈ post.head?, ¬ isName c) :
    anyName.ReadsFirst pre d post () := readsFirst_many1 hd.1 hd.2 ht

theorem readsFirst_braces (h : InBraces l) : braces.ReadsFirst pre l post () := by
  obtain ⟨b, rfl, hb⟩ := h
  refine ReadsFirst.bind (u := ['\x7b']) readsFirst_word (ReadsFirst.bind (readsFirst_many ?_ ?_)
    readsFirst_word)
  · intro c hc
    rw [bne_iff_ne]
    rintro rfl
    exact hb hc
  · simp

theorem readsFirst_specifier (h : IsModule s) :
    specifier.ReadsFirst pre s post () := by
  obtain ⟨q, b, q', rfl, hq, hq', hb⟩ := h
  have hend : (do let _ ← Scan.char (· ∈ ['"', '\'']) : Scan Unit).ReadsFirst (pre ++ [q] ++ b) [q']
      post () :=
    ReadsFirst.bind (u := [q']) (v := []) (readsFirst_char (by simpa using hq')) readsFirst_pure
  refine ReadsFirst.bind (u := [q]) (readsFirst_char (by simpa using hq))
    (ReadsFirst.bind (readsFirst_many ?_ ?_) hend)
  · intro c hc
    have := hb c hc
    simp only [List.mem_cons, not_or, List.not_mem_nil, not_false_eq_true, and_true] at this
    simpa using this
  · simp only [List.mem_cons, List.not_mem_nil, or_false] at hq'
    rcases hq' with rfl | rfl <;> simp

theorem readsFirst_asName (hg : Blanks g) (hd : IsName d)
    (ht : ∀ c ∈ post.head?, ¬ isName c) : asName.ReadsFirst pre ("as" ++ (g ++ d)) post () :=
  ReadsFirst.bind readsFirst_word
    (ReadsFirst.bind (readsFirst_space1 hg (hd.solid.append _)) (readsFirst_anyName hd ht))

theorem readsFirst_all (h : AllAs b) (ht : ∀ c ∈ post.head?, ¬ isName c) :
    (do Scan.word "*"; space; asName : Scan Unit).ReadsFirst pre b post () := by
  obtain ⟨g, g', d, rfl, hg, hg', hd⟩ := h
  refine ReadsFirst.bind (u := ['*']) readsFirst_word (ReadsFirst.bind
    (readsFirst_space hg ?_) (readsFirst_asName hg' hd ht))
  exact ⟨'a', _, rfl, rfl⟩

theorem readsFirst_source (hg : AllBlank g) (hs : IsOrigin s) :
    source.ReadsFirst pre (g ++ s) post () := by
  obtain ⟨g', s', rfl, hg', hs'⟩ := hs
  exact ReadsFirst.bind (readsFirst_space hg ((solid_from.append _).append _))
    (ReadsFirst.bind readsFirst_word (ReadsFirst.bind
      (readsFirst_space hg' (hs'.solid.append _)) (readsFirst_specifier hs')))

/-! ### Reading whole statements -/

theorem readsFirst_opening {kw v : Text} {f : Text → Text → Scan Text} (hp : pre.AtLineStart)
    (hm : AllIndent m) (hkw : Solid kw) (h : (f [] m).ReadsFirst (pre ++ (m ++ kw)) v post r) :
    (do let sep ← statementStart; let margin ← indent.text; Scan.word kw; f sep margin : Scan Text)
      |>.ReadsFirst pre (m ++ (kw ++ v)) post r := by
  have hstart : statementStart.ReadsFirst pre [] (m ++ (kw ++ v) ++ post) [] :=
    .or_left (ReadsFirst.bind (u := []) (readsFirst_lineStart hp) readsFirst_pure)
  have hmargin : indent.text.ReadsFirst (pre ++ []) m (kw ++ v ++ post) m :=
    (readsFirst_indent hm ((hkw.append _).append _).not_isIndent).text
  refine ReadsFirst.bind (u := []) hstart (ReadsFirst.bind hmargin (ReadsFirst.bind readsFirst_word ?_))
  simpa using h

theorem readsFirst_opening_unit {kw v : Text} {f : Text → Scan Text} (hp : pre.AtLineStart)
    (hm : AllIndent m) (hkw : Solid kw) (h : (f []).ReadsFirst (pre ++ (m ++ kw)) v post r) :
    (do let sep ← statementStart; indent; Scan.word kw; f sep : Scan Text)
      |>.ReadsFirst pre (m ++ (kw ++ v)) post r := by
  have heq (sep : Text) : (do let _ ← indent.text; Scan.word kw; f sep : Scan Text) =
      (do indent; Scan.word kw; f sep) := Scan.text_bind
  simp only [← heq]
  exact readsFirst_opening (f := fun sep _ => f sep) hp hm hkw h

/-- A line feed, maybe behind a carriage return. -/
def IsBreak (n : Text) : Prop := n = ['\n'] ∨ n = ['\r', '\n']

theorem IsBreak.allBlank {n : Text} (h : IsBreak n) : AllBlank n := by
  rcases h with rfl | rfl <;> simpa [AllBlank] using by decide

theorem IsBreak.not_isIndent {n : Text} (h : IsBreak n) : ∀ c ∈ (n ++ t).head?, ¬ isIndent c := by
  rcases h with rfl | rfl <;> simp [isIndent]

theorem IsBreak.readsFirst {n : Text} (h : IsBreak n) : lineBreak.ReadsFirst pre n post () := by
  rcases h with rfl | rfl
  · exact ReadsFirst.bind (u := []) (readsFirst_maybe_none (fails_word (by simp))) readsFirst_word
  · exact ReadsFirst.bind (u := ['\r']) readsFirst_word.maybe_some readsFirst_word

/-- A statement that none of the words `ws` goes on with ends with `e` in front of `post`. -/
structure Stops (ws : List Text) (e post : Text) : Prop where
  reads : ∀ {pre : Text}, ∃ newline, statementEnd.ReadsFirst pre e post newline
  inert : Inert ws (e ++ post)

theorem Ending.readsFirst {n : Text} (h : Ending e) (hn : IsBreak n) : statementEnd.ReadsFirst pre (e ++ n) post n := by
  have hend {pre : Text} : (do let newline ← lineBreak.text.maybe; pure (newline.getD []) : Scan Text)
      |>.ReadsFirst pre n post n := by
    have hbreak : lineBreak.text.maybe.ReadsFirst pre n ([] ++ post) (some n) := hn.readsFirst.text.maybe_some
    simpa using hbreak.bind (f := fun newline => pure (newline.getD [])) readsFirst_pure
  have hsemi {pre : Text} : (Scan.word ";").maybe.ReadsFirst pre [] (n ++ post) none := by
    refine readsFirst_maybe_none (fails_word ?_)
    rcases hn with rfl | rfl <;> simp
  cases h with
  | blank he =>
    refine ReadsFirst.bind (readsFirst_indent he hn.not_isIndent) ?_
    refine ReadsFirst.bind (u := []) hsemi ?_
    exact ReadsFirst.bind (u := []) (readsFirst_indent allIndent_nil hn.not_isIndent) hend
  | @semicolon u v hu hv =>
    rw [List.append_assoc]
    refine ReadsFirst.bind (readsFirst_indent hu (by simp [isIndent])) ?_
    refine ReadsFirst.bind (u := [';']) (ReadsFirst.maybe_some readsFirst_word) ?_
    exact ReadsFirst.bind (readsFirst_indent hv hn.not_isIndent) hend

/-- What the forms of whole statements end with. -/
theorem Stops.readsFirst (h : Stops ws e post) :
    (do let newline ← statementEnd; pure (remainder [] newline) : Scan Text).ReadsFirst pre e post [] := by
  obtain ⟨newline, hend⟩ : ∃ newline, statementEnd.ReadsFirst pre e ([] ++ post) newline := h.reads
  simpa [remainder] using hend.bind (f := fun newline => pure (remainder [] newline)) readsFirst_pure

theorem solid_of_mem_clauses {w : Text} (h : w ∈ clauses) : Solid w := by
  simp only [clauses, List.mem_cons, List.not_mem_nil, or_false] at h
  rcases h with rfl | rfl | rfl
  exacts [solid_from, ⟨'w', _, rfl, rfl⟩, ⟨'a', _, rfl, rfl⟩]

theorem inert_of_solid (hr : Solid r) (hnot : NotBefore ws r) : Inert ws r := by
  intro s u hu hs
  obtain ⟨c, r, rfl, hc⟩ := hr
  cases s with
  | nil => rwa [← show c :: r = u from hu]
  | cons x s =>
    obtain ⟨rfl, -⟩ := List.cons.inj hu
    exact absurd (hs c (by simp)) (by simp [hc])

section Inert

variable (hws : ws ⊆ clauses)
include hws

theorem Inert.append_blank (ht : Inert ws t) (hg : AllBlank g) : Inert ws (g ++ t) := by
  intro s u hu hs w hw hp
  rcases List.append_eq_append_iff.1 hu with ⟨v, rfl, rfl⟩ | ⟨v, rfl, rfl⟩
  · exact ht v u rfl (fun c hc => hs c (by simp [hc])) w hw hp
  · cases v with
    | nil => exact ht [] t rfl (by simp [AllBlank]) w hw hp
    | cons c v =>
      obtain ⟨x, w', rfl, hx⟩ := solid_of_mem_clauses (hws hw)
      obtain ⟨rfl, -⟩ := List.cons_prefix_cons.1 hp
      exact absurd (hg x (by simp)) (by simp [hx])

theorem inert_semicolon (hg : AllBlank g) : Inert ws (g ++ ';' :: t) := by
  refine Inert.append_blank hws (inert_of_solid ⟨';', t, rfl, rfl⟩ fun w hw hp => ?_) hg
  have hne : ∀ w ∈ clauses, w.head? ≠ some ';' := by simp [clauses]
  obtain ⟨c, v, rfl, -⟩ := solid_of_mem_clauses (hws hw)
  obtain ⟨rfl, -⟩ := List.cons_prefix_cons.1 hp
  exact hne _ (hws hw) rfl

theorem Inert.newline (ht : Inert ws t) : Inert ws ('\n' :: t) :=
  ht.append_blank hws (g := ['\n']) (by simpa [AllBlank] using by decide)

theorem Ending.stops {n : Text} (he : Ending e) (hn : IsBreak n) (ht : Inert ws t) : Stops ws (e ++ n) t := by
  refine ⟨⟨n, he.readsFirst hn⟩, ?_⟩
  rw [List.append_assoc]
  cases he with
  | blank he => exact (ht.append_blank hws hn.allBlank).append_blank hws he.allBlank
  | semicolon hu hv => simpa using inert_semicolon hws hu.allBlank

theorem Ending.stops_before (he : Ending e) (hr : Solid r) (hsemi : r.head? = some ';' → ';' ∈ e)
    (ht : Inert ws r) : Stops ws e r := by
  -- `r` starts with neither character of a line break.
  have hbreak {pre : Text} : lineBreak.text.maybe.ReadsFirst pre [] r none := by
    refine readsFirst_maybe_none ?_
    rw [fails_iff]
    rintro w post o rfl hw
    obtain ⟨_, ⟨⟩, hw⟩ := reads_text.1 hw
    obtain ⟨u, v, _, rfl, hu, hv⟩ := reads_bind.1 hw
    rw [reads_word] at hv
    subst hv
    obtain ⟨c, x, hx, hc⟩ := hr
    rcases reads_maybe.1 hu with ⟨_, hu, -⟩ | ⟨rfl, -⟩
    · rw [reads_word] at hu
      subst hu
      obtain ⟨rfl, -⟩ := List.cons.inj hx
      exact absurd hc (by decide)
    · obtain ⟨rfl, -⟩ := List.cons.inj hx
      exact absurd hc (by decide)
  have hrest {pre v : Text} (hv : AllIndent v) :
      (do indent; let newline ← lineBreak.text.maybe; pure (newline.getD []) : Scan Text)
        |>.ReadsFirst pre (v ++ []) r [] :=
    ReadsFirst.bind (readsFirst_indent hv hr.not_isIndent) (ReadsFirst.bind (u := []) hbreak readsFirst_pure)
  cases he with
  | blank he =>
    refine ⟨fun {pre} => ⟨[], ?_⟩, ht.append_blank hws he.allBlank⟩
    have hnone {pre : Text} : (Scan.word ";").maybe.ReadsFirst pre [] ([] ++ r) none := by
      refine readsFirst_maybe_none (fails_word fun ⟨v, hv⟩ => ?_)
      have hhead : r.head? = some ';' := by
        rw [← show ';' :: v = r from hv]
        rfl
      have hc := he ';' (hsemi hhead)
      simp at hc
    have hall : statementEnd.ReadsFirst pre (e ++ []) r [] := by
      refine ReadsFirst.bind (readsFirst_indent he hr.not_isIndent) ?_
      exact ReadsFirst.bind (u := []) hnone (hrest (v := []) allIndent_nil)
    simpa using hall
  | @semicolon u v hu hv =>
    refine ⟨⟨[], ?_⟩, by simpa using inert_semicolon hws hu.allBlank⟩
    refine ReadsFirst.bind (readsFirst_indent hu (by simp [isIndent])) ?_
    refine ReadsFirst.bind (u := [';']) (ReadsFirst.maybe_some readsFirst_word) ?_
    simpa using hrest hv

end Inert

/-- Where no clause follows, an optional one that starts with one of these words is left out. -/
theorem Inert.fails {f : Unit → Scan Unit} (ht : Inert ws t)
    (hf : ∀ pre w post o, (f ()).Reads pre w post o → ∃ kw ∈ ws, kw <+: w) : (space >>= f).Fails pre t := by
  rw [fails_iff]
  rintro w post o rfl h
  obtain ⟨u, v, _, rfl, hu, hv⟩ := reads_bind.1 h
  obtain ⟨kw, hkw, hp⟩ := hf _ _ _ _ hv
  rw [space, reads_many] at hu
  exact ht u (v ++ post) (by simp) hu kw hkw (hp.trans (List.prefix_append ..))

theorem Inert.fails_source (ht : Inert ["from"] t) : source.Fails pre t := by
  refine ht.fails fun pre w post o h => ?_
  obtain ⟨u, v, _, rfl, hu, -⟩ := reads_bind.1 h
  rw [reads_word] at hu
  exact ⟨"from", by simp, hu ▸ List.prefix_append ..⟩

theorem Inert.fails_attributes (ht : Inert clauses t) :
    (do space; let _ ← Scan.oneOf ["with", "assert"]; space; braces : Scan Unit).Fails pre t := by
  refine ht.fails fun pre w post o h => ?_
  obtain ⟨u, v, kw, rfl, hu, -⟩ := reads_bind.1 h
  obtain ⟨hkw, rfl⟩ := reads_oneOf.1 hu
  exact ⟨u, List.mem_cons_of_mem _ hkw, List.prefix_append ..⟩

theorem readsFirst_attributes {x : Text} (h : ∃ g kw g' l, x = g ++ (kw ++ (g' ++ l)) ∧ AllBlank g ∧
      kw ∈ (["with", "assert"] : List Text) ∧ AllBlank g' ∧ InBraces l) :
    (do space; let _ ← Scan.oneOf ["with", "assert"]; space; braces : Scan Unit).ReadsFirst pre x post () := by
  obtain ⟨g, kw, g', l, rfl, hg, hkw, hg', hl⟩ := h
  have hsolid : Solid kw := solid_of_mem_clauses (List.mem_cons_of_mem _ hkw)
  have hword : (Scan.oneOf ["with", "assert"]).ReadsFirst (pre ++ g) kw (g' ++ l ++ post) kw := by
    refine .of_unique (reads_oneOf.2 ⟨hkw, rfl⟩) fun w' post' kw' hw hr => ?_
    obtain ⟨hkw', rfl⟩ := reads_oneOf.1 hr
    simp only [List.mem_cons, List.not_mem_nil, or_false] at hkw hkw'
    rcases hkw with rfl | rfl <;> rcases hkw' with rfl | rfl <;> simp at hw ⊢
  refine ReadsFirst.bind (readsFirst_space hg ((hsolid.append _).append _)) (ReadsFirst.bind hword ?_)
  exact ReadsFirst.bind (readsFirst_space hg' (hl.solid.append _)) (readsFirst_braces hl)

theorem solid_import : Solid "import" := ⟨'i', _, rfl, rfl⟩

theorem solid_export : Solid "export" := ⟨'e', _, rfl, rfl⟩

theorem readsFirst_importOnly (hp : pre.AtLineStart) (hm : AllIndent m) (hg : AllBlank g)
    (hs : IsModule s) (he : Stops ws e post) :
    importOnly.ReadsFirst pre (m ++ ("import" ++ (g ++ (s ++ e)))) post [] := by
  refine readsFirst_opening_unit hp hm solid_import ?_
  refine ReadsFirst.bind (readsFirst_space hg ((hs.solid.append _).append _)) ?_
  exact ReadsFirst.bind (readsFirst_specifier hs) he.readsFirst

theorem fails_space_word {α : Type} {kw : Text} {f : Unit → Scan α} (hg : AllBlank g) (hs : Solid s)
    (hkw : Solid kw) (h : ¬ kw <+: s) : (do space; Scan.word kw; f () : Scan α).Fails pre (g ++ s) := by
  rw [fails_iff]
  intro w post a hw hr
  obtain ⟨u, _, _, rfl, hu, hr⟩ := reads_bind.1 hr
  obtain ⟨v, w, _, rfl, hv, -⟩ := reads_bind.1 hr
  rw [space, reads_many] at hu
  rw [reads_word] at hv
  subst hv
  simp only [List.append_assoc] at hw
  obtain ⟨-, rfl⟩ := span_unique hw hg hu hs.not_isBlank (hkw.append _).not_isBlank
  exact h (List.prefix_append ..)

theorem readsFirst_exportList {q : Text} {o : Option Unit} (hp : pre.AtLineStart) (hm : AllIndent m)
    (hg : AllBlank g) (hl : InBraces l) (hq : ∀ pre, source.maybe.ReadsFirst pre q (e ++ post) o)
    (he : Stops ws e post) :
    exportList.ReadsFirst pre (m ++ ("export" ++ (g ++ (l ++ (q ++ e))))) post [] := by
  refine readsFirst_opening_unit hp hm solid_export ?_
  refine ReadsFirst.bind (readsFirst_space hg ((hl.solid.append _).append _)) ?_
  have htype : (do Scan.word "type"; space : Scan Unit).Fails (pre ++ (m ++ "export") ++ g)
      (l ++ (q ++ e) ++ post) := by
    obtain ⟨b, rfl, -⟩ := hl
    exact Fails.bind (fails_word (by simp))
  refine ReadsFirst.bind (u := []) (readsFirst_maybe_none htype) ?_
  refine ReadsFirst.bind (readsFirst_braces hl) ?_
  exact ReadsFirst.bind (hq _) he.readsFirst

theorem readsFirst_exportAll {q : Text} {o : Option Unit} (hp : pre.AtLineStart) (hm : AllIndent m)
    (hg₁ : AllBlank g₁) (hq : ∀ pre, (do space; asName : Scan Unit).maybe.ReadsFirst pre q
      ((g₂ ++ s) ++ e ++ post) o) (hg₂ : AllBlank g₂) (hs : IsOrigin s) (he : Stops ws e post) :
    exportAll.ReadsFirst pre (m ++ ("export" ++ (g₁ ++ ("*" ++ (q ++ ((g₂ ++ s) ++ e)))))) post [] := by
  refine readsFirst_opening_unit hp hm solid_export ?_
  refine ReadsFirst.bind (readsFirst_space hg₁ ⟨'*', _, rfl, rfl⟩) ?_
  refine ReadsFirst.bind readsFirst_word ?_
  refine ReadsFirst.bind (hq _) ?_
  exact ReadsFirst.bind (readsFirst_source hg₂ hs) he.readsFirst

/-! ### Reading an `import` of bindings

The name `type` needs care: it could be the keyword in front of the bindings. Then these would have to
be found in what follows, and that has no letters to spare before the quote. -/

/-- The characters of names and white space. -/
def isLoose (c : Char) : Bool := isName c || isBlank c

theorem isLoose_of_isName {c : Char} (h : isName c) : isLoose c := by simp [isLoose, h]

theorem isLoose_of_isBlank {c : Char} (h : isBlank c) : isLoose c := by simp [isLoose, h]

theorem IsOrigin.eq_loose (h : IsOrigin s) :
    ∃ (g : Text) (q : Char) (v : Text), s = (("from" : Text) ++ g) ++ q :: v ∧ AllBlank g ∧ (q = '"' ∨ q = '\'') := by
  obtain ⟨g, _, rfl, hg, q, b, q', rfl, hq, -⟩ := h
  exact ⟨g, q, b ++ [q'], by simp, hg, by simpa using hq⟩

theorem not_isLoose_of_quote {q : Char} (h : q = '"' ∨ q = '\'') : ¬ isLoose q := by
  rcases h with rfl | rfl <;> decide

/-- The optional name before other bindings. -/
def leadingName : Scan Unit := do
  anyName
  space
  .word ","
  space

theorem reads_leadingName {o : Unit} (h : leadingName.Reads pre b post o) :
    ∃ d g v, b = (d ++ g) ++ ',' :: v ∧ IsName d ∧ AllBlank g := by
  simp only [leadingName, anyName, space, reads_bind, reads_many1, reads_many, reads_word] at h
  obtain ⟨d, _, _, rfl, hd, g, _, _, rfl, hg, _, v, _, rfl, rfl, -⟩ := h
  exact ⟨d, g, v, by simp, hd, hg⟩

theorem loose_of_mem_append (hd : ∀ c ∈ d, isName c) (hg : AllBlank g) :
    ∀ c ∈ d ++ g, isLoose c := by
  intro c hc
  rcases List.mem_append.1 hc with hc | hc
  · exact isLoose_of_isName (hd c hc)
  · exact isLoose_of_isBlank (hg c hc)

theorem name_from : ∀ c ∈ ("from" : Text), isName c := by
  have h : ∀ c ∈ ("from" : Text), c.isAlphanum := by simp
  exact fun c hc => isName_of_isAlphanum (h c hc)

/-- Before the quote in `from 'NAME'` there is no comma. -/
theorem fails_leadingName (hd : ∀ c ∈ d, isName c) (hg : AllBlank g) (hs : IsOrigin s) :
    leadingName.Fails pre (d ++ (g ++ (s ++ t))) := by
  rw [fails_iff]
  intro w post o hw hr
  obtain ⟨d', g', v, rfl, hd', hg'⟩ := reads_leadingName hr
  obtain ⟨g'', q, b, rfl, hg'', hq⟩ := hs.eq_loose
  have hl : ∀ c ∈ d ++ g ++ (("from" : Text) ++ g''), isLoose c := by
    intro c hc
    rcases List.mem_append.1 hc with hc | hc
    · exact loose_of_mem_append hd hg c hc
    · exact loose_of_mem_append name_from hg'' c hc
  have := span_unique (r := q :: (b ++ t)) (s := ',' :: (v ++ post)) (by simpa using hw) hl
    (loose_of_mem_append hd'.2 hg') (by simpa using not_isLoose_of_quote hq) (by simpa using by decide)
  obtain ⟨rfl, -⟩ := List.cons.inj this.2
  exact absurd hq (by decide)

/-- The bindings themselves. -/
def bindings : Scan Unit := braces <|> (do Scan.word "*"; space; asName) <|> anyName

theorem fails_braces (h : ∀ c ∈ t.head?, c ≠ '\x7b') : braces.Fails pre t :=
  Fails.bind (fails_word fun ⟨v, hv⟩ => h '\x7b' (by simp [← hv]) rfl)

theorem fails_all (h : ∀ c ∈ t.head?, c ≠ '*') :
    (do Scan.word "*"; space; asName : Scan Unit).Fails pre t :=
  Fails.bind (fails_word fun ⟨v, hv⟩ => h '*' (by simp [← hv]) rfl)

theorem fails_leadingName_of_head (h : ∀ c ∈ t.head?, ¬ isName c) : leadingName.Fails pre t := by
  rw [fails_iff]
  rintro w post o rfl hr
  obtain ⟨d, g, v, rfl, hd, -⟩ := reads_leadingName hr
  obtain ⟨c, d, rfl⟩ := List.exists_cons_of_ne_nil hd.1
  exact h c (by simp) (hd.2 c (by simp))

theorem IsName.head_ne (hd : IsName d) {x : Char} (hx : isName x = false) :
    ∀ c ∈ (d ++ t).head?, c ≠ x := by
  obtain ⟨c, d, rfl⟩ := List.exists_cons_of_ne_nil hd.1
  rintro _ hc rfl
  obtain rfl : c = _ := by simpa using hc
  have := hd.2 c (by simp)
  rw [hx] at this
  exact absurd this (by simp)

theorem readsFirst_bindings_list (hl : InBraces l) : bindings.ReadsFirst pre l post () :=
  (readsFirst_braces hl).or_left

theorem readsFirst_bindings_all (hb : AllAs b) (ht : ∀ c ∈ post.head?, ¬ isName c) :
    bindings.ReadsFirst pre b post () := by
  refine ReadsFirst.or_right (fails_braces ?_) (readsFirst_all hb ht).or_left
  obtain ⟨g, g', d, rfl, -⟩ := hb
  simp

theorem readsFirst_bindings_name (hd : IsName d) (ht : ∀ c ∈ post.head?, ¬ isName c) :
    bindings.ReadsFirst pre d post () :=
  .or_right (fails_braces (hd.head_ne (by decide)))
    (.or_right (fails_all (hd.head_ne (by decide))) (readsFirst_anyName hd ht))

theorem readsFirst_leadingName (hd : IsName d) (hg₁ : AllBlank g₁) (hg₂ : AllBlank g₂) (ht : Solid post) :
    leadingName.ReadsFirst pre (d ++ (g₁ ++ ([','] ++ g₂))) post () := by
  have hcomma : Solid ([','] ++ g₂ ++ post) := ⟨',', _, rfl, rfl⟩
  have hnext : ∀ c ∈ (g₁ ++ ([','] ++ g₂) ++ post).head?, ¬ isName c := by
    rw [List.append_assoc]
    cases g₁ with
    | nil => simpa using by decide
    | cons c g₁ => simpa using not_isName_of_isBlank (hg₁ c (by simp))
  refine ReadsFirst.bind (readsFirst_anyName hd hnext) ?_
  refine ReadsFirst.bind (readsFirst_space hg₁ hcomma) ?_
  exact ReadsFirst.bind readsFirst_word (readsFirst_space hg₂ ht)

theorem BindsBefore.readsFirst {α : Type} {k : Scan α} {v : Text} {a : α} (hb : BindsBefore b g)
    (hs : IsOrigin s) (hk : k.ReadsFirst (pre ++ b) (g ++ (s ++ v)) post a) :
    (do let _ ← leadingName.maybe; bindings; k : Scan α).ReadsFirst pre (b ++ (g ++ (s ++ v))) post a := by
  have hnext (hg : Blanks g) : ∀ c ∈ (g ++ (s ++ v) ++ post).head?, ¬ isName c := by
    rw [List.append_assoc]
    exact hg.not_isName
  cases hb with
  | name hd hg =>
    refine ReadsFirst.bind (u := []) (readsFirst_maybe_none ?_) ?_
    · simpa using fails_leadingName hd.2 hg.2 hs
    · exact ReadsFirst.bind (readsFirst_bindings_name hd (hnext hg)) (by simpa using hk)
  | list hl =>
    refine ReadsFirst.bind (u := []) (readsFirst_maybe_none (fails_leadingName_of_head ?_)) ?_
    · obtain ⟨b, rfl, -⟩ := hl
      simpa using by decide
    · exact ReadsFirst.bind (readsFirst_bindings_list hl) (by simpa using hk)
  | all hb hg =>
    refine ReadsFirst.bind (u := []) (readsFirst_maybe_none (fails_leadingName_of_head ?_)) ?_
    · obtain ⟨g, g', d, rfl, -⟩ := hb
      simpa using by decide
    · exact ReadsFirst.bind (readsFirst_bindings_all hb (hnext hg)) (by simpa using hk)
  | @nameAndList d g₁ g₂ l _ hd hg₁ hg₂ hl =>
    have hname : leadingName.ReadsFirst pre (d ++ (g₁ ++ ([','] ++ g₂))) (l ++ (g ++ (s ++ v)) ++ post)
      () := readsFirst_leadingName hd hg₁ hg₂ ((hl.solid.append _).append _)
    have hrest : (do bindings; k : Scan α).ReadsFirst (pre ++ (d ++ (g₁ ++ ([','] ++ g₂))))
      (l ++ (g ++ (s ++ v))) post a := .bind (readsFirst_bindings_list hl) (by simpa using hk)
    simpa using hname.maybe_some.bind (f := fun _ => do bindings; k) hrest
  | @nameAndAll d g₁ g₂ b _ hd hg₁ hg₂ hb hg =>
    have hname : leadingName.ReadsFirst pre (d ++ (g₁ ++ ([','] ++ g₂))) (b ++ (g ++ (s ++ v)) ++ post)
      () := readsFirst_leadingName hd hg₁ hg₂ ((hb.solid.append _).append _)
    have hrest : (do bindings; k : Scan α).ReadsFirst (pre ++ (d ++ (g₁ ++ ([','] ++ g₂))))
      (b ++ (g ++ (s ++ v))) post a := .bind (readsFirst_bindings_all hb (hnext hg)) (by simpa using hk)
    simpa using hname.maybe_some.bind (f := fun _ => do bindings; k) hrest

/-- `k` goes on with the module that something comes from. -/
def NeedsSource {α : Type} (k : Scan α) : Prop := ∀ {pre w post : Text} {a : α}, k.Reads pre w post a →
  ∃ (g₁ g₂ : Text) (q : Char) (v : Text), w = g₁ ++ ((("from" : Text) ++ g₂) ++ q :: v) ∧ AllBlank g₁ ∧
    AllBlank g₂ ∧ (q = '"' ∨ q = '\'')

theorem reads_bindings {w : Text} {o : Unit} (h : bindings.Reads pre w post o) :
    IsName w ∨ ∃ c v, w = c :: v ∧ ¬ isLoose c := by
  simp only [bindings, reads_or, braces, anyName, reads_many1, reads_bind, reads_word] at h
  rcases h with ⟨_, v, _, rfl, rfl, -⟩ | ⟨_, v, _, rfl, rfl, -⟩ | h
  · exact .inr ⟨'\x7b', v, rfl, by decide⟩
  · exact .inr ⟨'*', v, rfl, by decide⟩
  · exact .inl h

theorem filter_of_allBlank (hg : AllBlank g) : g.filter (fun c => !isBlank c) = [] := by
  rw [List.filter_eq_nil_iff]
  intro c hc
  simpa using hg c hc

theorem filter_of_isName (hd : ∀ c ∈ d, isName c) : d.filter (fun c => !isBlank c) = d := by
  rw [List.filter_eq_self]
  intro c hc
  by_contra hb
  have := hd c hc
  rw [not_isName_of_isBlank (by simpa using hb)] at this
  exact absurd this (by simp)

/-- Between white space and a quote, `from` is either the word itself or a name that is bound. -/
theorem fails_bindings {α : Type} {k : Scan α} (hg : AllBlank g) (hs : IsOrigin s) (hk : NeedsSource k) :
    (do let _ ← leadingName.maybe; bindings; k : Scan α).Fails pre (g ++ (s ++ t)) := by
  rw [fails_iff]
  intro w post a hw hr
  obtain ⟨u, _, _, rfl, hu, hr⟩ := reads_bind.1 hr
  obtain ⟨b, x, _, rfl, hb, hx⟩ := reads_bind.1 hr
  rcases reads_maybe.1 hu with ⟨_, hn, -⟩ | ⟨rfl, -⟩
  · have hfail : leadingName.Fails pre ([] ++ (g ++ (s ++ t))) := fails_leadingName (by simp) hg hs
    exact fails_iff.1 hfail u (b ++ (x ++ post)) _ (by simpa using hw) (by simpa using hn)
  obtain ⟨g', q, v, rfl, hg', hq⟩ := hs.eq_loose
  have hl : ∀ c ∈ g ++ (("from" : Text) ++ g'), isLoose c := by
    intro c hc
    rcases List.mem_append.1 hc with hc | hc
    · exact isLoose_of_isBlank (hg c hc)
    · exact loose_of_mem_append name_from hg' c hc
  obtain ⟨g₁, g₂, q', v', rfl, hg₁, hg₂, hq'⟩ := hk hx
  rcases reads_bindings hb with hb | ⟨c, b, rfl, hc⟩
  · have hl' : ∀ c ∈ (b ++ g₁) ++ (("from" : Text) ++ g₂), isLoose c := by
      intro c hc
      rcases List.mem_append.1 hc with hc | hc
      · exact loose_of_mem_append hb.2 hg₁ c hc
      · exact loose_of_mem_append name_from hg₂ c hc
    have heq := (span_unique (r := q :: (v ++ t)) (s := q' :: (v' ++ post)) (by simpa using hw) hl hl'
      (by simpa using not_isLoose_of_quote hq) (by simpa using not_isLoose_of_quote hq')).1
    -- Up to the quote there is `from` in the one reading and a name and `from` in the other: they differ in length.
    have hlen := congrArg (fun w => (w.filter fun c => !isBlank c).length) heq
    simp only [List.filter_append, filter_of_allBlank hg, filter_of_allBlank hg',
      filter_of_allBlank hg₁, filter_of_allBlank hg₂, filter_of_isName hb.2, filter_of_isName name_from,
      List.length_append, List.length_nil] at hlen
    have := List.length_pos_of_ne_nil hb.1
    omega
  · -- a list or a star would have to stand where `from` or the white space before it does
    obtain ⟨x, y, hxy⟩ := List.exists_cons_of_ne_nil
      (show g ++ (("from" : Text) ++ g') ≠ [] by simp)
    rw [hxy] at hl
    have hhead : x = c := by
      have := congrArg List.head? hw
      rw [show g ++ (("from" : Text) ++ g' ++ q :: v ++ t) = x :: (y ++ q :: (v ++ t)) by
        rw [← List.cons_append, ← hxy]; simp] at this
      simpa using this
    exact hc (hhead ▸ hl x (by simp))

theorem name_type : ∀ c ∈ ("type" : Text), isName c := by
  have h : ∀ c ∈ ("type" : Text), c.isAlphanum := by simp
  exact fun c hc => isName_of_isAlphanum (h c hc)

/-- White space that a text starts with ends within the white space in front of its first character. -/
theorem blank_of_append {u w : Text} (h : g ++ s = u ++ w) (hs : Solid s) (hu : AllBlank u) :
    ∃ g', g = u ++ g' ∧ w = g' ++ s := by
  rcases List.append_eq_append_iff.1 h with ⟨x, rfl, rfl⟩ | ⟨x, rfl, rfl⟩
  · cases x with
    | nil => exact ⟨[], by simp⟩
    | cons c x =>
      have := hs.not_isBlank c (by simp)
      exact absurd (hu c (by simp)) this
  · exact ⟨x, rfl, rfl⟩

theorem fails_bindings_comma {α : Type} {k : Scan α} (hg : AllBlank g) :
    (do let _ ← leadingName.maybe; bindings; k : Scan α).Fails pre (g ++ ',' :: t) := by
  have hhead : ∀ c ∈ (g ++ ',' :: t).head?, ¬ isName c ∧ c ≠ '\x7b' ∧ c ≠ '*' := by
    cases g with
    | nil => simpa using by decide
    | cons c g =>
      have hc : isBlank c = true := hg c (by simp)
      have hne {x : Char} (hx : isBlank x = false) : c ≠ x := by
        rintro rfl
        simp [hc] at hx
      simpa using ⟨not_isName_of_isBlank hc, hne (x := '\x7b') (by decide), hne (x := '*') (by decide)⟩
  rw [fails_iff]
  intro w post a hw hr
  obtain ⟨u, _, _, rfl, hu, hr⟩ := reads_bind.1 hr
  obtain ⟨b, y, _, rfl, hb, -⟩ := reads_bind.1 hr
  rcases reads_maybe.1 hu with ⟨_, hn, -⟩ | ⟨rfl, -⟩
  · exact fails_iff.1 (fails_leadingName_of_head fun c hc => (hhead c hc).1) u (b ++ (y ++ post)) _ (by simpa using hw) (by simpa using hn)
  · have hall : g ++ ',' :: t = b ++ (y ++ post) := by simpa using hw
    rw [hall] at hhead
    simp only [bindings, reads_or, anyName, reads_many1] at hb
    rcases hb with hb | hb | ⟨hne, hb⟩
    · exact fails_iff.1 (fails_braces fun c hc => (hhead c hc).2.1) b (y ++ post) _ rfl hb
    · exact fails_iff.1 (fails_all fun c hc => (hhead c hc).2.2) b (y ++ post) _ rfl hb
    · obtain ⟨c, b, rfl⟩ := List.exists_cons_of_ne_nil hne
      exact (hhead c (by simp)).1 (hb c (by simp))

theorem BindsBefore.readsFirst_typed {α : Type} {k : Scan α} {v : Text} {a : α} (hb : BindsBefore b g)
    (hs : IsOrigin s) (hn : NeedsSource k) (hk : k.ReadsFirst (pre ++ b) (g ++ (s ++ v)) post a) :
    (do let _ ← Scan.maybe (do Scan.word "type"; space1); let _ ← leadingName.maybe; bindings; k : Scan α)
      |>.ReadsFirst pre (b ++ (g ++ (s ++ v))) post a := by
  refine ReadsFirst.maybe_bind_none ?_ (hb.readsFirst hs hk)
  intro u w _ hw hu
  obtain ⟨_, x, _, rfl, hty, hx⟩ := reads_bind.1 hu
  rw [reads_word] at hty
  subst hty
  rw [space1, reads_many1] at hx
  have hnext : ∀ c ∈ (x ++ w).head?, ¬ isName c := Blanks.not_isName hx
  -- behind a name `type` and a part of the white space a comma would have to be bound
  have hcomma {d g₁ y : Text} (hd : IsName d) (hg₁ : AllBlank g₁)
      (hw : d ++ (g₁ ++ ',' :: y) = "type" ++ (x ++ w)) :
      (do let _ ← leadingName.maybe; bindings; k : Scan α).Fails (pre ++ ("type" ++ x)) w := by
    have hnext' : ∀ c ∈ (g₁ ++ ',' :: y).head?, ¬ isName c := by
      cases g₁ with
      | nil => simpa using by decide
      | cons c g₁ => simpa using not_isName_of_isBlank (hg₁ c (by simp))
    have hrest := (span_unique hw hd.2 name_type hnext' hnext).2
    obtain ⟨g', rfl, rfl⟩ := blank_of_append hrest ⟨',', y, rfl, rfl⟩ hx.2
    exact fails_bindings_comma fun c hc => hg₁ c (by simp [hc])
  cases hb with
  | name hd hg =>
    have hrest : g ++ (s ++ (v ++ post)) = x ++ w := by
      refine (span_unique (by simpa using hw) hd.2 name_type ?_ hnext).2
      exact hg.not_isName
    obtain ⟨g', rfl, rfl⟩ := blank_of_append hrest (hs.solid.append _) hx.2
    exact fails_bindings (fun c hc => hg.2 c (by simp [hc])) hs hn
  | list hl =>
    obtain ⟨b, rfl, -⟩ := hl
    simp at hw
  | all hb =>
    obtain ⟨g, g', d, rfl, -⟩ := hb
    simp at hw
  | nameAndList hd hg₁ => exact hcomma hd hg₁ (by simpa using hw)
  | nameAndAll hd hg₁ => exact hcomma hd hg₁ (by simpa using hw)

theorem readsFirst_importFrom {x : Text} (hp : pre.AtLineStart) (hm : AllIndent m) (hg₁ : AllBlank g₁)
    (hstart : g₁ = [] → b.head? = some '\x7b' ∨ b.head? = some '*') (hb : BindsBefore b g₂) (hs : IsOrigin s)
    (hx : IsAttributes x) (he : Stops clauses e post) :
    importFrom.ReadsFirst pre (m ++ ("import" ++ (g₁ ++ (b ++ (g₂ ++ (s ++ (x ++ e))))))) post [] := by
  refine readsFirst_opening_unit hp hm solid_import ?_
  have hhead : ∀ c ∈ (g₁ ++ (b ++ (g₂ ++ (s ++ (x ++ e)))) ++ post).head?, isWord c = false := by
    cases g₁ with
    | nil =>
      obtain ⟨c, b, rfl, -⟩ := hb.solid
      have hc : c = '\x7b' ∨ c = '*' := by simpa using hstart rfl
      rcases hc with rfl | rfl <;> simpa using by decide
    | cons c g₁ => simpa using not_isWord_of_isBlank (hg₁ c (by simp))
  have hedge : (pre ++ (m ++ "import")).getLast?.any isWord ≠
      (g₁ ++ (b ++ (g₂ ++ (s ++ (x ++ e)))) ++ post).head?.any isWord := by
    have hnone : (g₁ ++ (b ++ (g₂ ++ (s ++ (x ++ e)))) ++ post).head?.any isWord = false := by
      rw [Option.any_eq_false]
      exact fun c hc => by simpa using hhead c hc
    rw [← List.append_assoc, List.getLast?_append_of_ne_nil _ (by simp), hnone]
    decide
  refine ReadsFirst.bind (u := []) (readsFirst_wordEdge hedge) ?_
  refine ReadsFirst.bind (readsFirst_space hg₁ ((hb.solid.append _).append _)) ?_
  refine BindsBefore.readsFirst_typed hb hs ?_ ?_
  · intro pre w post a h
    simp only [reads_bind, space, reads_many, reads_word, specifier, reads_char] at h
    obtain ⟨x, _, _, rfl, hx, _, _, _, rfl, rfl, y, _, _, rfl, hy, _, z, _, rfl,
      ⟨_, _, q, rfl, ⟨rfl, hq⟩, u, v, -, rfl, -⟩, -⟩ := h
    exact ⟨x, y, q, u ++ (v ++ z), by simp, hx, hy, by simpa using hq⟩
  · obtain ⟨g, s, rfl, hg, hs⟩ := hs
    rw [show ("from" : Text) ++ (g ++ s) ++ (x ++ e) = ("from" : Text) ++ (g ++ (s ++ (x ++ e))) by simp]
    refine ReadsFirst.bind (readsFirst_space hb.allBlank ((solid_from.append _).append _)) ?_
    refine ReadsFirst.bind readsFirst_word ?_
    refine ReadsFirst.bind (readsFirst_space hg ((hs.solid.append _).append _)) ?_
    refine ReadsFirst.bind (readsFirst_specifier hs) ?_
    rcases hx with rfl | hx
    · exact ReadsFirst.bind (u := []) (readsFirst_maybe_none (by simpa using he.inert.fails_attributes)) he.readsFirst
    · exact ReadsFirst.bind (readsFirst_attributes hx).maybe_some he.readsFirst

/-! ### Reading the words in front of a declaration -/

theorem readsFirst_exportDefault (hp : pre.AtLineStart) (hm : AllIndent m) (hg₁ : Blanks g₁) (hg₂ : Blanks g₂)
    (ht : Solid post) :
    exportDefault.ReadsFirst pre
      (m ++ (("export" : Text) ++ (g₁ ++ (("default" : Text) ++ (g₂ ++ []))))) post m := by
  refine readsFirst_opening hp hm solid_export ?_
  refine ReadsFirst.bind (readsFirst_space1 hg₁ ⟨'d', _, rfl, rfl⟩) ?_
  refine ReadsFirst.bind readsFirst_word ?_
  exact ReadsFirst.bind (readsFirst_space1 hg₂ ht) readsFirst_pure

theorem readsFirst_exportModifier {kw : Text} (hp : pre.AtLineStart) (hm : AllIndent m) (hg : Blanks g)
    (hkw : kw ∈ declarationWords) (ht : ∀ c ∈ post.head?, ¬ isWord c) :
    exportModifier.ReadsFirst pre (m ++ ("export" ++ (g ++ kw))) post (m ++ kw) := by
  have hw := isWord_of_mem_declarationWords hkw
  have hne := ne_nil_of_mem_declarationWords hkw
  refine readsFirst_opening hp hm solid_export ?_
  refine ReadsFirst.bind (readsFirst_space1 hg ((solid_of_isWord hne hw).append _)) ?_
  have hlast (pre : Text) : (pre ++ kw).getLast?.any isWord = true := by
    rw [List.getLast?_append_of_ne_nil _ hne, List.getLast?_eq_some_getLast hne, Option.any_some]
    exact hw _ (List.getLast_mem hne)
  have hnext : post.head?.any isWord = false := by
    rw [Option.any_eq_false]
    exact fun c hc => by simpa using ht c hc
  refine ReadsFirst.of_unique ?_ ?_
  · simp only [reads_bind, reads_oneOf, reads_wordEdge, reads_pure]
    refine ⟨kw, [], kw, by simp, ⟨hkw, rfl⟩, [], [], (), rfl, ⟨rfl, ?_⟩, rfl, by simp⟩
    rw [hlast, List.nil_append, hnext]
    decide
  · intro w' post' a' ht' h
    simp only [reads_bind, reads_oneOf, reads_wordEdge, reads_pure] at h
    obtain ⟨_, _, kw', rfl, ⟨hkw', rfl⟩, _, _, _, rfl, ⟨rfl, he⟩, rfl, rfl⟩ := h
    have hw' := isWord_of_mem_declarationWords hkw'
    have hne' := ne_nil_of_mem_declarationWords hkw'
    have hnext' : ∀ c ∈ post'.head?, ¬ isWord c := by
      rw [List.getLast?_append_of_ne_nil _ hne', List.getLast?_eq_some_getLast hne', Option.any_some,
        hw' _ (List.getLast_mem hne'), List.nil_append] at he
      exact fun c hc hcw => he (by simp [Option.mem_def.1 hc, hcw])
    obtain ⟨rfl, -⟩ := span_unique (by simpa using ht') hw hw' ht hnext'
    simp

end AppsScript.ModuleSyntax
