import AppsScript.Proofs.Editing
import AppsScript.Proofs.Texts
import AppsScript.Script.ModuleSyntax

/-!
# The grammar of module statements

What the six forms of `ModuleSyntax` read, as far as the theorems about `remove` need it. Every form
begins at a statement start, maybe after an indent, with `import` or `export` (`Opens`), and what it puts
in place of what it read is shorter (`shortens_of_mem_forms`). So a round that changes nothing has
found nothing (`fails_of_replace_eq`), and as many rounds as there are characters get there
(`replace_exhaust`).
-/

namespace AppsScript.ModuleSyntax

open Source Scan Text

variable {α : Type} {m : Scan α} {f : α → Scan Text} {form : Scan Text} {pre w post t r sep : Text}

/-- The separator with which a statement behind `pre` can begin: none on a new line, or else a `;`. -/
def Separates (pre sep : Text) : Prop := sep = [] ∧ pre.AtLineStart ∨ sep = [';']

theorem reads_statementStart :
    statementStart.Reads pre w post sep ↔ w = sep ∧ Separates pre sep := by
  rw [statementStart, reads_or, reads_text, reads_bind]
  simp only [reads_lineStart, reads_pure, reads_word, Separates]
  constructor
  · rintro (⟨u, v, o, rfl, ⟨rfl, h⟩, rfl, rfl⟩ | ⟨rfl, o, rfl⟩)
    · exact ⟨rfl, .inl ⟨rfl, h⟩⟩
    · exact ⟨rfl, .inr rfl⟩
  · rintro ⟨rfl, ⟨rfl, h⟩ | rfl⟩
    · exact .inl ⟨[], [], (), rfl, ⟨rfl, h⟩, rfl, rfl⟩
    · exact .inr ⟨rfl, (), rfl⟩

/-- Between `pre` and `post` a statement may begin with `kw`: `w` is a separator, an indent, the word
`kw` and then `v`. -/
structure Opens (kw pre w sep margin v : Text) : Prop where
  eq : w = sep ++ margin ++ kw ++ v
  separates : Separates pre sep
  margin : AllIndent margin

theorem reads_opening {kw : Text} {f : Text → Text → Scan Text} :
    (do let sep ← statementStart; let margin ← indent.text; Scan.word kw; f sep margin : Scan Text).Reads
      pre w post r ↔
    ∃ sep margin v, Opens kw pre w sep margin v ∧
      (f sep margin).Reads (pre ++ (sep ++ margin ++ kw)) v post r := by
  simp only [reads_bind, reads_statementStart, reads_text, reads_indent, reads_word]
  constructor
  · rintro ⟨sep, _, _, rfl, ⟨rfl, hs⟩, _, _, margin, rfl, ⟨rfl, _, hm⟩, _, v, _, rfl, rfl, hf⟩
    exact ⟨sep, margin, v, ⟨by simp, hs, hm⟩, by simpa using hf⟩
  · rintro ⟨sep, margin, v, ⟨rfl, hs, hm⟩, hf⟩
    exact ⟨sep, margin ++ kw ++ v, sep, by simp, ⟨rfl, hs⟩, margin, kw ++ v, margin, by simp,
      ⟨rfl, (), hm⟩, kw, v, (), rfl, rfl, by simpa using hf⟩

theorem reads_opening_unit {kw : Text} {f : Text → Scan Text} :
    (do let sep ← statementStart; indent; Scan.word kw; f sep : Scan Text).Reads pre w post r ↔
    ∃ sep margin v, Opens kw pre w sep margin v ∧
      (f sep).Reads (pre ++ (sep ++ margin ++ kw)) v post r := by
  have h (sep : Text) : (do let _ ← indent.text; Scan.word kw; f sep : Scan Text) =
      (do indent; Scan.word kw; f sep) := Scan.text_bind
  rw [← reads_opening (f := fun sep _ => f sep)]
  simp only [h]

theorem reads_statementEnd {nl : Text} (h : statementEnd.Reads pre w post nl) : nl <:+ w := by
  simp only [statementEnd, reads_bind, reads_maybe, reads_text, reads_pure] at h
  obtain ⟨u₁, _, _, rfl, -, u₂, _, _, rfl, -, u₃, _, _, rfl, -, u₄, _, o, rfl, ho, rfl, rfl⟩ := h
  rcases ho with ⟨_, ⟨rfl, -⟩, rfl⟩ | ⟨rfl, rfl⟩
  · exact ⟨u₁ ++ (u₂ ++ u₃), by simp⟩
  · exact List.nil_suffix

/-! ### Statements that are removed whole -/

/-- What is put in place of a statement behind `sep` is what remains of it. -/
structure Remains (sep : Text) (m : Scan Text) : Prop where
  puts : ∀ {pre w post r}, m.Reads pre w post r → ∃ nl, nl <:+ w ∧ r = remainder sep nl

theorem Remains.bind (hf : ∀ a, Remains sep (f a)) : Remains sep (m >>= f) := by
  refine ⟨fun {pre w post r} h => ?_⟩
  obtain ⟨u, v, a, rfl, -, hv⟩ := reads_bind.1 h
  obtain ⟨nl, hnl, rfl⟩ := (hf a).puts hv
  exact ⟨nl, hnl.trans (List.suffix_append ..), rfl⟩

theorem remains_statementEnd (sep : Text) :
    Remains sep (statementEnd >>= fun newline => pure (remainder sep newline)) := by
  refine ⟨fun {pre w post r} h => ?_⟩
  obtain ⟨u, _, nl, rfl, hu, hv⟩ := reads_bind.1 h
  obtain ⟨rfl, rfl⟩ := reads_pure.1 hv
  exact ⟨nl, by simpa using reads_statementEnd hu, rfl⟩

/-- A form of statements that begin with `kw`, and of which no more than the line break remains. -/
structure RemovesWhole (kw : Text) (form : Scan Text) : Prop where
  puts : ∀ {pre w post r}, form.Reads pre w post r →
    ∃ sep margin v nl, Opens kw pre w sep margin v ∧ nl <:+ v ∧ r = remainder sep nl

theorem removesWhole_of_remains {kw : Text} {f : Text → Scan Text} (hf : ∀ sep, Remains sep (f sep)) :
    RemovesWhole kw (do let sep ← statementStart; indent; Scan.word kw; f sep : Scan Text) := by
  refine ⟨fun {pre w post r} h => ?_⟩
  obtain ⟨sep, margin, v, hop, h⟩ := reads_opening_unit.1 h
  obtain ⟨nl, hnl, rfl⟩ := (hf sep).puts h
  exact ⟨sep, margin, v, nl, hop, hnl, rfl⟩

theorem removesWhole_importFrom : RemovesWhole "import" importFrom :=
  removesWhole_of_remains fun sep => .bind fun _ => .bind fun _ => .bind fun _ => .bind fun _ => .bind fun _ =>
    .bind fun _ => .bind fun _ => .bind fun _ => .bind fun _ => .bind fun _ => remains_statementEnd sep

theorem removesWhole_importOnly : RemovesWhole "import" importOnly :=
  removesWhole_of_remains fun sep => .bind fun _ => .bind fun _ => remains_statementEnd sep

theorem removesWhole_exportList : RemovesWhole "export" exportList :=
  removesWhole_of_remains fun sep => .bind fun _ => .bind fun _ => .bind fun _ => .bind fun _ =>
    remains_statementEnd sep

theorem removesWhole_exportAll : RemovesWhole "export" exportAll :=
  removesWhole_of_remains fun sep => .bind fun _ => .bind fun _ => .bind fun _ => .bind fun _ =>
    remains_statementEnd sep

theorem remainder_length_le (sep nl : Text) : (remainder sep nl).length ≤ sep.length + nl.length := by
  rw [remainder]
  split <;> simp

theorem RemovesWhole.shortens {kw : Text} (hform : RemovesWhole kw form) (hkw : kw ≠ []) : form.Shortens := by
  intro pre w post r h
  obtain ⟨sep, margin, v, nl, hop, hnl, rfl⟩ := hform.puts h
  have hle := remainder_length_le sep nl
  have hsuffix := hnl.length_le
  have hpos := List.length_pos_of_ne_nil hkw
  rw [hop.eq]
  simp only [List.length_append]
  omega

/-! ### What the keyword of a form goes on with -/

/-- What an `import` of bindings goes on with. -/
def NamesBindings (v : Text) : Prop :=
  ∃ s u c, v = s ++ u ∧ AllBlank s ∧ u.head? = some c ∧ (isName c ∨ c = '*' ∨ c = '\x7b')

theorem reads_importFrom (h : importFrom.Reads pre w post r) :
    ∃ sep margin v, Opens "import" pre w sep margin v ∧ NamesBindings v := by
  obtain ⟨sep, margin, _, hop, h⟩ := reads_opening_unit.1 h
  refine ⟨sep, margin, _, hop, ?_⟩
  obtain ⟨_, _, _, rfl, hedge, h⟩ := reads_bind.1 h
  obtain ⟨rfl, -⟩ := reads_wordEdge.1 hedge
  obtain ⟨s, _, rfl, hs, h⟩ := reads_many_bind.1 h
  obtain ⟨ty, _, _, rfl, hty, h⟩ := reads_bind.1 h
  obtain ⟨nm, _, _, rfl, hnm, h⟩ := reads_bind.1 h
  obtain ⟨b, _, _, rfl, hb, -⟩ := reads_bind.1 h
  simp only [reads_maybe, ↓reads_word_bind, anyName, reads_bind, reads_many1, reads_or, braces, reads_word] at hty hnm hb
  rcases hty with ⟨_, ⟨g, rfl, -⟩, rfl⟩ | ⟨rfl, rfl⟩
  · exact ⟨s, _, 't', rfl, hs, by simp, .inl (by decide)⟩
  rcases hnm with ⟨_, ⟨d, _, _, rfl, ⟨hne, hd⟩, -⟩, rfl⟩ | ⟨rfl, rfl⟩
  · obtain ⟨c, d, rfl⟩ := List.exists_cons_of_ne_nil hne
    exact ⟨s, _, c, rfl, hs, by simp, .inl (hd c (by simp))⟩
  rcases hb with ⟨_, rfl, -⟩ | ⟨_, rfl, -⟩ | ⟨hne, hd⟩
  · exact ⟨s, _, '\x7b', rfl, hs, by simp, by simp⟩
  · exact ⟨s, _, '*', rfl, hs, by simp, by simp⟩
  · obtain ⟨c, d, rfl⟩ := List.exists_cons_of_ne_nil hne
    exact ⟨s, _, c, rfl, hs, by simp, .inl (hd c (by simp))⟩

/-- What an `import` of a module alone goes on with. -/
def NamesModule (v : Text) : Prop :=
  ∃ s u c, v = s ++ u ∧ AllBlank s ∧ u.head? = some c ∧ (c = '"' ∨ c = '\'')

theorem reads_importOnly (h : importOnly.Reads pre w post r) :
    ∃ sep margin v, Opens "import" pre w sep margin v ∧ NamesModule v := by
  obtain ⟨sep, margin, _, hop, h⟩ := reads_opening_unit.1 h
  obtain ⟨s, _, rfl, hs, h⟩ := reads_many_bind.1 h
  obtain ⟨_, _, _, rfl, hmodule, -⟩ := reads_bind.1 h
  obtain ⟨_, _, c, rfl, hc, -⟩ := reads_bind.1 hmodule
  obtain ⟨rfl, hc⟩ := reads_char.1 hc
  exact ⟨sep, margin, _, hop, s, _, c, rfl, hs, by simp, by simpa using hc⟩

/-- What an `export` of a list goes on with. -/
def NamesList (v : Text) : Prop :=
  ∃ s u, v = s ++ u ∧ AllBlank s ∧
    (u.head? = some '\x7b' ∨ ∃ s', AllBlank s' ∧ ("type" : Text) ++ s' ++ ['\x7b'] <+: u)

theorem reads_exportList (h : exportList.Reads pre w post r) :
    ∃ sep margin v, Opens "export" pre w sep margin v ∧ NamesList v := by
  obtain ⟨sep, margin, _, hop, h⟩ := reads_opening_unit.1 h
  obtain ⟨s, _, rfl, hs, h⟩ := reads_many_bind.1 h
  refine ⟨sep, margin, _, hop, s, _, rfl, hs, ?_⟩
  obtain ⟨ty, _, _, rfl, hty, h⟩ := reads_bind.1 h
  obtain ⟨_, rest, _, rfl, hb, -⟩ := reads_bind.1 h
  obtain ⟨b, rfl, -⟩ := reads_word_bind.1 hb
  simp only [reads_maybe, reads_word_bind, space, reads_many] at hty
  rcases hty with ⟨_, ⟨s', rfl, hs'⟩, rfl⟩ | ⟨rfl, rfl⟩
  · exact .inr ⟨s', hs', b ++ rest, by simp⟩
  · exact .inl (by simp)

/-- What an `export` of everything goes on with. -/
def NamesAll (v : Text) : Prop := ∃ s u, v = s ++ u ∧ AllBlank s ∧ u.head? = some '*'

theorem reads_exportAll (h : exportAll.Reads pre w post r) :
    ∃ sep margin v, Opens "export" pre w sep margin v ∧ NamesAll v := by
  obtain ⟨sep, margin, _, hop, h⟩ := reads_opening_unit.1 h
  obtain ⟨s, _, rfl, hs, h⟩ := reads_many_bind.1 h
  obtain ⟨_, rfl, -⟩ := reads_word_bind.1 h
  exact ⟨sep, margin, _, hop, s, _, rfl, hs, by simp⟩

/-- A word behind at least one character of white space. -/
def NamesWord (kw v : Text) : Prop := ∃ s, s ≠ [] ∧ AllBlank s ∧ v = s ++ kw

theorem reads_exportDefault : exportDefault.Reads pre w post r ↔
    ∃ sep margin v s, Opens "export" pre w sep margin (v ++ s) ∧ NamesWord "default" v ∧
      s ≠ [] ∧ AllBlank s ∧ r = sep ++ margin := by
  rw [exportDefault, reads_opening]
  simp only [reads_bind, space1, reads_many1, reads_word, reads_pure, NamesWord]
  constructor
  · rintro ⟨sep, margin, v, hop, s, _, _, rfl, ⟨hs, hb⟩, _, _, _, rfl, rfl, s', _, _, rfl, ⟨hs', hb'⟩,
      rfl, rfl⟩
    exact ⟨sep, margin, _, s', by simpa using hop, ⟨s, hs, hb, rfl⟩, hs', hb', rfl⟩
  · rintro ⟨sep, margin, _, s', hop, ⟨s, hs, hb, rfl⟩, hs', hb', rfl⟩
    exact ⟨sep, margin, _, hop, s, "default" ++ s', (), by simp, ⟨hs, hb⟩, _, s', (), rfl, rfl, s', [],
      (), by simp, ⟨hs', hb'⟩, rfl, rfl⟩

/-- The words that a declaration can start with. -/
def declarationWords : List Text :=
  ["async", "function", "class", "const", "let", "var", "interface", "type", "enum", "abstract",
    "declare", "namespace"]

theorem modifiers_eq : modifiers = declarationWords := rfl

theorem ne_nil_of_mem_declarationWords : ∀ {kw : Text}, kw ∈ declarationWords → kw ≠ [] := by decide

theorem isWord_of_mem_declarationWords {kw : Text} (h : kw ∈ declarationWords) : ∀ c ∈ kw, isWord c := by
  have hall : ∀ kw ∈ declarationWords, ∀ c ∈ kw, c.isAlphanum := by simp [declarationWords]
  exact fun c hc => isWord_of_isAlphanum (hall kw h c hc)

theorem reads_exportModifier : exportModifier.Reads pre w post r ↔
    ∃ sep margin v kw, Opens "export" pre w sep margin v ∧ kw ∈ declarationWords ∧ NamesWord kw v ∧
      (kw.getLast?.any isWord ≠ post.head?.any isWord) ∧ r = sep ++ margin ++ kw := by
  rw [exportModifier, modifiers_eq, reads_opening]
  simp only [reads_bind, space1, reads_many1, reads_oneOf, reads_wordEdge, reads_pure, NamesWord]
  constructor
  · rintro ⟨sep, margin, v, hop, s, _, _, rfl, ⟨hs, hb⟩, kw, _, _, rfl, ⟨hkw, rfl⟩, _, _, _, rfl,
      ⟨rfl, he⟩, rfl, rfl⟩
    have hne := ne_nil_of_mem_declarationWords hkw
    rw [List.getLast?_append_of_ne_nil _ hne] at he
    exact ⟨sep, margin, _, kw, by simpa using hop, hkw, ⟨s, hs, hb, rfl⟩, by simpa using he, rfl⟩
  · rintro ⟨sep, margin, _, kw, hop, hkw, ⟨s, hs, hb, rfl⟩, he, rfl⟩
    have hne := ne_nil_of_mem_declarationWords hkw
    refine ⟨sep, margin, _, hop, s, kw, (), rfl, ⟨hs, hb⟩, kw, [], kw, by simp, ⟨hkw, rfl⟩, [], [], (),
      rfl, ⟨rfl, ?_⟩, rfl, rfl⟩
    rw [List.getLast?_append_of_ne_nil _ hne]
    exact he

/-! ### All forms -/

theorem opens_of_mem_forms (hf : form ∈ forms) (h : form.Reads pre w post r) :
    ∃ kw sep margin v, kw ∈ (["import", "export"] : List Text) ∧ Opens kw pre w sep margin v := by
  have hwhole {kw : Text} (hkw : kw ∈ (["import", "export"] : List Text)) (hform : RemovesWhole kw form) :
      ∃ kw sep margin v, kw ∈ (["import", "export"] : List Text) ∧ Opens kw pre w sep margin v := by
    obtain ⟨sep, margin, v, -, hop, -⟩ := hform.puts h
    exact ⟨kw, sep, margin, v, hkw, hop⟩
  simp only [forms, List.mem_cons, List.not_mem_nil, or_false] at hf
  rcases hf with rfl | rfl | rfl | rfl | rfl | rfl
  · exact hwhole (by simp) removesWhole_importFrom
  · exact hwhole (by simp) removesWhole_importOnly
  · exact hwhole (by simp) removesWhole_exportList
  · exact hwhole (by simp) removesWhole_exportAll
  · obtain ⟨sep, margin, v, s, hop, -⟩ := reads_exportDefault.1 h
    exact ⟨_, sep, margin, _, by simp, hop⟩
  · obtain ⟨sep, margin, v, kw, hop, -⟩ := reads_exportModifier.1 h
    exact ⟨_, sep, margin, v, by simp, hop⟩

theorem shortens_exportDefault : exportDefault.Shortens := by
  intro pre w post r h
  obtain ⟨sep, margin, v, s, hop, -, -, -, rfl⟩ := reads_exportDefault.1 h
  rw [hop.eq]
  simp

theorem shortens_exportModifier : exportModifier.Shortens := by
  intro pre w post r h
  obtain ⟨sep, margin, v, kw, hop, -, ⟨s, -, -, rfl⟩, -, rfl⟩ := reads_exportModifier.1 h
  rw [hop.eq]
  simp
  omega

theorem shortens_of_mem_forms (hf : form ∈ forms) : form.Shortens := by
  simp only [forms, List.mem_cons, List.not_mem_nil, or_false] at hf
  rcases hf with rfl | rfl | rfl | rfl | rfl | rfl
  exacts [removesWhole_importFrom.shortens (by simp), removesWhole_importOnly.shortens (by simp),
    removesWhole_exportList.shortens (by simp), removesWhole_exportAll.shortens (by simp), shortens_exportDefault,
    shortens_exportModifier]

theorem replace_exhaust (hf : form.Shortens) {rounds : Nat} (h : t.length ≤ rounds) :
    form.replace (exhaust form rounds t) = exhaust form rounds t := by
  induction rounds generalizing t with
  | zero =>
    obtain rfl := List.eq_nil_of_length_eq_zero (Nat.le_zero.1 h)
    rfl
  | succ rounds ih =>
    rw [exhaust]
    split_ifs with heq
    · exact heq
    · exact ih (by have := hf.replace_length heq; omega)

/-- Behind the removal of a form there is no statement of it. -/
theorem fails_of_removeForm (hf : form ∈ forms) (u v : Text) (huv : removeForm t form = u ++ v) :
    form.Fails u v :=
  (shortens_of_mem_forms hf).fails_of_replace_eq
    (replace_exhaust (shortens_of_mem_forms hf) (Nat.le_refl _)) u v huv

theorem removeForm_eq {t' : Text} (ht : form.replace t = t') (ht' : form.replace t' = t') :
    removeForm t form = t' := by
  rw [removeForm]
  cases h : t.length with
  | zero =>
    obtain rfl := List.eq_nil_of_length_eq_zero h
    exact ht
  | succ n =>
    rw [exhaust]
    simp only [ht]
    split_ifs with heq
    · exact heq.symm
    · cases n with
      | zero => rfl
      | succ n => rw [exhaust]; simp only [ht', if_true]

end AppsScript.ModuleSyntax
