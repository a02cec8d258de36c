import AppsScript.Alias.ProjectFile
import AppsScript.FileSystem.Memory
import AppsScript.Proofs.JsonTexts

/-!
# JSON with comments, read as the JSON that it decorates

A decorated text of a value has white space and comments between the lexemes, and maybe a comma behind the last
element of an array or object (`IsDecorated`). `plain` makes of it a text of the same value as plain JSON has
it (`isText_plain`), and does not change plain JSON (`plain_of_isText`). Two readers run one after the other for
that, with notions of a string of their own: both pass over a lexeme and are back outside strings behind it
(`strip_spelling`, `dropTrailingCommas_spelling`), so that all they change lies in the gaps.
-/

namespace AppsScript.Json

open Text Source

variable {t g rest body : Text} {c : Char} {l : Lexeme} {ls : List Lexeme}

/-- White space and closed comments. -/
inductive IsGap : Text → Prop
  | nil : IsGap []
  | space {c : Char} {g : Text} (hc : IsSpace c) (hg : IsGap g) : IsGap (c :: g)
  | block {body g : Text} (hbody : ¬ ("*/" : Text) <:+: body) (hg : IsGap g) :
    IsGap ('/' :: '*' :: (body ++ '*' :: '/' :: g))
  | line {body g : Text} (hbody : '\n' ∉ body) (hg : IsGap g) : IsGap ('/' :: '/' :: (body ++ '\n' :: g))

/-- The text has the lexemes of a value, maybe with commas behind last elements, and comments between them. -/
def IsDecorated (doc : Doc) (t : Text) : Prop := Spaced IsGap (doc.lexemes true) t

/-! ### Comments -/

theorem stripFrom_block (h : ¬ ("*/" : Text) <:+: body) :
    stripFrom .blockComment (body ++ '*' :: '/' :: rest) = ' ' :: strip rest := by
  induction body with
  | nil => rfl
  | cons c body ih =>
    have hbody : ¬ ("*/" : Text) <:+: body := fun hin => h (hin.trans (List.suffix_cons c body).isInfix)
    have hclose : ∀ r, c = '*' → body ++ '*' :: '/' :: rest = '/' :: r → False := by
      rintro r rfl hr
      cases body with
      | nil => simp at hr
      | cons d body =>
        obtain ⟨rfl, -⟩ := List.cons.inj hr
        exact h ⟨[], body, rfl⟩
    rw [List.cons_append, stripFrom, ih hbody]
    exact hclose

theorem stripFrom_line (h : '\n' ∉ body) : stripFrom .lineComment (body ++ '\n' :: rest) = '\n' :: strip rest := by
  induction body with
  | nil => rfl
  | cons c body ih =>
    have hc : c ≠ '\n' := fun hc => h (by simp [hc])
    rw [List.cons_append, stripFrom, if_neg hc, ih fun hmem => h (List.mem_cons_of_mem _ hmem)]

/-- A character that is neither a quote nor a slash. -/
def IsBare (c : Char) : Prop := isQuote c = false ∧ c ≠ '/'

theorem strip_cons (hc : IsBare c) : strip (c :: t) = c :: strip t := by
  rw [strip, stripFrom, Mode.behind, if_neg (by simp [hc.1])]
  · rfl
  · exact fun _ h _ => hc.2 h
  · exact fun _ h _ => hc.2 h

theorem strip_append (ht : ∀ c ∈ t, IsBare c) : strip (t ++ rest) = t ++ strip rest := by
  induction t with
  | nil => rfl
  | cons c t ih => rw [List.cons_append, strip_cons (ht c (by simp)), ih fun x hx => ht x (by simp [hx]),
      List.cons_append]

theorem stripFrom_body (h : StringBody t) :
    stripFrom (.literal '"') (t ++ '"' :: rest) = t ++ '"' :: strip rest := by
  refine StringBody.passed (P := fun t => stripFrom (.literal '"') (t ++ '"' :: rest) = t ++ '"' :: strip rest)
    h ?_ (fun c t hquote hback ih => ?_) fun c t ih => ?_
  · rw [List.nil_append, stripFrom, if_pos rfl]
    · rfl
    · exact fun _ _ h _ => absurd h (by decide)
  · rw [List.cons_append, stripFrom, if_neg hquote, ih, List.cons_append]
    exact fun _ _ h _ => hback h
  · rw [List.cons_append, List.cons_append, stripFrom, ih]
    rfl

theorem isBare_of_isSpace (h : IsSpace c) : IsBare c := by
  rcases h with rfl | rfl | rfl | rfl <;> exact ⟨by decide, by decide⟩

theorem isBare_of_mem_number (h : IsNumber t) (hc : c ∈ t) : IsBare c ∧ c ≠ ',' := by
  have hdigit {ds : Text} (hds : IsDigits ds) (hc : c ∈ ds) : IsBare c ∧ c ≠ ',' := by
    have hc := hds.2 c hc
    refine ⟨⟨?_, ne_of_isDigit hc rfl⟩, ne_of_isDigit hc rfl⟩
    simp [isQuote, ne_of_isDigit hc (show '\''.isDigit = false from rfl),
      ne_of_isDigit hc (show '"'.isDigit = false from rfl), ne_of_isDigit hc (show '`'.isDigit = false from rfl)]
  have hsign {s : Text} (hs : s = [] ∨ s = ['+'] ∨ s = ['-']) (hc : c ∈ s) : IsBare c ∧ c ≠ ',' := by
    rcases hs with rfl | rfl | rfl
    · simp at hc
    · obtain rfl := List.mem_singleton.1 hc
      exact ⟨⟨rfl, by decide⟩, by decide⟩
    · obtain rfl := List.mem_singleton.1 hc
      exact ⟨⟨rfl, by decide⟩, by decide⟩
  obtain ⟨hs, hwhole, -, hfraction, hexponent⟩ := h
  simp only [List.mem_append] at hc
  rcases hc with hc | hc | hc | hc
  · exact hsign (hs.imp_right .inr) hc
  · exact hdigit hwhole hc
  · cases hfraction with
    | none => simp at hc
    | some hdigits =>
      rcases List.mem_cons.1 hc with rfl | hc
      · exact ⟨⟨rfl, by decide⟩, by decide⟩
      · exact hdigit hdigits hc
  · cases hexponent with
    | none => simp at hc
    | some he hs hdigits =>
      rcases List.mem_cons.1 hc with rfl | hc
      · rcases he with rfl | rfl <;> exact ⟨⟨rfl, by decide⟩, by decide⟩
      · exact (List.mem_append.1 hc).elim (hsign hs) (hdigit hdigits)

theorem strip_spelling (l : Lexeme) (t : Text) : strip (l.spelling ++ t) = l.spelling ++ strip t := by
  cases l with
  | number spelling h => exact strip_append fun c hc => (isBare_of_mem_number h hc).1
  | text body h =>
    have hopen : strip ('"' :: (body ++ '"' :: t)) = '"' :: stripFrom (.literal '"') (body ++ '"' :: t) := by
      rw [strip, stripFrom]
      · rfl
      · exact fun _ h _ => absurd h (by decide)
      · exact fun _ h _ => absurd h (by decide)
    simp [Lexeme.spelling, hopen, stripFrom_body h]
  | boolean b => cases b <;> rfl
  | _ => rfl

theorem exists_strip_gap (hg : IsGap g) : ∃ g', IsSpaces g' ∧ ∀ t, strip (g ++ t) = g' ++ strip t := by
  induction hg with
  | nil => exact ⟨[], by simp [IsSpaces], fun t => rfl⟩
  | @space c g hc _ ih =>
    obtain ⟨g', hg', ih⟩ := ih
    refine ⟨c :: g', by simpa [IsSpaces, hc] using hg', fun t => ?_⟩
    rw [List.cons_append, strip_cons (isBare_of_isSpace hc), ih, List.cons_append]
  | @block body g hbody _ ih =>
    obtain ⟨g', hg', ih⟩ := ih
    refine ⟨' ' :: g', by simpa [IsSpaces, IsSpace] using hg', fun t => ?_⟩
    have hstrip : strip ('/' :: '*' :: (body ++ '*' :: '/' :: (g ++ t))) = ' ' :: strip (g ++ t) :=
      stripFrom_block hbody
    simp [hstrip, ih]
  | @line body g hbody _ ih =>
    obtain ⟨g', hg', ih⟩ := ih
    refine ⟨'\n' :: g', by simpa [IsSpaces, IsSpace] using hg', fun t => ?_⟩
    have hstrip : strip ('/' :: '/' :: (body ++ '\n' :: (g ++ t))) = '\n' :: strip (g ++ t) :=
      stripFrom_line hbody
    simp [hstrip, ih]

theorem spaced_strip (h : Spaced IsGap ls t) : Spaced IsSpaces ls (strip t) := by
  induction h with
  | @nil g hg =>
    obtain ⟨g', hg', hstrip⟩ := exists_strip_gap hg
    have hnil := hstrip []
    rw [List.append_nil, show strip [] = [] from rfl, List.append_nil] at hnil
    exact hnil ▸ .nil hg'
  | @cons g t l ls hg _ ih =>
    obtain ⟨g', hg', hstrip⟩ := exists_strip_gap hg
    rw [hstrip, strip_spelling]
    exact .cons hg' ih

theorem strip_of_spaced (h : Spaced IsSpaces ls t) : strip t = t := by
  have hspaces {g t : Text} (hg : IsSpaces g) : strip (g ++ t) = g ++ strip t :=
    strip_append fun c hc => isBare_of_isSpace (hg c hc)
  induction h with
  | @nil g hg =>
    have hnil := hspaces (t := []) hg
    rwa [List.append_nil, show strip [] = [] from rfl, List.append_nil] at hnil
  | cons hg _ ih => rw [hspaces hg, strip_spelling, ih]

/-! ### Commas behind last elements -/

/-- The lexemes without the commas right before the end of an array or object. -/
def dropCommas : List Lexeme → List Lexeme
  | .comma :: l :: ls => if l.closes then dropCommas (l :: ls) else .comma :: dropCommas (l :: ls)
  | l :: ls => l :: dropCommas ls
  | [] => []

theorem dropCommas_cons (h : l ≠ .comma) : dropCommas (l :: ls) = l :: dropCommas ls := by
  rw [dropCommas]
  rintro _ _ rfl -
  exact h rfl

theorem dropCommas_comma (ls : List Lexeme) : dropCommas (.comma :: ls) =
    if ls.head?.any Lexeme.closes then dropCommas ls else .comma :: dropCommas ls := by
  cases ls with
  | nil => rfl
  | cons l ls =>
    rw [dropCommas]
    rfl

theorem ne_comma_of_isMark (h : l.isMark = false) : l ≠ .comma := by
  rintro rfl
  exact absurd h (by decide)

theorem dropCommas_commaIf {b : Bool} (hl : l.closes = true) : dropCommas (commaIf b ++ l :: ls) = dropCommas (l :: ls) := by
  cases b
  · rfl
  · exact (dropCommas_comma (l :: ls)).trans (if_pos hl)

/-- A value does not start with the end of one. -/
theorem exists_cons_lexemes (commas : Bool) (doc : Doc) :
    ∃ l ls, doc.lexemes commas = l :: ls ∧ l.closes = false := by
  cases doc with
  | scalar l h =>
    refine ⟨l, [], rfl, ?_⟩
    cases l with
    | closeBrace => exact absurd h (by decide)
    | closeBracket => exact absurd h (by decide)
    | _ => rfl
  | _ => exact ⟨_, _, rfl, rfl⟩

theorem exists_cons_elements (commas : Bool) (elements : Elements) :
    ∃ l ls, elements.lexemes commas = l :: ls ∧ l.closes = false := by
  cases elements with
  | last doc comma =>
    obtain ⟨l, ls, h, hl⟩ := exists_cons_lexemes commas doc
    exact ⟨l, _, by rw [Elements.lexemes, h, List.cons_append], hl⟩
  | cons doc elements =>
    obtain ⟨l, ls, h, hl⟩ := exists_cons_lexemes commas doc
    exact ⟨l, _, by rw [Elements.lexemes, h, List.cons_append], hl⟩

theorem exists_cons_members (commas : Bool) (members : Members) :
    ∃ l ls, members.lexemes commas = l :: ls ∧ l.closes = false := by
  cases members <;> exact ⟨_, _, rfl, rfl⟩

/-- A comma between two elements stays. -/
theorem dropCommas_between {ks : List Lexeme} (h : ∃ l ls, ks = l :: ls ∧ l.closes = false) :
    dropCommas (.comma :: (ks ++ ls)) = .comma :: dropCommas (ks ++ ls) := by
  obtain ⟨l, ks, rfl, hl⟩ := h
  rw [List.cons_append, dropCommas_comma, if_neg (by simp [hl])]

mutual

/-- Of a value, the lexemes of plain JSON remain. -/
theorem Doc.dropCommas_lexemes (commas : Bool) : ∀ (doc : Doc) (ls : List Lexeme),
    dropCommas (doc.lexemes commas ++ ls) = doc.lexemes false ++ dropCommas ls
  | .scalar l h, ls => dropCommas_cons (ne_comma_of_isMark h)
  | .emptyArray, ls => by
    rw [Doc.lexemes, Doc.lexemes, List.cons_append, List.cons_append, List.nil_append,
      dropCommas_cons (by simp), dropCommas_cons (by simp)]
    rfl
  | .emptyObject, ls => by
    rw [Doc.lexemes, Doc.lexemes, List.cons_append, List.cons_append, List.nil_append,
      dropCommas_cons (by simp), dropCommas_cons (by simp)]
    rfl
  | .array elements, ls => by
    rw [Doc.lexemes, Doc.lexemes, List.cons_append, List.append_assoc, dropCommas_cons (by simp),
      List.singleton_append, elements.dropCommas_lexemes commas rfl, dropCommas_cons (by simp)]
    simp
  | .object members, ls => by
    rw [Doc.lexemes, Doc.lexemes, List.cons_append, List.append_assoc, dropCommas_cons (by simp),
      List.singleton_append, members.dropCommas_lexemes commas rfl, dropCommas_cons (by simp)]
    simp

theorem Elements.dropCommas_lexemes (commas : Bool) : ∀ (elements : Elements) {l : Lexeme} {ls : List Lexeme},
    l.closes = true →
    dropCommas (elements.lexemes commas ++ l :: ls) = elements.lexemes false ++ dropCommas (l :: ls)
  | .last doc comma, l, ls, hl => by
    rw [Elements.lexemes, Elements.lexemes, List.append_assoc, doc.dropCommas_lexemes commas,
      dropCommas_commaIf hl]
    simp [commaIf]
  | .cons doc elements, l, ls, hl => by
    rw [Elements.lexemes, Elements.lexemes, List.append_assoc, doc.dropCommas_lexemes commas, List.cons_append,
      dropCommas_between (exists_cons_elements commas elements), elements.dropCommas_lexemes commas hl]
    simp

theorem Members.dropCommas_lexemes (commas : Bool) : ∀ (members : Members) {l : Lexeme} {ls : List Lexeme},
    l.closes = true →
    dropCommas (members.lexemes commas ++ l :: ls) = members.lexemes false ++ dropCommas (l :: ls)
  | .last key hkey doc comma, l, ls, hl => by
    rw [Members.lexemes, Members.lexemes, List.cons_append, List.cons_append, List.append_assoc,
      dropCommas_cons (by simp), dropCommas_cons (by simp), doc.dropCommas_lexemes commas, dropCommas_commaIf hl]
    simp [commaIf]
  | .cons key hkey doc members, l, ls, hl => by
    rw [Members.lexemes, Members.lexemes, List.cons_append, List.cons_append, List.append_assoc,
      dropCommas_cons (by simp), dropCommas_cons (by simp), doc.dropCommas_lexemes commas, List.cons_append,
      dropCommas_between (exists_cons_members commas members), members.dropCommas_lexemes commas hl]
    simp

end

theorem dropCommas_doc (commas : Bool) (doc : Doc) : dropCommas (doc.lexemes commas) = doc.lexemes false := by
  have h := doc.dropCommas_lexemes commas []
  rwa [List.append_nil, show dropCommas [] = [] from rfl, List.append_nil] at h

theorem dropTrailingCommas_cons (h : c ≠ ',' ∧ c ≠ '"') : dropTrailingCommas (c :: t) = c :: dropTrailingCommas t := by
  rw [dropTrailingCommas, dropCommasFrom, beq_false_of_ne h.2, dropTrailingCommas]
  exact h.1

theorem dropTrailingCommas_append (ht : ∀ c ∈ t, c ≠ ',' ∧ c ≠ '"') :
    dropTrailingCommas (t ++ rest) = t ++ dropTrailingCommas rest := by
  induction t with
  | nil => rfl
  | cons c t ih => rw [List.cons_append, dropTrailingCommas_cons (ht c (by simp)), ih fun x hx => ht x (by simp [hx]),
      List.cons_append]

theorem dropCommasFrom_body (h : StringBody t) :
    dropCommasFrom true (t ++ '"' :: rest) = t ++ '"' :: dropTrailingCommas rest := by
  refine StringBody.passed (P := fun t => dropCommasFrom true (t ++ '"' :: rest) = t ++ '"' :: dropTrailingCommas rest)
    h ?_ (fun c t hquote hback ih => ?_) fun c t ih => ?_
  · rw [List.nil_append, dropCommasFrom]
    · rfl
    · exact fun _ _ h _ => absurd h (by decide)
  · rw [List.cons_append, dropCommasFrom, bne_iff_ne.2 hquote, ih, List.cons_append]
    exact fun _ _ h _ => hback h
  · rw [List.cons_append, List.cons_append, dropCommasFrom, ih]
    rfl

theorem dropTrailingCommas_spelling (hl : l ≠ .comma) (t : Text) :
    dropTrailingCommas (l.spelling ++ t) = l.spelling ++ dropTrailingCommas t := by
  cases l with
  | number spelling h =>
    refine dropTrailingCommas_append fun c hc => ?_
    have hbare := isBare_of_mem_number h hc
    refine ⟨hbare.2, ?_⟩
    rintro rfl
    exact absurd hbare.1.1 (by decide)
  | text body h =>
    have hopen : dropTrailingCommas ('"' :: (body ++ '"' :: t)) = '"' :: dropCommasFrom true (body ++ '"' :: t) := rfl
    simp [Lexeme.spelling, hopen, dropCommasFrom_body h]
  | comma => exact absurd rfl hl
  | boolean b => cases b <;> rfl
  | _ => rfl

theorem dropTrailingCommas_spaces (hg : IsSpaces g) : dropTrailingCommas (g ++ t) = g ++ dropTrailingCommas t := by
  refine dropTrailingCommas_append fun c hc => ?_
  rcases hg c hc with rfl | rfl | rfl | rfl <;> decide

theorem dropTrailingCommas_comma (t : Text) : dropTrailingCommas (',' :: t) =
    if closesNext t then dropTrailingCommas t else ',' :: dropTrailingCommas t := by
  rw [dropTrailingCommas, dropCommasFrom]
  rfl

theorem dropTrailingCommas_of_isSpaces (hg : IsSpaces g) : dropTrailingCommas g = g := by
  have hdrop := dropTrailingCommas_spaces (t := []) hg
  rwa [List.append_nil, show dropTrailingCommas [] = [] from rfl, List.append_nil] at hdrop

/-- The next character that is not white space is that of the next lexeme. -/
theorem closesNext_of_spaced (h : Spaced IsSpaces ls t) : closesNext t = ls.head?.any Lexeme.closes := by
  cases h with
  | nil hg =>
    have hnil : trimStart t = [] := List.dropWhile_eq_nil_iff.2 hg.allBlank
    rw [closesNext, hnil]
    rfl
  | @cons g t l ls hg _ =>
    rw [closesNext, trimStart_append hg.allBlank ((solid_spelling l).append t)]
    cases l with
    | number spelling h =>
      obtain ⟨c, u, rfl, hc⟩ := exists_of_isNumber h
      have hne {s : Char} (hs : ¬ (s = '-' ∨ s.isDigit)) : c ≠ s := by
        rintro rfl
        exact hs hc
      simp [Lexeme.spelling, Lexeme.closes, hne]
    | boolean b => cases b <;> rfl
    | _ => rfl

theorem dropTrailingCommas_spelled_comma (h : Spaced IsSpaces ls t) :
    dropTrailingCommas (Lexeme.comma.spelling ++ t) =
      if ls.head?.any Lexeme.closes then dropTrailingCommas t else Lexeme.comma.spelling ++ dropTrailingCommas t := by
  rw [← closesNext_of_spaced h]
  exact dropTrailingCommas_comma t

theorem Spaced.prepend (hg : IsSpaces g) (h : Spaced IsSpaces ls t) : Spaced IsSpaces ls (g ++ t) := by
  have happend {g' : Text} (hg' : IsSpaces g') : IsSpaces (g ++ g') := by
    intro c hc
    exact (List.mem_append.1 hc).elim (hg c) (hg' c)
  cases h with
  | nil hg' => exact .nil (happend hg')
  | cons hg' ht => exact List.append_assoc .. ▸ .cons (happend hg') ht

theorem spaced_dropTrailingCommas (h : Spaced IsSpaces ls t) :
    Spaced IsSpaces (dropCommas ls) (dropTrailingCommas t) := by
  induction h with
  | nil hg =>
    rw [dropTrailingCommas_of_isSpaces hg]
    exact .nil hg
  | @cons g t l ls hg ht ih =>
    rw [dropTrailingCommas_spaces hg]
    by_cases hl : l = .comma
    · subst hl
      rw [dropTrailingCommas_spelled_comma ht, dropCommas_comma]
      split_ifs
      · exact ih.prepend hg
      · exact .cons hg ih
    · rw [dropCommas_cons hl, dropTrailingCommas_spelling hl]
      exact .cons hg ih

theorem length_dropCommas_le (ls : List Lexeme) : (dropCommas ls).length ≤ ls.length := by
  fun_induction dropCommas ls with
  | case1 l ls hl ih => exact Nat.le_succ_of_le ih
  | case2 l ls hl ih => exact Nat.succ_le_succ ih
  | case3 l ls h ih => exact Nat.succ_le_succ ih
  | case4 => exact Nat.le_refl _

/-- Where no comma is dropped, nothing is. -/
theorem dropTrailingCommas_of_spaced (h : Spaced IsSpaces ls t) (hls : dropCommas ls = ls) :
    dropTrailingCommas t = t := by
  induction h with
  | nil hg => exact dropTrailingCommas_of_isSpaces hg
  | @cons g t l ls hg ht ih =>
    rw [dropTrailingCommas_spaces hg]
    by_cases hl : l = .comma
    · subst hl
      rw [dropCommas_comma] at hls
      rw [dropTrailingCommas_spelled_comma ht]
      split_ifs at hls ⊢ with hcloses
      · have hlength := length_dropCommas_le ls
        rw [hls] at hlength
        exact absurd hlength (by simp)
      · rw [ih (List.cons.inj hls).2]
    · rw [dropCommas_cons hl] at hls
      rw [dropTrailingCommas_spelling hl, ih (List.cons.inj hls).2]

/-! ### Decorated texts -/

/-- What remains of a decorated text is plain JSON for the same value. -/
theorem isText_plain {doc : Doc} (h : IsDecorated doc t) : IsText doc (plain t) := by
  have hspaced := spaced_dropTrailingCommas (spaced_strip h)
  rwa [dropCommas_doc] at hspaced

theorem plain_of_isText {doc : Doc} (h : IsText doc t) : plain t = t := by
  rw [plain, strip_of_spaced h, dropTrailingCommas_of_spaced h (dropCommas_doc false doc)]

theorem tokens_plain {doc : Doc} (h : IsDecorated doc t) : tokens (plain t) = doc.tokens :=
  tokens_of_isText (isText_plain h)

theorem read?_plain {doc : Doc} {bare : Text} (h : IsDecorated doc t) (hbare : IsText doc bare) :
    Alias.ProjectFile.read? t = Alias.ProjectFile.read? bare := by
  rw [Alias.ProjectFile.read?, Alias.ProjectFile.read?, tokens_plain h, plain_of_isText hbare,
    tokens_of_isText hbare]

theorem value_ofProjectFile {σ : Type} [FileSystem σ] {fs : σ} {root : Path}
    (h : FileSystem.readText fs (root.join "tsconfig.json") = .ok t) :
    (Alias.ofProjectFile fs root).value =
      ((Alias.ProjectFile.read? t).map Alias.ProjectFile.aliases).getD .empty := by
  have hproject : FileSystem.readText fs (root.join Alias.projectFileName) = .ok t := h
  rw [Alias.ofProjectFile, hproject]
  cases hread : Alias.ProjectFile.read? t <;> simp [hread]

/-- A decorated text is read as the JSON that it decorates: what remains of it is valid and has the tokens of the
value, plain JSON stays as it is, and a project file declares the same aliases either way. -/
theorem plain_spec (doc : Doc) :
    (∀ t, IsDecorated doc t → IsText doc (plain t) ∧ tokens (plain t) = doc.tokens) ∧
    (∀ t, IsText doc t → plain t = t ∧ tokens t = doc.tokens) ∧
    ∀ (t bare : Text) (σ : Type) [FileSystem σ] (fs fs' : σ) (root : Path), IsDecorated doc t → IsText doc bare →
      FileSystem.readText fs (root.join "tsconfig.json") = .ok t →
      FileSystem.readText fs' (root.join "tsconfig.json") = .ok bare →
      (Alias.ofProjectFile fs root).value = (Alias.ofProjectFile fs' root).value := by
  refine ⟨fun t h => ⟨isText_plain h, tokens_plain h⟩, fun t h => ⟨plain_of_isText h, tokens_of_isText h⟩, ?_⟩
  intro t bare σ _ fs fs' root h hbare ht ht'
  rw [value_ofProjectFile ht, value_ofProjectFile ht', read?_plain h hbare]

theorem stringBody_of_all (h : t.all fun c => 0x20 ≤ c.toNat ∧ c ≠ '"' ∧ c ≠ '\\') : StringBody t := by
  induction t with
  | nil => exact .nil
  | cons c t ih =>
    rw [List.all_cons, Bool.and_eq_true, decide_eq_true_eq] at h
    obtain ⟨⟨hcontrol, hquote, hback⟩, ht⟩ := h
    exact .plain hcontrol hquote hback (ih ht)

/-- An alias whose pattern and target look like the start of a comment. -/
def aliasDoc : Doc :=
  .object (.last "compilerOptions" (stringBody_of_all rfl)
    (.object (.last "paths" (stringBody_of_all rfl)
      (.object (.last "@/*" (stringBody_of_all rfl)
        (.array (.last (.scalar (.text "src/*" (stringBody_of_all rfl)) rfl) true)) false)) true)) false)

/-- The alias with comments, and with commas behind the last target and the last option. -/
def decoratedAlias : Text :=
  "// of the \"project\"\n\x7b\"compilerOptions\":\x7b/* ,\x7d */\"paths\":\x7b\"@/*\":[\"src/*\" ,// here\n]\x7d,\x7d\x7d"

/-- The alias in plain JSON. -/
def bareAlias : Text := "\x7b \"compilerOptions\":\x7b\"paths\":\x7b\"@/*\":[\"src/*\"]\x7d\x7d\x7d\n"

/-- A project with the given project file. -/
def projectWith (t : Text) : Memory := .ofContents [(["p", "tsconfig.json"], t)] [] {}

theorem isDecorated_decoratedAlias : IsDecorated aliasDoc decoratedAlias := by
  have line (body : Text) (hbody : '\n' ∉ body) : IsGap ('/' :: '/' :: (body ++ ['\n'])) := .line hbody .nil
  have block (body : Text) (hbody : ¬ ("*/" : Text) <:+: body) : IsGap ('/' :: '*' :: (body ++ ['*', '/'])) :=
    .block hbody .nil
  have hlexemes : aliasDoc.lexemes true = [.openBrace, .text "compilerOptions" (stringBody_of_all rfl), .colon,
      .openBrace, .text "paths" (stringBody_of_all rfl), .colon, .openBrace, .text "@/*" (stringBody_of_all rfl), .colon,
      .openBracket, .text "src/*" (stringBody_of_all rfl), .comma, .closeBracket, .closeBrace, .comma,
      .closeBrace, .closeBrace] := rfl
  rw [IsDecorated, hlexemes]
  exact .cons (line " of the \"project\"" (by decide)) <| .cons .nil <| .cons .nil <| .cons .nil <|
    .cons (block " ,\x7d " (by decide)) <| .cons .nil <| .cons .nil <| .cons .nil <| .cons .nil <| .cons .nil <|
    .cons .nil <| .cons (.space (c := ' ') (.inl rfl) .nil) <| .cons (line " here" (by decide)) <| .cons .nil <| .cons .nil <|
    .cons .nil <| .cons .nil <| .nil .nil

theorem isText_bareAlias : IsText aliasDoc bareAlias := by
  have none : IsSpaces [] := by simp [IsSpaces]
  have one (c : Char) (hc : IsSpace c) : IsSpaces [c] := by simpa [IsSpaces] using hc
  exact .cons none <| .cons (one ' ' (.inl rfl)) <| .cons none <| .cons none <| .cons none <| .cons none <|
    .cons none <| .cons none <| .cons none <| .cons none <| .cons none <| .cons none <| .cons none <|
    .cons none <| .cons none <| .nil (one '\n' (.inr (.inl rfl)))

theorem plain_spec_alias :
    (IsText aliasDoc (plain decoratedAlias) ∧ tokens (plain decoratedAlias) = aliasDoc.tokens) ∧
    (plain bareAlias = bareAlias ∧ tokens bareAlias = aliasDoc.tokens) ∧
    (Alias.ofProjectFile (projectWith decoratedAlias) "/p").value =
      (Alias.ofProjectFile (projectWith bareAlias) "/p").value ∧
    (Alias.ofProjectFile (projectWith bareAlias) "/p").value.toList = [(("@" : Text), ("./src" : Text))] := by
  obtain ⟨hdecorated, hbare, haliases⟩ := plain_spec aliasDoc
  exact ⟨hdecorated _ isDecorated_decoratedAlias, hbare _ isText_bareAlias,
    haliases _ _ Memory _ _ _ isDecorated_decoratedAlias isText_bareAlias (by decide +kernel) (by decide +kernel),
    by decide +kernel⟩

end AppsScript.Json
