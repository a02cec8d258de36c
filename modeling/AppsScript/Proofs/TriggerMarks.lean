import AppsScript.Proofs.Editing
import AppsScript.Proofs.Texts
import AppsScript.Script.Trigger

/-!
# Declarations with their markers

`Marked t` says that the declarations of triggers in `t` have their markers in front of them. `mark` sees
to that (`marked_mark`): a marker that was there before is kept, and no declaration comes about between
two pieces.
-/

namespace AppsScript.Trigger

open Scan Text

variable {pre w post r t u v s s' name : Text} {e : Option Text}

/-- The declaration of the trigger `name` up to its parenthesis. -/
def opening (s name s' : Text) : Text := Text.concat ["function", s, name, s', "("]

theorem opening_eq (s name s' : Text) : opening s name s' = "function" ++ (s ++ (name ++ (s' ++ ['(']))) := by
  simp [opening, Text.concat]

/-- The simple triggers and the entry points of web apps. -/
def triggers : List Text :=
  ["onOpen", "onEdit", "onSelectionChange", "onFormSubmit", "doGet", "doPost", "onInstall"]

/-- The comment that keeps the declaration of `name`. -/
def markerText (name : Text) : Text := Text.concat ["/* @preserve ", name, " */"]

/-- Every declaration of a trigger has the marker of that trigger in front of it. -/
def Marked (t : Text) : Prop := ∀ pre s name s' post, t = pre ++ (opening s name s' ++ post) →
  pre.getLast?.any isWord = false → s ≠ [] → AllBlank s → name ∈ triggers → AllBlank s' →
  ∃ u g, pre = u ++ (markerText name ++ g) ∧ AllBlank g

theorem names_eq : names = triggers := rfl

theorem marker_eq (name : Text) : marker name = markerText name := rfl

theorem isAlphanum_of_mem_triggers (h : name ∈ triggers) : ∀ c ∈ name, c.isAlphanum := by
  have hall : ∀ name ∈ triggers, ∀ c ∈ name, c.isAlphanum := by simp [triggers]
  exact hall name h

theorem solid_marker_reverse (name : Text) : Solid (markerText name).reverse :=
  ⟨'/', _, by simp [markerText, Text.concat]; rfl, rfl⟩

theorem isMarked_iff : isMarked name pre.reverse = true ↔
    ∃ u g, pre = u ++ (markerText name ++ g) ∧ AllBlank g := by
  rw [isMarked, marker_eq, Option.isSome_iff_exists]
  constructor
  · rintro ⟨r, hr⟩
    rw [after?_eq_some_iff] at hr
    refine ⟨r.reverse, (pre.reverse.takeWhile isBlank).reverse, ?_, ?_⟩
    · have := List.takeWhile_append_dropWhile (p := isBlank) (l := pre.reverse)
      rw [hr] at this
      have hpre := congrArg List.reverse this
      simpa using hpre.symm
    · exact fun c hc => List.mem_takeWhile_imp (List.mem_reverse.1 hc)
  · rintro ⟨u, g, rfl, hg⟩
    refine ⟨u.reverse, ?_⟩
    rw [after?_eq_some_iff]
    have hrev : AllBlank g.reverse := fun c hc => hg c (List.mem_reverse.1 hc)
    have := trimStart_append hrev ((solid_marker_reverse name).append u.reverse)
    simpa [trimStart] using this

/-- What is put in place of a declaration without a marker. -/
def marking (name : Text) : Text := Text.concat [markerText name, " function ", name, "("]

theorem marking_eq (name : Text) :
    marking name = ("/* @preserve " : Text) ++ (name ++ ((" */ function " : Text) ++ (name ++ ['(']))) := by
  simp [marking, markerText, Text.concat]

theorem marking_eq_append (name : Text) : marking name = (markerText name ++ [' ']) ++ opening [' '] name [] := by
  simp [marking, opening_eq, Text.concat]

theorem reads_declarationHead : declarationHead.Reads pre w post e ↔
    ∃ s name s', w = opening s name s' ∧ s ≠ [] ∧ AllBlank s ∧ name ∈ triggers ∧ AllBlank s' ∧
      pre.getLast?.any isWord = false ∧
      e = if isMarked name pre.reverse then none
        else some (marking name) := by
  have hf : isWord 'f' = true := by decide
  simp only [declarationHead, names_eq, marker_eq, Source.space1, Source.space, reads_bind, reads_here,
    reads_wordEdge, reads_word, reads_many1, reads_oneOf, reads_many, reads_pure, opening_eq]
  constructor
  · rintro ⟨_, _, _, rfl, ⟨rfl, rfl⟩, _, _, _, rfl, ⟨rfl, hedge⟩, _, _, _, rfl, rfl, s, _, _, rfl,
      ⟨hs, hb⟩, name, _, _, rfl, ⟨hn, rfl⟩, s', _, _, rfl, hs', _, _, _, rfl, rfl, rfl, rfl⟩
    refine ⟨s, name, s', by simp, hs, hb, hn, hs', by simpa [hf] using hedge, ?_⟩
    rw [Cursor.before_between, marking]
  · rintro ⟨s, name, s', rfl, hs, hb, hn, hs', hedge, rfl⟩
    refine ⟨[], ("function" : Text) ++ (s ++ (name ++ (s' ++ ['(']))), _, rfl, ⟨rfl, rfl⟩, [],
      ("function" : Text) ++ (s ++ (name ++ (s' ++ ['(']))), (), rfl, ⟨rfl, by simp [hf, hedge]⟩,
      "function", s ++ (name ++ (s' ++ ['('])), (), rfl, rfl, s, name ++ (s' ++ ['(']), (), rfl, ⟨hs, hb⟩,
      name, s' ++ ['('], name, rfl, ⟨hn, rfl⟩, s', ['('], (), rfl, hs', ['('], [], (), rfl, rfl, rfl, ?_⟩
    rw [Cursor.before_between, marking]

theorem consumes_declarationHead : declarationHead.Consumes := by
  intro pre w post e h
  obtain ⟨s, name, s', rfl, -⟩ := reads_declarationHead.1 h
  simp [opening_eq]

theorem changes_declarationHead (h : declarationHead.Changes pre w post r) :
    ∃ s name s', w = opening s name s' ∧ s ≠ [] ∧ AllBlank s ∧ name ∈ triggers ∧ AllBlank s' ∧
      pre.getLast?.any isWord = false ∧ r = marking name := by
  obtain ⟨s, name, s', rfl, hs, hb, hn, hs', hedge, he⟩ := reads_declarationHead.1 h.reads
  refine ⟨s, name, s', rfl, hs, hb, hn, hs', hedge, ?_⟩
  split_ifs at he
  exact Option.some.inj he

theorem head_of_changes (h : declarationHead.Changes pre w post r) : r.head? = some '/' := by
  obtain ⟨s, name, s', -, -, -, -, -, -, rfl⟩ := changes_declarationHead h
  rw [marking_eq]
  rfl

theorem getLast?_opening (s name s' : Text) : (opening s name s').getLast? = some '(' := by
  have : opening s name s' = ("function" ++ (s ++ (name ++ s'))) ++ ['('] := by simp [opening_eq]
  rw [this, List.getLast?_concat]

theorem getLast?_marking (name : Text) : (marking name).getLast? = some '(' := by
  rw [marking_eq_append, List.getLast?_append_of_ne_nil _ (by simp [opening_eq]), getLast?_opening]

theorem getLast?_of_puts (h : declarationHead.Puts pre w post r) : w.getLast? = some '(' ∧ r.getLast? = some '(' := by
  obtain ⟨e, he, rfl⟩ := h
  obtain ⟨s, name, s', rfl, -, -, -, -, -, rfl⟩ := reads_declarationHead.1 he.reads
  refine ⟨getLast?_opening .., ?_⟩
  split_ifs
  · exact getLast?_opening ..
  · exact getLast?_marking name

theorem notMem_name (hn : name ∈ triggers) : 'f' ∉ name ∧ '/' ∉ name := by
  have hall : ∀ name ∈ triggers, 'f' ∉ name ∧ '/' ∉ name := by simp [triggers]
  exact hall name hn

theorem notMem_opening (hs : AllBlank s) (hn : name ∈ triggers) (hs' : AllBlank s') :
    '/' ∉ opening s name s' ∧ 'f' ∉ (opening s name s').tail := by
  have h := hs.notMem (c := '/') (by decide)
  have h' := hs'.notMem (c := '/') (by decide)
  have hf := hs.notMem (c := 'f') (by decide)
  have hf' := hs'.notMem (c := 'f') (by decide)
  obtain ⟨hnf, hn'⟩ := notMem_name hn
  simp [opening_eq, h, h', hf, hf', hnf, hn']

theorem notMem_marker (hn : name ∈ triggers) : ∀ c ∈ ['f', '(', '\n', '\x7b', '\x7d'], c ∉ markerText name := by
  have hall : ∀ name ∈ triggers, ∀ c ∈ ['f', '(', '\n', '\x7b', '\x7d'], c ∉ markerText name := by
    simp [triggers, markerText, Text.concat]
  exact hall name hn

theorem notMem_marker_append (hn : name ∈ triggers) (hs : AllBlank s) : '(' ∉ markerText name ++ s := by
  simpa [hs.notMem (show isBlank '(' = false by decide)] using notMem_marker hn '(' (by simp)

theorem notMem_marking (hn : name ∈ triggers) : ∀ c ∈ ['\n', ';', '.', '>'], c ∉ marking name := by
  have hall : ∀ name ∈ triggers, ∀ c ∈ ['\n', ';', '.', '>'], c ∉ marking name := by
    simp [triggers, marking_eq]
  exact hall name hn

theorem name_unique {s₁ s₂ s₁' s₂' name₁ name₂ : Text} (hs₁ : AllBlank s₁) (hs₂ : AllBlank s₂)
    (hn₁ : name₁ ∈ triggers) (hn₂ : name₂ ∈ triggers) (hs₁' : AllBlank s₁') (hs₂' : AllBlank s₂')
    (h : opening s₁ name₁ s₁' ++ u = opening s₂ name₂ s₂' ++ v) : name₁ = name₂ := by
  have hw₁ : ∀ c ∈ name₁, isWord c := fun c hc => isWord_of_isAlphanum (isAlphanum_of_mem_triggers hn₁ c hc)
  have hw₂ : ∀ c ∈ name₂, isWord c := fun c hc => isWord_of_isAlphanum (isAlphanum_of_mem_triggers hn₂ c hc)
  have hne : ∀ name ∈ triggers, name ≠ [] := by simp [triggers]
  have hparen (u : Text) : ∀ c ∈ ('(' :: u).head?, ¬ isWord c := by simpa using by decide
  have h' : s₁ ++ (name₁ ++ (s₁' ++ '(' :: u)) = s₂ ++ (name₂ ++ (s₂' ++ '(' :: v)) := by
    simpa [opening_eq] using h
  obtain ⟨-, h'⟩ := span_unique h' hs₁ hs₂ ((solid_of_isWord (hne _ hn₁) hw₁).append _).not_isBlank
    ((solid_of_isWord (hne _ hn₂) hw₂).append _).not_isBlank
  exact (span_unique h' hw₁ hw₂ (not_isWord_head hs₁' (hparen u)) (not_isWord_head hs₂' (hparen v))).1

/-- A declaration starts in what was put only behind the marker. -/
theorem split_marking {r₁ r₂ : Text} (hn : name ∈ triggers) (h : r₁ ++ r₂ = marking name)
    (hf : r₂.head? = some 'f') : r₁ = markerText name ++ [' '] ∧ r₂ = opening [' '] name [] := by
  obtain ⟨r₂, rfl⟩ : ∃ r, r₂ = 'f' :: r := by
    cases r₂ with
    | nil => simp at hf
    | cons x r => exact ⟨r, by simpa using hf⟩
  have heq : r₁ ++ 'f' :: r₂ = (markerText name ++ [' ']) ++ 'f' :: ("unction " ++ (name ++ ['('])) := by
    simpa [marking_eq_append, opening_eq] using h
  obtain ⟨rfl, -, rfl⟩ := (List.append_cons_inj_of_notMem (by simpa using notMem_marker hn 'f' (by simp))
    (by simpa using (notMem_name hn).1)).1 heq.symm
  exact ⟨rfl, by simp [opening_eq]⟩

theorem marked_mark (t : Text) : Marked (mark t) := by
  intro u s name s' post hout hedge hs hb hn hs'
  have hhead : (opening s name s' ++ post).head? = some 'f' := by simp [opening_eq]
  rcases (spliced_edit declarationHead t).split hout with ⟨x, y, rfl, hx, hy⟩ |
    ⟨x, w, y, u', r₁, r₂, v', -, -, -, ⟨e, he, hr⟩, h₁, h₂, -, rfl, hv⟩
  · -- The opening starts between the pieces: it is a head put as it is, since one that was passed over is none.
    have hlast : u.getLast? = x.getLast? :=
      hx.getLast?_eq fun hr => (getLast?_of_puts hr).2.trans (getLast?_of_puts hr).1.symm
    have hpre := hy.changes.prefix_of_notMem rfl head_of_changes (notMem_opening hb hn hs').1
    generalize hv : opening s name s' ++ post = v at hy hhead
    cases hy with
    | done => simp at hhead
    | @keep _ t _ out c hc _ =>
      obtain ⟨z, hz, -⟩ := hpre
      rw [List.append_nil, List.nil_append] at hc
      have hfail := consumes_declarationHead.fails hc
      rw [fails_iff] at hfail
      exact absurd (reads_declarationHead.2 ⟨s, name, s', rfl, hs, hb, hn, hs', by rw [← hlast, hedge], rfl⟩)
        (hfail _ z _ hz)
    | @put _ w t _ r out hw hne _ =>
      obtain ⟨e, he, rfl⟩ := hw
      obtain ⟨s₁, name₁, s₁', rfl, hs₁, hb₁, hn₁, hs₁', -, rfl⟩ := reads_declarationHead.1 he.reads
      split_ifs at hv hhead with hmark
      · obtain rfl := name_unique hb hb₁ hn hn₁ hs' hs₁' hv
        obtain ⟨x', g, hxg, hg⟩ := isMarked_iff.1 hmark
        obtain ⟨u', rfl⟩ := hx.suffix_of_notMem hxg (fun hr => (getLast?_of_puts hr).1) (notMem_marker_append hn hg)
        exact ⟨u', g, rfl, hg⟩
      · simp [marking_eq] at hhead
  · -- The opening starts inside what was put, so it is the head behind a new marker.
    have hhead₂ : r₂.head? = some 'f' := by rw [← List.head?_append_of_ne_nil _ h₂, ← hv, hhead]
    obtain ⟨s₁, name₁, s₁', rfl, hs₁, hb₁, hn₁, hs₁', -, rfl⟩ := reads_declarationHead.1 he.reads
    split_ifs at hr with hmark
    · exact absurd hhead₂ (head_ne_of_notMem_tail (notMem_opening hb₁ hn₁ hs₁').2 hr h₁)
    · obtain ⟨rfl, rfl⟩ := split_marking hn₁ hr hhead₂
      obtain rfl := name_unique hb (by simp [AllBlank]; decide) hn hn₁ hs' (by simp [AllBlank]) hv
      exact ⟨u', [' '], rfl, by simpa [AllBlank] using by decide⟩

end AppsScript.Trigger
