import AppsScript.Proofs.ExportHeads
import AppsScript.Proofs.PreferredReadings
import AppsScript.Proofs.SettledModules
import AppsScript.Proofs.WhiteSpace

/-!
# Statements around blank lines

Two texts that differ in their runs of blank lines alone (`Respaced`) have statements at the same places: a run can
lie only in the white space of a statement or between its braces, and there the form reads the other run as well. That
is shown part by part (`Carries`). So the merging of blank lines neither brings about a statement nor hides one
(`noSyntax_blankLines`).
-/

namespace AppsScript.ModuleSyntax

open Source Scan Text

variable {α β : Type} {m n : Scan α} {f : α → Scan β} {exact : Bool} {p : Char → Bool} {form : Scan Text}
  {pre pre' w w' t t' u v u' v' r : Text}

/-- Blank lines, from one line feed to another. -/
structure IsRun (w : Text) : Prop where
  head : w.head? = some '\n'
  last : w.getLast? = some '\n'
  spread : ∀ c ∈ w, isSpread c

/-- The texts are the same up to their runs of blank lines. -/
inductive Respaced : (t t' : Text) → Prop
  | nil : Respaced [] []
  | keep {t t' : Text} (c : Char) : Respaced t t' → Respaced (c :: t) (c :: t')
  | run {w w' t t' : Text} : IsRun w → IsRun w' → Respaced t t' → Respaced (w ++ t) (w' ++ t')

/-! ### Runs -/

theorem IsRun.ne_nil (h : IsRun w) : w ≠ [] := by
  rintro rfl
  simpa using h.head

theorem Respaced.symm (h : Respaced t t') : Respaced t' t := by
  induction h with
  | nil => exact .nil
  | keep c _ ih => exact .keep c ih
  | run hw hw' _ ih => exact .run hw' hw ih

theorem Respaced.refl (t : Text) : Respaced t t := by
  induction t with
  | nil => exact .nil
  | cons c t ih => exact .keep c ih

theorem Respaced.append (h : Respaced w w') (ht : Respaced t t') : Respaced (w ++ t) (w' ++ t') := by
  induction h with
  | nil => exact ht
  | keep c _ ih => exact .keep c ih
  | run hw hw' _ ih =>
    rw [List.append_assoc, List.append_assoc]
    exact .run hw hw' ih

theorem Respaced.head? (h : Respaced t t') : t'.head? = t.head? := by
  cases h with
  | nil => rfl
  | keep => rfl
  | run hw hw' =>
    rw [List.head?_append_of_ne_nil _ hw.ne_nil, List.head?_append_of_ne_nil _ hw'.ne_nil, hw.head, hw'.head]

theorem Respaced.getLast? (h : Respaced t t') : t'.getLast? = t.getLast? := by
  induction h with
  | nil => rfl
  | keep c _ ih => rw [List.getLast?_cons, List.getLast?_cons, ih]
  | run hw hw' _ ih => rw [List.getLast?_append, List.getLast?_append, ih, hw.last, hw'.last]

/-- A text without line feeds holds no part of a run. -/
theorem Respaced.exists_append (h : Respaced t (w ++ v')) (hw : '\n' ∉ w) : ∃ v, t = w ++ v ∧ Respaced v v' := by
  induction w generalizing t with
  | nil => exact ⟨t, rfl, h⟩
  | cons c w ih =>
    rw [List.mem_cons, not_or] at hw
    generalize ht' : c :: w ++ v' = t' at h
    cases h with
    | nil => simp at ht'
    | @keep t t' d h =>
      obtain ⟨rfl, rfl⟩ := List.cons.inj ht'
      obtain ⟨v, rfl, hv⟩ := ih h hw.2
      exact ⟨v, rfl, hv⟩
    | run _ hr =>
      have hhead := hr.head
      rw [← List.head?_append_of_ne_nil _ hr.ne_nil, ← ht'] at hhead
      exact absurd (by simpa using hhead.symm) hw.1

/-- A place in a text lies in a run, or it is the place in the other text. -/
theorem Respaced.split (h : Respaced t (u' ++ v')) : (∃ u v, t = u ++ v ∧ Respaced u u' ∧ Respaced v v') ∨
    ∃ r z, v' = r ++ z ∧ r.getLast? = some '\n' ∧ ∀ c ∈ r, isSpread c := by
  generalize ht' : u' ++ v' = t' at h
  induction h generalizing u' with
  | nil =>
    obtain ⟨rfl, rfl⟩ := List.append_eq_nil_iff.1 ht'
    exact .inl ⟨[], [], rfl, .nil, .nil⟩
  | @keep t t' c h ih =>
    cases u' with
    | nil =>
      obtain rfl : v' = c :: t' := ht'
      exact .inl ⟨[], c :: t, rfl, .nil, .keep c h⟩
    | cons d u' =>
      obtain ⟨rfl, rfl⟩ := List.cons.inj ht'
      rcases ih rfl with ⟨u, v, rfl, hu, hv⟩ | h
      · exact .inl ⟨d :: u, v, rfl, .keep d hu, hv⟩
      · exact .inr h
  | @run w w' t t' hw hw' h ih =>
    rcases List.append_eq_append_iff.1 ht' with ⟨r, rfl, rfl⟩ | ⟨x, rfl, rfl⟩
    · by_cases hr : r = []
      · subst hr
        rw [List.append_nil] at hw'
        exact .inl ⟨w, t, rfl, by simpa using Respaced.run hw hw' .nil, h⟩
      · refine .inr ⟨r, t', rfl, ?_, fun c hc => hw'.spread c (List.mem_append_right _ hc)⟩
        rw [← hw'.last, List.getLast?_append_of_ne_nil _ hr]
    · rcases ih rfl with ⟨u, v, rfl, hu, hv⟩ | h
      · exact .inl ⟨w ++ u, v, by simp, .run hw hw' hu, hv⟩
      · exact .inr h

theorem Respaced.forall_mem (h : Respaced t t') (hp : ∀ c, isSpread c → p c) (ht' : ∀ c ∈ t', p c) : ∀ c ∈ t, p c := by
  induction h with
  | nil => simp
  | keep c _ ih =>
    rw [List.forall_mem_cons] at ht' ⊢
    exact ⟨ht'.1, ih ht'.2⟩
  | run hw _ _ ih =>
    rw [List.forall_mem_append] at ht' ⊢
    exact ⟨fun c hc => hp c (hw.spread c hc), ih ht'.2⟩

theorem Respaced.eq_nil_iff (h : Respaced t t') : t = [] ↔ t' = [] := by
  rw [← List.getLast?_eq_none_iff, ← List.getLast?_eq_none_iff, h.getLast?]

theorem Respaced.getLast?_append (h : Respaced w w') (hpre : pre'.getLast? = pre.getLast?) :
    (pre' ++ w').getLast? = (pre ++ w).getLast? := by
  rw [List.getLast?_append, List.getLast?_append, h.getLast?, hpre]

/-! ### Parts of statements -/

/-- What the scan reads in a text it reads, with other runs, in the other one. If `exact`, then with the same result and
up to the same place. -/
structure Carries (exact : Bool) (m : Scan α) : Prop where
  reads : ∀ {pre pre' t w' v' a'}, pre'.getLast? = pre.getLast? → Respaced t (w' ++ v') → m.Reads pre' w' v' a' →
    ∃ w v a, t = w ++ v ∧ m.Reads pre w v a ∧ (exact = true → a = a' ∧ Respaced w w' ∧ Respaced v v')

theorem carries_pure (a : α) : Carries exact (pure a : Scan α) := by
  refine ⟨fun {pre pre' t w' v' a'} _ ht h => ?_⟩
  obtain ⟨rfl, rfl⟩ := reads_pure.1 h
  exact ⟨[], t, a', rfl, reads_pure.2 ⟨rfl, rfl⟩, fun _ => ⟨rfl, .nil, ht⟩⟩

theorem Carries.bind (hm : Carries true m) (hf : ∀ a, Carries exact (f a)) : Carries exact (m >>= f) := by
  refine ⟨fun {pre pre' t w' v' b'} hpre ht h => ?_⟩
  obtain ⟨x', y', a', rfl, hx, hy⟩ := reads_bind.1 h
  rw [List.append_assoc] at ht
  obtain ⟨x, z, a, rfl, hread, htrue⟩ := hm.reads hpre ht hx
  obtain ⟨rfl, hxx', hz⟩ := htrue rfl
  obtain ⟨y, v, b, rfl, hread', hexact⟩ := (hf a).reads (hxx'.getLast?_append hpre) hz hy
  refine ⟨x ++ y, v, b, by simp, reads_bind.2 ⟨x, y, a, rfl, hread, hread'⟩, fun he => ?_⟩
  obtain ⟨rfl, hyy', hv⟩ := hexact he
  exact ⟨rfl, hxx'.append hyy', hv⟩

/-- What is read without a line feed is read in the other text as it is. -/
theorem carries_of_notMem {P : Text → α → Prop} (hm : ∀ {pre w post a}, m.Reads pre w post a ↔ P w a)
    (hn : ∀ {w a}, P w a → '\n' ∉ w) : Carries exact m := by
  refine ⟨fun {pre pre' t w' v' a'} _ ht h => ?_⟩
  obtain ⟨v, rfl, hv⟩ := ht.exists_append (hn (hm.1 h))
  exact ⟨w', v, a', rfl, hm.2 (hm.1 h), fun _ => ⟨rfl, .refl w', hv⟩⟩

/-- A repetition that takes white space reads whole runs if what follows does not start with white space. -/
theorem Carries.repeat_bind {m : Scan Unit} {f : Unit → Scan β} {q : Prop} (hf : Carries exact (f ()))
    (hsolid : ReadsSolid (f ())) (hp : ∀ c, isSpread c → p c)
    (hm : ∀ {pre w post}, m.Reads pre w post () ↔ (q → w ≠ []) ∧ ∀ c ∈ w, p c) : Carries exact (m >>= f) := by
  refine ⟨fun {pre pre' t w' v' b'} hpre ht h => ?_⟩
  obtain ⟨x', y', _, rfl, hx, hy⟩ := reads_bind.1 h
  obtain ⟨hne, hall⟩ := hm.1 hx
  rw [List.append_assoc] at ht
  rcases ht.split with ⟨x, z, rfl, hxx', hz⟩ | ⟨r, z, hrz, hlast, hspread⟩
  · have hread : m.Reads pre x z () := hm.2 ⟨fun hq => mt hxx'.eq_nil_iff.1 (hne hq), hxx'.forall_mem hp hall⟩
    obtain ⟨y, v, b, rfl, hread', hexact⟩ := hf.reads (hxx'.getLast?_append hpre) hz hy
    refine ⟨x ++ y, v, b, by simp, reads_bind.2 ⟨x, y, (), rfl, hread, hread'⟩, fun he => ?_⟩
    obtain ⟨rfl, hyy', hv⟩ := hexact he
    exact ⟨rfl, hxx'.append hyy', hv⟩
  · obtain ⟨c, y, rfl, hc⟩ := hsolid.solid hy
    obtain ⟨d, r, rfl⟩ : ∃ d s, r = d :: s := List.exists_cons_of_ne_nil (by rintro rfl; simp at hlast)
    obtain ⟨rfl, -⟩ := List.cons.inj hrz
    rw [isBlank_of_isSpread (hspread c (by simp))] at hc
    exact absurd hc (by simp)

theorem Carries.space_bind {f : Unit → Scan β} (hf : Carries exact (f ())) (hsolid : ReadsSolid (f ())) :
    Carries exact (space >>= f) :=
  hf.repeat_bind hsolid (q := False) (fun _ hc => isBlank_of_isSpread hc) (by simp [space])

theorem Carries.space1_bind {f : Unit → Scan β} (hf : Carries exact (f ())) (hsolid : ReadsSolid (f ())) :
    Carries exact (space1 >>= f) :=
  hf.repeat_bind hsolid (q := True) (fun _ hc => isBlank_of_isSpread hc) (by simp [space1])

theorem Carries.of_or {k : Scan α}
    (h : ∀ {pre w post a}, m.Reads pre w post a ↔ n.Reads pre w post a ∨ k.Reads pre w post a)
    (hn : Carries exact n) (hk : Carries exact k) : Carries exact m := by
  refine ⟨fun {pre pre' t w' v' a'} hpre ht hm => ?_⟩
  rcases h.1 hm with hm | hm
  · obtain ⟨w, v, a, rfl, hread, hexact⟩ := hn.reads hpre ht hm
    exact ⟨w, v, a, rfl, h.2 (.inl hread), hexact⟩
  · obtain ⟨w, v, a, rfl, hread, hexact⟩ := hk.reads hpre ht hm
    exact ⟨w, v, a, rfl, h.2 (.inr hread), hexact⟩

theorem Carries.or (hm : Carries exact m) (hn : Carries exact n) : Carries exact (m <|> n) := .of_or reads_or hm hn

theorem Carries.maybe (hm : Carries true m) : Carries exact m.maybe :=
  Carries.or (m := some <$> m) (n := pure none) (hm.bind fun a => carries_pure (some a)) (carries_pure none)

theorem Carries.maybe_bind {f : Option α → Scan β} (hm : Carries exact (m >>= fun a => f (some a)))
    (hn : Carries exact (f none)) : Carries exact (m.maybe >>= f) := by
  refine .of_or (fun {pre w post b} => ?_) hm hn
  simp only [reads_bind, reads_maybe]
  constructor
  · rintro ⟨u, v, o, rfl, ⟨a, ha, rfl⟩ | ⟨rfl, rfl⟩, hv⟩
    · exact .inl ⟨u, v, a, rfl, ha, hv⟩
    · exact .inr (by simpa using hv)
  · rintro (⟨u, v, a, rfl, ha, hv⟩ | h)
    · exact ⟨u, v, some a, rfl, .inl ⟨a, ha, rfl⟩, hv⟩
    · exact ⟨[], w, none, rfl, .inr ⟨rfl, rfl⟩, by simpa using h⟩

theorem Carries.assoc {γ : Type} {g : β → Scan γ} (h : Carries exact (m >>= fun a => f a >>= g)) :
    Carries exact ((m >>= f) >>= g) := by
  refine ⟨fun hpre ht hread => ?_⟩
  rw [Reads, run_bind_assoc] at hread
  obtain ⟨w, v, c, rfl, hread, hexact⟩ := h.reads hpre ht hread
  rw [Reads, ← run_bind_assoc] at hread
  exact ⟨w, v, c, rfl, hread, hexact⟩

theorem carries_word {u : Text} (hu : '\n' ∉ u) : Carries exact (Scan.word u) :=
  carries_of_notMem reads_word fun h => h ▸ hu

theorem carries_oneOf {ws : List Text} (hws : ∀ u ∈ ws, '\n' ∉ u) : Carries exact (Scan.oneOf ws) :=
  carries_of_notMem reads_oneOf fun h => h.2 ▸ hws _ h.1

theorem carries_char (hp : p '\n' = false) : Carries exact (Scan.char p) :=
  carries_of_notMem reads_char fun ⟨hw, hc⟩ hn => by
    obtain rfl : '\n' = _ := List.mem_singleton.1 (hw ▸ hn)
    rw [hp] at hc
    exact absurd hc (by simp)

theorem carries_many (hp : p '\n' = false) : Carries exact (Scan.many p) :=
  carries_of_notMem reads_many fun h hn => by simpa [hp] using h _ hn

theorem carries_indent : Carries exact indent := carries_many (by decide)

theorem carries_margin : Carries exact indent.text :=
  carries_of_notMem (P := fun w u => u = w ∧ AllIndent w) (by simp [reads_text])
    fun h hn => absurd (h.2 _ hn) (by decide)

theorem carries_anyName : Carries exact anyName :=
  carries_of_notMem reads_many1 fun h hn => absurd (h.2 _ hn) (by decide)

theorem carries_specifier : Carries exact specifier :=
  .bind (carries_char (by decide)) fun _ => .bind (carries_many (by decide)) fun _ =>
    .bind (carries_char (by decide)) fun _ => carries_pure ()

theorem carries_braces : Carries exact braces := by
  refine .bind (carries_word (by simp)) fun _ => ?_
  refine (carries_word (by simp)).repeat_bind (q := False) (p := (· != '\x7d')) (readsSolid_word rfl)
    (fun c hc => ?_) (by simp)
  rw [bne_iff_ne]
  rintro rfl
  exact absurd hc (by decide)

theorem carries_asName : Carries exact asName :=
  .bind (carries_word (by simp)) fun _ => .space1_bind carries_anyName readsSolid_anyName

theorem carries_source : Carries exact source :=
  .space_bind (.bind (carries_word (by simp)) fun _ => .space_bind carries_specifier readsSolid_specifier)
    (readsSolid_word rfl).bind

theorem carries_wordEdge : Carries exact Scan.wordEdge := by
  refine ⟨fun {pre pre' t w' v' o} hpre ht h => ?_⟩
  obtain ⟨rfl, hedge⟩ := reads_wordEdge.1 h
  rw [hpre, show v'.head? = t.head? from ht.head?] at hedge
  exact ⟨[], t, (), rfl, reads_wordEdge.2 ⟨rfl, hedge⟩, fun _ => ⟨rfl, .nil, ht⟩⟩

theorem carries_statementStart : Carries exact statementStart := by
  refine ⟨fun {pre pre' t w' v' sep} hpre ht h => ?_⟩
  obtain ⟨rfl, hsep⟩ := reads_statementStart.1 h
  have hn : '\n' ∉ w' := by rcases hsep with ⟨rfl, -⟩ | rfl <;> simp
  obtain ⟨v, rfl, hv⟩ := ht.exists_append hn
  have hsep' : Separates pre w' := hsep.imp_left fun ⟨hnil, hline⟩ => ⟨hnil, fun c hc => hline c (hpre ▸ hc)⟩
  exact ⟨w', v, w', rfl, reads_statementStart.2 ⟨rfl, hsep'⟩, fun _ => ⟨rfl, .refl w', hv⟩⟩

/-- At its end a statement need not read anything. -/
theorem carries_remainder (sep : Text) :
    Carries false (statementEnd >>= fun newline => pure (remainder sep newline)) := by
  refine ⟨fun {pre pre' t w' v' r} _ _ _ => ⟨[], t, remainder sep [], rfl, ?_, by simp⟩⟩
  have hindent : indent.Reads pre [] t () := reads_many.2 (by simp)
  have hnone {γ : Type} {m : Scan γ} : m.maybe.Reads pre [] t none := reads_maybe.2 (.inr ⟨rfl, rfl⟩)
  have hend : statementEnd.Reads pre [] t [] := by
    simp only [statementEnd, reads_bind]
    exact ⟨[], [], (), rfl, hindent, [], [], none, rfl, by simpa using hnone, [], [], (), rfl, by simpa using hindent,
      [], [], none, rfl, by simpa using hnone, reads_pure.2 ⟨rfl, rfl⟩⟩
  exact reads_bind.2 ⟨[], [], [], rfl, hend, reads_pure.2 ⟨rfl, rfl⟩⟩

/-! ### The forms -/

theorem Carries.type_bind {f : Option Unit → Scan β} (hf : ∀ o, Carries exact (f o)) (hsolid : ∀ o, ReadsSolid (f o)) :
    Carries exact (Scan.maybe (do Scan.word "type"; space1) >>= f) :=
  .maybe_bind (.assoc (.bind (carries_word (by simp)) fun _ => .space1_bind (hf _) (hsolid _))) (hf _)

theorem Carries.typeList_bind {f : Option Unit → Scan β} (hf : ∀ o, Carries exact (f o))
    (hsolid : ∀ o, ReadsSolid (f o)) : Carries exact (Scan.maybe (do Scan.word "type"; space) >>= f) :=
  .maybe_bind (.assoc (.bind (carries_word (by simp)) fun _ => .space_bind (hf _) (hsolid _))) (hf _)

theorem Carries.leadingName_bind {f : Option Unit → Scan β} (hf : ∀ o, Carries exact (f o))
    (hsolid : ∀ o, ReadsSolid (f o)) : Carries exact (Scan.maybe (do anyName; space; Scan.word ","; space) >>= f) :=
  .maybe_bind (.assoc (.bind carries_anyName fun _ => .assoc (.space_bind
    (.assoc (.bind (carries_word (by simp)) fun _ => .space_bind (hf _) (hsolid _))) (readsSolid_word rfl).bind.bind)))
    (hf _)

theorem carries_bindings : Carries exact (braces <|> (do Scan.word "*"; space; asName) <|> anyName) :=
  carries_braces.or (.or (.bind (carries_word (by simp)) fun _ => .space_bind carries_asName readsSolid_asName)
    carries_anyName)

theorem carries_attributes :
    Carries exact (do space; let _ ← Scan.oneOf ["with", "assert"]; space; braces : Scan Unit) :=
  .space_bind (.bind (carries_oneOf (by simp)) fun _ => .space_bind carries_braces readsSolid_braces)
    readsSolid_attributes.bind

theorem carries_importFrom : Carries false importFrom :=
  .bind carries_statementStart fun sep => .bind carries_indent fun _ => .bind (carries_word (by simp)) fun _ =>
    .bind carries_wordEdge fun _ => .space_bind
      (.type_bind
        (fun _ => .leadingName_bind
          (fun _ => .bind carries_bindings fun _ => .space_bind
            (.bind (carries_word (by simp)) fun _ => .space_bind
              (.bind carries_specifier fun _ => .bind carries_attributes.maybe fun _ => carries_remainder sep)
              readsSolid_specifier.bind)
            (readsSolid_word rfl).bind)
          fun _ => readsSolid_bindings.bind)
        fun _ => .maybe_bind readsSolid_anyName.bind readsSolid_bindings.bind)
      (.maybe_bind (readsSolid_word rfl).bind (.maybe_bind readsSolid_anyName.bind readsSolid_bindings.bind))

theorem carries_importOnly : Carries false importOnly :=
  .bind carries_statementStart fun sep => .bind carries_indent fun _ => .bind (carries_word (by simp)) fun _ =>
    .space_bind (.bind carries_specifier fun _ => carries_remainder sep) readsSolid_specifier.bind

theorem carries_exportList : Carries false exportList :=
  .bind carries_statementStart fun sep => .bind carries_indent fun _ => .bind (carries_word (by simp)) fun _ =>
    .space_bind
      (.typeList_bind (fun _ => .bind carries_braces fun _ => .bind carries_source.maybe fun _ => carries_remainder sep)
        fun _ => readsSolid_braces.bind)
      (.maybe_bind (readsSolid_word rfl).bind readsSolid_braces.bind)

theorem carries_exportAll : Carries false exportAll :=
  have hname : Carries true (do space; asName : Scan Unit) := .space_bind carries_asName readsSolid_asName
  .bind carries_statementStart fun sep => .bind carries_indent fun _ => .bind (carries_word (by simp)) fun _ =>
    .space_bind
      (.bind (carries_word (by simp)) fun _ => .bind hname.maybe fun _ => .bind carries_source fun _ =>
        carries_remainder sep)
      (readsSolid_word rfl).bind

/-- At the end of `export default` a single character of white space is enough. -/
theorem carries_space1_pure (a : α) : Carries false (space1 >>= fun _ => (pure a : Scan α)) := by
  refine ⟨fun {pre pre' t w' v' a'} _ ht h => ?_⟩
  obtain ⟨x, y, _, rfl, hx, hy⟩ := reads_bind.1 h
  obtain ⟨rfl, rfl⟩ := reads_pure.1 hy
  obtain ⟨hne, hblank⟩ := reads_many1.1 hx
  obtain ⟨c, x, rfl⟩ := List.exists_cons_of_ne_nil hne
  obtain ⟨t, rfl⟩ : ∃ s, t = c :: s := List.head?_eq_some_iff.1 (by rw [← ht.head?]; rfl)
  have hread : space1.Reads pre [c] t () := reads_many1.2 ⟨by simp, by simpa using hblank c (by simp)⟩
  exact ⟨[c], t, a', rfl, reads_bind.2 ⟨[c], [], (), rfl, hread, reads_pure.2 ⟨rfl, rfl⟩⟩, by simp⟩

theorem carries_exportDefault : Carries false exportDefault :=
  .bind carries_statementStart fun sep => .bind carries_margin fun margin => .bind (carries_word (by simp)) fun _ =>
    .space1_bind (.bind (carries_word (by simp)) fun _ => carries_space1_pure (sep ++ margin))
      (readsSolid_word rfl).bind

theorem carries_exportModifier : Carries false exportModifier :=
  .bind carries_statementStart fun sep => .bind carries_margin fun margin => .bind (carries_word (by simp)) fun _ =>
    .space1_bind
      (.bind (carries_oneOf (by simp [modifiers])) fun modifier => .bind carries_wordEdge fun _ => carries_pure _)
      readsSolid_modifiers.bind

theorem carries_of_mem_forms (hf : form ∈ forms) : Carries false form := by
  simp only [forms, List.mem_cons, List.not_mem_nil, or_false] at hf
  rcases hf with rfl | rfl | rfl | rfl | rfl | rfl
  exacts [carries_importFrom, carries_importOnly, carries_exportList, carries_exportAll, carries_exportDefault,
    carries_exportModifier]

/-! ### Texts -/

/-- In a run of blank lines no statement starts. -/
theorem fails_run {z : Text} (hf : form ∈ forms) (hlast : r.getLast? = some '\n') (hr : ∀ c ∈ r, isSpread c) :
    form.Fails pre (r ++ z) := by
  rw [fails_iff]
  rintro w post a hw h
  obtain ⟨kw, sep, margin, v, hkw, hop⟩ := opens_of_mem_forms hf h
  have hsolid : Solid (kw ++ (v ++ post)) := by
    simp only [List.mem_cons, List.not_mem_nil, or_false] at hkw
    rcases hkw with rfl | rfl <;> exact ⟨_, _, rfl, rfl⟩
  have hsplit : r ++ z = sep ++ (margin ++ (kw ++ (v ++ post))) := by rw [hw, hop.eq]; simp
  obtain ⟨c, s, rfl⟩ : ∃ c s, r = c :: s := List.exists_cons_of_ne_nil (by rintro rfl; simp at hlast)
  rcases hop.separates with ⟨rfl, -⟩ | rfl
  · have hmargin : '\n' ∉ margin := fun hn => absurd (hop.margin _ hn) (by decide)
    rw [List.nil_append] at hsplit
    rcases List.append_eq_append_iff.1 hsplit with ⟨x, rfl, -⟩ | ⟨x, hx, hkx⟩
    · exact hmargin (List.mem_append_left _ (List.mem_of_getLast? hlast))
    · cases x with
      | nil => exact hmargin (by simpa [hx] using List.mem_of_getLast? hlast)
      | cons d x =>
        have hd := hsolid.not_isBlank d (by rw [hkx]; rfl)
        exact hd (isBlank_of_isSpread (hr d (by rw [hx]; simp)))
  · obtain ⟨rfl, -⟩ := List.cons.inj hsplit
    exact absurd (hr ';' (by simp)) (by decide)

theorem Respaced.noSyntax (h : Respaced t t') (ht : NoSyntax t) : NoSyntax t' := by
  rintro form hf u' v' rfl
  rcases h.split with ⟨u, v, rfl, hu, hv⟩ | ⟨r, z, rfl, hlast, hr⟩
  · rw [fails_iff]
    rintro w' post' a' rfl hread
    obtain ⟨w, post, a, rfl, hread', -⟩ := (carries_of_mem_forms hf).reads hu.getLast? hv hread
    exact fails_iff.1 (ht form hf u (w ++ post) rfl) w post a rfl hread'
  · exact fails_run hf hlast hr

theorem Respaced.noSyntax_iff (h : Respaced t t') : NoSyntax t ↔ NoSyntax t' := ⟨h.noSyntax, h.symm.noSyntax⟩

theorem respaced_of_spliced {K : Text → Text → Prop} {post out : Text}
    (h : Spliced K (some <$> blankLines).Changes pre t post out) : Respaced t out := by
  induction h with
  | done => exact .nil
  | keep _ _ ih => exact .keep _ ih
  | put hr _ _ ih =>
    obtain ⟨hhead, hlast, hspread, rfl⟩ := changes_blankLines hr
    exact .run ⟨hhead, hlast, hspread⟩ ⟨rfl, rfl, by simpa using by decide⟩ ih

/-- Merging blank lines neither brings about a statement nor hides one. -/
theorem noSyntax_blankLines (t : Text) : NoSyntax (blankLines.replace t) ↔ NoSyntax t :=
  (respaced_of_spliced (spliced_edit (some <$> blankLines) t).changes).noSyntax_iff.symm

end AppsScript.ModuleSyntax
