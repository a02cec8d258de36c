import AppsScript.Proofs.BlankLines
import AppsScript.Proofs.LoggerCalls
import AppsScript.Proofs.ModuleForms

/-!
# Texts without module syntax

`NoSyntax t` says that none of the forms finds a statement in `t`. Then `remove` leaves `t` as it is, and it
leaves nothing else as it is (`remove_eq_self_iff`). Such a text stays one when pieces of it are replaced that
no statement takes notice of (`NoSyntax.of_spliced`): these pieces can lie only where a form reads any
characters, between braces or quotes, and there it reads what was replaced as well. That is shown part by part
(`Keeps`).
-/

namespace AppsScript.ModuleSyntax

open Source Scan Text

variable {α β : Type} {pre pre' w post t u v x y out r r₁ r₂ : Text} {c : Char} {form : Scan Text}

/-- No form reads anything in the text. -/
def NoSyntax (t : Text) : Prop := ∀ form ∈ forms, ∀ u v, t = u ++ v → form.Fails u v

/-! ### Texts that `remove` leaves as they are -/

theorem exhaust_eq_or_lt (hf : form.Shortens) (rounds : Nat) (t : Text) :
    exhaust form rounds t = t ∨ (exhaust form rounds t).length < t.length := by
  induction rounds generalizing t with
  | zero => exact .inl rfl
  | succ rounds ih =>
    rw [exhaust]
    split_ifs with heq
    · exact .inl rfl
    · have hlt := hf.replace_length heq
      rcases ih (form.replace t) with h | h
      · exact .inr (by rwa [h])
      · exact .inr (h.trans hlt)

/-- Either nothing is removed at all, or the text becomes shorter. -/
theorem foldl_removeForm_eq_or_lt {fs : List (Scan Text)} (hfs : ∀ f ∈ fs, f ∈ forms) (t : Text) :
    (fs.foldl removeForm t = t ∧ ∀ f ∈ fs, removeForm t f = t) ∨ (fs.foldl removeForm t).length < t.length := by
  induction fs generalizing t with
  | nil => simp
  | cons f fs ih =>
    have ih := ih fun g hg => hfs g (List.mem_cons_of_mem _ hg)
    have hf : f.Shortens := shortens_of_mem_forms (hfs f (by simp))
    rw [List.foldl_cons]
    rcases exhaust_eq_or_lt hf t.length t with h | h
    · have heq : removeForm t f = t := h
      rw [heq]
      refine (ih t).imp_left fun ⟨hfold, hall⟩ => ⟨hfold, ?_⟩
      simpa [heq] using hall
    · have hlt : (removeForm t f).length < t.length := h
      rcases ih (removeForm t f) with ⟨hfold, -⟩ | hfold
      · exact .inr (by rwa [hfold])
      · exact .inr (hfold.trans hlt)

theorem shortens_blankLines : blankLines.Shortens := by
  intro pre w post r h
  obtain ⟨b, v, rfl, -, -, rfl⟩ := reads_blankLines.1 h
  simp only [String.reduceToList, List.length_cons, List.length_append, List.length_nil]
  omega

theorem replace_of_fails (h : ∀ u v, t = u ++ v → form.Fails u v) : form.replace t = t := by
  refine (spliced_edit (some <$> form) t).changes.eq_of_forall fun x w y r ht hr => ?_
  exact fails_iff.1 (fails_map (h x (w ++ y) ht)) w y _ rfl (by simpa using hr.reads)

theorem removeForm_of_fails (h : ∀ u v, t = u ++ v → form.Fails u v) : removeForm t form = t :=
  removeForm_eq (replace_of_fails h) (replace_of_fails h)

theorem foldl_removeForm_of_noSyntax (h : NoSyntax t) {fs : List (Scan Text)} (hfs : ∀ f ∈ fs, f ∈ forms) :
    fs.foldl removeForm t = t := by
  induction fs with
  | nil => rfl
  | cons f fs ih =>
    rw [List.foldl_cons, removeForm_of_fails (h f (hfs f (by simp))), ih fun g hg => hfs g (List.mem_cons_of_mem _ hg)]

/-- Removing module syntax changes a text exactly if there is some. -/
theorem remove_eq_self_iff : remove t = t ↔ NoSyntax t := by
  constructor
  · intro h
    have hbare : forms.foldl removeForm t = t ∧ ∀ f ∈ forms, removeForm t f = t := by
      refine (foldl_removeForm_eq_or_lt (fun f hf => hf) t).resolve_right fun hlt => ?_
      have hne : forms.foldl removeForm t ≠ t := fun heq => by simp [heq] at hlt
      rw [remove, if_neg hne] at h
      have hle := (shortens_blankLines.spliced (spliced_edit (some <$> blankLines) (forms.foldl removeForm t))).1
      rw [show (some <$> blankLines).edit _ = t from h] at hle
      omega
    intro form hf u v huv
    exact fails_of_removeForm hf u v ((hbare.2 form hf).trans huv)
  · intro h
    rw [remove, if_pos (foldl_removeForm_of_noSyntax h fun f hf => hf)]

/-! ### Pieces that no statement takes notice of -/

/-- Where a name has ended in a piece, no form can go on. -/
def Blocks (t : Text) : Prop := ∃ c ∈ t.head?, isBlank c = false ∧ c ≠ ',' ∧ c ≠ 'f'

/-- Both what is replaced and what is put there stand where only a form that reads any characters can read
them. -/
structure Unnoticed (R : (pre w post r : Text) → Prop) : Prop where
  before : ∀ {pre w post r}, R pre w post r → pre.getLast?.any Char.isAlphanum = false
  last : ∀ {pre w post r}, R pre w post r → r.getLast? = w.getLast?
  clean : ∀ {pre w post r}, R pre w post r → ∀ c ∈ w ++ r, c ∉ ['"', '\'', '\x7b', '\x7d', ';', '\n']
  strange : ∀ {pre w post r}, R pre w post r → '/' ∈ r ∨ '.' ∈ r
  start : ∀ {pre w post r}, R pre w post r → r.head? = some '/' ∨ r.head? = some 'L'
  cut : ∀ {pre w post r₁ r₂}, R pre w post (r₁ ++ r₂) → r₁ ≠ [] → r₂ ≠ [] → (∀ c ∈ r₁, isName c) → Blocks r₂

variable {R : Text → Text → Text → Text → Prop}

theorem Unnoticed.ne_nil (hR : Unnoticed R) (h : R pre w post r) : r ≠ [] := by
  rintro rfl
  rcases hR.start h with h | h <;> simp at h

theorem Unnoticed.notMem (hR : Unnoticed R) (h : R pre w post r) (hc : c ∈ ['"', '\'', '\x7b', '\x7d', ';', '\n']) :
    c ∉ w ∧ c ∉ r :=
  ⟨fun hw => hR.clean h c (List.mem_append_left _ hw) hc, fun hr => hR.clean h c (List.mem_append_right _ hr) hc⟩

/-- What the scan reads in an outcome it reads in the text too, and where it ends in a piece, `P` holds of the
rest of the piece. -/
structure Keeps (R : (pre w post r : Text) → Prop) (P : Text → Prop) (m : Scan α) : Prop where
  reads : ∀ {pre pre' x y w v a}, pre'.getLast? = pre.getLast? → Spliced (fun _ _ => True) R pre x y w →
    Spliced (fun _ _ => True) R (pre ++ x) y [] v → m.Reads pre' w v a → m.Reads pre x y a
  cut : ∀ {pre w post r₁ r₂ pre' u v a}, R pre w post (r₁ ++ r₂) → r₁ ≠ [] → r₂ ≠ [] →
    m.Reads pre' (u ++ r₁) (r₂ ++ v) a → P r₂

/-- The scan never ends in a piece. -/
abbrev KeepsWhole (R : (pre w post r : Text) → Prop) (m : Scan α) : Prop := Keeps R (fun _ => False) m

variable {m n : Scan α} {f : α → Scan β} {P Q : Text → Prop}

theorem Keeps.mono (h : KeepsWhole R m) : Keeps R P m :=
  ⟨h.reads, fun hr h₁ h₂ hm => (h.cut hr h₁ h₂ hm).elim⟩

theorem Keeps.or (hm : Keeps R P m) (hn : Keeps R P n) : Keeps R P (m <|> n) where
  reads hpre hw hv h := reads_or.2 ((reads_or.1 h).imp (hm.reads hpre hw hv) (hn.reads hpre hw hv))
  cut hr h₁ h₂ h := (reads_or.1 h).elim (hm.cut hr h₁ h₂) (hn.cut hr h₁ h₂)

theorem eq_nil_of_spliced (hR : Unnoticed R) {K : Text → Text → Prop} (h : Spliced K R pre x y []) : x = [] := by
  generalize hw : ([] : Text) = w at h
  cases h with
  | done => rfl
  | keep => simp at hw
  | put hr => exact absurd (List.append_eq_nil_iff.1 hw.symm).1 (hR.ne_nil hr)

theorem keeps_pure (hR : Unnoticed R) (a : α) : Keeps R P (pure a : Scan α) where
  reads hpre hw hv h := by
    obtain ⟨rfl, rfl⟩ := reads_pure.1 h
    exact reads_pure.2 ⟨eq_nil_of_spliced hR hw, rfl⟩
  cut hr h₁ h₂ h := absurd (List.append_eq_nil_iff.1 (reads_pure.1 h).1).2 h₁

theorem Keeps.maybe (hR : Unnoticed R) (hm : Keeps R P m) : Keeps R P m.maybe where
  reads hpre hw hv h := by
    rcases reads_maybe.1 h with ⟨a, ha, rfl⟩ | ⟨rfl, rfl⟩
    · exact reads_maybe.2 (.inl ⟨a, hm.reads hpre hw hv ha, rfl⟩)
    · exact reads_maybe.2 (.inr ⟨eq_nil_of_spliced hR hw, rfl⟩)
  cut hr h₁ h₂ h := by
    rcases reads_maybe.1 h with ⟨a, ha, rfl⟩ | ⟨hnil, -⟩
    · exact hm.cut hr h₁ h₂ ha
    · exact absurd (List.append_eq_nil_iff.1 hnil).2 h₁

theorem Keeps.bind_of (hR : Unnoticed R) (hm : Keeps R P m) (hf : ∀ a, Keeps R Q (f a))
    (hdead : ∀ {a r₂ pre v w post b}, P r₂ → r₂ ≠ [] → (f a).Reads pre w post b → w ++ post ≠ r₂ ++ v) :
    Keeps R Q (m >>= f) where
  reads {pre pre' x y w v b} hpre hw hv h := by
    obtain ⟨w₁, w₂, a, rfl, h₁, h₂⟩ := reads_bind.1 h
    rcases hw.split rfl with ⟨x₁, x₂, rfl, hx₁, hx₂⟩ | ⟨_, _, _, u', r₁, r₂, v', -, -, -, hr, hr₁, hr₂, -, rfl, rfl⟩
    · rw [← List.append_assoc] at hv
      have hrest : Spliced (fun _ _ => True) R (pre ++ x₁) (x₂ ++ y) [] (w₂ ++ v) :=
        Spliced.append (by simpa using hx₂) hv
      exact reads_bind.2 ⟨x₁, x₂, a, rfl, hm.reads hpre hx₁ hrest h₁,
        (hf a).reads (hx₁.getLast?_append_eq hpre hR.last) hx₂ hv h₂⟩
    · rw [List.append_assoc] at h₁
      exact absurd (List.append_assoc ..) (hdead (hm.cut hr hr₁ hr₂ h₁) hr₂ h₂)
  cut {pre w post r₁ r₂ pre' u v b} hr h₁ h₂ h := by
    obtain ⟨w₁, w₂, a, heq, hw₁, hw₂⟩ := reads_bind.1 h
    rcases List.append_eq_append_iff.1 heq with ⟨s, rfl, rfl⟩ | ⟨s, rfl, rfl⟩
    · by_cases hs : s = []
      · subst hs
        exact (hf a).cut (u := []) hr h₁ h₂ hw₂
      · -- the first scan has ended in the piece already
        rw [List.append_assoc] at hr
        rw [← List.append_assoc w₂] at hw₁
        have hP := hm.cut hr hs (by simp [h₂]) hw₁
        exact absurd (List.append_assoc ..).symm (hdead hP (by simp [h₂]) hw₂)
    · exact (hf a).cut hr h₁ h₂ hw₂

theorem Keeps.bind (hR : Unnoticed R) (hm : KeepsWhole R m) (hf : ∀ a, Keeps R Q (f a)) : Keeps R Q (m >>= f) :=
  Keeps.bind_of hR hm hf fun h => h.elim

/-- What a scan reads starts with white space, a comma or an `f`. -/
def Starts (m : Scan α) : Prop := ∀ {pre w post a}, m.Reads pre w post a →
  ∃ c ∈ w.head?, isBlank c = true ∨ c = ',' ∨ c = 'f'

theorem Keeps.bind_name (hR : Unnoticed R) (hm : Keeps R Blocks m) (hf : ∀ a, Keeps R Q (f a))
    (hstarts : ∀ a, Starts (f a)) : Keeps R Q (m >>= f) := by
  refine Keeps.bind_of hR hm hf fun {a r₂ pre v w post b} hr₂ hne h heq => ?_
  obtain ⟨c, hc, hstart⟩ := hstarts a h
  obtain ⟨d, hd, hblank, hcomma, hf⟩ := hr₂
  have hhead : (w ++ post).head? = (r₂ ++ v).head? := by rw [heq]
  rw [List.head?_append_of_ne_nil _ hne, List.head?_append_of_ne_nil _ (by rintro rfl; simp at hc), hc, hd] at hhead
  obtain rfl := Option.some.inj hhead
  rcases hstart with hstart | rfl | rfl
  · rw [hblank] at hstart
    exact absurd hstart (by simp)
  · exact hcomma rfl
  · exact hf rfl

/-! ### Parts of statements -/

/-- A text without the characters that every piece has comes from the text as it is. -/
theorem eq_of_spliced (hR : Unnoticed R) {K : Text → Text → Prop} (h : Spliced K R pre x y w) (hw : '/' ∉ w ∧ '.' ∉ w) :
    x = w := by
  induction h with
  | done => rfl
  | keep _ _ ih => rw [ih ⟨fun h => hw.1 (List.mem_cons_of_mem _ h), fun h => hw.2 (List.mem_cons_of_mem _ h)⟩]
  | put hr _ _ _ =>
    rcases hR.strange hr with h | h
    · exact absurd (List.mem_append_left _ h) hw.1
    · exact absurd (List.mem_append_left _ h) hw.2

theorem keepsWhole_of_words {p : Text → α → Prop} (hR : Unnoticed R)
    (hm : ∀ {pre w post a}, m.Reads pre w post a ↔ p w a) (hp : ∀ {w a}, p w a → '/' ∉ w ∧ '.' ∉ w ∧ 'L' ∉ w) :
    KeepsWhole R m where
  reads hpre hw hv h := by
    have hw' := hp (hm.1 h)
    rw [eq_of_spliced hR hw ⟨hw'.1, hw'.2.1⟩]
    exact hm.2 (hm.1 h)
  cut {_ _ _ r₁ r₂ _ _ _ _} hr h₁ h₂ h := by
    obtain ⟨hslash, -, hL⟩ := hp (hm.1 h)
    have hstart := hR.start hr
    rw [List.head?_append_of_ne_nil _ h₁] at hstart
    rcases hstart with hz | hz
    · exact hslash (List.mem_append_right _ (List.mem_of_head? hz))
    · exact hL (List.mem_append_right _ (List.mem_of_head? hz))

theorem keeps_word (hR : Unnoticed R) {q : Text} (hq : '/' ∉ q ∧ '.' ∉ q ∧ 'L' ∉ q) : KeepsWhole R (Scan.word q) :=
  keepsWhole_of_words (p := fun w _ => w = q) hR reads_word fun h => h ▸ hq

theorem keeps_blanks (hR : Unnoticed R) {p : Char → Bool} (hp : ∀ c, p c = true → isBlank c = true) :
    KeepsWhole R (Scan.many p) := by
  refine keepsWhole_of_words (p := fun w _ => ∀ c ∈ w, p c = true) hR reads_many fun {w _} h => ?_
  have hblank : AllBlank w := fun c hc => hp c (h c hc)
  exact ⟨hblank.notMem (by decide), hblank.notMem (by decide), hblank.notMem (by decide)⟩

theorem keeps_indent (hR : Unnoticed R) : KeepsWhole R indent := keeps_blanks hR fun _ => isBlank_of_isIndent

theorem keeps_space (hR : Unnoticed R) : KeepsWhole R space := keeps_blanks hR fun _ h => h

theorem keeps_space1 (hR : Unnoticed R) : KeepsWhole R space1 := by
  refine keepsWhole_of_words (p := fun w _ => w ≠ [] ∧ AllBlank w) hR reads_many1 fun {w _} h => ?_
  exact ⟨h.2.notMem (by decide), h.2.notMem (by decide), h.2.notMem (by decide)⟩

theorem keeps_oneOf (hR : Unnoticed R) {ws : List Text} (hws : ∀ q ∈ ws, '/' ∉ q ∧ '.' ∉ q ∧ 'L' ∉ q) :
    KeepsWhole R (Scan.oneOf ws) :=
  keepsWhole_of_words (p := fun w a => a ∈ ws ∧ w = a) hR reads_oneOf fun h => h.2 ▸ hws _ h.1

theorem Keeps.text (hR : Unnoticed R) {m : Scan Unit} {p : Text → Prop} (hm : ∀ {pre w post a}, m.Reads pre w post a ↔ p w)
    (hp : ∀ {w}, p w → '/' ∉ w ∧ '.' ∉ w ∧ 'L' ∉ w) : KeepsWhole R m.text := by
  refine keepsWhole_of_words (p := fun w a => a = w ∧ p w) hR (fun {pre w post a} => ?_) fun h => hp h.2
  rw [reads_text]
  simp only [hm, exists_const]

theorem keeps_margin (hR : Unnoticed R) : KeepsWhole R indent.text :=
  Keeps.text hR reads_indent fun h =>
    ⟨h.allBlank.notMem (by decide), h.allBlank.notMem (by decide), h.allBlank.notMem (by decide)⟩

theorem keeps_statementStart (hR : Unnoticed R) : KeepsWhole R statementStart where
  reads {pre pre' x y w v sep} hpre hw hv h := by
    obtain ⟨rfl, hsep⟩ := reads_statementStart.1 h
    have hx : x = w := eq_of_spliced hR hw (by rcases hsep with ⟨rfl, -⟩ | rfl <;> simp)
    refine reads_statementStart.2 ⟨hx, hsep.imp_left fun ⟨hnil, hline⟩ => ⟨hnil, ?_⟩⟩
    rwa [AtLineStart, hpre] at hline
  cut {_ _ _ r₁ r₂ _ _ _ _} hr h₁ h₂ h := by
    obtain ⟨heq, hsep⟩ := reads_statementStart.1 h
    rcases hsep with ⟨rfl, -⟩ | rfl
    · exact h₁ (List.append_eq_nil_iff.1 heq).2
    · obtain ⟨d, r₁, rfl⟩ := List.exists_cons_of_ne_nil h₁
      have hmem : d ∈ [';'] := by rw [← heq]; simp
      exact hR.clean hr d (by simp) (by simp [List.mem_singleton.1 hmem])

theorem keeps_lineBreak (hR : Unnoticed R) : KeepsWhole R lineBreak.text := by
  refine Keeps.text (p := fun w => w = "\r\n" ∨ w = "\n") hR (fun {pre w post a} => ?_) fun h => by
    rcases h with rfl | rfl <;> simp
  simp only [lineBreak, reads_bind, reads_maybe, reads_word]
  constructor
  · rintro ⟨_, _, _, rfl, ⟨_, rfl, -⟩ | ⟨rfl, -⟩, rfl⟩
    · exact .inl rfl
    · exact .inr rfl
  · rintro (rfl | rfl)
    · exact ⟨"\r", "\n", some (), rfl, .inl ⟨(), rfl, rfl⟩, rfl⟩
    · exact ⟨[], "\n", none, rfl, .inr ⟨rfl, rfl⟩, rfl⟩

theorem keeps_statementEnd (hR : Unnoticed R) : KeepsWhole R statementEnd :=
  .bind hR (keeps_indent hR) fun _ => .bind hR (.maybe hR (keeps_word hR (by simp))) fun _ =>
    .bind hR (keeps_indent hR) fun _ => .bind hR (.maybe hR (keeps_lineBreak hR)) fun _ => keeps_pure hR _

/-- What stands between two characters that are in no piece. -/
theorem keeps_delimited (hR : Unnoticed R) {m : Scan Unit} (opens closes p : Char → Prop)
    (hm : ∀ {pre w post o}, m.Reads pre w post o ↔ ∃ a s b, w = a :: (s ++ [b]) ∧ opens a ∧ (∀ c ∈ s, p c) ∧ closes b)
    (hopens : ∀ c, opens c → c ∈ ['"', '\'', '\x7b', '\x7d', ';', '\n'])
    (hcloses : ∀ c, closes c → c ∈ ['"', '\'', '\x7b', '\x7d', ';', '\n'])
    (hp : ∀ c, c ∉ ['"', '\'', '\x7b', '\x7d', ';', '\n'] → p c) : KeepsWhole R m where
  reads {pre pre' x y w v o} hpre hw hv h := by
    obtain ⟨a, s, b, rfl, ha, hs, hb⟩ := hm.1 h
    obtain ⟨x₀, x, rfl, hx₀, hx⟩ := hw.split_char (u := []) rfl fun hr => ⟨hR.ne_nil hr, (hR.notMem hr (hopens a ha)).2⟩
    obtain rfl := eq_nil_of_spliced hR hx₀
    obtain ⟨s', e, rfl, hs', he⟩ := hx.split_char rfl fun hr => ⟨hR.ne_nil hr, (hR.notMem hr (hcloses b hb)).2⟩
    obtain rfl := eq_nil_of_spliced hR he
    refine hm.2 ⟨a, s', b, rfl, ha, hs'.forall_mem hs fun hr c hc => hp c ?_, hb⟩
    exact hR.clean hr c (List.mem_append_left _ hc)
  cut {_ _ _ r₁ r₂ _ u _ _} hr h₁ h₂ h := by
    obtain ⟨a, s, b, heq, -, -, hb⟩ := hm.1 h
    have hlast : (u ++ r₁).getLast? = some b := by
      rw [heq, ← List.cons_append, List.getLast?_concat]
    rw [List.getLast?_append_of_ne_nil _ h₁] at hlast
    have hmem := List.mem_of_getLast? hlast
    exact hR.clean hr b (by simp [hmem]) (hcloses b hb)

theorem keeps_braces (hR : Unnoticed R) : KeepsWhole R braces := by
  refine keeps_delimited hR (· = '\x7b') (· = '\x7d') (· ≠ '\x7d') (fun {pre w post o} => ?_) (by simp) (by simp)
    (by simp +contextual)
  simp only [braces, reads_bind, reads_word, reads_many, bne_iff_ne]
  constructor
  · rintro ⟨_, _, _, rfl, rfl, s, _, _, rfl, hs, rfl⟩
    exact ⟨_, s, _, rfl, rfl, hs, rfl⟩
  · rintro ⟨_, s, _, rfl, rfl, hs, rfl⟩
    exact ⟨"\x7b", _, (), rfl, rfl, s, _, (), rfl, hs, rfl⟩

theorem keeps_specifier (hR : Unnoticed R) : KeepsWhole R specifier := by
  refine keeps_delimited hR (· ∈ ['"', '\'']) (· ∈ ['"', '\'']) (· ∉ ['"', '\'', '\n']) (fun {pre w post o} => ?_)
    (by simp +contextual) (by simp +contextual) (by simp +contextual)
  simp only [specifier, reads_bind, reads_char, reads_many, reads_pure, decide_eq_true_eq]
  constructor
  · rintro ⟨_, _, a, rfl, ⟨rfl, ha⟩, s, _, _, rfl, hs, _, _, b, rfl, ⟨rfl, hb⟩, rfl, -⟩
    exact ⟨a, s, b, rfl, ha, hs, hb⟩
  · rintro ⟨a, s, b, rfl, ha, hs, hb⟩
    exact ⟨[a], _, a, rfl, ⟨rfl, ha⟩, s, [b], (), rfl, hs, [b], [], b, rfl, ⟨rfl, hb⟩, rfl, trivial⟩

theorem keeps_anyName (hR : Unnoticed R) : Keeps R Blocks anyName where
  reads hpre hw hv h := by
    obtain ⟨hne, hname⟩ := reads_many1.1 h
    have hnot {c : Char} (hc : isName c = false) : c ∉ _ := fun hmem => by
      have := hname c hmem
      rw [hc] at this
      exact absurd this (by simp)
    rw [eq_of_spliced hR hw ⟨hnot (by decide), hnot (by decide)⟩]
    exact reads_many1.2 ⟨hne, hname⟩
  cut hr h₁ h₂ h := hR.cut hr h₁ h₂ fun c hc => (reads_many1.1 h).2 c (List.mem_append_right _ hc)

theorem keeps_asName (hR : Unnoticed R) : Keeps R Blocks asName :=
  .bind hR (keeps_word hR (by simp)) fun _ => .bind hR (keeps_space1 hR) fun _ => keeps_anyName hR

theorem Keeps.congr (h : ∀ {pre w post a}, m.Reads pre w post a ↔ n.Reads pre w post a) (hn : Keeps R P n) :
    Keeps R P m :=
  ⟨fun hpre hw hv hm => h.2 (hn.reads hpre hw hv (h.1 hm)), fun hr h₁ h₂ hm => hn.cut hr h₁ h₂ (h.1 hm)⟩

theorem reads_edge {a : α} : (m >>= fun a => wordEdge >>= fun _ => pure a).Reads pre w post a ↔
    m.Reads pre w post a ∧ (pre ++ w).getLast?.any isWord ≠ post.head?.any isWord := by
  simp only [reads_bind, reads_wordEdge, reads_pure]
  constructor
  · rintro ⟨u, _, a, rfl, hm, _, _, _, rfl, ⟨rfl, hedge⟩, rfl, rfl⟩
    exact ⟨by simpa using hm, by simpa using hedge⟩
  · rintro ⟨hm, hedge⟩
    exact ⟨w, [], a, by simp, by simpa using hm, [], [], (), rfl, ⟨rfl, by simpa using hedge⟩, rfl, rfl⟩

/-- No piece stands behind a word, so that where one ends in an outcome one ends in the text. -/
theorem Keeps.edge (hR : Unnoticed R) (hm : KeepsWhole R m)
    (hlast : ∀ {pre w post a}, m.Reads pre w post a → w.getLast?.any Char.isAlphanum = true) :
    KeepsWhole R (m >>= fun a => wordEdge >>= fun _ => pure a) where
  reads {pre pre' x y w v a} hpre hw hv h := by
    obtain ⟨hreads, hedge⟩ := reads_edge.1 h
    have hword := hlast hreads
    have hne : w ≠ [] := by
      rintro rfl
      simp at hword
    have hlast' : (pre' ++ w).getLast? = (pre ++ x).getLast? := hw.getLast?_append_eq hpre hR.last
    have hhead : v.head? = y.head? := by
      have hreads' := hm.reads hpre hw hv hreads
      generalize pre ++ x = p at hv hlast'
      cases hv with
      | done => rfl
      | keep => rfl
      | put hr =>
        have hbefore := hR.before hr
        rw [← hlast', List.getLast?_append_of_ne_nil _ hne, hword] at hbefore
        exact absurd hbefore (by simp)
    rw [hlast', hhead] at hedge
    exact reads_edge.2 ⟨hm.reads hpre hw hv hreads, hedge⟩
  cut hr h₁ h₂ h := hm.cut hr h₁ h₂ (reads_edge.1 h).1

theorem Keeps.bind_edge (hR : Unnoticed R) {k : α → Scan β} (hm : KeepsWhole R m)
    (hlast : ∀ {pre w post a}, m.Reads pre w post a → w.getLast?.any Char.isAlphanum = true)
    (hk : ∀ a, Keeps R Q (k a)) : Keeps R Q (m >>= fun a => wordEdge >>= fun _ => k a) := by
  refine Keeps.congr (n := (m >>= fun a => wordEdge >>= fun _ => pure a) >>= k) (fun {pre w post b} => ?_)
    (Keeps.bind hR (Keeps.edge hR hm hlast) hk)
  simp only [reads_bind (m := m >>= fun a => wordEdge >>= fun _ => pure a), reads_edge]
  simp only [reads_bind, reads_wordEdge]
  constructor
  · rintro ⟨u, _, a, rfl, hm, _, v, _, rfl, ⟨rfl, hedge⟩, hk⟩
    exact ⟨u, v, a, rfl, ⟨hm, by simpa using hedge⟩, by simpa using hk⟩
  · rintro ⟨u, v, a, rfl, ⟨hm, hedge⟩, hk⟩
    exact ⟨u, v, a, rfl, hm, [], v, (), rfl, ⟨rfl, by simpa using hedge⟩, by simpa using hk⟩

/-! ### The forms -/

theorem starts_of_word {q : Text} {k : Scan α} (hq : ∃ c ∈ q.head?, c = ',' ∨ c = 'f') :
    Starts (do space; Scan.word q; k) := by
  intro pre w post a h
  simp only [reads_bind, space, reads_many, reads_word] at h
  obtain ⟨g, _, _, rfl, hg, _, v, _, rfl, rfl, -⟩ := h
  cases g with
  | nil =>
    obtain ⟨c, hc, hcases⟩ := hq
    obtain ⟨q, rfl⟩ := List.head?_eq_some_iff.1 hc
    exact ⟨c, rfl, .inr hcases⟩
  | cons c g => exact ⟨c, rfl, .inl (hg c (by simp))⟩

theorem Starts.bind (hm : Starts m) : Starts (m >>= f) := by
  intro pre w post b h
  obtain ⟨u, v, a, rfl, hu, -⟩ := reads_bind.1 h
  obtain ⟨c, hc, hcases⟩ := hm hu
  obtain ⟨u, rfl⟩ := List.head?_eq_some_iff.1 hc
  exact ⟨c, rfl, hcases⟩

theorem keeps_source (hR : Unnoticed R) : KeepsWhole R source :=
  .bind hR (keeps_space hR) fun _ => .bind hR (keeps_word hR (by simp)) fun _ =>
    .bind hR (keeps_space hR) fun _ => keeps_specifier hR

theorem keeps_remainder (hR : Unnoticed R) (sep : Text) :
    KeepsWhole R (statementEnd >>= fun newline => pure (remainder sep newline)) :=
  .bind hR (keeps_statementEnd hR) fun _ => keeps_pure hR _

theorem keeps_leadingName (hR : Unnoticed R) :
    KeepsWhole R (do let _ ← anyName; space; Scan.word ","; space : Scan Unit) :=
  .bind_name hR (keeps_anyName hR) (fun _ => .bind hR (keeps_space hR) fun _ =>
    .bind hR (keeps_word hR (by simp)) fun _ => keeps_space hR) fun _ => starts_of_word ⟨',', rfl, .inl rfl⟩

theorem keeps_attributes (hR : Unnoticed R) :
    KeepsWhole R (do space; let _ ← Scan.oneOf ["with", "assert"]; space; braces : Scan Unit) :=
  .bind hR (keeps_space hR) fun _ => .bind hR (keeps_oneOf hR (by simp)) fun _ => .bind hR (keeps_space hR) fun _ =>
    keeps_braces hR

theorem keeps_importFrom (hR : Unnoticed R) : KeepsWhole R importFrom := by
  refine .bind hR (keeps_statementStart hR) fun sep => .bind hR (keeps_indent hR) fun _ =>
    .bind_edge hR (keeps_word hR (by simp)) (fun h => by rw [reads_word.1 h]; rfl) fun _ =>
    .bind hR (keeps_space hR) fun _ =>
    .bind hR (.maybe hR (.bind hR (keeps_word hR (by simp)) fun _ => keeps_space1 hR)) fun _ =>
    .bind hR (.maybe hR (keeps_leadingName hR)) fun _ =>
    .bind_name hR ?_ (fun _ => .bind hR (keeps_space hR) fun _ => .bind hR (keeps_word hR (by simp)) fun _ =>
      .bind hR (keeps_space hR) fun _ => .bind hR (keeps_specifier hR) fun _ =>
      .bind hR (.maybe hR (keeps_attributes hR)) fun _ => keeps_remainder hR sep)
      fun _ => starts_of_word ⟨'f', rfl, .inr rfl⟩
  exact .or (.mono (keeps_braces hR)) (.or (.bind hR (keeps_word hR (by simp)) fun _ =>
    .bind hR (keeps_space hR) fun _ => keeps_asName hR) (keeps_anyName hR))

theorem keeps_importOnly (hR : Unnoticed R) : KeepsWhole R importOnly :=
  .bind hR (keeps_statementStart hR) fun sep => .bind hR (keeps_indent hR) fun _ =>
    .bind hR (keeps_word hR (by simp)) fun _ => .bind hR (keeps_space hR) fun _ =>
    .bind hR (keeps_specifier hR) fun _ => keeps_remainder hR sep

theorem keeps_exportList (hR : Unnoticed R) : KeepsWhole R exportList :=
  .bind hR (keeps_statementStart hR) fun sep => .bind hR (keeps_indent hR) fun _ =>
    .bind hR (keeps_word hR (by simp)) fun _ => .bind hR (keeps_space hR) fun _ =>
    .bind hR (.maybe hR (.bind hR (keeps_word hR (by simp)) fun _ => keeps_space hR)) fun _ =>
    .bind hR (keeps_braces hR) fun _ => .bind hR (.maybe hR (keeps_source hR)) fun _ => keeps_remainder hR sep

theorem keeps_exportAll (hR : Unnoticed R) : KeepsWhole R exportAll :=
  .bind hR (keeps_statementStart hR) fun sep => .bind hR (keeps_indent hR) fun _ =>
    .bind hR (keeps_word hR (by simp)) fun _ => .bind hR (keeps_space hR) fun _ =>
    .bind hR (keeps_word hR (by simp)) fun _ =>
    .bind_name hR (.maybe hR (.bind hR (keeps_space hR) fun _ => keeps_asName hR))
      (fun _ => .bind hR (keeps_source hR) fun _ => keeps_remainder hR sep)
      fun _ => Starts.bind (starts_of_word ⟨'f', rfl, .inr rfl⟩)

theorem keeps_exportDefault (hR : Unnoticed R) : KeepsWhole R exportDefault :=
  .bind hR (keeps_statementStart hR) fun _ => .bind hR (keeps_margin hR) fun _ =>
    .bind hR (keeps_word hR (by simp)) fun _ => .bind hR (keeps_space1 hR) fun _ =>
    .bind hR (keeps_word hR (by simp)) fun _ => .bind hR (keeps_space1 hR) fun _ => keeps_pure hR _

theorem keeps_exportModifier (hR : Unnoticed R) : KeepsWhole R exportModifier := by
  have hall : ∀ kw ∈ modifiers, kw.getLast?.any Char.isAlphanum = true := by simp [modifiers]
  exact .bind hR (keeps_statementStart hR) fun _ => .bind hR (keeps_margin hR) fun _ =>
    .bind hR (keeps_word hR (by simp)) fun _ => .bind hR (keeps_space1 hR) fun _ =>
    .bind_edge hR (keeps_oneOf hR (by simp [modifiers])) (fun h => (reads_oneOf.1 h).2 ▸ hall _ (reads_oneOf.1 h).1)
      fun _ => keeps_pure hR _

theorem keeps_of_mem_forms (hR : Unnoticed R) (hf : form ∈ forms) : KeepsWhole R form := by
  simp only [forms, List.mem_cons, List.not_mem_nil, or_false] at hf
  rcases hf with rfl | rfl | rfl | rfl | rfl | rfl
  · exact keeps_importFrom hR
  · exact keeps_importOnly hR
  · exact keeps_exportList hR
  · exact keeps_exportAll hR
  · exact keeps_exportDefault hR
  · exact keeps_exportModifier hR

/-- A text without module syntax still has none when pieces are replaced of which no statement takes notice. -/
theorem NoSyntax.of_spliced (hR : Unnoticed R) (ht : NoSyntax t) (h : Spliced (fun _ _ => True) R [] t [] out) :
    NoSyntax out := by
  rintro form hf u v rfl
  have hkeeps := keeps_of_mem_forms hR hf
  rw [fails_iff]
  rintro w post a rfl hread
  rcases h.split rfl with ⟨x, y, rfl, hx, hy⟩ | ⟨_, _, _, u', r₁, r₂, v', -, -, -, hr, h₁, h₂, -, rfl, hv⟩
  · rcases hy.split rfl with ⟨y, z, rfl, hy, hz⟩ | ⟨_, _, _, w', r₁, r₂, post', -, -, -, hr, h₁, h₂, -, rfl, rfl⟩
    · have hlast : u.getLast? = ([] ++ x).getLast? := hx.getLast?_eq hR.last
      have hread' : form.Reads ([] ++ x) y z a := hkeeps.reads hlast (by simpa using hy) (by simpa using hz) hread
      exact fails_iff.1 (ht form hf x (y ++ z) rfl) y z a rfl hread'
    · exact hkeeps.cut hr h₁ h₂ hread
  · -- no statement starts in a piece
    obtain ⟨kw, sep, margin, rest, -, hop⟩ := opens_of_mem_forms hf hread
    rcases hop.separates with ⟨-, hline⟩ | rfl
    · rw [AtLineStart, List.getLast?_append_of_ne_nil _ h₁] at hline
      have hlast := List.getLast?_eq_some_getLast h₁
      have hmem := List.getLast_mem h₁
      rw [hline _ hlast] at hmem
      exact hR.clean hr '\n' (by simp [hmem]) (by simp)
    · obtain ⟨d, r₂, rfl⟩ := List.exists_cons_of_ne_nil h₂
      have heq := hop.eq
      subst heq
      obtain ⟨rfl, -⟩ := List.cons.inj hv
      exact hR.clean hr ';' (by simp) (by simp)

/-! ### Redirected calls -/

theorem unnoticed_consoleCall : Unnoticed Logger.consoleCall.Changes where
  before h := Logger.any_isAlphanum_of_changes h
  last h := by
    obtain ⟨method, -, rfl, rfl⟩ := Logger.changes_consoleCall h
    have hsplit (host : Text) : host ++ (method ++ ['(']) = (host ++ method) ++ ['('] := by simp
    rw [hsplit, hsplit, List.getLast?_concat, List.getLast?_concat]
  clean h := by
    obtain ⟨method, hm, rfl, rfl⟩ := Logger.changes_consoleCall h
    simp only [Logger.methods, List.mem_cons, List.not_mem_nil, or_false] at hm
    rcases hm with rfl | rfl | rfl <;> simp
  strange h := by
    obtain ⟨method, -, -, rfl⟩ := Logger.changes_consoleCall h
    exact .inr (by simp)
  start h := .inr (Logger.head_of_changes h)
  cut {_ _ _ r₁ r₂} h h₁ h₂ hname := by
    obtain ⟨method, -, -, heq⟩ := Logger.changes_consoleCall h
    have hpoint : '.' ∉ r₁ := fun hc => absurd (hname _ hc) (by decide)
    have hsplit : r₁ ++ r₂ = ("Logger" : Text) ++ '.' :: (method ++ ['(']) := by simpa using heq
    obtain ⟨s, hs, rfl⟩ := Text.prefix_of_notMem hsplit hpoint
    have hall : ∀ c ∈ ("Logger." : Text), isBlank c = false ∧ c ≠ ',' ∧ c ≠ 'f' := by
      simp
      decide
    cases s with
    | nil => exact ⟨'.', rfl, hall _ (by simp)⟩
    | cons c s =>
      refine ⟨c, rfl, hall c ?_⟩
      have hmem : c ∈ ("Logger" : Text) := by simp [hs]
      rw [show ("Logger." : Text) = ("Logger" : Text) ++ ['.'] from rfl]
      exact List.mem_append_left _ hmem

theorem noSyntax_redirect (ht : NoSyntax t) : NoSyntax (Logger.redirect t) :=
  ht.of_spliced unnoticed_consoleCall (spliced_edit Logger.consoleCall t).changes

end AppsScript.ModuleSyntax
