import AppsScript.Proofs.Reading

/-!
# What an edit leaves and what it changes

`m.editAt pre t` is the edited form of `t` when `t` follows `pre`. `Spliced` describes how it comes about:
a character is kept where the scan reads nothing, and what it reads elsewhere is put as it says
(`spliced_edit`). The relation carries the inductions over a run of `edit`: where a place of the outcome
comes from (`Spliced.split`), and which text it starts with (`Spliced.prefix_of`). The equations
`editAt_put`, `editAt_keep` and `editAt_append` follow single steps of one.
-/

namespace AppsScript.Scan

open Cursor

variable {m : Scan (Option Text)} {pre w post t u out : Text} {e : Option Text} {x : Char}

/-- The edited form of `t` behind `pre`. -/
def editAt (m : Scan (Option Text)) (pre t : Text) : Text := editFrom m 0 pre.length pre.reverse t

theorem edit_eq (m : Scan (Option Text)) (t : Text) : m.edit t = m.editAt [] t := rfl

theorem replace_eq (m : Scan Text) (t : Text) : m.replace t = (some <$> m).editAt [] t := rfl

@[simp] theorem editAt_nil : m.editAt pre [] = [] := rfl

theorem editFrom_skip (m : Scan (Option Text)) (t : Text) : ∀ w pre : Text,
    editFrom m w.length pre.length pre.reverse (w ++ t) = m.editAt (pre ++ w) t := by
  intro w
  induction w with
  | nil => intro pre; rw [List.append_nil]; rfl
  | cons x w ih =>
    intro pre
    have h := ih (pre ++ [x])
    simp only [List.length_append, List.length_singleton, List.reverse_append, List.reverse_singleton,
      List.singleton_append, List.append_assoc] at h
    rw [List.length_cons, List.cons_append, editFrom, h]

/-- `m` reads no character between `pre` and `t`. -/
def Passes (m : Scan (Option Text)) (pre t : Text) : Prop :=
  ∀ w post e, t = w ++ post → m.ReadsFirst pre w post e → w = []

theorem Fails.passes (h : m.Fails pre t) : m.Passes pre t := by
  rintro w post e rfl hr
  exact absurd hr.reads (fails_iff.1 h w post e rfl)

/-- `m` reads at least one character wherever it reads. -/
def Consumes (m : Scan (Option Text)) : Prop := ∀ {pre w post e}, m.Reads pre w post e → w ≠ []

theorem Consumes.fails (hm : m.Consumes) (h : m.Passes pre t) : m.Fails pre t := by
  by_contra hf
  obtain ⟨w, post, e, rfl, hr⟩ := exists_readsFirst hf
  exact hm hr.reads (h w post e rfl hr)

theorem editAt_keep (h : m.Passes pre (x :: t)) :
    m.editAt pre (x :: t) = x :: m.editAt (pre ++ [x]) t := by
  have hskip : editFrom m 0 (pre.length + 1) (x :: pre.reverse) t = m.editAt (pre ++ [x]) t := by
    simp [editAt]
  rw [editAt, editFrom]
  cases hf : m.first? (between pre (x :: t)) with
  | none => rw [show m.first? ⟨pre.length, pre.reverse, x :: t⟩ = none from hf, hskip]
  | some r =>
    obtain ⟨e, d⟩ := r
    obtain ⟨w, post, ht, rfl⟩ := mem_run_between (List.mem_of_head? hf)
    obtain rfl := h w post e ht (by rw [ReadsFirst, ← ht]; exact hf)
    rw [show m.first? ⟨pre.length, pre.reverse, x :: t⟩ = _ from hf]
    simp [hskip]

theorem editAt_put (h : m.ReadsFirst pre w t e) (hw : w ≠ []) :
    m.editAt pre (w ++ t) = e.getD w ++ m.editAt (pre ++ w) t := by
  obtain ⟨x, v, rfl⟩ := List.exists_cons_of_ne_nil hw
  have hoff : (between (pre ++ x :: v) t).offset - pre.length = v.length + 1 := by simp
  have hskip := editFrom_skip m t v (pre ++ [x])
  simp only [List.length_append, List.length_singleton, List.reverse_append, List.reverse_singleton,
    List.singleton_append, List.append_assoc] at hskip
  rw [editAt, List.cons_append, editFrom,
    show m.first? ⟨pre.length, pre.reverse, x :: (v ++ t)⟩ = _ from h]
  simp only [hoff, hskip]
  rw [show (⟨pre.length, pre.reverse, x :: (v ++ t)⟩ : Cursor) = between pre ((x :: v) ++ t) from rfl,
    upTo_between]

theorem replaceAt_put {n : Scan Text} {r : Text} (h : n.ReadsFirst pre w t r) (hw : w ≠ []) :
    (some <$> n).editAt pre (w ++ t) = r ++ (some <$> n).editAt (pre ++ w) t := by
  have hr : (some <$> n).ReadsFirst pre w t (some r) := readsFirst_map.2 ⟨r, h, rfl⟩
  rw [editAt_put hr hw, Option.getD_some]

/-- `m` reads no character at any place in `u`, which stands between `pre` and `post`. -/
def PassesOver (m : Scan (Option Text)) (pre u post : Text) : Prop :=
  ∀ v w, u = v ++ w → w ≠ [] → m.Passes (pre ++ v) (w ++ post)

theorem PassesOver.of_cons (h : m.PassesOver pre (x :: u) post) : m.PassesOver (pre ++ [x]) u post := by
  rintro v w rfl hw
  have := h (x :: v) w rfl hw
  rwa [List.append_assoc]

theorem editAt_append : ∀ {u pre : Text}, m.PassesOver pre u t →
    m.editAt pre (u ++ t) = u ++ m.editAt (pre ++ u) t
  | [], pre, _ => by simp
  | x :: u, pre, h => by
    have hx : m.Passes pre (x :: (u ++ t)) := by simpa using h [] (x :: u) rfl (by simp)
    rw [List.cons_append, editAt_keep hx, editAt_append h.of_cons]
    simp

/-- `out` comes from `t`, which stands between `pre` and `post`, by keeping characters at places where
`K` holds and by replacing pieces as `R` says. -/
inductive Spliced (K : (pre t : Text) → Prop) (R : (pre w post r : Text) → Prop) :
    (pre t post out : Text) → Prop
  | done {pre post : Text} : Spliced K R pre [] post []
  | keep {pre t post out : Text} {x : Char} (hx : K pre (x :: (t ++ post)))
    (h : Spliced K R (pre ++ [x]) t post out) : Spliced K R pre (x :: t) post (x :: out)
  | put {pre w t post r out : Text} (hw : R pre w (t ++ post) r) (hne : w ≠ [])
    (h : Spliced K R (pre ++ w) t post out) : Spliced K R pre (w ++ t) post (r ++ out)

/-- What `m` puts in place of a piece that it reads, or the piece itself. -/
def Puts (m : Scan (Option Text)) (pre w post r : Text) : Prop :=
  ∃ e, m.ReadsFirst pre w post e ∧ r = e.getD w

/-- What `m` puts in place of a piece that it does not leave alone. -/
def Changes (m : Scan (Option Text)) (pre w post r : Text) : Prop := m.ReadsFirst pre w post (some r)

theorem spliced_editAt (m : Scan (Option Text)) (pre t : Text) :
    Spliced m.Passes m.Puts pre t [] (m.editAt pre t) := by
  generalize hn : t.length = n
  induction n using Nat.strong_induction_on generalizing pre t with
  | _ n ih =>
    cases t with
    | nil => exact .done
    | cons x t =>
      by_cases hp : m.Passes pre (x :: t)
      · rw [editAt_keep hp]
        exact .keep (by simpa using hp) (ih t.length (by simp [← hn]) _ _ rfl)
      · simp only [Passes, not_forall] at hp
        obtain ⟨w, post, e, ht, hr, hw⟩ := hp
        rw [ht, editAt_put hr hw]
        have hlt : post.length < n := by
          have := List.length_pos_of_ne_nil hw
          rw [← hn, ht, List.length_append]
          omega
        exact .put ⟨e, by simpa using hr, rfl⟩ hw (ih post.length hlt _ _ rfl)

theorem spliced_edit (m : Scan (Option Text)) (t : Text) :
    Spliced m.Passes m.Puts [] t [] (m.edit t) := spliced_editAt m [] t

namespace Spliced

variable {K : Text → Text → Prop} {R R' : Text → Text → Text → Text → Prop} {v q : Text}

theorem keeps : ∀ {w pre : Text}, Spliced (fun _ _ => True) R (pre ++ w) t post out →
    Spliced (fun _ _ => True) R pre (w ++ t) post (w ++ out)
  | [], pre, h => by simpa using h
  | x :: w, pre, h =>
    have h' : Spliced (fun _ _ => True) R ((pre ++ [x]) ++ w) t post out := by simpa using h
    .keep trivial (keeps h')

theorem changes (h : Spliced K m.Puts pre t post out) :
    Spliced (fun _ _ => True) m.Changes pre t post out := by
  induction h with
  | done => exact .done
  | keep _ _ ih => exact .keep trivial ih
  | @put pre w t post r out hw hne _ ih =>
    obtain ⟨e, he, rfl⟩ := hw
    cases e with
    | none => exact keeps ih
    | some r => exact .put he hne ih

theorem mono (h : Spliced K R pre t post out) (hR : ∀ {pre w post r}, R pre w post r → R' pre w post r) :
    Spliced K R' pre t post out := by
  induction h with
  | done => exact .done
  | keep hx _ ih => exact .keep hx ih
  | put hw hne _ ih => exact .put (hR hw) hne ih

theorem append {t' out' : Text} (h : Spliced K R pre t (t' ++ post) out) (h' : Spliced K R (pre ++ t) t' post out') :
    Spliced K R pre (t ++ t') post (out ++ out') := by
  generalize hp : t' ++ post = p at h
  induction h with
  | done => simpa using h'
  | keep hx _ ih =>
    subst hp
    exact .keep (by simpa using hx) (ih (by simpa using h') rfl)
  | put hw hne _ ih =>
    subst hp
    rw [List.append_assoc, List.append_assoc]
    exact .put (by simpa using hw) hne (ih (by simpa using h') rfl)

theorem eq_of_forall (h : Spliced K R pre t post out)
    (hR : ∀ x w y r, t = x ++ (w ++ y) → ¬ R (pre ++ x) w (y ++ post) r) : out = t := by
  induction h with
  | done => rfl
  | @keep _ _ _ _ c _ _ ih =>
    rw [ih fun x w y r ht hr => hR (c :: x) w y r (by simp [ht]) (by simpa using hr)]
  | put hw _ _ _ => exact absurd (by simpa using hw) (hR [] _ _ _ rfl)

/-- The text may stand elsewhere, where its pieces are replaced too. -/
theorem rebase {pre' post' : Text} (h : Spliced K R pre t post out)
    (hR : ∀ x w y r, t = x ++ (w ++ y) → R (pre ++ x) w (y ++ post) r → R' (pre' ++ x) w (y ++ post') r) :
    Spliced (fun _ _ => True) R' pre' t post' out := by
  induction h generalizing pre' with
  | done => exact .done
  | @keep _ _ _ _ c _ _ ih =>
    refine .keep trivial (ih fun x w y r ht hr => ?_)
    simpa using hR (c :: x) w y r (by simp [ht]) (by simpa using hr)
  | @put _ w _ _ _ _ hw hne _ ih =>
    refine .put (by simpa using hR [] w _ _ rfl (by simpa using hw)) hne (ih fun x w' y r ht hr => ?_)
    simpa using hR (w ++ x) w' y r (by simp [ht]) (by simpa using hr)

/-- Where the text is not kept there is a piece. -/
theorem eq_or_exists (h : Spliced K R pre t post out) :
    out = t ∨ ∃ x w y r u v, t = x ++ (w ++ y) ∧ R (pre ++ x) w (y ++ post) r ∧ out = u ++ (r ++ v) := by
  induction h with
  | done => exact .inl rfl
  | @keep _ _ _ _ c _ _ ih =>
    rcases ih with rfl | ⟨x, w, y, r, u, v, rfl, hr, rfl⟩
    · exact .inl rfl
    · exact .inr ⟨c :: x, w, y, r, c :: u, v, rfl, by simpa using hr, rfl⟩
  | @put _ w t _ r out hw _ _ _ => exact .inr ⟨[], w, t, r, [], out, rfl, by simpa using hw, rfl⟩

/-- What no piece disturbs, read character by character, is the same behind the outcome. -/
theorem foldl_eq {α : Type} {f : α → Char → α} {a : α} (h : Spliced K R pre t post out)
    (hR : ∀ x w y r, t = x ++ (w ++ y) → R (pre ++ x) w (y ++ post) r →
      r.foldl f (x.foldl f a) = w.foldl f (x.foldl f a)) : out.foldl f a = t.foldl f a := by
  induction h generalizing a with
  | done => rfl
  | keep hx _ ih =>
    refine ih fun x w y r ht hr => ?_
    simpa using hR (_ :: x) w y r (by simp [ht]) (by simpa using hr)
  | @put _ w' t _ r' _ hw _ _ ih =>
    have hhead : r'.foldl f a = w'.foldl f a := hR [] w' t r' rfl (by simpa using hw)
    rw [List.foldl_append, List.foldl_append, hhead]
    refine ih fun x w y r ht hr => ?_
    simpa using hR (w' ++ x) w y r (by simp [ht]) (by simpa using hr)

/-- A division of the outcome divides a piece that was put, or else it comes from one of the text. -/
theorem split (h : Spliced K R pre t post out) (ho : out = u ++ v) :
    (∃ x y, t = x ++ y ∧ Spliced K R pre x (y ++ post) u ∧ Spliced K R (pre ++ x) y post v) ∨
    ∃ x w y u' r₁ r₂ v', t = x ++ (w ++ y) ∧ Spliced K R pre x (w ++ y ++ post) u' ∧ w ≠ [] ∧
      R (pre ++ x) w (y ++ post) (r₁ ++ r₂) ∧ r₁ ≠ [] ∧ r₂ ≠ [] ∧
      Spliced K R (pre ++ x ++ w) y post v' ∧ u = u' ++ r₁ ∧ v = r₂ ++ v' := by
  induction h generalizing u with
  | done =>
    obtain ⟨rfl, rfl⟩ := List.append_eq_nil_iff.1 ho.symm
    exact .inl ⟨[], [], rfl, .done, .done⟩
  | @keep pre t post out x hx h ih =>
    cases u with
    | nil =>
      obtain rfl : x :: out = v := ho
      exact .inl ⟨[], x :: t, rfl, .done, by simpa using .keep hx h⟩
    | cons y u =>
      obtain ⟨rfl, ho'⟩ := List.cons.inj ho
      rcases ih ho' with ⟨a, b, rfl, ha, hb⟩ | ⟨a, w, b, u', r₁, r₂, v', rfl, ha, hne, hr, h₁, h₂, hb, rfl, rfl⟩
      · exact .inl ⟨x :: a, b, rfl, .keep (by simpa using hx) ha, by simpa using hb⟩
      · exact .inr ⟨x :: a, w, b, x :: u', r₁, r₂, v', rfl, .keep (by simpa using hx) ha, hne,
          by simpa using hr, h₁, h₂, by simpa using hb, rfl, rfl⟩
  | @put pre w t post r out hw hne h ih =>
    -- The division is behind the piece, or at one of its ends, or inside it.
    rcases List.append_eq_append_iff.1 ho with ⟨u', rfl, ho'⟩ | ⟨r', rfl, rfl⟩
    · rcases ih ho' with ⟨a, b, rfl, ha, hb⟩ | ⟨a, w', b, u'', r₁, r₂, v', rfl, ha, hne', hr, h₁, h₂, hb, rfl, rfl⟩
      · exact .inl ⟨w ++ a, b, by simp, .put (by simpa using hw) hne ha, by simpa using hb⟩
      · exact .inr ⟨w ++ a, w', b, r ++ u'', r₁, r₂, v', by simp, .put (by simpa using hw) hne ha, hne',
          by simpa using hr, h₁, h₂, by simpa using hb, by simp, rfl⟩
    · by_cases hu : u = []
      · subst hu
        exact .inl ⟨[], w ++ t, rfl, .done, by simpa using .put hw hne h⟩
      by_cases hr' : r' = []
      · subst hr'
        rw [List.append_nil] at hw
        have hput : Spliced K R pre (w ++ []) (t ++ post) (u ++ []) := .put (by simpa using hw) hne .done
        exact .inl ⟨w, t, rfl, by simpa using hput, by simpa using h⟩
      · exact .inr ⟨[], w, t, [], u, r', out, rfl, .done, hne, by simpa using hw, hu, hr',
          by simpa using h, rfl, rfl⟩

/-- The outcome ends like the text, or with a piece that was put. -/
theorem last (h : Spliced K R pre t post out) : t = [] ∧ out = [] ∨
    (∃ x u c, t = x ++ [c] ∧ out = u ++ [c]) ∨
    ∃ x w u r, t = x ++ w ∧ out = u ++ r ∧ w ≠ [] ∧ R (pre ++ x) w post r := by
  induction h with
  | done => exact .inl ⟨rfl, rfl⟩
  | @keep pre t post out x hx h ih =>
    rcases ih with ⟨rfl, rfl⟩ | ⟨a, u, c, rfl, rfl⟩ | ⟨a, w, u, r, rfl, rfl, hne, hr⟩
    · exact .inr (.inl ⟨[], [], x, rfl, rfl⟩)
    · exact .inr (.inl ⟨x :: a, x :: u, c, rfl, rfl⟩)
    · exact .inr (.inr ⟨x :: a, w, x :: u, r, rfl, rfl, hne, by simpa using hr⟩)
  | @put pre w t post r out hw hne h ih =>
    rcases ih with ⟨rfl, rfl⟩ | ⟨a, u, c, rfl, rfl⟩ | ⟨a, w', u, r', rfl, rfl, hne', hr⟩
    · exact .inr (.inr ⟨[], w, [], r, by simp, by simp, hne, by simpa using hw⟩)
    · exact .inr (.inl ⟨w ++ a, r ++ u, c, by simp, by simp⟩)
    · exact .inr (.inr ⟨w ++ a, w', r ++ u, r', by simp, by simp, hne', by simpa using hr⟩)

theorem getLast?_eq (h : Spliced K R pre t post out)
    (hR : ∀ {pre w post r}, R pre w post r → r.getLast? = w.getLast?) : out.getLast? = t.getLast? := by
  rcases h.last with ⟨rfl, rfl⟩ | ⟨x, u, c, rfl, rfl⟩ | ⟨x, w, u, r, rfl, rfl, hne, hr⟩
  · rfl
  · simp
  · have hr' := hR hr
    have hrne : r ≠ [] := by
      rintro rfl
      exact hne (List.getLast?_eq_none_iff.1 hr'.symm)
    rw [List.getLast?_append_of_ne_nil _ hne, List.getLast?_append_of_ne_nil _ hrne, hr']

/-- A character that is in no piece comes from the text. -/
theorem split_char {c : Char} (h : Spliced K R pre t post out) (ho : out = u ++ c :: v)
    (hR : ∀ {pre w post r}, R pre w post r → r ≠ [] ∧ c ∉ r) :
    ∃ x y, t = x ++ c :: y ∧ Spliced K R pre x (c :: y ++ post) u ∧ Spliced K R (pre ++ x ++ [c]) y post v := by
  rcases h.split ho with ⟨x, y, rfl, hx, hy⟩ | ⟨x, w, y, u', r₁, r₂, v', -, -, -, hr, -, h₂, -, -, hv⟩
  · generalize hcv : c :: v = cv at hy
    cases hy with
    | done => simp at hcv
    | keep hk hy =>
      obtain ⟨rfl, rfl⟩ := List.cons.inj hcv
      exact ⟨x, _, rfl, by simpa using hx, hy⟩
    | @put _ w y _ r out hw hne hy =>
      obtain ⟨hne, hmem⟩ := hR hw
      obtain ⟨d, r, rfl⟩ := List.exists_cons_of_ne_nil hne
      obtain ⟨rfl, -⟩ := List.cons.inj hcv
      exact absurd (by simp) hmem
  · obtain ⟨d, r₂, rfl⟩ := List.exists_cons_of_ne_nil h₂
    obtain ⟨rfl, -⟩ := List.cons.inj hv
    exact absurd (by simp) (hR hr).2

/-- What holds of all characters of the outcome and of the pieces holds of all of the text. -/
theorem forall_mem {p : Char → Prop} (h : Spliced K R pre t post out) (hout : ∀ c ∈ out, p c)
    (hR : ∀ {pre w post r}, R pre w post r → ∀ c ∈ w, p c) : ∀ c ∈ t, p c := by
  induction h with
  | done => simp
  | keep _ _ ih =>
    rw [List.forall_mem_cons] at hout ⊢
    exact ⟨hout.1, ih hout.2⟩
  | put hw _ _ ih =>
    rw [List.forall_mem_append] at hout ⊢
    exact ⟨hR hw, ih hout.2⟩

theorem getLast?_append_eq {pre' : Text} (h : Spliced K R pre t post out) (hpre : pre'.getLast? = pre.getLast?)
    (hR : ∀ {pre w post r}, R pre w post r → r.getLast? = w.getLast?) :
    (pre' ++ out).getLast? = (pre ++ t).getLast? := by
  rw [List.getLast?_append, List.getLast?_append, h.getLast?_eq hR, hpre]

/-- A text without the character that every piece ends with is kept. -/
theorem eq_of_notMem {z : Char} (h : Spliced K R pre t post out)
    (hR : ∀ {pre w post r}, R pre w post r → w.getLast? = some z) (hz : z ∉ t) : out = t := by
  induction h with
  | done => rfl
  | keep _ _ ih => rw [ih fun ht => hz (List.mem_cons_of_mem _ ht)]
  | put hw _ _ _ => exact absurd (List.mem_append_left _ (List.mem_of_getLast? (hR hw))) hz

/-- So is what a text ends with. -/
theorem suffix_of_notMem {x : Text} {z : Char} (h : Spliced K R pre t post out) (ht : t = x ++ q)
    (hR : ∀ {pre w post r}, R pre w post r → w.getLast? = some z) (hz : z ∉ q) : ∃ u, out = u ++ q := by
  induction h generalizing x with
  | done =>
    obtain ⟨rfl, rfl⟩ := List.append_eq_nil_iff.1 ht.symm
    exact ⟨[], rfl⟩
  | @keep pre t post out c hc h ih =>
    cases x with
    | nil =>
      obtain rfl : c :: t = q := ht
      exact ⟨[], (Spliced.keep hc h).eq_of_notMem hR hz⟩
    | cons y x =>
      obtain ⟨u, rfl⟩ := ih (List.cons.inj ht).2
      exact ⟨c :: u, rfl⟩
  | @put pre w t post r out hw hne h ih =>
    rcases List.append_eq_append_iff.1 ht with ⟨x', rfl, ht'⟩ | ⟨w', rfl, rfl⟩
    · obtain ⟨u, rfl⟩ := ih ht'
      exact ⟨r ++ u, by simp⟩
    · by_cases hw' : w' = []
      · subst hw'
        obtain ⟨u, rfl⟩ := ih (x := []) rfl
        exact ⟨r ++ u, by simp⟩
      · have hlast := hR hw
        rw [List.getLast?_append_of_ne_nil _ hw'] at hlast
        exact absurd (List.mem_append_left _ (List.mem_of_getLast? hlast)) hz

/-- What the outcome starts with is what the text starts with, if no piece can have been put there. -/
theorem prefix_of (h : Spliced K R pre t post out) (ho : out = q ++ v)
    (hR : ∀ q₁ q₂ w y r v', q = q₁ ++ q₂ → q₂ ≠ [] → t = q₁ ++ (w ++ y) → R (pre ++ q₁) w (y ++ post) r →
      Spliced K R (pre ++ q₁ ++ w) y post v' → q₂ ++ v ≠ r ++ v') :
    ∃ y, t = q ++ y ∧ Spliced K R (pre ++ q) y post v := by
  induction q generalizing pre t out with
  | nil => exact ⟨t, rfl, by simpa [ho] using h⟩
  | cons x q ih =>
    cases h with
    | done => simp at ho
    | @keep _ t _ out y hy h =>
      obtain ⟨rfl, ho'⟩ := List.cons.inj ho
      have hR' : ∀ q₁ q₂ w y' r v', q = q₁ ++ q₂ → q₂ ≠ [] → t = q₁ ++ (w ++ y') →
          R (pre ++ [y] ++ q₁) w (y' ++ post) r → Spliced K R (pre ++ [y] ++ q₁ ++ w) y' post v' →
          q₂ ++ v ≠ r ++ v' := by
        rintro q₁ q₂ w y' r v' rfl hq₂ rfl hr hv
        exact hR (y :: q₁) q₂ w y' r v' rfl hq₂ rfl (by simpa using hr) (by simpa using hv)
      obtain ⟨z, rfl, hz⟩ := ih h ho' hR'
      exact ⟨z, rfl, by simpa using hz⟩
    | @put _ w t _ r out hw hne h =>
      exact absurd ho.symm (hR [] (x :: q) w t r out rfl (by simp) rfl (by simpa using hw) (by simpa using h))

/-- The same where every piece that is put starts with a character that `q` lacks. -/
theorem prefix_of_notMem {z : Char} (h : Spliced K R pre t post out) (ho : out = q ++ v)
    (hR : ∀ {pre w post r}, R pre w post r → r.head? = some z) (hz : z ∉ q) :
    ∃ y, t = q ++ y ∧ Spliced K R (pre ++ q) y post v := by
  refine h.prefix_of ho ?_
  rintro q₁ q₂ w y r v' rfl hq₂ - hr - heq
  obtain ⟨c, q₂, rfl⟩ := List.exists_cons_of_ne_nil hq₂
  obtain ⟨r, rfl⟩ : ∃ r', r = z :: r' := by
    have := hR hr
    cases r with
    | nil => simp at this
    | cons y r => exact ⟨r, by simpa using this⟩
  obtain ⟨rfl, -⟩ := List.cons.inj heq
  exact hz (by simp)

/-- What the text starts with is what the outcome starts with, if no piece starts in it. -/
theorem keeps_prefix {y : Text} (h : Spliced K R pre t post out) (ht : t = q ++ y)
    (hR : ∀ q₁ q₂ w r z, q = q₁ ++ q₂ → q₂ ≠ [] → R (pre ++ q₁) w (z ++ post) r → q₂ ++ y ≠ w ++ z) :
    ∃ v, out = q ++ v ∧ Spliced K R (pre ++ q) y post v := by
  induction q generalizing pre t out with
  | nil => exact ⟨out, rfl, by simpa [← show t = y from ht] using h⟩
  | cons x q ih =>
    cases h with
    | done => simp at ht
    | @keep _ t _ out c hc h =>
      obtain ⟨rfl, ht'⟩ := List.cons.inj ht
      obtain ⟨v, rfl, hv⟩ := ih h ht' fun q₁ q₂ w r z hq hq₂ hr =>
        hR (c :: q₁) q₂ w r z (by simp [hq]) hq₂ (by simpa using hr)
      exact ⟨v, rfl, by simpa using hv⟩
    | @put _ w t _ r out hw hne h => exact absurd ht.symm (hR [] (x :: q) w r t rfl (by simp) (by simpa using hw))

/-- An outcome without the character that every piece put ends with is the text. -/
theorem eq_of_notMem_out {z : Char} (h : Spliced K R pre t post out)
    (hR : ∀ {pre w post r}, R pre w post r → r.getLast? = some z) (hz : z ∉ out) : t = out := by
  induction h with
  | done => rfl
  | keep _ _ ih => rw [ih fun hout => hz (List.mem_cons_of_mem _ hout)]
  | put hr _ _ _ => exact absurd (List.mem_append_left _ (List.mem_of_getLast? (hR hr))) hz

/-- So is what an outcome ends with. -/
theorem exists_suffix {z : Char} (h : Spliced K R pre t post out) (ho : out = u ++ q)
    (hR : ∀ {pre w post r}, R pre w post r → r.getLast? = some z) (hz : z ∉ q) : ∃ x, t = x ++ q := by
  rcases h.split ho with ⟨x, y, rfl, -, hy⟩ | ⟨_, _, _, _, r₁, r₂, v', -, -, -, hr, -, h₂, -, -, rfl⟩
  · exact ⟨x, by rw [hy.eq_of_notMem_out hR hz]⟩
  · have hlast := hR hr
    rw [List.getLast?_append_of_ne_nil _ h₂] at hlast
    exact absurd (List.mem_append_left _ (List.mem_of_getLast? hlast)) hz

end Spliced

/-! ### Edits that make a text shorter -/

/-- What `m` puts is shorter than what it read. -/
def Shortens (m : Scan Text) : Prop := ∀ pre w post r, m.Reads pre w post r → r.length < w.length

variable {n : Scan Text}

theorem Shortens.ne_nil {r : Text} (hn : n.Shortens) (h : n.Reads pre w post r) : w ≠ [] := by
  rintro rfl
  exact absurd (hn _ _ _ _ h) (Nat.not_lt_zero _)

theorem Shortens.fails (hn : n.Shortens) (h : (some <$> n).Passes pre t) : n.Fails pre t := by
  have hc : (some <$> n).Consumes := fun hr => by
    obtain ⟨r, hr, -⟩ := reads_map.1 hr
    exact hn.ne_nil hr
  have hf := hc.fails h
  rwa [Fails, run_map, List.map_eq_nil_iff] at hf

theorem Shortens.spliced (hn : n.Shortens)
    (h : Spliced (some <$> n).Passes (some <$> n).Puts pre t post out) :
    out.length ≤ t.length ∧
      (t.length ≤ out.length → out = t ∧ ∀ u v, t = u ++ v → v ≠ [] → n.Fails (pre ++ u) (v ++ post)) := by
  induction h with
  | done =>
    refine ⟨Nat.le_refl _, fun _ => ⟨rfl, fun u v huv hv => ?_⟩⟩
    exact absurd (List.append_eq_nil_iff.1 huv.symm).2 hv
  | @keep pre t post out x hx _ ih =>
    refine ⟨Nat.succ_le_succ ih.1, fun hle => ?_⟩
    obtain ⟨rfl, hf⟩ := ih.2 (Nat.le_of_succ_le_succ hle)
    refine ⟨rfl, fun u v huv hv => ?_⟩
    cases u with
    | nil =>
      rw [List.append_nil, ← show x :: out = v from huv]
      exact hn.fails hx
    | cons y u =>
      obtain ⟨rfl, rfl⟩ := List.cons.inj huv
      have := hf u v rfl hv
      rwa [List.append_assoc] at this
  | @put pre w t post r out hw _ _ ih =>
    obtain ⟨e, he, rfl⟩ := hw
    obtain ⟨r, hr, rfl⟩ := readsFirst_map.1 he
    have hlt := hn _ _ _ _ hr.reads
    simp only [Option.getD_some, List.length_append]
    exact ⟨by omega, fun hle => by omega⟩

theorem Shortens.replace_length (hn : n.Shortens) (h : n.replace t ≠ t) :
    (n.replace t).length < t.length := by
  have := hn.spliced (spliced_edit (some <$> n) t)
  exact Nat.lt_of_not_le fun hle => h (this.2 hle).1

theorem Shortens.fails_of_replace_eq (hn : n.Shortens) (h : n.replace t = t) (u v : Text)
    (huv : t = u ++ v) : n.Fails u v := by
  by_cases hv : v = []
  · subst hv
    refine hn.fails fun w post e he _ => ?_
    exact (List.append_eq_nil_iff.1 he.symm).1
  · have := (hn.spliced (spliced_edit (some <$> n) t)).2 (by rw [show (some <$> n).edit t = t from h])
    simpa using this.2 u v huv hv

end AppsScript.Scan
