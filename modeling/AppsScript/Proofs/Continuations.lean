import AppsScript.Proofs.ReaderStates
import AppsScript.Proofs.Texts
import AppsScript.Source.Expression

/-!
# Readers of what follows a value

Whether something goes on with a value is read off what follows it (`continues`), and behind a block the block has
to be read first (`afterBlock?`). A `Reader` does both one character at a time: it is in the states of a reader of
code and knows what it looks for (`Aim`). So what leaves the states as they are cannot change what is read
(`after_of_isCalm`), and what is known of a reader of code that starts at the same place is known of it
(`Follows`).
-/

namespace AppsScript.Source

open Text

variable {t u v : Text} {c : Char} {i j d : Nat} {mode : Mode} {o : Option Nat} {s s' : State}

/-- What a reader looks for. -/
inductive Aim
  /-- The end of the text. -/
  | stop
  /-- The brace that closes the block. -/
  | close
  /-- The character that comes first behind a value. -/
  | next
  /-- Nothing more. -/
  | settled (goesOn : Bool)
deriving DecidableEq

/-- What is known behind a text to a reader with an aim. -/
structure Reader where
  state : State
  aim : Aim
deriving DecidableEq

namespace Reader

def step : Reader → Char → Reader
  | ⟨s, .stop⟩, c => ⟨s.step c, .stop⟩
  | ⟨s, .close⟩, c =>
    if (s.spot = .code ∨ s.spot = .slash) ∧ c = '\x7d' ∧ s.depth ≤ 1 then ⟨.start, .next⟩ else ⟨s.step c, .close⟩
  | ⟨s, .next⟩, c =>
    if s.spot = .code ∧ c ≠ '/' ∧ isBlank c = false then ⟨s, .settled (continuing.contains c)⟩
    else if s.spot = .slash ∧ c ≠ '/' ∧ c ≠ '*' then ⟨s, .settled true⟩
    else ⟨s.step c, .next⟩
  | ⟨s, .settled goesOn⟩, _ => ⟨s, .settled goesOn⟩

def after (r : Reader) (t : Text) : Reader := t.foldl step r

/-- Whether the value goes on, if nothing more comes. -/
def goesOn : Reader → Bool
  | ⟨_, .settled goesOn⟩ => goesOn
  | ⟨s, .next⟩ => s.spot = .slash
  | _ => false

variable {r : Reader}

@[simp] theorem after_nil (r : Reader) : r.after [] = r := rfl
@[simp] theorem after_cons (r : Reader) (c : Char) (t : Text) : r.after (c :: t) = (r.step c).after t := rfl

@[simp] theorem after_append (r : Reader) (t u : Text) : r.after (t ++ u) = (r.after t).after u :=
  List.foldl_append

theorem step_settled {g : Bool} : (⟨s, .settled g⟩ : Reader).step c = ⟨s, .settled g⟩ := rfl

theorem after_of_forall (h : ∀ c ∈ t, r.step c = r) : r.after t = r := by
  induction t with
  | nil => rfl
  | cons c t ih => rw [after_cons, h c (by simp), ih fun x hx => h x (by simp [hx])]

theorem after_settled {g : Bool} : (⟨s, .settled g⟩ : Reader).after t = ⟨s, .settled g⟩ :=
  after_of_forall fun _ _ => rfl

theorem goesOn_of_aim (h : r.aim = .close) : r.goesOn = false := by
  obtain ⟨state, aim⟩ := r
  obtain rfl : aim = .close := h
  rfl

theorem after_stop : (⟨s, .stop⟩ : Reader).after t = ⟨s.after t, .stop⟩ := by
  induction t generalizing s with
  | nil => rfl
  | cons c t ih => exact ih

end Reader

open Reader

/-! ### What comes first behind a value -/

theorem continuing_eq : continuing =
    ['.', '?', ':', '+', '-', '*', '/', '%', '&', '|', '^', ',', '=', '<', '>', '(', '[', '`'] := rfl

theorem contains_slash : continuing.contains '/' = true := by
  rw [continuing_eq]
  decide

theorem step_next_slash : (⟨⟨.code, d⟩, .next⟩ : Reader).step '/' = ⟨⟨.slash, d⟩, .next⟩ := by
  simp [Reader.step, State.step, State.behindCode]

theorem ne_of_isBlank {x : Char} (hc : isBlank c = true) (hx : isBlank x = false) : c ≠ x := by
  rintro rfl
  simp [hx] at hc

theorem isSilent_of_isBlank (hc : isBlank c = true) : isSilent c = true := by
  simp [isSilent, isQuote, ne_of_isBlank hc (x := '/') (by decide), ne_of_isBlank hc (x := '\x7b') (by decide),
    ne_of_isBlank hc (x := '\x7d') (by decide), ne_of_isBlank hc (x := '\'') (by decide),
    ne_of_isBlank hc (x := '"') (by decide), ne_of_isBlank hc (x := '`') (by decide)]

theorem step_next_blank (hc : isBlank c = true) : (⟨⟨.code, d⟩, .next⟩ : Reader).step c = ⟨⟨.code, d⟩, .next⟩ := by
  simp [Reader.step, State.step, hc, behindCode_of_isSilent (isSilent_of_isBlank hc)]

theorem step_next_settled (hc : isBlank c = false) (hslash : c ≠ '/') :
    (⟨⟨.code, d⟩, .next⟩ : Reader).step c = ⟨⟨.code, d⟩, .settled (continuing.contains c)⟩ := by
  rw [Reader.step]
  exact if_pos ⟨rfl, hslash, hc⟩

theorem goesOn_after_next (hmode : ∀ q, mode ≠ .literal q) :
    (skipBlankFrom mode t).head?.any continuing.contains = ((⟨⟨mode.spot, d⟩, .next⟩ : Reader).after t).goesOn := by
  fun_induction skipBlankFrom mode t with
  | case1 mode => cases mode <;> simp [Mode.spot, goesOn]
  | case2 cs ih => simpa [Mode.spot, Reader.step, State.step] using ih (by simp)
  | case3 c cs h ih => simpa [Mode.spot, Reader.step, State.step, h] using ih (by simp)
  | case4 cs ih => simpa [Mode.spot, Reader.step, State.step] using ih (by simp)
  | case5 c cs h ih =>
    by_cases hstar : c = '*'
    · subst hstar
      rw [ih (by simp)]
      cases cs with
      | nil => simp [Mode.spot, Reader.step, State.step, goesOn]
      | cons x cs =>
        -- At a star the reader waits for what comes next, and no slash does.
        have hx : x ≠ '/' := fun hx => h cs rfl (by rw [hx])
        simp [Mode.spot, Reader.step, State.step, hx]
    · simpa [Mode.spot, Reader.step, State.step, hstar] using ih (by simp)
  | case6 mode cs h₁ h₂ ih =>
    obtain rfl : mode = .code := by cases mode <;> simp_all
    rw [ih (by simp), Mode.spot, after_cons, Mode.spot, step_next_slash]
    simp [Reader.step, State.step]
  | case7 mode cs h₁ h₂ ih =>
    obtain rfl : mode = .code := by cases mode <;> simp_all
    rw [ih (by simp), Mode.spot, after_cons, Mode.spot, step_next_slash]
    simp [Reader.step, State.step]
  | case8 mode c cs h₁ _ h₂ h₃ h₄ hblank ih =>
    obtain rfl : mode = .code := by cases mode <;> simp_all
    rw [ih (by simp), Mode.spot, after_cons, step_next_blank hblank]
  | case9 mode c cs h₁ _ h₂ h₃ h₄ hblank =>
    obtain rfl : mode = .code := by cases mode <;> simp_all
    -- A slash that starts no comment settles the answer, but the reader knows that only one character later.
    by_cases hslash : c = '/'
    · subst hslash
      rw [Mode.spot, after_cons, step_next_slash]
      cases cs with
      | nil => exact contains_slash
      | cons x cs =>
        have hx : x ≠ '/' ∧ x ≠ '*' := ⟨fun hx => h₃ cs rfl (by rw [hx]), fun hx => h₄ cs rfl (by rw [hx])⟩
        have hstep : (⟨⟨.slash, d⟩, .next⟩ : Reader).step x = ⟨⟨.slash, d⟩, .settled true⟩ := by
          simp [Reader.step, hx]
        rw [after_cons, hstep, after_settled]
        exact contains_slash
    · rw [Mode.spot, after_cons, step_next_settled (by simpa using hblank) hslash, after_settled]
      rfl

theorem continues_eq : continues t = ((⟨.start, .next⟩ : Reader).after t).goesOn :=
  @goesOn_after_next t 0 .code (by simp)

/-! ### What comes first behind a block -/

/-- `o` is the offset of the brace that the reader stops at, or there is none. -/
def Closes (s : State) (i : Nat) (t : Text) : (o : Option Nat) → Prop
  | none => ((⟨s, .close⟩ : Reader).after t).aim = .close
  | some j => ∃ u v, t = u ++ '\x7d' :: v ∧ j = i + u.length ∧
    (⟨s, .close⟩ : Reader).after (u ++ ['\x7d']) = ⟨.start, .next⟩

theorem Closes.cons (hs : (⟨s, .close⟩ : Reader).step c = ⟨s', .close⟩) (h : Closes s' (i + 1) t o) :
    Closes s i (c :: t) o := by
  cases o with
  | none => simpa [Closes, hs] using h
  | some j =>
    obtain ⟨u, v, rfl, rfl, hu⟩ := h
    exact ⟨c :: u, v, rfl, by simp [Nat.add_assoc, Nat.add_comm 1], by simpa [hs] using hu⟩

theorem Closes.of_step (h : Closes s' i t o)
    (hs : ∀ c ∈ t.head?, (⟨s, .close⟩ : Reader).step c = (⟨s', .close⟩ : Reader).step c) : Closes s i t o := by
  cases o with
  | none =>
    cases t with
    | nil => rfl
    | cons c t => simpa [Closes, hs c rfl] using h
  | some j =>
    obtain ⟨u, v, rfl, rfl, hu⟩ := h
    refine ⟨u, v, rfl, rfl, ?_⟩
    cases u with
    | nil => simpa [hs '\x7d' rfl] using hu
    | cons c u => simpa [hs c rfl] using hu

theorem step_close (h : c ≠ '\x7d' ∨ 1 < s.depth ∨ s.spot ≠ .code ∧ s.spot ≠ .slash) :
    (⟨s, .close⟩ : Reader).step c = ⟨s.step c, .close⟩ := by
  rw [Reader.step, if_neg]
  rintro ⟨hspot, rfl, hd⟩
  rcases h with h | h | ⟨h₁, h₂⟩
  · exact h rfl
  · exact absurd hd (by simpa using h)
  · exact hspot.elim h₁ h₂

theorem closes_closingAt (hd : 0 < d) : Closes ⟨mode.spot, d⟩ i t (closingAt d (codeCharsFrom mode i t)) := by
  fun_induction codeCharsFrom mode i t generalizing d with
  | case1 mode i => rfl
  | case2 i cs ih => exact .cons (step_close (by simp)) (.cons (step_close (by simp)) (ih hd))
  | case3 i cs ih => exact .cons (step_close (by simp)) (.cons (step_close (by simp)) (ih hd))
  | case4 i c cs h₁ h₂ ih =>
    rw [closingAt]
    by_cases hopen : c = '\x7b'
    · subst hopen
      exact .cons (step_close (by simp)) (ih (Nat.succ_pos d))
    by_cases hclose : c = '\x7d'
    · subst hclose
      rw [if_neg (by simp), if_pos rfl]
      by_cases hlast : d ≤ 1
      · rw [if_pos hlast]
        exact ⟨[], cs, rfl, rfl, by simp [Reader.step, Mode.spot, hlast]⟩
      · rw [if_neg hlast]
        exact .cons (step_close (by simp; omega)) (ih (by omega))
    rw [if_neg hopen, if_neg hclose]
    refine .cons (step_close (.inl hclose)) ?_
    have hrest := ih hd
    rw [Mode.spot_behind] at hrest
    rw [Mode.spot, State.step, State.behindCode, if_neg hopen, if_neg hclose]
    by_cases hslash : c = '/'
    · subst hslash
      rw [if_pos rfl]
      -- The reader waits behind the slash; the next character makes no comment of it, so the steps agree from there.
      refine hrest.of_step fun x hx => ?_
      obtain ⟨cs, rfl⟩ := List.head?_eq_some_iff.1 hx
      have hne : x ≠ '/' ∧ x ≠ '*' := ⟨fun hx => h₁ cs rfl (by rw [hx]), fun hx => h₂ cs rfl (by rw [hx])⟩
      simp [Reader.step, State.step, isQuote, hne]
    · rw [if_neg hslash]
      split_ifs at hrest ⊢ <;> exact hrest
  | case5 q i c cs ih =>
    refine .cons (step_close (.inr (.inr (by simp [Mode.spot])))) (.cons (step_close (.inr (.inr ?_))) (ih hd))
    simp [Mode.spot, State.step]
  | case6 q i c cs h ih =>
    refine .cons (step_close (.inr (.inr (by simp [Mode.spot])))) ?_
    by_cases hback : c = '\\'
    · -- a backslash at the end of the text
      obtain rfl : cs = [] := by
        cases cs with
        | nil => rfl
        | cons x cs => exact (h x cs hback rfl).elim
      rfl
    · have hrest := ih hd
      rw [Mode.spot, State.step, if_neg hback]
      split_ifs at hrest ⊢ <;> exact hrest
  | case7 i cs ih => exact .cons (step_close (by simp)) (ih hd)
  | case8 i c cs h ih =>
    refine .cons (step_close (.inr (.inr (by simp [Mode.spot])))) ?_
    simpa [Mode.spot, State.step, h] using ih hd
  | case9 i cs ih => exact .cons (step_close (by simp)) (.cons (step_close (by simp)) (ih hd))
  | case10 i c cs h ih =>
    refine .cons (step_close (.inr (.inr (by simp [Mode.spot])))) ?_
    by_cases hstar : c = '*'
    · subst hstar
      refine (ih hd).of_step fun x hx => ?_
      obtain ⟨cs, rfl⟩ := List.head?_eq_some_iff.1 hx
      have hne : x ≠ '/' := fun hx => h cs rfl (by rw [hx])
      simp [Reader.step, Mode.spot, State.step, hne]
    · simpa [Mode.spot, State.step, hstar] using ih hd

/-- The reader of a block starts behind the brace that opens it. -/
theorem afterBlock?_eq : (afterBlock? ('\x7b' :: t)).any continues =
    ((⟨⟨.code, 1⟩, .close⟩ : Reader).after t).goesOn := by
  have h : Closes ⟨.code, 1⟩ 1 t (closingAt 1 (codeCharsFrom .code 1 t)) := @closes_closingAt t 1 1 .code Nat.one_pos
  have hbrace : closingBrace? ('\x7b' :: t) = closingAt 1 (codeCharsFrom .code 1 t) := rfl
  rw [afterBlock?, hbrace]
  generalize closingAt 1 (codeCharsFrom .code 1 t) = o at h
  cases o with
  | none =>
    have haim : ((⟨⟨.code, 1⟩, .close⟩ : Reader).after t).aim = .close := h
    exact (goesOn_of_aim haim).symm
  | some j =>
    obtain ⟨u, v, rfl, rfl, hu⟩ := h
    have hdrop : ('\x7b' :: (u ++ '\x7d' :: v)).drop (1 + u.length + 1) = v := by
      simp [Nat.add_comm 1]
    have hsplit : u ++ '\x7d' :: v = (u ++ ['\x7d']) ++ v := by simp
    rw [Option.map_some, Option.any_some, hdrop, continues_eq, hsplit, after_append, hu]

/-! ### Texts that tell a reader nothing -/

variable {r : Reader} {q : Char}

/-- What is known to a reader of code that reads the same is known to the reader, as long as it looks for something. -/
def Follows (r : Reader) (s : State) : Prop := r.state = s ∨ ∃ g, r.aim = .settled g

theorem Follows.step (h : Follows r s) (c : Char) : Follows (r.step c) (s.step c) := by
  obtain ⟨state, aim⟩ := r
  rcases h with rfl | ⟨g, rfl⟩
  · cases aim with
    | stop => exact .inl rfl
    | close =>
      rw [Reader.step]
      split_ifs with h
      · obtain ⟨hspot, rfl, hd⟩ := h
        obtain ⟨spot, d⟩ := state
        have hzero : d - 1 = 0 := Nat.sub_eq_zero_of_le hd
        rcases hspot with rfl | rfl <;> exact .inl (by simp [State.step, State.behindCode, State.start, hzero])
      · exact .inl rfl
    | next =>
      rw [Reader.step]
      split_ifs
      · exact .inr ⟨_, rfl⟩
      · exact .inr ⟨_, rfl⟩
      · exact .inl rfl
    | settled g => exact .inr ⟨g, rfl⟩
  · exact .inr ⟨g, rfl⟩

theorem Follows.after (h : Follows r s) (t : Text) : Follows (r.after t) (s.after t) := by
  induction t generalizing r s with
  | nil => exact h
  | cons c t ih => exact ih (h.step c)

/-- The next character of code tells the reader whether the value goes on. -/
def Reader.IsAlert (r : Reader) : Prop := r.aim = .next ∧ r.state.spot = .code

/-- A reader that has been told all, or that looks at the next character by itself. -/
def Reader.IsSteady (r : Reader) : Prop :=
  (∃ g, r.aim = .settled g) ∨ r.state.spot.IsSettled ∧ r.state.spot.IsSound

instance (r : Reader) : Decidable r.IsAlert := inferInstanceAs (Decidable (_ ∧ _))

/-- The reader behind a word, which does not go on with a value. -/
def Reader.told (r : Reader) : Reader := if r.IsAlert then ⟨r.state, .settled false⟩ else r

theorem Reader.step_of_state (hs : r.state.step c = r.state) (hc : c ≠ '\x7d' ∨ r.state.spot ≠ .code)
    (hspot : r.state.spot ≠ .slash) (ha : ¬ r.IsAlert) : r.step c = r := by
  obtain ⟨state, aim⟩ := r
  cases aim with
  | stop => exact congrArg (Reader.mk · .stop) hs
  | close =>
    rw [step_close (by tauto)]
    exact congrArg (Reader.mk · .close) hs
  | next =>
    have hcode : state.spot ≠ .code := fun h => ha ⟨rfl, h⟩
    rw [Reader.step, if_neg fun h => hcode h.1, if_neg fun h => hspot h.1]
    exact congrArg (Reader.mk · .next) hs
  | settled g => rfl

/-- A character that no reader takes for the start or the end of anything. -/
def isCalm (c : Char) : Bool := isSilent c && c != '*' && c != '\\' && c != '\n'

theorem isCalm_iff : isCalm c = true ↔ isSilent c = true ∧ c ≠ '*' ∧ c ≠ '\\' ∧ c ≠ '\n' := by
  simp [isCalm, and_assoc]

theorem state_step_of_isCalm (hs : s.spot.IsSettled) (hsound : s.spot.IsSound) (hc : isCalm c) : s.step c = s := by
  obtain ⟨hsilent, hstar, hback, hfeed⟩ := isCalm_iff.1 hc
  obtain ⟨spot, d⟩ := s
  cases spot with
  | code => exact behindCode_of_isSilent hsilent
  | literal q =>
    have hne : c ≠ q := by
      rintro rfl
      exact absurd hsound (by simp [Spot.IsSound, (isSilent_iff.1 hsilent).1])
    simp [State.step, hback, hne]
  | lineComment => simp [State.step, hfeed]
  | blockComment => simp [State.step, hstar]
  | slash => exact hs.elim
  | escape q => exact hs.elim
  | star => exact hs.elim

theorem Reader.step_of_isCalm (h : r.IsSteady) (ha : ¬ r.IsAlert) (hc : isCalm c) : r.step c = r := by
  rcases h with ⟨g, hg⟩ | ⟨hs, hsound⟩
  · obtain ⟨state, aim⟩ := r
    obtain rfl : aim = .settled g := hg
    rfl
  · refine step_of_state (state_step_of_isCalm hs hsound hc) (.inl (isSilent_iff.1 (isCalm_iff.1 hc).1).2.2.2) ?_ ha
    intro hspot
    rw [hspot] at hs
    exact hs

theorem Reader.after_of_isCalm (h : r.IsSteady) (ha : ¬ r.IsAlert) (ht : ∀ c ∈ t, isCalm c) : r.after t = r :=
  after_of_forall fun c hc => step_of_isCalm h ha (ht c hc)

theorem contains_of_isName (hc : isName c) : continuing.contains c = false := by
  rw [continuing_eq, ← Bool.not_eq_true, List.contains_iff_mem]
  intro hmem
  simp only [List.mem_cons, List.not_mem_nil, or_false] at hmem
  rcases hmem with rfl | rfl | rfl | rfl | rfl | rfl | rfl | rfl | rfl | rfl | rfl | rfl | rfl | rfl | rfl | rfl | rfl |
    rfl <;> exact absurd hc (by decide)

theorem isCalm_of_isIndent (hc : isIndent c) : isCalm c := by
  rcases isIndent_iff.1 hc with rfl | rfl <;> decide

theorem isCalm_of_isName (hc : isName c) : isCalm c := by
  refine isCalm_iff.2 ⟨isSilent_of_isName hc, ?_, ?_, ?_⟩ <;> (rintro rfl; exact absurd hc (by decide))

theorem isCalm_of_isBlank (hc : isBlank c = true) (hfeed : c ≠ '\n') : isCalm c :=
  isCalm_iff.2 ⟨isSilent_of_isBlank hc, ne_of_isBlank hc (by decide), ne_of_isBlank hc (by decide), hfeed⟩

theorem isBlank_of_isName (hc : isName c) : isBlank c = false := by
  rw [← Bool.not_eq_true]
  exact fun hblank => absurd hc (by simp [not_isName_of_isBlank hblank])

/-- A text that starts with a word and holds nothing special tells no more than that the value does not go on. -/
theorem Reader.after_word {g : Text} (h : r.IsSteady) (hg : AllIndent g) (hc : isName c) (ht : ∀ x ∈ t, isCalm x) :
    r.after (g ++ c :: t) = r.told := by
  by_cases ha : r.IsAlert
  · obtain ⟨⟨spot, d⟩, aim⟩ := r
    obtain ⟨rfl, rfl⟩ : aim = .next ∧ spot = .code := ha
    have hblank : (⟨⟨.code, d⟩, .next⟩ : Reader).after g = ⟨⟨.code, d⟩, .next⟩ :=
      after_of_forall fun x hx => step_next_blank (hg.allBlank x hx)
    have hslash : c ≠ '/' := by
      rintro rfl
      exact absurd hc (by decide)
    rw [after_append, hblank, after_cons, step_next_settled (isBlank_of_isName hc) hslash, contains_of_isName hc,
      after_settled, Reader.told, if_pos ⟨rfl, rfl⟩]
  · rw [Reader.told, if_neg ha]
    refine after_of_isCalm h ha fun x hx => ?_
    rcases List.mem_append.1 hx with hx | hx
    · exact isCalm_of_isIndent (hg.isIndent x hx)
    · rcases List.mem_cons.1 hx with rfl | hx
      · exact isCalm_of_isName hc
      · exact ht x hx

theorem Reader.after_comment (h : r.state.spot = .code) (ht : '*' ∉ t) : r.after ('/' :: '*' :: (t ++ ['*', '/'])) = r := by
  obtain ⟨⟨spot, d⟩, aim⟩ := r
  obtain rfl : spot = .code := h
  have hinside {aim : Aim} : (⟨⟨.blockComment, d⟩, aim⟩ : Reader).after t = ⟨⟨.blockComment, d⟩, aim⟩ := by
    refine after_of_forall fun c hc => step_of_state ?_ (.inr (by simp)) (by simp) (by simp [Reader.IsAlert])
    have hne : c ≠ '*' := fun h => ht (h ▸ hc)
    simp [State.step, hne]
  rw [after_cons, after_cons, after_append]
  cases aim with
  | settled g => rw [step_settled, step_settled, after_settled, after_settled]
  | stop => simp [Reader.step, State.step, State.behindCode, hinside]
  | close => simp [Reader.step, State.step, State.behindCode, hinside]
  | next => simp [Reader.step, State.step, State.behindCode, hinside]

/-- In a literal only quotes and backslashes matter. -/
theorem Reader.after_literal (h : r.state.spot = .literal q) (hq : isQuote q) (ht : ∀ c ∈ t, isQuote c = false ∧ c ≠ '\\') :
    r.after t = r := by
  obtain ⟨⟨spot, d⟩, aim⟩ := r
  obtain rfl : spot = .literal q := h
  refine after_of_forall fun c hc => step_of_state ?_ (.inr (by simp)) (by simp) (by simp [Reader.IsAlert])
  have hne : c ≠ q := by
    rintro rfl
    simp [(ht c hc).1] at hq
  simp [State.step, (ht c hc).2, hne]

theorem Reader.after_lineComment (h : r.state.spot = .lineComment) (ht : '\n' ∉ t) : r.after t = r := by
  obtain ⟨⟨spot, d⟩, aim⟩ := r
  obtain rfl : spot = .lineComment := h
  refine after_of_forall fun c hc => step_of_state ?_ (.inr (by simp)) (by simp) (by simp [Reader.IsAlert])
  have hne : c ≠ '\n' := fun h => ht (h ▸ hc)
  simp [State.step, hne]

/-! ### Readers that look at the next character by itself -/

theorem Follows.isSteady (h : Follows r s) (hs : s.spot.IsSettled) (hsound : s.spot.IsSound) : r.IsSteady := by
  rcases h with rfl | hr
  · exact .inr ⟨hs, hsound⟩
  · exact .inl hr

/-- Behind a line feed no character pairs up with the one in front of it. -/
theorem isSettled_step_newline (hsound : s.spot.IsSound) : (s.step '\n').spot.IsSettled := by
  obtain ⟨spot, d⟩ := s
  cases spot with
  | literal q =>
    rw [State.step]
    split_ifs <;> trivial
  | _ => trivial

theorem isSteady_step_newline (h : Follows r s) (hsound : s.spot.IsSound) : (r.step '\n').IsSteady :=
  (h.step '\n').isSteady (isSettled_step_newline hsound) (isSound_step hsound)

theorem isSteady_step_close (h : Follows r s) (hsound : s.spot.IsSound) : (r.step ')').IsSteady :=
  (h.step ')').isSteady (isSettled_step_close s) (isSound_step hsound)

theorem not_isAlert_step_close (h : Follows r s) (hsound : s.spot.IsSound) : ¬ (r.step ')').IsAlert := by
  obtain ⟨⟨spot, d⟩, aim⟩ := r
  rcases h with rfl | ⟨g, rfl⟩
  · cases aim with
    | next =>
      cases spot with
      | literal q =>
        have hq : ')' ≠ q := by
          rintro rfl
          simp [Spot.IsSound, isQuote] at hsound
        simp [Reader.step, State.step, hq, Reader.IsAlert]
      | _ => simp [Reader.step, State.step, Reader.IsAlert, isBlank]
    | close =>
      rw [step_close (.inl (by simp))]
      simp [Reader.IsAlert]
    | _ => simp [Reader.step, Reader.IsAlert]
  · simp [Reader.step, Reader.IsAlert]

theorem isSteady_told (h : r.IsSteady) : r.told.IsSteady ∧ ¬ r.told.IsAlert := by
  rw [Reader.told]
  split_ifs with ha
  · exact ⟨.inl ⟨_, rfl⟩, by simp [Reader.IsAlert]⟩
  · exact ⟨h, ha⟩

/-- A closing parenthesis leaves a reader steady, whatever stands in front of it. -/
theorem Reader.isSteady_after_close (hr : r.IsSteady) (t : Text) :
    (r.after (t ++ [')'])).IsSteady ∧ ¬ (r.after (t ++ [')'])).IsAlert := by
  rcases hr with ⟨g, hg⟩ | ⟨-, hsound⟩
  · obtain ⟨state, aim⟩ := r
    obtain rfl : aim = .settled g := hg
    rw [after_settled]
    exact ⟨.inl ⟨g, rfl⟩, by simp [Reader.IsAlert]⟩
  · have hfollows : Follows (r.after t) (r.state.after t) := Follows.after (.inl rfl) t
    rw [Reader.after_append]
    exact ⟨isSteady_step_close hfollows (isSound_after hsound), not_isAlert_step_close hfollows (isSound_after hsound)⟩

end AppsScript.Source
