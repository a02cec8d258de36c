import AppsScript.Proofs.ReaderStates
import Mathlib.Algebra.Order.Group.Nat

/-!
# What a stripper knows behind a prefix

`scanFrom` is `stripFrom` together with the mode in which it ends and the code that it has read. A line begins at the
top level, and a block is closed, behind those characters up to which it has come to the end of a line of code, or to as
many closing braces as opening ones (`startsAt_codeCharsFrom`, `closingAt_codeCharsFrom`).
-/

namespace AppsScript.Source

open Text

variable {t u v cs : Text} {c q : Char} {i j k n d : Nat} {mode : Mode}

/-! ### What a stripper knows -/

/-- What a stripper of comments has come to behind a text. -/
structure Stripping where
  mode : Mode
  written : Text
  /-- The characters read in code, without those that open a comment. -/
  code : Text
deriving DecidableEq

namespace Stripping

/-- The same with `t` written in front. -/
def writes (t : Text) (s : Stripping) : Stripping := { s with written := t ++ s.written }

/-- The same with `c` read in code, and written, in front. -/
def reads (c : Char) (s : Stripping) : Stripping := { s with written := c :: s.written, code := c :: s.code }

end Stripping

/-- `stripFrom` together with the mode in which it is at the end and the code that it has read. -/
def scanFrom : Mode → Text → Stripping
  | mode, [] => ⟨mode, [], []⟩
  | .code, '/' :: '/' :: cs => scanFrom .lineComment cs
  | .code, '/' :: '*' :: cs => scanFrom .blockComment cs
  | .code, c :: cs => (scanFrom (.behind c) cs).reads c
  | .literal q, '\\' :: c :: cs => (scanFrom (.literal q) cs).writes ['\\', c]
  | .literal q, c :: cs => (scanFrom (if c = q then .code else .literal q) cs).writes [c]
  | .lineComment, c :: cs => if c = '\n' then (scanFrom .code cs).writes [c] else scanFrom .lineComment cs
  | .blockComment, '*' :: '/' :: cs => (scanFrom .code cs).writes [' ']
  | .blockComment, _ :: cs => scanFrom .blockComment cs

theorem written_scanFrom (mode : Mode) (t : Text) : (scanFrom mode t).written = stripFrom mode t := by
  fun_induction scanFrom mode t with
  | case1 mode => cases mode <;> rfl
  | case4 c cs h₁ h₂ ih => rw [stripFrom, ← ih]; rfl; exacts [h₁, h₂]
  | case6 q c cs h ih => rw [stripFrom, ← ih]; rfl; exact h
  | case10 c cs h ih => rw [stripFrom, ← ih]; exact h
  | _ => simp_all [stripFrom, Stripping.writes]

/-- The number of open blocks behind one more character of code; a closing brace without an opening one does not
count. -/
def opened (d : Nat) (c : Char) : Nat := if c = '\x7b' then d + 1 else if c = '\x7d' then d - 1 else d

/-- The number of open blocks behind `code`, in front of which there are `d`. -/
def openBlocks (d : Nat) (code : Text) : Nat := code.foldl opened d

@[simp] theorem openBlocks_nil (d : Nat) : openBlocks d [] = d := rfl

@[simp] theorem openBlocks_cons (d : Nat) (c : Char) (code : Text) :
    openBlocks d (c :: code) = openBlocks (opened d c) code := rfl

/-- At offset `k` of the text there is a line feed, behind which the stripper is in code and no block is open. -/
def breaksAt (d : Nat) (mode : Mode) (t : Text) (k : Nat) : Bool :=
  t[k]? = some '\n' ∧ (scanFrom mode (t.take (k + 1))).mode = .code ∧
    openBlocks d (scanFrom mode (t.take (k + 1))).code = 0

/-- Behind offset `k` of the text the stripper has read `d` more closing braces in code than opening ones. -/
def closesAt (d : Nat) (mode : Mode) (t : Text) (k : Nat) : Bool :=
  (scanFrom mode (t.take (k + 1))).code.count '\x7d' = d + (scanFrom mode (t.take (k + 1))).code.count '\x7b'

/-- The offsets below `n` with a property, counted from `i` on. -/
def places (p : Nat → Bool) (i n : Nat) : List Nat := ((List.range n).filter p).map (i + ·)

variable {p r : Nat → Bool}

theorem places_succ (h : ∀ k, p (k + 1) = r k) :
    places p i (n + 1) = (if p 0 then [i] else []) ++ places r (i + 1) n := by
  have hshift : p ∘ Nat.succ = r := funext h
  have hmap : (i + ·) ∘ Nat.succ = (i + 1 + ·) := funext fun k => by simp only [Function.comp_apply]; omega
  rw [places, places, List.range_succ_eq_map, List.filter_cons, List.filter_map, hshift]
  split_ifs <;> simp [hmap]

theorem places_succ_of_not (h₀ : p 0 = false) (h : ∀ k, p (k + 1) = r k) :
    places p i (n + 1) = places r (i + 1) n := by
  rw [places_succ h, h₀]
  rfl

theorem places_succ_succ_of_not (h₀ : p 0 = false) (h₁ : p 1 = false) (h : ∀ k, p (k + 2) = r k) :
    places p i (n + 2) = places r (i + 2) n := by
  rw [places_succ_of_not (r := fun k => p (k + 1)) h₀ fun _ => rfl, places_succ_of_not h₁ h]

theorem exists_of_take_eq_cons {x : Char} {v : Text} (h : cs.take k = x :: v) : ∃ v', cs = x :: v' := by
  cases cs with
  | nil => simp at h
  | cons y cs =>
    cases k with
    | zero => simp at h
    | succ k =>
      obtain ⟨rfl, -⟩ := List.cons.inj h
      exact ⟨cs, rfl⟩

theorem scanFrom_code_take (h₁ : ∀ v, c = '/' → cs = '/' :: v → False) (h₂ : ∀ v, c = '/' → cs = '*' :: v → False) :
    scanFrom .code (c :: cs.take k) = (scanFrom (.behind c) (cs.take k)).reads c := by
  rw [scanFrom]
  · intro v hc hv
    obtain ⟨v', hv'⟩ := exists_of_take_eq_cons hv
    exact h₁ v' hc hv'
  · intro v hc hv
    obtain ⟨v', hv'⟩ := exists_of_take_eq_cons hv
    exact h₂ v' hc hv'

theorem scanFrom_literal_take (h : ∀ x v, c = '\\' → cs = x :: v → False) :
    scanFrom (.literal q) (c :: cs.take k) =
      (scanFrom (if c = q then .code else .literal q) (cs.take k)).writes [c] := by
  rw [scanFrom]
  intro x v hc hv
  obtain ⟨v', hv'⟩ := exists_of_take_eq_cons hv
  exact h x v' hc hv'

theorem scanFrom_blockComment_take (h : ∀ v, c = '*' → cs = '/' :: v → False) :
    scanFrom .blockComment (c :: cs.take k) = scanFrom .blockComment (cs.take k) := by
  rw [scanFrom]
  intro v hc hv
  obtain ⟨v', hv'⟩ := exists_of_take_eq_cons hv
  exact h v' hc hv'

theorem startsAt_cons {l : List (Nat × Char)} :
    startsAt d ((i, c) :: l) = (if c = '\n' ∧ d = 0 then [i + 1] else []) ++ startsAt (opened d c) l := by
  rw [startsAt, opened]
  by_cases hopen : c = '\x7b'
  · simp [hopen]
  by_cases hclose : c = '\x7d'
  · simp [hclose]
  · simp only [if_neg hopen, if_neg hclose]
    split_ifs <;> rfl

theorem startsAt_codeCharsFrom (hmode : mode.spot.IsSound) :
    startsAt d (codeCharsFrom mode i t) = (places (breaksAt d mode t) i t.length).map (· + 1) := by
  -- Only what is read can end a line: code, and the feed behind a line comment. A sign of two characters is skipped
  -- whole, and with it the prefix that ends inside.
  fun_induction codeCharsFrom mode i t generalizing d with
  | case1 mode i => rfl
  | case2 i cs ih =>
    rw [ih trivial, List.length_cons, List.length_cons, places_succ_succ_of_not]
    · simp [breaksAt]
    · simp [breaksAt]
    · intro k
      simp [breaksAt, scanFrom]
  | case3 i cs ih =>
    rw [ih trivial, List.length_cons, List.length_cons, places_succ_succ_of_not]
    · simp [breaksAt]
    · simp [breaksAt]
    · intro k
      simp [breaksAt, scanFrom]
  | case4 i c cs h₁ h₂ ih =>
    have hfirst : breaksAt d .code (c :: cs) 0 = decide (c = '\n' ∧ d = 0) := by
      by_cases hc : c = '\n'
      · subst hc
        simp [breaksAt, scanFrom, Stripping.reads, opened, Mode.behind, isQuote]
      · simp [breaksAt, hc]
    rw [startsAt_cons, ih (Spot.isSound_behind c), List.length_cons,
      places_succ (r := breaksAt (opened d c) (.behind c) cs), hfirst]
    · simp only [decide_eq_true_eq, List.map_append]
      split_ifs <;> rfl
    · intro k
      simp [breaksAt, scanFrom_code_take h₁ h₂, Stripping.reads]
  | case5 q i c cs ih =>
    rw [ih hmode, List.length_cons, List.length_cons, places_succ_succ_of_not]
    · simp [breaksAt]
    · simp [breaksAt, scanFrom, Stripping.writes]
    · intro k
      simp [breaksAt, scanFrom, Stripping.writes]
  | case6 q i c cs h ih =>
    have hq : q ≠ '\n' := by
      rintro rfl
      exact absurd (show isQuote '\n' = true from hmode) (by decide)
    rw [ih (Spot.isSound_quote hmode c), List.length_cons, places_succ_of_not]
    · have hscan : scanFrom (.literal q) [c] = _ := scanFrom_literal_take (q := q) (k := 0) h
      by_cases hc : c = '\n'
      · subst hc
        simp [breaksAt, hscan, hq.symm, scanFrom, Stripping.writes]
      · simp [breaksAt, hc]
    · intro k
      simp [breaksAt, scanFrom_literal_take h, Stripping.writes]
  | case7 i cs ih =>
    have hfirst : breaksAt d .lineComment ('\n' :: cs) 0 = decide (d = 0) := by
      simp [breaksAt, scanFrom, Stripping.writes]
    rw [startsAt_cons, ih trivial, List.length_cons, places_succ (r := breaksAt d .code cs), hfirst]
    · simp only [decide_eq_true_eq, List.map_append, true_and]
      split_ifs <;> rfl
    · intro k
      simp [breaksAt, scanFrom, Stripping.writes]
  | case8 i c cs h ih =>
    rw [ih trivial, List.length_cons, places_succ_of_not]
    · simp [breaksAt, h]
    · intro k
      simp [breaksAt, scanFrom, h]
  | case9 i cs ih =>
    rw [ih trivial, List.length_cons, List.length_cons, places_succ_succ_of_not]
    · simp [breaksAt]
    · simp [breaksAt, scanFrom, Stripping.writes]
    · intro k
      simp [breaksAt, scanFrom, Stripping.writes]
  | case10 i c cs h ih =>
    rw [ih trivial, List.length_cons, places_succ_of_not]
    · simp [breaksAt, scanFrom]
    · intro k
      simp [breaksAt, scanFrom_blockComment_take h]

/-- The brace that closes the last open block is the one behind which none is open. -/
theorem closingAt_cons {l : List (Nat × Char)} (hd : 0 < d) :
    closingAt d ((i, c) :: l) = if opened d c = 0 then some i else closingAt (opened d c) l := by
  rw [closingAt, opened]
  by_cases hopen : c = '\x7b'
  · simp [hopen]
  by_cases hclose : c = '\x7d'
  · have hlast : d ≤ 1 ↔ d - 1 = 0 := by omega
    simp [hclose, hlast]
  · simp [hopen, hclose, Nat.ne_of_gt hd]

/-- Whether the braces behind a character are balanced depends on the blocks that are open behind it. -/
theorem count_cons_iff (hd : 0 < d) (code : Text) : (c :: code).count '\x7d' = d + (c :: code).count '\x7b' ↔
    code.count '\x7d' = opened d c + code.count '\x7b' := by
  rw [opened]
  by_cases hopen : c = '\x7b'
  · subst hopen
    rw [List.count_cons_of_ne (by decide), List.count_cons_self, if_pos rfl]
    omega
  by_cases hclose : c = '\x7d'
  · subst hclose
    rw [List.count_cons_self, List.count_cons_of_ne (by decide), if_neg (by decide), if_pos rfl]
    omega
  · rw [List.count_cons_of_ne hopen, List.count_cons_of_ne hclose, if_neg hopen, if_neg hclose]

theorem closingAt_codeCharsFrom (hd : 0 < d) :
    closingAt d (codeCharsFrom mode i t) = (places (closesAt d mode t) i t.length).head? := by
  have hne : ¬ 0 = d := by omega
  fun_induction codeCharsFrom mode i t generalizing d with
  | case1 mode i => rfl
  | case2 i cs ih =>
    rw [ih hd hne, List.length_cons, List.length_cons, places_succ_succ_of_not]
    · simp [closesAt, scanFrom, Stripping.reads, Mode.behind, isQuote, hne]
    · simp [closesAt, scanFrom, hne]
    · intro k
      simp [closesAt, scanFrom]
  | case3 i cs ih =>
    rw [ih hd hne, List.length_cons, List.length_cons, places_succ_succ_of_not]
    · simp [closesAt, scanFrom, Stripping.reads, Mode.behind, isQuote, hne]
    · simp [closesAt, scanFrom, hne]
    · intro k
      simp [closesAt, scanFrom]
  | case4 i c cs h₁ h₂ ih =>
    have hfirst : closesAt d .code (c :: cs) 0 = decide (opened d c = 0) := by
      have hscan : scanFrom .code [c] = (scanFrom (.behind c) []).reads c := scanFrom_code_take (k := 0) h₁ h₂
      have hcount := count_cons_iff (c := c) hd []
      simp only [closesAt, List.take_succ_cons, List.take_zero, hscan, Stripping.reads, scanFrom, hcount]
      simp [eq_comm]
    rw [closingAt_cons hd, List.length_cons, places_succ (r := closesAt (opened d c) (.behind c) cs), hfirst]
    · by_cases hzero : opened d c = 0
      · simp [hzero]
      · simp [hzero, ih (Nat.pos_of_ne_zero hzero) (Ne.symm hzero)]
    · intro k
      simp only [closesAt, List.take_succ_cons, scanFrom_code_take h₁ h₂, Stripping.reads, count_cons_iff hd]
  | case5 q i c cs ih =>
    rw [ih hd hne, List.length_cons, List.length_cons, places_succ_succ_of_not]
    · simp [closesAt, scanFrom, Stripping.writes, hne]
    · simp [closesAt, scanFrom, Stripping.writes, hne]
    · intro k
      simp [closesAt, scanFrom, Stripping.writes]
  | case6 q i c cs h ih =>
    rw [ih hd hne, List.length_cons, places_succ_of_not]
    · have hscan : scanFrom (.literal q) [c] = _ := scanFrom_literal_take (q := q) (k := 0) h
      simp [closesAt, hscan, scanFrom, Stripping.writes, hne]
    · intro k
      simp [closesAt, scanFrom_literal_take h, Stripping.writes]
  | case7 i cs ih =>
    -- The line feed behind a line comment is read, but it closes nothing.
    have hopened : opened d '\n' = d := by simp [opened]
    rw [closingAt_cons hd, hopened, if_neg (Ne.symm hne), ih hd hne, List.length_cons, places_succ_of_not]
    · simp [closesAt, scanFrom, Stripping.writes, hne]
    · intro k
      simp [closesAt, scanFrom, Stripping.writes]
  | case8 i c cs h ih =>
    rw [ih hd hne, List.length_cons, places_succ_of_not]
    · simp [closesAt, scanFrom, h, hne]
    · intro k
      simp [closesAt, scanFrom, h]
  | case9 i cs ih =>
    rw [ih hd hne, List.length_cons, List.length_cons, places_succ_succ_of_not]
    · simp [closesAt, scanFrom, hne]
    · simp [closesAt, scanFrom, Stripping.writes, hne]
    · intro k
      simp [closesAt, scanFrom, Stripping.writes]
  | case10 i c cs h ih =>
    rw [ih hd hne, List.length_cons, places_succ_of_not]
    · simp [closesAt, scanFrom, hne]
    · intro k
      simp [closesAt, scanFrom_blockComment_take h]

end AppsScript.Source
