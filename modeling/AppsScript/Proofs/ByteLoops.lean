import AppsScript.Proofs.StrippedPrefixes

/-!
# Loops over bytes

Lines at the top level and closing braces as they are looked for in place, in a text of which there are only the bytes.
Nothing but its own tests keeps such a loop within the text, its count above zero and its slices from beginning in the
middle of a character (`Breach`).

No byte at which a loop stops goes on with a character, so that a round is described by the character it is about
(`startsLoop_cons`, `closingLoop_cons`). In a literal or a comment a loop goes straight to the end (`resumeAt`).
-/

namespace AppsScript.Source

open Text

variable {code bs rest : List UInt8} {lineEnd : List UInt8 → Nat → Nat} {b : UInt8} {v : Text} {c q : Char}
  {i j d : Nat}

/-! ### Loops over bytes -/

/-- What breaks off a loop over bytes. -/
inductive Breach
  /-- A count falls below zero. -/
  | underflow
  /-- A slice begins behind the end of the text or within a character. -/
  | torn
deriving DecidableEq, Repr

/-- No character goes on at the offset. -/
def isBoundary (code : List UInt8) (i : Nat) : Bool :=
  match code[i]? with
  | none => i == code.length
  | some b => b < 0x80 || 0xc0 ≤ b

/-- The bytes from `i` on. -/
def sliceFrom (code : List UInt8) (i : Nat) : Except Breach (List UInt8) :=
  if isBoundary code i then .ok (code.drop i) else .error .torn

/-- The offset of the first `*/`. -/
def closeOffset? : List UInt8 → Option Nat
  | [] => none
  | b :: bs =>
    if b = '*'.toUInt8 ∧ bs.head? = some '/'.toUInt8 then some 0 else (closeOffset? bs).map (· + 1)

/-- The offset of the next `quote` from `i` on; a backslash takes the byte behind it along. -/
def quoteFrom (code : List UInt8) (quote : UInt8) (i : Nat) : Nat :=
  match h : code[i]? with
  | none => i
  | some b =>
    if b = quote then i
    else if b = '\\'.toUInt8 then quoteFrom code quote (i + 2)
    else quoteFrom code quote (i + 1)
termination_by code.length - i
decreasing_by
  all_goals
    have hi := (List.getElem?_eq_some_iff.1 h).1
    omega

/-- The offset of the next line feed from `i` on. -/
def feedFrom (code : List UInt8) (i : Nat) : Nat :=
  match h : code[i]? with
  | none => i
  | some b => if b = '\n'.toUInt8 then i else feedFrom code (i + 1)
termination_by code.length - i
decreasing_by
  have hi := (List.getElem?_eq_some_iff.1 h).1
  omega

/-- The offset from `i` on that the next line feed stands behind. -/
def lastFrom (code : List UInt8) (i : Nat) : Nat :=
  match h : code[i + 1]? with
  | none => i
  | some b => if b = '\n'.toUInt8 then i else lastFrom code (i + 1)
termination_by code.length - i
decreasing_by
  have hi := (List.getElem?_eq_some_iff.1 h).1
  omega

theorem le_quoteFrom (code : List UInt8) (quote : UInt8) (i : Nat) : i ≤ quoteFrom code quote i := by
  fun_induction quoteFrom code quote i <;> omega

theorem le_feedFrom (code : List UInt8) (i : Nat) : i ≤ feedFrom code i := by
  fun_induction feedFrom code i <;> omega

theorem le_lastFrom (code : List UInt8) (i : Nat) : i ≤ lastFrom code i := by
  fun_induction lastFrom code i <;> omega

/-- A byte that opens and closes literals. -/
def isQuoteByte (b : UInt8) : Bool := b = '\''.toUInt8 ∨ b = '"'.toUInt8 ∨ b = '`'.toUInt8

/-- The offset of the last byte of the comment that `rest`, which stands at offset `i`, is the inside of. -/
def commentEnd (code : List UInt8) (i : Nat) (rest : List UInt8) : Nat :=
  match closeOffset? rest with
  | none => code.length
  | some k => i + k + 1

/-- The offset at which a loop goes on behind the byte `b` of code at offset `i`: behind a literal or a comment, the
last byte of which is at `lineEnd` if it ends with its line, and otherwise at the next byte. -/
def passFrom (lineEnd : List UInt8 → Nat → Nat) (code : List UInt8) (b : UInt8) (i : Nat) : Except Breach Nat :=
  if isQuoteByte b then .ok (quoteFrom code b (i + 1) + 1)
  else if b = '/'.toUInt8 ∧ code[i + 1]? = some '/'.toUInt8 then .ok (lineEnd code i + 1)
  else if b = '/'.toUInt8 ∧ code[i + 1]? = some '*'.toUInt8 then
    (sliceFrom code (i + 2)).map fun rest => commentEnd code (i + 2) rest + 1
  else .ok (i + 1)

theorem lt_commentEnd (rest : List UInt8) (hi : i < code.length) : i < commentEnd code (i + 2) rest + 1 := by
  unfold commentEnd
  split <;> omega

theorem lt_of_passFrom (hline : i ≤ lineEnd code i) (hi : code[i]? = some b) (h : passFrom lineEnd code b i = .ok j) :
    i < j := by
  have hin := (List.getElem?_eq_some_iff.1 hi).1
  unfold passFrom at h
  split_ifs at h
  · have hquote := le_quoteFrom code b (i + 1)
    cases h
    omega
  · cases h
    omega
  · cases hrest : sliceFrom code (i + 2) with
    | error breach =>
      rw [hrest] at h
      cases h
    | ok rest =>
      rw [hrest] at h
      cases h
      exact lt_commentEnd rest hin
  · cases h
    omega

/-- The offsets in `starts`, and those behind the line feeds from `i` on that are read at depth 0. -/
def startsLoop (code : List UInt8) (starts : List Nat) (depth i : Nat) : Except Breach (List Nat) :=
  match _hi : code[i]? with
  | none => .ok starts
  | some b =>
    if b = '\x7b'.toUInt8 then startsLoop code starts (depth + 1) (i + 1)
    else if b = '\x7d'.toUInt8 then startsLoop code starts (depth - 1) (i + 1)
    else if b = '\n'.toUInt8 ∧ depth = 0 then startsLoop code (starts ++ [i + 1]) depth (i + 1)
    else
      match _hj : passFrom lastFrom code b i with
      | .error breach => .error breach
      | .ok j => startsLoop code starts depth j
termination_by code.length - i
decreasing_by
  all_goals have hin := (List.getElem?_eq_some_iff.1 _hi).1
  · omega
  · omega
  · omega
  · have hlt := lt_of_passFrom (le_lastFrom code i) _hi _hj
    omega

/-- The offset of the brace from `i` on that closes the last of `depth` open blocks. -/
def closingLoop (code : List UInt8) (depth i : Nat) : Except Breach (Option Nat) :=
  match _hi : code[i]? with
  | none => .ok none
  | some b =>
    if b = '\x7b'.toUInt8 then closingLoop code (depth + 1) (i + 1)
    else if b = '\x7d'.toUInt8 then
      if depth = 0 then .error .underflow
      else if depth - 1 = 0 then .ok (some i)
      else closingLoop code (depth - 1) (i + 1)
    else
      match _hj : passFrom feedFrom code b i with
      | .error breach => .error breach
      | .ok j => closingLoop code depth j
termination_by code.length - i
decreasing_by
  all_goals have hin := (List.getElem?_eq_some_iff.1 _hi).1
  · omega
  · omega
  · have hlt := lt_of_passFrom (le_feedFrom code i) _hi _hj
    omega

/-- The loops come to the same line feed, one behind it and the other in front. -/
theorem lastFrom_eq (code : List UInt8) (i : Nat) : lastFrom code i + 1 = feedFrom code (i + 1) := by
  fun_induction lastFrom code i with
  | case1 i h => rw [feedFrom]; split <;> simp_all
  | case2 i h => rw [feedFrom]; split <;> simp_all
  | case3 i b h hb ih =>
    rw [ih]
    conv_rhs => rw [feedFrom]
    split <;> simp_all

/-! ### Characters as bytes -/

theorem toNat_toUInt8 {a : Char} (ha : a.toNat < 0x80) : a.toUInt8.toNat = a.toNat := by
  have h : a.toUInt8.toNat = a.toNat % 256 := UInt32.toNat_toUInt8 a.val
  omega

theorem toUInt8_ne {a : Char} (hne : c ≠ a) (hc : c.toNat < 0x80) (ha : a.toNat < 0x80) : c.toUInt8 ≠ a.toUInt8 := by
  intro heq
  rw [← UInt8.toNat_inj, toNat_toUInt8 hc, toNat_toUInt8 ha] at heq
  exact hne (Char.toNat_inj.1 heq)

theorem ne_of_high {a : Char} (hb : 0x80 ≤ b) (ha : a.toNat < 0x80) : b ≠ a.toUInt8 := by
  rintro rfl
  rw [UInt8.le_iff_toNat_le, toNat_toUInt8 ha] at hb
  exact absurd ha (Nat.not_lt.2 hb)

/-- The first byte of a character goes on with none, and it is that of an ASCII character only for this character. The
others are no ASCII characters. -/
theorem exists_bytes (c : Char) : ∃ b bs, String.utf8EncodeChar c = b :: bs ∧ (b < 0x80 ∨ 0xc0 ≤ b) ∧
    (∀ x ∈ bs, 0x80 ≤ x) ∧ ∀ a : Char, a.toNat < 0x80 → (b = a.toUInt8 ↔ c = a) := by
  have hmod {n : Nat} : (UInt8.ofNat n).toNat = n % 256 := UInt8.toNat_ofNat'
  have hmark {n : Nat} {a : Char} (hn : n < 256) (ha : a.toNat < 0x80) : UInt8.ofNat n = a.toUInt8 ↔ n = a.toNat := by
    rw [← UInt8.toNat_inj, hmod, toNat_toUInt8 ha, Nat.mod_eq_of_lt hn]
  have hchar {a : Char} : c.val.toNat = a.toNat ↔ c = a := ⟨fun h => Char.toNat_inj.1 h, fun h => h ▸ rfl⟩
  unfold String.utf8EncodeChar
  simp only [UInt8.le_iff_toNat_le, UInt8.lt_iff_toNat_lt]
  split_ifs with h₁ h₂ h₃
  · refine ⟨_, _, rfl, .inl ?_, by simp, fun a ha => ?_⟩
    · rw [hmod]
      change _ < 128
      omega
    · rw [hmark (by omega) ha, hchar]
  all_goals
    refine ⟨_, _, rfl, .inr ?_, ?_, fun a ha => ?_⟩
    · rw [hmod]
      change 192 ≤ _
      omega
    · simp [hmod]
      omega
    · rw [hmark (by omega) ha, ← hchar]
      omega

theorem utf8_cons (c : Char) (v : Text) : utf8 (c :: v) = String.utf8EncodeChar c ++ utf8 v := List.flatMap_cons

theorem drop_behind (h : code.drop i = utf8 (c :: v)) : code.drop (i + c.utf8Size) = utf8 v := by
  rw [← List.drop_drop, h, utf8_cons, ← String.length_utf8EncodeChar, List.drop_left]

theorem getElem?_of_drop (h : code.drop i = b :: bs) : code[i]? = some b := by
  have hfirst : (code.drop i)[0]? = code[i + 0]? := List.getElem?_drop
  rw [h] at hfirst
  exact hfirst.symm

/-- An ASCII character stands at the offset of its byte. -/
theorem getElem?_eq_iff (h : code.drop i = utf8 v) {a : Char} (ha : a.toNat < 0x80) :
    code[i]? = some a.toUInt8 ↔ v.head? = some a := by
  cases v with
  | nil =>
    have hend : code[i]? = none := List.getElem?_eq_none (List.drop_eq_nil_iff.1 h)
    simp [hend]
  | cons c v =>
    obtain ⟨b, bs, hb, -, -, hfirst⟩ := exists_bytes c
    rw [utf8_cons, hb] at h
    rw [getElem?_of_drop h, Option.some_inj, hfirst a ha, List.head?_cons, Option.some_inj]

theorem isBoundary_of_drop (h : code.drop i = utf8 v) (hi : i ≤ code.length) : isBoundary code i = true := by
  unfold isBoundary
  cases v with
  | nil =>
    have hlen : code.length ≤ i := List.drop_eq_nil_iff.1 h
    rw [List.getElem?_eq_none hlen]
    simpa using Nat.le_antisymm hi hlen
  | cons c v =>
    obtain ⟨b, bs, hb, hfirst, -⟩ := exists_bytes c
    rw [utf8_cons, hb] at h
    rw [getElem?_of_drop h]
    simpa using hfirst

section

variable {α : Type} {f : Nat → α}

/-- What no byte but an ASCII character changes is unchanged behind the first byte of a character. -/
theorem eq_behind_first (hf : ∀ i b, code[i]? = some b → 0x80 ≤ b → f i = f (i + 1)) (h : code.drop i = utf8 (c :: v)) :
    f (i + 1) = f (i + c.utf8Size) := by
  have hpass {bs rest : List UInt8} {i : Nat} (hbs : ∀ x ∈ bs, 0x80 ≤ x) (h : code.drop i = bs ++ rest) :
      f i = f (i + bs.length) := by
    induction bs generalizing i with
    | nil => rfl
    | cons b bs ih =>
      have hrest : code.drop (i + 1) = bs ++ rest := by rw [← List.drop_drop, h]; rfl
      rw [hf i b (getElem?_of_drop h) (hbs b (by simp)), ih (fun x hx => hbs x (by simp [hx])) hrest, List.length_cons]
      congr 1
      omega
  obtain ⟨b, bs, hb, -, hhigh, -⟩ := exists_bytes c
  have hrest : code.drop (i + 1) = bs ++ utf8 v := by
    rw [← List.drop_drop, h, utf8_cons, hb]
    rfl
  rw [hpass hhigh hrest, ← String.length_utf8EncodeChar, hb, List.length_cons]
  congr 1
  omega

/-- What only the bytes of some ASCII characters change is unchanged behind any other character. -/
theorem eq_behind (marks : List Char) (hmarks : ∀ a ∈ marks, a.toNat < 0x80)
    (hf : ∀ i b, code[i]? = some b → (∀ a ∈ marks, b ≠ a.toUInt8) → f i = f (i + 1)) (h : code.drop i = utf8 (c :: v))
    (hc : c ∉ marks) : f i = f (i + c.utf8Size) := by
  obtain ⟨b, bs, hb, -, -, hfirst⟩ := exists_bytes c
  have hdrop := h
  rw [utf8_cons, hb] at hdrop
  rw [hf i b (getElem?_of_drop hdrop) fun a ha heq => hc ((hfirst a (hmarks a ha)).1 heq ▸ ha)]
  exact eq_behind_first (fun i b hi hb => hf i b hi fun a ha => ne_of_high hb (hmarks a ha)) h

end

theorem toNat_lt_of_isQuote (hc : isQuote c = true) : c.toNat < 0x80 := by
  simp only [isQuote, Bool.or_eq_true, beq_iff_eq] at hc
  obtain (rfl | rfl) | rfl := hc <;> decide

theorem utf8Size_of_isQuote (hc : isQuote c = true) : c.utf8Size = 1 := by
  simp only [isQuote, Bool.or_eq_true, beq_iff_eq] at hc
  obtain (rfl | rfl) | rfl := hc <;> rfl

/-! ### The ends of literals and comments -/

/-- The offset at which a loop goes on that is in `mode` at offset `i`. -/
def resumeAt (code : List UInt8) : Mode → (i : Nat) → Nat
  | .code, i => i
  | .literal q, i => quoteFrom code q.toUInt8 i + 1
  | .lineComment, i => feedFrom code i
  | .blockComment, i => commentEnd code i (code.drop i) + 1

theorem length_le_resumeAt (mode : Mode) (hi : code.length ≤ i) : code.length ≤ resumeAt code mode i := by
  cases mode with
  | code => exact hi
  | literal q => exact Nat.le_succ_of_le (hi.trans (le_quoteFrom code q.toUInt8 i))
  | lineComment => exact hi.trans (le_feedFrom code i)
  | blockComment =>
    rw [resumeAt, commentEnd]
    split <;> omega

theorem quoteFrom_of_getElem? {quote : UInt8} (hi : code[i]? = some b) : quoteFrom code quote i =
    if b = quote then i
    else if b = '\\'.toUInt8 then quoteFrom code quote (i + 2)
    else quoteFrom code quote (i + 1) := by
  conv_lhs => rw [quoteFrom]
  split
  · next hnone => rw [hi] at hnone; cases hnone
  · next b' hb' =>
    obtain rfl : b = b' := Option.some.inj (hi.symm.trans hb')
    rfl

theorem quoteFrom_of_ne {quote : UInt8} (hi : code[i]? = some b) (hquote : b ≠ quote) (hback : b ≠ '\\'.toUInt8) :
    quoteFrom code quote i = quoteFrom code quote (i + 1) := by
  rw [quoteFrom_of_getElem? hi, if_neg hquote, if_neg hback]

theorem feedFrom_of_getElem? (hi : code[i]? = some b) :
    feedFrom code i = if b = '\n'.toUInt8 then i else feedFrom code (i + 1) := by
  conv_lhs => rw [feedFrom]
  split
  · next hnone => rw [hi] at hnone; cases hnone
  · next b' hb' =>
    obtain rfl : b = b' := Option.some.inj (hi.symm.trans hb')
    rfl

theorem feedFrom_of_ne (hi : code[i]? = some b) (hb : b ≠ '\n'.toUInt8) : feedFrom code i = feedFrom code (i + 1) := by
  rw [feedFrom_of_getElem? hi, if_neg hb]

theorem drop_eq_cons (hi : code[i]? = some b) : code.drop i = b :: code.drop (i + 1) := by
  obtain ⟨hlt, rfl⟩ := List.getElem?_eq_some_iff.1 hi
  exact List.drop_eq_getElem_cons hlt

theorem commentEnd_of_not (hi : code[i]? = some b) (hb : b = '*'.toUInt8 → code[i + 1]? ≠ some '/'.toUInt8) :
    commentEnd code i (code.drop i) = commentEnd code (i + 1) (code.drop (i + 1)) := by
  have hopen : ¬ (b = '*'.toUInt8 ∧ (code.drop (i + 1)).head? = some '/'.toUInt8) := by
    rw [List.head?_drop]
    exact fun h => hb h.1 h.2
  rw [drop_eq_cons hi, commentEnd, commentEnd, closeOffset?, if_neg hopen]
  cases closeOffset? (code.drop (i + 1)) with
  | none => rfl
  | some k =>
    show i + (k + 1) + 1 = i + 1 + k + 1
    omega

theorem resumeAt_escape (hquote : isQuote q = true) (h : code.drop i = utf8 ('\\' :: c :: v)) :
    resumeAt code (.literal q) i = resumeAt code (.literal q) (i + 1 + c.utf8Size) := by
  have hq := toNat_lt_of_isQuote hquote
  have hback : q ≠ '\\' := fun heq => absurd (heq ▸ hquote) (by decide)
  have hi : code[i]? = some '\\'.toUInt8 := (getElem?_eq_iff h (by decide)).2 rfl
  have hrest : code.drop (i + 1) = utf8 (c :: v) := drop_behind h
  have hskip : quoteFrom code q.toUInt8 i = quoteFrom code q.toUInt8 (i + 1 + 1) := by
    rw [quoteFrom_of_getElem? hi, if_neg (toUInt8_ne hback.symm (by decide) hq), if_pos rfl]
  have hchar : quoteFrom code q.toUInt8 (i + 1 + 1) = quoteFrom code q.toUInt8 (i + 1 + c.utf8Size) :=
    eq_behind_first (fun _ _ hb hhigh => quoteFrom_of_ne hb (ne_of_high hhigh hq) (ne_of_high hhigh (by decide))) hrest
  exact congrArg (· + 1) (hskip.trans hchar)

theorem resumeAt_quote (hq : q.toNat < 0x80) (h : code.drop i = utf8 (q :: v)) :
    resumeAt code (.literal q) i = i + 1 := by
  have hi : code[i]? = some q.toUInt8 := (getElem?_eq_iff h hq).2 rfl
  rw [resumeAt, quoteFrom_of_getElem? hi, if_pos rfl]

theorem resumeAt_literal (hq : q.toNat < 0x80) (hc : c ≠ q) (hback : c ≠ '\\') (h : code.drop i = utf8 (c :: v)) :
    resumeAt code (.literal q) i = resumeAt code (.literal q) (i + c.utf8Size) := by
  refine congrArg (· + 1) (eq_behind [q, '\\'] ?_ (fun j b hj hb => ?_) h ?_)
  · simp [hq]
  · exact quoteFrom_of_ne hj (hb q (by simp)) (hb '\\' (by simp))
  · simp [hc, hback]

theorem resumeAt_feed (h : code.drop i = utf8 ('\n' :: v)) : resumeAt code .lineComment i = i := by
  have hi : code[i]? = some '\n'.toUInt8 := (getElem?_eq_iff h (by decide)).2 rfl
  rw [resumeAt, feedFrom_of_getElem? hi, if_pos rfl]

theorem resumeAt_line (hc : c ≠ '\n') (h : code.drop i = utf8 (c :: v)) :
    resumeAt code .lineComment i = resumeAt code .lineComment (i + c.utf8Size) :=
  eq_behind ['\n'] (by simp) (fun _ _ hj hb => feedFrom_of_ne hj (hb '\n' (by simp))) h (by simpa using hc)

theorem resumeAt_close (h : code.drop i = utf8 ('*' :: '/' :: v)) : resumeAt code .blockComment i = i + 2 := by
  rw [resumeAt, h]
  rfl

theorem resumeAt_block (hc : c = '*' → v.head? ≠ some '/') (h : code.drop i = utf8 (c :: v)) :
    resumeAt code .blockComment i = resumeAt code .blockComment (i + c.utf8Size) := by
  by_cases hstar : c = '*'
  · subst hstar
    have hi : code[i]? = some '*'.toUInt8 := (getElem?_eq_iff h (by decide)).2 rfl
    have hslash : code[i + 1]? ≠ some '/'.toUInt8 := fun hslash =>
      hc rfl ((getElem?_eq_iff (drop_behind h) (by decide)).1 hslash)
    exact congrArg (· + 1) (commentEnd_of_not hi fun _ => hslash)
  · refine congrArg (· + 1) (eq_behind (f := fun i => commentEnd code i (code.drop i)) ['*'] (by simp)
      (fun j b hj hb => ?_) h (by simpa using hstar))
    exact commentEnd_of_not hj fun heq => absurd heq (hb '*' (by simp))

/-! ### The loops -/

theorem startsLoop_end {starts : List Nat} (hi : code.length ≤ i) : startsLoop code starts d i = .ok starts := by
  rw [startsLoop]
  split
  · rfl
  · next b hb => exact absurd (List.getElem?_eq_some_iff.1 hb).1 (Nat.not_lt.2 hi)

theorem closingLoop_end (hi : code.length ≤ i) : closingLoop code d i = .ok none := by
  rw [closingLoop]
  split
  · rfl
  · next b hb => exact absurd (List.getElem?_eq_some_iff.1 hb).1 (Nat.not_lt.2 hi)

theorem startsLoop_of_getElem? {starts : List Nat} (hi : code[i]? = some b) : startsLoop code starts d i =
    if b = '\x7b'.toUInt8 then startsLoop code starts (d + 1) (i + 1)
    else if b = '\x7d'.toUInt8 then startsLoop code starts (d - 1) (i + 1)
    else if b = '\n'.toUInt8 ∧ d = 0 then startsLoop code (starts ++ [i + 1]) d (i + 1)
    else (passFrom lastFrom code b i).bind (startsLoop code starts d) := by
  conv_lhs => rw [startsLoop]
  split
  · next hnone => rw [hi] at hnone; cases hnone
  · next b' hb' =>
    obtain rfl : b = b' := Option.some.inj (hi.symm.trans hb')
    split_ifs
    · rfl
    · rfl
    · rfl
    · split <;> next hj => rw [hj]; rfl

theorem closingLoop_of_getElem? (hi : code[i]? = some b) : closingLoop code d i =
    if b = '\x7b'.toUInt8 then closingLoop code (d + 1) (i + 1)
    else if b = '\x7d'.toUInt8 then
      if d = 0 then .error .underflow
      else if d - 1 = 0 then .ok (some i)
      else closingLoop code (d - 1) (i + 1)
    else (passFrom feedFrom code b i).bind (closingLoop code d) := by
  conv_lhs => rw [closingLoop]
  split
  · next hnone => rw [hi] at hnone; cases hnone
  · next b' hb' =>
    obtain rfl : b = b' := Option.some.inj (hi.symm.trans hb')
    split_ifs
    · rfl
    · rfl
    · rfl
    · rfl
    · split <;> next hj => rw [hj]; rfl

/-! ### Rounds -/

/-- The bytes at which a loop stops are not among those that a character goes on with. -/
theorem ne_marks_of_high (hb : 0x80 ≤ b) : b ≠ '\x7b'.toUInt8 ∧ b ≠ '\x7d'.toUInt8 ∧ b ≠ '\n'.toUInt8 :=
  ⟨ne_of_high hb (by decide), ne_of_high hb (by decide), ne_of_high hb (by decide)⟩

theorem passFrom_of_high (hb : 0x80 ≤ b) : passFrom lineEnd code b i = .ok (i + 1) := by
  have hsingle := ne_of_high (a := '\'') hb (by decide)
  have hdouble := ne_of_high (a := '"') hb (by decide)
  have hback := ne_of_high (a := '`') hb (by decide)
  have hslash := ne_of_high (a := '/') hb (by decide)
  have hquote : ¬ isQuoteByte b = true := by simp [isQuoteByte, hsingle, hdouble, hback]
  rw [passFrom, if_neg hquote, if_neg fun h => hslash h.1, if_neg fun h => hslash h.1]

theorem startsLoop_of_high {starts : List Nat} (hi : code[i]? = some b) (hb : 0x80 ≤ b) :
    startsLoop code starts d i = startsLoop code starts d (i + 1) := by
  obtain ⟨hopen, hclose, hfeed⟩ := ne_marks_of_high hb
  rw [startsLoop_of_getElem? hi, if_neg hopen, if_neg hclose, if_neg fun h => hfeed h.1, passFrom_of_high hb]
  rfl

theorem closingLoop_of_high (hi : code[i]? = some b) (hb : 0x80 ≤ b) :
    closingLoop code d i = closingLoop code d (i + 1) := by
  obtain ⟨hopen, hclose, -⟩ := ne_marks_of_high hb
  rw [closingLoop_of_getElem? hi, if_neg hopen, if_neg hclose, passFrom_of_high hb]
  rfl

theorem sliceFrom_star (h : code.drop i = utf8 ('/' :: '*' :: v)) :
    sliceFrom code (i + 2) = .ok (code.drop (i + 2)) := by
  have hrest : code.drop (i + 1) = utf8 ('*' :: v) := drop_behind h
  have hin : i + 1 < code.length :=
    (List.getElem?_eq_some_iff.1 ((getElem?_eq_iff hrest (a := '*') (by decide)).2 rfl)).1
  have hslice : code.drop (i + 2) = utf8 v := drop_behind hrest
  rw [sliceFrom, if_pos (isBoundary_of_drop hslice hin)]

/-- The offset at which a loop goes on behind the character `c` of code, behind which there is `v`. -/
def passed (lineEnd : List UInt8 → Nat → Nat) (code : List UInt8) (c : Char) (v : Text) (i : Nat) : Nat :=
  if isQuote c then resumeAt code (.literal c) (i + 1)
  else if c = '/' ∧ v.head? = some '/' then lineEnd code i + 1
  else if c = '/' ∧ v.head? = some '*' then resumeAt code .blockComment (i + 2)
  else i + 1

/-- The first byte of a character is as good as the character. -/
theorem exists_first (lineEnd : List UInt8 → Nat → Nat) (h : code.drop i = utf8 (c :: v)) : ∃ b, code[i]? = some b ∧
    (∀ a : Char, a.toNat < 0x80 → (b = a.toUInt8 ↔ c = a)) ∧
    passFrom lineEnd code b i = .ok (passed lineEnd code c v i) := by
  obtain ⟨b, bs, hb, -, -, hfirst⟩ := exists_bytes c
  have hdrop := h
  rw [utf8_cons, hb] at hdrop
  refine ⟨b, getElem?_of_drop hdrop, hfirst, ?_⟩
  have hquote : isQuoteByte b = true ↔ isQuote c = true := by
    have hsingle := hfirst '\'' (by decide)
    have hdouble := hfirst '"' (by decide)
    have hback := hfirst '`' (by decide)
    simp [isQuoteByte, isQuote, hsingle, hdouble, hback, or_assoc]
  have hnext (a : Char) (ha : a.toNat < 0x80) :
      b = '/'.toUInt8 ∧ code[i + 1]? = some a.toUInt8 ↔ c = '/' ∧ v.head? = some a := by
    rw [hfirst '/' (by decide)]
    refine and_congr_right fun hc => ?_
    subst hc
    exact getElem?_eq_iff (drop_behind h) ha
  have hline := hnext '/' (by decide)
  have hblock := hnext '*' (by decide)
  rw [passFrom, passed]
  simp only [hquote, hline, hblock]
  split_ifs with h₁ h₂ h₃
  · rw [(hfirst c (toNat_lt_of_isQuote h₁)).2 rfl]
    rfl
  · rfl
  · obtain ⟨rfl, hstar⟩ := h₃
    obtain ⟨v, rfl⟩ := List.head?_eq_some_iff.1 hstar
    rw [sliceFrom_star h]
    rfl
  · rfl

theorem startsLoop_cons {starts : List Nat} (h : code.drop i = utf8 (c :: v)) : startsLoop code starts d i =
    if c = '\x7b' then startsLoop code starts (d + 1) (i + 1)
    else if c = '\x7d' then startsLoop code starts (d - 1) (i + 1)
    else if c = '\n' ∧ d = 0 then startsLoop code (starts ++ [i + 1]) d (i + 1)
    else startsLoop code starts d (passed lastFrom code c v i) := by
  obtain ⟨b, hi, hfirst, hpass⟩ := exists_first lastFrom h
  have hopen := hfirst '\x7b' (by decide)
  have hclose := hfirst '\x7d' (by decide)
  have hfeed := hfirst '\n' (by decide)
  rw [startsLoop_of_getElem? hi, hpass]
  simp only [hopen, hclose, hfeed]
  rfl

theorem closingLoop_cons (h : code.drop i = utf8 (c :: v)) : closingLoop code d i =
    if c = '\x7b' then closingLoop code (d + 1) (i + 1)
    else if c = '\x7d' then
      if d = 0 then .error .underflow
      else if d - 1 = 0 then .ok (some i)
      else closingLoop code (d - 1) (i + 1)
    else closingLoop code d (passed feedFrom code c v i) := by
  obtain ⟨b, hi, hfirst, hpass⟩ := exists_first feedFrom h
  have hopen := hfirst '\x7b' (by decide)
  have hclose := hfirst '\x7d' (by decide)
  rw [closingLoop_of_getElem? hi, hpass]
  simp only [hopen, hclose]
  rfl

theorem feedFrom_slashes (h : code.drop i = utf8 ('/' :: '/' :: v)) :
    feedFrom code i = feedFrom code (i + 1) ∧ feedFrom code (i + 1) = resumeAt code .lineComment (i + 2) :=
  ⟨resumeAt_line (by decide) h, resumeAt_line (by decide) (drop_behind h)⟩

theorem startsLoop_line {starts : List Nat} (h : code.drop i = utf8 ('/' :: '/' :: v)) :
    startsLoop code starts d i = startsLoop code starts d (resumeAt code .lineComment (i + 2)) := by
  have hpassed : passed lastFrom code '/' ('/' :: v) i = lastFrom code i + 1 := rfl
  rw [startsLoop_cons h, hpassed, lastFrom_eq, (feedFrom_slashes h).2]
  rfl

theorem startsLoop_block {starts : List Nat} (h : code.drop i = utf8 ('/' :: '*' :: v)) :
    startsLoop code starts d i = startsLoop code starts d (resumeAt code .blockComment (i + 2)) := by
  rw [startsLoop_cons h]
  rfl

theorem closingLoop_feedFrom (code : List UInt8) (d i : Nat) :
    closingLoop code d (feedFrom code i + 1) = closingLoop code d (feedFrom code i) := by
  fun_induction feedFrom code i with
  | case1 i h =>
    have hlen := List.getElem?_eq_none_iff.1 h
    rw [closingLoop_end hlen, closingLoop_end (by omega)]
  | case2 i h =>
    conv_rhs => rw [closingLoop_of_getElem? h]
    rfl
  | case3 i b h hb ih => exact ih

theorem closingLoop_line (h : code.drop i = utf8 ('/' :: '/' :: v)) :
    closingLoop code d i = closingLoop code d (resumeAt code .lineComment (i + 2)) := by
  have hpassed : passed feedFrom code '/' ('/' :: v) i = feedFrom code i + 1 := rfl
  rw [closingLoop_cons h, hpassed, closingLoop_feedFrom, (feedFrom_slashes h).1, (feedFrom_slashes h).2]
  rfl

theorem closingLoop_block (h : code.drop i = utf8 ('/' :: '*' :: v)) :
    closingLoop code d i = closingLoop code d (resumeAt code .blockComment (i + 2)) := by
  rw [closingLoop_cons h]
  rfl

section

variable {α : Type} {f : Nat → α}

/-- Behind a character of code that opens no comment, a loop goes on in the mode that the character leads to. -/
theorem passed_code (hf : ∀ i b, code[i]? = some b → 0x80 ≤ b → f i = f (i + 1)) (h : code.drop i = utf8 (c :: v))
    (hline : ¬ (c = '/' ∧ v.head? = some '/')) (hblock : ¬ (c = '/' ∧ v.head? = some '*')) :
    f (passed lineEnd code c v i) = f (resumeAt code (.behind c) (i + c.utf8Size)) := by
  rw [passed, if_neg hline, if_neg hblock, Mode.behind]
  split_ifs with hquote
  · rw [utf8Size_of_isQuote hquote]
  · exact eq_behind_first hf h

end

theorem startsLoop_code {starts : List Nat} (h : code.drop i = utf8 (c :: v))
    (hline : ¬ (c = '/' ∧ v.head? = some '/')) (hblock : ¬ (c = '/' ∧ v.head? = some '*')) :
    startsLoop code starts d i = startsLoop code (starts ++ if c = '\n' ∧ d = 0 then [i + c.utf8Size] else [])
      (opened d c) (resumeAt code (.behind c) (i + c.utf8Size)) := by
  rw [startsLoop_cons h, opened]
  by_cases hopen : c = '\x7b'
  · subst hopen
    rw [if_pos rfl, if_neg (by simp), List.append_nil]
    rfl
  by_cases hclose : c = '\x7d'
  · subst hclose
    rw [if_neg hopen, if_pos rfl, if_neg (by simp), List.append_nil]
    rfl
  rw [if_neg hopen, if_neg hclose, if_neg hopen, if_neg hclose]
  by_cases hfeed : c = '\n' ∧ d = 0
  · obtain ⟨rfl, rfl⟩ := hfeed
    rfl
  rw [if_neg hfeed, if_neg hfeed, List.append_nil]
  exact passed_code (fun _ _ hi hb => startsLoop_of_high hi hb) h hline hblock

theorem closingLoop_code (hd : 0 < d) (h : code.drop i = utf8 (c :: v)) (hline : ¬ (c = '/' ∧ v.head? = some '/'))
    (hblock : ¬ (c = '/' ∧ v.head? = some '*')) :
    closingLoop code d i = if opened d c = 0 then .ok (some i)
      else closingLoop code (opened d c) (resumeAt code (.behind c) (i + c.utf8Size)) := by
  have hne : d ≠ 0 := Nat.ne_of_gt hd
  rw [closingLoop_cons h, opened]
  by_cases hopen : c = '\x7b'
  · subst hopen
    rw [if_pos rfl, if_pos rfl, if_neg (Nat.succ_ne_zero d)]
    rfl
  by_cases hclose : c = '\x7d'
  · subst hclose
    rw [if_neg hopen, if_pos rfl, if_neg hne]
    rfl
  rw [if_neg hopen, if_neg hclose, if_neg hopen, if_neg hclose, if_neg hne]
  exact passed_code (fun _ _ hi hb => closingLoop_of_high hi hb) h hline hblock

end AppsScript.Source
