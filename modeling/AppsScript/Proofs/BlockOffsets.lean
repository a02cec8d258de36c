import AppsScript.Proofs.ByteLoops

/-!
# Offsets of lines and braces

The loops over bytes come to what is read off the characters of code (`startsLoop_utf8`, `closingLoop_utf8`): each of
them does, character by character, what a reader of a list of such characters does (`FollowsCode`). So the lines they
find begin where a stripper of comments is outside everything, and the braces close where it has come to as many of one
kind as of the other (`readers_agree`).
-/

namespace AppsScript.Source

open Text

variable {code : List UInt8} {t v : Text} {c : Char} {i k d base : Nat}

/-! ### Offsets -/

/-- The number of bytes in front of the character at offset `k`. -/
def byteOffset (t : Text) (k : Nat) : Nat := byteCount (t.take k)

@[simp] theorem byteOffset_zero (t : Text) : byteOffset t 0 = 0 := rfl

theorem byteOffset_succ (h : t.drop k = c :: v) : byteOffset t (k + 1) = byteOffset t k + c.utf8Size := by
  have hlast : t.take (k + 1) = t.take k ++ [c] := by
    rw [List.take_add_one, ← List.head?_drop, h]
    rfl
  rw [byteOffset, byteOffset, byteCount, hlast, utf8, List.flatMap_append, List.length_append, List.flatMap_singleton,
    String.length_utf8EncodeChar]
  rfl

theorem drop_byteOffset (hcode : code.drop base = utf8 t) (k : Nat) :
    code.drop (base + byteOffset t k) = utf8 (t.drop k) := by
  have hparts : utf8 t = utf8 (t.take k) ++ utf8 (t.drop k) := by
    rw [utf8, utf8, utf8, ← List.flatMap_append, List.take_append_drop]
  rw [← List.drop_drop, hcode, hparts]
  exact List.drop_left

theorem behind_char (base : Nat) (hv : t.drop k = c :: v) : t.drop (k + 1) = v ∧
    base + byteOffset t (k + 1) = base + byteOffset t k + c.utf8Size := by
  rw [byteOffset_succ hv, ← List.drop_drop, hv]
  exact ⟨rfl, (Nat.add_assoc _ _ _).symm⟩

theorem behind_chars {c' : Char} (base : Nat) (hv : t.drop k = c :: c' :: v) : t.drop (k + 2) = v ∧
    base + byteOffset t (k + 2) = base + byteOffset t k + c.utf8Size + c'.utf8Size := by
  obtain ⟨hnext, hoff⟩ := behind_char base hv
  obtain ⟨hnext₂, hoff₂⟩ := behind_char base hnext
  exact ⟨hnext₂, hoff ▸ hoff₂⟩

theorem not_next {a x : Char} (h : ∀ v', c = a → v = x :: v' → False) : ¬ (c = a ∧ v.head? = some x) := by
  rintro ⟨hc, hv⟩
  obtain ⟨v', hv'⟩ := List.head?_eq_some_iff.1 hv
  exact h v' hc hv'

/-! ### One loop -/

/-- `loop`, which goes over the bytes of the text `t` from `base` on, does with the characters of code what `read` does
with a list of them. -/
structure FollowsCode {σ α : Type} (code : List UInt8) (base : Nat) (t : Text) (loop : σ → Nat → α)
    (read : σ → List (Nat × Char) → α) : Prop where
  atEnd : ∀ s i, code.length ≤ i → loop s i = read s []
  atCode : ∀ s k c v, t.drop k = c :: v → ¬ (c = '/' ∧ v.head? = some '/') → ¬ (c = '/' ∧ v.head? = some '*') →
    (∀ l, loop s (base + byteOffset t k) = read s ((k, c) :: l)) ∨
      ∃ s', loop s (base + byteOffset t k) = loop s' (resumeAt code (.behind c) (base + byteOffset t (k + 1))) ∧
        ∀ l, read s ((k, c) :: l) = read s' l
  atLine : ∀ s i v, code.drop i = utf8 ('/' :: '/' :: v) → loop s i = loop s (resumeAt code .lineComment (i + 2))
  atBlock : ∀ s i v, code.drop i = utf8 ('/' :: '*' :: v) → loop s i = loop s (resumeAt code .blockComment (i + 2))

namespace FollowsCode

variable {σ α : Type} {loop : σ → Nat → α} {read : σ → List (Nat × Char) → α}

theorem code_eq (hloop : FollowsCode code base t loop read) (hv : t.drop k = c :: v)
    (hline : ¬ (c = '/' ∧ v.head? = some '/')) (hblock : ¬ (c = '/' ∧ v.head? = some '*')) {l : List (Nat × Char)}
    (hrest : ∀ s, loop s (resumeAt code (.behind c) (base + byteOffset t (k + 1))) = read s l) (s : σ) :
    loop s (base + byteOffset t k) = read s ((k, c) :: l) := by
  obtain hstop | ⟨s', hgo, hread⟩ := hloop.atCode s k c v hv hline hblock
  · exact hstop l
  · rw [hgo, hrest, hread]

theorem resumeAt_eq (hloop : FollowsCode code base t loop read) (hcode : code.drop base = utf8 t) (mode : Mode)
    (hmode : mode.spot.IsSound) (hv : t.drop k = v) (s : σ) :
    loop s (resumeAt code mode (base + byteOffset t k)) = read s (codeCharsFrom mode k v) := by
  have hbytes {k : Nat} {v : Text} (hv : t.drop k = v) : code.drop (base + byteOffset t k) = utf8 v :=
    hv ▸ drop_byteOffset hcode k
  -- Whatever the mode, the loop has nothing to do before the offset that `resumeAt` gives.
  fun_induction codeCharsFrom mode k v generalizing s with
  | case1 k mode =>
    have hend : code.length ≤ base + byteOffset t k := List.drop_eq_nil_iff.1 (hbytes hv)
    exact hloop.atEnd s _ (length_le_resumeAt mode hend)
  | case2 k cs ih =>
    obtain ⟨hnext, hoff⟩ := behind_chars base hv
    rw [← ih trivial hnext, hoff]
    exact hloop.atLine s _ cs (hbytes hv)
  | case3 k cs ih =>
    obtain ⟨hnext, hoff⟩ := behind_chars base hv
    rw [← ih trivial hnext, hoff]
    exact hloop.atBlock s _ cs (hbytes hv)
  | case4 k c cs h₁ h₂ ih =>
    obtain ⟨hnext, -⟩ := behind_char base hv
    exact hloop.code_eq hv (not_next h₁) (not_next h₂) (ih (Spot.isSound_behind c) hnext) s
  | case5 q k c cs ih =>
    obtain ⟨hnext, hoff⟩ := behind_chars base hv
    rw [← ih hmode hnext, hoff]
    exact congrArg (loop s) (resumeAt_escape hmode (hbytes hv))
  | case6 q k c cs h ih =>
    obtain ⟨hnext, hoff⟩ := behind_char base hv
    have hq : q.toNat < 0x80 := toNat_lt_of_isQuote hmode
    rw [← ih (Spot.isSound_quote hmode c) hnext, hoff]
    by_cases hc : c = q
    · subst hc
      rw [resumeAt_quote hq (hbytes hv), if_pos rfl, utf8Size_of_isQuote hmode]
      rfl
    rw [if_neg hc]
    by_cases hback : c = '\\'
    · -- Nothing stands behind the backslash, so the loop ends whether or not it takes a byte along.
      cases cs with
      | cons x xs => exact (h x xs hback rfl).elim
      | nil =>
        subst hback
        have hend : code.length ≤ base + byteOffset t k + 1 := List.drop_eq_nil_iff.1 (drop_behind (hbytes hv))
        have hpast := hend.trans (Nat.succ_le_succ (le_quoteFrom code q.toUInt8 (base + byteOffset t k)))
        have hbehind := hloop.atEnd s _ (length_le_resumeAt (.literal q) hend)
        exact (hloop.atEnd s _ hpast).trans hbehind.symm
    · exact congrArg (loop s) (resumeAt_literal hq hc hback (hbytes hv))
  | case7 k cs ih =>
    obtain ⟨hnext, -⟩ := behind_char base hv
    rw [resumeAt_feed (hbytes hv)]
    exact hloop.code_eq hv (by simp) (by simp) (ih trivial hnext) s
  | case8 k c cs h ih =>
    obtain ⟨hnext, hoff⟩ := behind_char base hv
    rw [← ih trivial hnext, hoff]
    exact congrArg (loop s) (resumeAt_line h (hbytes hv))
  | case9 k cs ih =>
    obtain ⟨hnext, hoff⟩ := behind_chars base hv
    rw [← ih trivial hnext, hoff]
    exact congrArg (loop s) (resumeAt_close (hbytes hv))
  | case10 k c cs h ih =>
    obtain ⟨hnext, hoff⟩ := behind_char base hv
    rw [← ih trivial hnext, hoff]
    refine congrArg (loop s) (resumeAt_block (fun hc hslash => ?_) (hbytes hv))
    exact not_next h ⟨hc, hslash⟩

end FollowsCode

/-- The loop over starts adds to those that it has. -/
theorem followsCode_startsLoop (hcode : code.drop base = utf8 t) : FollowsCode code base t
    (fun (s : List Nat × Nat) i => startsLoop code s.1 s.2 i)
    (fun s l => .ok (s.1 ++ (startsAt s.2 l).map (base + byteOffset t ·))) where
  atEnd s i hi := by
    rw [startsLoop_end hi, startsAt, List.map_nil, List.append_nil]
  atCode s k c v hv hline hblock := by
    have h := drop_byteOffset hcode k
    rw [hv] at h
    refine .inr ⟨(s.1 ++ if c = '\n' ∧ s.2 = 0 then [base + byteOffset t (k + 1)] else [], opened s.2 c), ?_,
      fun l => ?_⟩
    · rw [startsLoop_code h hline hblock, (behind_char base hv).2]
    · rw [startsAt_cons, List.map_append, List.append_assoc]
      split_ifs <;> rfl
  atLine _ _ _ h := startsLoop_line h
  atBlock _ _ _ h := startsLoop_block h

/-- The loop for a closing brace, with a block open beyond `d` ones. -/
theorem followsCode_closingLoop (hcode : code.drop base = utf8 t) : FollowsCode code base t
    (fun d i => closingLoop code (d + 1) i)
    (fun d l => .ok ((closingAt (d + 1) l).map (base + byteOffset t ·))) where
  atEnd d i hi := closingLoop_end hi
  atCode d k c v hv hline hblock := by
    have h := drop_byteOffset hcode k
    rw [hv] at h
    have hloop := closingLoop_code (Nat.succ_pos d) h hline hblock
    have hread {l : List (Nat × Char)} := closingAt_cons (i := k) (c := c) (l := l) (Nat.succ_pos d)
    cases hopen : opened (d + 1) c with
    | zero =>
      refine .inl fun l => ?_
      rw [hloop, hread, if_pos hopen, if_pos hopen]
      rfl
    | succ d' =>
      refine .inr ⟨d', ?_, fun l => ?_⟩
      · rw [hloop, hopen, if_neg (Nat.succ_ne_zero d'), (behind_char base hv).2]
      · rw [hread, hopen, if_neg (Nat.succ_ne_zero d')]
  atLine _ _ _ h := closingLoop_line h
  atBlock _ _ _ h := closingLoop_block h

theorem startsLoop_utf8 (text : Text) :
    startsLoop (utf8 text) [0] 0 0 = .ok ((topLevelStarts text).map (byteOffset text)) := by
  have hcode : (utf8 text).drop 0 = utf8 text := rfl
  have hloop := (followsCode_startsLoop hcode).resumeAt_eq hcode .code (k := 0) trivial rfl ([0], 0)
  simpa [topLevelStarts, codeChars, resumeAt] using hloop

theorem byteOffset_add (text : Text) (i j : Nat) :
    byteOffset text (i + j) = byteOffset text i + byteOffset (text.drop i) j := by
  rw [byteOffset, byteOffset, byteOffset, byteCount, List.take_add, utf8, List.flatMap_append, List.length_append]
  rfl

theorem closingLoop_utf8 {text : Text} (h : text[i]? = some '\x7b') :
    closingLoop (utf8 text) 0 (byteOffset text i) =
      .ok ((closingBrace? (text.drop i)).map fun j => byteOffset text (i + j)) := by
  obtain ⟨v, hv⟩ := List.head?_eq_some_iff.1 ((List.head?_drop (l := text)).trans h)
  have hcode : (utf8 text).drop (byteOffset text i) = utf8 (text.drop i) := by
    have hall : (utf8 text).drop 0 = utf8 text := rfl
    simpa using drop_byteOffset hall i
  have hloop := (followsCode_closingLoop hcode).resumeAt_eq hcode .code (k := 1) trivial
    (by rw [hv, List.drop_one, List.tail_cons]) 0
  have hopen : closingLoop (utf8 text) 0 (byteOffset text i) = closingLoop (utf8 text) 1 (byteOffset text i + 1) := by
    rw [closingLoop_cons (hcode.trans (congrArg utf8 hv)), if_pos rfl]
  have hclosing : closingBrace? (text.drop i) = closingAt 1 (codeCharsFrom .code 1 v) := by
    rw [hv]
    rfl
  have hfirst : byteOffset (text.drop i) 1 = 1 := by
    rw [hv]
    rfl
  rw [hopen, hclosing]
  simp only [byteOffset_add]
  rw [← hloop, hfirst]
  rfl

theorem byteOffset_lt (hij : i < k) (hk : k ≤ t.length) : byteOffset t i < byteOffset t k := by
  induction k with
  | zero => cases hij
  | succ k ih =>
    have hlast : t.drop k = t[k] :: t.drop (k + 1) := List.drop_eq_getElem_cons hk
    have hsize := Char.utf8Size_pos t[k]
    rw [byteOffset_succ hlast]
    obtain hlt | rfl := Nat.lt_succ_iff_lt_or_eq.1 hij
    · have hstep := ih hlt (Nat.le_of_succ_le hk)
      omega
    · omega

/-- A stripper that has read `t` is in code, and no block is open. -/
def IsOutside (t : Text) : Prop := (scanFrom .code t).mode = .code ∧ openBlocks 0 (scanFrom .code t).code = 0

instance (t : Text) : Decidable (IsOutside t) := inferInstanceAs (Decidable (_ ∧ _))

/-- A stripper that has read `t` has come to as many closing braces in code as opening ones. -/
def IsLevel (t : Text) : Prop := (scanFrom .code t).code.count '\x7d' = (scanFrom .code t).code.count '\x7b'

instance (t : Text) : Decidable (IsLevel t) := inferInstanceAs (Decidable (_ = _))

theorem topLevelStarts_eq (text : Text) : topLevelStarts text =
    0 :: ((List.range text.length).filter (breaksAt 0 .code text)).map (· + 1) := by
  rw [topLevelStarts, codeChars, startsAt_codeCharsFrom (show Mode.code.spot.IsSound from trivial)]
  simp [places]

theorem breaksAt_iff : breaksAt 0 .code t i = true ↔ t[i]? = some '\n' ∧ IsOutside (t.take (i + 1)) :=
  decide_eq_true_iff

theorem mem_topLevelStarts_iff {text : Text} {j : Nat} : j ∈ topLevelStarts text ↔
    j = 0 ∨ ∃ i, text[i]? = some '\n' ∧ j = i + 1 ∧ IsOutside (text.take (i + 1)) := by
  rw [topLevelStarts_eq, List.mem_cons, List.mem_map]
  refine or_congr_right (exists_congr fun i => ?_)
  rw [List.mem_filter, breaksAt_iff, List.mem_range]
  constructor
  · rintro ⟨⟨-, hfeed, hout⟩, rfl⟩
    exact ⟨hfeed, rfl, hout⟩
  · rintro ⟨hfeed, rfl, hout⟩
    exact ⟨⟨(List.getElem?_eq_some_iff.1 hfeed).1, hfeed, hout⟩, rfl⟩

theorem le_length_of_mem_topLevelStarts {text : Text} {j : Nat} (h : j ∈ topLevelStarts text) : j ≤ text.length := by
  obtain rfl | ⟨i, hfeed, rfl, -⟩ := mem_topLevelStarts_iff.1 h
  · exact Nat.zero_le _
  · exact (List.getElem?_eq_some_iff.1 hfeed).1

theorem pairwise_topLevelStarts (text : Text) : (topLevelStarts text).Pairwise (· < ·) := by
  rw [topLevelStarts_eq, List.pairwise_cons, List.pairwise_map]
  constructor
  · intro j hj
    obtain ⟨i, -, rfl⟩ := List.mem_map.1 hj
    exact Nat.succ_pos i
  · exact (List.pairwise_lt_range.filter _).imp Nat.succ_lt_succ

theorem pairwise_byteOffset (text : Text) : ((topLevelStarts text).map (byteOffset text)).Pairwise (· < ·) := by
  rw [List.pairwise_map]
  exact (pairwise_topLevelStarts text).imp_of_mem fun _ hk hjk => byteOffset_lt hjk (le_length_of_mem_topLevelStarts hk)

theorem byteOffset_inj {j : Nat} (hj : j ≤ t.length) (hk : k ≤ t.length) : byteOffset t j = byteOffset t k ↔ j = k := by
  refine ⟨fun h => ?_, congrArg _⟩
  obtain hlt | heq | hlt := Nat.lt_trichotomy j k
  · exact absurd h (Nat.ne_of_lt (byteOffset_lt hlt hk))
  · exact heq
  · exact absurd h.symm (Nat.ne_of_lt (byteOffset_lt hlt hj))

theorem byteOffset_feed (h : t[i]? = some '\n') : byteOffset t (i + 1) = byteOffset t i + 1 := by
  obtain ⟨v, hv⟩ := List.head?_eq_some_iff.1 ((List.head?_drop (l := t)).trans h)
  exact byteOffset_succ hv

theorem mem_starts_iff {text : Text} (h : text[i]? = some '\n') :
    byteOffset text i + 1 ∈ (topLevelStarts text).map (byteOffset text) ↔ IsOutside (text.take (i + 1)) := by
  have hi : i + 1 ≤ text.length := (List.getElem?_eq_some_iff.1 h).1
  rw [← byteOffset_feed h, List.mem_map]
  constructor
  · rintro ⟨j, hj, heq⟩
    obtain rfl := (byteOffset_inj (le_length_of_mem_topLevelStarts hj) hi).1 heq
    obtain hzero | ⟨i', -, heq', hout⟩ := mem_topLevelStarts_iff.1 hj
    · cases hzero
    · exact Nat.succ.inj heq' ▸ hout
  · intro hout
    exact ⟨i + 1, mem_topLevelStarts_iff.2 (.inr ⟨i, h, rfl, hout⟩), rfl⟩

theorem closesAt_iff : closesAt 0 .code t i = true ↔ IsLevel (t.take (i + 1)) := by
  rw [closesAt, Nat.zero_add]
  exact decide_eq_true_iff

theorem closingBrace?_eq_find? (h : t.head? = some '\x7b') :
    closingBrace? t = (List.range t.length).find? fun j => IsLevel (t.take (j + 1)) := by
  obtain ⟨v, rfl⟩ := List.head?_eq_some_iff.1 h
  have hlevel : (fun j => decide (IsLevel (('\x7b' :: v).take (j + 1)))) = closesAt 0 .code ('\x7b' :: v) := by
    funext j
    exact Bool.eq_iff_iff.2 (decide_eq_true_iff.trans closesAt_iff.symm)
  have hscan (u : Text) : scanFrom .code ('\x7b' :: u) = (scanFrom .code u).reads '\x7b' := rfl
  have hshift (j : Nat) : closesAt 0 .code ('\x7b' :: v) (j + 1) = closesAt 1 .code v j := by
    rw [closesAt, closesAt, List.take_succ_cons, hscan, decide_eq_decide, Stripping.reads, List.count_cons_self,
      List.count_cons_of_ne (by decide)]
    omega
  have hfirst : closesAt 0 .code ('\x7b' :: v) 0 = false := by
    rfl
  have hplaces : places (closesAt 0 .code ('\x7b' :: v)) 0 (v.length + 1) = places (closesAt 1 .code v) 1 v.length :=
    places_succ_of_not hfirst hshift
  have hclosing : closingBrace? ('\x7b' :: v) = closingAt 1 (codeCharsFrom .code 1 v) := rfl
  rw [hclosing, closingAt_codeCharsFrom Nat.one_pos, ← hplaces, hlevel, ← List.head?_filter]
  simp [places]

/-- Lines at the top level begin behind the line feeds at which a stripper of comments is outside everything. A block
ends where a stripper that starts with it has first come to as many closing braces as opening ones. Nothing breaks off
the loop for either. -/
theorem readers_agree (text : Text) :
    (scanFrom .code text).written = strip text ∧
    (∃ starts, startsLoop (utf8 text) [0] 0 0 = .ok starts ∧ starts = (topLevelStarts text).map (byteOffset text) ∧
      starts.head? = some 0 ∧ starts.Pairwise (· < ·) ∧
      (∀ j ∈ starts, j = 0 ∨ ∃ i, text[i]? = some '\n' ∧ j = byteOffset text i + 1) ∧
      ∀ i, text[i]? = some '\n' → (byteOffset text i + 1 ∈ starts ↔ IsOutside (text.take (i + 1)))) ∧
    ∀ i, text[i]? = some '\x7b' →
      closingLoop (utf8 text) 0 (byteOffset text i) =
        .ok ((closingBrace? (text.drop i)).map fun j => byteOffset text (i + j)) ∧
      closingBrace? (text.drop i) =
        (List.range (text.length - i)).find? fun j => IsLevel ((text.drop i).take (j + 1)) := by
  refine ⟨written_scanFrom .code text, ⟨_, startsLoop_utf8 text, rfl, rfl, pairwise_byteOffset text, ?_, fun i h =>
    mem_starts_iff h⟩, fun i h => ⟨closingLoop_utf8 h, ?_⟩⟩
  · intro j hj
    obtain ⟨k, hk, rfl⟩ := List.mem_map.1 hj
    obtain rfl | ⟨i, hfeed, rfl, -⟩ := mem_topLevelStarts_iff.1 hk
    · exact .inl rfl
    · exact .inr ⟨i, hfeed, byteOffset_feed hfeed⟩
  · rw [← List.length_drop]
    exact closingBrace?_eq_find? (List.head?_drop.trans h)

/-- A block with braces in comments and literals, and a literal that nothing closes. -/
def entangled : Text := "if (é) \x7b /*/ \x7d */ '\\'\x7d' + \x7b\x7d.ü // \x7b\n\x7d\n`é\n\\".toList

theorem readers_agree_entangled :
    (∃ starts, startsLoop (utf8 entangled) [0] 0 0 = .ok starts ∧ 40 ∈ starts ∧ 38 ∉ starts) ∧
    closingLoop (utf8 entangled) 0 8 = .ok (some 38) := by
  obtain ⟨-, ⟨starts, hstarts, -, -, -, -, hmem⟩, hclosing⟩ := readers_agree entangled
  obtain ⟨hloop, hfind⟩ := hclosing 7 (by decide)
  have hinside : ¬ IsOutside (entangled.take 36) := by decide
  have houtside : IsOutside (entangled.take 38) := by decide
  refine ⟨⟨starts, hstarts, (hmem 37 (by decide)).2 houtside, fun h => hinside ((hmem 35 (by decide)).1 h)⟩, ?_⟩
  rw [hfind] at hloop
  exact hloop.trans (by decide)

end AppsScript.Source
