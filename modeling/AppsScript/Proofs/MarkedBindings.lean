import AppsScript.Proofs.OnePass
import AppsScript.Proofs.RepeatedMarks

/-!
# Bindings among marked declarations

The marker of a declaration is a comment. A reader of code passes over it as long as it does not come to it in a
block comment or behind a slash (`after_marking`), and no declaration of a trigger, with or without its marker,
starts in a binding (`ne_call`). So a line binds a function with a block for the body exactly if it does without the
markers (`exists_block`, `blockless_of_spliced`), and an expression with a marker in it is not taken for a whole
value (`isComplete_of_marking`).
-/

namespace AppsScript

namespace Trigger

open Source Scan Text

variable {pre w post r t out u v x y s s' name : Text} {c : Char}

/-! ### Readers of code in front of a marker -/

/-- A reader takes the start of a comment here for what it is, or it takes no notice of it. -/
def Admits : Source.Spot → Prop
  | .slash | .blockComment | .star => False
  | _ => True

theorem isCalm_of_mem_triggers (hn : name ∈ triggers) : ∀ c ∈ name, isCalm c := fun c hc =>
  isCalm_of_isName (isName_of_isAlphanum (isAlphanum_of_mem_triggers hn c hc))

theorem exists_opening (hb : AllBlank s) (hn : name ∈ triggers) (hs' : AllBlank s') (hw : '\n' ∉ opening s name s') :
    ∃ v, opening s name s' = 'f' :: v ∧ ∀ c ∈ v, isCalm c := by
  have hblank {g : Text} (hg : AllBlank g) (hw : '\n' ∉ g) : ∀ c ∈ g, isCalm c := fun c hc =>
    isCalm_of_isBlank (hg c hc) fun h => hw (h ▸ hc)
  simp only [opening_eq, List.mem_append, not_or] at hw
  refine ⟨("unction" : Text) ++ (s ++ (name ++ (s' ++ ['(']))), opening_eq .., ?_⟩
  simp only [List.forall_mem_append]
  exact ⟨by simp; decide, hblank hb hw.2.1, isCalm_of_mem_triggers hn, hblank hs' hw.2.2.2.1, by simpa using by decide⟩

theorem marking_eq_comment (name : Text) : marking name =
    ('/' :: '*' :: ((" @preserve " ++ (name ++ " ")) ++ ['*', '/'])) ++ ([' '] ++ opening [' '] name []) := by
  simp [marking_eq, opening_eq]

/-- Only the slashes and stars of a marker are anything to a reader. -/
theorem calm_or_of_mem_marking (hn : name ∈ triggers) : ∀ c ∈ marking name, isCalm c ∨ c = '/' ∨ c = '*' := by
  have hname : ∀ c ∈ name, isCalm c ∨ c = '/' ∨ c = '*' := fun c hc => .inl (isCalm_of_mem_triggers hn c hc)
  rw [marking_eq]
  simp only [List.forall_mem_append]
  exact ⟨by simp; decide, hname, by simp; decide, hname, by simpa using by decide⟩

/-- A marker takes a reader nowhere. -/
theorem after_marking {reader : Reader} {state : State} (hf : Follows reader state) (hadmits : Admits state.spot)
    (hsound : state.spot.IsSound) (hb : AllBlank s) (hn : name ∈ triggers) (hs' : AllBlank s')
    (hw : '\n' ∉ opening s name s') : reader.after (marking name) = reader.after (opening s name s') := by
  obtain ⟨⟨spot, d⟩, aim⟩ := reader
  rcases hf with rfl | ⟨g, rfl⟩
  swap
  · rw [Reader.after_settled, Reader.after_settled]
  obtain ⟨v, hv, hcalm⟩ := exists_opening hb hn hs' hw
  have hopening : ∀ c ∈ 'f' :: v, isCalm c := List.forall_mem_cons.2 ⟨by decide, hcalm⟩
  have hquiet {c : Char} (hc : c ∈ marking name) : isQuote c = false ∧ c ≠ '\\' ∧ c ≠ '\n' := by
    rcases calm_or_of_mem_marking hn c hc with hc | rfl | rfl
    · obtain ⟨hsilent, -, hback, hfeed⟩ := isCalm_iff.1 hc
      exact ⟨(isSilent_iff.1 hsilent).1, hback, hfeed⟩
    · decide
    · decide
  cases spot with
  | slash => exact hadmits.elim
  | blockComment => exact hadmits.elim
  | star => exact hadmits.elim
  | code =>
    obtain ⟨v', hv', hcalm'⟩ : ∃ v', opening [' '] name [] = 'f' :: v' ∧ ∀ c ∈ v', isCalm c := by
      have hfeed : '\n' ∉ name := fun hc => absurd (isAlphanum_of_mem_triggers hn _ hc) (by decide)
      exact exists_opening (by simp [AllBlank]; decide) hn (by simp [AllBlank]) (by simpa [opening_eq] using hfeed)
    have hstar : '*' ∉ " @preserve " ++ (name ++ " ") := by
      have hname : '*' ∉ name := fun hc => absurd (isAlphanum_of_mem_triggers hn _ hc) (by decide)
      simpa using hname
    have hsteady : (⟨⟨.code, d⟩, aim⟩ : Reader).IsSteady := .inr ⟨trivial, trivial⟩
    rw [marking_eq_comment, Reader.after_append, Reader.after_comment rfl hstar, hv', hv,
      Reader.after_word hsteady allIndent_space (by decide) hcalm']
    exact (Reader.after_word hsteady allIndent_nil (by decide) hcalm).symm
  | literal q =>
    have hsteady : (⟨⟨.literal q, d⟩, aim⟩ : Reader).IsSteady := .inr ⟨trivial, hsound⟩
    have hnot : ¬ (⟨⟨.literal q, d⟩, aim⟩ : Reader).IsAlert := by simp [Reader.IsAlert]
    rw [Reader.after_literal rfl hsound fun c hc => ⟨(hquiet hc).1, (hquiet hc).2.1⟩, hv,
      Reader.after_of_isCalm hsteady hnot hopening]
  | escape q =>
    -- the first character is taken along, and behind it the literal goes on
    by_cases ha : ∃ g, aim = .settled g
    · obtain ⟨g, rfl⟩ := ha
      rw [Reader.after_settled, Reader.after_settled]
    · have hrest {t : Text} (c : Char) (ht : ∀ c ∈ t, isQuote c = false ∧ c ≠ '\\') :
          (⟨⟨.escape q, d⟩, aim⟩ : Reader).after (c :: t) = ⟨⟨.literal q, d⟩, aim⟩ := by
        have hstep : (⟨⟨.escape q, d⟩, aim⟩ : Reader).step c = ⟨⟨.literal q, d⟩, aim⟩ := by
          cases aim with
          | settled g => exact absurd ⟨g, rfl⟩ ha
          | _ => simp [Reader.step, State.step]
        rw [Reader.after_cons, hstep, Reader.after_literal rfl hsound ht]
      obtain ⟨m, hm⟩ : ∃ m, marking name = '/' :: m := ⟨_, marking_eq_comment name⟩
      rw [hm, hv, hrest '/' fun c hc => ?_, hrest 'f' fun c hc => ?_]
      · exact ⟨(isSilent_iff.1 (isCalm_iff.1 (hcalm c hc)).1).1, (isCalm_iff.1 (hcalm c hc)).2.2.1⟩
      · have hc' := hquiet (show c ∈ marking name by simp [hm, hc])
        exact ⟨hc'.1, hc'.2.1⟩
  | lineComment =>
    have hsteady : (⟨⟨.lineComment, d⟩, aim⟩ : Reader).IsSteady := .inr ⟨trivial, trivial⟩
    have hnot : ¬ (⟨⟨.lineComment, d⟩, aim⟩ : Reader).IsAlert := by simp [Reader.IsAlert]
    rw [Reader.after_lineComment rfl fun hc => (hquiet hc).2.2 rfl, hv, Reader.after_of_isCalm hsteady hnot hopening]

/-! ### Where a marker is due -/

/-- The text ends with the marker of `name`, up to white space. -/
def EndsMarked (name t : Text) : Prop := ∃ u g, t = u ++ (markerText name ++ g) ∧ AllBlank g

theorem EndsMarked.append_blank {g : Text} (h : EndsMarked name t) (hg : AllBlank g) : EndsMarked name (t ++ g) := by
  obtain ⟨u, g', rfl, hg'⟩ := h
  exact ⟨u, g' ++ g, by simp, List.forall_mem_append.2 ⟨hg', hg⟩⟩

theorem EndsMarked.prepend (h : EndsMarked name t) (x : Text) : EndsMarked name (x ++ t) := by
  obtain ⟨u, g, rfl, hg⟩ := h
  exact ⟨x ++ u, g, by simp, hg⟩

/-- A marker stands behind a character that it does not hold, or in front of it with white space between. -/
theorem EndsMarked.cases (h : EndsMarked name (x ++ c :: y)) (hc : c ∉ markerText name) :
    EndsMarked name y ∨ AllBlank (c :: y) ∧ EndsMarked name x := by
  obtain ⟨u, g, heq, hg⟩ := h
  rcases split_cons heq with ⟨w, rfl, hw⟩ | ⟨w, rfl, rfl⟩
  · obtain ⟨w, rfl, rfl⟩ := prefix_of_notMem hw hc
    exact .inr ⟨fun d hd => hg d (List.mem_append_right _ hd), u, w, rfl, fun d hd => hg d (List.mem_append_left _ hd)⟩
  · exact .inl ⟨w, g, rfl, hg⟩

theorem EndsMarked.of_brace (h : EndsMarked name (x ++ '\x7b' :: y)) (hn : name ∈ triggers) : EndsMarked name y :=
  (h.cases (notMem_marker hn '\x7b' (by simp))).resolve_right fun h => absurd (h.1 '\x7b' (by simp)) (by decide)

/-- A declaration that lacks its marker on one line gets it. -/
def Inserts (pre w post r : Text) : Prop := declarationHead.Changes pre w post r ∧ '\n' ∉ w

theorem Inserts.move {pre' post' : Text} (h : Inserts pre w post r) (hlast : pre'.getLast?.any isWord = false)
    (hmarked : ∀ name ∈ triggers, EndsMarked name pre' → EndsMarked name pre) : Inserts pre' w post' r := by
  obtain ⟨hr, hw⟩ := h
  obtain ⟨s, name, s', rfl, hs, hb, hn, hs', -, hmark, rfl⟩ := changes_declarationHead_iff.1 hr
  refine ⟨changes_declarationHead_iff.2 ⟨s, name, s', rfl, hs, hb, hn, hs', hlast, ?_, rfl⟩, hw⟩
  rw [← Bool.not_eq_true] at hmark ⊢
  exact fun h => hmark (isMarked_iff.2 (hmarked name hn (isMarked_iff.1 h)))

theorem Inserts.edge (h : Inserts pre w post r) : pre.getLast?.any isWord = false := by
  obtain ⟨s, name, s', -, -, -, -, -, hedge, -⟩ := changes_declarationHead h.1
  exact hedge

end Trigger

namespace Arrow

open Source Scan Text Trigger

variable {pre w post r t out u v x y s s' name : Text} {c : Char} {h : Head}

theorem exists_paren (hu : Binds h u) : '(' ∉ u ∨ ∃ f k g v, u = f ++ k :: (g ++ '(' :: v) ∧ '(' ∉ f ++ k :: g ∧
    (k = '=' ∨ k = 'c') ∧ AllIndent g ∧ '(' ∉ v := by
  have hparams := (notMem_params hu).1
  obtain ⟨ex, kw, g₁, g₂, g₃, as, ps, g₄, g₅, rfl, hm, hex, hkw, -, hg₁, -, hname, hg₂, hg₃, has, hps, hg₄, hg₅⟩ := hu
  have hindent {g : Text} (hg : AllIndent g) : '(' ∉ g := fun hc => absurd (hg _ hc) (by decide)
  have hnamed {t : Text} (ht : ∀ c ∈ t, isName c) : '(' ∉ t := fun hc => absurd (ht _ hc) (by decide)
  have hword {kw : Text} (hkw : ∀ c ∈ kw, c.isAlphanum) : '(' ∉ kw := fun hc => absurd (hkw _ hc) (by decide)
  have hex' : '(' ∉ ex := by
    rcases hex with ⟨-, g, rfl, -, hg⟩ | ⟨-, rfl⟩
    · simpa using hindent hg
    · simp
  have hfront : '(' ∉ h.margin ++ (ex ++ (kw ++ (g₁ ++ (h.name ++ g₂)))) := by
    simp [hindent hm, hex', hword (bindingWord_spec hkw).2, hindent hg₁, hnamed hname, hindent hg₂]
  have hbehind : '(' ∉ g₄ ++ (("=>" : Text) ++ g₅) := by simp [hindent hg₄, hindent hg₅]
  rcases hps with ⟨rfl, -⟩ | ⟨rfl, -, hps⟩
  · right
    rcases has with ⟨-, g, rfl, -, hg⟩ | ⟨-, rfl⟩
    · refine ⟨(h.margin ++ (ex ++ (kw ++ (g₁ ++ (h.name ++ g₂))))) ++ (("=" : Text) ++ (g₃ ++ "asyn")), 'c', g,
        h.params ++ (")" ++ (g₄ ++ (("=>" : Text) ++ g₅))), by simp, ?_, .inr rfl, hg, ?_⟩
      · simpa [hindent hg₃, hindent hg] using hfront
      · simpa [hparams] using hbehind
    · refine ⟨h.margin ++ (ex ++ (kw ++ (g₁ ++ (h.name ++ g₂)))), '=', g₃,
        h.params ++ (")" ++ (g₄ ++ (("=>" : Text) ++ g₅))), by simp, ?_, .inl rfl, hg₃, ?_⟩
      · simpa [hindent hg₃] using hfront
      · simpa [hparams] using hbehind
  · left
    have has' : '(' ∉ as := by
      rcases has with ⟨-, g, rfl, -, hg⟩ | ⟨-, rfl⟩
      · simpa using hindent hg
      · simp
    simp only [List.mem_append, not_or] at hfront hbehind ⊢
    simp [hfront, hbehind, hindent hg₃, has', hnamed hps]

/-- No binding calls a trigger. -/
theorem ne_call (hu : Binds h u) (hn : name ∈ triggers) (hs' : AllBlank s') : u ≠ x ++ (name ++ (s' ++ '(' :: y)) := by
  rintro rfl
  rcases exists_paren hu with hparen | ⟨f, k, g, v, heq, hfront, hk, hg, hv⟩
  · exact hparen (by simp)
  have hall : ∀ name ∈ triggers, ∃ z ∈ name.getLast?, isBlank z = false ∧ z ≠ '=' ∧ z ≠ 'c' := by
    simp [triggers]
    decide
  obtain ⟨z, hz, hblank, hequals, hasync⟩ := hall name hn
  obtain ⟨n, rfl⟩ := List.getLast?_eq_some_iff.1 hz
  have hcons : (x ++ (n ++ [z] ++ s')) ++ '(' :: y = (f ++ k :: g) ++ '(' :: v := by simpa using heq
  obtain ⟨heq, -⟩ := (List.append_cons_inj_of_notMem hfront hv).1 hcons.symm
  have hrev : s'.reverse ++ z :: (n.reverse ++ x.reverse) = g.reverse ++ k :: f.reverse := by
    simpa using congrArg List.reverse heq.symm
  have hkblank : isBlank k = false := by rcases hk with rfl | rfl <;> decide
  have hspan := span_unique hrev (fun c hc => hs' c (List.mem_reverse.1 hc))
    (fun c hc => hg.allBlank c (List.mem_reverse.1 hc)) (by simp [hblank]) (by simp [hkblank])
  obtain rfl : z = k := (List.cons.inj hspan.2).1
  exact hk.elim hequals hasync

/-! ### Lines with markers -/

variable {pre' post' line line' rest code o p : Text} {b : ExpressionBinding}

/-- What ends with a trigger and its parenthesis does not start in a binding in front of a block. -/
theorem ne_call_append {q₁ q₂ f z : Text} (hu : Binds h u) (hq : u ++ ['\x7b'] = q₁ ++ q₂) (hne : q₂ ≠ [])
    (hn : name ∈ triggers) (hs' : AllBlank s') (hf : '\x7b' ∉ f) :
    q₂ ++ rest ≠ (f ++ (name ++ (s' ++ ['(']))) ++ z := by
  intro heq
  obtain ⟨q₃, d, rfl⟩ := (List.eq_nil_or_concat q₂).resolve_left hne
  have hcut : u ++ ['\x7b'] = (q₁ ++ q₃) ++ [d] := by simpa using hq
  obtain ⟨rfl, hd⟩ := List.append_inj' hcut rfl
  obtain rfl : '\x7b' = d := by simpa using hd
  have hbrace : '\x7b' ∉ f ++ (name ++ (s' ++ ['('])) := by
    have hname : '\x7b' ∉ name := fun hc => absurd (isAlphanum_of_mem_triggers hn _ hc) (by decide)
    simp [hf, hname, hs'.notMem (c := '\x7b') (by decide)]
  have hspan : (f ++ (name ++ (s' ++ ['(']))) ++ z = q₃ ++ '\x7b' :: rest := by simpa using heq.symm
  obtain ⟨y, rfl, -⟩ := prefix_of_notMem hspan hbrace
  exact ne_call hu hn hs' (x := q₁ ++ f) (y := y) (by simp)

theorem opening_eq_append (s name s' : Text) : opening s name s' = ("function" ++ s) ++ (name ++ (s' ++ ['('])) := by
  simp [opening_eq]

theorem marking_eq_call (name : Text) :
    marking name = (markerText name ++ (" function " : Text)) ++ (name ++ ([] ++ ['('])) := by
  simp [marking_eq_append, opening_eq]

/-- A binding in front of a block has the same text without the markers and with them. -/
theorem exists_block (hu : Binds h u)
    (hsplice : Spliced (fun _ _ => True) Inserts pre (u ++ '\x7b' :: rest) post line') :
    ∃ rest', line' = u ++ '\x7b' :: rest' ∧ Spliced (fun _ _ => True) Inserts (pre ++ (u ++ ['\x7b'])) rest post rest' := by
  obtain ⟨v, rfl, hv⟩ := hsplice.keeps_prefix (q := u ++ ['\x7b']) (y := rest) (by simp) fun q₁ q₂ w r z hq hne hr => by
    obtain ⟨s, name, s', rfl, -, hb, hn, hs', -, -⟩ := changes_declarationHead hr.1
    rw [opening_eq_append]
    exact ne_call_append hu hq hne hn hs' (by simp [hb.notMem (c := '\x7b') (by decide)])
  exact ⟨v, by simp, hv⟩

theorem blockless_of_spliced (hsplice : Spliced (fun _ _ => True) Inserts pre line post line') (hline : Blockless line) :
    Blockless line' := by
  rintro h u rest hu rfl
  obtain ⟨y, rfl, -⟩ := hsplice.prefix_of (q := u ++ ['\x7b']) (v := rest) (by simp)
    fun q₁ q₂ w y r v' hq hne _ hr _ => by
      obtain ⟨s, name, s', -, -, -, hn, -, -, rfl⟩ := changes_declarationHead hr.1
      rw [marking_eq_call]
      exact ne_call_append hu hq hne hn (by simp [AllBlank]) (by simp [notMem_marker hn '\x7b' (by simp)])
  exact hline h u y hu (by simp)

theorem eq_or_exists_marking (hsplice : Spliced (fun _ _ => True) Inserts pre line post line') :
    line' = line ∨ ∃ x name y, name ∈ triggers ∧ line' = x ++ (marking name ++ y) := by
  rcases hsplice.eq_or_exists with h | ⟨x, w, y, r, u, v, -, hr, h⟩
  · exact .inl h
  · obtain ⟨s, name, s', -, -, -, hn, -, -, rfl⟩ := changes_declarationHead hr.1
    exact .inr ⟨u, name, v, hn, h⟩

/-! ### Lines with an expression -/

theorem exists_comment {z d : Text} (heq : x ++ '/' :: '*' :: z = d ++ t) (hslash : '/' ∉ t) (hstar : '*' ∉ t) :
    ∃ w, d = x ++ '/' :: '*' :: w := by
  rcases split_cons heq with ⟨w, -, rfl⟩ | ⟨w, rfl, hw⟩
  · exact absurd (by simp) hslash
  · cases w with
    | nil =>
      obtain rfl : '*' :: z = t := hw
      exact absurd (by simp) hstar
    | cons c w =>
      obtain ⟨rfl, -⟩ := List.cons.inj hw
      exact ⟨w, rfl⟩

theorem mentions_trim {d w : Text} (hd : d = x ++ '/' :: '*' :: w) : mentions "/*" (trim d) = true := by
  obtain ⟨g, g', heq, hg, hg'⟩ := exists_trim d
  have hnot {g : Text} (hg : AllBlank g) : '/' ∉ g ∧ '*' ∉ g :=
    ⟨hg.notMem (c := '/') (by decide), hg.notMem (c := '*') (by decide)⟩
  rw [heq] at hd
  rcases split_cons hd.symm with ⟨v, rfl, hv⟩ | ⟨v, rfl, -⟩
  · obtain ⟨k, hk⟩ := exists_comment hv.symm (hnot hg').1 (hnot hg').2
    exact mentions_iff.2 ⟨v, k, by simp [hk]⟩
  · exact absurd (by simp) (hnot hg).1

theorem exists_arrow (hu : Binds h u) : ∃ v g, u = v ++ '>' :: g ∧ AllIndent g := by
  obtain ⟨ex, kw, g₁, g₂, g₃, as, ps, g₄, g₅, rfl, -, -, -, -, -, -, -, -, -, -, -, -, hg₅⟩ := hu
  exact ⟨h.margin ++ (ex ++ (kw ++ (g₁ ++ (h.name ++ (g₂ ++ ("=" ++ (g₃ ++ (as ++ (ps ++ (g₄ ++ "=")))))))))), g₅,
    by simp, hg₅⟩

/-- A marker in a line with an expression for the body of its function is a comment in the body. -/
theorem isComplete_of_marking (hb : expressionBinding.Reads pre line post b) (hn : name ∈ triggers)
    (hline : line = x ++ (marking name ++ y)) : b.isComplete post' = false := by
  obtain ⟨u, t, rfl, -, hu, -, -, ht, -⟩ := reads_expressionBinding.1 hb
  obtain ⟨m, hm⟩ : ∃ m, marking name = '/' :: '*' :: m := ⟨_, marking_eq_comment name⟩
  have hbehind : ∃ x', b.body ++ t = x' ++ (marking name ++ y) := by
    rcases List.append_eq_append_iff.1 hline with ⟨x', rfl, hx'⟩ | ⟨a, rfl, ha⟩
    · exact ⟨x', hx'⟩
    · by_cases hne : a = []
      · exact ⟨[], by simpa [hne] using ha.symm⟩
      exfalso
      obtain ⟨v, g, harrow, hg⟩ := exists_arrow hu
      rcases split_cons harrow.symm with ⟨w, rfl, rfl⟩ | ⟨w, rfl, rfl⟩
      · -- the whole marker would stand in front of the arrow
        have hspan : marking name ++ y = w ++ '>' :: (g ++ (b.body ++ t)) := by simpa using ha
        obtain ⟨w, rfl, -⟩ := prefix_of_notMem hspan (notMem_marking hn '>' (by simp))
        rw [marking_eq_call] at hu
        have hnil : AllBlank [] := by simp [AllBlank]
        exact ne_call hu hn hnil (x := x ++ (markerText name ++ (" function " : Text))) (y := w ++ '>' :: g) (by simp)
      · obtain ⟨c, a, rfl⟩ := List.exists_cons_of_ne_nil hne
        rw [hm] at ha
        obtain ⟨rfl, -⟩ := List.cons.inj ha
        exact absurd (hg '/' (by simp)) (by decide)
  obtain ⟨x', hx'⟩ := hbehind
  have hnot (c : Char) (hc : isIndent c = false ∧ c ≠ ';' ∧ c ≠ '\r') : c ∉ t := fun hmem => by
    rcases mem_ends ht hmem with h | h | h
    · exact absurd h (by simp [hc.1])
    · exact hc.2.1 h
    · exact hc.2.2 h
  rw [hm] at hx'
  obtain ⟨w, hw⟩ := exists_comment (z := m ++ y) (by simpa using hx'.symm) (hnot '/' (by decide)) (hnot '*' (by decide))
  rw [← Bool.not_eq_true, isComplete_iff, not_not]
  exact .inr (.inl (mentions_trim hw))

end Arrow

end AppsScript
