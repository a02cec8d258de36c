import AppsScript.Proofs.TriggerMarks

/-!
# Marking some declarations first

`mark` puts a marker in front of a declaration that lacks one (`changes_declarationHead_iff`). When some of these
declarations get their markers beforehand, the outcome is the same (`mark_of_spliced`): a marker holds no
declaration, and the others are marked or not as they were, because that is decided by the text behind the last
parenthesis.
-/

namespace AppsScript.Trigger

open Scan Text

variable {pre pre' w post r t out u v s s' name : Text} {e : Option Text}

theorem exists_eq_append_paren (hb : AllBlank s) (hn : name ∈ triggers) (hs' : AllBlank s') :
    ∃ q, opening s name s' = q ++ ['('] ∧ '(' ∉ q := by
  refine ⟨"function" ++ (s ++ (name ++ s')), by simp [opening_eq], ?_⟩
  have hname : '(' ∉ name := fun hc => absurd (isAlphanum_of_mem_triggers hn _ hc) (by decide)
  simp [hb.notMem (c := '(') (by decide), hs'.notMem (c := '(') (by decide), hname]

theorem readsFirst_declarationHead (hs : s ≠ []) (hb : AllBlank s) (hn : name ∈ triggers) (hs' : AllBlank s')
    (hedge : pre.getLast?.any isWord = false) : declarationHead.ReadsFirst pre (opening s name s') post
      (if isMarked name pre.reverse then none else some (marking name)) := by
  refine .of_unique (reads_declarationHead.2 ⟨s, name, s', rfl, hs, hb, hn, hs', hedge, rfl⟩) ?_
  rintro w' post' e heq hr
  obtain ⟨s₁, name₁, s₁', rfl, hs₁, hb₁, hn₁, hs₁', -, rfl⟩ := reads_declarationHead.1 hr
  obtain rfl := name_unique hb hb₁ hn hn₁ hs' hs₁' heq
  refine ⟨?_, rfl⟩
  obtain ⟨q, hq, hparen⟩ := exists_eq_append_paren hb hn hs'
  obtain ⟨q₁, hq₁, hparen₁⟩ := exists_eq_append_paren hb₁ hn hs₁'
  have hsplit : q ++ '(' :: post = q₁ ++ '(' :: post' := by simpa [hq, hq₁] using heq
  rw [hq, hq₁, (first_unique hsplit hparen hparen₁).1]

/-- `mark` changes the declarations that lack their markers. -/
theorem changes_declarationHead_iff : declarationHead.Changes pre w post r ↔
    ∃ s name s', w = opening s name s' ∧ s ≠ [] ∧ AllBlank s ∧ name ∈ triggers ∧ AllBlank s' ∧
      pre.getLast?.any isWord = false ∧ isMarked name pre.reverse = false ∧ r = marking name := by
  constructor
  · intro h
    obtain ⟨s, name, s', rfl, hs, hb, hn, hs', hedge, he⟩ := reads_declarationHead.1 h.reads
    split_ifs at he with hmark
    exact ⟨s, name, s', rfl, hs, hb, hn, hs', hedge, by simpa using hmark, Option.some.inj he⟩
  · rintro ⟨s, name, s', rfl, hs, hb, hn, hs', hedge, hmark, rfl⟩
    have hfirst : declarationHead.ReadsFirst pre (opening s name s') post _ :=
      readsFirst_declarationHead hs hb hn hs' hedge
    rwa [hmark, if_neg (by simp)] at hfirst

/-- Whether a declaration has its marker is not changed by markers in front of others. -/
theorem isMarked_of_spliced {K : Text → Text → Prop} (h : Spliced K declarationHead.Changes [] pre post pre')
    (hn : name ∈ triggers) : isMarked name pre'.reverse = isMarked name pre.reverse := by
  have hlast {pre w post r : Text} (hr : declarationHead.Changes pre w post r) :
      w.getLast? = some '(' ∧ r.getLast? = some '(' := by
    obtain ⟨s, name, s', rfl, -, -, -, -, -, rfl⟩ := changes_declarationHead hr
    exact ⟨getLast?_opening .., getLast?_marking name⟩
  rw [Bool.eq_iff_iff, isMarked_iff, isMarked_iff]
  constructor
  · rintro ⟨u, g, hpre, hg⟩
    obtain ⟨x, rfl⟩ := h.exists_suffix hpre (fun hr => (hlast hr).2) (notMem_marker_append hn hg)
    exact ⟨x, g, rfl, hg⟩
  · rintro ⟨u, g, hpre, hg⟩
    obtain ⟨x, rfl⟩ := h.suffix_of_notMem hpre (fun hr => (hlast hr).1) (notMem_marker_append hn hg)
    exact ⟨x, g, rfl, hg⟩

theorem getLast?_of_spliced {K : Text → Text → Prop} (h : Spliced K declarationHead.Changes [] pre post pre') :
    pre'.getLast? = pre.getLast? :=
  h.getLast?_eq fun hr => by
    obtain ⟨s, name, s', rfl, -, -, -, -, -, rfl⟩ := changes_declarationHead hr
    rw [getLast?_marking, getLast?_opening]

/-- A declaration that has got its marker is left as it is. -/
theorem editAt_marking (hn : name ∈ triggers) :
    declarationHead.editAt pre (marking name ++ t) = marking name ++ declarationHead.editAt (pre ++ marking name) t := by
  have hf : 'f' ∉ markerText name ++ [' '] := by simpa using notMem_marker hn 'f' (by simp)
  have hpass : declarationHead.PassesOver pre (markerText name ++ [' ']) (opening [' '] name [] ++ t) := by
    rintro u v huv hv w post e heq hr
    obtain ⟨s, name, s', rfl, -⟩ := reads_declarationHead.1 hr.reads
    obtain ⟨c, v, rfl⟩ := List.exists_cons_of_ne_nil hv
    obtain rfl : c = 'f' := by simpa [opening_eq] using congrArg List.head? heq
    exact absurd (by simp [huv]) hf
  have hfirst : declarationHead.ReadsFirst (pre ++ (markerText name ++ [' '])) (opening [' '] name []) t none := by
    have hblank : AllBlank [' '] := by simp [AllBlank]; decide
    have hfirst : declarationHead.ReadsFirst (pre ++ (markerText name ++ [' '])) (opening [' '] name []) t _ :=
      readsFirst_declarationHead (by simp) hblank hn (by simp [AllBlank])
        (by rw [← List.append_assoc, List.getLast?_concat]; decide)
    rwa [isMarked_iff.2 ⟨pre, [' '], rfl, hblank⟩, if_pos rfl] at hfirst
  rw [marking_eq_append, List.append_assoc, editAt_append hpass,
    editAt_put hfirst (consumes_declarationHead hfirst.reads)]
  simp

/-- A declaration whose first character is kept is kept as a whole, because no other one starts in it. -/
theorem exists_opening_of_keep {c : Char} (h : Spliced (fun _ _ => True) declarationHead.Changes (pre ++ [c]) t [] out)
    (ht : c :: t = opening s name s' ++ post) (hb : AllBlank s) (hn : name ∈ triggers) (hs' : AllBlank s') :
    ∃ v, c :: out = opening s name s' ++ v ∧
      Spliced (fun _ _ => True) declarationHead.Changes (pre ++ opening s name s') post [] v := by
  obtain ⟨q, hq⟩ : ∃ q, opening s name s' = 'f' :: q := ⟨_, opening_eq ..⟩
  have hfq : 'f' ∉ q := by simpa [hq] using (notMem_opening hb hn hs').2
  rw [hq, List.cons_append] at ht
  obtain ⟨rfl, hrest⟩ := List.cons.inj ht
  obtain ⟨v, rfl, hv⟩ := h.keeps_prefix hrest fun q₁ q₂ w r z hq₂ hne hr heq => by
    obtain ⟨s, name, s', rfl, -⟩ := changes_declarationHead hr
    obtain ⟨d, q₂, rfl⟩ := List.exists_cons_of_ne_nil hne
    obtain rfl : d = 'f' := by simpa [opening_eq] using congrArg List.head? heq
    exact hfq (by simp [hq₂])
  exact ⟨v, by rw [hq, List.cons_append], by simpa [hq] using hv⟩

theorem editAt_of_spliced (hpre : Spliced (fun _ _ => True) declarationHead.Changes [] pre t pre')
    (h : Spliced (fun _ _ => True) declarationHead.Changes pre t [] out) :
    declarationHead.editAt pre' out = declarationHead.editAt pre t := by
  generalize hlen : t.length = n
  -- The induction is on what is ahead; what lies behind the two edits stays spliced, whether a piece was put or a
  -- character kept.
  induction n using Nat.strong_induction_on generalizing pre pre' t out with
  | _ n ih =>
    have hlast := getLast?_of_spliced hpre
    cases h with
    | done => rfl
    | @put _ w t _ r out hr hne h =>
      rw [List.append_nil] at hr
      have hlt : t.length < n := by
        have := List.length_pos_of_ne_nil hne
        rw [← hlen, List.length_append]
        omega
      have hstep : Spliced (fun _ _ => True) declarationHead.Changes [] (pre ++ w) t (pre' ++ r) := by
        have hpiece : Spliced (fun _ _ => True) declarationHead.Changes pre (w ++ []) t (r ++ []) :=
          .put (by simpa using hr) hne .done
        exact hpre.append (by simpa using hpiece)
      obtain ⟨s, name, s', rfl, -, -, hn, -, -, rfl⟩ := changes_declarationHead hr
      rw [editAt_put hr hne, Option.getD_some, editAt_marking hn, ih _ hlt hstep h rfl]
    | @keep _ t _ out c hc h =>
      by_cases hf : declarationHead.Fails pre (c :: t)
      · have hf' : declarationHead.Fails pre' (c :: out) := by
          rw [fails_iff]
          rintro w post e heq hr
          obtain ⟨s, name, s', rfl, hs, hb, hn, hs', hedge, -⟩ := reads_declarationHead.1 hr
          have hkeep : Spliced (fun _ _ => True) declarationHead.Changes pre (c :: t) [] (c :: out) := .keep trivial h
          obtain ⟨y, hy, -⟩ := hkeep.prefix_of_notMem heq head_of_changes (notMem_opening hb hn hs').1
          rw [hlast] at hedge
          exact fails_iff.1 hf _ y _ hy (reads_declarationHead.2 ⟨s, name, s', rfl, hs, hb, hn, hs', hedge, rfl⟩)
        have hstep : Spliced (fun _ _ => True) declarationHead.Changes [] (pre ++ [c]) t (pre' ++ [c]) := by
          have hone : Spliced (fun _ _ => True) declarationHead.Changes pre [c] t [c] := .keep trivial .done
          exact hpre.append (by simpa using hone)
        rw [editAt_keep hf.passes, editAt_keep hf'.passes, ih t.length (by simp [← hlen]) hstep h rfl]
      · -- A head that was kept is still there, and it is marked in the outcome just if it is in the text.
        obtain ⟨w, post, e, heq, hr⟩ := exists_readsFirst hf
        obtain ⟨s, name, s', rfl, hs, hb, hn, hs', hedge, rfl⟩ := reads_declarationHead.1 hr.reads
        obtain ⟨v, hv, hrest⟩ := exists_opening_of_keep h heq hb hn hs'
        have hne := consumes_declarationHead hr.reads
        have hlt : post.length < n := by
          have := List.length_pos_of_ne_nil hne
          rw [← hlen, heq, List.length_append]
          omega
        rw [heq] at hpre
        have hstep : Spliced (fun _ _ => True) declarationHead.Changes [] (pre ++ opening s name s') post
            (pre' ++ opening s name s') := by
          have hall : Spliced (fun _ _ => True) declarationHead.Changes pre (opening s name s' ++ []) post
              (opening s name s' ++ []) := Spliced.keeps .done
          exact hpre.append (by simpa using hall)
        have hfirst : declarationHead.ReadsFirst pre' (opening s name s') v _ :=
          readsFirst_declarationHead hs hb hn hs' (by rwa [hlast])
        rw [isMarked_of_spliced hpre hn] at hfirst
        rw [hv, heq, editAt_put hr hne, editAt_put hfirst hne, ih _ hlt hstep hrest rfl]

/-- Marking some of the declarations that lack their markers does not change what marking all of them gives. -/
theorem mark_of_spliced (h : Spliced (fun _ _ => True) declarationHead.Changes [] t [] out) : mark out = mark t :=
  editAt_of_spliced .done h

end AppsScript.Trigger
