import AppsScript.Proofs.ArrowBindings
import AppsScript.Proofs.ExportHeads
import AppsScript.Proofs.LoggerCalls

/-!
# Texts with declared arrow functions

The edits of `Arrow` move the parameters and the body of a function, and print words of their own between
them. Neither lets a call of the console stand by itself that did not (`redirected_declare`), nor does
a statement start with an exported declaration after them that did not before (`unexported_declare`).
-/

namespace AppsScript.Arrow

open Source Scan Text

variable {K : Text → Text → Prop} {pre w post r t u v s r₁ r₂ tail out : Text} {c : Char} {h : Head}

/-! ### The parts of a declaration -/

theorem mem_front (hu : Binds h u) : ∀ c ∈ h.front, isIndent c ∨ isName c := by
  obtain ⟨ex, kw, g₁, g₂, g₃, as, ps, g₄, g₅, -, hm, -, -, -, -, -, hname, -⟩ := hu
  have hword : ∀ t ∈ (["export ", "async ", "function "] : List Text), ∀ c ∈ t, isIndent c ∨ isName c := by
    have hall : ∀ t ∈ (["export ", "async ", "function "] : List Text), ∀ c ∈ t, c = ' ' ∨ c.isAlphanum := by
      simp
    intro t ht c hc
    rcases hall t ht c hc with rfl | hc
    · exact .inl (by decide)
    · exact .inr (isName_of_isAlphanum hc)
  intro c hc
  rw [Head.front_eq] at hc
  simp only [List.mem_append] at hc
  rcases hc with hc | hc | hc | hc | hc
  · exact .inl (hm.isIndent c hc)
  · split_ifs at hc
    · exact hword _ (by simp) c hc
    · simp at hc
  · split_ifs at hc
    · exact hword _ (by simp) c hc
    · simp at hc
  · exact hword _ (by simp) c hc
  · exact .inr (hname c hc)

theorem notMem_front (hu : Binds h u) (hi : isIndent c = false) (hn : isName c = false) : c ∉ h.front := by
  intro hc
  rcases mem_front hu c hc with h | h
  · exact absurd h (by simp [hi])
  · exact absurd h (by simp [hn])

theorem notMem_params (hu : Binds h u) : '(' ∉ h.params ∧ ')' ∉ h.params ∧ '\n' ∉ h.params := by
  obtain ⟨ex, kw, g₁, g₂, g₃, as, ps, g₄, g₅, -, -, -, -, -, -, -, -, -, -, -, hps, -⟩ := hu
  rcases hps with ⟨-, hps⟩ | ⟨-, -, hps⟩
  · refine ⟨fun hc => hps _ hc ?_, fun hc => hps _ hc ?_, fun hc => hps _ hc ?_⟩ <;> simp
  · refine ⟨fun hc => ?_, fun hc => ?_, fun hc => ?_⟩ <;> exact absurd (hps _ hc) (by decide)

theorem getLast?_of_binds (hu : Binds h u) : ∃ c, u.getLast? = some c ∧ (c = '>' ∨ isIndent c) := by
  obtain ⟨ex, kw, g₁, g₂, g₃, as, ps, g₄, g₅, hw, -, -, -, -, -, -, -, -, -, -, -, -, hg₅⟩ := hu
  obtain ⟨w, rfl⟩ : ∃ w, u = w ++ '>' :: g₅ :=
    ⟨h.margin ++ ex ++ kw ++ g₁ ++ h.name ++ g₂ ++ ['='] ++ g₃ ++ as ++ ps ++ g₄ ++ ['='], by simp [hw]⟩
  rcases List.eq_nil_or_concat g₅ with rfl | ⟨g, c, rfl⟩
  · exact ⟨'>', List.getLast?_concat, .inl rfl⟩
  · refine ⟨c, ?_, .inr (hg₅.isIndent c (by simp))⟩
    have hsplit : w ++ '>' :: (g.concat c) = (w ++ '>' :: g) ++ [c] := by simp
    rw [hsplit, List.getLast?_concat]

/-- Where a declaration can be cut in two. -/
theorem split_declared {params : Text}
    (hr : h.front ++ '(' :: (params ++ ')' :: tail) = r₁ ++ r₂) :
    (∃ f, h.front = r₁ ++ f ∧ r₂ = f ++ '(' :: (params ++ ')' :: tail)) ∨
    (∃ p₁ p₂, params = p₁ ++ p₂ ∧ r₁ = h.front ++ '(' :: p₁ ∧ r₂ = p₂ ++ ')' :: tail) ∨
    ∃ t₁, tail = t₁ ++ r₂ ∧ r₁ = h.front ++ '(' :: (params ++ ')' :: t₁) := by
  rcases split_cons hr with hf | ⟨g, rfl, hg⟩
  · exact .inl hf
  rcases split_cons hg with ⟨p, rfl, rfl⟩ | ⟨t₁, rfl, rfl⟩
  · exact .inr (.inl ⟨g, p, rfl, rfl, rfl⟩)
  · exact .inr (.inr ⟨t₁, rfl, rfl⟩)

/-! ### Calls of the console -/

section Calls

open Logger

variable {method : Text}

theorem extendsName_of_isBlank (hc : isBlank c) : extendsName c = false := by
  have hall : ∀ n ∈ blankPoints, extendsName (Char.ofNat n) = false := by decide +kernel
  rw [← Char.ofNat_toNat c]
  exact hall _ (toNat_mem_blankPoints hc)

/-- A call that starts inside a declaration was in the body before, with the same text in front of it or
at its very start. -/
theorem exists_call_of_split {v v' post : Text} (hu : Binds h u) (hv : Carries v post tail)
    (hr : h.front ++ '(' :: (h.params ++ ')' :: tail) = r₁ ++ r₂) (hm : method ∈ methods) (h₂ : r₂ ≠ [])
    (hcall : ("console." : Text) ++ (method ++ '(' :: s) = r₂ ++ v') :
    ∃ g b w r, v = g ++ (b ++ (("console." : Text) ++ (method ++ '(' :: w))) ∧ AllBlank g ∧ r₁ = r ++ b := by
  have hcall' : ("console." : Text) ++ (method ++ ['(']) ++ s = r₂ ++ v' := by simpa using hcall
  have hparen : ')' ∉ ("console." : Text) ++ (method ++ ['(']) ∧ ';' ∉ ("console." : Text) ++ (method ++ ['(']) := by
    simp only [methods, List.mem_cons, List.not_mem_nil, or_false] at hm
    rcases hm with rfl | rfl | rfl <;> simp
  obtain ⟨z, rfl⟩ : ∃ z, r₂ = 'c' :: z := by
    obtain ⟨c, z, rfl⟩ := List.exists_cons_of_ne_nil h₂
    obtain ⟨rfl, -⟩ := List.cons.inj hcall
    exact ⟨z, rfl⟩
  rcases split_declared hr with ⟨f, hf, hz⟩ | ⟨p₁, p₂, hp, -, hz⟩ | ⟨t₁, ht, rfl⟩
  · -- in front of the parameters there is no point
    have hdot : ("console." : Text) ++ (method ++ '(' :: s) = f ++ '(' :: (h.params ++ ')' :: tail ++ v') := by
      rw [hcall, hz]
      simp
    obtain ⟨w, rfl, -⟩ := prefix_of_notMem hdot (by simp)
    refine absurd (show '.' ∈ h.front by simp [hf]) (notMem_front hu (by decide) (by decide))
  · -- in the parameters there is no parenthesis
    have hclose : ("console." : Text) ++ (method ++ ['(']) ++ s = p₂ ++ ')' :: (tail ++ v') := by
      rw [hcall', hz]
      simp
    obtain ⟨w, rfl, -⟩ := prefix_of_notMem hclose hparen.1
    exact absurd (show '(' ∈ h.params by simp [hp]) (notMem_params hu).1
  · cases hv with
    | block =>
      have : 'c' ∈ (" \x7b" : Text) := by
        rw [ht]
        simp
      simp at this
    | @expression body t cr _ _ hbody hends hpost =>
      obtain ⟨b₁, rfl, hb⟩ := prefix_of_notMem (u := (" \x7b return " : Text)) ht (by simp)
      have hb' : trim body ++ ';' :: (" \x7d" ++ cr) = b₁ ++ 'c' :: z := by simpa using hb
      obtain ⟨_, _, -, -, -, hcr⟩ := hends
      rcases split_cons hb' with ⟨b₂, hb₂, hz⟩ | ⟨w, -, hw⟩
      · have hsemi : ("console." : Text) ++ (method ++ ['(']) ++ s = b₂ ++ ';' :: ((" \x7d" : Text) ++ cr ++ v') := by
          rw [hcall', hz]
          simp
        obtain ⟨w, rfl, -⟩ := prefix_of_notMem hsemi hparen.2
        obtain ⟨g, g', hbody', hg, -⟩ := exists_trim body
        refine ⟨g, b₁, w ++ (g' ++ t), h.front ++ '(' :: (h.params ++ ')' :: (" \x7b return " : Text)), ?_, hg,
          by simp⟩
        rw [hbody', hb₂]
        simp
      · have : 'c' ∈ (" \x7d" : Text) ++ cr := by
          rw [hw]
          simp
        rcases hcr with rfl | rfl <;> simp at this

theorem head?_of_declares (h : Declares pre w post r) : r ≠ [] ∧ r.head? ≠ some 'c' := by
  obtain ⟨h, u, v, tail, -, rfl, -, hu, -⟩ := h
  refine ⟨by simp, ?_⟩
  obtain ⟨ex, kw, g₁, g₂, g₃, as, ps, g₄, g₅, -, hm, -⟩ := hu
  rw [Head.front_eq]
  rcases hmargin : h.margin with _ | ⟨c, m⟩
  · cases h.isExported <;> cases h.isAsync <;> simp
  · have := hm c (by simp [hmargin])
    simp only [List.cons_append, List.head?_cons, ne_eq, Option.some.injEq]
    rintro rfl
    exact absurd this (by decide)

/-- Behind what was put, a name goes on only if it goes on behind what was read. -/
theorem getLast?_of_declares (h : Declares pre w post r) (hpost : post.head? = some 'c') :
    w.getLast?.any extendsName = false := by
  obtain ⟨h, u, v, tail, rfl, -, -, -, hv⟩ := h
  cases hv with
  | block =>
    rw [List.getLast?_append_of_ne_nil _ (by simp)]
    decide
  | expression hbody hends hpost' => exact absurd (hpost' _ hpost) (by decide)

theorem redirected_of_spliced (ht : Redirected t) (h : Spliced K Declares [] t [] out) : Redirected out := by
  rintro u method post rfl hm
  rcases h.split rfl with ⟨x, y, rfl, hx, hy⟩ | ⟨x, w, y, u', r₁, r₂, v', rfl, -, -, hr, h₁, h₂, -, rfl, hv⟩
  · have hprefix : ∃ z, y = ("console." : Text) ++ (method ++ ['(']) ++ z ∧
        Spliced K Declares ([] ++ x ++ (("console." : Text) ++ (method ++ ['(']))) z [] post := by
      refine hy.prefix_of (by simp) fun q₁ q₂ w y r v' hq hq₂ _ hr _ heq => ?_
      rcases List.eq_nil_or_concat q₁ with rfl | ⟨q, c, rfl⟩
      · -- a declaration does not start like a call
        obtain ⟨hne, hhead⟩ := head?_of_declares hr
        refine hhead ?_
        rw [← List.head?_append_of_ne_nil _ hne, ← heq, ← show _ = q₂ from hq]
        rfl
      · -- no line starts inside a call
        obtain ⟨h, u, v, tail, -, -, hline, -⟩ := hr
        have hn : c = '\n' := hline c (by simp)
        have hmem : '\n' ∈ ("console." : Text) ++ (method ++ ['(']) := by
          rw [hq, hn]
          simp
        simp only [methods, List.mem_cons, List.not_mem_nil, or_false] at hm
        rcases hm with rfl | rfl | rfl <;> simp at hmem
    obtain ⟨y, rfl, -⟩ := hprefix
    obtain ⟨c, hc, hext⟩ := ht x method y (by simp) hm
    rcases hx.last with ⟨rfl, rfl⟩ | ⟨x, u, c', rfl, rfl⟩ | ⟨x, w, u, r, rfl, rfl, hne, hr⟩
    · exact ⟨c, hc, hext⟩
    · exact ⟨c, by simpa using hc, hext⟩
    · have := getLast?_of_declares hr (by simp)
      rw [List.getLast?_append_of_ne_nil _ hne] at hc
      rw [Option.mem_def.1 hc, Option.any_some] at this
      exact absurd (extendsName_iff.2 hext) (by simp [this])
  · obtain ⟨h, u, v, tail, rfl, hpiece, -, hu, hv'⟩ := hr
    obtain ⟨g, b, w, r, rfl, hg, rfl⟩ := exists_call_of_split hu hv' hpiece.symm hm h₂ hv
    obtain ⟨c, hc, hext⟩ := ht (x ++ (u ++ (g ++ b))) method (w ++ y) (by simp) hm
    by_cases hb : b = []
    · -- in front of the whole body there is white space or the arrow
      subst hb
      rw [List.append_nil] at hc
      rcases List.eq_nil_or_concat g with rfl | ⟨g, d, rfl⟩
      · obtain ⟨d, hd, hd'⟩ := getLast?_of_binds hu
        have hne : u ≠ [] := by
          rintro rfl
          simp at hd
        rw [List.append_nil, List.getLast?_append_of_ne_nil _ hne, hd] at hc
        obtain rfl := Option.some.inj hc
        rcases hd' with rfl | hi
        · exact absurd hext (by decide)
        · exact absurd (extendsName_iff.2 hext) (by simp [extendsName_of_isBlank (isBlank_of_isIndent hi)])
      · obtain rfl : d = c := by simpa using hc
        exact absurd (extendsName_iff.2 hext) (by simp [extendsName_of_isBlank (hg d (by simp))])
    · refine ⟨c, ?_, hext⟩
      rw [← List.append_assoc, ← List.append_assoc, List.getLast?_append_of_ne_nil _ hb] at hc
      rwa [← List.append_assoc, List.getLast?_append_of_ne_nil _ hb]

end Calls

/-! ### Exported declarations -/

section Exports

open ModuleSyntax

variable {E : Text → Option Char → Prop} {x q₁ q₂ m kw v post : Text}

theorem exists_modifier (hu : Binds h u) : ∃ ex kw c w, u = h.margin ++ (ex ++ (kw ++ c :: w)) ∧
    AllIndent h.margin ∧ Marks "export" h.isExported ex ∧ kw ∈ declarationWords ∧ isIndent c := by
  obtain ⟨ex, kw, g₁, g₂, g₃, as, ps, g₄, g₅, rfl, hm, hex, hkw, hne₁, hg₁, -⟩ := hu
  obtain ⟨c, g₁, rfl⟩ := List.exists_cons_of_ne_nil hne₁
  refine ⟨ex, kw, c, _, rfl, hm, hex, ?_, hg₁.isIndent c (by simp)⟩
  simp only [bindingWords, List.mem_cons, List.not_mem_nil, or_false] at hkw
  rcases hkw with rfl | rfl | rfl <;> simp [declarationWords]

theorem modifierHead_of_isIndent (hkw : kw ∈ declarationWords) (hc : isIndent c) :
    ModifierHead kw (some c) :=
  ⟨hkw, by rw [Option.any_some, not_isWord_of_isBlank (isBlank_of_isIndent hc)]⟩

/-- Where no statement exports a declaration, no binding is exported. -/
theorem not_isExported (ht : Unexported ModifierHead (x ++ (u ++ v))) (hx : x.AtLineStart) (hu : Binds h u) :
    h.isExported = false := by
  obtain ⟨ex, kw, c, w, rfl, hm, hex, hkw, hc⟩ := exists_modifier hu
  rcases hex with ⟨-, g, rfl, hne, hg⟩ | ⟨hex, -⟩
  · exact absurd ⟨h.margin, g, kw, c :: (w ++ v), by simp, hm, hne, hg.allBlank,
      modifierHead_of_isIndent hkw hc⟩ (ht x _ rfl (.inl hx))
  · exact hex

theorem front_of_not_isExported (hex : h.isExported = false) :
    ∃ kw w, h.front = h.margin ++ (kw ++ ' ' :: w) ∧ kw ∈ headWords := by
  rw [Head.front_eq, hex]
  cases h.isAsync with
  | false => exact ⟨"function", h.name, by simp, by simp [headWords, declarationWords]⟩
  | true => exact ⟨"async", ("function " : Text) ++ h.name, by simp, by simp [headWords, declarationWords]⟩

theorem getLast?_of_carries (hv : Carries v post tail) : ∃ c, tail.getLast? = some c ∧ c ∈ ['\x7b', '\x7d', '\r'] := by
  cases hv with
  | block => exact ⟨'\x7b', rfl, by simp⟩
  | expression hbody hends hpost =>
    obtain ⟨g, semi, -, -, -, rfl | rfl⟩ := hends
    · refine ⟨'\r', ?_, by simp⟩
      rw [← List.append_assoc, List.getLast?_append_of_ne_nil _ (by simp)]
      rfl
    · refine ⟨'\x7d', ?_, by simp⟩
      rw [← List.append_assoc, List.getLast?_append_of_ne_nil _ (by simp)]
      rfl

theorem not_statementStart_of_declares (hr : Declares pre w post r) : r ≠ [] ∧ ¬ StatementStart r := by
  obtain ⟨h, u, v, tail, -, rfl, -, -, hv⟩ := hr
  refine ⟨by simp, fun hst => ?_⟩
  obtain ⟨c, hc, hmem⟩ := getLast?_of_carries hv
  have hne : tail ≠ [] := by
    rintro rfl
    simp at hc
  have hsplit : h.front ++ '(' :: (h.params ++ ')' :: tail) = (h.front ++ '(' :: (h.params ++ [')'])) ++ tail := by
    simp
  rw [hsplit, statementStart_append hne, statementStart_iff] at hst
  rcases hst c hc with rfl | rfl <;> simp at hmem

theorem any_isAlphanum_of_declares (hr : Declares pre w post r) : pre.getLast?.any Char.isAlphanum = false := by
  obtain ⟨h, u, v, tail, -, -, hpre, -, -⟩ := hr
  by_contra hw
  obtain ⟨c, hc, hw⟩ := (Option.any_eq_true ..).1 (by simpa using hw)
  obtain rfl := hpre c hc
  exact absurd hw (by decide)

theorem exists_params (hu : Binds h u) :
    (∃ u₁ u₂, u = u₁ ++ '(' :: (h.params ++ ')' :: u₂)) ∨ ∀ c ∈ h.params, isName c := by
  obtain ⟨ex, kw, g₁, g₂, g₃, as, ps, g₄, g₅, rfl, -, -, -, -, -, -, -, -, -, -, hps, -⟩ := hu
  rcases hps with ⟨rfl, -⟩ | ⟨-, -, hps⟩
  · exact .inl ⟨h.margin ++ (ex ++ (kw ++ (g₁ ++ (h.name ++ (g₂ ++ (("=" : Text) ++ (g₃ ++ as))))))),
      g₄ ++ (("=>" : Text) ++ g₅), by simp⟩
  · exact .inr hps

/-- A statement that starts inside a declaration is one of the parameters, or it starts with the brace
that closes the body. -/
theorem cases_of_split (hu : Binds h u) (hv : Carries v post tail)
    (hr : h.front ++ '(' :: (h.params ++ ')' :: tail) = r₁ ++ r₂) (h₁ : r₁ ≠ []) (hst : StatementStart r₁) :
    (∃ p₁ p₂, h.params = p₁ ++ ';' :: p₂ ∧ r₂ = p₂ ++ ')' :: tail) ∨ ∃ z, r₂ = ' ' :: '\x7d' :: z := by
  obtain ⟨r₁, c, rfl⟩ := (List.eq_nil_or_concat r₁).resolve_left h₁
  have hc : c = '\n' ∨ c = ';' := statementStart_iff.1 hst c (by simp)
  have hfront : c ∉ h.front := by
    rcases hc with rfl | rfl <;> exact notMem_front hu (by decide) (by decide)
  -- A statement starts behind a line feed or a `;`, and only the parameters and the end of the body have either.
  rw [List.concat_eq_append] at hr
  rcases split_declared hr with ⟨f, hf, -⟩ | ⟨p₁, p₂, hp, hz, hz'⟩ | ⟨t₁, ht, hz⟩
  · exact absurd (by simp [hf]) hfront
  · rcases List.eq_nil_or_concat p₁ with rfl | ⟨p, d, rfl⟩
    · obtain rfl : c = '(' := by simpa using (List.append_inj' hz rfl).2
      simp at hc
    · have hz₁ : r₁ ++ [c] = (h.front ++ '(' :: p) ++ [d] := by simpa using hz
      obtain rfl : c = d := by simpa using (List.append_inj' hz₁ rfl).2
      have hmem : c ∈ h.params := by simp [hp]
      obtain rfl : c = ';' := hc.resolve_left fun hn => (notMem_params hu).2.2 (hn ▸ hmem)
      exact .inl ⟨p, p₂, by simp [hp], hz'⟩
  · rcases List.eq_nil_or_concat t₁ with rfl | ⟨p, d, rfl⟩
    · have hz₁ : r₁ ++ [c] = (h.front ++ '(' :: h.params) ++ [')'] := by simpa using hz
      obtain rfl : c = ')' := by simpa using (List.append_inj' hz₁ rfl).2
      simp at hc
    · have hz₁ : r₁ ++ [c] = (h.front ++ '(' :: (h.params ++ ')' :: p)) ++ [d] := by simpa using hz
      obtain rfl : c = d := by simpa using (List.append_inj' hz₁ rfl).2
      have hmem : c ∈ tail := by simp [ht]
      cases hv with
      | block => rcases hc with rfl | rfl <;> simp at hmem
      | @expression body t cr _ _ hbody hends hpost =>
        obtain ⟨g, g', hbody', -, -⟩ := exists_trim body
        have hb {c : Char} (hc : c ∈ trim body) : c ∉ [';', '\x7b', '\x7d', '\n'] :=
          hbody c (by rw [hbody']; simp [hc])
        have hcr : '\n' ∉ cr ∧ ';' ∉ cr := by
          obtain ⟨_, _, -, -, -, rfl | rfl⟩ := hends <;> simp
        obtain rfl : c = ';' := by
          refine hc.resolve_left ?_
          rintro rfl
          simp only [List.mem_append] at hmem
          rcases hmem with h | h | h | h
          · simp at h
          · exact hb h (by simp)
          · simp at h
          · exact hcr.1 h
        have hz₂ : p ++ ';' :: r₂ = ((" \x7b return " : Text) ++ trim body) ++ ';' :: ((" \x7d" : Text) ++ cr) := by
          simpa using ht.symm
        have hnot : ';' ∉ (" \x7b return " : Text) ++ trim body := by
          simp only [List.mem_append, not_or]
          exact ⟨by simp, fun h => hb h (by simp)⟩
        obtain ⟨-, -, rfl⟩ := (List.append_cons_inj_of_notMem hnot (by simpa using hcr.2)).1 hz₂.symm
        exact .inr ⟨cr, rfl⟩

/-- A head of the outcome that starts with a character of the text is a head of the text. -/
theorem prefix_of_head (hmod : Unexported ModifierHead (x ++ t)) (hx : StatementStart x)
    (h : Spliced K Declares x t [] (m ++ ("export" ++ (s ++ kw)) ++ v)) (hm : AllIndent m) (hs : s ≠ [])
    (hb : AllBlank s) (hkw : kw ∈ headWords) :
    ∃ y, t = m ++ ("export" ++ (s ++ kw)) ++ y ∧
      Spliced K Declares (x ++ (m ++ ("export" ++ (s ++ kw)))) y [] v := by
  refine h.prefix_of rfl fun q₁ q₂ w y r v' hq hq₂ ht hr _ heq => ?_
  obtain ⟨d, u, b, tail, rfl, rfl, hline, hu, hv⟩ := hr
  have hex : d.isExported = false := by
    refine not_isExported (x := x ++ q₁) (v := b ++ y) ?_ hline hu
    simpa [ht] using hmod
  rcases List.eq_nil_or_concat q₁ with rfl | ⟨q, c, rfl⟩
  · -- the declaration would start with `export` itself
    obtain ⟨kw', f, hf, hkw'⟩ := front_of_not_isExported hex
    obtain ⟨_, _, _, _, -, hmargin, -⟩ := exists_modifier hu
    rw [List.nil_append] at hq
    refine ne_export (t := kw ++ v) (v := ' ' :: f ++ '(' :: (d.params ++ ')' :: tail) ++ v') hmargin hm hkw'
      (by simpa using by decide) hs hb ?_
    rw [← hq, hf] at heq
    simpa using heq.symm
  · -- the binding would stand behind an `export`
    have hn : c = '\n' := hline c (by simp)
    obtain ⟨s₁, s₂, rfl, hne, hq', -⟩ := exists_of_lineStart hq hm hkw (by simp [hn]) hq₂
    obtain ⟨ex, kw', c', w, rfl, hmargin, hmark, hkw', hc'⟩ := exists_modifier hu
    rcases hmark with ⟨hex', -⟩ | ⟨-, rfl⟩
    · simp [hex] at hex'
    refine hmod x _ rfl hx ⟨m, s₁ ++ d.margin, kw', c' :: (w ++ (b ++ y)), ?_, hm, by simp [hne], ?_,
      modifierHead_of_isIndent hkw' hc'⟩
    · rw [ht, hq']
      simp
    · intro z hz
      rcases List.mem_append.1 hz with hz | hz
      · exact hb z (List.mem_append_left _ hz)
      · exact hmargin.allBlank z hz

theorem unexported_of_spliced (hE : Heads E) (hmod : Unexported ModifierHead t) (ht : Unexported E t)
    (h : Spliced K Declares [] t [] out) : Unexported E out := by
  rintro u _ rfl hu ⟨m, s, kw, post, rfl, hm, hs, hb, hkw⟩
  have hkw' := (hE hkw).1
  rcases h.split rfl with ⟨x, y, rfl, hx, hy⟩ | ⟨x, w, y, u', r₁, r₂, v', rfl, -, -, hr, h₁, h₂, -, rfl, hv⟩
  · have hxs : StatementStart x := hu.of_spliced hx fun hr =>
      ⟨(not_statementStart_of_declares hr).1, fun h => absurd h (not_statementStart_of_declares hr).2⟩
    obtain ⟨y, rfl, hy'⟩ := prefix_of_head hmod hxs (by simpa using hy) hm hs hb hkw'
    rw [head?_of_spliced hy' hkw' any_isAlphanum_of_declares] at hkw
    exact ht x _ rfl hxs ⟨m, s, kw, y, by simp, hm, hs, hb, hkw⟩
  · obtain ⟨d, u, b, tail, rfl, hpiece, hline, hu', hv'⟩ := hr
    rw [statementStart_append h₁] at hu
    rcases cases_of_split hu' hv' hpiece.symm h₁ hu with ⟨p₁, p₂, hp, rfl⟩ | ⟨z, rfl⟩
    · -- the head stands in the parameters, behind a `;`
      have hclose : (m ++ ("export" ++ (s ++ kw))) ++ post = p₂ ++ ')' :: (tail ++ v') := by simpa using hv
      obtain ⟨w, rfl, rfl⟩ := prefix_of_notMem hclose (notMem_of_not_isWord hm hb hkw' (by decide) (by decide))
      rcases exists_params hu' with ⟨u₁, u₂, rfl⟩ | hname
      · refine ht (x ++ (u₁ ++ '(' :: p₁) ++ [';']) _ ?_ (.inr List.getLast?_concat)
          ⟨m, s, kw, w ++ ')' :: (u₂ ++ (b ++ y)), rfl, hm, hs, hb, ?_⟩
        · rw [hp]
          simp
        · cases w with
          | nil => exact hkw
          | cons c w => exact hkw
      · exact absurd (hname ';' (by simp [hp])) (by decide)
    · have hbrace : (m ++ ("export" ++ (s ++ kw))) ++ post = [' '] ++ '\x7d' :: (z ++ v') := by simpa using hv
      obtain ⟨w, hw, -⟩ := prefix_of_notMem hbrace (notMem_of_not_isWord hm hb hkw' (by decide) (by decide))
      have hmem : 'e' ∈ [' '] := by
        rw [hw]
        simp
      simp at hmem

end Exports

/-! ### The pass -/

theorem spliced_declareBlocks (t : Text) : Spliced (fun _ _ => True) Declares [] t [] (declareBlocks t) :=
  (spliced_edit _ t).changes.mono declares_blockEdit

theorem spliced_declareExpressions (t : Text) :
    Spliced (fun _ _ => True) Declares [] t [] (declareExpressions t) :=
  (spliced_edit _ t).changes.mono declares_expressionEdit

theorem redirected_declare (ht : Logger.Redirected t) : Logger.Redirected (declare t) :=
  redirected_of_spliced (redirected_of_spliced ht (spliced_declareBlocks t)) (spliced_declareExpressions _)

/-- No head is printed by the pass, also none with the `export` of a binding: that of the binding was one. -/
theorem unexported_declare {E : Text → Option Char → Prop} (hE : ModuleSyntax.Heads E)
    (hmod : ModuleSyntax.Unexported ModuleSyntax.ModifierHead t) (ht : ModuleSyntax.Unexported E t) :
    ModuleSyntax.Unexported E (declare t) := by
  have hmod' := unexported_of_spliced ModuleSyntax.heads_modifier hmod hmod (spliced_declareBlocks t)
  have ht' := unexported_of_spliced hE hmod ht (spliced_declareBlocks t)
  exact unexported_of_spliced hE hmod' ht' (spliced_declareExpressions _)

end AppsScript.Arrow
