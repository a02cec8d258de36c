import AppsScript.Proofs.DeclaredLines
import AppsScript.Proofs.SameLines

/-!
# Lines that bind one function

A line can be read in one way as a binding, but for the blanks in front of the body (`binds_unique`), and it cannot
have both a block and an expression for the body (`fails_expressionBinding`). Whether it is read does not depend on
the lines around it (`Scan.Moves`).
-/

namespace AppsScript.Arrow

open Source Scan Text

variable {pre pre' w post post' line out u u' v v' r r' ex ex' kw kw' as as' ps ps' p p' g g' : Text} {c : Char}
  {h h' : Head} {b b' : Bool} {starts : List Nat}

/-! ### The parts of a binding -/

theorem bindingWord_unique (hkw : kw ∈ bindingWords) (hkw' : kw' ∈ bindingWords) (heq : kw ++ v = kw' ++ v') :
    kw = kw' ∧ v = v' := by
  simp only [bindingWords, List.mem_cons, List.not_mem_nil, or_false] at hkw hkw'
  rcases hkw with rfl | rfl | rfl <;> rcases hkw' with rfl | rfl | rfl <;> simp at heq ⊢ <;> exact heq

theorem modifier_unique (hex : Marks "export" b ex) (hex' : Marks "export" b' ex') (hkw : kw ∈ bindingWords)
    (hkw' : kw' ∈ bindingWords) (heq : ex ++ (kw ++ v) = ex' ++ (kw' ++ v')) :
    b = b' ∧ ex = ex' ∧ kw = kw' ∧ v = v' := by
  have hne {kw v w : Text} (hkw : kw ∈ bindingWords) : ("export" : Text) ++ w ≠ kw ++ v := by
    simp only [bindingWords, List.mem_cons, List.not_mem_nil, or_false] at hkw
    rcases hkw with rfl | rfl | rfl <;> simp
  obtain ⟨hkwne, hword⟩ := bindingWord_spec hkw
  obtain ⟨hkwne', hword'⟩ := bindingWord_spec hkw'
  rcases hex with ⟨rfl, g, rfl, -, hg⟩ | ⟨rfl, rfl⟩ <;> rcases hex' with ⟨rfl, g', rfl, -, hg'⟩ | ⟨rfl, rfl⟩
  · rw [List.append_assoc, List.append_assoc, List.append_cancel_left_eq] at heq
    obtain ⟨rfl, hrest⟩ := hg.unique hg' heq (not_isIndent_head hkwne hword) (not_isIndent_head hkwne' hword')
    exact ⟨rfl, rfl, bindingWord_unique hkw hkw' hrest⟩
  · exact absurd (by simpa using heq) (hne hkw')
  · exact absurd (by simpa using heq.symm) (hne hkw)
  · exact ⟨rfl, rfl, bindingWord_unique hkw hkw' heq⟩

theorem not_isName_head (hg : AllIndent g) : ∀ c ∈ (g ++ '=' :: v).head?, ¬ isName c := by
  cases g with
  | nil => simpa using by decide
  | cons x g => simpa using not_isName_of_isBlank (isBlank_of_isIndent (hg.isIndent x (by simp)))

/-- Parameters start with a parenthesis or with a character of a name. -/
theorem exists_lists (hps : Lists p ps) : ∃ c t, ps = c :: t ∧ (c = '(' ∨ isName c) := by
  rcases hps with ⟨rfl, -⟩ | ⟨rfl, hne, hname⟩
  · exact ⟨'(', _, rfl, .inl rfl⟩
  · obtain ⟨c, t, rfl⟩ := List.exists_cons_of_ne_nil hne
    exact ⟨c, t, rfl, .inr (hname c (by simp))⟩

theorem not_isIndent_lists (hps : Lists p ps) : ∀ c ∈ (ps ++ v).head?, ¬ isIndent c := by
  obtain ⟨c, t, rfl, hc⟩ := exists_lists hps
  rintro x hx hi
  obtain rfl : c = x := by simpa using hx
  rcases hc with rfl | hc
  · exact absurd hi (by decide)
  · exact absurd hc (by simp [not_isName_of_isBlank (isBlank_of_isIndent hi)])

theorem lists_unique (hps : Lists p ps) (hps' : Lists p' ps') (hg : AllIndent g) (hg' : AllIndent g')
    (heq : ps ++ (g ++ '=' :: v) = ps' ++ (g' ++ '=' :: v')) : p = p' ∧ ps = ps' ∧ g = g' ∧ v = v' := by
  have hrest {g g' v v' : Text} (hg : AllIndent g) (hg' : AllIndent g') (heq : g ++ '=' :: v = g' ++ '=' :: v') :
      g = g' ∧ v = v' := by
    have hspan := hg.unique hg' heq (by simpa using by decide) (by simpa using by decide)
    exact ⟨hspan.1, (List.cons.inj hspan.2).2⟩
  have hparen {g p v : Text} (hg : AllIndent g) (hname : ∀ c ∈ p, isName c) {w : Text} :
      ("(" : Text) ++ w ≠ p ++ (g ++ '=' :: v) := by
    intro heq
    cases p with
    | nil =>
      have hhead := congrArg List.head? heq
      cases g with
      | nil => simp at hhead
      | cons x g =>
        obtain rfl : '(' = x := by simpa using hhead
        exact absurd (hg '(' (by simp)) (by decide)
    | cons x p =>
      obtain rfl : '(' = x := by simpa using congrArg List.head? heq
      exact absurd (hname '(' (by simp)) (by decide)
  rcases hps with ⟨rfl, hp⟩ | ⟨rfl, hne, hp⟩ <;> rcases hps' with ⟨rfl, hp'⟩ | ⟨rfl, hne', hp'⟩
  · have hclose {p : Text} (hp : ∀ c ∈ p, c ∉ ['(', ')', '\n']) : ')' ∉ p := fun hc => hp ')' hc (by simp)
    have hsplit : p ++ ')' :: (g ++ '=' :: v) = p' ++ ')' :: (g' ++ '=' :: v') := by simpa using heq
    obtain ⟨rfl, hbehind⟩ := first_unique hsplit (hclose hp) (hclose hp')
    exact ⟨rfl, rfl, hrest hg hg' hbehind⟩
  · exact absurd (by simpa using heq) (hparen hg' hp')
  · exact absurd (by simpa using heq.symm) (hparen hg hp)
  · obtain ⟨rfl, hbehind⟩ := span_unique heq hp hp' (not_isName_head hg) (not_isName_head hg')
    exact ⟨rfl, rfl, hrest hg hg' hbehind⟩

/-- A name `async` in front of an arrow is the parameter. -/
theorem ne_async (hps : Lists p ps) (hps' : Lists p' ps') (hne : g ≠ []) (hg : AllIndent g) (hg' : AllIndent g') :
    ("async" : Text) ++ (g ++ (ps ++ v)) ≠ ps' ++ (g' ++ '=' :: v') := by
  intro heq
  obtain ⟨x, g₀, rfl⟩ := List.exists_cons_of_ne_nil hne
  rcases hps' with ⟨rfl, -⟩ | ⟨rfl, -, hname⟩
  · simp at heq
  · have hasync : ∀ c ∈ ("async" : Text), isName c := by simp; decide
    have hx : ∀ c ∈ (x :: g₀ ++ (ps ++ v)).head?, ¬ isName c := by
      simpa using not_isName_of_isBlank (isBlank_of_isIndent (hg.isIndent x (by simp)))
    have hbehind := (span_unique heq hasync hname hx (not_isName_head hg')).2
    have hrest := (hg.unique hg' hbehind (not_isIndent_lists hps) (by simpa using by decide)).2
    obtain ⟨c, t, rfl, hc⟩ := exists_lists hps
    obtain rfl : c = '=' := (List.cons.inj hrest).1
    rcases hc with hc | hc
    · simp at hc
    · exact absurd hc (by decide)

theorem parameters_unique (has : Marks "async" b as) (has' : Marks "async" b' as') (hps : Lists p ps)
    (hps' : Lists p' ps') (hg : AllIndent g) (hg' : AllIndent g')
    (heq : as ++ (ps ++ (g ++ '=' :: v)) = as' ++ (ps' ++ (g' ++ '=' :: v'))) :
    b = b' ∧ as = as' ∧ p = p' ∧ ps = ps' ∧ g = g' ∧ v = v' := by
  rcases has with ⟨rfl, s, rfl, hs, hsi⟩ | ⟨rfl, rfl⟩ <;> rcases has' with ⟨rfl, s', rfl, hs', hsi'⟩ | ⟨rfl, rfl⟩
  · rw [List.append_assoc, List.append_assoc, List.append_cancel_left_eq] at heq
    obtain ⟨rfl, hbehind⟩ := hsi.unique hsi' heq (not_isIndent_lists hps) (not_isIndent_lists hps')
    exact ⟨rfl, rfl, lists_unique hps hps' hg hg' hbehind⟩
  · exact absurd (by simpa using heq) (ne_async hps hps' hs hsi hg')
  · exact absurd (by simpa using heq.symm) (ne_async hps' hps hs' hsi' hg)
  · exact ⟨rfl, rfl, lists_unique hps hps' hg hg' heq⟩

/-- Two readings of a line as a binding agree but for the blanks in front of the body. -/
theorem binds_unique (hu : Binds h u) (hu' : Binds h' u') (heq : u ++ r = u' ++ r') :
    h = h' ∧ ∃ v g g', u = v ++ g ∧ u' = v ++ g' ∧ AllIndent g ∧ AllIndent g' := by
  obtain ⟨ex, kw, g₁, g₂, g₃, as, ps, g₄, g₅, rfl, hm, hex, hkw, hne₁, hg₁, hne, hname, hg₂, hg₃, has, hps, hg₄,
    hg₅⟩ := hu
  obtain ⟨ex', kw', g₁', g₂', g₃', as', ps', g₄', g₅', rfl, hm', hex', hkw', hne₁', hg₁', hne', hname', hg₂', hg₃',
    has', hps', hg₄', hg₅'⟩ := hu'
  obtain ⟨margin, isExported, isAsync, name, params⟩ := h
  obtain ⟨margin', isExported', isAsync', name', params'⟩ := h'
  obtain ⟨hkwne, hword⟩ := bindingWord_spec hkw
  obtain ⟨hkwne', hword'⟩ := bindingWord_spec hkw'
  have hmodifier {b : Bool} {ex kw w : Text} (hex : Marks "export" b ex) (hne : kw ≠ []) (hword : ∀ c ∈ kw, c.isAlphanum) :
      ∀ c ∈ (ex ++ (kw ++ w)).head?, ¬ isIndent c := by
    rcases hex with ⟨-, g, rfl, -⟩ | ⟨-, rfl⟩
    · simp [isIndent]
    · rw [List.nil_append]
      exact not_isIndent_head hne hword
  have hnameHead {name w : Text} (hne : name ≠ []) (hname : ∀ c ∈ name, isName c) :
      ∀ c ∈ (name ++ w).head?, ¬ isIndent c := ((solid_of_isName hne hname).append w).not_isIndent
  have hequals {w : Text} : ∀ c ∈ ('=' :: w).head?, ¬ isIndent c := by simpa using by decide
  have hvalue {b : Bool} {as ps p w : Text} (has : Marks "async" b as) (hps : Lists p ps) :
      ∀ c ∈ (as ++ (ps ++ w)).head?, ¬ isIndent c := by
    rcases has with ⟨-, g, rfl, -⟩ | ⟨-, rfl⟩
    · simp [isIndent]
    · rw [List.nil_append]
      exact not_isIndent_lists hps
  -- part by part, each up to where the next one starts
  have h₀ : margin ++ (ex ++ (kw ++ (g₁ ++ (name ++ (g₂ ++ '=' :: (g₃ ++ (as ++ (ps ++ (g₄ ++ '=' :: ('>' :: (g₅ ++ r)))))))))))
      = margin' ++ (ex' ++ (kw' ++ (g₁' ++ (name' ++ (g₂' ++ '=' :: (g₃' ++ (as' ++ (ps' ++ (g₄' ++ '=' ::
        ('>' :: (g₅' ++ r'))))))))))) := by simpa using heq
  obtain ⟨rfl, h₁⟩ := hm.unique hm' h₀ (hmodifier hex hkwne hword) (hmodifier hex' hkwne' hword')
  obtain ⟨rfl, rfl, rfl, h₂⟩ := modifier_unique hex hex' hkw hkw' h₁
  obtain ⟨rfl, h₃⟩ := hg₁.unique hg₁' h₂ (hnameHead hne hname) (hnameHead hne' hname')
  obtain ⟨rfl, h₄⟩ := span_unique h₃ hname hname' (not_isName_head hg₂) (not_isName_head hg₂')
  obtain ⟨rfl, h₅⟩ := hg₂.unique hg₂' h₄ hequals hequals
  obtain ⟨rfl, h₆⟩ := hg₃.unique hg₃' (List.cons.inj h₅).2 (hvalue has hps) (hvalue has' hps')
  obtain ⟨rfl, rfl, rfl, rfl, rfl, -⟩ := parameters_unique has has' hps hps' hg₄ hg₄' h₆
  refine ⟨rfl, margin ++ (ex ++ (kw ++ (g₁ ++ (name ++ (g₂ ++ ("=" ++ (g₃ ++ (as ++ (ps ++ (g₄ ++ "=>")))))))))), g₅,
    g₅', ?_, ?_, hg₅, hg₅'⟩ <;> simp

theorem binds_block_unique (hu : Binds h u) (hu' : Binds h' u') (heq : u ++ '\x7b' :: r = u' ++ '\x7b' :: r') :
    h = h' ∧ u = u' := by
  obtain ⟨rfl, v, g, g', rfl, rfl, hg, hg'⟩ := binds_unique hu hu' heq
  rw [List.append_assoc, List.append_assoc, List.append_cancel_left_eq] at heq
  have hbrace {w : Text} : ∀ c ∈ ('\x7b' :: w).head?, ¬ isIndent c := by simpa using by decide
  rw [(hg.unique hg' heq hbrace hbrace).1]
  exact ⟨rfl, rfl⟩

theorem readsFirst_blockBinding (hpre : pre.AtLineStart) (hu : Binds h u) :
    blockBinding.ReadsFirst pre (u ++ ['\x7b']) post h := by
  refine .of_unique (reads_blockBinding.2 ⟨u, rfl, hpre, hu⟩) fun w' post' h' heq hr => ?_
  obtain ⟨u', rfl, -, hu'⟩ := reads_blockBinding.1 hr
  obtain ⟨rfl, rfl⟩ := binds_block_unique hu hu' (by simpa using heq)
  exact ⟨rfl, rfl⟩

theorem mem_ends {isTerminated : Bool} {cr t : Text} (ht : Ends isTerminated cr t) (hc : c ∈ t) :
    isIndent c ∨ c = ';' ∨ c = '\r' := by
  obtain ⟨g, semi, rfl, hg, hsemi, hcr⟩ := ht
  simp only [List.mem_append] at hc
  rcases hc with hc | hc | hc
  · exact .inl (hg.isIndent c hc)
  · rcases hsemi with ⟨-, g', rfl, hg'⟩ | ⟨-, rfl⟩
    · rcases List.mem_append.1 hc with hc | hc
      · exact .inr (.inl (by simpa using hc))
      · exact .inl (hg'.isIndent c hc)
    · simp at hc
  · rcases hcr with rfl | rfl
    · exact .inr (.inr (by simpa using hc))
    · simp at hc

/-- A line with a block for the body of its function has no expression for it. -/
theorem fails_expressionBinding (hu : Binds h u) : expressionBinding.Fails pre (u ++ '\x7b' :: r) := by
  rw [fails_iff]
  rintro w post b heq hr
  obtain ⟨u', t, rfl, -, hu', -, hbody, ht, hpost⟩ := reads_expressionBinding.1 hr
  obtain ⟨-, v, g, g', rfl, rfl, hg, hg'⟩ := binds_unique hu hu' (by simpa using heq)
  have hrest : (g' ++ (b.body ++ t)) ++ post = g ++ '\x7b' :: r := by simpa using heq.symm
  have hbrace : '\x7b' ∉ g' ++ (b.body ++ t) := by
    simp only [List.mem_append, not_or]
    exact ⟨fun hc => absurd (hg' _ hc) (by decide), fun hc => hbody _ hc (by simp),
      fun hc => absurd (mem_ends ht hc) (by decide)⟩
  obtain ⟨w, rfl, rfl⟩ := prefix_of_notMem hrest hbrace
  cases w with
  | nil => exact absurd (hpost _ rfl) (by decide)
  | cons c w =>
    obtain rfl := hpost c rfl
    exact absurd (hg '\n' (by simp)) (by decide)

/-! ### Lines in two texts -/

variable {l : SameLine}

theorem moves_indent : Moves l Eq indent indent := moves_many (by decide)

theorem moves_indent1 : Moves l Eq indent1 indent1 := moves_many1 (by decide)

theorem moves_name : Moves l Eq Source.name Source.name := (moves_many1 (by decide)).text

theorem moves_head : Moves l Eq head head := by
  refine moves_lineStart.bind fun _ _ _ => moves_indent.text.bind ?_
  rintro margin _ rfl
  refine ((moves_word (by simp)).bind fun _ _ _ => moves_indent1).maybe.bind ?_
  rintro exported _ rfl
  refine (moves_oneOf (by simp)).bind fun _ _ _ => moves_indent1.bind fun _ _ _ => moves_name.bind ?_
  rintro bound _ rfl
  refine moves_indent.bind fun _ _ _ => (moves_word (by simp)).bind fun _ _ _ => moves_indent.bind fun _ _ _ =>
    ((moves_word (by simp)).bind fun _ _ _ => moves_indent1).maybe.bind ?_
  rintro async _ rfl
  refine (((moves_word (by simp)).bind fun _ _ _ => (moves_many (by decide)).text.bind ?_).or moves_name).bind ?_
  · rintro params _ rfl
    exact (moves_word (by simp)).bind fun _ _ _ => .pure rfl
  · rintro params _ rfl
    exact moves_indent.bind fun _ _ _ => (moves_word (by simp)).bind fun _ _ _ => moves_indent.bind fun _ _ _ => .pure rfl

theorem moves_expressionBinding : Moves l Eq expressionBinding expressionBinding := by
  refine moves_head.bind ?_
  rintro h _ rfl
  refine moves_here.bind fun start start' hstart => (moves_few1 (by decide)).bind fun _ _ _ => moves_here.bind
    fun stop stop' hstop => moves_indent.bind fun _ _ _ =>
      ((moves_word (by simp)).bind fun _ _ _ => moves_indent).maybe.bind ?_
  rintro semicolon _ rfl
  refine (moves_word (by simp)).maybe.text.bind ?_
  rintro cr _ rfl
  refine moves_lineEnd.bind fun _ _ _ => .pure ?_
  rw [hstart.upTo_eq hstop]

end AppsScript.Arrow
