import AppsScript.Proofs.DeclaredArrows
import AppsScript.Proofs.LineEdits
import AppsScript.Proofs.ReaderStates

/-!
# Lines with declared arrow functions

Both passes of `declare` go line by line. The first of them leaves a reader of code in the state behind a line
in which it was before (`after_of_changes`), because all that comes and goes are words, blanks, parentheses
that no comment or literal ends with, and an arrow. So the second pass, which reads the outcome of the first, has
the same lines at the top level, and only lines that begin at the top level of the code change (`Declared`).
-/

namespace AppsScript.Arrow

open Source Scan Text State

variable {pre w line post out t u v w' v' r : Text} {c : Char} {h h' : Head} {b : ExpressionBinding}
  {starts : List Nat} {code : Text} {i d : Nat}

/-! ### Bindings within a line -/

theorem newline_notMem_indent {g : Text} (hg : AllIndent g) : '\n' ∉ g :=
  fun hc => absurd (hg _ hc) (by decide)

theorem newline_notMem_marks {kw : Text} {isPresent : Bool} (hkw : '\n' ∉ kw) (ht : Marks kw isPresent t) :
    '\n' ∉ t := by
  rcases ht with ⟨-, g, rfl, -, hg⟩ | ⟨-, rfl⟩
  · rw [List.mem_append, not_or]
    exact ⟨hkw, newline_notMem_indent hg⟩
  · simp

theorem newline_notMem_binds (hu : Binds h u) : '\n' ∉ u := by
  have hparams := (notMem_params hu).2.2
  obtain ⟨ex, kw, g₁, g₂, g₃, as, ps, g₄, g₅, rfl, hm, hex, hkw, -, hg₁, -, hname, hg₂, hg₃, has, hps, hg₄, hg₅⟩ := hu
  have hword : '\n' ∉ kw := by
    simp only [bindingWords, List.mem_cons, List.not_mem_nil, or_false] at hkw
    rcases hkw with rfl | rfl | rfl <;> simp
  have hname' : '\n' ∉ h.name := fun hc => absurd (hname _ hc) (by decide)
  have hps' : '\n' ∉ ps := by
    rcases hps with ⟨rfl, -⟩ | ⟨rfl, -, -⟩
    · simpa using hparams
    · exact hparams
  have hex' := newline_notMem_marks (by simp) hex
  have has' := newline_notMem_marks (by simp) has
  simp [newline_notMem_indent hm, newline_notMem_indent hg₁, newline_notMem_indent hg₂, newline_notMem_indent hg₃,
    newline_notMem_indent hg₄, newline_notMem_indent hg₅, hword, hname', hps', hex', has']

theorem newline_notMem_ends {isTerminated : Bool} {cr : Text} (ht : Ends isTerminated cr t) :
    '\n' ∉ t ∧ '\n' ∉ cr := by
  obtain ⟨g, semi, rfl, hg, hsemi, hcr⟩ := ht
  have hcr' : '\n' ∉ cr := by rcases hcr with rfl | rfl <;> simp
  have hsemi' : '\n' ∉ semi := by
    rcases hsemi with ⟨-, g', rfl, hg'⟩ | ⟨-, rfl⟩
    · simpa using newline_notMem_indent hg'
    · simp
  exact ⟨by simp [newline_notMem_indent hg, hsemi', hcr'], hcr'⟩

theorem newline_notMem_head (hu : Binds h u) : '\n' ∉ h.declaration := by
  rw [h.declaration_eq]
  simp [notMem_front hu (c := '\n') (by decide) (by decide), (notMem_params hu).2.2]

theorem newline_notMem_declaration (hu : Binds b.head u) (hbody : '\n' ∉ b.body)
    (ht : Ends b.isTerminated b.carriageReturn t) : '\n' ∉ b.declaration := by
  have htrim : '\n' ∉ trim b.body := fun hc => by
    obtain ⟨g, g', hg, -, -⟩ := exists_trim b.body
    exact hbody (by rw [hg]; simp [hc])
  simp [b.declaration_eq, newline_notMem_head hu, htrim, (newline_notMem_ends ht).2]

theorem linewise_blockEdit (starts : List Nat) : (blockEdit starts).Linewise := by
  have hreads {pre w post : Text} {e : Option Text} (h : (blockEdit starts).Reads pre w post e) :
      pre.AtLineStart ∧ '\n' ∉ w ∧ w ≠ [] ∧ ∀ r, e = some r → '\n' ∉ r := by
    obtain ⟨head, hb, rfl⟩ := reads_blockEdit.1 h
    obtain ⟨u, rfl, hpre, hu⟩ := reads_blockBinding.1 hb
    refine ⟨hpre, by simp [newline_notMem_binds hu], by simp, fun r hr => ?_⟩
    split_ifs at hr
    obtain rfl := Option.some.inj hr
    simp [newline_notMem_head hu]
  exact ⟨fun h => (hreads h).1, fun h => (hreads h).2.1, fun h => (hreads h).2.2.1,
    fun h => (hreads h).2.2.2 _ rfl⟩

theorem linewise_expressionEdit (starts : List Nat) : (expressionEdit starts).Linewise := by
  have hreads {pre w post : Text} {e : Option Text} (h : (expressionEdit starts).Reads pre w post e) :
      pre.AtLineStart ∧ '\n' ∉ w ∧ w ≠ [] ∧ ∀ r, e = some r → '\n' ∉ r := by
    obtain ⟨b, hb, rfl⟩ := reads_expressionEdit.1 h
    obtain ⟨u, t, rfl, hpre, hu, hne, hbody, ht, -⟩ := reads_expressionBinding.1 hb
    have hbody' : '\n' ∉ b.body := fun hc => hbody _ hc (by simp)
    refine ⟨hpre, ?_, by simp [hne], fun r hr => ?_⟩
    · simp [newline_notMem_binds hu, hbody', (newline_notMem_ends ht).1]
    · split_ifs at hr
      obtain rfl := Option.some.inj hr
      exact newline_notMem_declaration hu hbody' ht
  exact ⟨fun h => (hreads h).1, fun h => (hreads h).2.1, fun h => (hreads h).2.2.1,
    fun h => (hreads h).2.2.2 _ rfl⟩

/-! ### States of a reader behind a binding and behind its declaration -/

theorem isSilent_of_isAlphanum (hc : c.isAlphanum) : isSilent c := isSilent_of_isName (isName_of_isAlphanum hc)

theorem isSilent_of_marks {kw : Text} {isPresent : Bool} (hkw : ∀ c ∈ kw, c.isAlphanum) (ht : Marks kw isPresent t) :
    ∀ c ∈ t, isSilent c := by
  rcases ht with ⟨-, g, rfl, -, hg⟩ | ⟨-, rfl⟩
  · intro c hc
    rcases List.mem_append.1 hc with hc | hc
    · exact isSilent_of_isAlphanum (hkw c hc)
    · exact isSilent_of_isIndent (hg.isIndent c hc)
  · simp

/-- All of a binding in front of the parameters is code in which nothing is counted. -/
theorem exists_silent (hu : Binds h u) : ∃ f ps g, u = f ++ (ps ++ g) ∧ (∀ c ∈ f, isSilent c) ∧
    Lists h.params ps ∧ ∀ c ∈ g, isFiller c := by
  obtain ⟨ex, kw, g₁, g₂, g₃, as, ps, g₄, g₅, rfl, hm, hex, hkw, -, hg₁, -, hname, hg₂, hg₃, has, hps, hg₄, hg₅⟩ := hu
  have hword : ∀ c ∈ kw, c.isAlphanum := by
    simp only [bindingWords, List.mem_cons, List.not_mem_nil, or_false] at hkw
    rcases hkw with rfl | rfl | rfl <;> simp
  have hindent {g : Text} (hg : AllIndent g) : ∀ c ∈ g, isSilent c := fun c hc => isSilent_of_isIndent (hg.isIndent c hc)
  have hname' : ∀ c ∈ h.name, isSilent c := fun c hc => isSilent_of_isName (hname c hc)
  have hex' := isSilent_of_marks (by simp) hex
  have has' := isSilent_of_marks (by simp) has
  refine ⟨h.margin ++ (ex ++ (kw ++ (g₁ ++ (h.name ++ (g₂ ++ (("=" : Text) ++ (g₃ ++ as))))))), ps,
    g₄ ++ (("=>" : Text) ++ g₅), by simp, ?_, hps, ?_⟩
  · intro c hc
    simp only [List.mem_append] at hc
    rcases hc with hc | hc | hc | hc | hc | hc | hc | hc | hc
    · exact hindent hm c hc
    · exact hex' c hc
    · exact isSilent_of_isAlphanum (hword c hc)
    · exact hindent hg₁ c hc
    · exact hname' c hc
    · exact hindent hg₂ c hc
    · obtain rfl : c = '=' := by simpa using hc
      decide
    · exact hindent hg₃ c hc
    · exact has' c hc
  · intro c hc
    simp only [List.mem_append] at hc
    rcases hc with hc | hc | hc
    · simp [isFiller, hg₄.isIndent c hc]
    · simp only [String.reduceToList, List.mem_cons, List.not_mem_nil, or_false] at hc
      rcases hc with rfl | rfl <;> decide
    · simp [isFiller, hg₅.isIndent c hc]

/-- Behind a binding the reader is where the parameters and a parenthesis take it. -/
theorem after_binds (hu : Binds h u) :
    (⟨.code, d⟩ : State).after u = (⟨.code, d⟩ : State).after (h.params ++ [')']) := by
  obtain ⟨f, ps, g, rfl, hf, hps, hg⟩ := exists_silent hu
  rw [after_append, after_append, after_of_isSilent hf]
  rcases hps with ⟨rfl, -⟩ | ⟨rfl, -, hname⟩
  · have hopen : (⟨.code, d⟩ : State).after (("(" : Text) ++ (h.params ++ (")" : Text))) =
        (⟨.code, d⟩ : State).after (h.params ++ [')']) := rfl
    rw [hopen]
    refine after_of_isFiller ?_ (isSound_after trivial) hg
    rw [after_append]
    exact isSettled_step_close _
  · have hcode : (⟨.code, d⟩ : State).after h.params = ⟨.code, d⟩ :=
      after_of_isSilent fun c hc => isSilent_of_isName (hname c hc)
    rw [hcode, after_append, hcode, after_of_isFiller (s := ⟨.code, d⟩) trivial trivial hg]
    rfl

theorem after_declaration (hu : Binds h u) :
    (⟨.code, d⟩ : State).after h.declaration = (⟨.code, d⟩ : State).after (h.params ++ [')']) := by
  have hfront : ∀ c ∈ h.front, isSilent c := fun c hc =>
    (mem_front hu c hc).elim isSilent_of_isIndent isSilent_of_isName
  rw [h.declaration_eq, after_append, after_of_isSilent hfront, after_cons]
  rfl

theorem changes_blockEdit (h : (blockEdit starts).Changes pre w post r) : ∃ head u, w = u ++ ['\x7b'] ∧
    r = head.declaration ++ [' ', '\x7b'] ∧ pre.AtLineStart ∧ Binds head u ∧ pre.length ∈ starts := by
  obtain ⟨head, hr, he⟩ := reads_blockEdit.1 h.reads
  obtain ⟨u, rfl, hpre, hu⟩ := reads_blockBinding.1 hr
  split_ifs at he with hstart
  obtain rfl := Option.some.inj he
  rw [Bool.and_eq_true, List.contains_iff_mem] at hstart
  exact ⟨head, u, rfl, rfl, hpre, hu, hstart.1⟩

/-- A declaration takes the reader where the binding took it. -/
theorem after_of_changes (ht : code = pre ++ (w ++ post))
    (h : (blockEdit (topLevelStarts code)).Changes pre w post r) :
    (start.after pre).after r = (start.after pre).after w := by
  obtain ⟨head, u, rfl, rfl, hpre, hu, hstart⟩ := changes_blockEdit h
  rw [ht, mem_topLevelStarts hpre] at hstart
  have hsound : ((⟨.code, 0⟩ : State).after (head.params ++ [')'])).spot.IsSound := isSound_after trivial
  have hsettled : ((⟨.code, 0⟩ : State).after (head.params ++ [')'])).spot.IsSettled := by
    rw [after_append]
    exact isSettled_step_close _
  rw [hstart, after_append, after_append, start, after_binds hu, after_declaration hu, after_cons,
    step_of_isFiller hsettled hsound (by decide)]

/-! ### Declared lines -/

/-- `out` is `line` with the function that it binds declared: up to the body only the words change and the blanks
between them, and a body is kept, that of a block with all that follows. -/
inductive Declared : (line out : Text) → Prop
  | block {h : Head} {u rest : Text} (hu : Binds h u) :
    Declared (u ++ '\x7b' :: rest) (h.front ++ '(' :: (h.params ++ (") \x7b" ++ rest)))
  | expression {h : Head} {u body t cr : Text} {isTerminated : Bool} (hu : Binds h u)
    (hbody : ∀ c ∈ body, c ∉ [';', '\x7b', '\x7d', '\n']) (ht : Ends isTerminated cr t) :
    Declared (u ++ (body ++ t))
      (h.front ++ '(' :: (h.params ++ (") \x7b return " ++ (trim body ++ ("; \x7d" ++ cr)))))

theorem changes_expressionEdit (h : (expressionEdit starts).Changes pre w post r) :
    ∃ (b : ExpressionBinding) (u t : Text), w = u ++ (b.body ++ t) ∧ r = b.declaration ∧ pre.AtLineStart ∧
      Binds b.head u ∧ (∀ c ∈ b.body, c ∉ [';', '\x7b', '\x7d', '\n']) ∧
      Ends b.isTerminated b.carriageReturn t ∧ post.AtLineEnd ∧ pre.length ∈ starts := by
  obtain ⟨b, hr, he⟩ := reads_expressionEdit.1 h.reads
  obtain ⟨u, t, rfl, hpre, hu, -, hbody, ht, hpost⟩ := reads_expressionBinding.1 hr
  split_ifs at he with hstart
  obtain rfl := Option.some.inj he
  rw [Bool.and_eq_true, List.contains_iff_mem] at hstart
  exact ⟨b, u, t, rfl, rfl, hpre, hu, hbody, ht, hpost, hstart.1⟩

/-! ### Declarations are no bindings -/

theorem not_isIndent_head {kw : Text} (hne : kw ≠ []) (hkw : ∀ c ∈ kw, c.isAlphanum) :
    ∀ c ∈ (kw ++ v).head?, ¬ isIndent c :=
  ((solid_of_isName hne fun c hc => isName_of_isAlphanum (hkw c hc)).append v).not_isIndent

theorem bindingWord_spec {kw : Text} (hkw : kw ∈ bindingWords) : kw ≠ [] ∧ ∀ c ∈ kw, c.isAlphanum := by
  simp only [bindingWords, List.mem_cons, List.not_mem_nil, or_false] at hkw
  rcases hkw with rfl | rfl | rfl <;> simp

/-- A declaration is, but for the blanks in front of it, some words of which none binds a name. -/
theorem exists_words (h : Head) : ∃ ex kw w, h.front = h.margin ++ (ex ++ (kw ++ w)) ∧
    (ex = "export " ∨ ex = []) ∧ (kw = "async" ∨ kw = "function") := by
  rw [Head.front_eq]
  refine ⟨if h.isExported then "export " else [], if h.isAsync then "async" else "function",
    if h.isAsync then " function " ++ h.name else " " ++ h.name, ?_, ?_, ?_⟩
  · cases h.isAsync <;> rfl
  · cases h.isExported <;> simp
  · cases h.isAsync <;> simp

theorem declarationWord_spec {kw : Text} (hkw : kw = "async" ∨ kw = "function") :
    kw ≠ [] ∧ ∀ c ∈ kw, c.isAlphanum := by
  rcases hkw with rfl | rfl <;> simp

theorem bindingWord_ne {kw kw' : Text} (hkw : kw ∈ bindingWords) (hkw' : kw' = "async" ∨ kw' = "function") :
    kw ++ v ≠ kw' ++ w := by
  simp only [bindingWords, List.mem_cons, List.not_mem_nil, or_false] at hkw
  rcases hkw with rfl | rfl | rfl <;> rcases hkw' with rfl | rfl <;> simp

theorem exists_bindingWord (hu : Binds h u) : ∃ ex kw v, u = h.margin ++ (ex ++ (kw ++ v)) ∧ AllIndent h.margin ∧
    Marks "export" h.isExported ex ∧ kw ∈ bindingWords := by
  obtain ⟨ex, kw, g₁, g₂, g₃, as, ps, g₄, g₅, rfl, hm, hex, hkw, -⟩ := hu
  exact ⟨ex, kw, _, rfl, hm, hex, hkw⟩

/-- No line both binds a function and starts with a declaration. -/
theorem ne_declaration_append (hu : Binds h u) (hu' : Binds h' v) : u ++ w ≠ h'.declaration ++ w' := by
  intro heq
  obtain ⟨ex, kw, x, rfl, hm, hex, hkw⟩ := exists_bindingWord hu
  obtain ⟨ex', kw', f, hf, hex', hkw'⟩ := exists_words h'
  obtain ⟨-, -, -, -, hm', -⟩ := exists_bindingWord hu'
  obtain ⟨hne, hword⟩ := bindingWord_spec hkw
  obtain ⟨hne', hword'⟩ := declarationWord_spec hkw'
  obtain ⟨y, hy⟩ : ∃ y, h'.declaration ++ w' = h'.margin ++ (ex' ++ (kw' ++ y)) :=
    ⟨f ++ ('(' :: (h'.params ++ [')']) ++ w'), by simp [h'.declaration_eq, hf]⟩
  have hmargins : h.margin ++ (ex ++ (kw ++ (x ++ w))) = h'.margin ++ (ex' ++ (kw' ++ y)) := by
    rw [← hy, ← heq]
    simp
  have hexport {v : Text} : ∀ c ∈ (("export" : Text) ++ v).head?, ¬ isIndent c := by simp [isIndent]
  have hexport' {v : Text} : ∀ c ∈ (("export " : Text) ++ v).head?, ¬ isIndent c := by simp [isIndent]
  rcases hex with ⟨-, g, rfl, -, hg⟩ | ⟨-, rfl⟩
  · rw [List.append_assoc] at hmargins
    rcases hex' with rfl | rfl
    · -- behind `export` the words differ
      have hspan := (hm.unique hm' hmargins hexport hexport').2
      have hrest : g ++ (kw ++ (x ++ w)) = [' '] ++ (kw' ++ y) := by simpa using hspan
      exact bindingWord_ne hkw hkw' (hg.unique allIndent_space hrest (not_isIndent_head hne hword)
        (not_isIndent_head hne' hword')).2
    · rw [List.nil_append] at hmargins
      have hspan := (hm.unique hm' hmargins hexport (not_isIndent_head hne' hword')).2
      rcases hkw' with rfl | rfl <;> simp at hspan
  · rw [List.nil_append] at hmargins
    rcases hex' with rfl | rfl
    · have hspan := (hm.unique hm' hmargins (not_isIndent_head hne hword) hexport').2
      simp only [bindingWords, List.mem_cons, List.not_mem_nil, or_false] at hkw
      rcases hkw with rfl | rfl | rfl <;> simp at hspan
    · rw [List.nil_append] at hmargins
      exact bindingWord_ne hkw hkw' (hm.unique hm' hmargins (not_isIndent_head hne hword)
        (not_isIndent_head hne' hword')).2

/-! ### The passes line by line -/

/-- The line becomes one of the first pass, with a reader of code in the same state in front of it. -/
theorem exists_line_declareBlocks (h : LineAt code i pre line post) : ∃ q out post',
    LineAt (declareBlocks code) i q out post' ∧ start.after q = start.after pre ∧
      (out = line ∨ ∃ h u rest, Binds h u ∧ line = u ++ '\x7b' :: rest ∧
        out = h.declaration ++ (" \x7b" ++ rest) ∧ pre.length ∈ topLevelStarts code) := by
  have hm := linewise_blockEdit (topLevelStarts code)
  obtain ⟨out, hout⟩ : ∃ out, Scan.OnLine _ pre line post out := hm.exists_onLine h.stop
  obtain ⟨q, hq, hstate⟩ := hm.lineAt_edit (f := State.step) (a := start) after_of_changes h hout
  refine ⟨q, out, _, hq, hstate, ?_⟩
  rcases hout.eq_or_changes with rfl | ⟨w, rest, r, rfl, hr, rfl⟩
  · exact .inl rfl
  · obtain ⟨head, u, rfl, rfl, -, hu, hstart⟩ := changes_blockEdit hr
    exact .inr ⟨head, u, rest, hu, by simp, by simp, hstart⟩

theorem exists_line_declareExpressions (h : LineAt code i pre line post) : ∃ out,
    (lines (declareExpressions code))[i]? = some out ∧
      (out = line ∨ ∃ (b : ExpressionBinding) (u t : Text), Binds b.head u ∧
        (∀ c ∈ b.body, c ∉ [';', '\x7b', '\x7d', '\n']) ∧ Ends b.isTerminated b.carriageReturn t ∧
        line = u ++ (b.body ++ t) ∧ out = b.declaration ∧ pre.length ∈ topLevelStarts code) := by
  have hm := linewise_expressionEdit (topLevelStarts code)
  obtain ⟨out, hout⟩ : ∃ out, Scan.OnLine _ pre line post out := hm.exists_onLine h.stop
  obtain ⟨q, hq, -⟩ := hm.lineAt_edit (f := fun n _ => n) (a := 0) (by simp) h hout
  refine ⟨out, getElem?_lines hq, ?_⟩
  rcases hout.eq_or_changes with rfl | ⟨w, rest, r, rfl, hr, rfl⟩
  · exact .inl rfl
  · obtain ⟨b, u, t, rfl, rfl, -, hu, hbody, ht, hend, hstart⟩ := changes_expressionEdit hr
    have hrest : rest = [] := by
      cases rest with
      | nil => rfl
      | cons c rest =>
        obtain rfl := hend c rfl
        exact absurd (by simp) h.notMem
    exact .inr ⟨b, u, t, hu, hbody, ht, by simp [hrest], by simp [hrest], hstart⟩

theorem exists_line_declare (h : LineAt code i pre line post) : ∃ out, (lines (declare code))[i]? = some out ∧
    (out = line ∨ pre.length ∈ topLevelStarts code ∧ Declared line out) := by
  obtain ⟨q, mid, post', hq, hstate, hmid⟩ := exists_line_declareBlocks h
  obtain ⟨out, hout, hlast⟩ := exists_line_declareExpressions hq
  refine ⟨out, hout, ?_⟩
  rcases hmid with rfl | ⟨head, u, rest, hu, rfl, rfl, hstart⟩
  · refine hlast.imp_right ?_
    rintro ⟨b, u, t, hu, hbody, ht, rfl, rfl, hstart⟩
    refine ⟨?_, ?_⟩
    · rw [hq.eq, mem_topLevelStarts hq.start, hstate] at hstart
      rw [h.eq, mem_topLevelStarts h.start, hstart]
    · have hdecl : Declared (u ++ (b.body ++ t)) _ := .expression hu hbody ht
      simpa [b.declaration_eq, b.head.declaration_eq] using hdecl
  · rcases hlast with rfl | ⟨b, u', t, hu', -, -, heq, -⟩
    · refine .inr ⟨hstart, ?_⟩
      have hdecl : Declared (u ++ '\x7b' :: rest) _ := .block hu
      simpa [head.declaration_eq] using hdecl
    · exact absurd heq.symm (ne_declaration_append hu' hu)

theorem length_lines_declare (code : Text) : (lines (declare code)).length = (lines code).length := by
  rw [declare, declareExpressions, (linewise_expressionEdit _).length_lines_edit, declareBlocks,
    (linewise_blockEdit _).length_lines_edit]

/-- The lines of the outcome are those of the code, except that lines at the top level may be declared. -/
theorem lines_declare (code : Text) : (lines (declare code)).length = (lines code).length ∧
    ∀ i line, (lines code)[i]? = some line → ∃ pre post out, LineAt code i pre line post ∧
      (lines (declare code))[i]? = some out ∧ (out = line ∨ pre.length ∈ topLevelStarts code ∧ Declared line out) ∧
      (start.after pre ≠ start → out = line) := by
  refine ⟨length_lines_declare code, fun i line hi => ?_⟩
  obtain ⟨pre, post, h⟩ := exists_lineAt hi
  obtain ⟨out, hout, hcases⟩ := exists_line_declare h
  refine ⟨pre, post, out, h, hout, hcases, fun hstart => hcases.resolve_right ?_⟩
  rintro ⟨hmem, -⟩
  rw [h.eq, mem_topLevelStarts h.start] at hmem
  exact hstart hmem

/-- The second line of a block. -/
theorem lines_declare_block : ∃ pre post out : Text,
    LineAt "\x7b\n  let f = x => x\n\x7d" 1 pre "  let f = x => x" post ∧
    (lines (declare "\x7b\n  let f = x => x\n\x7d"))[1]? = some out ∧
    (out = "  let f = x => x" ∨
      pre.length ∈ topLevelStarts "\x7b\n  let f = x => x\n\x7d" ∧ Declared "  let f = x => x" out) ∧
    (start.after pre ≠ start → out = "  let f = x => x") :=
  (lines_declare "\x7b\n  let f = x => x\n\x7d").2 1 "  let f = x => x" (by decide)

end AppsScript.Arrow
