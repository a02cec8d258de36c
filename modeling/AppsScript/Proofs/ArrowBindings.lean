import AppsScript.Proofs.Editing
import AppsScript.Proofs.Texts
import AppsScript.Script.Arrow

/-!
# The grammar of arrow bindings

What the two forms of `Arrow` read: a line up to the body (`Binds`, `reads_head`), and behind it the brace
of a block or an expression up to the end of the line (`reads_blockBinding`, `reads_expressionBinding`).
`Declares` says what the edits put in place of it, whatever the guards of the two are.
-/

namespace AppsScript.Arrow

open Source Scan Text Cursor

variable {pre w post r t u v s body params name : Text} {c : Char} {h : Head} {starts : List Nat} {e : Option Text}

def bindingWords : List Text := ["const", "let", "var"]

/-- `t` is the word `kw` and then spaces or tabs, or it is empty and the word is absent. -/
def Marks (kw : Text) (isPresent : Bool) (t : Text) : Prop :=
  isPresent = true ∧ (∃ g, t = kw ++ g ∧ g ≠ [] ∧ AllIndent g) ∨ isPresent = false ∧ t = []

/-- Parameters as they are written, a list in parentheses or a single name. -/
def Lists (params t : Text) : Prop :=
  t = "(" ++ (params ++ ")") ∧ (∀ c ∈ params, c ∉ ['(', ')', '\n']) ∨
    t = params ∧ params ≠ [] ∧ ∀ c ∈ params, isName c

/-- A line from its start up to the body, which binds the function of `h`. -/
def Binds (h : Head) (w : Text) : Prop :=
  ∃ ex kw g₁ g₂ g₃ as ps g₄ g₅,
    w = h.margin ++ (ex ++ (kw ++ (g₁ ++ (h.name ++ (g₂ ++ ("=" ++ (g₃ ++ (as ++ (ps ++ (g₄ ++
      (("=>" : Text) ++ g₅))))))))))) ∧
    AllIndent h.margin ∧ Marks "export" h.isExported ex ∧ kw ∈ bindingWords ∧ g₁ ≠ [] ∧ AllIndent g₁ ∧
    h.name ≠ [] ∧ (∀ c ∈ h.name, isName c) ∧ AllIndent g₂ ∧ AllIndent g₃ ∧ Marks "async" h.isAsync as ∧
    Lists h.params ps ∧ AllIndent g₄ ∧ AllIndent g₅

/-- A function of a single name, bound with a blank behind every part. -/
theorem binds_spaced (kw : Text) {name param : Text}
    (hw : w = kw ++ (' ' :: (name ++ (' ' :: '=' :: ' ' :: (param ++ (" => " : Text)))))) (hkw : kw ∈ bindingWords)
    (hname : name ≠ [] ∧ ∀ c ∈ name, isName c) (hparam : param ≠ [] ∧ ∀ c ∈ param, isName c) :
    Binds ⟨[], false, false, name, param⟩ w := by
  refine ⟨[], kw, [' '], [' '], [' '], [], param, [' '], [' '], ?_, allIndent_nil, .inr ⟨rfl, rfl⟩, hkw, by simp,
    allIndent_space, hname.1, hname.2, allIndent_space, allIndent_space, .inr ⟨rfl, rfl⟩, .inr ⟨rfl, hparam⟩,
    allIndent_space, allIndent_space⟩
  simp [hw]

theorem reads_indent_bind {α : Type} {a : α} {g : Unit → Scan α} : (indent >>= g).Reads pre w post a ↔
    ∃ u v, w = u ++ v ∧ AllIndent u ∧ (g ()).Reads (pre ++ u) v post a := by
  rw [indent, reads_many_bind]
  simp only [allIndent_iff]

theorem reads_name : Source.name.Reads pre w post name ↔ name = w ∧ w ≠ [] ∧ ∀ c ∈ w, isName c := by
  simp only [Source.name, anyName, reads_text, reads_many1, exists_const]

theorem reads_maybe_word {kw : Text} {m : Scan Unit} {o : Option Unit} :
    (Scan.maybe do .word kw; m : Scan (Option Unit)).Reads pre w post o ↔
      o.isSome = true ∧ (∃ g, w = kw ++ g ∧ m.Reads (pre ++ kw) g post ()) ∨ o.isSome = false ∧ w = [] := by
  simp only [reads_maybe, reads_word_bind]
  constructor
  · rintro (⟨_, ⟨g, rfl, hg⟩, rfl⟩ | ⟨rfl, rfl⟩)
    · exact .inl ⟨rfl, g, rfl, hg⟩
    · exact .inr ⟨rfl, rfl⟩
  · rintro (⟨ho, g, rfl, hg⟩ | ⟨ho, rfl⟩)
    · obtain ⟨_, rfl⟩ := Option.isSome_iff_exists.1 ho
      exact .inl ⟨(), ⟨g, rfl, hg⟩, rfl⟩
    · exact .inr ⟨rfl, by simpa using ho⟩

theorem reads_mark {kw : Text} {o : Option Unit} :
    (Scan.maybe do .word kw; indent1 : Scan (Option Unit)).Reads pre w post o ↔ Marks kw o.isSome w := by
  simp only [reads_maybe_word, reads_indent1, Marks]

theorem reads_params {params : Text} :
    ((do Scan.word "("; let params ← (Scan.many (· ∉ ['(', ')', '\n'])).text; Scan.word ")"; pure params) <|>
      Source.name : Scan Text).Reads pre w post params ↔ Lists params w := by
  simp only [reads_or, reads_bind, reads_word, reads_text, reads_many, reads_pure, reads_name, Lists,
    decide_eq_true_eq]
  constructor
  · rintro (⟨_, _, _, rfl, rfl, u, _, _, rfl, ⟨rfl, _, hu⟩, _, _, _, rfl, rfl, rfl, rfl⟩ | ⟨rfl, hne, hw⟩)
    · exact .inl ⟨by simp, hu⟩
    · exact .inr ⟨rfl, hne, hw⟩
  · rintro (⟨rfl, hu⟩ | ⟨rfl, hne, hw⟩)
    · exact .inl ⟨"(", _, (), rfl, rfl, params, ")", params, rfl, ⟨rfl, (), hu⟩, ")", [], (), rfl, rfl, rfl,
        rfl⟩
    · exact .inr ⟨rfl, hne, hw⟩

theorem exists_isSome (b : Bool) : ∃ o : Option Unit, o.isSome = b := by
  cases b with
  | false => exact ⟨none, rfl⟩
  | true => exact ⟨some (), rfl⟩

theorem reads_head : head.Reads pre w post h ↔ pre.AtLineStart ∧ Binds h w := by
  constructor
  · intro hread
    obtain ⟨_, _, _, rfl, hstart, hread⟩ := reads_bind.1 hread
    obtain ⟨rfl, hpre⟩ := reads_lineStart.1 hstart
    obtain ⟨_, _, margin, rfl, hmargin, hread⟩ := reads_bind.1 hread
    obtain ⟨rfl, _, hm⟩ := reads_text.1 hmargin
    obtain ⟨ex, _, o, rfl, hex, hread⟩ := reads_bind.1 hread
    obtain ⟨kw, _, _, rfl, hword, hread⟩ := reads_bind.1 hread
    obtain ⟨hkw, rfl⟩ := reads_oneOf.1 hword
    obtain ⟨g₁, _, _, rfl, hg₁, hread⟩ := reads_bind.1 hread
    obtain ⟨name, _, _, rfl, hbound, hread⟩ := reads_bind.1 hread
    obtain ⟨rfl, hne, hname⟩ := reads_name.1 hbound
    obtain ⟨g₂, _, rfl, hg₂, hread⟩ := reads_indent_bind.1 hread
    obtain ⟨_, rfl, hvalue⟩ := reads_word_bind.1 hread
    obtain ⟨g₃, _, rfl, hg₃, hvalue⟩ := reads_indent_bind.1 hvalue
    obtain ⟨as, _, o', rfl, has, hvalue⟩ := reads_bind.1 hvalue
    obtain ⟨ps, _, params, rfl, hps, hvalue⟩ := reads_bind.1 hvalue
    obtain ⟨g₄, _, rfl, hg₄, hvalue⟩ := reads_indent_bind.1 hvalue
    obtain ⟨_, rfl, hbody⟩ := reads_word_bind.1 hvalue
    obtain ⟨g₅, _, rfl, hg₅, hbody⟩ := reads_indent_bind.1 hbody
    obtain ⟨rfl, rfl⟩ := reads_pure.1 hbody
    obtain ⟨hne₁, hg₁⟩ := reads_indent1.1 hg₁
    exact ⟨hpre, ex, kw, g₁, g₂, g₃, as, ps, g₄, g₅, by simp, reads_indent.1 hm, reads_mark.1 hex, hkw,
      hne₁, hg₁, hne, hname, hg₂, hg₃, reads_mark.1 has, reads_params.1 hps, hg₄, hg₅⟩
  · rintro ⟨hpre, ex, kw, g₁, g₂, g₃, as, ps, g₄, g₅, rfl, hm, hex, hkw, hne₁, hg₁, hne, hname, hg₂, hg₃,
      has, hps, hg₄, hg₅⟩
    obtain ⟨margin, isExported, isAsync, name, params⟩ := h
    obtain ⟨o, rfl⟩ := exists_isSome isExported
    obtain ⟨o', rfl⟩ := exists_isSome isAsync
    simp only [head, reads_bind, reads_lineStart, reads_text, reads_indent, reads_mark, reads_oneOf, reads_indent1,
      reads_name, reads_params, reads_pure, ↓reads_word_bind, ↓reads_indent_bind]
    exact ⟨[], _, (), rfl, ⟨rfl, hpre⟩, margin, _, margin, rfl, ⟨rfl, (), hm⟩, ex, _, o, rfl, hex, kw, _, kw, rfl,
      ⟨hkw, rfl⟩, g₁, _, (), rfl, ⟨hne₁, hg₁⟩, name, _, name, rfl, ⟨rfl, hne, hname⟩, g₂, _, rfl, hg₂,
      _, rfl, g₃, _, rfl, hg₃, as, _, o', rfl, has, ps, _, params, rfl, hps, g₄, _, rfl,
      hg₄, _, rfl, g₅, [], by simp, hg₅, rfl, rfl⟩

theorem reads_blockBinding : blockBinding.Reads pre w post h ↔
    ∃ u, w = u ++ ("\x7b" : Text) ∧ pre.AtLineStart ∧ Binds h u := by
  simp only [blockBinding, reads_bind, reads_head, reads_word, reads_pure]
  constructor
  · rintro ⟨u, _, _, rfl, ⟨hpre, hu⟩, _, _, _, rfl, rfl, rfl, rfl⟩
    exact ⟨u, by simp, hpre, hu⟩
  · rintro ⟨u, rfl, hpre, hu⟩
    exact ⟨u, "\x7b", h, rfl, ⟨hpre, hu⟩, "\x7b", [], (), rfl, rfl, rfl, rfl⟩

/-- What stands between a body and the end of its line: maybe a `;` and maybe a carriage return. -/
def Ends (isTerminated : Bool) (cr t : Text) : Prop :=
  ∃ g semi, t = g ++ (semi ++ cr) ∧ AllIndent g ∧
    (isTerminated = true ∧ (∃ g', semi = ";" ++ g' ∧ AllIndent g') ∨ isTerminated = false ∧ semi = []) ∧
    (cr = "\r" ∨ cr = [])

theorem reads_ending {o : Option Unit} : (Scan.maybe do .word ";"; indent : Scan (Option Unit)).Reads pre w post o ↔
    o.isSome = true ∧ (∃ g, w = ";" ++ g ∧ AllIndent g) ∨ o.isSome = false ∧ w = [] := by
  simp only [reads_maybe_word, reads_indent]

theorem reads_carriageReturn {cr : Text} :
    (Scan.maybe (.word "\r")).text.Reads pre w post cr ↔ cr = w ∧ (w = "\r" ∨ w = []) := by
  simp only [reads_text, reads_maybe, reads_word]
  constructor
  · rintro ⟨rfl, _, ⟨_, rfl, -⟩ | ⟨rfl, -⟩⟩
    · exact ⟨rfl, .inl rfl⟩
    · exact ⟨rfl, .inr rfl⟩
  · rintro ⟨rfl, rfl | rfl⟩
    · exact ⟨rfl, some (), .inl ⟨(), rfl, rfl⟩⟩
    · exact ⟨rfl, none, .inr ⟨rfl, rfl⟩⟩

theorem upTo_body : (between (pre ++ u) (body ++ t)).upTo (between (pre ++ (u ++ body)) t) = body := by
  rw [← List.append_assoc, upTo_between]

theorem reads_expressionBinding {b : ExpressionBinding} : expressionBinding.Reads pre w post b ↔
    ∃ u t, w = u ++ (b.body ++ t) ∧ pre.AtLineStart ∧ Binds b.head u ∧ b.body ≠ [] ∧
      (∀ c ∈ b.body, c ∉ [';', '\x7b', '\x7d', '\n']) ∧ Ends b.isTerminated b.carriageReturn t ∧ post.AtLineEnd := by
  simp only [expressionBinding, reads_bind, reads_head, reads_here, reads_few1, reads_ending,
    reads_carriageReturn, reads_lineEnd, reads_pure, ↓reads_indent_bind, decide_eq_true_eq, Ends]
  constructor
  · rintro ⟨u, _, h, rfl, ⟨hpre, hu⟩, _, _, _, rfl, ⟨rfl, rfl⟩, body, _, _, rfl, ⟨hne, hbody⟩, _, _, _, rfl,
      ⟨rfl, rfl⟩, g, _, rfl, hg, semi, _, o, rfl, hsemi, _, _, cr, rfl, ⟨rfl, hcr⟩, _, _, _, rfl,
      ⟨rfl, hend⟩, rfl, rfl⟩
    simp only [List.nil_append, List.append_nil, List.append_assoc, upTo_body] at hend ⊢
    exact ⟨u, g ++ (semi ++ cr), rfl, hpre, hu, hne, hbody, ⟨g, semi, rfl, hg, hsemi, hcr⟩, hend⟩
  · obtain ⟨h, body, isTerminated, cr⟩ := b
    rintro ⟨u, _, rfl, hpre, hu, hne, hbody, ⟨g, semi, rfl, hg, hsemi, hcr⟩, hend⟩
    obtain ⟨o, rfl⟩ := exists_isSome isTerminated
    refine ⟨u, _, h, rfl, ⟨hpre, hu⟩, [], _, _, rfl, ⟨rfl, rfl⟩, body, _, (), rfl, ⟨hne, hbody⟩, [], _, _, rfl,
      ⟨rfl, rfl⟩, g, _, rfl, hg, semi, _, o, rfl, hsemi, cr, [], cr, by simp, ⟨rfl, hcr⟩, [], [], (), rfl,
      ⟨rfl, hend⟩, rfl, ?_⟩
    simp only [List.append_eq, List.append_assoc, List.nil_append, upTo_body]

/-! ### What the edits put -/

theorem reads_blockEdit : (blockEdit starts).Reads pre w post e ↔ ∃ h, blockBinding.Reads pre w post h ∧
    e = if starts.contains pre.length && !(afterBlock? ('\x7b' :: post)).any continues then
      some (h.declaration ++ " \x7b") else none := by
  simp only [blockEdit, reads_bind, reads_here, reads_pure]
  constructor
  · rintro ⟨_, _, _, rfl, ⟨rfl, rfl⟩, _, _, h, rfl, hh, _, _, _, rfl, ⟨rfl, rfl⟩, rfl, rfl⟩
    exact ⟨h, by simpa using hh, by simp⟩
  · rintro ⟨h, hh, rfl⟩
    exact ⟨[], w, _, rfl, ⟨rfl, rfl⟩, w, [], h, by simp, by simpa using hh, [], [], _, rfl, ⟨rfl, rfl⟩, rfl,
      by simp⟩

theorem reads_expressionEdit : (expressionEdit starts).Reads pre w post e ↔
    ∃ b, expressionBinding.Reads pre w post b ∧
      e = if starts.contains pre.length && b.isComplete post then some b.declaration else none := by
  simp only [expressionEdit, reads_bind, reads_here, reads_pure]
  constructor
  · rintro ⟨_, _, _, rfl, ⟨rfl, rfl⟩, _, _, b, rfl, hb, _, _, _, rfl, ⟨rfl, rfl⟩, rfl, rfl⟩
    exact ⟨b, by simpa using hb, by simp⟩
  · rintro ⟨b, hb, rfl⟩
    exact ⟨[], w, _, rfl, ⟨rfl, rfl⟩, w, [], b, by simp, by simpa using hb, [], [], _, rfl, ⟨rfl, rfl⟩, rfl,
      by simp⟩

/-- A declaration up to its parameters. -/
def Head.front (h : Head) : Text :=
  Text.concat [h.margin, if h.isExported then "export " else [], if h.isAsync then "async " else [],
    "function ", h.name]

theorem Head.front_eq (h : Head) : h.front = h.margin ++ ((if h.isExported then ("export " : Text) else []) ++
    ((if h.isAsync then ("async " : Text) else []) ++ (("function " : Text) ++ h.name))) := by
  rw [Head.front, concat_cons, concat_cons, concat_cons, concat_cons, concat_cons, concat_nil, List.append_nil]

theorem Head.declaration_eq (h : Head) : h.declaration = h.front ++ '(' :: (h.params ++ [')']) := by
  rw [Head.declaration, Head.front_eq]
  simp only [concat_cons, concat_nil, List.append_assoc, List.append_nil]
  rfl

theorem ExpressionBinding.declaration_eq (b : ExpressionBinding) : b.declaration =
    b.head.declaration ++ (" \x7b return " ++ (trim b.body ++ ("; \x7d" ++ b.carriageReturn))) := by
  rw [ExpressionBinding.declaration, concat_cons, concat_cons, concat_cons, concat_cons, concat_cons, concat_nil,
    List.append_nil]

/-- The declaration of a function with the body of a binding, in words. -/
def ExpressionBinding.declared (b : ExpressionBinding) : Text :=
  b.head.front ++ '(' :: (b.head.params ++ (") \x7b return " ++ (trim b.body ++ ("; \x7d" ++ b.carriageReturn))))

theorem ExpressionBinding.declaration_eq_declared (b : ExpressionBinding) : b.declaration = b.declared := by
  simp [b.declaration_eq, b.head.declaration_eq, declared]

/-- What becomes of the text behind the arrow. -/
inductive Carries : (v post tail : Text) → Prop
  | block {post : Text} : Carries "\x7b" post " \x7b"
  | expression {body t cr post : Text} {isTerminated : Bool} (hbody : ∀ c ∈ body, c ∉ [';', '\x7b', '\x7d', '\n'])
    (ht : Ends isTerminated cr t) (hpost : post.AtLineEnd) :
    Carries (body ++ t) post (" \x7b return " ++ (trim body ++ ("; \x7d" ++ cr)))

/-- A binding `w` between `pre` and `post` becomes the declaration `r`. -/
def Declares (pre w post r : Text) : Prop :=
  ∃ h u v tail, w = u ++ v ∧ r = h.front ++ '(' :: (h.params ++ ')' :: tail) ∧ pre.AtLineStart ∧
    Binds h u ∧ Carries v post tail

theorem declares_blockEdit (h : (blockEdit starts).Changes pre w post r) : Declares pre w post r := by
  obtain ⟨head, hr, he⟩ := reads_blockEdit.1 h.reads
  obtain ⟨u, rfl, hpre, hu⟩ := reads_blockBinding.1 hr
  split_ifs at he
  obtain rfl := Option.some.inj he
  exact ⟨head, u, "\x7b", " \x7b", rfl, by simp [head.declaration_eq], hpre, hu, .block⟩

theorem declares_expressionEdit (h : (expressionEdit starts).Changes pre w post r) : Declares pre w post r := by
  obtain ⟨b, hr, he⟩ := reads_expressionEdit.1 h.reads
  obtain ⟨u, t, rfl, hpre, hu, -, hbody, ht, hpost⟩ := reads_expressionBinding.1 hr
  split_ifs at he
  obtain rfl := Option.some.inj he
  exact ⟨b.head, u, _, _, rfl, b.declaration_eq_declared, hpre, hu, .expression hbody ht hpost⟩

end AppsScript.Arrow
