import AppsScript.Proofs.DeclaredLines
import Mathlib.Data.List.Induction

/-!
# Bindings inside blocks and literals

A script as its tokens, apart from how it is read (`Token`). The reader of code goes along with them
(`readsCode_after`), so that a line inside a block, a literal or a comment keeps its arrow (`declare_nested`), as
long as it can tell a token by its characters (`Token.IsReadable`): it does not know regular expressions and does
not look for templates inside templates.
-/

namespace AppsScript.Source

open Text State

/-! ### Tokens -/

mutual

/-- A lexical element of a script. -/
inductive Token
  /-- A character by itself. -/
  | char (c : Char)
  | opening
  | closing
  | literal (quote : Char) (body : Text)
  | template (parts : List Part)
  | lineComment (body : Text)
  | blockComment (body : Text)
  /-- A regular expression up to its flags, which are characters by themselves. -/
  | regex (body : Text)

/-- What stands between the backticks of a template. -/
inductive Part
  | chunk (body : Text)
  | substitution (tokens : List Token)

end

mutual

/-- A token as it is written. -/
def Token.text : Token → Text
  | .char c => [c]
  | .opening => ['\x7b']
  | .closing => ['\x7d']
  | .literal q body => q :: (body ++ [q])
  | .template parts => '`' :: (partsText parts ++ ['`'])
  | .lineComment body => '/' :: '/' :: body
  | .blockComment body => '/' :: '*' :: (body ++ ['*', '/'])
  | .regex body => '/' :: (body ++ ['/'])

/-- Tokens as they are written. -/
def tokensText : List Token → Text
  | [] => []
  | t :: ts => t.text ++ tokensText ts

/-- A part of a template as it is written. -/
def Part.text : Part → Text
  | .chunk body => body
  | .substitution ts => '$' :: '\x7b' :: (tokensText ts ++ ['\x7d'])

/-- The parts of a template as they are written. -/
def partsText : List Part → Text
  | [] => []
  | p :: ps => p.text ++ partsText ps

end

/-- Every character by itself. -/
def chars (w : Text) : List Token := w.map .char

/-- The number of blocks that are open behind a token; a closing brace without an opening one does not count. -/
def Token.depthBehind (d : Nat) : Token → Nat
  | .opening => d + 1
  | .closing => d - 1
  | _ => d

/-- The number of blocks that are open behind tokens. -/
def depthBehind (d : Nat) (ts : List Token) : Nat := ts.foldl Token.depthBehind d

/-- A text that a literal between two `q` goes on through: a backslash takes the next character along. -/
inductive Inside (q : Char) : Text → Prop
  | nil : Inside q []
  | char {c : Char} {t : Text} (hquote : c ≠ q) (hback : c ≠ '\\') (ht : Inside q t) : Inside q (c :: t)
  | escape {c : Char} {t : Text} (ht : Inside q t) : Inside q ('\\' :: c :: t)

/-- The body of a regular expression from some place on, which may be within a class. -/
inductive RegexBody : (inClass : Bool) → Text → Prop
  | nil : RegexBody false []
  | char {c : Char} {t : Text} (hc : c ∉ ['/', '\\', '[', '\n']) (ht : RegexBody false t) : RegexBody false (c :: t)
  | opening {t : Text} (ht : RegexBody true t) : RegexBody false ('[' :: t)
  | member {c : Char} {t : Text} (hc : c ∉ [']', '\\', '\n']) (ht : RegexBody true t) : RegexBody true (c :: t)
  | closing {t : Text} (ht : RegexBody false t) : RegexBody true (']' :: t)
  | escape {inClass : Bool} {c : Char} {t : Text} (hc : c ≠ '\n') (ht : RegexBody inClass t) :
    RegexBody inClass ('\\' :: c :: t)

/-- Behind a `/` the text opens no comment. -/
def OpensNone (t : Text) : Prop := ∀ c ∈ t.head?, c ≠ '/' ∧ c ≠ '*'

/-- No `/` of `t` opens a comment if `rest` follows. -/
def Apart : (t rest : Text) → Prop
  | [], _ => True
  | c :: t, rest => (c = '/' → OpensNone (t ++ rest)) ∧ Apart t rest

/-- Neither a quote nor a brace. -/
def isPlain (c : Char) : Bool := c ∉ ['\'', '"', '`', '\x7b', '\x7d']

theorem isPlain_iff : isPlain c = true ↔ isQuote c = false ∧ c ≠ '\x7b' ∧ c ≠ '\x7d' := by
  simp [isPlain, isQuote, and_assoc]

/-- No closing brace comes before its opening one, and none is missing. -/
def IsBalanced (ts : List Token) : Prop :=
  depthBehind 0 ts = 0 ∧ ∀ us vs, ts = us ++ .closing :: vs → 0 < depthBehind 0 us

mutual

/-- A token is what its text in front of `rest` is to be read as. -/
def Token.IsFormed : Token → (rest : Text) → Prop
  | .char c, rest => isPlain c ∧ Apart [c] rest
  | .opening, _ => True
  | .closing, _ => True
  | .literal q body, _ => q ∈ ['\'', '"'] ∧ Inside q body
  | .template parts, _ => PartsFormed parts
  | .lineComment body, rest => '\n' ∉ body ∧ rest.AtLineEnd
  | .blockComment body, _ => ¬ ("*/" : Text) <:+: body
  | .regex body, _ => body ≠ [] ∧ body.head? ≠ some '*' ∧ RegexBody false body

/-- The tokens are what their text in front of `rest` is to be read as. -/
def TokensFormed : List Token → (rest : Text) → Prop
  | [], _ => True
  | t :: ts, rest => t.IsFormed (tokensText ts ++ rest) ∧ TokensFormed ts rest

/-- The same of a part of a template. -/
def Part.IsFormed : Part → Prop
  | .chunk body => Inside '`' body
  | .substitution ts => TokensFormed ts ['\x7d'] ∧ IsBalanced ts

/-- The same of the parts of a template. -/
def PartsFormed : List Part → Prop
  | [] => True
  | p :: ps => p.IsFormed ∧ PartsFormed ps

end

/-- A place in a block, or strictly inside a token that goes on over several characters. -/
inductive Nested : List Token → (pre : Text) → Prop
  | block {us vs : List Token} (hdepth : 0 < depthBehind 0 us) : Nested (us ++ vs) (tokensText us)
  | inside {us vs : List Token} {t : Token} {u v : Text} (htext : t.text = u ++ v) (hu : u ≠ []) (hv : v ≠ []) :
    Nested (us ++ t :: vs) (tokensText us ++ u)

/-- A reader that knows quotes, comments and braces comes through the token: a regular expression has none of
these in it, and no template is inside another one. -/
def Token.IsReadable : Token → (rest : Text) → Prop
  | .regex body, rest => (∀ c ∈ body, isPlain c) ∧ Apart ('/' :: (body ++ ['/'])) rest
  | .template parts, _ => Inside '`' (partsText parts)
  | _, _ => True

/-- `p` holds of every token and the text behind it, with `rest` behind the last. -/
def Along (p : Token → Text → Prop) : List Token → (rest : Text) → Prop
  | [], _ => True
  | t :: ts, rest => p t (tokensText ts ++ rest) ∧ Along p ts rest

variable {p : Token → Text → Prop} {t : Token} {ts us vs : List Token} {rest u v w body pre : Text} {s : State}
  {c q : Char} {d : Nat} {inClass : Bool}

theorem tokensFormed_iff_along : TokensFormed ts rest ↔ Along Token.IsFormed ts rest := by
  induction ts with
  | nil => simp [TokensFormed, Along]
  | cons t ts ih => simp [TokensFormed, Along, ih]

@[simp] theorem tokensText_append : tokensText (us ++ vs) = tokensText us ++ tokensText vs := by
  induction us with
  | nil => simp [tokensText]
  | cons t us ih => simp [tokensText, ih]

@[simp] theorem tokensText_chars (w : Text) : tokensText (chars w) = w := by
  induction w with
  | nil => rfl
  | cons c w ih => simpa [chars, tokensText, Token.text] using ih

@[simp] theorem along_cons : Along p (t :: ts) rest ↔ p t (tokensText ts ++ rest) ∧ Along p ts rest := Iff.rfl

theorem along_append : Along p (us ++ vs) rest ↔ Along p us (tokensText vs ++ rest) ∧ Along p vs rest := by
  induction us with
  | nil => simp [Along]
  | cons t us ih => simp [Along, ih, and_assoc]

theorem along_chars (hp : ∀ c ∈ w, ∀ rest, p (.char c) rest) : Along p (chars w) rest := by
  induction w with
  | nil => trivial
  | cons c w ih => exact ⟨hp c (by simp) _, ih fun x hx => hp x (by simp [hx])⟩

/-- A character that means nothing to the reader is a token by itself. -/
theorem isFormed_char (hc : isSilent c) : (Token.char c).IsFormed rest := by
  obtain ⟨hquote, hslash, hopen, hclose⟩ := isSilent_iff.1 hc
  exact ⟨isPlain_iff.2 ⟨hquote, hopen, hclose⟩, fun h => absurd h hslash, trivial⟩

/-! ### Reading tokens -/

/-- The reader is outside literals and comments with `d` blocks open, and so it reads what comes next as code. -/
structure State.ReadsCode (s : State) (d : Nat) (rest : Text) : Prop where
  depth : s.depth = d
  next : ∀ c ∈ rest.head?, s.step c = behindCode d c

theorem readsCode_code : State.ReadsCode ⟨.code, d⟩ d rest := ⟨rfl, fun _ _ => rfl⟩

theorem readsCode_slash (h : OpensNone rest) : State.ReadsCode ⟨.slash, d⟩ d rest := by
  refine ⟨rfl, fun c hc => ?_⟩
  obtain ⟨hslash, hstar⟩ := h c hc
  simp [step, hslash, hstar]

theorem readsCode_lineComment (h : rest.AtLineEnd) : State.ReadsCode ⟨.lineComment, d⟩ d rest := by
  refine ⟨rfl, fun c hc => ?_⟩
  obtain rfl := h c hc
  rfl

theorem readsCode_behindCode (hc : isPlain c) (hslash : c = '/' → OpensNone rest) :
    (behindCode d c).ReadsCode d rest := by
  obtain ⟨hquote, hopen, hclose⟩ := isPlain_iff.1 hc
  by_cases h : c = '/'
  · subst h
    exact readsCode_slash (hslash rfl)
  · simpa [behindCode, hquote, hopen, hclose, h] using readsCode_code

theorem State.ReadsCode.after_code (h : s.ReadsCode d (c :: rest)) : s.after (c :: w) = (behindCode d c).after w := by
  rw [after_cons, h.next c rfl]

theorem State.ReadsCode.after_plain (h : s.ReadsCode d (w ++ rest)) (hw : ∀ c ∈ w, isPlain c) (hapart : Apart w rest) :
    (s.after w).ReadsCode d rest := by
  induction w generalizing s with
  | nil => exact h
  | cons c w ih =>
    rw [h.after_code]
    exact ih (readsCode_behindCode (hw c (by simp)) hapart.1) (fun x hx => hw x (by simp [hx])) hapart.2

theorem Inside.after (h : Inside q w) : (⟨.literal q, d⟩ : State).after w = ⟨.literal q, d⟩ := by
  induction h with
  | nil => rfl
  | char hquote hback _ ih => simpa [step, hback, hquote] using ih
  | escape _ ih => simpa [step] using ih

/-- Within a literal the reader is in it, or behind a backslash of it. -/
theorem Inside.after_take (h : Inside q w) (hw : w = u ++ v) : (⟨.literal q, d⟩ : State).after u = ⟨.literal q, d⟩ ∨
    (⟨.literal q, d⟩ : State).after u = ⟨.escape q, d⟩ := by
  induction h generalizing u with
  | nil =>
    obtain ⟨rfl, -⟩ := List.nil_eq_append_iff.1 hw
    exact .inl rfl
  | char hquote hback _ ih =>
    cases u with
    | nil => exact .inl rfl
    | cons x u =>
      simp only [List.cons_append, List.cons.injEq] at hw
      obtain ⟨rfl, hw⟩ := hw
      simpa [step, hback, hquote] using ih hw
  | escape _ ih =>
    rcases u with _ | ⟨x, _ | ⟨y, u⟩⟩
    · exact .inl rfl
    · simp only [List.cons_append, List.cons.injEq] at hw
      obtain ⟨rfl, -⟩ := hw
      exact .inr (by simp [step])
    · simp only [List.cons_append, List.cons.injEq] at hw
      obtain ⟨rfl, rfl, hw⟩ := hw
      simpa [step] using ih hw

theorem after_lineComment (h : '\n' ∉ w) : (⟨.lineComment, d⟩ : State).after w = ⟨.lineComment, d⟩ := by
  induction w with
  | nil => rfl
  | cons c w ih =>
    obtain ⟨hc, hw⟩ : c ≠ '\n' ∧ '\n' ∉ w := by simpa [eq_comm] using h
    simpa [step, hc] using ih hw

/-- Within a block comment the reader is in it, or behind a `*` of it. -/
theorem after_blockComment (h : ¬ ("*/" : Text) <:+: w) : (⟨.blockComment, d⟩ : State).after w = ⟨.blockComment, d⟩ ∨
    (⟨.blockComment, d⟩ : State).after w = ⟨.star, d⟩ ∧ ['*'] <:+ w := by
  induction w using List.reverseRecOn with
  | nil => exact .inl rfl
  | append_singleton w c ih =>
    have hw : ¬ ("*/" : Text) <:+: w := fun hw => h (hw.trans (List.prefix_append w [c]).isInfix)
    by_cases hstar : c = '*'
    · subst hstar
      refine .inr ⟨?_, List.suffix_append w ['*']⟩
      rcases ih hw with hs | ⟨hs, -⟩ <;> rw [after_append, hs] <;> rfl
    · refine .inl ?_
      rcases ih hw with hs | ⟨hs, x, rfl⟩
      · rw [after_append, hs]
        simp [step, hstar]
      · have hslash : c ≠ '/' := by
          rintro rfl
          exact h ⟨x, [], by simp⟩
        rw [after_append, hs]
        simp [step, hstar, hslash]

theorem RegexBody.notMem_newline (h : RegexBody inClass body) : '\n' ∉ body := by
  induction h with
  | nil => simp
  | char hc _ ih =>
    rw [List.mem_cons, not_or]
    exact ⟨fun h => hc (by simp [← h]), ih⟩
  | opening _ ih => simpa using ih
  | member hc _ ih =>
    rw [List.mem_cons, not_or]
    exact ⟨fun h => hc (by simp [← h]), ih⟩
  | closing _ ih => simpa using ih
  | escape hc _ ih => simpa [Ne.symm hc] using ih

theorem isQuote_of_mem (h : q ∈ ['\'', '"']) : isQuote q := by
  rcases List.mem_pair.1 h with rfl | rfl <;> rfl

/-- The reader comes through a literal and is in it on the way. -/
theorem State.ReadsCode.after_quoted (h : s.ReadsCode d (q :: rest)) (hq : isQuote q) (hw : Inside q w) :
    s.after (q :: (w ++ [q])) = ⟨.code, d⟩ ∧
      ∀ u v, q :: (w ++ [q]) = u ++ v → u ≠ [] → v ≠ [] → (s.after u).spot ≠ .code := by
  have hopen : behindCode d q = ⟨.literal q, d⟩ := by
    have hcases : q = '\'' ∨ q = '"' ∨ q = '`' := by simpa [isQuote, or_assoc] using hq
    rcases hcases with rfl | rfl | rfl <;> rfl
  have hback : q ≠ '\\' := by
    rintro rfl
    exact absurd hq (by decide)
  refine ⟨?_, fun u v huv hu hv => ?_⟩
  · rw [h.after_code, hopen, after_append, hw.after]
    simp [step, hback]
  · cases u with
    | nil => exact absurd rfl hu
    | cons x u =>
      simp only [List.cons_append, List.cons.injEq] at huv
      obtain ⟨rfl, huv⟩ := huv
      obtain ⟨v', -, hv'⟩ := Text.eq_append_of_concat_eq huv hv
      rw [h.after_code, hopen]
      rcases hw.after_take (d := d) hv' with hs | hs <;> simp [hs]

/-- The reader comes through a block comment and is in it on the way. -/
theorem State.ReadsCode.after_commented (h : s.ReadsCode d ('/' :: rest)) (hw : ¬ ("*/" : Text) <:+: w) :
    s.after ('/' :: '*' :: (w ++ ['*', '/'])) = ⟨.code, d⟩ ∧
      ∀ u v, '/' :: '*' :: (w ++ ['*', '/']) = u ++ v → u ≠ [] → v ≠ [] → (s.after u).spot ≠ .code := by
  have hopen : behindCode d '/' = ⟨.slash, d⟩ := rfl
  have hstar : (⟨.slash, d⟩ : State).step '*' = ⟨.blockComment, d⟩ := rfl
  refine ⟨?_, fun u v huv hu hv => ?_⟩
  · rw [h.after_code, hopen, after_cons, hstar, after_append]
    rcases after_blockComment (d := d) hw with hs | ⟨hs, -⟩ <;> rw [hs] <;> rfl
  · rcases u with _ | ⟨x, _ | ⟨y, u⟩⟩
    · exact absurd rfl hu
    · simp only [List.cons_append, List.cons.injEq] at huv
      obtain ⟨rfl, -⟩ := huv
      rw [h.after_code, hopen]
      simp
    · simp only [List.cons_append, List.cons.injEq] at huv
      obtain ⟨rfl, rfl, huv⟩ := huv
      have hsplit : (w ++ ['*']) ++ ['/'] = u ++ v := by simpa using huv
      obtain ⟨v', -, hv'⟩ := Text.eq_append_of_concat_eq hsplit hv
      have hinfix : ¬ ("*/" : Text) <:+: u := by
        intro hu'
        have hall : ("*/" : Text) <:+: w ++ ['*'] := hv' ▸ hu'.trans (List.prefix_append u v').isInfix
        rcases List.infix_concat_iff.1 hall with ⟨z, hz⟩ | hin
        · have hlast : z ++ ['*'] ++ ['/'] = w ++ ['*'] := by simpa using hz
          simpa using (List.append_inj' hlast rfl).2
        · exact hw hin
      rw [h.after_code, hopen, after_cons, hstar]
      rcases after_blockComment (d := d) hinfix with hs | ⟨hs, -⟩ <;> simp [hs]

theorem Token.readsCode_after (hform : t.IsFormed rest) (hread : t.IsReadable rest)
    (h : s.ReadsCode d (t.text ++ rest)) : (s.after t.text).ReadsCode (t.depthBehind d) rest := by
  cases t with
  | char c =>
    obtain ⟨hplain, hapart⟩ := hform
    exact h.after_plain (by simpa [Token.text] using hplain) hapart
  | opening =>
    rw [Token.text, h.after_code]
    exact readsCode_code
  | closing =>
    rw [Token.text, h.after_code]
    exact readsCode_code
  | literal q body =>
    obtain ⟨hq, hbody⟩ := hform
    rw [Token.text, (h.after_quoted (isQuote_of_mem hq) hbody).1]
    exact readsCode_code
  | template parts =>
    rw [Token.text, (h.after_quoted rfl hread).1]
    exact readsCode_code
  | lineComment body =>
    obtain ⟨hbody, hend⟩ := hform
    have hopen : (behindCode d '/').step '/' = ⟨.lineComment, d⟩ := rfl
    rw [Token.text, h.after_code, after_cons, hopen, after_lineComment hbody]
    exact readsCode_lineComment hend
  | blockComment body =>
    rw [Token.text, (h.after_commented hform).1]
    exact readsCode_code
  | regex body =>
    obtain ⟨hplain, hapart⟩ := hread
    refine h.after_plain (fun c hc => ?_) hapart
    rcases List.mem_cons.1 hc with rfl | hc
    · rfl
    · rcases List.mem_append.1 hc with hc | hc
      · exact hplain c hc
      · obtain rfl := List.mem_singleton.1 hc
        rfl

/-- No line starts strictly inside a token, except where the reader is not in code. -/
theorem Token.spot_after_ne_code (hform : t.IsFormed rest) (hread : t.IsReadable rest)
    (h : s.ReadsCode d (t.text ++ rest)) (htext : t.text = u ++ v) (hu : u ≠ []) (hv : v ≠ [])
    (hstart : u.AtLineStart) : (s.after u).spot ≠ .code := by
  have hnewline : '\n' ∈ t.text := by
    rcases List.eq_nil_or_concat u with rfl | ⟨x, c, rfl⟩
    · exact absurd rfl hu
    · simp [htext, hstart c (by simp)]
  have hsingle {c : Char} (hc : t.text = [c]) : False := by
    rcases List.append_eq_singleton_iff.1 (htext.symm.trans hc) with ⟨rfl, -⟩ | ⟨-, rfl⟩
    · exact hu rfl
    · exact hv rfl
  cases t with
  | char c => exact (hsingle rfl).elim
  | opening => exact (hsingle rfl).elim
  | closing => exact (hsingle rfl).elim
  | literal q body =>
    obtain ⟨hq, hbody⟩ := hform
    exact (h.after_quoted (isQuote_of_mem hq) hbody).2 u v htext hu hv
  | template parts => exact (h.after_quoted rfl hread).2 u v htext hu hv
  | lineComment body =>
    obtain ⟨hbody, -⟩ := hform
    exact absurd hnewline (by simpa [Token.text] using hbody)
  | blockComment body => exact (h.after_commented hform).2 u v htext hu hv
  | regex body =>
    obtain ⟨-, -, hbody⟩ := hform
    exact absurd hnewline (by simpa [Token.text] using hbody.notMem_newline)

/-- The reader comes through the tokens, and counts the blocks that are open. -/
theorem readsCode_after (hform : TokensFormed ts rest) (hread : Along Token.IsReadable ts rest)
    (h : s.ReadsCode d (tokensText ts ++ rest)) : (s.after (tokensText ts)).ReadsCode (depthBehind d ts) rest := by
  induction ts generalizing s d with
  | nil => exact h
  | cons t ts ih =>
    rw [tokensText, List.append_assoc] at h
    rw [tokensText, after_append]
    exact ih hform.2 hread.2 (Token.readsCode_after hform.1 hread.1 h)

/-- The reader is in a block, a literal or a comment where it should be. -/
theorem after_ne_start (hform : TokensFormed ts []) (hread : Along Token.IsReadable ts []) (hnested : Nested ts pre)
    (hpre : pre.AtLineStart) : start.after pre ≠ start := by
  rw [tokensFormed_iff_along] at hform
  cases hnested with
  | @block us vs hdepth =>
    have hcode := readsCode_after (s := start) (tokensFormed_iff_along.2 (along_append.1 hform).1)
      (along_append.1 hread).1 readsCode_code
    intro hstart
    rw [hstart] at hcode
    exact absurd hcode.depth (by simp [start]; omega)
  | @inside us vs t u v htext hu hv =>
    obtain ⟨hformed, hform, -⟩ := along_append.1 hform
    obtain ⟨hreadable, hread, -⟩ := along_append.1 hread
    have hcode := readsCode_after (s := start) (tokensFormed_iff_along.2 hformed) hreadable readsCode_code
    rw [tokensText, List.append_assoc] at hcode
    have hline : u.AtLineStart := fun c hc => hpre c (by simp [List.getLast?_append, Option.mem_def.1 hc])
    have hspot := Token.spot_after_ne_code hform hread hcode htext hu hv hline
    intro hstart
    rw [after_append] at hstart
    exact hspot (by rw [hstart, start])

end AppsScript.Source

namespace AppsScript.Arrow

open Source Text

variable {ts : List Token} {pre line post : Text} {i : Nat}

/-- A line in a block, a literal or a comment stays as it is. -/
theorem declare_nested (hform : TokensFormed ts []) (hread : Along Token.IsReadable ts []) (hnested : Nested ts pre)
    (h : LineAt (tokensText ts) i pre line post) : (lines (declare (tokensText ts)))[i]? = some line := by
  obtain ⟨out, hout, rfl | ⟨hstart, -⟩⟩ := exists_line_declare h
  · exact hout
  · rw [h.eq, mem_topLevelStarts h.start] at hstart
    exact absurd hstart (after_ne_start hform hread hnested h.start)

/-! ### Regular expressions -/

/-- A function with a regular expression in it, up to the line behind. -/
def patternIn (body : Text) : List Token :=
  chars "function f() " ++ .opening :: (chars "\n  const close = " ++ .regex body :: chars ";\n")

/-- An arrow on the line behind the regular expression, and the end of the function. -/
def arrowBehind : List Token := chars "  const g = () => this.x;\n" ++ [.closing]

variable {body : Text}

theorem tokensFormed_patternIn (hne : body ≠ []) (hstar : body.head? ≠ some '*') (hbody : RegexBody false body) :
    TokensFormed (patternIn body ++ arrowBehind) [] := by
  have hchars {w rest : Text} (hw : ∀ c ∈ w, isSilent c) : Along Token.IsFormed (chars w) rest :=
    along_chars fun c hc _ => isFormed_char (hw c hc)
  have hhead : ∀ c ∈ ("function f() " : Text), isSilent c := by simp [isSilent, isQuote]
  have hbinding : ∀ c ∈ ("\n  const close = " : Text), isSilent c := by simp [isSilent, isQuote]
  have hend : ∀ c ∈ (";\n" : Text), isSilent c := by simp [isSilent, isQuote]
  have harrow : ∀ c ∈ ("  const g = () => this.x;\n" : Text), isSilent c := by simp [isSilent, isQuote]
  simp only [tokensFormed_iff_along, patternIn, arrowBehind, along_append, along_cons]
  exact ⟨⟨hchars hhead, trivial, hchars hbinding, ⟨hne, hstar, hbody⟩, hchars hend⟩, hchars harrow, trivial, trivial⟩

theorem tokensText_patternIn :
    tokensText (patternIn body) = "function f() \x7b\n  const close = /" ++ (body ++ ("/;\n" : Text)) := by
  simp only [patternIn, tokensText_append, tokensText, tokensText_chars, Token.text]
  simp

theorem tokensText_arrowBehind : tokensText arrowBehind = "  const g = () => this.x;\n\x7d" := by
  simp only [arrowBehind, tokensText_append, tokensText, tokensText_chars, Token.text]
  rfl

theorem nested_patternIn : Nested (patternIn body ++ arrowBehind) (tokensText (patternIn body)) :=
  .block Nat.zero_lt_one

theorem lineAt_patternIn (hbody : '\n' ∉ body) : LineAt (tokensText (patternIn body ++ arrowBehind)) 2
    (tokensText (patternIn body)) "  const g = () => this.x;" "\n\x7d" := by
  refine ⟨?_, ?_, ?_, by decide, by simp [AtLineEnd]⟩
  · rw [tokensText_append, tokensText_arrowBehind]
    rfl
  · rw [tokensText_patternIn, AtLineStart, List.getLast?_append, List.getLast?_append]
    simp
  · rw [tokensText_patternIn, List.count_append, List.count_append, List.count_eq_zero.2 hbody]
    rfl

/-- The arrow keeps the `this` around it behind a regular expression that the reader can read. -/
theorem declare_nested_patternIn : (lines (declare (tokensText (patternIn ['x'] ++ arrowBehind))))[2]? =
    some ("  const g = () => this.x;" : Text) := by
  have hbody : RegexBody false ['x'] := .char (by simp) .nil
  have hchars {w rest : Text} : Along Token.IsReadable (chars w) rest := along_chars fun _ _ _ => trivial
  have hreadable : Along Token.IsReadable (patternIn ['x'] ++ arrowBehind) [] := by
    simp only [patternIn, arrowBehind, along_append, along_cons]
    refine ⟨⟨hchars, trivial, hchars, ⟨by simp [isPlain], ?_⟩, hchars⟩, hchars, trivial, trivial⟩
    simp [Apart, OpensNone, chars, tokensText, Token.text]
  exact declare_nested (tokensFormed_patternIn (by simp) (by simp) hbody) hreadable nested_patternIn
    (lineAt_patternIn (by simp))

/-- An arrow loses the `this` around it: to the reader the brace in the regular expression ends the function. -/
theorem declare_brace_patternIn : TokensFormed (patternIn ['\x7d'] ++ arrowBehind) [] ∧
    Nested (patternIn ['\x7d'] ++ arrowBehind) (tokensText (patternIn ['\x7d'])) ∧
    LineAt (tokensText (patternIn ['\x7d'] ++ arrowBehind)) 2 (tokensText (patternIn ['\x7d']))
      "  const g = () => this.x;" "\n\x7d" ∧
    (lines (declare (tokensText (patternIn ['\x7d'] ++ arrowBehind))))[2]? =
      some ("  function g() \x7b return this.x; \x7d" : Text) := by
  have hbody : RegexBody false ['\x7d'] := .char (by simp) .nil
  have htext : tokensText (patternIn ['\x7d'] ++ arrowBehind) =
      "function f() \x7b\n  const close = /\x7d/;\n  const g = () => this.x;\n\x7d" := by
    rw [tokensText_append, tokensText_patternIn, tokensText_arrowBehind]
    rfl
  have hblocks : declareBlocks "function f() \x7b\n  const close = /\x7d/;\n  const g = () => this.x;\n\x7d" =
      "function f() \x7b\n  const close = /\x7d/;\n  const g = () => this.x;\n\x7d" := by
    simp only [String.reduceToList]
    decide +kernel
  have hexpressions : declareExpressions "function f() \x7b\n  const close = /\x7d/;\n  const g = () => this.x;\n\x7d" =
      "function f() \x7b\n  const close = /\x7d/;\n  function g() \x7b return this.x; \x7d\n\x7d" := by
    simp only [String.reduceToList]
    decide +kernel
  refine ⟨tokensFormed_patternIn (by simp) (by simp) hbody, nested_patternIn, lineAt_patternIn (by simp), ?_⟩
  rw [htext, declare, hblocks, hexpressions]
  simp only [String.reduceToList]
  decide +kernel

end AppsScript.Arrow
