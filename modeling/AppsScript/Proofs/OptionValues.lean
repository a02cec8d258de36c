import AppsScript.Options.Decode
import AppsScript.Proofs.SpelledStrings

/-!
# Values of options

What a JSON value says: a flag, a text, texts or pairs of texts. A reader of one of these takes the tokens of a value
that says it, and fails at every other value (`Options.Reads`).
-/

namespace AppsScript

namespace Json

variable {t : Text} {doc : Doc} {rest : List Token}

/-! ### The tokens of a value -/

/-- A member of an object. -/
structure Entry where
  key : Text
  hkey : StringBody key
  doc : Doc

def Entry.tokens (entry : Entry) : List Token := (Lexeme.text entry.key entry.hkey).token :: .colon :: entry.doc.tokens

def Elements.docs : Elements → List Doc
  | .last doc _ => [doc]
  | .cons doc elements => doc :: elements.docs

def Members.entries : Members → List Entry
  | .last key hkey doc _ => [⟨key, hkey, doc⟩]
  | .cons key hkey doc members => ⟨key, hkey, doc⟩ :: members.entries

/-- What goes on behind the first element or member up to the end, and the tokens behind it. -/
def goOn (close : Token) : List (List Token) → List Token → List Token
  | [], rest => close :: rest
  | item :: items, rest => .comma :: (item ++ goOn close items rest)

theorem Elements.exists_docs : ∀ elements : Elements, ∃ doc docs, elements.docs = doc :: docs ∧ ∀ rest,
    (elements.lexemes false).map Lexeme.token ++ .closeBracket :: rest =
      doc.tokens ++ goOn .closeBracket (docs.map Doc.tokens) rest
  | .last doc comma => by
    refine ⟨doc, [], rfl, fun rest => ?_⟩
    rw [Elements.lexemes, Bool.false_and, show commaIf false = [] from rfl, List.append_nil]
    rfl
  | .cons doc elements => by
    obtain ⟨next, docs, hdocs, htokens⟩ := elements.exists_docs
    refine ⟨doc, next :: docs, congrArg _ hdocs, fun rest => ?_⟩
    rw [Elements.lexemes, List.map_append, List.append_assoc, List.map_cons, List.cons_append, htokens]
    rfl

theorem tokens_array (elements : Elements) : ∃ doc docs, elements.docs = doc :: docs ∧ ∀ rest,
    (Doc.array elements).tokens ++ rest =
      .openBracket :: (doc.tokens ++ goOn .closeBracket (docs.map Doc.tokens) rest) := by
  obtain ⟨doc, docs, hdocs, htokens⟩ := elements.exists_docs
  refine ⟨doc, docs, hdocs, fun rest => ?_⟩
  rw [← htokens, Doc.tokens, Doc.lexemes, List.map_cons, List.map_append, List.cons_append, List.append_assoc]
  rfl

theorem Members.exists_entries : ∀ members : Members, ∃ entry entries, members.entries = entry :: entries ∧ ∀ rest,
    (members.lexemes false).map Lexeme.token ++ .closeBrace :: rest =
      entry.tokens ++ goOn .closeBrace (entries.map Entry.tokens) rest
  | .last key hkey doc comma => by
    refine ⟨⟨key, hkey, doc⟩, [], rfl, fun rest => ?_⟩
    rw [Members.lexemes, Bool.false_and, show commaIf false = [] from rfl, List.append_nil]
    rfl
  | .cons key hkey doc members => by
    obtain ⟨next, entries, hentries, htokens⟩ := members.exists_entries
    refine ⟨⟨key, hkey, doc⟩, next :: entries, congrArg _ hentries, fun rest => ?_⟩
    rw [Members.lexemes, List.map_cons, List.map_cons, List.map_append, List.cons_append, List.cons_append,
      List.append_assoc, List.map_cons, List.cons_append, htokens]
    rfl

theorem tokens_object (members : Members) : ∃ entry entries, members.entries = entry :: entries ∧ ∀ rest,
    (Doc.object members).tokens ++ rest =
      .openBrace :: (entry.tokens ++ goOn .closeBrace (entries.map Entry.tokens) rest) := by
  obtain ⟨entry, entries, hentries, htokens⟩ := members.exists_entries
  refine ⟨entry, entries, hentries, fun rest => ?_⟩
  rw [← htokens, Doc.tokens, Doc.lexemes, List.map_cons, List.map_append, List.cons_append, List.append_assoc]
  rfl

theorem exists_token_number (h : IsNumber t) : ∃ n, (Lexeme.number t h).token = .number n := by
  obtain ⟨n, hn⟩ := exists_readToken_number h
  have hread := hn [] (by simp [EndsNumber])
  rw [List.append_nil] at hread
  exact ⟨n, by rw [Lexeme.token, Lexeme.spelling, hread]; rfl⟩

/-- A value in front of other tokens. -/
inductive Before : (doc : Doc) → (rest tokens : List Token) → Prop
  | null {rest : List Token} {h : Lexeme.null.isMark = false} : Before (.scalar .null h) rest (.null :: rest)
  | boolean {b : Bool} {rest : List Token} {h : (Lexeme.boolean b).isMark = false} :
    Before (.scalar (.boolean b) h) rest (.boolean b :: rest)
  | number {spelling : Text} {hspelling : IsNumber spelling} {n : Number} {rest : List Token}
    {h : (Lexeme.number spelling hspelling).isMark = false} :
    Before (.scalar (.number spelling hspelling) h) rest (.number n :: rest)
  | text {body : Text} {hbody : StringBody body} {v : Option Text} {rest : List Token}
    {h : (Lexeme.text body hbody).isMark = false} (hv : ∀ t, v = some t ↔ Spells body t) :
    Before (.scalar (.text body hbody) h) rest (.text v :: rest)
  | emptyArray {rest : List Token} : Before .emptyArray rest (.openBracket :: .closeBracket :: rest)
  | emptyObject {rest : List Token} : Before .emptyObject rest (.openBrace :: .closeBrace :: rest)
  | array {elements : Elements} {doc : Doc} {docs : List Doc} {rest : List Token} (h : elements.docs = doc :: docs) :
    Before (.array elements) rest (.openBracket :: (doc.tokens ++ goOn .closeBracket (docs.map Doc.tokens) rest))
  | object {members : Members} {entry : Entry} {entries : List Entry} {rest : List Token}
    (h : members.entries = entry :: entries) :
    Before (.object members) rest (.openBrace :: (entry.tokens ++ goOn .closeBrace (entries.map Entry.tokens) rest))

theorem before_tokens (doc : Doc) (rest : List Token) : Before doc rest (doc.tokens ++ rest) := by
  cases doc with
  | scalar l h =>
    cases l with
    | null => exact .null
    | boolean b => cases b <;> exact .boolean
    | number spelling hspelling =>
      obtain ⟨n, hn⟩ := exists_token_number hspelling
      rw [Doc.tokens, Doc.lexemes, List.map_singleton, hn]
      exact .number
    | text body hbody =>
      obtain ⟨units, hunits⟩ := exists_writes hbody
      have htoken := Lexeme.token_text hunits hbody
      rw [Doc.tokens, Doc.lexemes, List.map_singleton, htoken]
      refine .text fun t => ?_
      rw [← Lexeme.token_text_iff hbody, htoken, Token.text.injEq]
    | _ => cases h
  | emptyArray => exact .emptyArray
  | emptyObject => exact .emptyObject
  | array elements =>
    obtain ⟨doc, docs, hdocs, htokens⟩ := tokens_array elements
    rw [htokens]
    exact .array hdocs
  | object members =>
    obtain ⟨entry, entries, hentries, htokens⟩ := tokens_object members
    rw [htokens]
    exact .object hentries

theorem Before.ne_closeBracket {tokens more : List Token} (h : Before doc rest tokens) : tokens ≠ .closeBracket :: more := by
  cases h <;> simp

theorem key_or_not (entry : Entry) :
    (∃ k, (∀ u, Spells entry.key u ↔ u = k) ∧ (Lexeme.text entry.key entry.hkey).token = .text (some k)) ∨
      (∀ k, ¬ Spells entry.key k) ∧ (Lexeme.text entry.key entry.hkey).token = .text none := by
  obtain ⟨units, hunits⟩ := exists_writes entry.hkey
  have htoken := Lexeme.token_text hunits entry.hkey
  simp only [← Lexeme.token_text_iff entry.hkey, htoken, Token.text.injEq]
  cases ofUnits? units with
  | none => exact .inr ⟨by simp, rfl⟩
  | some k => exact .inl ⟨k, fun u => by rw [Option.some.injEq, eq_comm], rfl⟩

theorem Entry.ne_closeBrace (entry : Entry) (more : List Token) : entry.tokens ++ rest ≠ .closeBrace :: more := by
  rw [Entry.tokens]
  rcases key_or_not entry with ⟨k, -, htoken⟩ | ⟨-, htoken⟩ <;> simp [htoken]

end Json

open Json

namespace Options

variable {α : Type} {doc : Doc} {token : Token} {t : Text} {ts : List Text} {rest rest' tokens : List Token}
  {fault : DecodeError}

/-! ### Values -/

def SaysFlag : Doc → Bool → Prop
  | .scalar (.boolean b) _, b' => b' = b
  | _, _ => False

/-- The value is a string that spells the text. -/
def SaysText : Doc → Text → Prop
  | .scalar (.text body _) _, t => Spells body t
  | _, _ => False

/-- The value is an array of strings that spell the texts. -/
def SaysTexts : Doc → List Text → Prop
  | .emptyArray, ts => ts = []
  | .array elements, ts => List.Forall₂ SaysText elements.docs ts
  | _, _ => False

/-- The member has a key and a string, which spell a pair of texts. -/
def SaysPair (entry : Entry) (pair : Text × Text) : Prop := Spells entry.key pair.1 ∧ SaysText entry.doc pair.2

/-- The value is an object whose members spell the pairs of the map. -/
def SaysMap : Doc → AliasMap → Prop
  | .emptyObject, m => m = .empty
  | .object members, m => ∃ pairs, List.Forall₂ SaysPair members.entries pairs ∧ m = .ofList pairs
  | _, _ => False

/-- Of a value `read` reads what the value says and nothing else. -/
def Reads (read : List Token → Result (α × List Token)) (Says : Doc → α → Prop) : Prop :=
  ∀ {doc : Doc} {rest tokens : List Token}, Before doc rest tokens → ∀ a rest',
    read tokens = .ok (a, rest') ↔ Says doc a ∧ rest' = rest

theorem reads_flag : Reads readFlag SaysFlag := by
  intro doc rest tokens h b rest'
  cases h with
  | boolean => simp [readFlag, SaysFlag, eq_comm]
  | _ => simp [readFlag, SaysFlag]

theorem asText_eq_ok_iff : asText token = .ok t ↔ token = .text (some t) := by
  cases token with
  | text v => cases v <;> simp [asText]
  | _ => simp [asText]

theorem text_or_not (h : Before doc rest tokens) :
    (∃ t, (∀ u, SaysText doc u ↔ u = t) ∧ tokens = .text (some t) :: rest) ∨
      (∀ t, ¬ SaysText doc t) ∧ ∃ token more fault, tokens = token :: more ∧ asText token = .error fault := by
  cases h with
  | @text body hbody v rest hmark hv =>
    cases v with
    | none => exact .inr ⟨fun t ht => (nomatch (hv t).2 ht), _, _, _, rfl, rfl⟩
    | some t => exact .inl ⟨t, fun u => by simp only [SaysText, ← hv, Option.some.injEq, eq_comm], rfl⟩
  | _ => exact .inr ⟨fun t ht => ht, _, _, _, rfl, rfl⟩

theorem map_eq_ok_iff {β : Type} {x : Result α} {f : α → β} {r : β} : x.map f = .ok r ↔ ∃ a, x = .ok a ∧ f a = r := by
  cases x <;> simp [Except.map]

theorem reads_text : Reads readText SaysText := by
  intro doc rest tokens h t rest'
  rcases text_or_not h with ⟨u, hu, rfl⟩ | ⟨hnot, token, more, fault, rfl, htoken⟩
  · rw [readText, asText_eq_ok_iff.2 rfl, hu]
    simp [Except.map, eq_comm]
  · rw [readText, htoken]
    exact ⟨fun h => (nomatch h), fun h => (hnot t h.1).elim⟩

theorem readTextsFrom_of_error {more : List Token} (h : asText token = .error fault) :
    readTextsFrom (token :: more) = .error fault := by
  unfold readTextsFrom
  split <;> simp_all [bind, Except.bind]

theorem bind_eq_ok_iff {β : Type} {x : Result α} {f : α → Result β} {r : β} :
    (x >>= f) = .ok r ↔ ∃ a, x = .ok a ∧ f a = .ok r := by
  cases x with
  | error fault => simp [bind, Except.bind]
  | ok a => simp [bind, Except.bind]

theorem forall₂_cons_of_iff {β γ : Type} {R : β → γ → Prop} {b : β} {bs : List β} {c : γ} {cs : List γ}
    (h : ∀ c', R b c' ↔ c' = c) : List.Forall₂ R (b :: bs) cs ↔ ∃ tail, cs = c :: tail ∧ List.Forall₂ R bs tail := by
  rw [List.forall₂_cons_left_iff]
  constructor
  · rintro ⟨c', tail, hc', htail, rfl⟩
    exact ⟨tail, by rw [(h c').1 hc'], htail⟩
  · rintro ⟨tail, rfl, htail⟩
    exact ⟨c, tail, (h c).2 rfl, htail, rfl⟩

theorem map_read_iff {β : Type} {read : Result (α × List Token)} {P : α → Prop}
    (hread : ∀ a rest', read = .ok (a, rest') ↔ P a ∧ rest' = rest) (f : α → β) {b : β} :
    read.map (fun r => (f r.1, r.2)) = .ok (b, rest') ↔ (∃ a, b = f a ∧ P a) ∧ rest' = rest := by
  simp only [map_eq_ok_iff, Prod.exists, hread, Prod.mk.injEq]
  constructor
  · rintro ⟨a, _, ⟨ha, rfl⟩, rfl, rfl⟩
    exact ⟨⟨a, rfl, ha⟩, rfl⟩
  · rintro ⟨⟨a, rfl, ha⟩, rfl⟩
    exact ⟨a, _, ⟨ha, rfl⟩, rfl, rfl⟩

theorem readTextsFrom_goOn {docs : List Doc} (h : Before doc (goOn .closeBracket (docs.map Doc.tokens) rest) tokens) :
    readTextsFrom tokens = .ok (ts, rest') ↔ List.Forall₂ SaysText (doc :: docs) ts ∧ rest' = rest := by
  induction docs generalizing doc tokens ts rest' with
  | nil =>
    rcases text_or_not h with ⟨t, ht, rfl⟩ | ⟨hnot, token, more, fault, rfl, htoken⟩
    · rw [forall₂_cons_of_iff ht]
      simp [goOn, readTextsFrom, asText, pure, bind, Except.pure, Except.bind, eq_comm]
    · rw [readTextsFrom_of_error htoken, List.forall₂_cons_left_iff]
      simp [hnot]
  | cons next docs ih =>
    rcases text_or_not h with ⟨t, ht, rfl⟩ | ⟨hnot, token, more, fault, rfl, htoken⟩
    · rw [forall₂_cons_of_iff ht]
      exact map_read_iff (fun tail rest' => ih (before_tokens next _)) (t :: ·)
    · rw [readTextsFrom_of_error htoken, List.forall₂_cons_left_iff]
      simp [hnot]

theorem reads_texts : Reads readTexts SaysTexts := by
  intro doc rest tokens h ts rest'
  cases h with
  | emptyArray => simp [readTexts, SaysTexts, eq_comm]
  | @array elements doc docs rest hdocs =>
    have hbefore := before_tokens doc (goOn .closeBracket (docs.map Doc.tokens) rest)
    rw [SaysTexts, hdocs, readTexts, readTextsFrom_goOn hbefore]
    exact fun more => hbefore.ne_closeBracket
  | _ => simp [readTexts, SaysTexts]

theorem readPairsFrom_of_error {k : Text} {more : List Token} (h : asText token = .error fault) :
    readPairsFrom (.text (some k) :: .colon :: token :: more) = .error fault := by
  unfold readPairsFrom
  split <;> simp_all [bind, Except.bind]

theorem pair_or_not (entry : Entry) (rest : List Token) :
    (∃ pair, (∀ other, SaysPair entry other ↔ other = pair) ∧
        entry.tokens ++ rest = .text (some pair.1) :: .colon :: .text (some pair.2) :: rest) ∨
      (∀ pair, ¬ SaysPair entry pair) ∧ ∃ fault, readPairsFrom (entry.tokens ++ rest) = .error fault := by
  rw [Entry.tokens, List.cons_append, List.cons_append]
  rcases key_or_not entry with ⟨k, hk, htoken⟩ | ⟨hnot, htoken⟩
  · rw [htoken]
    rcases text_or_not (before_tokens entry.doc rest) with ⟨t, ht, hdoc⟩ | ⟨hnot, token, more, fault, hdoc, hfault⟩
    · refine .inl ⟨(k, t), fun other => ?_, by rw [hdoc]⟩
      rw [SaysPair, hk, ht, Prod.ext_iff]
    · rw [hdoc]
      exact .inr ⟨fun pair h => hnot _ h.2, fault, readPairsFrom_of_error hfault⟩
  · rw [htoken]
    exact .inr ⟨fun pair h => hnot _ h.1, .syntaxFault, by simp [readPairsFrom]⟩

theorem readPairsFrom_goOn (entry : Entry) (entries : List Entry) (pairs : List (Text × Text)) :
    readPairsFrom (entry.tokens ++ goOn .closeBrace (entries.map Entry.tokens) rest) = .ok (pairs, rest') ↔
      List.Forall₂ SaysPair (entry :: entries) pairs ∧ rest' = rest := by
  induction entries generalizing entry pairs rest' with
  | nil =>
    rcases pair_or_not entry (goOn .closeBrace ([].map Entry.tokens) rest) with
      ⟨pair, hpair, htokens⟩ | ⟨hnot, fault, hfault⟩
    · rw [forall₂_cons_of_iff hpair, htokens]
      simp [goOn, readPairsFrom, asText, pure, bind, Except.pure, Except.bind, eq_comm]
    · rw [hfault, List.forall₂_cons_left_iff]
      simp [hnot]
  | cons next entries ih =>
    rcases pair_or_not entry (goOn .closeBrace ((next :: entries).map Entry.tokens) rest) with
      ⟨pair, hpair, htokens⟩ | ⟨hnot, fault, hfault⟩
    · rw [forall₂_cons_of_iff hpair, htokens]
      exact map_read_iff (fun tail rest' => ih next tail) (pair :: ·)
    · rw [hfault, List.forall₂_cons_left_iff]
      simp [hnot]

theorem reads_map : Reads readMap SaysMap := by
  intro doc rest tokens h m rest'
  cases h with
  | emptyObject => simp [readMap, SaysMap, eq_comm]
  | @object members entry entries rest hentries =>
    rw [SaysMap, hentries, readMap]
    · simp only [and_comm (b := m = _)]
      exact map_read_iff (fun pairs rest' => readPairsFrom_goOn entry entries pairs) OrderedMap.ofList
    · exact fun more => entry.ne_closeBrace more
  | _ => simp [readMap, SaysMap]

/-- The value is `null`, or it says what is given. -/
def SaysOptional (Says : Doc → α → Prop) : Doc → Option α → Prop
  | .scalar .null _, a => a = none
  | doc, a => ∃ v, a = some v ∧ Says doc v

theorem reads_optional {read : List Token → Result (α × List Token)} {Says : Doc → α → Prop} (h : Reads read Says) :
    Reads (readOptional read) (SaysOptional Says) := by
  intro doc rest tokens hbefore a rest'
  have hread := h hbefore
  have hsome (tokens : List Token) (hread : ∀ a rest', read tokens = .ok (a, rest') ↔ Says doc a ∧ rest' = rest) :
      (read tokens).map (fun r => (some r.1, r.2)) = .ok (a, rest') ↔
        (∃ v, a = some v ∧ Says doc v) ∧ rest' = rest := map_read_iff hread some
  cases hbefore with
  | null => simp [readOptional, SaysOptional, eq_comm]
  | boolean => exact hsome _ hread
  | number => exact hsome _ hread
  | text => exact hsome _ hread
  | emptyArray => exact hsome _ hread
  | emptyObject => exact hsome _ hread
  | array => exact hsome _ hread
  | object => exact hsome _ hread

end Options

end AppsScript
