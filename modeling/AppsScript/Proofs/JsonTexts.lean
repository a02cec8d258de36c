import AppsScript.Json.Token
import AppsScript.Proofs.Texts
import Mathlib.Data.List.Chain
import Mathlib.Data.List.TakeDrop

/-!
# Texts of JSON values

JSON as its grammar has it: lexemes with their spelling (`Lexeme`), values as trees of them (`Doc`), and the
texts of a value, which have gaps between the lexemes (`Spaced`). A tree may hold commas behind the last
elements of its arrays and objects, which plain JSON does not have. `tokens` reads a plain text as the lexemes
of its tree (`tokens_spaced`).
-/

namespace AppsScript.Json

open Text

variable {t u g rest : Text} {c x : Char} {n : Nat} {units : List Unit16}

/-! ### Escapes -/

/-- Behind a backslash `c` stands for `x`. -/
inductive IsEscape : (c x : Char) → Prop
  | quote : IsEscape '"' '"'
  | backslash : IsEscape '\\' '\\'
  | slash : IsEscape '/' '/'
  | backspace : IsEscape 'b' '\x08'
  | formFeed : IsEscape 'f' '\x0c'
  | lineFeed : IsEscape 'n' '\n'
  | carriageReturn : IsEscape 'r' '\r'
  | tab : IsEscape 't' '\t'

theorem escaped?_eq_some_iff : escaped? c = some x ↔ IsEscape c x := by
  constructor
  · fun_cases escaped? c <;> rintro ⟨⟩ <;> constructor
  · rintro (_ | _) <;> rfl

/-- The hexadecimal digit of a number, with a letter of either case. -/
def IsHexDigit (c : Char) (n : Nat) : Prop := n < 16 ∧ (c = Nat.digitChar n ∨ c = (Nat.digitChar n).toUpper)

theorem toNat_lt_of_hexDigit? (h : hexDigit? c = some n) : c.toNat < 128 := by
  rw [hexDigit?] at h
  split_ifs at h with hdigit hlower hupper
  · exact toNat_lt_of_isAlphanum (by simp [Char.isAlphanum, hdigit])
  · exact Nat.lt_of_le_of_lt (Char.le_def.1 hlower.2) (by decide)
  · exact Nat.lt_of_le_of_lt (Char.le_def.1 hupper.2) (by decide)

theorem hexDigit?_eq_some_iff : hexDigit? c = some n ↔ IsHexDigit c n := by
  constructor
  · intro h
    have hall : ∀ i < 128, ∀ n ∈ hexDigit? (Char.ofNat i), n < 16 ∧
        (Char.ofNat i = Nat.digitChar n ∨ Char.ofNat i = (Nat.digitChar n).toUpper) := by decide
    have hlt := toNat_lt_of_hexDigit? h
    rw [← Char.ofNat_toNat c] at h ⊢
    exact hall c.toNat hlt n h
  · have hall : ∀ n < 16, hexDigit? (Nat.digitChar n) = some n ∧ hexDigit? (Nat.digitChar n).toUpper = some n := by
      decide
    rintro ⟨hn, rfl | rfl⟩
    · exact (hall n hn).1
    · exact (hall n hn).2

theorem IsHexDigit.ne (h : IsHexDigit c n) : c ≠ '"' ∧ c ≠ '\\' := by
  rw [← hexDigit?_eq_some_iff] at h
  constructor <;> rintro rfl <;> exact absurd h (by simp [hexDigit?])

/-- The number that four hexadecimal digits write. -/
def IsHex4 (a b c d : Char) (n : Nat) : Prop :=
  ∃ i j k l, IsHexDigit a i ∧ IsHexDigit b j ∧ IsHexDigit c k ∧ IsHexDigit d l ∧ n = ((i * 16 + j) * 16 + k) * 16 + l

theorem hex4?_eq_some_iff {a b c d : Char} : hex4? a b c d = some n ↔ IsHex4 a b c d n := by
  simp only [hex4?, Option.bind_eq_bind, Option.bind_eq_some_iff, hexDigit?_eq_some_iff, Option.some.injEq, IsHex4]
  constructor
  · rintro ⟨i, hi, j, hj, k, hk, l, hl, rfl⟩
    exact ⟨i, j, k, l, hi, hj, hk, hl, rfl⟩
  · rintro ⟨i, j, k, l, hi, hj, hk, hl, rfl⟩
    exact ⟨i, hi, j, hj, k, hk, l, hl, rfl⟩

/-! ### Lexemes -/

/-- What may stand between the quotes of a string. -/
inductive StringBody : Text → Prop
  | nil : StringBody []
  | plain {c : Char} {t : Text} (hcontrol : 0x20 ≤ c.toNat) (hquote : c ≠ '"') (hback : c ≠ '\\')
    (ht : StringBody t) : StringBody (c :: t)
  | escape {c x : Char} {t : Text} (hc : IsEscape c x) (ht : StringBody t) : StringBody ('\\' :: c :: t)
  | unit {a b c d : Char} {n : Nat} {t : Text} (hn : IsHex4 a b c d n) (ht : StringBody t) :
    StringBody ('\\' :: 'u' :: a :: b :: c :: d :: t)

/-- To one who passes over a string, escapes are pairs of characters and all else stands for itself. -/
theorem StringBody.passed {P : Text → Prop} (h : StringBody t) (nil : P [])
    (plain : ∀ c t, c ≠ '"' → c ≠ '\\' → P t → P (c :: t)) (escape : ∀ c t, P t → P ('\\' :: c :: t)) : P t := by
  induction h with
  | nil => exact nil
  | plain _ hquote hback _ ih => exact plain _ _ hquote hback ih
  | escape _ _ ih => exact escape _ _ ih
  | unit hn _ ih =>
    have hplain {x : Char} {n : Nat} {t : Text} (hx : IsHexDigit x n) : P t → P (x :: t) :=
      plain x t hx.ne.1 hx.ne.2
    obtain ⟨_, _, _, _, ha, hb, hc, hd, -⟩ := hn
    exact escape _ _ (hplain ha (hplain hb (hplain hc (hplain hd ih))))

/-- Decimal digits, at least one. -/
def IsDigits (t : Text) : Prop := t ≠ [] ∧ ∀ c ∈ t, c.isDigit

/-- Nothing, or a point and digits. -/
inductive IsFraction : Text → Prop
  | none : IsFraction []
  | some {digits : Text} (h : IsDigits digits) : IsFraction ('.' :: digits)

/-- Nothing, or a sign or none behind an `e`, and digits. -/
inductive IsExponent : Text → Prop
  | none : IsExponent []
  | some {e : Char} {sign digits : Text} (he : e = 'e' ∨ e = 'E') (hsign : sign = [] ∨ sign = ['+'] ∨ sign = ['-'])
    (h : IsDigits digits) : IsExponent (e :: (sign ++ digits))

/-- A number without leading zeros. -/
inductive IsNumber : Text → Prop
  | mk {sign whole fraction exponent : Text} (hsign : sign = [] ∨ sign = ['-']) (hwhole : IsDigits whole)
    (hzero : whole.head? = some '0' → whole = ['0']) (hfraction : IsFraction fraction)
    (hexponent : IsExponent exponent) : IsNumber (sign ++ (whole ++ (fraction ++ exponent)))

/-- A token as it is written. -/
inductive Lexeme
  | openBrace
  | closeBrace
  | openBracket
  | closeBracket
  | colon
  | comma
  | null
  | boolean (b : Bool)
  | number (spelling : Text) (h : IsNumber spelling)
  | text (body : Text) (h : StringBody body)

namespace Lexeme

def spelling : Lexeme → Text
  | openBrace => "\x7b"
  | closeBrace => "\x7d"
  | openBracket => "["
  | closeBracket => "]"
  | colon => ":"
  | comma => ","
  | null => "null"
  | boolean true => "true"
  | boolean false => "false"
  | number spelling _ => spelling
  | text body _ => '"' :: (body ++ ['"'])

/-- The lexeme ends an array or object. -/
def closes : Lexeme → Bool
  | closeBrace | closeBracket => true
  | _ => false

/-- The lexeme is no value. -/
def isMark : Lexeme → Bool
  | null | boolean _ | number .. | text .. => false
  | _ => true

/-- The token that the lexeme is read as. -/
def token (l : Lexeme) : Token := ((readToken? l.spelling).map Prod.fst).getD .invalid

end Lexeme

/-! ### Values -/

mutual

/-- A JSON value, and where a comma stands behind the last element of an array or object. -/
inductive Doc
  | scalar (l : Lexeme) (h : l.isMark = false)
  | emptyArray
  | emptyObject
  | array (elements : Elements)
  | object (members : Members)

/-- The elements of an array, at least one. -/
inductive Elements
  | last (doc : Doc) (comma : Bool)
  | cons (doc : Doc) (elements : Elements)

/-- The members of an object, at least one. -/
inductive Members
  | last (key : Text) (hkey : StringBody key) (doc : Doc) (comma : Bool)
  | cons (key : Text) (hkey : StringBody key) (doc : Doc) (members : Members)

end

/-- A comma or not. -/
def commaIf (b : Bool) : List Lexeme := if b then [.comma] else []

mutual

/-- The lexemes of a value, with the commas behind the last elements or, as plain JSON has it, without. -/
def Doc.lexemes (commas : Bool) : Doc → List Lexeme
  | .scalar l _ => [l]
  | .emptyArray => [.openBracket, .closeBracket]
  | .emptyObject => [.openBrace, .closeBrace]
  | .array elements => .openBracket :: (elements.lexemes commas ++ [.closeBracket])
  | .object members => .openBrace :: (members.lexemes commas ++ [.closeBrace])

def Elements.lexemes (commas : Bool) : Elements → List Lexeme
  | .last doc comma => doc.lexemes commas ++ commaIf (commas && comma)
  | .cons doc elements => doc.lexemes commas ++ .comma :: elements.lexemes commas

def Members.lexemes (commas : Bool) : Members → List Lexeme
  | .last key hkey doc comma => .text key hkey :: .colon :: (doc.lexemes commas ++ commaIf (commas && comma))
  | .cons key hkey doc members =>
    .text key hkey :: .colon :: (doc.lexemes commas ++ .comma :: members.lexemes commas)

end

/-- The tokens of a value in plain JSON. -/
def Doc.tokens (doc : Doc) : List Token := (doc.lexemes false).map Lexeme.token

/-- Two lexemes that are no marks are never neighbours. -/
def Apart (ls : List Lexeme) : Prop := ls.IsChain fun a b => a.isMark = true ∨ b.isMark = true

/-- A value does not run into what follows it. -/
def Ends (ls : List Lexeme) : Prop := ∀ l ∈ ls.head?, l.isMark = true

theorem apart_cons_of_isMark {l : Lexeme} {ls : List Lexeme} (hl : l.isMark = true) (h : Apart ls) :
    Apart (l :: ls) := by
  cases ls with
  | nil => exact .singleton l
  | cons k ls => exact .cons_cons (.inl hl) h

theorem apart_cons_of_ends {l : Lexeme} {ls : List Lexeme} (hls : Ends ls) (h : Apart ls) : Apart (l :: ls) := by
  cases ls with
  | nil => exact .singleton l
  | cons k ls => exact .cons_cons (.inr (hls k rfl)) h

theorem ends_cons {l : Lexeme} {ls : List Lexeme} (hl : l.isMark = true) : Ends (l :: ls) := by
  rintro _ ⟨⟩
  exact hl

theorem ends_commaIf {b : Bool} {ls : List Lexeme} (h : Ends ls) : Ends (commaIf b ++ ls) := by
  cases b
  · exact h
  · exact ends_cons rfl

theorem apart_commaIf {b : Bool} {ls : List Lexeme} (h : Apart ls) : Apart (commaIf b ++ ls) := by
  cases b
  · exact h
  · exact apart_cons_of_isMark rfl h

mutual

theorem Doc.apart_lexemes (commas : Bool) : ∀ (doc : Doc) {ls : List Lexeme}, Ends ls → Apart ls →
    Apart (doc.lexemes commas ++ ls)
  | .scalar _ _, _, hends, h => apart_cons_of_ends hends h
  | .emptyArray, _, _, h => apart_cons_of_isMark rfl (apart_cons_of_isMark rfl h)
  | .emptyObject, _, _, h => apart_cons_of_isMark rfl (apart_cons_of_isMark rfl h)
  | .array elements, ls, _, h => by
    rw [Doc.lexemes, List.cons_append, List.append_assoc]
    exact apart_cons_of_isMark rfl (elements.apart_lexemes commas (ends_cons rfl) (apart_cons_of_isMark rfl h))
  | .object members, ls, _, h => by
    rw [Doc.lexemes, List.cons_append, List.append_assoc]
    exact apart_cons_of_isMark rfl (members.apart_lexemes commas (ends_cons rfl) (apart_cons_of_isMark rfl h))

theorem Elements.apart_lexemes (commas : Bool) : ∀ (elements : Elements) {ls : List Lexeme}, Ends ls → Apart ls →
    Apart (elements.lexemes commas ++ ls)
  | .last doc comma, ls, hends, h => by
    rw [Elements.lexemes, List.append_assoc]
    exact doc.apart_lexemes commas (ends_commaIf hends) (apart_commaIf h)
  | .cons doc elements, ls, hends, h => by
    rw [Elements.lexemes, List.append_assoc]
    exact doc.apart_lexemes commas (ends_cons rfl)
      (apart_cons_of_isMark rfl (elements.apart_lexemes commas hends h))

theorem Members.apart_lexemes (commas : Bool) : ∀ (members : Members) {ls : List Lexeme}, Ends ls → Apart ls →
    Apart (members.lexemes commas ++ ls)
  | .last key hkey doc comma, ls, hends, h => by
    rw [Members.lexemes, List.cons_append, List.cons_append, List.append_assoc]
    exact apart_cons_of_ends (ends_cons rfl)
      (apart_cons_of_isMark rfl (doc.apart_lexemes commas (ends_commaIf hends) (apart_commaIf h)))
  | .cons key hkey doc members, ls, hends, h => by
    rw [Members.lexemes, List.cons_append, List.cons_append, List.append_assoc]
    exact apart_cons_of_ends (ends_cons rfl) (apart_cons_of_isMark rfl (doc.apart_lexemes commas (ends_cons rfl)
      (apart_cons_of_isMark rfl (members.apart_lexemes commas hends h))))

end

/-! ### Texts -/

/-- The text has the given lexemes, each behind a gap, and a gap behind the last. -/
inductive Spaced (IsGap : Text → Prop) : List Lexeme → Text → Prop
  | nil {g : Text} (hg : IsGap g) : Spaced IsGap [] g
  | cons {g t : Text} {l : Lexeme} {ls : List Lexeme} (hg : IsGap g) (ht : Spaced IsGap ls t) :
    Spaced IsGap (l :: ls) (g ++ (l.spelling ++ t))

/-- White space of JSON. -/
def IsSpace (c : Char) : Prop := c = ' ' ∨ c = '\n' ∨ c = '\t' ∨ c = '\r'

theorem isSpace_iff : isSpace c = true ↔ IsSpace c := by
  simp [isSpace, IsSpace, or_assoc]

def IsSpaces (g : Text) : Prop := ∀ c ∈ g, IsSpace c

/-- The text is valid JSON for a value: its lexemes with white space between them. -/
def IsText (doc : Doc) (t : Text) : Prop := Spaced IsSpaces (doc.lexemes false) t

theorem IsSpace.isBlank (h : IsSpace c) : isBlank c = true := by
  rcases h with rfl | rfl | rfl | rfl <;> decide

/-- A text that does not go on with a number. -/
def EndsNumber (rest : Text) : Prop := ∀ c ∈ rest.head?, ¬ c.isDigit ∧ c ≠ '.' ∧ c ≠ 'e' ∧ c ≠ 'E'

theorem spanDigits_append (ht : ∀ c ∈ t, c.isDigit) (hrest : ∀ c ∈ rest.head?, ¬ c.isDigit) :
    spanDigits (t ++ rest) = (t, rest) := by
  have htake := takeWhile_append ht hrest
  have hdrop : (t ++ rest).dropWhile Char.isDigit = rest := by
    have hsplit : (t ++ rest).takeWhile Char.isDigit ++ (t ++ rest).dropWhile Char.isDigit = t ++ rest :=
      List.takeWhile_append_dropWhile
    rw [htake] at hsplit
    exact List.append_cancel_left hsplit
  rw [spanDigits, List.span_eq_takeWhile_dropWhile, htake, hdrop]

theorem ne_of_isDigit {d : Char} (hc : c.isDigit) (hd : d.isDigit = false) : c ≠ d := by
  rintro rfl
  rw [hd] at hc
  exact absurd hc (by simp)

theorem exists_of_isDigits (h : IsDigits t) : ∃ c u, t = c :: u ∧ c.isDigit := by
  obtain ⟨c, u, rfl⟩ := List.exists_cons_of_ne_nil h.1
  exact ⟨c, u, rfl, h.2 c (by simp)⟩

theorem readFraction?_append (h : IsDigits t) (hrest : ∀ c ∈ rest.head?, ¬ c.isDigit) :
    readFraction? (t ++ rest) = some (t, rest) := by
  obtain ⟨c, u, rfl, -⟩ := exists_of_isDigits h
  rw [readFraction?, spanDigits_append h.2 hrest]

theorem readExponent?_append {sign : Text} (hsign : sign = [] ∨ sign = ['+'] ∨ sign = ['-']) (h : IsDigits t)
    (hrest : ∀ c ∈ rest.head?, ¬ c.isDigit) :
    readExponent? (sign ++ (t ++ rest)) = some ((sign == ['-'], t), rest) := by
  have hspan := spanDigits_append h.2 hrest
  obtain ⟨c, u, rfl, hc⟩ := exists_of_isDigits h
  rw [List.cons_append] at hspan
  rcases hsign with rfl | rfl | rfl
  · have hnot {s : Char} (hs : s.isDigit = false) : ∀ r, [] ++ (c :: u ++ rest) = s :: r → False :=
      fun r hr => ne_of_isDigit hc hs (List.cons.inj hr).1
    rw [readExponent?]
    · simp only [List.nil_append, List.cons_append, hspan]
      rfl
    · exact hnot rfl
    · exact hnot rfl
  · simp only [readExponent?, List.cons_append, List.nil_append, hspan]
    rfl
  · simp only [readExponent?, List.cons_append, List.nil_append, hspan]
    rfl

theorem EndsNumber.exponent {exponent : Text} (hrest : EndsNumber rest) (h : IsExponent exponent) :
    ∀ c ∈ (exponent ++ rest).head?, ¬ c.isDigit ∧ c ≠ '.' := by
  cases h with
  | none => exact fun c hc => ⟨(hrest c hc).1, (hrest c hc).2.1⟩
  | some he => rcases he with rfl | rfl <;> simp

theorem not_isDigit_fraction {fraction : Text} (h : IsFraction fraction) (hrest : ∀ c ∈ rest.head?, ¬ c.isDigit) :
    ∀ c ∈ (fraction ++ rest).head?, ¬ c.isDigit := by
  cases h with
  | none => exact hrest
  | some => simp

theorem exists_readFractionPart {fraction : Text} (h : IsFraction fraction) :
    ∃ f, ∀ rest : Text, (∀ c ∈ rest.head?, ¬ c.isDigit ∧ c ≠ '.') →
      readFractionPart? (fraction ++ rest) = some (f, rest) := by
  cases h with
  | none =>
    refine ⟨none, fun rest hrest => ?_⟩
    rw [List.nil_append, readFractionPart?]
    rintro r rfl
    exact (hrest '.' rfl).2 rfl
  | @some digits hdigits =>
    refine ⟨some digits, fun rest hrest => ?_⟩
    rw [List.cons_append, readFractionPart?, readFraction?_append hdigits fun c hc => (hrest c hc).1]
    rfl

theorem exists_readExponentPart {exponent : Text} (h : IsExponent exponent) :
    ∃ e, ∀ rest : Text, EndsNumber rest → readExponentPart? (exponent ++ rest) = some (e, rest) := by
  cases h with
  | none =>
    refine ⟨none, fun rest hrest => ?_⟩
    rw [List.nil_append, readExponentPart?]
    · rintro r rfl
      exact (hrest 'e' rfl).2.2.1 rfl
    · rintro r rfl
      exact (hrest 'E' rfl).2.2.2 rfl
  | @some e sign digits he hsign hdigits =>
    refine ⟨some (sign == ['-'], digits), fun rest hrest => ?_⟩
    have hread := readExponent?_append hsign hdigits fun c hc => (hrest c hc).1
    rcases he with rfl | rfl <;>
      rw [List.cons_append, List.append_assoc, readExponentPart?, hread] <;> rfl

theorem isWhole_of_isDigits (h : IsDigits t) (hzero : t.head? = some '0' → t = ['0']) : isWhole t = true := by
  obtain ⟨c, u, rfl, hc⟩ := exists_of_isDigits h
  by_cases hc0 : c = '0'
  · subst hc0
    rw [hzero rfl]
    rfl
  · rw [isWhole]
    · simp
    · intro x y heq
      exact hc0 (List.cons.inj heq).1

theorem exists_of_isNumber (h : IsNumber t) : ∃ c u, t = c :: u ∧ (c = '-' ∨ c.isDigit) := by
  obtain ⟨hsign, hwhole, -, -, -⟩ := h
  rcases hsign with rfl | rfl
  · obtain ⟨c, u, rfl, hc⟩ := exists_of_isDigits hwhole
    exact ⟨c, _, rfl, .inr hc⟩
  · exact ⟨'-', _, rfl, .inl rfl⟩

theorem exists_readNumber (h : IsNumber t) :
    ∃ n, ∀ rest, EndsNumber rest → Number.read? (t ++ rest) = some (n, rest) := by
  obtain @⟨sign, whole, fraction, exponent, hsign, hwhole, hzero, hfraction, hexponent⟩ := h
  obtain ⟨f, hf⟩ := exists_readFractionPart hfraction
  obtain ⟨e, he⟩ := exists_readExponentPart hexponent
  refine ⟨⟨sign == ['-'], whole, f, e⟩, fun rest hrest => ?_⟩
  have hdot := hrest.exponent hexponent
  have hspan : spanDigits (whole ++ (fraction ++ (exponent ++ rest))) = (whole, fraction ++ (exponent ++ rest)) :=
    spanDigits_append hwhole.2 (not_isDigit_fraction hfraction fun c hc => (hdot c hc).1)
  have hminus : readMinus (sign ++ (whole ++ (fraction ++ (exponent ++ rest)))) =
      (sign == ['-'], whole ++ (fraction ++ (exponent ++ rest))) := by
    rcases hsign with rfl | rfl
    · obtain ⟨c, u, rfl, hc⟩ := exists_of_isDigits hwhole
      rw [List.nil_append, readMinus]
      · rfl
      · exact fun r hr => ne_of_isDigit hc (show '-'.isDigit = false from rfl) (List.cons.inj hr).1
    · rfl
  simp only [Number.read?, List.append_assoc, hminus, hspan, isWhole_of_isDigits hwhole hzero, if_true, hf _ hdot,
    he rest hrest, Option.bind_eq_bind, Option.bind_some]

theorem exists_readToken_number (h : IsNumber t) :
    ∃ n, ∀ rest, EndsNumber rest → readToken? (t ++ rest) = some (.number n, rest) := by
  obtain ⟨n, hn⟩ := exists_readNumber h
  obtain ⟨c, u, rfl, hc⟩ := exists_of_isNumber h
  refine ⟨n, fun rest hrest => ?_⟩
  have hne {s : Char} (hs : ¬ (s = '-' ∨ s.isDigit)) {r : Text} : c :: u ++ rest ≠ s :: r := fun heq => by
    obtain ⟨rfl, -⟩ := List.cons.inj heq
    exact hs hc
  rw [readToken?, hn rest hrest]
  · rfl
  · exact List.cons_ne_nil _ _
  all_goals exact fun _ => hne (by decide)

/-- What stands between the quotes is read as characters and units. -/
inductive Writes : (body : Text) → List Unit16 → Prop
  | nil : Writes [] []
  | plain {c : Char} {t : Text} {units : List Unit16} (hcontrol : 0x20 ≤ c.toNat) (hquote : c ≠ '"') (hback : c ≠ '\\')
    (ht : Writes t units) : Writes (c :: t) (.char c :: units)
  | escape {c x : Char} {t : Text} {units : List Unit16} (hc : escaped? c = some x) (ht : Writes t units) :
    Writes ('\\' :: c :: t) (.char x :: units)
  | unit {a b c d : Char} {n : Nat} {t : Text} {units : List Unit16} (hn : hex4? a b c d = some n)
    (ht : Writes t units) : Writes ('\\' :: 'u' :: a :: b :: c :: d :: t) (.unit n :: units)

theorem exists_writes (h : StringBody t) : ∃ units, Writes t units := by
  induction h with
  | nil => exact ⟨[], .nil⟩
  | plain hcontrol hquote hback _ ih =>
    obtain ⟨units, ih⟩ := ih
    exact ⟨_, .plain hcontrol hquote hback ih⟩
  | escape hc _ ih =>
    obtain ⟨units, ih⟩ := ih
    exact ⟨_, .escape (escaped?_eq_some_iff.2 hc) ih⟩
  | unit hn _ ih =>
    obtain ⟨units, ih⟩ := ih
    exact ⟨_, .unit (hex4?_eq_some_iff.2 hn) ih⟩

/-- The inside of a string is read up to the quote that closes it. -/
theorem readString?_of_writes (h : Writes t units) (rest : Text) :
    readString? (t ++ '"' :: rest) = some (units, rest) := by
  induction h with
  | nil => rfl
  | @plain c t units hcontrol hquote hback ht ih =>
    rw [List.cons_append, readString?, if_neg (by simp [hback]; omega), ih]
    · rfl
    · exact hquote
    · exact fun _ _ _ _ _ hc _ => hback hc
    · exact fun _ _ hc _ => hback hc
  | @escape c x t units hx ht ih =>
    rw [List.cons_append, List.cons_append, readString?, hx]
    · simp [ih]
    · rintro _ _ _ _ _ rfl -
      exact absurd hx (by simp [escaped?])
  | @unit a b c d n t units hn ht ih => simp [readString?, hn, ih]

/-- What follows does not go on with the lexeme. -/
def Lexeme.EndsBefore (rest : Text) : Lexeme → Prop
  | .number .. => EndsNumber rest
  | _ => True

theorem exists_readToken (l : Lexeme) :
    ∃ token, ∀ rest, l.EndsBefore rest → readToken? (l.spelling ++ rest) = some (token, rest) := by
  cases l with
  | number spelling h =>
    obtain ⟨n, hn⟩ := exists_readToken_number h
    exact ⟨.number n, hn⟩
  | text body h =>
    obtain ⟨units, hunits⟩ := exists_writes h
    refine ⟨.text (ofUnits? units), fun rest _ => ?_⟩
    simp [Lexeme.spelling, readToken?, readString?_of_writes hunits]
  | boolean b => cases b <;> exact ⟨_, fun rest _ => rfl⟩
  | openBrace => exact ⟨_, fun rest _ => rfl⟩
  | closeBrace => exact ⟨_, fun rest _ => rfl⟩
  | openBracket => exact ⟨_, fun rest _ => rfl⟩
  | closeBracket => exact ⟨_, fun rest _ => rfl⟩
  | colon => exact ⟨_, fun rest _ => rfl⟩
  | comma => exact ⟨_, fun rest _ => rfl⟩
  | null => exact ⟨_, fun rest _ => rfl⟩

theorem readToken?_spelling {l : Lexeme} (h : l.EndsBefore rest) :
    readToken? (l.spelling ++ rest) = some (l.token, rest) := by
  obtain ⟨token, htoken⟩ := exists_readToken l
  have hnil : l.EndsBefore [] := by
    cases l with
    | number => exact fun c hc => absurd hc (by simp)
    | _ => trivial
  have hread := htoken [] hnil
  rw [List.append_nil] at hread
  rw [htoken rest h, Lexeme.token, hread]
  rfl

theorem exists_of_spelling (l : Lexeme) : ∃ c u, l.spelling = c :: u ∧ isBlank c = false := by
  cases l with
  | number spelling h =>
    obtain ⟨c, u, rfl, hc⟩ := exists_of_isNumber h
    refine ⟨c, u, rfl, ?_⟩
    rcases hc with rfl | hc
    · decide
    · have hword : isWord c := isWord_of_isAlphanum (by simp [Char.isAlphanum, hc])
      by_contra hblank
      rw [not_isWord_of_isBlank (by simpa using hblank)] at hword
      exact absurd hword (by simp)
  | boolean b => cases b <;> exact ⟨_, _, rfl, by decide⟩
  | _ => exact ⟨_, _, rfl, by decide⟩

variable {l : Lexeme} {ls : List Lexeme}

theorem solid_spelling (l : Lexeme) : Solid l.spelling := exists_of_spelling l

theorem IsSpaces.allBlank (h : IsSpaces g) : AllBlank g := fun c hc => (h c hc).isBlank

theorem IsSpaces.isSpace (h : IsSpaces g) : ∀ c ∈ g, isSpace c = true := fun c hc => isSpace_iff.2 (h c hc)

theorem dropWhile_isSpace (hg : IsSpaces g) (ht : Solid t) : (g ++ t).dropWhile isSpace = t := by
  obtain ⟨c, u, rfl, hc⟩ := ht
  rw [List.dropWhile_append_of_pos hg.isSpace, List.dropWhile_cons_of_neg]
  intro hspace
  rw [(isSpace_iff.1 hspace).isBlank] at hc
  exact absurd hc (by simp)

theorem endsNumber_spelling (hl : l.isMark = true) : EndsNumber (l.spelling ++ t) := by
  cases l with
  | null => simp [Lexeme.isMark] at hl
  | boolean => simp [Lexeme.isMark] at hl
  | number => simp [Lexeme.isMark] at hl
  | text => simp [Lexeme.isMark] at hl
  | _ => simp [EndsNumber, Lexeme.spelling]

theorem Spaced.endsNumber (h : Spaced IsSpaces ls t) (hends : Ends ls) : EndsNumber t := by
  have hspace {g : Text} (hg : IsSpaces g) : EndsNumber g := fun c hc => by
    rcases hg c (List.mem_of_head? hc) with rfl | rfl | rfl | rfl <;> decide
  cases h with
  | nil hg => exact hspace hg
  | @cons g t l ls hg ht =>
    cases g with
    | cons c g =>
      intro x hx
      exact hspace hg x (by simpa using hx)
    | nil =>
      exact endsNumber_spelling (hends l rfl)

theorem Spaced.length_le (h : Spaced IsSpaces ls t) : ls.length ≤ t.length := by
  induction h with
  | nil => exact Nat.zero_le _
  | @cons g t l ls hg ht ih =>
    obtain ⟨c, u, hc, -⟩ := exists_of_spelling l
    simp only [hc, List.length_cons, List.length_append]
    omega

/-- As many tokens are read as there are lexemes. -/
theorem tokensFrom_spaced (h : Spaced IsSpaces ls t) (hapart : Apart ls) {n : Nat} (hn : ls.length ≤ n) :
    tokensFrom n t = ls.map Lexeme.token := by
  induction h generalizing n with
  | @nil g hg =>
    cases n with
    | zero => rfl
    | succ n =>
      have hdrop : g.dropWhile isSpace = [] := List.dropWhile_eq_nil_iff.2 hg.isSpace
      rw [tokensFrom, hdrop]
      rfl
  | @cons g t l ls hg ht ih =>
    obtain ⟨n, rfl⟩ : ∃ m, n = m + 1 := ⟨n - 1, by simp at hn; omega⟩
    have hends : l.EndsBefore t := by
      cases l with
      | number =>
        refine ht.endsNumber fun k hk => ?_
        obtain ⟨ls, rfl⟩ := List.head?_eq_some_iff.1 hk
        exact (List.isChain_cons_cons.1 hapart).1.resolve_left (by simp [Lexeme.isMark])
      | _ => trivial
    obtain ⟨c, u, hc, -⟩ := (solid_spelling l).append t
    have hread := readToken?_spelling hends
    rw [tokensFrom, dropWhile_isSpace hg ((solid_spelling l).append t)]
    rw [hc] at hread ⊢
    simp only [hread, ih hapart.tail (Nat.le_of_succ_le_succ hn), List.map_cons]

theorem tokens_spaced (h : Spaced IsSpaces ls t) (hapart : Apart ls) : tokens t = ls.map Lexeme.token :=
  tokensFrom_spaced h hapart h.length_le

theorem tokens_of_isText {doc : Doc} (h : IsText doc t) : tokens t = doc.tokens := by
  refine tokens_spaced h ?_
  have hnil : Ends [] := fun l hl => absurd hl (by simp)
  simpa using doc.apart_lexemes false hnil .nil

end AppsScript.Json
