import AppsScript.Proofs.JsonTexts

/-!
# What strings of JSON spell

A text can stand between the quotes of a string in many ways: each character as itself or by an escape, those that the
numbers of JSON cannot reach by a pair of surrogates (`Spells`). The token of a string has the text that it spells
(`Lexeme.token_text_iff`).
-/

namespace AppsScript.Json

open Text

variable {t u : Text} {units : List Unit16} {n : Nat}

/-- What stands between the quotes spells a text. -/
inductive Spells : (body text : Text) → Prop
  | nil : Spells [] []
  | plain {c : Char} {t u : Text} (hcontrol : 0x20 ≤ c.toNat) (hquote : c ≠ '"') (hback : c ≠ '\\') (ht : Spells t u) :
    Spells (c :: t) (c :: u)
  | escape {c x : Char} {t u : Text} (hc : IsEscape c x) (ht : Spells t u) : Spells ('\\' :: c :: t) (x :: u)
  | unit {a b c d : Char} {n : Nat} {t u : Text} (hn : IsHex4 a b c d n) (hscalar : ¬ (0xd800 ≤ n ∧ n < 0xe000))
    (ht : Spells t u) : Spells ('\\' :: 'u' :: a :: b :: c :: d :: t) (Char.ofNat n :: u)
  | pair {a b c d a' b' c' d' : Char} {high low : Nat} {t u : Text} (hn : IsHex4 a b c d high)
    (hn' : IsHex4 a' b' c' d' low) (hhigh : 0xd800 ≤ high ∧ high < 0xdc00) (hlow : 0xdc00 ≤ low ∧ low < 0xe000)
    (ht : Spells t u) : Spells ('\\' :: 'u' :: a :: b :: c :: d :: '\\' :: 'u' :: a' :: b' :: c' :: d' :: t)
      (Char.ofNat (0x10000 + (high - 0xd800) * 0x400 + (low - 0xdc00)) :: u)

theorem ofUnits?_unit (hn : ¬ (0xd800 ≤ n ∧ n < 0xe000)) :
    ofUnits? (.unit n :: units) = (ofUnits? units).map (Char.ofNat n :: ·) := by
  cases units with
  | nil => simp only [ofUnits?, if_neg hn]
  | cons x units =>
    cases x with
    | char c => simp only [ofUnits?, if_neg hn]
    | unit low => rw [ofUnits?, if_neg (by omega), if_neg (by omega)]

theorem exists_writes_of_spells (h : Spells t u) : ∃ units, Writes t units ∧ ofUnits? units = some u := by
  induction h with
  | nil => exact ⟨[], .nil, rfl⟩
  | plain hcontrol hquote hback _ ih =>
    obtain ⟨units, hwrites, hunits⟩ := ih
    exact ⟨_, .plain hcontrol hquote hback hwrites, by rw [ofUnits?, hunits]; rfl⟩
  | escape hc _ ih =>
    obtain ⟨units, hwrites, hunits⟩ := ih
    exact ⟨_, .escape (escaped?_eq_some_iff.2 hc) hwrites, by rw [ofUnits?, hunits]; rfl⟩
  | unit hn hscalar _ ih =>
    obtain ⟨units, hwrites, hunits⟩ := ih
    exact ⟨_, .unit (hex4?_eq_some_iff.2 hn) hwrites, by rw [ofUnits?_unit hscalar, hunits]; rfl⟩
  | pair hn hn' hhigh hlow _ ih =>
    obtain ⟨units, hwrites, hunits⟩ := ih
    refine ⟨_, .unit (hex4?_eq_some_iff.2 hn) (.unit (hex4?_eq_some_iff.2 hn') hwrites), ?_⟩
    rw [ofUnits?, if_pos hhigh, if_pos hlow, hunits]
    rfl

theorem spells_of_writes (h : Writes t units) (hunits : ofUnits? units = some u) : Spells t u := by
  fun_induction ofUnits? units generalizing t u with
  | case1 =>
    cases h
    cases hunits
    exact .nil
  | case2 c units ih =>
    obtain ⟨u, hu, rfl⟩ := Option.map_eq_some_iff.1 hunits
    cases h with
    | plain hcontrol hquote hback ht => exact .plain hcontrol hquote hback (ih ht hu)
    | escape hc ht => exact .escape (escaped?_eq_some_iff.1 hc) (ih ht hu)
  | case3 high low units hhigh hlow ih =>
    obtain ⟨u, hu, rfl⟩ := Option.map_eq_some_iff.1 hunits
    cases h with
    | unit hn ht =>
      cases ht with
      | unit hn' ht => exact .pair (hex4?_eq_some_iff.1 hn) (hex4?_eq_some_iff.1 hn') hhigh hlow (ih ht hu)
  | case4 => cases hunits
  | case5 => cases hunits
  | case6 high low units hhigh hlow ih =>
    obtain ⟨u, hu, rfl⟩ := Option.map_eq_some_iff.1 hunits
    cases h with
    | unit hn ht => exact .unit (hex4?_eq_some_iff.1 hn) (by omega) (ih ht hu)
  | case7 => cases hunits
  | case8 n units hnext hscalar ih =>
    obtain ⟨u, hu, rfl⟩ := Option.map_eq_some_iff.1 hunits
    cases h with
    | unit hn ht => exact .unit (hex4?_eq_some_iff.1 hn) hscalar (ih ht hu)

theorem StringBody.of_spells (h : Spells t u) : StringBody t := by
  induction h with
  | nil => exact .nil
  | plain hcontrol hquote hback _ ih => exact .plain hcontrol hquote hback ih
  | escape hc _ ih => exact .escape hc ih
  | unit hn _ _ ih => exact .unit hn ih
  | pair hn hn' _ _ _ ih => exact .unit hn (.unit hn' ih)

theorem Lexeme.token_text (h : Writes t units) (hbody : StringBody t) :
    (Lexeme.text t hbody).token = .text (ofUnits? units) := by
  have hread := readString?_of_writes h []
  rw [Lexeme.token, Lexeme.spelling, readToken?, hread]
  rfl

theorem Lexeme.token_text_iff (h : StringBody t) : (Lexeme.text t h).token = .text (some u) ↔ Spells t u := by
  constructor
  · intro htoken
    obtain ⟨units, hunits⟩ := exists_writes h
    rw [Lexeme.token_text hunits, Token.text.injEq] at htoken
    exact spells_of_writes hunits htoken
  · intro hspells
    obtain ⟨units, hunits, hu⟩ := exists_writes_of_spells hspells
    rw [Lexeme.token_text hunits, hu]

theorem Spells.unique {u' : Text} (h : Spells t u) (h' : Spells t u') : u = u' := by
  have htoken := (Lexeme.token_text_iff (.of_spells h)).2 h
  rw [(Lexeme.token_text_iff (.of_spells h)).2 h'] at htoken
  exact (Option.some.inj (Token.text.inj htoken)).symm

/-- A character that needs no escape. -/
def isPlainChar (c : Char) : Bool := 0x20 ≤ c.toNat && c != '"' && c != '\\'

theorem Spells.append {t' u' : Text} (h : Spells t u) (h' : Spells t' u') : Spells (t ++ t') (u ++ u') := by
  induction h with
  | nil => exact h'
  | plain hcontrol hquote hback _ ih => exact .plain hcontrol hquote hback ih
  | escape hc _ ih => exact .escape hc ih
  | unit hn hscalar _ ih => exact .unit hn hscalar ih
  | pair hn hn' hhigh hlow _ ih => exact .pair hn hn' hhigh hlow ih

theorem spells_self (h : t.all isPlainChar = true) : Spells t t := by
  induction t with
  | nil => exact .nil
  | cons c t ih =>
    simp only [List.all_cons, isPlainChar, Bool.and_eq_true, decide_eq_true_eq, bne_iff_ne] at h
    obtain ⟨⟨⟨hcontrol, hquote⟩, hback⟩, ht⟩ := h
    exact .plain hcontrol hquote hback (ih ht)

theorem hex4?_control : ∀ n < 0x20, hex4? '0' '0' (if n < 16 then '0' else '1') (Nat.digitChar (n % 16)) = some n := by
  decide

/-- Every text can be spelled: control characters by their numbers, quotes and backslashes behind a backslash. -/
theorem exists_spells (u : Text) : ∃ t, Spells t u := by
  induction u with
  | nil => exact ⟨[], .nil⟩
  | cons c u ih =>
    obtain ⟨t, ht⟩ := ih
    by_cases hcontrol : c.toNat < 0x20
    · have hspells := Spells.unit (hex4?_eq_some_iff.1 (hex4?_control c.toNat hcontrol)) (by omega) ht
      rw [Char.ofNat_toNat] at hspells
      exact ⟨_, hspells⟩
    · by_cases hquote : c = '"'
      · subst hquote
        exact ⟨'\\' :: '"' :: t, .escape .quote ht⟩
      · by_cases hback : c = '\\'
        · subst hback
          exact ⟨'\\' :: '\\' :: t, .escape .backslash ht⟩
        · exact ⟨_, .plain (by omega) hquote hback ht⟩

end AppsScript.Json
