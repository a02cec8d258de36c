import AppsScript.Proofs.LoggerCalls

/-!
# What redirecting does to each call

A text is a sequence of characters and of those calls of the console that stand for themselves (`Divides`). `redirect`
gives the same sequence with the host's logger in the calls, and no such call is left in it (`redirect_pieces`).
-/

namespace AppsScript.Logger

open Scan Text

variable {pre w post t x y out method method' : Text}

/-- A call of the console, up to its parenthesis. -/
def call (method : Text) : Text := Text.concat ["console.", method, "("]

/-- Behind `pre`, a call of the console is neither the end of a longer name nor a member of something. -/
def IsFree (pre method : Text) : Prop :=
  method ∈ methods ∧ ∀ c ∈ pre.getLast?, ¬ (isAlphanumeric c ∨ c = '_' ∨ c = '$' ∨ c = '.')

/-- A character that stays, or a call of the console that is redirected. -/
inductive Piece
  | char (c : Char)
  | call (method : Text)

namespace Piece

def text : Piece → Text
  | char c => [c]
  | call method => Logger.call method

def redirected : Piece → Text
  | char c => [c]
  | call method => Text.concat ["Logger.", method, "("]

def isCall : Piece → Bool
  | char _ => false
  | call _ => true

end Piece

variable {ps : List Piece}

/-- Behind `pre` the text `t` consists of the pieces, and all free calls in it are pieces. -/
inductive Divides : (pre : Text) → List Piece → (t : Text) → Prop
  | nil {pre : Text} : Divides pre [] []
  | char {pre t : Text} {c : Char} {ps : List Piece}
    (hc : ∀ method post, c :: t = call method ++ post → ¬ IsFree pre method)
    (h : Divides (pre ++ [c]) ps t) : Divides pre (.char c :: ps) (c :: t)
  | call {pre t method : Text} {ps : List Piece} (hfree : IsFree pre method)
    (h : Divides (pre ++ call method) ps t) : Divides pre (.call method :: ps) (call method ++ t)

theorem call_eq (method : Text) : call method = "console." ++ (method ++ ['(']) := by simp [call, Text.concat]

theorem call_append (method t : Text) : call method ++ t = "console." ++ (method ++ '(' :: t) := by
  simp [call, Text.concat]

theorem isFree_iff : IsFree pre method ↔ method ∈ methods ∧ pre.getLast?.any extendsName = false := by
  simp only [IsFree, ← extendsName_iff]
  cases pre.getLast? <;> simp

theorem call_unique (hm : method ∈ methods) (hm' : method' ∈ methods) (h : call method ++ x = call method' ++ y) :
    method = method' ∧ x = y := by
  have hparen : ∀ method ∈ methods, '(' ∉ method := by simp [methods]
  have heq : method ++ '(' :: x = method' ++ '(' :: y := by
    rw [call_append, call_append] at h
    exact List.append_cancel_left h
  rcases split_cons heq.symm with ⟨v, rfl, hv⟩ | ⟨v, rfl, hv⟩
  · cases v with
    | nil => exact ⟨by simp, (List.cons.inj hv).2⟩
    | cons c v =>
      obtain ⟨rfl, -⟩ := List.cons.inj hv
      exact absurd (by simp) (hparen _ hm')
  · exact absurd (by simp) (hparen _ hm)

/-- No call of the console starts inside another one. -/
theorem not_call_inside (hm : method ∈ methods) (h : call method = x ++ y) (hx : x ≠ []) (hy : y ≠ []) :
    y ++ t ≠ call method' ++ post := by
  intro heq
  have hhead : y.head? = some 'c' := by
    rw [← List.head?_append_of_ne_nil _ hy, heq, call_append]
    rfl
  exact head_ne_of_notMem_tail (notMem_call hm).2.1 (h.symm.trans (call_eq method)) hx hhead

namespace Divides

theorem eq_text (h : Divides pre ps t) : t = ps.flatMap Piece.text := by
  induction h with
  | nil => rfl
  | char _ _ ih => rw [List.flatMap_cons, ← ih]; rfl
  | call _ _ ih => rw [List.flatMap_cons, ← ih]; rfl

theorem chars (hw : ∀ u v, w = u ++ v → v ≠ [] → ∀ method post, v ++ t = Logger.call method ++ post →
      ¬ IsFree (pre ++ u) method) (h : Divides (pre ++ w) ps t) : Divides pre (w.map .char ++ ps) (w ++ t) := by
  induction w generalizing pre with
  | nil => simpa using h
  | cons c w ih =>
    refine .char (fun method post hcall => by simpa using hw [] (c :: w) rfl (by simp) method post hcall)
      (ih (fun u v huv hv method post hcall => ?_) (by simpa using h))
    simpa using hw (c :: u) v (by simp [huv]) hv method post hcall

/-- The free calls of a text are its pieces that are calls. -/
theorem isFree_iff_mem (h : Divides pre ps t) : t = x ++ (Logger.call method ++ y) ∧ IsFree (pre ++ x) method ↔
    ∃ before after, ps = before ++ .call method :: after ∧ x = before.flatMap Piece.text ∧
      y = after.flatMap Piece.text := by
  induction h generalizing x with
  | nil => simp [Logger.call, Text.concat]
  | @char pre t c ps hc h ih =>
    constructor
    · rintro ⟨ht, hfree⟩
      cases x with
      | nil => exact absurd (by simpa using hfree) (hc method y ht)
      | cons d x =>
        obtain ⟨rfl, htail⟩ := List.cons.inj ht
        obtain ⟨before, after, rfl, rfl, rfl⟩ := ih.1 ⟨htail, by simpa using hfree⟩
        exact ⟨.char c :: before, after, rfl, rfl, rfl⟩
    · rintro ⟨_ | ⟨p, before⟩, after, hps, rfl, rfl⟩
      · exact absurd (List.cons.inj hps).1 (by simp)
      · obtain ⟨rfl, rfl⟩ := List.cons.inj hps
        obtain ⟨ht, hfree⟩ := ih.2 ⟨before, after, rfl, rfl, rfl⟩
        exact ⟨by rw [ht]; rfl, by simpa [Piece.text] using hfree⟩
  | @call pre t method' ps hfree' h ih =>
    constructor
    · rintro ⟨ht, hfree⟩
      by_cases hx : x = []
      · subst hx
        obtain ⟨rfl, rfl⟩ := call_unique hfree'.1 hfree.1 ht
        exact ⟨[], ps, rfl, rfl, h.eq_text⟩
      -- A call stands behind this one: none starts inside another.
      rcases List.append_eq_append_iff.1 ht with ⟨z, rfl, hrest⟩ | ⟨z, hz, hrest⟩
      · obtain ⟨before, after, rfl, rfl, rfl⟩ := ih.1 ⟨hrest, by simpa using hfree⟩
        exact ⟨.call method' :: before, after, rfl, rfl, rfl⟩
      · by_cases hnil : z = []
        · obtain rfl : x = Logger.call method' := by simpa [hnil] using hz.symm
          have hstart : t = [] ++ (Logger.call method ++ y) := by simpa [hnil] using hrest.symm
          obtain ⟨before, after, rfl, hbefore, rfl⟩ := ih.1 ⟨hstart, by simpa using hfree⟩
          exact ⟨.call method' :: before, after, rfl, by simp [Piece.text, ← hbefore], rfl⟩
        · exact absurd hrest.symm (not_call_inside hfree'.1 hz hx hnil)
    · rintro ⟨_ | ⟨p, before⟩, after, hps, rfl, rfl⟩
      · obtain ⟨hp, rfl⟩ := List.cons.inj hps
        obtain rfl := Piece.call.inj hp
        exact ⟨by rw [h.eq_text]; rfl, by simpa using hfree'⟩
      · obtain ⟨rfl, rfl⟩ := List.cons.inj hps
        obtain ⟨ht, hfree⟩ := ih.2 ⟨before, after, rfl, rfl, rfl⟩
        exact ⟨by rw [ht]; simp [Piece.text], by simpa [Piece.text] using hfree⟩

end Divides

/-- The edit divides the text behind `pre`, and it puts the pieces redirected. -/
theorem exists_divides (h : Spliced consoleCall.Passes consoleCall.Puts pre t [] out) :
    ∃ ps, Divides pre ps t ∧ out = ps.flatMap Piece.redirected := by
  generalize hpost : ([] : Text) = post at h
  induction h with
  | done => exact ⟨[], .nil, rfl⟩
  | @keep pre t post out c hc _ ih =>
    subst hpost
    obtain ⟨ps, hps, rfl⟩ := ih rfl
    refine ⟨.char c :: ps, .char (fun method post hcall hfree => ?_) hps, rfl⟩
    rw [List.append_nil, hcall] at hc
    exact fails_iff.1 (consumes_consoleCall.fails hc) _ post _ rfl (reads_consoleCall.2 ⟨method, hfree.1, call_eq method, rfl⟩)
  | @put pre w t post r out hw _ _ ih =>
    subst hpost
    obtain ⟨e, he, rfl⟩ := hw
    obtain ⟨method, hm, hw, rfl⟩ := reads_consoleCall.1 he.reads
    obtain rfl := hw.trans (call_eq method).symm
    obtain ⟨ps, hps, rfl⟩ := ih rfl
    split_ifs with hguard
    · -- the call is the end of something longer, so all of its characters stay
      refine ⟨_, hps.chars fun u v huv hv method' post hcall => ?_, ?_⟩
      · cases u with
        | nil =>
          rw [isFree_iff, List.append_nil, hguard]
          simp
        | cons c u => exact absurd hcall (not_call_inside hm huv (by simp) hv)
      · have hchars (w : Text) : (w.map Piece.char).flatMap Piece.redirected = w := by
          induction w with
          | nil => rfl
          | cons c w ih => rw [List.map_cons, List.flatMap_cons, ih]; rfl
        rw [List.flatMap_append, hchars]
        rfl
    · exact ⟨.call method :: ps, .call (isFree_iff.2 ⟨hm, by simpa using hguard⟩) hps, rfl⟩

theorem length_pieces (ps : List Piece) :
    (ps.flatMap Piece.text).length = (ps.flatMap Piece.redirected).length + ps.countP Piece.isCall := by
  induction ps with
  | nil => rfl
  | cons p ps ih =>
    have hp : p.text.length = p.redirected.length + if p.isCall then 1 else 0 := by
      cases p with
      | char c => rfl
      | call method => simp [Piece.text, Piece.redirected, Piece.isCall, call, Text.concat]
    rw [List.flatMap_cons, List.flatMap_cons, List.length_append, List.length_append, ih, hp, List.countP_cons]
    omega

/-- Redirecting puts the host's logger into the free calls of a text, and into no others, and keeps every other
character. No free call is left then, so that redirecting again changes nothing, and each redirected call is shorter by
one character. -/
theorem redirect_pieces (t : Text) : ∃ ps : List Piece,
    t = ps.flatMap Piece.text ∧ redirect t = ps.flatMap Piece.redirected ∧
    (∀ pre method post, t = pre ++ (call method ++ post) ∧ IsFree pre method ↔
      ∃ before after, ps = before ++ .call method :: after ∧ pre = before.flatMap Piece.text ∧
        post = after.flatMap Piece.text) ∧
    (∀ pre method post, redirect t = pre ++ (call method ++ post) → ¬ IsFree pre method) ∧
    redirect (redirect t) = redirect t ∧ t.length = (redirect t).length + ps.countP Piece.isCall := by
  obtain ⟨ps, hps, hout⟩ := exists_divides (spliced_edit consoleCall t)
  have hredirect : redirect t = ps.flatMap Piece.redirected := hout
  refine ⟨ps, hps.eq_text, hredirect, fun pre method post => ?_, fun pre method post heq hfree => ?_,
    redirect_of_redirected (redirected_redirect t), ?_⟩
  · exact hps.isFree_iff_mem
  · obtain ⟨c, hc, hextends⟩ :=
      redirected_redirect t pre method post (heq.trans (by rw [call_append])) hfree.1
    have hguard := (isFree_iff.1 hfree).2
    rw [hc, Option.any_some, extendsName_iff.2 hextends] at hguard
    exact absurd hguard (by simp)
  · rw [hredirect, ← length_pieces, ← hps.eq_text]

end AppsScript.Logger
