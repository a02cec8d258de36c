import AppsScript.Proofs.Editing
import AppsScript.Proofs.Texts
import AppsScript.Script.Logger

/-!
# Calls that are left to the console

`Redirected t` says that a call of the console in `t` has the end of a longer name in front of it.
`redirect` sees to that (`redirected_redirect`): what it puts is no call of the console, and does not
become one together with the text around it.
-/

namespace AppsScript.Logger

open Scan Text

variable {pre w post r t u v : Text} {e : Option Text}

/-- The methods of the console that the host's logger has too. -/
def methods : List Text := ["log", "warn", "error"]

/-- A call of the console is part of a longer name. -/
def Redirected (t : Text) : Prop := ∀ pre method post, t = pre ++ ("console." ++ (method ++ '(' :: post)) →
  method ∈ methods → ∃ c ∈ pre.getLast?, isAlphanumeric c ∨ c = '_' ∨ c = '$' ∨ c = '.'

theorem extendsName_iff {c : Char} : extendsName c = true ↔ isAlphanumeric c ∨ c = '_' ∨ c = '$' ∨ c = '.' := by
  simp [extendsName, or_assoc]

theorem reads_consoleCall : consoleCall.Reads pre w post e ↔
    ∃ method ∈ methods, w = "console." ++ (method ++ ['(']) ∧
      e = if pre.getLast?.any extendsName then none else some (Text.concat [host, ".", method, "("]) := by
  simp only [consoleCall, reads_bind, reads_here, reads_word, reads_oneOf, reads_pure]
  constructor
  · rintro ⟨_, _, _, rfl, ⟨rfl, rfl⟩, _, _, _, rfl, rfl, method, _, _, rfl, ⟨hm, rfl⟩, _, _, _, rfl, rfl,
      rfl, rfl⟩
    refine ⟨method, hm, by simp, ?_⟩
    rw [Cursor.before_between, List.head?_reverse]
  · rintro ⟨method, hm, rfl, rfl⟩
    refine ⟨[], _, _, rfl, ⟨rfl, rfl⟩, _, method ++ ['('], (), rfl, rfl, method, ['('], method, rfl,
      ⟨hm, rfl⟩, ['('], [], (), rfl, rfl, rfl, ?_⟩
    rw [Cursor.before_between, List.head?_reverse]

theorem hostCall_eq (method : Text) : Text.concat [host, ".", method, "("] = "Logger." ++ (method ++ ['(']) := rfl

theorem consumes_consoleCall : consoleCall.Consumes := by
  intro pre w post e h
  obtain ⟨method, -, rfl, -⟩ := reads_consoleCall.1 h
  simp

/-- What the pass changes: calls whose name stands for itself. -/
theorem changes_consoleCall (h : consoleCall.Changes pre w post r) :
    ∃ method ∈ methods, w = "console." ++ (method ++ ['(']) ∧ r = "Logger." ++ (method ++ ['(']) := by
  obtain ⟨method, hm, rfl, he⟩ := reads_consoleCall.1 h.reads
  refine ⟨method, hm, rfl, ?_⟩
  split_ifs at he
  rw [Option.some.inj he, hostCall_eq]

theorem extendsName_of_isAlphanum {c : Char} (h : c.isAlphanum) : extendsName c := by
  rw [extendsName, isAlphanumeric, if_pos (toNat_lt_of_isAlphanum h), h]
  rfl

theorem any_isAlphanum_of_changes (h : consoleCall.Changes pre w post r) :
    pre.getLast?.any Char.isAlphanum = false := by
  obtain ⟨method, -, -, he⟩ := reads_consoleCall.1 h.reads
  split_ifs at he with hguard
  by_contra hw
  obtain ⟨c, hc, hw⟩ := (Option.any_eq_true ..).1 (by simpa using hw)
  rw [hc, Option.any_some, extendsName_of_isAlphanum hw] at hguard
  exact hguard rfl

theorem head_of_changes (h : consoleCall.Changes pre w post r) : r.head? = some 'L' := by
  obtain ⟨method, -, -, rfl⟩ := changes_consoleCall h
  simp

theorem notMem_call {method : Text} (hm : method ∈ methods) :
    'L' ∉ ("console." : Text) ++ (method ++ ['(']) ∧
      'c' ∉ (("console." : Text) ++ (method ++ ['('])).tail ∧
      'c' ∉ (("Logger." : Text) ++ (method ++ ['('])).tail := by
  simp only [methods, List.mem_cons, List.not_mem_nil, or_false] at hm
  rcases hm with rfl | rfl | rfl <;> simp

theorem notMem_slash {method : Text} (hm : method ∈ methods) : '/' ∉ ("console." : Text) ++ (method ++ ['(']) := by
  simp only [methods, List.mem_cons, List.not_mem_nil, or_false] at hm
  rcases hm with rfl | rfl | rfl <;> simp

theorem getLast?_of_puts (h : consoleCall.Puts pre w post r) : r.getLast? = w.getLast? := by
  obtain ⟨e, he, rfl⟩ := h
  obtain ⟨method, -, rfl, rfl⟩ := reads_consoleCall.1 he.reads
  split_ifs
  · rfl
  · rw [Option.getD_some, hostCall_eq, ← List.append_assoc, ← List.append_assoc, List.getLast?_concat,
      List.getLast?_concat]

/-- A call of the console does not start inside a piece. -/
theorem not_inside_piece {r₁ r₂ v' : Text} (h : consoleCall.Puts pre w post (r₁ ++ r₂)) (h₁ : r₁ ≠ [])
    (h₂ : r₂ ≠ []) (hv : ("console." : Text) ++ v = r₂ ++ v') : False := by
  obtain ⟨e, he, hr⟩ := h
  obtain ⟨method, hm, rfl, rfl⟩ := reads_consoleCall.1 he.reads
  obtain ⟨-, hc, hc'⟩ := notMem_call hm
  have hhead : r₂.head? = some 'c' := by
    rw [← List.head?_append_of_ne_nil _ h₂, ← hv]
    rfl
  split_ifs at hr
  · exact head_ne_of_notMem_tail hc hr h₁ hhead
  · exact head_ne_of_notMem_tail hc' (by rwa [Option.getD_some, hostCall_eq] at hr) h₁ hhead

theorem redirected_redirect (t : Text) : Redirected (redirect t) := by
  intro u method post hout hm
  rcases (spliced_edit consoleCall t).split hout with ⟨x, y, rfl, hx, hy⟩ |
    ⟨x, w, y, u', r₁, r₂, v', -, -, -, hr, h₁, h₂, -, -, hv⟩
  · have hpre := hy.changes.prefix_of_notMem (q := ("console." : Text) ++ (method ++ ['(']))
      (v := post) (by simp) head_of_changes (notMem_call hm).1
    generalize hv : ("console." : Text) ++ (method ++ '(' :: post) = v at hy
    cases hy with
    | done => simp at hv
    | @keep _ t _ out c hc _ =>
      obtain ⟨z, hz, -⟩ := hpre
      rw [List.append_nil, List.nil_append] at hc
      have hfail := consumes_consoleCall.fails hc
      rw [fails_iff] at hfail
      exact absurd (reads_consoleCall.2 ⟨method, hm, rfl, rfl⟩) (hfail _ z _ hz)
    | @put _ w t _ r out hw hne _ =>
      obtain ⟨e, he, rfl⟩ := hw
      obtain ⟨method', hm', rfl, rfl⟩ := reads_consoleCall.1 he.reads
      split_ifs at hv with hguard
      · rw [List.nil_append, ← hx.getLast?_eq getLast?_of_puts, Option.any_eq_true] at hguard
        simp only [extendsName_iff] at hguard
        exact hguard
      · rw [Option.getD_some, hostCall_eq] at hv
        simp at hv
  · exact (not_inside_piece hr h₁ h₂ hv).elim

theorem redirect_of_redirected (ht : Redirected t) : redirect t = t := by
  refine (spliced_edit consoleCall t).changes.eq_of_forall fun x w y r heq hr => ?_
  obtain ⟨method, hm, rfl, he⟩ := reads_consoleCall.1 hr.reads
  split_ifs at he with hguard
  obtain ⟨c, hc, hextends⟩ := ht x method y (by simpa using heq) hm
  rw [List.nil_append, Option.any_eq_true] at hguard
  exact hguard ⟨c, hc, extendsName_iff.2 hextends⟩

end AppsScript.Logger
