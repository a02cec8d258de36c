import AppsScript.Proofs.DeclaredArrows
import AppsScript.Proofs.TriggerMarks
import AppsScript.Script.Chunk

/-!
# What holds of every adapted module and of every finished chunk

Each of the passes sees to one property of the text (`marked_mark`, `redirected_redirect`,
`unexported_remove`), and the passes behind it keep that property.
-/

namespace AppsScript

open Scan Text

variable {t : Text} {E : Text → Option Char → Prop}

/-! ### Redirecting calls -/

theorem Logger.unexported_redirect (hE : ModuleSyntax.Heads E) (ht : ModuleSyntax.Unexported E t) :
    ModuleSyntax.Unexported E (redirect t) := by
  have hz : ∀ kw ∈ ("export" :: ModuleSyntax.headWords : List Text), 'L' ∉ kw := by
    simp [ModuleSyntax.headWords, ModuleSyntax.declarationWords]
  refine ht.of_spliced hE (spliced_edit consoleCall t).changes (by decide) hz fun hr => ?_
  refine ⟨head_of_changes hr, fun c hc => ?_, any_isAlphanum_of_changes hr⟩
  obtain ⟨method, hm, -, rfl⟩ := changes_consoleCall hr
  have hall : ∀ method ∈ methods, '\n' ∉ method ∧ ';' ∉ method := by simp [methods]
  obtain ⟨hn, hs⟩ := hall method hm
  constructor <;> rintro rfl
  · simp [hn] at hc
  · simp [hs] at hc

/-! ### Marking triggers -/

namespace Trigger

open ModuleSyntax

variable {pre w post r name : Text}

theorem any_isAlphanum_of_changes (h : declarationHead.Changes pre w post r) :
    pre.getLast?.any Char.isAlphanum = false := by
  obtain ⟨s, name, s', -, -, -, -, -, hedge, -⟩ := changes_declarationHead h
  by_contra hw
  obtain ⟨c, hc, hw⟩ := (Option.any_eq_true ..).1 (by simpa using hw)
  rw [hc, Option.any_some, isWord_of_isAlphanum hw] at hedge
  exact absurd hedge (by simp)

theorem unexported_mark (hE : Heads E) (ht : Unexported E t) : Unexported E (mark t) := by
  have hz : ∀ kw ∈ ("export" :: headWords : List Text), '/' ∉ kw := by simp [headWords, declarationWords]
  refine ht.of_spliced hE (spliced_edit declarationHead t).changes (by decide) hz fun hr => ?_
  refine ⟨head_of_changes hr, fun c hc => ?_, any_isAlphanum_of_changes hr⟩
  obtain ⟨_, name, _, -, -, -, hn, -, -, rfl⟩ := changes_declarationHead hr
  constructor <;> rintro rfl
  · exact notMem_marking hn '\n' (by simp) hc
  · exact notMem_marking hn ';' (by simp) hc

theorem redirected_mark (ht : Logger.Redirected t) : Logger.Redirected (mark t) := by
  rintro u method post hout hm
  rcases (spliced_edit declarationHead t).changes.split hout with ⟨x, y, rfl, hx, hy⟩ |
    ⟨x, w, y, u', r₁, r₂, v', -, -, -, hr, h₁, h₂, -, -, hv⟩
  · obtain ⟨z, rfl, -⟩ := hy.prefix_of_notMem (q := ("console." : Text) ++ (method ++ ['('])) (v := post)
      (by simp) head_of_changes (Logger.notMem_slash hm)
    have hlast : u.getLast? = x.getLast? := hx.getLast?_eq fun hr => by
      obtain ⟨s, name, s', rfl, -, -, -, -, -, rfl⟩ := changes_declarationHead hr
      rw [getLast?_marking, getLast?_opening]
    rw [hlast]
    exact ht x method z (by simp) hm
  · -- a call would have its point in front of the parenthesis that the piece ends with
    obtain ⟨_, name, _, -, -, -, hn, -, -, hpiece⟩ := changes_declarationHead hr
    have hlast := getLast?_marking name
    rw [← hpiece, List.getLast?_append_of_ne_nil _ h₂] at hlast
    obtain ⟨p, rfl⟩ := List.getLast?_eq_some_iff.1 hlast
    obtain ⟨w, rfl, -⟩ := prefix_of_notMem (u := ("console." : Text)) (r := method ++ '(' :: post) (v := p)
      (c := '(') (s := v') (by simpa using hv) (by simp)
    refine absurd ?_ (notMem_marking hn '.' (by simp))
    rw [← hpiece]
    simp

end Trigger

/-! ### The passes together -/

/-- What the passes see to. -/
structure Adapted (settings : Settings) (t : Text) : Prop where
  /-- The declarations of triggers have their markers. -/
  marked : Trigger.Marked t
  /-- Calls of the console are redirected, if the settings ask for it. -/
  redirected : settings.transformLogger = true → Logger.Redirected t
  /-- Nothing is exported as the default. -/
  noDefault : ModuleSyntax.Unexported ModuleSyntax.DefaultHead t
  /-- No declaration is exported. -/
  noModifier : ModuleSyntax.Unexported ModuleSyntax.ModifierHead t

theorem redirectCalls_redirected {settings : Settings} (h : settings.transformLogger = true) (t : Text) :
    Logger.Redirected (redirectCalls settings t) := by
  rw [redirectCalls, if_pos h]
  exact Logger.redirected_redirect t

theorem redirectCalls_unexported (settings : Settings) (hE : ModuleSyntax.Heads E)
    (ht : ModuleSyntax.Unexported E t) : ModuleSyntax.Unexported E (redirectCalls settings t) := by
  rw [redirectCalls]
  split_ifs
  · exact Logger.unexported_redirect hE ht
  · exact ht

/-- Every adapted module and every finished chunk has its triggers marked, its calls redirected and its
declarations unexported, whatever the code was. -/
theorem adapted_of_passes (settings : Settings) (code : Text) :
    Adapted settings (adaptModule settings code) ∧ Adapted settings (finishChunk settings code) := by
  obtain ⟨hdefault, hmodifier⟩ := ModuleSyntax.unexported_remove code
  have hd := redirectCalls_unexported settings ModuleSyntax.heads_default hdefault
  have hm := redirectCalls_unexported settings ModuleSyntax.heads_modifier hmodifier
  have hr (h : settings.transformLogger = true) := redirectCalls_redirected h (ModuleSyntax.remove code)
  refine ⟨⟨Trigger.marked_mark _, fun h => Trigger.redirected_mark (hr h),
    Trigger.unexported_mark ModuleSyntax.heads_default hd,
    Trigger.unexported_mark ModuleSyntax.heads_modifier hm⟩, Trigger.marked_mark _, fun h => ?_, ?_, ?_⟩
  · exact Trigger.redirected_mark (Arrow.redirected_declare (hr h))
  · exact Trigger.unexported_mark ModuleSyntax.heads_default
      (Arrow.unexported_declare ModuleSyntax.heads_default hm hd)
  · exact Trigger.unexported_mark ModuleSyntax.heads_modifier
      (Arrow.unexported_declare ModuleSyntax.heads_modifier hm hm)

end AppsScript
