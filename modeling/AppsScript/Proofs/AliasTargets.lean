import AppsScript.Alias.Target
import AppsScript.Proofs.NormalForms

/-!
# Where alias targets lead

A target that is brought into normal form before the root of the project is known leads, from every root, to the
directory that is meant (`Alias.target_spec`): joining paths is associative, and of the second part of a joined
path only the normal form counts.
-/

namespace AppsScript

open Component

namespace Path

variable {p q r : Path}

theorem text_join (p : Path) (hq : q.isAbsolute = false) :
    (p.join q).text = p.text ++ (if p.text = [] ∨ p.text.getLast? = some '/' then [] else ['/']) ++ q.text := by
  rw [join, if_neg (by simp [hq])]
  split_ifs <;> simp

theorem ext_text (h : p.text = q.text) : p = q := by
  cases p
  cases q
  exact congrArg Path.mk h

theorem join_assoc (p q r : Path) : p.join (q.join r) = (p.join q).join r := by
  cases hr : r.isAbsolute with
  | true => rw [join_of_isAbsolute hr, join_of_isAbsolute hr, join_of_isAbsolute hr]
  | false =>
    cases hq : q.isAbsolute with
    | true => rw [join_of_isAbsolute hq, join_of_isAbsolute (isAbsolute_join hq r)]
    | false =>
      have hqr : (q.join r).isAbsolute = false := by rw [isAbsolute_join_of_isRelative hr, hq]
      refine ext_text ?_
      rw [text_join p hqr, text_join q hr, text_join _ hr, text_join p hq]
      by_cases hnil : q.text = []
      · rw [hnil]
        split_ifs <;> simp_all
      · have hlast (t : Text) : (t ++ q.text).getLast? = q.text.getLast? := by
          rw [List.getLast?_append, List.getLast?_eq_some_getLast hnil]
          rfl
        simp [hnil, hlast]

theorem normalize_behind_dot (hp : p.isAbsolute = false) : (⟨"./" ++ p.text⟩ : Path).normalize = p.normalize := by
  have hjoin : Path.join "." p = ⟨"./" ++ p.text⟩ := by
    refine ext_text ?_
    rw [text_join _ hp]
    rfl
  have hempty : Path.join "" p = p := by
    refine ext_text ?_
    rw [text_join _ hp]
    rfl
  have hdot : Path.normalize "." = "" := by decide
  rw [← hjoin, ← normalize_join_left, hdot, hempty]

end Path

namespace Alias

variable {dir : Text}

theorem isExplicit_iff : isExplicit dir = true ↔ ("/" : Text) <+: dir ∨ ("../" : Text) <+: dir ∨ dir = ".." := by
  have hafter (start : Text) : (Text.after? start dir).isSome = true ↔ start <+: dir := by
    rw [Option.isSome_iff_exists]
    exact exists_congr fun rest => by rw [Text.after?_eq_some_iff, eq_comm]
  have hslash : dir.head? = some '/' ↔ ("/" : Text) <+: dir := by
    rw [List.head?_eq_some_iff]
    exact exists_congr fun rest => eq_comm
  rw [isExplicit, Bool.or_eq_true, Bool.or_eq_true, beq_iff_eq, beq_iff_eq, hafter, hslash, or_assoc]

theorem isAbsolute_of_not_isExplicit (h : isExplicit dir = false) : Path.isAbsolute ⟨dir⟩ = false := by
  rw [isExplicit, Bool.or_eq_false_iff, Bool.or_eq_false_iff] at h
  exact h.1.1

/-- What a target means: the part in front of a wildcard, or all of it, and nothing if that is a star alone. -/
def meantDir (text : Text) : Text :=
  let dir := if ("/*" : Text) <:+ text then text.take (text.length - 2) else text
  if dir = "*" then [] else dir

theorem wildcardEnding_eq : wildcardEnding = "/*" := rfl

theorem dropEnding_wildcardEnding (text : Text) : Text.dropEnding wildcardEnding text =
    if ("/*" : Text) <:+ text then text.take (text.length - 2) else text := by
  rw [wildcardEnding_eq, Text.dropEnding]
  split_ifs with hwild
  · obtain ⟨dir, rfl⟩ := hwild
    have hsome : Text.before? "/*" (dir ++ "/*") = some dir := Text.before?_eq_some_iff.2 rfl
    rw [hsome, Option.getD_some]
    simp
  · have hnone : Text.before? "/*" text = none := by
      rw [Option.eq_none_iff_forall_ne_some]
      intro dir hdir
      exact hwild ⟨dir, (Text.before?_eq_some_iff.1 hdir).symm⟩
    rw [hnone, Option.getD_none]

theorem targetDir_eq (text : Text) : targetDir text = meantDir text := by
  rw [targetDir, dropEnding_wildcardEnding]
  rfl

/-- An absolute target is the target of the alias as it is written. From any other one comes a path that tells
that it is one, and that leads from every root to where the target leads from the base. -/
theorem target_spec (baseUrl text : Text) :
    (Path.isAbsolute ⟨meantDir text⟩ = true → target baseUrl text = meantDir text) ∧
    (Path.isAbsolute ⟨meantDir text⟩ = false →
      (("./" : Text) <+: target baseUrl text ∨ ("../" : Text) <+: target baseUrl text ∨
        ("/" : Text) <+: target baseUrl text ∨ target baseUrl text = "..") ∧
      ∀ root : Path, (root.join ⟨target baseUrl text⟩).normalize =
        ((root.join ⟨baseUrl⟩).join ⟨meantDir text⟩).normalize) := by
  refine ⟨fun habs => by rw [target, targetDir_eq]; exact if_pos habs, fun hrel => ?_⟩
  generalize hresolved : (Path.join ⟨baseUrl⟩ ⟨meantDir text⟩).normalize = resolved
  have htarget : target baseUrl text =
      if isExplicit resolved.text then resolved.text else "./" ++ resolved.text := by
    rw [← hresolved, target, targetDir_eq]
    exact if_neg (by simp [hrel])
  have hleads (root : Path) : (root.join resolved).normalize =
      ((root.join ⟨baseUrl⟩).join ⟨meantDir text⟩).normalize := by
    rw [← hresolved, Path.normalize_join_right, Path.join_assoc]
  cases hexplicit : isExplicit resolved.text with
  | true =>
    rw [hexplicit, if_pos rfl] at htarget
    rw [htarget]
    refine ⟨?_, hleads⟩
    rcases isExplicit_iff.1 hexplicit with h | h | h
    · exact .inr (.inr (.inl h))
    · exact .inr (.inl h)
    · exact .inr (.inr (.inr h))
  | false =>
    rw [hexplicit, if_neg Bool.false_ne_true] at htarget
    rw [htarget]
    refine ⟨.inl (List.prefix_append _ _), fun root => ?_⟩
    rw [← Path.normalize_join_right, Path.normalize_behind_dot (isAbsolute_of_not_isExplicit hexplicit),
      Path.normalize_join_right, hleads]

/-- A target that climbs out of its base, and an absolute one. -/
theorem target_spec_climbing :
    (Path.isAbsolute ⟨meantDir "/lib/*"⟩ = true ∧ target "src" "/lib/*" = "/lib") ∧
    Path.isAbsolute ⟨meantDir "../../shared/*"⟩ = false ∧ target "./src" "../../shared/*" = "../shared" ∧
    (Path.join "/p/q" ⟨target "./src" "../../shared/*"⟩).normalize =
      ((Path.join "/p/q" "./src").join ⟨meantDir "../../shared/*"⟩).normalize :=
  ⟨⟨by decide, (target_spec "src" "/lib/*").1 (by decide)⟩, by decide, by decide,
    ((target_spec "./src" "../../shared/*").2 (by decide)).2 "/p/q"⟩

end Alias

end AppsScript
