import AppsScript.Proofs.Reading
import Mathlib.Data.List.TakeWhile

/-!
# What composed scans prefer

A composed scan that prefers some way has it from its parts: the last part prefers its share of it, behind a share that
the part in front can read (`ReadsFirst.exists_bind`). So a scan that ends with a repetition leaves nothing that the
repetition could still read (`IsGreedy`), and a repetition that prefers to stop has stopped at the first place that does
for the rest (`ReadsFirst.few_bind`).
-/

namespace AppsScript

namespace Scan

open Text Cursor

variable {α β γ : Type} {m n : Scan α} {f : α → Scan β} {p : Char → Bool} {pre w post t : Text} {a : α} {b : β}

theorem ReadsFirst.exists_bind (h : (m >>= f).ReadsFirst pre w post b) : ∃ u v a, w = u ++ v ∧
    m.Reads pre u (v ++ post) a ∧ (f a).ReadsFirst (pre ++ u) v post b := by
  rw [ReadsFirst, first?, run_bind, List.head?_flatMap] at h
  obtain ⟨⟨a, d⟩, hd, hb⟩ := List.exists_of_findSome?_eq_some h
  obtain ⟨u, t, hu, rfl⟩ := mem_run_between hd
  obtain ⟨v, post', rfl, hp⟩ := mem_run_between (List.mem_of_head? hb)
  obtain ⟨hw, rfl⟩ := between_inj.1 hp
  rw [List.append_assoc] at hw
  obtain rfl := List.append_cancel_left hw
  refine ⟨u, v, a, rfl, by rwa [Reads, ← hu], ?_⟩
  rw [ReadsFirst, first?, hb]
  simp

/-- What `m` prefers to read is not followed by a character of the class. -/
structure IsGreedy (p : Char → Bool) (m : Scan α) : Prop where
  stops : ∀ {pre w post a}, m.ReadsFirst pre w post a → ∀ c ∈ post.head?, ¬ p c

theorem IsGreedy.bind (hf : ∀ a, IsGreedy p (f a)) : IsGreedy p (m >>= f) := by
  refine ⟨fun {pre w post b} h => ?_⟩
  obtain ⟨u, v, a, rfl, -, hb⟩ := h.exists_bind
  exact (hf a).stops hb

theorem isGreedy_many_bind (a : α) : IsGreedy p (many p >>= fun _ => (Pure.pure a : Scan α)) := by
  refine ⟨fun {pre w post b} h => ?_⟩
  have hpost : ∀ c ∈ ((w ++ post).dropWhile p).head?, ¬ p c := by
    intro c hc
    have hnot := List.head?_dropWhile_not p (w ++ post)
    rw [Option.mem_def.1 hc] at hnot
    simpa using hnot
  have hall : (many p).ReadsFirst pre ((w ++ post).takeWhile p) ([] ++ (w ++ post).dropWhile p) () :=
    readsFirst_many (fun c hc => List.mem_takeWhile_imp hc) hpost
  have hfirst : (many p >>= fun _ => (Pure.pure a : Scan α)).ReadsFirst pre ((w ++ post).takeWhile p ++ [])
      ((w ++ post).dropWhile p) a := hall.bind readsFirst_pure
  obtain ⟨hw, -⟩ := h.unique hfirst (by simp)
  have hrest : post = (w ++ post).dropWhile p := by
    have hsplit : w ++ post = w ++ (w ++ post).dropWhile p := by
      nth_rewrite 2 [hw]
      simp
    exact List.append_cancel_left hsplit
  rwa [← hrest] at hpost

theorem run_few_nil : (few p).run (between pre []) = [((), between pre [])] := rfl

theorem run_few_cons {x : Char} : (few p).run (between pre (x :: t)) =
    ((), between pre (x :: t)) :: if p x then (few p).run (between (pre ++ [x]) t) else [] := by
  by_cases hx : p x <;> simp [few, stops, between, hx]

/-- A repetition that prefers to stop stops at the first place from which the rest can be read. -/
theorem ReadsFirst.few_bind {f : Unit → Scan β} (h : (few p >>= f).ReadsFirst pre w post b) :
    ∃ u v, w = u ++ v ∧ (∀ c ∈ u, p c) ∧ (f ()).ReadsFirst (pre ++ u) v post b ∧
      ∀ x y, u = x ++ y → y ≠ [] → (f ()).Fails (pre ++ x) (y ++ (v ++ post)) := by
  generalize ht : w ++ post = t
  induction t generalizing pre w with
  | nil =>
    rw [ReadsFirst, first?, run_bind, ht, run_few_nil, List.flatMap_singleton] at h
    refine ⟨[], w, rfl, by simp, ?_, by simp⟩
    rw [ReadsFirst, first?, ht, List.append_nil]
    exact h
  | cons x t ih =>
    rw [ReadsFirst, first?, run_bind, ht, run_few_cons, List.flatMap_cons] at h
    -- If the rest can be read here the repetition stops here, else it has to take `x` first.
    by_cases hfails : (f ()).Fails pre (x :: t)
    · have hx : p x := by
        by_contra hx
        rw [show (f ()).run _ = [] from hfails, if_neg hx] at h
        simp at h
      rw [show (f ()).run _ = [] from hfails, if_pos hx, List.nil_append, ← run_bind] at h
      obtain ⟨w', post', hw', hd⟩ := mem_run_between (List.mem_of_head? h)
      obtain ⟨hw, rfl⟩ := between_inj.1 hd
      obtain rfl : w = x :: w' := by simpa using hw
      have hrest : (few p >>= f).ReadsFirst (pre ++ [x]) w' post b := by
        rw [ReadsFirst, first?, ← hw', h]
        simp
      obtain ⟨u, v, rfl, hu, hb, hshort⟩ := ih hrest hw'.symm
      refine ⟨x :: u, v, rfl, by simpa [hx] using hu, by simpa using hb, ?_⟩
      rintro (_ | ⟨z, y⟩) s hsplit hs
      · rw [List.nil_append] at hsplit
        subst hsplit
        rw [List.append_nil]
        have hall : x :: u ++ (v ++ post) = x :: t := by rw [← ht]; simp
        rwa [hall]
      · obtain ⟨rfl, rfl⟩ := List.cons.inj hsplit
        simpa using hshort y s rfl hs
    · refine ⟨[], w, rfl, by simp, ?_, by simp⟩
      obtain ⟨r, rs, hr⟩ := List.exists_cons_of_ne_nil hfails
      rw [hr] at h
      rw [ReadsFirst, first?, ht, List.append_nil, hr]
      simpa using h

theorem run_bind_assoc {g : β → Scan γ} (c : Cursor) :
    ((m >>= f) >>= g).run c = (m >>= fun a => f a >>= g).run c := by
  simp only [run_bind, List.flatMap_assoc]

theorem isGreedy_many1_bind (a : α) : IsGreedy p (many1 p >>= fun _ => (Pure.pure a : Scan α)) := by
  refine ⟨fun {pre w post b} h => ?_⟩
  rw [ReadsFirst, first?, many1, run_bind_assoc] at h
  exact (IsGreedy.bind (m := char p) fun _ => isGreedy_many_bind a).stops h

theorem ReadsFirst.few1_bind {f : Unit → Scan β} (h : (few1 p >>= f).ReadsFirst pre w post b) :
    ∃ u v, w = u ++ v ∧ u ≠ [] ∧ (∀ c ∈ u, p c) ∧ (f ()).ReadsFirst (pre ++ u) v post b ∧
      ∀ x y, u = x ++ y → x ≠ [] → y ≠ [] → (f ()).Fails (pre ++ x) (y ++ (v ++ post)) := by
  rw [ReadsFirst, first?, few1, run_bind_assoc] at h
  obtain ⟨w₁, w₂, x, rfl, hx, hrest⟩ := ReadsFirst.exists_bind (m := char p) h
  obtain ⟨rfl, hpx⟩ := reads_char.1 hx
  obtain ⟨u, v, rfl, hu, hb, hshort⟩ := hrest.few_bind
  refine ⟨x :: u, v, rfl, by simp, by simpa [hpx] using hu, by simpa using hb, ?_⟩
  rintro (_ | ⟨z, y⟩) s hsplit hne hs
  · exact absurd rfl hne
  · obtain ⟨rfl, rfl⟩ := List.cons.inj hsplit
    simpa using hshort y s rfl hs

theorem readsFirst_few : (few p).ReadsFirst pre [] post () := by
  cases post with
  | nil => simp [ReadsFirst, first?, run_few_nil]
  | cons x post => simp [ReadsFirst, first?, run_few_cons]

theorem readsFirst_lineEnd (h : post.AtLineEnd) : lineEnd.ReadsFirst pre [] post () :=
  .of_unique (reads_lineEnd.2 ⟨rfl, h⟩) fun _ _ _ _ h => ⟨(reads_lineEnd.1 h).1, rfl⟩

end Scan

end AppsScript
