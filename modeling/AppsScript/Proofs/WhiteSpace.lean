import AppsScript.Proofs.ModuleForms

/-!
# Parts that do not start with white space

Most parts of a statement start with a character that is not white space (`ReadsSolid`). The repetition in front of
such a part has to read all of the white space there.
-/

namespace AppsScript

namespace Scan

open Text

variable {α β : Type} {m n : Scan α} {f : α → Scan β} {pre t : Text} {c : Char} {w : Text}

/-- Whatever the scan reads starts with a character that is not white space. -/
structure ReadsSolid (m : Scan α) : Prop where
  solid : ∀ {pre w post a}, m.Reads pre w post a → Solid w

theorem ReadsSolid.fails (hm : ReadsSolid m) (hc : isBlank c = true) : m.Fails pre (c :: t) := by
  rw [fails_iff]
  rintro w post a hw h
  obtain ⟨d, v, rfl, hd⟩ := hm.solid h
  obtain ⟨rfl, -⟩ := List.cons.inj hw
  rw [hc] at hd
  exact absurd hd (by simp)

theorem ReadsSolid.bind (hm : ReadsSolid m) : ReadsSolid (m >>= f) := by
  refine ⟨fun {pre w post b} h => ?_⟩
  obtain ⟨u, v, a, rfl, hu, -⟩ := reads_bind.1 h
  exact (hm.solid hu).append v

theorem ReadsSolid.or (hm : ReadsSolid m) (hn : ReadsSolid n) : ReadsSolid (m <|> n) :=
  ⟨fun h => (reads_or.1 h).elim hm.solid hn.solid⟩

theorem ReadsSolid.maybe_bind {q : Option α → Scan β} (hm : ReadsSolid m) (hq : ReadsSolid (q none)) :
    ReadsSolid (m.maybe >>= q) := by
  refine ⟨fun {pre w post b} h => ?_⟩
  obtain ⟨u, v, o, rfl, hu, hv⟩ := reads_bind.1 h
  rcases reads_maybe.1 hu with ⟨a, ha, -⟩ | ⟨rfl, rfl⟩
  · exact (hm.solid ha).append v
  · exact hq.solid hv

theorem readsSolid_word (hc : isBlank c = false) : ReadsSolid (word (c :: w)) :=
  ⟨fun h => ⟨c, w, reads_word.1 h, hc⟩⟩

theorem readsSolid_oneOf {ws : List Text} (hws : ∀ w ∈ ws, Solid w) : ReadsSolid (oneOf ws) :=
  ⟨fun h => (reads_oneOf.1 h).2 ▸ hws _ (reads_oneOf.1 h).1⟩

end Scan

namespace ModuleSyntax

open Source Scan Text

theorem readsSolid_anyName : ReadsSolid anyName :=
  ⟨fun h => solid_of_isName (reads_many1.1 h).1 (reads_many1.1 h).2⟩

theorem readsSolid_quote : ReadsSolid (Scan.char (· ∈ ['"', '\''])) := by
  refine ⟨fun {pre w post c} h => ?_⟩
  obtain ⟨rfl, hc⟩ := reads_char.1 h
  simp only [List.mem_cons, List.not_mem_nil, or_false, decide_eq_true_eq] at hc
  rcases hc with rfl | rfl <;> exact ⟨_, _, rfl, rfl⟩

theorem readsSolid_specifier : ReadsSolid specifier := readsSolid_quote.bind

theorem readsSolid_braces : ReadsSolid braces := (readsSolid_word rfl).bind

theorem readsSolid_asName : ReadsSolid asName := (readsSolid_word rfl).bind

theorem readsSolid_attributes : ReadsSolid (Scan.oneOf ["with", "assert"]) :=
  readsSolid_oneOf (by simpa using ⟨⟨'w', _, rfl, rfl⟩, ⟨'a', _, rfl, rfl⟩⟩)

theorem readsSolid_modifiers : ReadsSolid (Scan.oneOf modifiers) :=
  readsSolid_oneOf fun _ hw => solid_of_isWord (ne_nil_of_mem_declarationWords hw) (isWord_of_mem_declarationWords hw)

theorem readsSolid_bindings : ReadsSolid (braces <|> (do Scan.word "*"; space; asName) <|> anyName) :=
  .or readsSolid_braces (.or (readsSolid_word rfl).bind readsSolid_anyName)

end ModuleSyntax

end AppsScript
