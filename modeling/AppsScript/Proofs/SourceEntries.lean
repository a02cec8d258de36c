import AppsScript.Discovery.Entries
import AppsScript.FileSystem.Memory
import AppsScript.Proofs.EntryNames
import AppsScript.Proofs.OrderedMaps
import AppsScript.Proofs.Paths

/-!
# The entries that are found

`detect` gives exactly the source files with code in them that no pattern leaves out, in the order of their
paths, each under a name of its own (`Detected`, `detect_spec`). The names are given one after another:
what holds of a file's name and the names before it (`Named`) is an invariant of `addEntries`.
-/

namespace AppsScript

theorem Glob.anySuccess_eq_false {α : Type} {trial : α → Option Bool} {as : List α} :
    anySuccess trial as = some false ↔ ∀ a ∈ as, trial a = some false := by
  induction as with
  | nil => simp [anySuccess]
  | cons a as ih =>
    rw [anySuccess, List.forall_mem_cons]
    cases h : trial a with
    | none => simp
    | some b => cases b <;> simp [ih]

namespace Discovery

open EntryName

variable {σ : Type} [FileSystem σ] {fs : σ} {cwd base p q file : Path} {includes excludes : List Text}
  {ignored taken : List Text} {files : List Path} {entries : EntryMap} {key : Text}

/-! ### What is found -/

/-- A walk below one of the directories yields a source file of which `p` is the normal form. -/
def IsSource (fs : σ) (cwd : Path) (includes : List Text) (p : Path) : Prop :=
  ∃ dir ∈ includes, ∃ found, FileSystem.walk fs (cwd.join ⟨dir⟩) = .ok found ∧
    ∃ file ∈ found, file.extension? = some "ts" ∧ p = file.normalize

/-- The patterns of what is left out: declarations, dependencies and tests, and what else is excluded. -/
def patterns (excludes : List Text) : List Text :=
  "**/*.d.ts" :: "**/node_modules/**" :: "**/__tests__/**" :: excludes

/-- No pattern matches the file as it is shown, and there is code in it. -/
def IsEligible (fs : σ) (cwd : Path) (ignored : List Text) (file : Path) : Prop :=
  (∀ pattern ∈ ignored, Glob.matches? pattern (file.shownFrom cwd).text = some false) ∧
    (isEmpty fs file).value = false

/-- `key` is the name for `file` when the names `taken` are: its own, or else the first numbered one that is
free. -/
def Named (base : Path) (taken : List Text) (file : Path) (key : Text) : Prop :=
  ofPath file base ∉ taken ∧ key = ofPath file base ∨
    ofPath file base ∈ taken ∧ ∃ n, 2 ≤ n ∧ key = numbered (ofPath file base) n ∧ key ∉ taken ∧
      ∀ k, 2 ≤ k → k < n → numbered (ofPath file base) k ∈ taken

/-- `entries` are the entries of a project. -/
structure Detected (fs : σ) (cwd : Path) (includes excludes : List Text) (entries : EntryMap) : Prop where
  /-- Each file comes once, in the order of the paths. -/
  sorted : entries.values.Pairwise fun p q => Path.compare p q = .lt
  /-- The files are those that are found and not left out. -/
  mem_values : ∀ p, p ∈ entries.values ↔
    IsSource fs cwd includes p ∧ IsEligible fs cwd (patterns excludes) p
  nodup_keys : entries.keys.Nodup
  plain : ∀ key ∈ entries.keys, ∀ c ∈ key, c.isAlphanum ∨ c = '_' ∨ c = '$'
  /-- Each name is given in view of those before it, relative to the first directory. -/
  named : ∀ before key file after, entries.toList = before ++ (key, file) :: after →
    Named (cwd.join ⟨includes.headD "src"⟩).normalize (before.map Prod.fst) file key

theorem patterns_eq (excludes : List Text) : patterns excludes = alwaysIgnored ++ excludes := rfl

/-! ### Names -/

theorem Named.notMem (h : Named base taken file key) : key ∉ taken := by
  rcases h with ⟨hmem, rfl⟩ | ⟨-, n, -, -, hfree, -⟩
  · exact hmem
  · exact hfree

theorem isPlain_of_mem_ofPath {c : Char} (hc : c ∈ ofPath file base) : isPlain c :=
  isPlain_of_mem_sanitize hc

theorem Named.plain (h : Named base taken file key) : ∀ c ∈ key, isPlain c := by
  rcases h with ⟨-, rfl⟩ | ⟨-, n, -, rfl, -, -⟩
  · exact fun c hc => isPlain_of_mem_ofPath hc
  · exact fun c hc => isPlain_of_mem_numbered (fun d hd => isPlain_of_mem_ofPath hd) hc

theorem named_freshName (entries : EntryMap) (base file shown : Path) :
    Named base entries.keys file (freshName entries (ofPath file base) shown).value := by
  rw [freshName]
  split_ifs with hcontains
  · obtain ⟨n, hn, hunique, hfree, hleast⟩ := unique_spec entries.keys (ofPath file base)
    exact .inr ⟨OrderedMap.contains_iff.1 hcontains, n, hn, hunique, hunique ▸ hfree, hleast⟩
  · exact .inl ⟨fun hmem => hcontains (OrderedMap.contains_iff.2 hmem), rfl⟩

/-! ### Entries one after another -/

/-- Whether a file becomes an entry. -/
def isKept (fs : σ) (cwd : Path) (ignored : List Text) (file : Path) : Bool :=
  Glob.matchesAny? ignored (file.shownFrom cwd).text == some false && !(isEmpty fs file).value

theorem isKept_iff : isKept fs cwd ignored file = true ↔ IsEligible fs cwd ignored file := by
  rw [isKept, Bool.and_eq_true, beq_iff_eq, Glob.matchesAny?, Glob.anySuccess_eq_false, IsEligible,
    Bool.not_eq_true']

/-- Adding entries keeps those that are there; behind them come the files that are kept, each under a name in
view of all names before. -/
theorem addEntries_value (hglob : ∀ file ∈ files, Glob.matchesAny? ignored (file.shownFrom cwd).text ≠ none) :
    ∃ m added, (addEntries fs cwd base ignored files entries).value = some m ∧
      m.toList = entries.toList ++ added ∧ added.map Prod.snd = files.filter (isKept fs cwd ignored) ∧
      ∀ before key file after, added = before ++ (key, file) :: after →
        Named base (entries.keys ++ before.map Prod.fst) file key := by
  induction files generalizing entries with
  | nil => exact ⟨entries, [], rfl, by simp, rfl, by simp⟩
  | cons file files ih =>
    have hfiles : ∀ file ∈ files, Glob.matchesAny? ignored (file.shownFrom cwd).text ≠ none :=
      fun f hf => hglob f (List.mem_cons_of_mem _ hf)
    rw [addEntries]
    cases hmatch : Glob.matchesAny? ignored (file.shownFrom cwd).text with
    | none => exact absurd hmatch (hglob file (by simp))
    | some b =>
      cases b with
      | true =>
        have hkept : isKept fs cwd ignored file = false := by simp [isKept, hmatch]
        rw [List.filter_cons_of_neg (by simp [hkept])]
        exact ih hfiles
      | false =>
        simp only [Logged.value_bind]
        cases hempty : (isEmpty fs file).value with
        | true =>
          have hkept : isKept fs cwd ignored file = false := by simp [isKept, hempty]
          rw [List.filter_cons_of_neg (by simp [hkept])]
          exact ih hfiles
        | false =>
          have hkept : isKept fs cwd ignored file = true := by simp [isKept, hmatch, hempty]
          have hnamed := named_freshName entries base file (file.shownFrom cwd)
          rw [List.filter_cons_of_pos hkept]
          simp only [Bool.false_eq_true, if_false, Logged.value_bind]
          generalize (freshName entries (ofPath file base) (file.shownFrom cwd)).value = key at hnamed ⊢
          -- The name is new, so the entries grow by it at their end, and the later names are in view of it too.
          obtain ⟨m, added, hm, hlist, hsnd, hall⟩ := @ih (entries.insert key file) hfiles
          refine ⟨m, (key, file) :: added, hm, ?_, by rw [List.map_cons, hsnd], ?_⟩
          · rw [hlist, OrderedMap.toList_insert_of_notMem hnamed.notMem]
            simp
          · intro before key' file' after heq
            cases before with
            | nil =>
              obtain ⟨hhead, -⟩ := List.cons.inj heq
              obtain ⟨rfl, rfl⟩ := Prod.mk.inj hhead
              rw [List.map_nil, List.append_nil]
              exact hnamed
            | cons e before =>
              obtain ⟨rfl, hadded⟩ := List.cons.inj heq
              have := hall before key' file' after hadded
              rw [OrderedMap.keys_insert, if_neg hnamed.notMem] at this
              simpa using this

/-! ### Source files -/

/-- Walks that all succeed give what they yield one after another. -/
theorem mapM_ok {α β ε : Type} {f : α → Except ε β} {as : List α} (h : ∀ a ∈ as, ∃ b, f a = .ok b) :
    ∃ bs, as.mapM f = .ok bs ∧ ∀ b, b ∈ bs ↔ ∃ a ∈ as, f a = .ok b := by
  induction as with
  | nil => exact ⟨[], rfl, by simp⟩
  | cons a as ih =>
    obtain ⟨b, hb⟩ := h a (by simp)
    obtain ⟨bs, hbs, hmem⟩ := ih fun x hx => h x (List.mem_cons_of_mem _ hx)
    refine ⟨b :: bs, ?_, fun c => ?_⟩
    · rw [List.mapM_cons, hb, hbs]
      rfl
    · rw [List.mem_cons, hmem]
      constructor
      · rintro (rfl | ⟨x, hx, hc⟩)
        · exact ⟨a, by simp, hb⟩
        · exact ⟨x, List.mem_cons_of_mem _ hx, hc⟩
      · rintro ⟨x, hx, hc⟩
        rcases List.mem_cons.1 hx with rfl | hx
        · rw [hb] at hc
          exact .inl (Except.ok.inj hc).symm
        · exact .inr ⟨x, hx, hc⟩

/-- One walk that fails makes the whole search fail. -/
theorem mapM_error {α β ε : Type} {f : α → Except ε β} {as : List α} (h : ∃ a ∈ as, ∃ e, f a = .error e) :
    ∃ e, as.mapM f = .error e := by
  induction as with
  | nil => simp at h
  | cons a as ih =>
    rw [List.mapM_cons]
    cases ha : f a with
    | error e => exact ⟨e, rfl⟩
    | ok b =>
      obtain ⟨x, hx, e, he⟩ := h
      rcases List.mem_cons.1 hx with rfl | hx
      · rw [ha] at he
        exact absurd he (by simp)
      · obtain ⟨e, he⟩ := ih ⟨x, hx, e, he⟩
        exact ⟨e, by rw [he]; rfl⟩

theorem eraseDups_spec {α : Type} [DecidableEq α] (as : List α) :
    as.eraseDups.Sublist as ∧ as.eraseDups.Nodup := by
  generalize hn : as.length = n
  induction n using Nat.strong_induction_on generalizing as with
  | _ n ih =>
    cases as with
    | nil => simp
    | cons a as =>
      have hle : (as.filter fun b => !b == a).length < n := by
        have := List.length_filter_le (fun b => !b == a) as
        rw [← hn, List.length_cons]
        omega
      obtain ⟨hsub, hnodup⟩ := ih _ hle _ rfl
      rw [List.eraseDups_cons]
      refine ⟨(hsub.trans List.filter_sublist).cons_cons a, List.nodup_cons.2 ⟨fun ha => ?_, hnodup⟩⟩
      rw [List.mem_eraseDups, List.mem_filter] at ha
      simp at ha

theorem sourceFiles_ok (h : ∀ dir ∈ includes, ∃ found, FileSystem.walk fs (cwd.join ⟨dir⟩) = .ok found) :
    ∃ files, sourceFiles fs cwd includes = .ok files ∧ (files.Pairwise fun p q => Path.compare p q = .lt) ∧
      ∀ p, p ∈ files ↔ IsSource fs cwd includes p := by
  obtain ⟨found, hfound, hmem⟩ := mapM_ok h
  let sources := found.flatten.filter fun file => file.extension? == some sourceExtension
  let sorted := (sources.map Path.normalize).mergeSort Path.le
  have hsorted : sorted.Pairwise fun p q => Path.le p q :=
    @List.pairwise_mergeSort _ Path.le (fun _ _ _ => Path.le_trans) Path.le_total _
  obtain ⟨hsub, hnodup⟩ := eraseDups_spec sorted
  have hnormal : ∀ p ∈ sorted.eraseDups, ∃ q, p = Path.normalize q := fun p hp => by
    obtain ⟨q, -, rfl⟩ := List.mem_map.1 (List.mem_mergeSort.1 (List.mem_eraseDups.1 hp))
    exact ⟨q, rfl⟩
  refine ⟨sorted.eraseDups, by rw [sourceFiles, hfound]; rfl, ?_, fun p => ?_⟩
  · refine ((hsorted.sublist hsub).and hnodup).imp_of_mem fun {p q} hp hq ⟨hle, hne⟩ => ?_
    obtain ⟨p, rfl⟩ := hnormal p hp
    obtain ⟨q, rfl⟩ := hnormal q hq
    cases hcmp : Path.compare p.normalize q.normalize with
    | lt => rfl
    | eq => exact absurd (Path.eq_of_compare_eq hcmp) hne
    | gt =>
      rw [Path.le, hcmp] at hle
      exact absurd hle (by decide)
  · rw [List.mem_eraseDups, List.mem_mergeSort, List.mem_map]
    constructor
    · rintro ⟨file, hfile, rfl⟩
      obtain ⟨hfile, hext⟩ := List.mem_filter.1 hfile
      obtain ⟨l, hl, hfile⟩ := List.mem_flatten.1 hfile
      obtain ⟨dir, hdir, hwalk⟩ := (hmem l).1 hl
      exact ⟨dir, hdir, l, hwalk, file, hfile, beq_iff_eq.1 hext, rfl⟩
    · rintro ⟨dir, hdir, l, hwalk, file, hfile, hext, rfl⟩
      refine ⟨file, List.mem_filter.2 ⟨List.mem_flatten.2 ⟨l, (hmem l).2 ⟨dir, hdir, hwalk⟩, hfile⟩, ?_⟩, rfl⟩
      exact beq_iff_eq.2 hext

theorem sourceFiles_error (h : ∃ dir ∈ includes, ∃ fault, FileSystem.walk fs (cwd.join ⟨dir⟩) = .error fault) :
    ∃ fault, sourceFiles fs cwd includes = .error fault := by
  obtain ⟨fault, hfault⟩ := mapM_error h
  exact ⟨fault, by rw [sourceFiles, hfault]; rfl⟩

/-! ### The search as a whole -/

theorem detect_of_ok (hwalk : ∀ dir ∈ includes, ∃ found, FileSystem.walk fs (cwd.join ⟨dir⟩) = .ok found)
    (hglob : ∀ p, IsSource fs cwd includes p →
      Glob.matchesAny? (patterns excludes) (p.shownFrom cwd).text ≠ none) :
    Detected fs cwd includes excludes (detect fs cwd includes excludes).value := by
  obtain ⟨files, hfiles, hsorted, hmem⟩ := sourceFiles_ok hwalk
  obtain ⟨m, added, hm, hlist, hsnd, hnamed⟩ := @addEntries_value _ _ fs cwd (baseDir cwd includes)
    (patterns excludes) files .empty fun file hfile => hglob file ((hmem file).1 hfile)
  have hdetect : (detect fs cwd includes excludes).value = m := by
    rw [detect, hfiles]
    simp only [Logged.value_bind, ← patterns_eq, hm]
    rfl
  have hvalues : m.values = files.filter (isKept fs cwd (patterns excludes)) := by
    rw [OrderedMap.values, hlist, ← hsnd]
    rfl
  have hnamed' : ∀ before key file after, m.toList = before ++ (key, file) :: after →
      Named (baseDir cwd includes) (before.map Prod.fst) file key := fun before key file after h => by
    have := hnamed before key file after (hlist.symm.trans h)
    exact this
  rw [hdetect]
  refine ⟨?_, fun p => ?_, m.nodup_keys, fun key hkey => ?_, hnamed'⟩
  · rw [hvalues]
    exact hsorted.filter _
  · rw [hvalues, List.mem_filter, hmem, isKept_iff]
  · obtain ⟨⟨key, file⟩, he, rfl⟩ := List.mem_map.1 hkey
    obtain ⟨before, after, hsplit⟩ := List.append_of_mem he
    exact fun c hc => isPlain_iff.1 ((hnamed' before key file after hsplit).plain c hc)

theorem detect_of_error
    (h : ∃ dir ∈ includes, ∃ fault, FileSystem.walk fs (cwd.join ⟨dir⟩) = .error fault) :
    (detect fs cwd includes excludes).value = .empty := by
  obtain ⟨fault, hfault⟩ := sourceFiles_error h
  rw [detect, hfault]
  rfl

/-- A search in which every walk succeeds and no match breaks off finds the entries of the project, and one in
which a walk fails finds none. -/
theorem detect_spec (fs : σ) (cwd : Path) (includes excludes : List Text) :
    ((∀ dir ∈ includes, ∃ found, FileSystem.walk fs (cwd.join ⟨dir⟩) = .ok found) →
      (∀ p, IsSource fs cwd includes p →
        Glob.matchesAny? (patterns excludes) (p.shownFrom cwd).text ≠ none) →
      Detected fs cwd includes excludes (detect fs cwd includes excludes).value) ∧
    ((∃ dir ∈ includes, ∃ fault, FileSystem.walk fs (cwd.join ⟨dir⟩) = .error fault) →
      (detect fs cwd includes excludes).value = .empty) :=
  ⟨detect_of_ok, detect_of_error⟩

/-- Three files of which the second gets the name of the third. -/
def colliding (plan : FaultPlan) : Memory :=
  .ofContents [(["p", "src", "a", "b.ts"], "one()"), (["p", "src", "a_b.ts"], "two()"),
    (["p", "src", "a_b_2.ts"], "three()")] [] plan

theorem detect_spec_colliding :
    Detected (colliding {}) "/p" ["src"] [] (detect (colliding {}) "/p" ["src"] []).value ∧
      (detect (colliding { walk := [["p", "src"]] }) "/p" ["lib", "src"] []).value = .empty := by
  refine ⟨(detect_spec (colliding {}) "/p" ["src"] []).1 ?_ ?_,
    (detect_spec (colliding { walk := [["p", "src"]] }) "/p" ["lib", "src"] []).2 ?_⟩
  · intro dir hdir
    obtain rfl := List.mem_singleton.1 hdir
    exact ⟨_, rfl⟩
  · rintro _ ⟨dir, hdir, found, hwalk, file, hfile, -, rfl⟩
    obtain rfl := List.mem_singleton.1 hdir
    obtain rfl := Except.ok.inj hwalk
    rw [List.mem_mergeSort] at hfile
    revert file
    decide +kernel
  · exact ⟨"src", by simp, .denied, rfl⟩

end Discovery

end AppsScript
