import AppsScript.Proofs.OptionValues
import AppsScript.Proofs.OrderedMaps

/-!
# Texts of options

The options that a user gives can be written in many ways (`Options.WrittenAs`): as an object, in any order and with or
without `null` for the others, or as an array; with white space and escapes everywhere. A text of any such value is
decoded to these options, and no other text is (`Options.decode_eq_ok_iff`).
-/

namespace AppsScript

namespace Json

/-- The lexemes of a value, with the same gap everywhere. -/
def Doc.spelled (g : Text) (doc : Doc) : Text := (doc.lexemes false).flatMap (fun l => g ++ l.spelling) ++ g

theorem isText_spelled {g : Text} (hg : IsSpaces g) (doc : Doc) : IsText doc (doc.spelled g) := by
  have hspaced (ls : List Lexeme) : Spaced IsSpaces ls (ls.flatMap (fun l => g ++ l.spelling) ++ g) := by
    induction ls with
    | nil => exact .nil hg
    | cons l ls ih =>
      rw [List.flatMap_cons, List.append_assoc, List.append_assoc]
      exact .cons hg ih
  exact hspaced _

end Json

open Json

namespace Options

variable {doc : Doc} {t : Text} {rest rest' tokens : List Token}

/-! ### Fields -/

namespace Field

/-- What the option can be given. -/
def Value : Field → Type
  | outDir => Text
  | includes | excludes => List Text
  | pathAliases => AliasMap
  | autoDetect | transformLogger | copyManifest | enablePathAliases | autoDetectPathAliases | preserveComments => Bool

def read : (f : Field) → List Token → Result (f.Value × List Token)
  | outDir => readText
  | includes | excludes => readTexts
  | pathAliases => readMap
  | autoDetect | transformLogger | copyManifest | enablePathAliases | autoDetectPathAliases | preserveComments => readFlag

/-- The value says what the option is given. -/
def Says : (f : Field) → Doc → f.Value → Prop
  | outDir => SaysText
  | includes | excludes => SaysTexts
  | pathAliases => SaysMap
  | autoDetect | transformLogger | copyManifest | enablePathAliases | autoDetectPathAliases | preserveComments => SaysFlag

theorem reads (f : Field) : Reads f.read f.Says := by
  cases f with
  | outDir => exact reads_text
  | includes => exact reads_texts
  | excludes => exact reads_texts
  | pathAliases => exact reads_map
  | _ => exact reads_flag

/-- The options in the order of an array. -/
def inOrder : List Field :=
  [autoDetect, includes, excludes, outDir, transformLogger, copyManifest, enablePathAliases, autoDetectPathAliases,
    pathAliases, preserveComments]

/-- The keys of the option in an object. -/
def memberKeys : Field → List Text
  | autoDetect => ["autoDetect"]
  | includes => ["include"]
  | excludes => ["exclude"]
  | outDir => ["outDir"]
  | transformLogger => ["transformLogger"]
  | copyManifest => ["copyAppsscriptJson", "copyManifest"]
  | enablePathAliases => ["enablePathAliases"]
  | autoDetectPathAliases => ["autoDetectPathAliases"]
  | pathAliases => ["pathAliases"]
  | preserveComments => ["preserveComments"]

/-- The key, as it stands between its quotes, is one of the option. -/
def Names (f : Field) (key : Text) : Prop := ∃ k ∈ f.memberKeys, Spells key k

theorem all_eq : all = inOrder := rfl

theorem keys_eq (f : Field) : f.keys = f.memberKeys := by
  cases f <;> rfl

theorem ofKey?_eq_some_iff {f : Field} {k : Text} : ofKey? k = some f ↔ k ∈ f.memberKeys := by
  rw [ofKey?, ← keys_eq]
  constructor
  · intro h
    split_ifs at h with hk
    · obtain rfl := Option.some.inj h
      simp [keys, hk]
    · have hkey : f.key = k := by simpa using List.find?_some h
      rw [keys]
      split_ifs <;> simp [hkey]
  · intro h
    cases f with
    | copyManifest =>
      simp only [keys, if_true, List.mem_cons, List.not_mem_nil, or_false] at h
      rcases h with rfl | rfl <;> rfl
    | _ =>
      simp only [keys, reduceCtorEq, if_false, List.mem_cons, List.not_mem_nil, or_false] at h
      subst h
      rfl

end Field

/-- What the option is given. -/
def given (options : Options) : (f : Field) → Option f.Value
  | .autoDetect => options.autoDetect
  | .includes => options.includes
  | .excludes => options.excludes
  | .outDir => options.outDir
  | .transformLogger => options.transformLogger
  | .copyManifest => options.copyManifest
  | .enablePathAliases => options.enablePathAliases
  | .autoDetectPathAliases => options.autoDetectPathAliases
  | .pathAliases => options.pathAliases
  | .preserveComments => options.preserveComments

/-- The options with another value for one. -/
def give (options : Options) : (f : Field) → Option f.Value → Options
  | .autoDetect, v => { options with autoDetect := v }
  | .includes, v => { options with includes := v }
  | .excludes, v => { options with excludes := v }
  | .outDir, v => { options with outDir := v }
  | .transformLogger, v => { options with transformLogger := v }
  | .copyManifest, v => { options with copyManifest := v }
  | .enablePathAliases, v => { options with enablePathAliases := v }
  | .autoDetectPathAliases, v => { options with autoDetectPathAliases := v }
  | .pathAliases, v => { options with pathAliases := v }
  | .preserveComments, v => { options with preserveComments := v }

variable {options options' : Options} {f g : Field}

theorem given_give (v : Option f.Value) : (options.give f v).given f = v := by
  cases f <;> rfl

theorem given_give_of_ne (h : g ≠ f) (v : Option f.Value) : (options.give f v).given g = options.given g := by
  cases f <;> cases g <;> first | rfl | exact absurd rfl h

theorem eq_of_given (h : ∀ f, options.given f = options'.given f) : options = options' := by
  cases options with
  | mk =>
    cases options'
    rw [mk.injEq]
    exact ⟨h .autoDetect, h .includes, h .excludes, h .outDir, h .transformLogger, h .copyManifest, h .enablePathAliases,
      h .autoDetectPathAliases, h .pathAliases, h .preserveComments⟩

theorem given_empty (f : Field) : ({} : Options).given f = none := by
  cases f <;> rfl

theorem readField_eq (options : Options) (f : Field) (tokens : List Token) :
    readField options f tokens = (readOptional f.read tokens).map fun r => (options.give f r.1, r.2) := by
  cases f <;> rfl

/-- The value says what the options give for `f`, with `null` for nothing. -/
def Says (options : Options) (f : Field) (doc : Doc) : Prop := SaysOptional f.Says doc (options.given f)

/-- The options are others for `f` only. -/
def SameBut (f : Field) (options options' : Options) : Prop := ∀ g ≠ f, options'.given g = options.given g

theorem eq_give_iff {v : Option f.Value} : options' = options.give f v ↔
    options'.given f = v ∧ SameBut f options options' := by
  constructor
  · rintro rfl
    exact ⟨given_give v, fun g hg => given_give_of_ne hg v⟩
  · rintro ⟨rfl, hsame⟩
    refine eq_of_given fun g => ?_
    by_cases hg : g = f
    · subst hg
      exact (given_give _).symm
    · rw [given_give_of_ne hg, hsame g hg]

theorem readField_eq_ok_iff (h : Before doc rest tokens) : readField options f tokens = .ok (options', rest') ↔
    (options'.Says f doc ∧ SameBut f options options') ∧ rest' = rest := by
  rw [readField_eq, map_read_iff (reads_optional f.reads h) (options.give f)]
  refine and_congr_left' ⟨?_, ?_⟩
  · rintro ⟨v, hv, hsaid⟩
    obtain ⟨rfl, hsame⟩ := eq_give_iff.1 hv
    exact ⟨hsaid, hsame⟩
  · rintro ⟨hsaid, hsame⟩
    exact ⟨_, eq_give_iff.2 ⟨rfl, hsame⟩, hsaid⟩

theorem says_of_given (hgiven : options.given f = options'.given f) (hsaid : options.Says f doc) :
    options'.Says f doc := by
  rw [Says, ← hgiven]
  exact hsaid

/-- Options that differ for `f` and for `fs` come of two changes. -/
theorem others_cons_iff {base : Options} {fs : List Field} (hf : f ∉ fs) :
    (∀ g ∉ f :: fs, options.given g = base.given g) ↔
      ∃ next : Options, (next.given f = options.given f ∧ SameBut f base next) ∧
        ∀ g ∉ fs, options.given g = next.given g := by
  constructor
  · intro hothers
    obtain ⟨hgiven, hsame⟩ := eq_give_iff.1 (rfl : base.give f (options.given f) = _)
    refine ⟨base.give f (options.given f), ⟨hgiven, hsame⟩, fun g hg => ?_⟩
    by_cases hgf : g = f
    · subst hgf
      exact hgiven.symm
    · rw [hsame g hgf, hothers g (List.not_mem_cons_of_ne_of_not_mem hgf hg)]
  · rintro ⟨next, ⟨-, hsame⟩, hothers⟩ g hg
    rw [List.mem_cons, not_or] at hg
    rw [hothers g hg.2, hsame g hg.1]

/-! ### Objects -/

theorem Field.Names.unique {key : Text} (h : f.Names key) (h' : g.Names key) : f = g := by
  obtain ⟨k, hk, hspells⟩ := h
  obtain ⟨k', hk', hspells'⟩ := h'
  obtain rfl := hspells.unique hspells'
  rw [← Field.ofKey?_eq_some_iff] at hk hk'
  exact Option.some.inj (hk.symm.trans hk')

/-- A member gives an option what the options have for it. -/
def Gives (options : Options) (f : Field) (entry : Entry) : Prop := f.Names entry.key ∧ options.Says f entry.doc

/-- What goes on behind a member. -/
def readOn (missing : List Field) (options : Options) : List Token → Result (Options × List Token)
  | .closeBrace :: rest => .ok (options, rest)
  | .comma :: rest => readMembers missing options rest
  | _ => .error .syntaxFault

theorem readMembers_eq_ok_iff {missing : List Field} {entry : Entry} {r : Options × List Token} :
    readMembers missing options (entry.tokens ++ rest) = .ok r ↔
      ∃ f ∈ missing, ∃ options', options'.Gives f entry ∧ SameBut f options options' ∧
        readOn (missing.erase f) options' rest = .ok r := by
  rw [Entry.tokens]
  rcases key_or_not entry with ⟨k, hk, htoken⟩ | ⟨hnot, htoken⟩
  · have hnames {f : Field} : f.Names entry.key ↔ Field.ofKey? k = some f := by
      simp only [Field.Names, hk, exists_eq_right, Field.ofKey?_eq_some_iff]
    rw [htoken, List.cons_append, List.cons_append, readMembers]
    cases hkey : Field.ofKey? k with
    | none => simp [Gives, hnames, hkey]
    | some f =>
      rw [hkey] at hnames
      by_cases hf : f ∈ missing
      · simp only [dif_pos hf, bind_eq_ok_iff, Prod.exists, readField_eq_ok_iff (before_tokens entry.doc rest)]
        constructor
        · rintro ⟨options', _, ⟨⟨hsaid, hsame⟩, rfl⟩, hon⟩
          exact ⟨f, hf, options', ⟨hnames.2 rfl, hsaid⟩, hsame, hon⟩
        · rintro ⟨g, hg, options', ⟨hgives, hsaid⟩, hsame, hon⟩
          obtain rfl := Option.some.inj (hnames.1 hgives)
          exact ⟨options', rest, ⟨⟨hsaid, hsame⟩, rfl⟩, hon⟩
      · simp only [dif_neg hf]
        constructor
        · intro h
          cases h
        · rintro ⟨g, hg, options', ⟨hgives, -⟩, -⟩
          obtain rfl := Option.some.inj (hnames.1 hgives)
          exact absurd hg hf
  · rw [htoken]
    simp [readMembers, Gives, Field.Names, hnot]

/-- The entries give each of some options once, and what is said of no other option is as in `base`. -/
def GivesAll (base options : Options) (missing : List Field) (entries : List Entry) : Prop :=
  ∃ fs : List Field, fs.Nodup ∧ (∀ f ∈ fs, f ∈ missing) ∧ List.Forall₂ options.Gives fs entries ∧
    ∀ f ∉ fs, options.given f = base.given f

theorem givesAll_nil {missing : List Field} : GivesAll options options' missing [] ↔ options' = options := by
  constructor
  · rintro ⟨fs, -, -, hgives, hothers⟩
    cases hgives
    exact eq_of_given fun f => hothers f (by simp)
  · rintro rfl
    exact ⟨[], by simp, by simp, .nil, fun f _ => rfl⟩

theorem givesAll_cons {base : Options} {missing : List Field} {entry : Entry} {entries : List Entry} (hmissing : missing.Nodup) :
    GivesAll base options missing (entry :: entries) ↔
      ∃ f ∈ missing, ∃ next : Options, next.Gives f entry ∧ SameBut f base next ∧
        GivesAll next options (missing.erase f) entries := by
  constructor
  · rintro ⟨fs, hnodup, hfs, hgives, hothers⟩
    cases hgives with
    | @cons f _ fs _ hgives hrest =>
      rw [List.nodup_cons] at hnodup
      obtain ⟨next, ⟨hgiven, hsame⟩, hothers⟩ := (others_cons_iff hnodup.1).1 hothers
      refine ⟨f, hfs f (by simp), next, ⟨hgives.1, says_of_given hgiven.symm hgives.2⟩, hsame, fs, hnodup.2,
        fun g hg => ?_, hrest, hothers⟩
      have hne : g ≠ f := fun h => hnodup.1 (h ▸ hg)
      exact (List.mem_erase_of_ne hne).2 (hfs g (List.mem_cons_of_mem _ hg))
  · rintro ⟨f, hf, next, ⟨hnames, hsaid⟩, hsame, fs, hnodup, hfs, hgives, hothers⟩
    have hnot : f ∉ fs := fun h => hmissing.not_mem_erase (hfs f h)
    have hgiven := hothers f hnot
    refine ⟨f :: fs, List.nodup_cons.2 ⟨hnot, hnodup⟩, fun g hg => ?_,
      .cons ⟨hnames, says_of_given hgiven.symm hsaid⟩ hgives,
      (others_cons_iff hnot).2 ⟨next, ⟨hgiven.symm, hsame⟩, hothers⟩⟩
    rcases List.mem_cons.1 hg with rfl | hg
    · exact hf
    · exact List.mem_of_mem_erase (hfs g hg)

theorem readMembers_goOn {missing : List Field} (hmissing : missing.Nodup) (entry : Entry) (entries : List Entry) :
    readMembers missing options (entry.tokens ++ goOn .closeBrace (entries.map Entry.tokens) rest) =
      .ok (options', rest') ↔ GivesAll options options' missing (entry :: entries) ∧ rest' = rest := by
  induction entries generalizing entry missing options with
  | nil =>
    rw [readMembers_eq_ok_iff, givesAll_cons hmissing]
    simp only [List.map_nil, goOn, readOn, givesAll_nil, Except.ok.injEq, Prod.mk.injEq, ← and_assoc, exists_and_right,
      eq_comm]
  | cons next entries ih =>
    rw [readMembers_eq_ok_iff, givesAll_cons hmissing]
    simp only [List.map_cons, goOn, readOn, ih (hmissing.erase _), ← and_assoc, exists_and_right]

/-! ### Arrays -/

/-- The values say what the options have for the fields, one each. -/
def GivesInOrder (base options : Options) (fs : List Field) (docs : List Doc) : Prop :=
  List.Forall₂ options.Says fs docs ∧ ∀ f ∉ fs, options.given f = base.given f

theorem givesInOrder_cons {base : Options} {fs : List Field} {doc : Doc} {docs : List Doc} (hf : f ∉ fs) :
    GivesInOrder base options (f :: fs) (doc :: docs) ↔
      ∃ next : Options, (next.Says f doc ∧ SameBut f base next) ∧ GivesInOrder next options fs docs := by
  rw [GivesInOrder, List.forall₂_cons, others_cons_iff hf]
  constructor
  · rintro ⟨⟨hsaid, hrest⟩, next, ⟨hgiven, hsame⟩, hothers⟩
    exact ⟨next, ⟨says_of_given hgiven.symm hsaid, hsame⟩, hrest, hothers⟩
  · rintro ⟨next, ⟨hsaid, hsame⟩, hrest, hothers⟩
    have hgiven := hothers f hf
    exact ⟨⟨says_of_given hgiven.symm hsaid, hrest⟩, next, ⟨hgiven.symm, hsame⟩, hothers⟩

theorem givesInOrder_nil {base : Options} {docs : List Doc} :
    GivesInOrder base options [] docs ↔ docs = [] ∧ options = base := by
  rw [GivesInOrder, List.forall₂_nil_left_iff]
  exact and_congr_right fun _ => ⟨fun h => eq_of_given fun f => h f (by simp), fun h f _ => by rw [h]⟩

/-- One more element is read, the first one of all without a comma. -/
theorem readElements_cons {fs : List Field} (hf : f ∉ fs) (found : Nat) {docs : List Doc}
    (h : Before doc (goOn .closeBracket (docs.map Doc.tokens) rest) tokens)
    (hrest : ∀ next : Options, readElements (found + 1) fs next (goOn .closeBracket (docs.map Doc.tokens) rest) =
      .ok (options', rest') ↔ GivesInOrder next options' fs docs ∧ rest' = rest) :
    readElements found (f :: fs) options (if found = 0 then tokens else .comma :: tokens) = .ok (options', rest') ↔
      GivesInOrder options options' (f :: fs) (doc :: docs) ∧ rest' = rest := by
  have hread : readElements found (f :: fs) options (if found = 0 then tokens else .comma :: tokens) =
      readField options f tokens >>= fun r => readElements (found + 1) fs r.1 r.2 := by
    cases found <;> cases h <;> rfl
  rw [hread, givesInOrder_cons hf]
  simp only [bind_eq_ok_iff, Prod.exists, readField_eq_ok_iff h]
  constructor
  · rintro ⟨next, _, ⟨hnext, rfl⟩, hread⟩
    obtain ⟨hgives, rfl⟩ := (hrest next).1 hread
    exact ⟨⟨next, hnext, hgives⟩, rfl⟩
  · rintro ⟨⟨next, hnext, hgives⟩, rfl⟩
    exact ⟨next, _, ⟨hnext, rfl⟩, (hrest next).2 ⟨hgives, rfl⟩⟩

theorem readElements_goOn {fs : List Field} (hfs : fs.Nodup) (found : Nat) (docs : List Doc) :
    readElements (found + 1) fs options (goOn .closeBracket (docs.map Doc.tokens) rest) = .ok (options', rest') ↔
      GivesInOrder options options' fs docs ∧ rest' = rest := by
  induction fs generalizing found docs options with
  | nil =>
    cases docs with
    | nil => simp [goOn, readElements, givesInOrder_nil, eq_comm]
    | cons doc docs => simp [goOn, readElements, givesInOrder_nil]
  | cons f fs ih =>
    rw [List.nodup_cons] at hfs
    cases docs with
    | nil => simp [goOn, readElements, GivesInOrder, bind, Except.bind, throw, throwThe, MonadExceptOf.throw]
    | cons doc docs => exact readElements_cons hfs.1 (found + 1) (before_tokens doc _) fun next => ih hfs.2 (found + 1) docs

/-! ### Texts -/

/-- The value is one that the options can be written as: an object with at most one member for each option, which says
what is given or is `null`, and one for each that is given; or an array of all options in their order. -/
inductive WrittenAs (options : Options) : Doc → Prop
  | emptyObject (h : ∀ f, options.given f = none) : WrittenAs options .emptyObject
  | object {members : Members} {fs : List Field} (hfs : fs.Nodup)
    (hgives : List.Forall₂ options.Gives fs members.entries) (hothers : ∀ f ∉ fs, options.given f = none) :
    WrittenAs options (.object members)
  | array {elements : Elements} (h : List.Forall₂ options.Says Field.inOrder elements.docs) :
    WrittenAs options (.array elements)

theorem mem_all (f : Field) : f ∈ Field.all := by
  cases f <;> decide

theorem writtenAs_object {members : Members} :
    GivesAll {} options Field.all members.entries ↔ options.WrittenAs (.object members) := by
  constructor
  · rintro ⟨fs, hfs, -, hgives, hothers⟩
    exact .object hfs hgives fun f hf => (hothers f hf).trans (given_empty f)
  · intro h
    cases h with
    | @object _ fs hfs hgives hothers =>
      exact ⟨fs, hfs, fun f _ => mem_all f, hgives, fun f hf => (hothers f hf).trans (given_empty f).symm⟩

theorem writtenAs_array {elements : Elements} :
    GivesInOrder {} options Field.all elements.docs ↔ options.WrittenAs (.array elements) := by
  rw [Field.all_eq]
  exact ⟨fun h => .array h.1, fun | .array h => ⟨h, fun f hf => absurd (mem_all f) hf⟩⟩

theorem writtenAs_emptyObject : {} = options ↔ options.WrittenAs .emptyObject := by
  constructor
  · rintro rfl
    exact .emptyObject given_empty
  · rintro ⟨h⟩
    exact eq_of_given fun f => (given_empty f).trans (h f).symm

theorem readOptions_eq_ok_iff (h : Before doc rest tokens) :
    readOptions tokens = .ok (options, rest') ↔ options.WrittenAs doc ∧ rest' = rest := by
  have hall : Field.all.Nodup := by decide
  cases h with
  | emptyObject =>
    rw [readOptions, Except.ok.injEq, Prod.mk.injEq, ← writtenAs_emptyObject]
    exact and_congr_right' eq_comm
  | @object members entry entries rest hentries =>
    rw [readOptions, readMembers_goOn hall, ← hentries, writtenAs_object]
    exact fun more => entry.ne_closeBrace more
  | @array elements doc docs rest hdocs =>
    have hread : readElements 0 Field.all {} (doc.tokens ++ goOn .closeBracket (docs.map Doc.tokens) rest) =
        .ok (options, rest') ↔ GivesInOrder {} options Field.all (doc :: docs) ∧ rest' = rest :=
      readElements_cons (List.nodup_cons.1 hall).1 0 (before_tokens doc _) fun next =>
        readElements_goOn (List.nodup_cons.1 hall).2 0 docs
    rw [readOptions, hread, ← hdocs, writtenAs_array]
  | emptyArray =>
    refine ⟨fun h => ?_, fun h => (nomatch h.1)⟩
    cases h
  | _ => exact ⟨fun h => (nomatch h), fun h => (nomatch h.1)⟩

/-- A text is decoded to the options that its value is written for. -/
theorem decode_eq_ok_iff (ht : IsText doc t) : decode t = .ok options ↔ options.WrittenAs doc := by
  have hbefore := before_tokens doc []
  rw [List.append_nil] at hbefore
  rw [decode, tokens_of_isText ht, bind_eq_ok_iff]
  simp only [Prod.exists, readOptions_eq_ok_iff hbefore]
  constructor
  · rintro ⟨options', rest, ⟨h, rfl⟩, hdone⟩
    obtain rfl : options' = options := Except.ok.inj hdone
    exact h
  · intro h
    exact ⟨options, [], ⟨h, rfl⟩, rfl⟩

/-- Two of the members give one option, maybe each under a key of its own. -/
def GiveTwice (entries : List Entry) : Prop :=
  ∃ (f : Field) (entry entry' : Entry), [entry, entry'].Sublist entries ∧ f.Names entry.key ∧ f.Names entry'.key

theorem exists_sublist {α β : Type} {R : α → β → Prop} {as : List α} {bs bs' : List β} (h : List.Forall₂ R as bs)
    (hsub : bs'.Sublist bs) : ∃ as', as'.Sublist as ∧ List.Forall₂ R as' bs' := by
  induction hsub generalizing as with
  | slnil => exact ⟨[], List.nil_sublist _, .nil⟩
  | cons b _ ih =>
    cases h with
    | @cons a _ _ _ _ h =>
      obtain ⟨as', has', h'⟩ := ih h
      exact ⟨as', has'.cons a, h'⟩
  | cons_cons b _ ih =>
    cases h with
    | @cons a _ _ _ hab h =>
      obtain ⟨as', has', h'⟩ := ih h
      exact ⟨a :: as', has'.cons_cons a, .cons hab h'⟩

theorem not_giveTwice {fs : List Field} {entries : List Entry} (hfs : fs.Nodup)
    (hgives : List.Forall₂ options.Gives fs entries) : ¬ GiveTwice entries := by
  rintro ⟨f, entry, entry', hsub, hnames, hnames'⟩
  obtain ⟨gs, hgs, hgives⟩ := exists_sublist hgives hsub
  cases hgives with
  | @cons g _ _ _ hg hgives =>
    cases hgives with
    | @cons g' _ _ _ hg' hgives =>
      cases hgives
      -- both are the one option that is given twice
      obtain rfl := hg.1.unique hnames
      obtain rfl := hg'.1.unique hnames'
      simpa using hfs.sublist hgs

/-- What a text is decoded to, and what becomes of it. -/
structure Decodes (t : Text) (doc : Doc) : Prop where
  ok_iff : ∀ options, decode t = .ok options ↔ options.WrittenAs doc
  /-- Every option that is not given has its default, whatever the others are. -/
  settings : ∀ options : Options, options.WrittenAs doc → (decode t).map Options.settings = .ok
    { autoDetect := options.autoDetect.getD true
      includes := options.includes.getD ["src"]
      excludes := options.excludes.getD ["**/*.d.ts", "**/*.test.ts", "**/*.spec.ts"]
      outDir := options.outDir.getD "dist"
      transformLogger := options.transformLogger.getD true
      copyManifest := options.copyManifest.getD true
      enablePathAliases := options.enablePathAliases.getD true
      autoDetectPathAliases := options.autoDetectPathAliases.getD true
      pathAliases := options.pathAliases.getD (.ofList [("@", "./src"), ("~", "./src")])
      preserveComments := options.preserveComments.getD false }
  twice : ∀ members, doc = .object members → GiveTwice members.entries → ∃ fault, decode t = .error fault

/-- Every text of a value that options can be written as is decoded to these, and an object that gives one of them
twice is rejected. -/
theorem decodes_of_isText (ht : IsText doc t) : Decodes t doc where
  ok_iff options := decode_eq_ok_iff ht
  settings options h := by
    rw [(decode_eq_ok_iff ht).2 h]
    rfl
  twice members hdoc htwice := by
    subst hdoc
    cases hdecode : decode t with
    | error fault => exact ⟨fault, rfl⟩
    | ok options =>
      cases (decode_eq_ok_iff ht).1 hdecode with
      | object hfs hgives => exact absurd htwice (not_giveTwice hfs hgives)

/-! ### Ways to write options -/

theorem spells_key (f : Field) : Spells f.key f.key := spells_self (by cases f <;> decide)

theorem names_key (f : Field) : f.Names f.key := by
  refine ⟨f.key, ?_, spells_key f⟩
  rw [← Field.keys_eq, Field.keys]
  split_ifs <;> simp

theorem exists_forall₂ {α β : Type} {R : β → α → Prop} (h : ∀ a, ∃ b, R b a) (as : List α) :
    ∃ bs, List.Forall₂ R bs as := by
  choose b hb using h
  exact ⟨as.map b, List.forall₂_map_left_iff.2 (List.forall₂_same.2 fun a _ => hb a)⟩

theorem exists_elements (doc : Doc) (docs : List Doc) : ∃ elements : Elements, elements.docs = doc :: docs := by
  induction docs generalizing doc with
  | nil => exact ⟨.last doc false, rfl⟩
  | cons next docs ih =>
    obtain ⟨elements, helements⟩ := ih next
    exact ⟨.cons doc elements, congrArg _ helements⟩

theorem exists_members (entry : Entry) (entries : List Entry) : ∃ members : Members, members.entries = entry :: entries := by
  induction entries generalizing entry with
  | nil => exact ⟨.last entry.key entry.hkey entry.doc false, rfl⟩
  | cons next entries ih =>
    obtain ⟨members, hmembers⟩ := ih next
    exact ⟨.cons entry.key entry.hkey entry.doc members, congrArg _ hmembers⟩

theorem exists_saysText (t : Text) : ∃ doc, SaysOptional SaysText doc (some t) ∧ SaysText doc t := by
  obtain ⟨body, hbody⟩ := exists_spells t
  exact ⟨.scalar (.text body (.of_spells hbody)) rfl, ⟨t, rfl, hbody⟩, hbody⟩

theorem exists_saysTexts (ts : List Text) : ∃ doc, SaysOptional SaysTexts doc (some ts) := by
  obtain ⟨docs, hdocs⟩ := exists_forall₂ (fun t => (exists_saysText t).imp fun _ h => h.2) ts
  cases hdocs with
  | nil => exact ⟨.emptyArray, [], rfl, rfl⟩
  | @cons doc t docs ts hdoc hdocs =>
    obtain ⟨elements, helements⟩ := exists_elements doc docs
    refine ⟨.array elements, t :: ts, rfl, ?_⟩
    rw [SaysTexts, helements]
    exact .cons hdoc hdocs

theorem exists_saysPair (pair : Text × Text) : ∃ entry, SaysPair entry pair := by
  obtain ⟨key, hkey⟩ := exists_spells pair.1
  obtain ⟨doc, -, hdoc⟩ := exists_saysText pair.2
  exact ⟨⟨key, .of_spells hkey, doc⟩, hkey, hdoc⟩

theorem exists_saysMap (m : AliasMap) : ∃ doc, SaysOptional SaysMap doc (some m) := by
  obtain ⟨entries, hentries⟩ := exists_forall₂ exists_saysPair m.toList
  cases entries with
  | nil =>
    refine ⟨.emptyObject, m, rfl, ?_⟩
    rw [SaysMap, ← m.ofList_toList, List.forall₂_nil_left_iff.1 hentries]
    rfl
  | cons entry entries =>
    obtain ⟨members, hmembers⟩ := exists_members entry entries
    refine ⟨.object members, m, rfl, m.toList, ?_, m.ofList_toList.symm⟩
    rw [hmembers]
    exact hentries

theorem exists_saying (options : Options) (f : Field) : ∃ doc, options.Says f doc := by
  have hsome (f : Field) (v : f.Value) : ∃ doc, SaysOptional f.Says doc (some v) := by
    cases f with
    | outDir => exact (exists_saysText v).imp fun _ h => h.1
    | includes => exact exists_saysTexts v
    | excludes => exact exists_saysTexts v
    | pathAliases => exact exists_saysMap v
    | _ => exact ⟨.scalar (.boolean v) rfl, v, rfl, rfl⟩
  simp only [Says]
  cases options.given f with
  | none => exact ⟨.scalar .null rfl, rfl⟩
  | some v => exact hsome f v

theorem exists_gives (options : Options) (f : Field) : ∃ entry, options.Gives f entry := by
  obtain ⟨doc, hdoc⟩ := exists_saying options f
  exact ⟨⟨f.key, .of_spells (spells_key f), doc⟩, names_key f, hdoc⟩

/-- All options can be written, in any order as an object, and as an array. -/
theorem exists_writtenAs (options : Options) :
    (∀ fs ≠ [], fs.Nodup → (∀ f ∉ fs, options.given f = none) → ∃ members : Members,
        List.Forall₂ (fun entry f => options.Gives f entry) members.entries fs ∧ options.WrittenAs (.object members)) ∧
      ∃ elements, options.WrittenAs (.array elements) := by
  constructor
  · intro fs hne hfs hothers
    obtain ⟨entries, hentries⟩ := exists_forall₂ (exists_gives options) fs
    cases entries with
    | nil => exact absurd (List.forall₂_nil_left_iff.1 hentries) hne
    | cons entry entries =>
      obtain ⟨members, hmembers⟩ := exists_members entry entries
      rw [← hmembers] at hentries
      exact ⟨members, hentries, .object hfs hentries.flip hothers⟩
  · obtain ⟨docs, hdocs⟩ := exists_forall₂ (exists_saying options) Field.inOrder
    cases docs with
    | nil => cases hdocs
    | cons doc docs =>
      obtain ⟨elements, helements⟩ := exists_elements doc docs
      rw [← helements] at hdocs
      exact ⟨elements, .array hdocs.flip⟩

/-- Every choice of options is what some text is decoded to. -/
theorem exists_decode (options : Options) : ∃ t, decode t = .ok options := by
  have hspaces : IsSpaces [] := by simp [IsSpaces]
  obtain ⟨elements, helements⟩ := (exists_writtenAs options).2
  exact ⟨_, (decode_eq_ok_iff (isText_spelled hspaces (.array elements))).2 helements⟩

/-! ### Some texts -/

theorem spells_include : Spells "incl\\u0075de" "include" := by
  have hunit : Spells ['\\', 'u', '0', '0', '7', '5', 'd', 'e'] ['u', 'd', 'e'] :=
    .unit (hex4?_eq_some_iff.1 rfl) (by decide) (spells_self (by decide))
  exact (spells_self (by decide) : Spells "incl" "incl").append hunit

theorem spells_quote : Spells "a\\\"b" "a\"b" := by
  have hquote : Spells ['\\', '"', 'b'] ['"', 'b'] := .escape .quote (spells_self (by decide))
  exact (spells_self (by decide) : Spells "a" "a").append hquote

theorem spells_manifestKey : Spells Field.manifestKey Field.manifestKey := spells_self (by decide)

theorem names_manifestKey : Field.copyManifest.Names Field.manifestKey :=
  ⟨Field.manifestKey, by rw [← Field.keys_eq]; simp [Field.keys], spells_manifestKey⟩

/-- An object with `null`, with the second key of an option, and with escapes in a key and a value. -/
def escaping : Members :=
  .cons (Field.key .outDir) (.of_spells (spells_key _)) (.scalar .null rfl)
    (.cons Field.manifestKey (.of_spells spells_manifestKey) (.scalar (.boolean false) rfl)
      (.last "incl\\u0075de" (.of_spells spells_include)
        (.array (.last (.scalar (.text "a\\\"b" (.of_spells spells_quote)) rfl) false)) false))

/-- An object that gives an option under both of its keys. -/
def ambiguous : Members :=
  .cons (Field.key .copyManifest) (.of_spells (spells_key _)) (.scalar (.boolean true) rfl)
    (.last Field.manifestKey (.of_spells spells_manifestKey) (.scalar (.boolean true) rfl) false)

/-- An array with a flag behind so many times `null`. -/
def onlyLast : Nat → Elements
  | 0 => .last (.scalar (.boolean true) rfl) false
  | n + 1 => .cons (.scalar .null rfl) (onlyLast n)

theorem writtenAs_escaping :
    WrittenAs { includes := some ["a\"b"], copyManifest := some false } (.object escaping) := by
  have hfs : [Field.outDir, Field.copyManifest, Field.includes].Nodup := by decide
  have hincludes : Field.includes.Names "incl\\u0075de" := ⟨"include", by decide, spells_include⟩
  refine .object hfs (.cons ⟨names_key _, rfl⟩ (.cons ⟨names_manifestKey, false, rfl, rfl⟩
    (.cons ⟨hincludes, ["a\"b"], rfl, .cons spells_quote .nil⟩ .nil))) fun f hf => ?_
  cases f <;> first | rfl | exact absurd hf (by decide)

theorem writtenAs_onlyLast : WrittenAs { preserveComments := some true } (.array (onlyLast 9)) := by
  refine .array (.cons rfl (.cons rfl (.cons rfl (.cons rfl (.cons rfl (.cons rfl (.cons rfl (.cons rfl (.cons rfl
    (.cons ?_ .nil))))))))))
  exact ⟨true, rfl, rfl⟩

theorem giveTwice_ambiguous : GiveTwice ambiguous.entries :=
  ⟨.copyManifest, _, _, .refl _, names_key _, names_manifestKey⟩

theorem decodes_of_isText_spelled :
    IsText (.object escaping)
        " \x7b \"outDir\" : null , \"copyAppsscriptJson\" : false , \"incl\\u0075de\" : [ \"a\\\"b\" ] \x7d " ∧
      decode " \x7b \"outDir\" : null , \"copyAppsscriptJson\" : false , \"incl\\u0075de\" : [ \"a\\\"b\" ] \x7d " =
        .ok { includes := some ["a\"b"], copyManifest := some false } ∧
      IsText (.array (onlyLast 9)) "[null,null,null,null,null,null,null,null,null,true]" ∧
      decode "[null,null,null,null,null,null,null,null,null,true]" = .ok { preserveComments := some true } ∧
      IsText (.object ambiguous) "\x7b\"copyManifest\":true,\"copyAppsscriptJson\":true\x7d" ∧
      ∃ fault, decode "\x7b\"copyManifest\":true,\"copyAppsscriptJson\":true\x7d" = .error fault := by
  have hspace : IsSpaces " " := by simp [IsSpaces, IsSpace]
  have hnone : IsSpaces [] := by simp [IsSpaces]
  have hescaping := isText_spelled hspace (.object escaping)
  have hlast := isText_spelled hnone (.array (onlyLast 9))
  have hambiguous := isText_spelled hnone (.object ambiguous)
  exact ⟨hescaping, ((decodes_of_isText hescaping).ok_iff _).2 writtenAs_escaping, hlast,
    ((decodes_of_isText hlast).ok_iff _).2 writtenAs_onlyLast, hambiguous,
    (decodes_of_isText hambiguous).twice _ rfl giveTwice_ambiguous⟩

end Options

end AppsScript
