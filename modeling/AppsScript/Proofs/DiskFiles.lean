import AppsScript.FileSystem.Disk
import AppsScript.Proofs.Keys
import AppsScript.Proofs.OrderedMaps

/-!
# Files on a disk

Where a path leads is told by the directories and links that it goes through (`Disk.Leads`). Making directories and
writing files keeps these (`Disk.Grows`), so a path that leads to a directory goes on to lead there. A file that is
written into a directory is found there under its name until it is written again.
-/

namespace AppsScript

namespace Disk

variable {d d' d'' : Disk} {purpose : Purpose} {links links' : Nat} {dir dir' key key' : Key} {name segment : Text}
  {segments rest : List Text} {node : Node} {p : Path} {slash : Bool} {content target : Text} {bytes : List UInt8}

/-! ### Growing -/

theorem node?_put (hkey : key ≠ []) : (d.put key node).node? key' = if key' = key then some node else d.node? key' := by
  rw [node?, node?, put]
  by_cases h : key' = key
  · subst h
    rw [if_neg hkey, if_pos rfl, OrderedMap.get?_insert, if_pos rfl]
  · rw [if_neg h, OrderedMap.get?_insert, if_neg h]

/-- The directories of `d` are in `d'` as well, and the links are the same. -/
structure Grows (d d' : Disk) : Prop where
  dir : ∀ key, d.node? key = some .dir → d'.node? key = some .dir
  link : ∀ key target, d'.node? key = some (.link target) ↔ d.node? key = some (.link target)

namespace Grows

theorem refl (d : Disk) : Grows d d := ⟨fun _ h => h, fun _ _ => .rfl⟩

theorem trans (h : Grows d d') (h' : Grows d' d'') : Grows d d'' :=
  ⟨fun key hkey => h'.dir key (h.dir key hkey), fun key target => (h'.link key target).trans (h.link key target)⟩

/-- Something that is no link is put where there was no directory and no link. -/
theorem put (hkey : key ≠ []) (hnode : ∀ target, node ≠ .link target) (hdir : d.node? key ≠ some .dir)
    (hlink : ∀ target, d.node? key ≠ some (.link target)) : Grows d (d.put key node) where
  dir key' h := by
    rw [node?_put hkey, if_neg, h]
    rintro rfl
    exact hdir h
  link key' target := by
    rw [node?_put hkey]
    split_ifs with h
    · subst h
      exact ⟨fun h => absurd (Option.some.inj h) (hnode target), fun h => absurd h (hlink target)⟩
    · rfl

end Grows

/-! ### Following paths -/

/-- A segment that is looked up in a directory. -/
structure IsName (segment : Text) : Prop where
  not_silent : ¬ (segment = [] ∨ segment = ".")
  ne_parent : segment ≠ ".."
  short : ¬ maxName < Text.byteCount segment

/-- From `dir` on, the segments lead to the directory `dir'` through directories and links; of the links that they
may lead through, `links'` are left. -/
inductive Leads (d : Disk) : (links : Nat) → (dir : Key) → List Text → (links' : Nat) → (dir' : Key) → Prop
  | nil {links : Nat} {dir : Key} : Leads d links dir [] links dir
  | silent {links links' : Nat} {dir dir' : Key} {segment : Text} {rest : List Text}
    (hsegment : segment = [] ∨ segment = ".") (hrest : Leads d links dir rest links' dir') :
    Leads d links dir (segment :: rest) links' dir'
  | parent {links links' : Nat} {dir dir' : Key} {rest : List Text}
    (hrest : Leads d links dir.dropLast rest links' dir') : Leads d links dir (".." :: rest) links' dir'
  | dir {links links' : Nat} {dir dir' : Key} {segment : Text} {rest : List Text} (hname : IsName segment)
    (hnode : d.node? (dir ++ [segment]) = some .dir) (hrest : Leads d links (dir ++ [segment]) rest links' dir') :
    Leads d links dir (segment :: rest) links' dir'
  | link {links links' : Nat} {dir dir' : Key} {segment target : Text} {rest : List Text} (hname : IsName segment)
    (hnode : d.node? (dir ++ [segment]) = some (.link target))
    (hrest : Leads d links (if Path.isAbsolute ⟨target⟩ then [] else dir) (Path.segments ⟨target⟩ ++ rest) links' dir') :
    Leads d (links + 1) dir (segment :: rest) links' dir'

theorem exists_leads (h : d.follow .find links dir segments = .ok (.there dir' .dir)) :
    ∃ links', Leads d links dir segments links' dir' := by
  fun_induction follow d .find links dir segments with
  | case1 links dir =>
    obtain ⟨rfl, -⟩ := Spot.there.inj (Except.ok.inj h)
    exact ⟨links, .nil⟩
  | case2 links dir segment rest hsilent ih =>
    obtain ⟨links', hrest⟩ := ih h
    exact ⟨links', .silent hsilent hrest⟩
  | case3 links dir rest hparent ih =>
    obtain ⟨links', hrest⟩ := ih h
    exact ⟨links', .parent hrest⟩
  | case8 links dir segment rest isLast hsilent hparent hwrite hlong key hnode ih =>
    obtain ⟨links', hrest⟩ := ih h
    exact ⟨links', .dir ⟨hsilent, hparent, hlong⟩ hnode hrest⟩
  | case13 dir segment rest isLast hsilent hparent hwrite hlong key target hnode hmake links start ih =>
    obtain ⟨links', hrest⟩ := ih h
    exact ⟨links', .link ⟨hsilent, hparent, hlong⟩ hnode hrest⟩
  | _ => exact absurd h (by simp)

namespace Leads

theorem mono (hgrows : Grows d d') (h : Leads d links dir segments links' dir') :
    Leads d' links dir segments links' dir' := by
  induction h with
  | nil => exact .nil
  | silent hsegment _ ih => exact .silent hsegment ih
  | parent _ ih => exact .parent ih
  | dir hname hnode _ ih => exact .dir hname (hgrows.dir _ hnode) ih
  | link hname hnode _ ih => exact .link hname ((hgrows.link _ _).2 hnode) ih

/-- Segments that go on are followed from the directory that the ones before them lead to. -/
theorem follow_append (h : Leads d links dir segments links' dir')
    (hrest : purpose = .find ∨ rest.all List.isEmpty = false) :
    d.follow purpose links dir (segments ++ rest) = d.follow purpose links' dir' rest := by
  -- a segment is never the last one unless for a purpose that makes no difference
  have hlast {before : List Text} (other : Purpose) (hother : other ≠ .find) :
      ¬ ((before ++ rest).all List.isEmpty = true ∧ purpose = other) := by
    rintro ⟨hall, rfl⟩
    rw [List.all_append, hrest.resolve_left hother, Bool.and_false] at hall
    cases hall
  induction h with
  | nil => rfl
  | silent hsegment _ ih => rw [List.cons_append, follow, if_pos hsegment, ih]
  | parent _ ih => rw [List.cons_append, follow, if_neg (by decide), if_pos rfl, ih]
  | dir hname hnode _ ih =>
    rw [List.cons_append, follow, if_neg hname.not_silent, if_neg hname.ne_parent,
      if_neg fun h => hlast .write (by simp) ⟨h.1, h.2.2⟩, if_neg hname.short]
    simp only [hnode]
    exact ih
  | link hname hnode _ ih =>
    rw [List.cons_append, follow, if_neg hname.not_silent, if_neg hname.ne_parent,
      if_neg fun h => hlast .write (by simp) ⟨h.1, h.2.2⟩, if_neg hname.short]
    simp only [hnode]
    rw [if_neg (hlast .make (by simp)), ← List.append_assoc]
    exact ih

theorem follow_eq (h : Leads d links dir segments links' dir') :
    d.follow .find links dir segments = .ok (.there dir' .dir) := by
  have hfollow : d.follow .find links dir (segments ++ []) = d.follow .find links' dir' [] := h.follow_append (.inl rfl)
  rw [List.append_nil] at hfollow
  rw [hfollow, follow]

/-- Without the empty segment behind a slash at the end, the rest leads to the same directory. -/
theorem of_append_silent (h : Leads d links dir (segments ++ [[]]) links' dir') :
    Leads d links dir segments links' dir' := by
  generalize hall : segments ++ [[]] = all at h
  induction h generalizing segments with
  | nil => simp at hall
  | silent hsegment hrest ih =>
    rcases List.append_eq_cons_iff.1 hall with ⟨rfl, hend⟩ | ⟨rest, rfl, rfl⟩
    · obtain ⟨-, rfl⟩ := List.cons.inj hend
      exact hrest
    · exact .silent hsegment (ih rfl)
  | parent _ ih =>
    rcases List.append_eq_cons_iff.1 hall with ⟨-, hend⟩ | ⟨rest, rfl, rfl⟩
    · cases hend
    · exact .parent (ih rfl)
  | dir hname hnode _ ih =>
    rcases List.append_eq_cons_iff.1 hall with ⟨-, hend⟩ | ⟨rest, rfl, rfl⟩
    · exact absurd (.inl (List.cons.inj hend).1.symm) hname.not_silent
    · exact .dir hname hnode (ih rfl)
  | link hname hnode _ ih =>
    rcases List.append_eq_cons_iff.1 hall with ⟨-, hend⟩ | ⟨rest, rfl, rfl⟩
    · exact absurd (.inl (List.cons.inj hend).1.symm) hname.not_silent
    · exact .link hname hnode (ih (List.append_assoc _ _ _))

theorem of_silent (h : rest.all List.isEmpty = true) : Leads d links dir rest links dir := by
  induction rest with
  | nil => exact .nil
  | cons segment rest ih =>
    rw [List.all_cons, Bool.and_eq_true, List.isEmpty_iff] at h
    exact .silent (.inl h.1) (ih h.2)

end Leads

/-- A directory that is made where a path leads to nothing yet is where the path leads. -/
theorem leads_of_free (h : d.follow .make links dir segments = .ok (.free dir' name slash)) (hgrows : Grows d d')
    (hdir : d'.node? (dir' ++ [name]) = some .dir) : ∃ links', Leads d' links dir segments links' (dir' ++ [name]) := by
  fun_induction follow d .make links dir segments with
  | case2 links dir segment rest hsilent ih =>
    obtain ⟨links', hrest⟩ := ih h
    exact ⟨links', .silent hsilent hrest⟩
  | case3 links dir rest hparent ih =>
    obtain ⟨links', hrest⟩ := ih h
    exact ⟨links', .parent hrest⟩
  | case6 links dir segment rest isLast hsilent hparent hwrite hlong key hnode hlast =>
    obtain ⟨rfl, rfl, -⟩ := Spot.free.inj (Except.ok.inj h)
    exact ⟨links, .dir ⟨hsilent, hparent, hlong⟩ hdir (.of_silent hlast)⟩
  | case8 links dir segment rest isLast hsilent hparent hwrite hlong key hnode ih =>
    obtain ⟨links', hrest⟩ := ih h
    exact ⟨links', .dir ⟨hsilent, hparent, hlong⟩ (hgrows.dir _ hnode) hrest⟩
  | case13 dir segment rest isLast hsilent hparent hwrite hlong key target hnode hmake links start ih =>
    obtain ⟨links', hrest⟩ := ih h
    exact ⟨links', .link ⟨hsilent, hparent, hlong⟩ ((hgrows.link _ _).2 hnode) hrest⟩
  | _ => exact absurd h (by simp)

/-- A free place is free, and a file that is found is there. -/
theorem node?_of_follow : (∀ dir' name slash, d.follow purpose links dir segments = .ok (.free dir' name slash) →
      d.node? (dir' ++ [name]) = none) ∧
    ∀ key bytes, d.follow purpose links dir segments = .ok (.there key (.file bytes)) →
      d.node? key = some (.file bytes) := by
  fun_induction follow d purpose links dir segments with
  | case2 links dir segment rest hsilent ih => exact ih
  | case3 links dir rest hparent ih => exact ih
  | case6 links dir segment rest isLast hsilent hparent hwrite hlong key hnode hlast =>
    refine ⟨fun dir' name slash h => ?_, fun _ _ h => by simp at h⟩
    obtain ⟨rfl, rfl, -⟩ := Spot.free.inj (Except.ok.inj h)
    exact hnode
  | case8 links dir segment rest isLast hsilent hparent hwrite hlong key hnode ih => exact ih
  | case9 links dir segment rest isLast hsilent hparent hwrite hlong key bytes hnode hend =>
    refine ⟨fun _ _ _ h => by simp at h, fun key' bytes' h => ?_⟩
    obtain ⟨rfl, hbytes⟩ := Spot.there.inj (Except.ok.inj h)
    rw [← hbytes]
    exact hnode
  | case13 dir segment rest isLast hsilent hparent hwrite hlong key target hnode hmake links start ih => exact ih
  | _ => simp

/-! ### Directories -/

/-- The path leads to a directory. -/
def LeadsTo (d : Disk) (p : Path) (dir : Key) : Prop :=
  spellingFault? p.text = none ∧ ∃ links, Leads d maxLinks [] p.segments links dir

theorem LeadsTo.mono (hgrows : Grows d d') (h : LeadsTo d p dir) : LeadsTo d' p dir :=
  ⟨h.1, h.2.imp fun _ hleads => hleads.mono hgrows⟩

theorem leadsTo_iff : LeadsTo d p dir ↔ d.find p = .ok (dir, .dir) := by
  rw [LeadsTo, find, spot]
  cases hspelling : spellingFault? p.text with
  | some fault => simp
  | none =>
    rw [and_iff_right rfl]
    constructor
    · rintro ⟨links, hleads⟩
      simp only [hleads.follow_eq]
    · intro h
      cases hfollow : d.follow .find maxLinks [] p.segments with
      | error fault => simp [hfollow] at h
      | ok spot =>
        cases spot with
        | free => simp [hfollow] at h
        | there key node =>
          simp only [hfollow, Except.ok.injEq, Prod.mk.injEq] at h
          obtain ⟨rfl, rfl⟩ := h
          exact exists_leads hfollow

theorem isDir_iff : d.isDir p = true ↔ ∃ dir, LeadsTo d p dir := by
  simp only [leadsTo_iff, isDir]
  split
  · next key h => simp [h]
  · next hnot => simpa using fun key => hnot key

/-- All that is on `d` is on `d'` as well, where there are no other links. -/
structure Extends (d d' : Disk) : Prop where
  node : ∀ key node, d.node? key = some node → d'.node? key = some node
  link : ∀ key target, d'.node? key = some (.link target) → d.node? key = some (.link target)

namespace Extends

theorem refl (d : Disk) : Extends d d := ⟨fun _ _ h => h, fun _ _ h => h⟩

theorem trans (h : Extends d d') (h' : Extends d' d'') : Extends d d'' :=
  ⟨fun key node hkey => h'.node key node (h.node key node hkey),
    fun key target hkey => h.link key target (h'.link key target hkey)⟩

theorem grows (h : Extends d d') : Grows d d' := ⟨fun key => h.node key .dir, fun key target => ⟨h.link key target, h.node key _⟩⟩

theorem putDir (hfree : d.node? key = none) : Extends d (d.put key .dir) := by
  have hkey : key ≠ [] := by
    rintro rfl
    cases hfree
  constructor
  · intro key' node h
    rw [node?_put hkey, if_neg, h]
    rintro rfl
    rw [hfree] at h
    cases h
  · intro key' target h
    rw [node?_put hkey] at h
    split_ifs at h
    · cases h
    · exact h

end Extends

theorem makeDir_cases (d : Disk) (p : Path) :
    (∃ dir, d.makeDir p = (.ok (), d.put dir .dir) ∧ d.node? dir = none ∧ LeadsTo (d.put dir .dir) p dir) ∨
      ∃ fault, d.makeDir p = (.error fault, d) := by
  rw [makeDir]
  cases hspot : d.spot .make p with
  | error fault => exact .inr ⟨fault, rfl⟩
  | ok spot =>
    cases spot with
    | there key node => exact .inr ⟨_, rfl⟩
    | free dir name slash =>
      rw [Disk.spot] at hspot
      cases hspelling : spellingFault? p.text with
      | some fault => simp [hspelling] at hspot
      | none =>
        rw [hspelling] at hspot
        have hfree := node?_of_follow.1 dir name slash hspot
        have hdir : (d.put (dir ++ [name]) .dir).node? (dir ++ [name]) = some .dir := by
          rw [node?_put (by simp), if_pos rfl]
        exact .inl ⟨_, rfl, hfree, hspelling, leads_of_free hspot (Extends.putDir hfree).grows hdir⟩

/-- What making directories comes to: more directories, and if it succeeds the path leads to one. -/
structure Makes (d : Disk) (p : Path) (made : Except Fault Unit × Disk) : Prop where
  extended : Extends d made.2
  leadsTo : made.1 = .ok () → ∃ dir, LeadsTo made.2 p dir

theorem makes_makeDirIfNew (d : Disk) (p : Path) : Makes d p (d.makeDirIfNew p) := by
  rw [makeDirIfNew]
  rcases d.makeDir_cases p with ⟨dir, hmade, hfree, hleads⟩ | ⟨fault, hmade⟩
  · rw [hmade]
    exact ⟨.putDir hfree, fun _ => ⟨dir, hleads⟩⟩
  · rw [hmade]
    refine ⟨.refl d, fun h => isDir_iff.1 ?_⟩
    by_contra hnot
    replace h : (if d.isDir p then .ok () else .error fault : Except Fault Unit) = .ok () := h
    rw [if_neg hnot] at h
    cases h

theorem makes_createDirsFrom (d : Disk) (above : Nat) (p : Path) : Makes d p (d.createDirsFrom above p) := by
  induction above generalizing d p with
  | zero => exact makes_makeDirIfNew d p
  | succ above ih =>
    have hfirst := makes_makeDirIfNew d p
    rw [createDirsFrom]
    split
    · next d' hmissing =>
      -- the directory above is made first
      rw [hmissing] at hfirst
      have habove := ih d' (p.parent?.getD "")
      split
      · next d'' hparent =>
        rw [hparent] at habove
        have hlast := makes_makeDirIfNew d'' p
        exact ⟨(hfirst.extended.trans habove.extended).trans hlast.extended, hlast.leadsTo⟩
      · next hfailed =>
        refine ⟨hfirst.extended.trans habove.extended, fun h => ?_⟩
        exact (hfailed _ (Prod.ext h rfl)).elim
    · exact hfirst

theorem makes_createDirs (d : Disk) (hp : p.text ≠ []) : Makes d p (d.createDirs p) := by
  rw [createDirs, if_neg hp]
  exact makes_createDirsFrom d _ p

/-! ### Files -/

/-- A path into a directory is followed from there, if its spelling is allowed. -/
theorem exists_spot_join (hp : LeadsTo d p dir) (hname : Component.IsStep (.normal name))
    (hspelling : spellingFault? (p.join ⟨name⟩).text = none) :
    ∃ links', ∀ purpose, d.spot purpose (p.join ⟨name⟩) = d.follow purpose links' dir [name] := by
  obtain ⟨-, links', hleads⟩ := hp
  have hsteps : ∀ n ∈ [name], Component.IsStep (.normal n) := by simpa using hname
  have habsolute := Key.isAbsolute_spelled (by simp) hsteps
  obtain ⟨segments, hsegments, hp⟩ := Path.exists_segments_join p habsolute
  rw [Key.segments_spelled (by simp) hsteps] at hsegments
  have hrest : [name].all List.isEmpty = false := by
    have hne : name ≠ [] := by
      rintro rfl
      exact absurd hname.1 (by decide)
    simpa using hne
  have hjoin : p.join ⟨name⟩ = p.join (Key.spelled [name]) := by simp [Key.spelled, Text.joinWith]
  replace hleads : Leads d maxLinks [] segments links' dir := by
    rcases hp with hp | hp
    · exact hp ▸ hleads
    · exact (hp ▸ hleads).of_append_silent
  refine ⟨links', fun purpose => ?_⟩
  rw [spot, hspelling, hjoin, hsegments]
  exact hleads.follow_append (.inr hrest)

theorem follow_name (hname : Component.IsStep (.normal name)) : d.follow purpose links dir [name] =
    if maxName < Text.byteCount name then .error .nameTooLong
    else
      match d.node? (dir ++ [name]) with
      | none => .ok (.free dir name false)
      | some (.link _) => d.follow purpose links dir [name]
      | some node => .ok (.there (dir ++ [name]) node) := by
  have hof : Component.ofSegment? name = some (.normal name) := hname.1
  rw [Component.ofSegment?] at hof
  split_ifs at hof with hsilent hparent
  · exact absurd (Option.some.inj hof) (by simp)
  split_ifs with hlong
  · rw [follow, if_neg hsilent, if_neg hparent, if_neg (by simp), if_pos hlong]
  · cases hnode : d.node? (dir ++ [name]) with
    | none =>
      rw [follow, if_neg hsilent, if_neg hparent, if_neg (by simp), if_neg hlong]
      simp only [hnode]
      rfl
    | some node =>
      cases node with
      | link target => rfl
      | dir =>
        rw [follow, if_neg hsilent, if_neg hparent, if_neg (by simp), if_neg hlong]
        simp only [hnode, follow]
      | file bytes =>
        rw [follow, if_neg hsilent, if_neg hparent, if_neg (by simp), if_neg hlong]
        simp only [hnode]
        rfl

/-- The path to a name in a directory is spelled as it has to be. -/
def IsSpelled (p : Path) (name : Text) : Prop :=
  spellingFault? (p.join ⟨name⟩).text = none ∧ ¬ maxName < Text.byteCount name

/-- Writing into a directory puts a file under the name, if no link is there. -/
theorem writeBytes_eq (hp : LeadsTo d p dir) (hname : Component.IsStep (.normal name))
    (hlink : ∀ target, d.node? (dir ++ [name]) ≠ some (.link target))
    (hwrite : d.writeBytes (p.join ⟨name⟩) bytes = (.ok (), d')) :
    d' = d.put (dir ++ [name]) (.file bytes) ∧ d.node? (dir ++ [name]) ≠ some .dir ∧ IsSpelled p name := by
  cases hspelling : spellingFault? (p.join ⟨name⟩).text with
  | some fault => simp [writeBytes, spot, hspelling] at hwrite
  | none =>
    obtain ⟨links', hspot⟩ := exists_spot_join hp hname hspelling
    rw [writeBytes, hspot, follow_name hname] at hwrite
    split_ifs at hwrite with hlong
    · simp at hwrite
    cases hnode : d.node? (dir ++ [name]) with
    | none =>
      rw [hnode] at hwrite
      exact ⟨(Prod.ext_iff.1 hwrite).2.symm, by simp, hspelling, hlong⟩
    | some node =>
      rw [hnode] at hwrite
      cases node with
      | link target => exact absurd hnode (hlink target)
      | dir => simp at hwrite
      | file _ => exact ⟨(Prod.ext_iff.1 hwrite).2.symm, by simp, hspelling, hlong⟩

/-- Wherever a path leads, writing there makes no directory and no link into a file. -/
theorem grows_writeBytes (d : Disk) (p : Path) (bytes : List UInt8) : Grows d (d.writeBytes p bytes).2 := by
  have hput {key : Key} (hkey : key ≠ []) (hdir : d.node? key ≠ some .dir)
      (hlink : ∀ target, d.node? key ≠ some (.link target)) : Grows d (d.put key (.file bytes)) :=
    .put hkey (by simp) hdir hlink
  rw [writeBytes, spot]
  cases spellingFault? p.text with
  | some fault => exact .refl d
  | none =>
    simp only []
    cases hfollow : d.follow .write maxLinks [] p.segments with
    | error fault => exact .refl d
    | ok spot =>
      cases spot with
      | free dir name slash =>
        have hfree := node?_of_follow.1 dir name slash hfollow
        exact hput (by simp) (by simp [hfree]) (by simp [hfree])
      | there key node =>
        cases node with
        | file content =>
          have hnode := node?_of_follow.2 key content hfollow
          have hkey : key ≠ [] := by
            rintro rfl
            cases hnode
          exact hput hkey (by simp [hnode]) (by simp [hnode])
        | dir => exact .refl d
        | link target => exact .refl d

theorem writeBytes_error {fault : Fault} (hwrite : d.writeBytes p bytes = (.error fault, d')) : d' = d := by
  rw [writeBytes] at hwrite
  split at hwrite
  · cases hwrite
  · cases hwrite
  · cases hwrite
    rfl
  · cases hwrite
    rfl

theorem ofUtf8?_utf8 (content : Text) : Text.ofUtf8? (Text.utf8 content) = some content := by
  have hbytes : (⟨(Text.utf8 content).toArray⟩ : ByteArray) = content.utf8Encode := by
    rw [Text.utf8, List.utf8Encode]
    exact ByteArray.ext List.data_toByteArray.symm
  rw [Text.ofUtf8?, hbytes, String.fromUTF8?, dif_pos ByteArray.isValidUTF8_utf8Encode, Option.map_some]
  exact congrArg some String.toList_ofList

theorem readText_of_node? (hp : LeadsTo d p dir) (hname : Component.IsStep (.normal name)) (hspelled : IsSpelled p name)
    (hnode : d.node? (dir ++ [name]) = some (.file (Text.utf8 content))) :
    d.readText (p.join ⟨name⟩) = .ok content := by
  obtain ⟨links', hspot⟩ := exists_spot_join hp hname hspelled.1
  have hread : d.readBytes (p.join ⟨name⟩) = .ok (Text.utf8 content) := by
    rw [readBytes, find, hspot, follow_name hname, if_neg hspelled.2, hnode]
  rw [readText, hread]
  simp only [ofUtf8?_utf8, Except.bind, bind]

end Disk

end AppsScript
