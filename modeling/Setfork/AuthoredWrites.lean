/- AuthoredWrites
   digest: The file set of a write comes back from the commit as it was sent, and without a set the
   files of the parent stay. -/
import Setfork.AuthoredFiles

set_option autoImplicit false
set_option relaxedAutoImplicit false

namespace Setfork.AuthoredWrites

open Setfork.Foundation
open Setfork.Serialize (VersionData)
open Setfork.Readme (versionFiles)
open Setfork.TreeRule
open Setfork.Authored
open Setfork.VersionTree
open Setfork.CarriedTree
open Setfork.AuthoredFiles
open Setfork.PathDoors (versionFiles_root IsFile mem_paths_buildTree)
open Setfork.Repository (mainViolation)

structure InputOk (f : AuthoredInput) : Prop where
  path : authoredPath f.path = true
  name : inputNameOk f.path = true
  executable : f.executable = true → "scripts/".toList.isPrefixOf f.path = true
  text : 0 ∉ f.content

def inputWeight (f : AuthoredInput) : Nat := f.content.length + (utf8 f.path).length

structure SetOk (files : List AuthoredInput) : Prop where
  each : ∀ f ∈ files, InputOk f
  nodup : (files.map AuthoredInput.path).Nodup
  few : files.length ≤ authoredMaxFiles
  bytes : (files.map inputWeight).sum ≤ authoredMaxBytes

private theorem checkInputs_cons {seen : List Text} {tally : AuthoredTally} {f : AuthoredInput}
    {files : List AuthoredInput} :
    checkInputs seen tally (f :: files) = none ↔ InputOk f ∧ f.path ∉ seen ∧
      tally.files + 1 ≤ authoredMaxFiles ∧
        checkInputs (f.path :: seen) ⟨tally.files + 1, tally.bytes + inputWeight f⟩ files = none := by
  rw [checkInputs]
  constructor
  · intro h
    split_ifs at h with hname hexec hseen
    cases hadd : tally.add f.path f.content with
    | error e =>
      rw [hadd] at h
      cases h
    | ok next =>
      rw [hadd] at h
      obtain ⟨htext, hfew, rfl⟩ := (AuthoredTally.add_eq_ok_iff ..).mp hadd
      have hnames : authoredPath f.path = true ∧ inputNameOk f.path = true := by
        simpa [not_or] using hname
      have hscripts : f.executable = true → "scripts/".toList.isPrefixOf f.path = true := by
        intro hset
        rw [hset, Bool.true_and, Bool.not_eq_true'] at hexec
        by_contra hnot
        exact hexec (Bool.eq_false_iff.mpr hnot)
      exact ⟨⟨hnames.1, hnames.2, hscripts, htext⟩, by simpa using hseen, hfew, h⟩
  · rintro ⟨hok, hseen, hfew, hrest⟩
    have hadd := (AuthoredTally.add_eq_ok_iff tally _ f.path f.content).mpr ⟨hok.text, hfew, rfl⟩
    have hname : ¬ (!authoredPath f.path || !inputNameOk f.path) = true := by
      simp [hok.path, hok.name]
    have hexec : ¬ (f.executable && !"scripts/".toList.isPrefixOf f.path) = true := by
      intro h
      rw [Bool.and_eq_true, Bool.not_eq_true'] at h
      rw [hok.executable h.1] at h
      cases h.2
    have hnew : ¬ seen.contains f.path = true := by simpa using hseen
    rw [if_neg hname, if_neg hexec, if_neg hnew, hadd]
    exact hrest

private theorem checkInputs_eq_none_iff (files : List AuthoredInput) (seen : List Text)
    (tally : AuthoredTally) (htally : tally.files ≤ authoredMaxFiles) :
    checkInputs seen tally files = none ↔ (∀ f ∈ files, InputOk f) ∧
      (files.map AuthoredInput.path).Nodup ∧ (∀ f ∈ files, f.path ∉ seen) ∧
      tally.files + files.length ≤ authoredMaxFiles ∧
      tally.bytes + (files.map inputWeight).sum ≤ authoredMaxBytes := by
  induction files generalizing seen tally with
  | nil =>
    rw [checkInputs, AuthoredTally.finish_eq_none_iff]
    simp
  | cons f files ih =>
    rw [checkInputs_cons]
    constructor
    · rintro ⟨hok, hseen, hfew, hrest⟩
      obtain ⟨hall, hnodup, hfresh, hlength, hbytes⟩ := (ih _ _ hfew).mp hrest
      refine ⟨List.forall_mem_cons.mpr ⟨hok, hall⟩, ?_, ?_, ?_, ?_⟩
      · rw [List.map_cons, List.nodup_cons]
        refine ⟨fun hmem => ?_, hnodup⟩
        obtain ⟨g, hg, heq⟩ := List.mem_map.mp hmem
        exact hfresh g hg (heq ▸ List.mem_cons_self)
      · intro g hg
        rcases List.mem_cons.mp hg with rfl | hg
        · exact hseen
        · exact fun hmem => hfresh g hg (List.mem_cons_of_mem _ hmem)
      · simp only [List.length_cons] at hlength ⊢
        omega
      · simp only [List.map_cons, List.sum_cons] at hbytes ⊢
        omega
    · rintro ⟨hall, hnodup, hfresh, hlength, hbytes⟩
      rw [List.map_cons, List.nodup_cons] at hnodup
      simp only [List.length_cons] at hlength
      simp only [List.map_cons, List.sum_cons] at hbytes
      refine ⟨hall f List.mem_cons_self, hfresh f List.mem_cons_self, by omega, ?_⟩
      refine (ih _ ⟨tally.files + 1, tally.bytes + inputWeight f⟩ (by show _ + 1 ≤ _; omega)).mpr ?_
      refine ⟨fun g hg => hall g (List.mem_cons_of_mem f hg), hnodup.2, fun g hg => ?_, ?_, ?_⟩
      · rw [List.mem_cons, not_or]
        refine ⟨fun heq => hnodup.1 (heq ▸ List.mem_map_of_mem hg), ?_⟩
        exact hfresh g (List.mem_cons_of_mem f hg)
      · show tally.files + 1 + files.length ≤ authoredMaxFiles
        omega
      · show tally.bytes + inputWeight f + (files.map inputWeight).sum ≤ authoredMaxBytes
        omega

theorem accepted_iff (files : List AuthoredInput) :
    authoredInputViolation files = none ↔ SetOk files := by
  rw [authoredInputViolation, checkInputs_eq_none_iff files [] .zero (Nat.zero_le _)]
  simp only [AuthoredTally.zero, Nat.zero_add, List.not_mem_nil, not_false_eq_true, implies_true,
    true_and]
  exact ⟨fun h => ⟨h.1, h.2.1, h.2.2.1, h.2.2.2⟩, fun h => ⟨h.each, h.nodup, h.few, h.bytes⟩⟩

theorem accepted_perm {files other : List AuthoredInput} (h : files.Perm other) :
    authoredInputViolation files = none ↔ authoredInputViolation other = none := by
  have hone : ∀ {a b : List AuthoredInput}, a.Perm b → SetOk a → SetOk b := by
    intro a b hab ha
    refine ⟨fun f hf => ha.each f (hab.mem_iff.mpr hf), ?_, ?_, ?_⟩
    · exact (hab.map _).nodup_iff.mp ha.nodup
    · rw [← hab.length_eq]
      exact ha.few
    · rw [← (hab.map inputWeight).sum_eq]
      exact ha.bytes
  rw [accepted_iff, accepted_iff]
  exact ⟨hone h, hone h.symm⟩

def placeOf (path : Text) : Nat := authoredDirs.findIdx fun d => (d ++ ['/']).isPrefixOf path

/-- Files come directory by directory, and in a directory in tree order: by the bytes of the name. -/
def Before (a b : AuthoredFile) : Prop :=
  placeOf a.path < placeOf b.path ∨ placeOf a.path = placeOf b.path ∧
    (utf8 a.path).map UInt8.toNat < (utf8 b.path).map UInt8.toNat

theorem Before.ne {a b : AuthoredFile} (h : Before a b) : a ≠ b := by
  rintro rfl
  rcases h with h | ⟨-, h⟩
  · exact Nat.lt_irrefl _ h
  · exact lt_irrefl _ h

theorem placeOf_dir {d : Text} (hd : d ∈ authoredDirs) (n : Text) :
    placeOf (d ++ '/' :: n) = authoredDirs.idxOf d := by
  simp only [authoredDirs, List.map_cons, List.map_nil, List.mem_cons, List.not_mem_nil,
    or_false] at hd
  rcases hd with rfl | rfl | rfl <;> rfl

private theorem dirs_in_place :
    authoredDirs.Pairwise fun d d' => authoredDirs.idxOf d < authoredDirs.idxOf d' := by decide

theorem before_of_entryLe {d : Text} (hd : d ∈ authoredDirs) {e e' : Name × Entry}
    (hle : TreeBuilder.entryLe e e') (hne : e.1 ≠ e'.1) {a b : AuthoredFile}
    (ha : fileOfEntry d e = some a) (hb : fileOfEntry d e' = some b) : Before a b := by
  obtain ⟨n, hn, hpath, hleaf⟩ := fileOfEntry_eq_some ha
  obtain ⟨m, hm, hpath', hleaf'⟩ := fileOfEntry_eq_some hb
  refine Or.inr ⟨?_, ?_⟩
  · rw [hpath, hpath', placeOf_dir hd, placeOf_dir hd]
  · have hkeys : (utf8 n).map UInt8.toNat ≤ (utf8 m).map UInt8.toNat := by
      simpa [TreeBuilder.entryLe, TreeBuilder.entryKey, hleaf, hleaf', Entry.isDir, hn, hm]
        using hle
    have hdiffer : (utf8 n).map UInt8.toNat ≠ (utf8 m).map UInt8.toNat := by
      intro heq
      have hbytes := List.map_injective_iff.mpr (fun _ _ => UInt8.toNat_inj.mp) heq
      exact hne (Name.bytes_injective (hn.trans (hbytes.trans hm.symm)))
    rw [hpath, hpath', utf8_slash, utf8_slash, List.map_append, List.map_append, List.map_cons,
      List.map_cons]
    exact List.append_left_lt (List.cons_lt_cons_self.mpr (lt_of_le_of_ne hkeys hdiffer))

def fileOfInput (f : AuthoredInput) : AuthoredFile := ⟨f.path, f.content, f.executable⟩

section Written

variable {reserved : Name → Bool} {commits : Bytes → Option Entries} {schemaUrl : Text}
  {v : VersionData} {parent : Option Tree} {source : AuthoredSource} {files : List AuthoredInput}
  {t : Tree}

theorem unlinked_built
    (h : buildTree reserved (versionFiles schemaUrl v) parent source = some t) :
    Unlinked commits t := by
  intro d hd commit hget
  obtain ⟨n, hn, hmem⟩ := (Tree.get_eq_some_iff t d _).mp hget
  rcases (buildTree_entries h).1 _ hmem with ⟨f, -, -, hleaf⟩ | ⟨c, -, s, -, -, hdir⟩
  · cases hleaf
  · cases hdir

theorem replaceSub_sorted {dir : Text} {s : Entries}
    (h : replaceSub reserved files dir = some (some s)) :
    s.Pairwise TreeBuilder.entryLe ∧ (s.map Prod.fst).Nodup := by
  have hput := replaceSub_eq_some h
  obtain ⟨-, -, -, hnodup⟩ := TreeBuilder.putAll_eq_some _ _ _ hput
  exact ⟨TreeBuilder.putAll_sorted _ _ _ hput List.Pairwise.nil, hnodup List.nodup_nil⟩

theorem file_of_written {dir : Text} {s : Entries}
    (h : replaceSub reserved files dir = some (some s)) {e : Name × Entry} (he : e ∈ s) :
    ∃ f ∈ ownFiles files dir, fileOfEntry dir e = some (fileOfInput f) ∧
      e.1.bytes = utf8 (f.path.drop (dir.length + 1)) := by
  obtain ⟨f, hf, hname, hleaf⟩ := (replaceSub_entries h).1 e he
  refine ⟨f, hf, ?_, hname⟩
  have hpath := path_of_ownFile (List.mem_filter.mp hf).2
  rw [List.append_assoc, List.singleton_append] at hpath
  rw [fileOfEntry_file hname hleaf, hpath]
  rfl

theorem written_of_file {dir : Text} {s : Entries}
    (hnodup : (files.map AuthoredInput.path).Nodup)
    (h : replaceSub reserved files dir = some (some s)) {f : AuthoredInput}
    (hf : f ∈ ownFiles files dir) : ∃ e ∈ s, fileOfEntry dir e = some (fileOfInput f) := by
  obtain ⟨e, he, hname⟩ := (replaceSub_entries h).2 f hf
  obtain ⟨g, hg, hfile, hgname⟩ := file_of_written h he
  obtain ⟨hfmem, hfown⟩ := List.mem_filter.mp hf
  obtain ⟨hgmem, hgown⟩ := List.mem_filter.mp hg
  have hrest := utf8_injective (hname.symm.trans hgname)
  have hpath : f.path = g.path := by
    rw [← path_of_ownFile hfown, ← path_of_ownFile hgown, hrest]
  obtain rfl := List.inj_on_of_nodup_map hnodup hfmem hgmem hpath
  exact ⟨e, he, hfile⟩

theorem authoredFiles_replaced
    (h : buildTree reserved (versionFiles schemaUrl v) parent (.replace files) = some t) :
    authoredFiles commits t = authoredDirs.flatMap fun d =>
      (((replaceSub reserved files d).bind id).getD []).filterMap (fileOfEntry d) := by
  rw [authoredFiles_eq (unlinked_built h), authoredEntries_built h, List.filterMap_flatMap]
  refine List.flatMap_congr fun d _ => ?_
  rw [List.filterMap_map]
  rfl

theorem files_in_order
    (h : buildTree reserved (versionFiles schemaUrl v) parent (.replace files) = some t) :
    (authoredFiles commits t).Pairwise Before := by
  rw [authoredFiles_replaced h, List.pairwise_flatMap]
  constructor
  · intro d hd
    cases hsub : (replaceSub reserved files d).bind id with
    | none => exact List.Pairwise.nil
    | some s =>
      obtain ⟨o, ho, rfl⟩ := Option.bind_eq_some_iff.mp hsub
      obtain ⟨hsorted, hnodup⟩ := replaceSub_sorted ho
      have hboth := hsorted.and (List.pairwise_map.mp hnodup)
      refine hboth.filterMap _ fun e e' hee a ha b hb => ?_
      exact before_of_entryLe hd hee.1 hee.2 ha hb
  · refine (List.Pairwise.and_mem.mp dirs_in_place).imp ?_
    rintro d d' ⟨hd, hd', hplace⟩ a ha b hb
    obtain ⟨e, -, hea⟩ := List.mem_filterMap.mp ha
    obtain ⟨e', -, heb⟩ := List.mem_filterMap.mp hb
    obtain ⟨n, -, hpath, -⟩ := fileOfEntry_eq_some hea
    obtain ⟨m, -, hpath', -⟩ := fileOfEntry_eq_some heb
    left
    rw [hpath, hpath', placeOf_dir hd, placeOf_dir hd']
    exact hplace

theorem mem_files_iff (hset : SetOk files)
    (h : buildTree reserved (versionFiles schemaUrl v) parent (.replace files) = some t)
    (a : AuthoredFile) : a ∈ authoredFiles commits t ↔ a ∈ files.map fileOfInput := by
  rw [authoredFiles_replaced h, List.mem_flatMap, List.mem_map]
  constructor
  · rintro ⟨d, hd, ha⟩
    obtain ⟨e, he, hfile⟩ := List.mem_filterMap.mp ha
    cases hsub : (replaceSub reserved files d).bind id with
    | none =>
      rw [hsub] at he
      cases he
    | some s =>
      rw [hsub] at he
      obtain ⟨o, ho, rfl⟩ := Option.bind_eq_some_iff.mp hsub
      obtain ⟨f, hf, hsame, -⟩ := file_of_written ho he
      rw [hfile] at hsame
      exact ⟨f, (List.mem_filter.mp hf).1, (Option.some.inj hsame).symm⟩
  · rintro ⟨f, hf, rfl⟩
    obtain ⟨d, hd, n, -, -, -, -, hpath⟩ := (authoredPath_iff f.path).mp (hset.each f hf).path
    have hown : f ∈ ownFiles files d := by
      refine List.mem_filter.mpr ⟨hf, ?_⟩
      rw [hpath, List.isPrefixOf_iff_prefix]
      exact ⟨n, by simp⟩
    obtain ⟨o, ho⟩ := Option.isSome_iff_exists.mp (buildTree_sub_isSome h d hd)
    have hsub : replaceSub reserved files d = some o := ho
    cases o with
    | none =>
      rw [replaceSub_eq_none hsub] at hown
      cases hown
    | some s =>
      obtain ⟨e, he, hfile⟩ := written_of_file hset.nodup hsub hown
      refine ⟨d, hd, List.mem_filterMap.mpr ⟨e, ?_, hfile⟩⟩
      rw [hsub]
      exact he

theorem files_perm (hset : SetOk files)
    (h : buildTree reserved (versionFiles schemaUrl v) parent (.replace files) = some t) :
    (authoredFiles commits t).Perm (files.map fileOfInput) := by
  have hleft : (authoredFiles commits t).Nodup := (files_in_order h).imp Before.ne
  have hright : (files.map fileOfInput).Nodup := by
    apply List.Nodup.of_map AuthoredFile.path
    rw [List.map_map]
    exact hset.nodup
  exact (List.perm_ext_iff_of_nodup hleft hright).mpr (mem_files_iff hset h)

theorem fileOfEntry_plain {dir : Text} {e : Name × Entry} {a : AuthoredFile}
    (h : fileOfEntry dir e = some a) (htext : 0 ∉ a.content) :
    PlainEntry e.2 ∧ entryWeight (dir, e) = a.content.length + (utf8 a.path).length := by
  obtain ⟨n, hname, hpath, hleaf⟩ := fileOfEntry_eq_some h
  have hshown : authoredEntryPath dir e.1 = a.path := by
    rw [authoredEntryPath, shownText, hname, fromUtf8_utf8, Option.getD_some, hpath]
  refine ⟨⟨a.executable, a.content, hleaf, htext⟩, ?_⟩
  rw [entryWeight, hleaf, hshown]

theorem weights_of_files {xs : List (Text × Name × Entry)}
    (h : ∀ x ∈ xs, ∃ f : AuthoredInput, 0 ∉ f.content ∧ fileOfEntry x.1 x.2 = some (fileOfInput f)) :
    (∀ x ∈ xs, PlainEntry x.2.2) ∧
    (xs.filterMap fun x => fileOfEntry x.1 x.2).length = xs.length ∧
    ((xs.filterMap fun x => fileOfEntry x.1 x.2).map fun a =>
      a.content.length + (utf8 a.path).length) = xs.map entryWeight := by
  induction xs with
  | nil => exact ⟨by simp, rfl, rfl⟩
  | cons x xs ih =>
    obtain ⟨hhead, hrest⟩ := List.forall_mem_cons.mp h
    obtain ⟨f, htext, hfile⟩ := hhead
    obtain ⟨hplain, hweight⟩ := fileOfEntry_plain hfile htext
    obtain ⟨hall, hlength, hweights⟩ := ih hrest
    have hcons : ((x :: xs).filterMap fun x => fileOfEntry x.1 x.2) =
        fileOfInput f :: xs.filterMap fun x => fileOfEntry x.1 x.2 := by
      simp only [List.filterMap_cons, hfile]
    rw [hcons]
    refine ⟨List.forall_mem_cons.mpr ⟨hplain, hall⟩, ?_, ?_⟩
    · rw [List.length_cons, List.length_cons, hlength]
    · rw [List.map_cons, List.map_cons, hweights]
      exact congrArg (· :: _) hweight.symm

theorem input_of_entry (hset : SetOk files)
    (h : buildTree reserved (versionFiles schemaUrl v) parent (.replace files) = some t) :
    ∀ x ∈ authoredEntries t,
      ∃ f : AuthoredInput, 0 ∉ f.content ∧ fileOfEntry x.1 x.2 = some (fileOfInput f) := by
  intro x hx
  rw [authoredEntries_built h] at hx
  obtain ⟨d, -, hxd⟩ := List.mem_flatMap.mp hx
  obtain ⟨e, he, rfl⟩ := List.mem_map.mp hxd
  cases hsub : (replaceSub reserved files d).bind id with
  | none =>
    have hnone : (authoredSub reserved parent (.replace files) d).bind id = none := hsub
    rw [hnone] at he
    cases he
  | some s =>
    have hsome : (authoredSub reserved parent (.replace files) d).bind id = some s := hsub
    rw [hsome] at he
    obtain ⟨o, ho, rfl⟩ := Option.bind_eq_some_iff.mp hsub
    obtain ⟨f, hf, hfile, -⟩ := file_of_written ho he
    exact ⟨f, (hset.each f (List.mem_filter.mp hf).1).text, hfile⟩

theorem authored_written (hset : SetOk files)
    (h : buildTree reserved (versionFiles schemaUrl v) parent (.replace files) = some t) :
    authoredViolation t = none := by
  obtain ⟨hplain, hlength, hweights⟩ := weights_of_files (input_of_entry hset h)
  have hunlinked : Unlinked (fun _ => none) t := unlinked_built h
  have hfiles := authoredFiles_eq hunlinked
  have hperm : (authoredFiles (fun _ => none) t).Perm (files.map fileOfInput) := files_perm hset h
  rw [hfiles] at hperm
  rw [authoredViolation_eq_none_iff]
  refine ⟨hplain, ?_, ?_⟩
  · rw [← hlength, hperm.length_eq, List.length_map]
    exact hset.few
  · rw [← hweights, (hperm.map _).sum_eq, List.map_map]
    exact hset.bytes

theorem leafAllowed_file {f : AuthoredInput} (hpath : authoredPath f.path = true) {p : LeafPath}
    (hp : IsFile p f) : leafAllowed p = true := by
  obtain ⟨d, hd, n, -, hn, hdot, hdots, heq⟩ := (authoredPath_iff f.path).mp hpath
  rw [IsFile, heq, utf8_slash] at hp
  have hslash : 47 ∉ utf8 n := by rwa [slash_mem_utf8]
  obtain ⟨hdir, hname⟩ := (LeafPath.bytes_oneSlash (authoredDirs_noSlash d hd) hslash).mp hp
  refine (leafAllowed_iff p).mpr (Or.inr (Or.inr ⟨d, hd, hdir, ?_⟩))
  rintro (hs | hs)
  · exact hdot (utf8_injective (hname.symm.trans hs))
  · exact hdots (utf8_injective (hname.symm.trans hs))

theorem inFormat_written (hset : SetOk files)
    (h : buildTree reserved (versionFiles schemaUrl v) parent (.replace files) = some t) :
    mainViolation t = none := by
  refine inFormat_built h (fun p hp => ?_) (authored_written hset h)
  rcases mem_paths_buildTree h hp with ⟨hroot, f, hf, hname⟩ | ⟨f, hf, hfile⟩
  · exact (leafAllowed_iff p).mpr (Or.inl ⟨hroot, f.1, versionFiles_root schemaUrl v f hf, hname⟩)
  · exact leafAllowed_file (hset.each f hf).path hfile

theorem authoredFiles_carried {p : Tree} (hparent : Unlinked commits p)
    (h : buildTree reserved (versionFiles schemaUrl v) (some p) .carry = some t) :
    authoredFiles commits t = authoredFiles commits p := by
  have hentries : authoredEntries t = authoredEntries p := authoredEntries_carried h
  rw [authoredFiles_eq (unlinked_built h), authoredFiles_eq hparent, hentries]

end Written

/-- The git library takes every name that the input rule accepts. -/
def InputsFree (reserved : Name → Bool) : Prop :=
  ∀ path, authoredPath path = true → inputNameOk path = true → ∀ n : Name,
    n.bytes = utf8 (lastSegment path) → reserved n = false

theorem ownFile_name {files : List AuthoredInput} {dir : Text} {f : AuthoredInput}
    (hf : f ∈ ownFiles files dir) (hpath : authoredPath f.path = true) :
    f.path.drop (dir.length + 1) ≠ [] ∧ '/' ∉ f.path.drop (dir.length + 1) ∧
      lastSegment f.path = f.path.drop (dir.length + 1) := by
  obtain ⟨d, hd, n, hne, hn, -, -, heq⟩ := (authoredPath_iff f.path).mp hpath
  have hplain : ∀ d ∈ authoredDirs, '/' ∉ d := by decide
  have hown := path_of_ownFile (List.mem_filter.mp hf).2
  rw [List.append_assoc, List.singleton_append] at hown
  obtain ⟨-, -, hdrop⟩ :=
    (List.append_cons_inj_of_notMem (hplain d hd) hn).mp (heq.symm.trans hown.symm)
  rw [← hdrop]
  exact ⟨hne, hn, by rw [heq, PathDoors.lastSegment_append hn]⟩

theorem writable_input {reserved : Name → Bool} (hinputs : InputsFree reserved)
    {files : List AuthoredInput} {dir : Text} {f : AuthoredInput} (hf : f ∈ ownFiles files dir)
    (hok : InputOk f) :
    TreeBuilder.Writable reserved (f.path.drop (dir.length + 1)) := by
  obtain ⟨hne, hslash, hlast⟩ := ownFile_name hf hok.path
  have hnul : Char.ofNat 0 ∉ lastSegment f.path := by
    have hname := hok.name
    simp only [inputNameOk, Bool.and_eq_true, Bool.not_eq_true', List.any_eq_false,
      Bool.or_eq_true, not_or] at hname
    intro hmem
    exact (hname.2 _ hmem).1.1 (by decide)
  rw [hlast] at hnul
  refine ⟨⟨utf8 (f.path.drop (dir.length + 1)), ?_, ?_, ?_⟩, rfl, ?_⟩
  · exact fun hempty => hne (utf8_injective hempty)
  · rwa [slash_mem_utf8]
  · exact fun hmem => hnul ((mem_utf8_ascii (c := Char.ofNat 0) (by decide) _).mp hmem)
  · exact hinputs f.path hok.path hok.name _ (congrArg utf8 hlast.symm)

theorem buildTree_written {reserved : Name → Bool} (hfree : NamesFree reserved)
    (hinputs : InputsFree reserved) (schemaUrl : Text) (v : VersionData) (parent : Option Tree)
    {files : List AuthoredInput} (hset : SetOk files) :
    ∃ t, buildTree reserved (versionFiles schemaUrl v) parent (.replace files) = some t := by
  have hwritable := writable_of_free hfree
  refine buildTree_of_writable (fun f hf => hwritable _ ?_) fun d hd => ?_
  · exact List.mem_append_left _ (versionFiles_root schemaUrl v f hf)
  · obtain ⟨o, ho, hwell⟩ := replaceSub_of_writable fun f hf =>
      writable_input hinputs hf (hset.each f (List.mem_filter.mp hf).1)
    exact ⟨o, ho, fun s hs => ⟨hwritable d (List.mem_append_right _ hd), hwell s hs⟩⟩

/-- A write without a set carries the files over; an empty set replaces them. -/
def modeOf : Option (List AuthoredInput) → AuthoredSource
  | none => .carry
  | some files => .replace files

/-- Whatever the parent is: a set that the input rule accepts makes a version that passes the checks
of main and gives out the set, every file once and in order; acceptance does not look at the order
of the set; and without a set the version gives out the files of a parent none of whose authored
directories is a submodule that the repository has. -/
theorem authored_writes_read_back {reserved : Name → Bool} (hfree : NamesFree reserved)
    (hinputs : InputsFree reserved) (commits : Bytes → Option Entries) (schemaUrl : Text)
    (v : VersionData) (parent : Option Tree) (files : List AuthoredInput) :
    (authoredInputViolation files = none → ∃ t,
      buildTree reserved (versionFiles schemaUrl v) parent (modeOf (some files)) = some t ∧
      mainViolation t = none ∧ (authoredFiles commits t).Perm (files.map fileOfInput) ∧
      (authoredFiles commits t).Pairwise Before) ∧
    (∀ other, files.Perm other →
      (authoredInputViolation files = none ↔ authoredInputViolation other = none)) ∧
    ∀ p, parent = some p → Unlinked commits p → ∃ t,
      buildTree reserved (versionFiles schemaUrl v) parent (modeOf none) = some t ∧
      authoredFiles commits t = authoredFiles commits p := by
  refine ⟨fun haccepted => ?_, fun other h => accepted_perm h, ?_⟩
  · have hset := (accepted_iff files).mp haccepted
    obtain ⟨t, ht⟩ := buildTree_written hfree hinputs schemaUrl v parent hset
    exact ⟨t, ht, inFormat_written hset ht, files_perm hset ht, files_in_order ht⟩
  · rintro p rfl hparent
    obtain ⟨t, ht⟩ := buildTree_carried hfree schemaUrl v (some p)
    exact ⟨t, ht, authoredFiles_carried hparent ht⟩

/-- A set with files of two directories, not in the order they are given out. -/
def severalFiles : List AuthoredInput :=
  [⟨"references/guide.md".toList, utf8 "how to".toList, false⟩,
    ⟨"scripts/run.sh".toList, utf8 "echo new".toList, true⟩,
    ⟨"scripts/before.sh".toList, utf8 "echo old".toList, false⟩]

theorem severalFiles_accepted : authoredInputViolation severalFiles = none := by decide +kernel

/-- The files come back from a version over a list with others, and from the next one without a set. -/
theorem several_files_read_back : ∃ t, mainViolation t = none ∧
    (authoredFiles (fun _ => none) t).Perm (severalFiles.map fileOfInput) ∧
    ∃ u, buildTree (fun _ => false) (versionFiles [] PathDoors.emptyVersion) (some t)
      (modeOf none) = some u ∧
      authoredFiles (fun _ => none) u = authoredFiles (fun _ => none) t := by
  have hfree : NamesFree fun _ => false := fun _ _ _ _ => rfl
  have hinputs : InputsFree fun _ => false := fun _ _ _ _ _ => rfl
  have hwrite (parent : Option Tree) := authored_writes_read_back hfree hinputs (fun _ => none) []
    PathDoors.emptyVersion parent severalFiles
  obtain ⟨t, -, hformat, hperm, -⟩ := (hwrite (some AuthoredDoors.severalTree)).1 severalFiles_accepted
  obtain ⟨u, hu, hsame⟩ := (hwrite (some t)).2.2 t rfl fun _ _ _ _ => rfl
  exact ⟨t, hformat, hperm, u, hu, hsame⟩

/-- A list whose scripts are a submodule. -/
def linkedTree : Tree where
  entries := [(AuthoredDoors.scriptsName, .leaf (.gitlink (List.replicate 20 1)))]
  wellFormed := by
    simp [Entry.wellFormed, Entry.entriesWellFormed]

/-- A repository that has the commit of the submodule, with one script in it. -/
def linkedCommits : Bytes → Option Entries :=
  fun _ => some [(AuthoredDoors.scriptName, .leaf (.file false []))]

/-- The submodule is given out as a directory and is not carried over. -/
theorem linked_scripts_not_carried : ∃ t,
    buildTree (fun _ => false) (versionFiles [] PathDoors.emptyVersion) (some linkedTree)
      (modeOf none) = some t ∧
    authoredFiles linkedCommits t ≠ authoredFiles linkedCommits linkedTree := by
  have hfree : NamesFree fun _ => false := fun _ _ _ _ => rfl
  obtain ⟨t, ht⟩ := buildTree_carried hfree [] PathDoors.emptyVersion (some linkedTree)
  have hentries : authoredEntries t = authoredEntries linkedTree := authoredEntries_carried ht
  have hempty : authoredEntries linkedTree = [] := by decide
  have hlinked : authoredFiles linkedCommits linkedTree ≠ [] := by decide
  refine ⟨t, ht, ?_⟩
  rw [authoredFiles_eq (unlinked_built ht), hentries, hempty]
  exact hlinked.symm

end Setfork.AuthoredWrites
