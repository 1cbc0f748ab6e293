/- PlacedFiles
   digest: The core's own operations leave files in their places and move main to trees in the
   format only. -/
import Setfork.CarriedTree
import Setfork.Received
import Setfork.Service

set_option autoImplicit false
set_option relaxedAutoImplicit false

namespace Setfork.PlacedFiles

open Setfork.Foundation
open Setfork.Serialize
open Setfork.Rows
open Setfork.Readme (versionFiles)
open Setfork.TreeRule
open Setfork.Authored
open Setfork.AuthoredDoors
open Setfork.VersionTree
open Setfork.CarriedTree
open Setfork.Repository
open Setfork.History
open Setfork.Alignment
open Setfork.WebVersion
open Setfork.Push
open Setfork.Received
open Setfork.Branches
open Setfork.Service

def PlacedCommit (c : Commit) : Prop := ∀ p ∈ c.tree.paths, Placed p

theorem placed_built {reserved : Name → Bool} {schemaUrl : Text} {v : VersionData}
    {parent : Option Tree} {authored : AuthoredSource} {t : Tree}
    (h : buildTree reserved (versionFiles schemaUrl v) parent authored = some t)
    (hparent : ∀ q, parent = some q → ∀ p ∈ q.paths, Placed p) : ∀ p ∈ t.paths, Placed p := by
  intro p hp
  cases authored with
  | carry =>
    rcases mem_paths_carried h hp with hroot | ⟨q, hq, hpq⟩
    · exact Or.inl hroot
    · exact hparent q hq p hpq
  | replace files =>
    rcases mem_paths_built h hp with hroot | ⟨d, hd, s, hs, n, hn, x, hx, rfl⟩
    · exact Or.inl hroot
    · obtain ⟨e, he, hxe⟩ := Entry.mem_leavesIn.mp hx
      obtain ⟨f, -, -, hleaf⟩ := (replaceSub_entries hs).1 e he
      rw [hleaf, Entry.leavesAt, List.mem_singleton] at hxe
      rw [hxe]
      exact Or.inr (Or.inr ⟨d, hd, n, rfl, hn⟩)

section History

variable {core : Core} {refs : Refs}

theorem holds_commitVersion {parent : Option Commit} {v : VersionData} {authored : AuthoredSource}
    {c : Commit} (h : commitVersion core parent v authored = some c)
    (hparent : ∀ p ∈ parent, Refs.Holds PlacedCommit (.commit p)) :
    Refs.Holds PlacedCommit (.commit c) := by
  obtain ⟨t, ht, rfl⟩ := Option.map_eq_some_iff.mp h
  rw [Refs.holds_commit_iff]
  constructor
  · apply placed_built ht
    intro q hq
    obtain ⟨p, hp, rfl⟩ := Option.map_eq_some_iff.mp hq
    exact hparent p hp p rfl p .refl
  · intro p hp
    exact hparent p (Option.mem_toList.mp hp)

theorem holds_commitAll {parent : Option Commit} {versions : List VersionData}
    {authored : AuthoredSource} {made : List (Int × Commit)}
    (h : commitAll core authored parent versions = some made)
    (hparent : ∀ p ∈ parent, Refs.Holds PlacedCommit (.commit p)) :
    ∀ m ∈ made, Refs.Holds PlacedCommit (.commit m.2) := by
  induction versions generalizing parent made with
  | nil =>
    obtain rfl := Option.some.inj h
    exact fun m hm => absurd hm List.not_mem_nil
  | cons v versions ih =>
    obtain ⟨c, hc, hrest⟩ := Option.bind_eq_some_iff.mp h
    obtain ⟨later, hlater, rfl⟩ := Option.map_eq_some_iff.mp hrest
    have hfirst := holds_commitVersion hc hparent
    intro m hm
    rcases List.mem_cons.mp hm with rfl | hm
    · exact hfirst
    · apply ih hlater _ m hm
      intro p hp
      rw [← Option.some.inj hp]
      exact hfirst

/-- Everything the references lead to has its files in their places, and main is a commit. -/
structure Orderly (refs : Refs) : Prop where
  placed : Refs.All PlacedCommit refs
  main : ∃ c, refs.lookup mainRef = some (.commit c)

/-- A change that keeps files in their places and moves main only to trees in the format. -/
structure Keeps (before after : Refs) : Prop where
  placed : Refs.All PlacedCommit after
  main : after.lookup mainRef = before.lookup mainRef ∨
    ∃ c, after.lookup mainRef = some (.commit c) ∧ mainViolation c.tree = none

namespace Keeps

variable {before middle after : Refs}

protected theorem refl (h : Refs.All PlacedCommit refs) : Keeps refs refs := ⟨h, Or.inl rfl⟩

protected theorem trans (h : Keeps before middle) (h' : Keeps middle after) :
    Keeps before after := by
  refine ⟨h'.placed, ?_⟩
  rcases h'.main with hsame | hmoved
  · rw [hsame]
    exact h.main
  · exact Or.inr hmoved

theorem orderly (h : Keeps before after) (hbefore : Orderly before) : Orderly after := by
  refine ⟨h.placed, ?_⟩
  rcases h.main with hsame | ⟨c, hc, -⟩
  · rw [hsame]
    exact hbefore.main
  · exact ⟨c, hc⟩

theorem insert (h : Refs.All PlacedCommit refs) {name : Text} {t : Target}
    (hname : name ≠ mainRef) (ht : Refs.Holds PlacedCommit t) : Keeps refs (refs.insert name t) :=
  ⟨h.insert ht, Or.inl (AList.lookup_insert_ne hname.symm)⟩

theorem insert_main (h : Refs.All PlacedCommit refs) {c : Commit}
    (hc : Refs.Holds PlacedCommit (.commit c)) (hformat : mainViolation c.tree = none) :
    Keeps refs (refs.insert mainRef (.commit c)) :=
  ⟨h.insert hc, Or.inr ⟨c, AList.lookup_insert refs, hformat⟩⟩

theorem erase (h : Refs.All PlacedCommit refs) {name : Text} (hname : name ≠ mainRef) :
    Keeps refs (refs.erase name) :=
  ⟨h.erase name, Or.inl (AList.lookup_erase_ne hname.symm)⟩

theorem versionMoves (h : Refs.All PlacedCommit refs) {made : List (Int × Commit)}
    (hmade : ∀ m ∈ made, Refs.Holds PlacedCommit (.commit m.2)) :
    Keeps refs (refs.setAll (History.versionMoves made)) := by
  refine ⟨h.setAll fun move hmove => ?_, Or.inl (lookup_main_versionMoves refs made)⟩
  obtain ⟨m, hm, rfl⟩ := List.mem_map.mp hmove
  exact hmade m hm

end Keeps

theorem Orderly.holds_main (h : Orderly refs) {c : Commit}
    (hmain : refs.lookup mainRef = some (.commit c)) : Refs.Holds PlacedCommit (.commit c) :=
  h.placed.holds hmain

theorem keeps_buildHistory (f : WriteFaults) (versions : List VersionData) {parent : Option Commit}
    (authored : AuthoredSource) (h : Refs.All PlacedCommit refs)
    (hparent : ∀ p ∈ parent, Refs.Holds PlacedCommit (.commit p)) :
    Keeps refs (buildHistory core f refs versions parent authored).1 := by
  rcases buildHistory_cases core f refs versions parent authored with hsame | hmoved
  · rw [hsame]
    exact .refl h
  · obtain ⟨made, tip, hmade, htip, hformat, -, hrefs⟩ := hmoved
    have hholds := holds_commitAll hmade hparent
    obtain ⟨m, hm, rfl⟩ := Option.map_eq_some_iff.mp htip
    have hmain := Keeps.insert_main h (hholds m (List.mem_of_getLast? hm)) hformat
    rw [hrefs]
    apply hmain.trans
    apply Keeps.versionMoves hmain.placed
    exact fun n hn => hholds n (List.takeWhile_subset _ hn)

theorem reaches_of_tailFrom {tip : Option Commit} {versions : List VersionData}
    {found : List Commit} (h : tailFrom core tip versions = some (some found)) :
    ∀ c ∈ found, ∃ t, tip = some t ∧ t.Reaches c := by
  induction versions generalizing tip found with
  | nil =>
    obtain rfl : [] = found := by
      cases tip <;> exact Option.some.inj (Option.some.inj h)
    exact fun c hc => absurd hc List.not_mem_nil
  | cons v versions ih =>
    cases tip with
    | none => cases Option.some.inj h
    | some t =>
      obtain ⟨expected, -, hrest⟩ := Option.bind_eq_some_iff.mp h
      split_ifs at hrest
      · obtain ⟨later, hlater, hfound⟩ := Option.map_eq_some_iff.mp hrest
        obtain ⟨cs, rfl, rfl⟩ := Option.map_eq_some_iff.mp hfound
        intro c hc
        rcases List.mem_cons.mp hc with rfl | hc
        · exact ⟨c, rfl, .refl⟩
        · obtain ⟨p, hp, hreach⟩ := ih hlater c hc
          exact ⟨t, rfl, .head (List.mem_of_head? hp) hreach⟩
      · cases Option.some.inj hrest

theorem keeps_appendMissingVersions (f : WriteFaults) (versions : List VersionData)
    (h : Orderly refs) : Keeps refs (appendMissingVersions core f refs versions).1 := by
  obtain ⟨tip, htip⟩ := h.main
  have hmain : mainCommit refs = .ok (some tip) := by simp [mainCommit, htip]
  have hholds := h.holds_main htip
  unfold appendMissingVersions
  split_ifs
  · exact .refl h.placed
  · simp only [hmain]
    cases hfound : tailCommits core tip versions with
    | none => exact .refl h.placed
    | some found =>
      cases found with
      | none =>
        apply keeps_buildHistory f versions .carry h.placed
        intro p hp
        rw [← Option.some.inj hp]
        exact hholds
      | some found =>
        simp only [tagAll_eq]
        apply Keeps.versionMoves h.placed
        intro m hm
        have hmem : m.2 ∈ found := (List.of_mem_zip (List.takeWhile_subset _ hm)).2
        obtain ⟨o, ho, hback⟩ := Option.map_eq_some_iff.mp hfound
        obtain ⟨cs, rfl, rfl⟩ := Option.map_eq_some_iff.mp hback
        obtain ⟨t, ht, hreach⟩ := reaches_of_tailFrom ho m.2 (List.mem_reverse.mp hmem)
        obtain rfl := Option.some.inj ht
        exact hholds.ancestor hreach

theorem keeps_project (f : ProjectionFaults) (s : ListState) (h : Orderly refs) :
    Keeps refs (projectPushedCommit core f refs s).refs := by
  rcases projectPushedCommit_refs core f refs s with hrefs | ⟨tip, htip, hrefs⟩
  · rw [hrefs]
    exact .refl h.placed
  · rw [hrefs]
    exact .insert h.placed (tagRef_ne_mainRef _) (h.holds_main htip)

theorem keeps_align (f : SyncFaults) (s : ListState) (highest : Nat) (h : Orderly refs) :
    Keeps refs (alignByCounters core f refs s highest).refs := by
  rcases alignByCounters_refs core f refs s highest with hrefs | hrefs | hrefs
  · rw [hrefs]
    exact .refl h.placed
  · rw [hrefs]
    exact keeps_project f.projection s h
  · rw [hrefs]
    exact keeps_appendMissingVersions f.history _ h

theorem keeps_sync (f : SyncFaults) (list : Option ListState) (h : Orderly refs) :
    ∃ after, (syncRepoWithDb core f (.repo refs) list).disk = .repo after ∧ Keeps refs after := by
  obtain ⟨tip, htip⟩ := h.main
  cases hread : f.readCurrent with
  | false => exact ⟨refs, by simp [syncRepoWithDb, hread], .refl h.placed⟩
  | true =>
    cases list with
    | none => exact ⟨refs, by simp [syncRepoWithDb, hread], .refl h.placed⟩
    | some s =>
      refine ⟨(alignByCounters core f refs s (maxTagIn refs)).refs, ?_,
        keeps_align f s (maxTagIn refs) h⟩
      simp [syncRepoWithDb, hread, htip, Aligned.synced]

theorem keeps_projectMainOrLog (first second : ProjectionFaults) (s : ListState)
    (h : Orderly refs) : Keeps refs (projectMainOrLog core first second refs s).1 := by
  have honce : Keeps refs (projectPushedCommit core first refs s).refs := keeps_project first s h
  have hagain : Keeps (projectPushedCommit core first refs s).refs
      (projectPushedCommit core second (projectPushedCommit core first refs s).refs
        (projectPushedCommit core first refs s).list).refs :=
    keeps_project second _ (honce.orderly h)
  unfold projectMainOrLog
  dsimp only
  split
  · exact honce
  · split
    · exact honce.trans hagain
    · exact honce.trans hagain

theorem keeps_writeVersion (f : WebFaults) (s : ListState) (edit : WebEdit) (h : Orderly refs) :
    ∃ after, (writeVersion core f refs s edit).disk = .repo after ∧ Keeps refs after := by
  rcases writeVersion_cases core f refs s edit with
    ⟨⟨e, he⟩, -⟩ | ⟨parent, c, haccept, -, -, hwritten⟩
  · exact ⟨refs, by rw [he], .refl h.placed⟩
  · have hc : Refs.Holds PlacedCommit (.commit c) := by
      apply holds_commitVersion haccept.commit
      intro p hp
      apply h.holds_main
      rw [haccept.main, hp]
      rfl
    have hmain := Keeps.insert_main h.placed hc haccept.format
    rcases hwritten with ⟨-, hdisk, -, -⟩ | ⟨-, hdisk, -, -⟩
    · exact ⟨_, hdisk, hmain⟩
    · exact ⟨_, hdisk, hmain.trans (.insert hmain.placed (tagRef_ne_mainRef _) hc)⟩

theorem keeps_web (f : WebFaults) (list : Option ListState) (edit : WebEdit) (h : Orderly refs) :
    ∃ after, (commitWebVersion core f (.repo refs) list edit).disk = .repo after ∧
      Keeps refs after := by
  obtain ⟨synced, hsynced, hkept⟩ := @keeps_sync core refs f.sync list h
  unfold commitWebVersion
  dsimp only
  rw [hsynced]
  split
  · exact ⟨synced, rfl, hkept⟩
  · exact ⟨synced, rfl, hkept⟩
  · exact ⟨synced, rfl, hkept⟩
  · split_ifs
    · exact ⟨synced, rfl, hkept⟩
    · cases (syncRepoWithDb core f.sync (.repo refs) list).list with
      | none => exact ⟨synced, rfl, hkept⟩
      | some s =>
        obtain ⟨after, hafter, hlater⟩ := keeps_writeVersion f s edit (hkept.orderly h)
        exact ⟨after, hafter, hkept.trans hlater⟩

end History

section Branches

variable {lib : GitLibrary} {reserved : Name → Bool} {fromSlice : Bytes → Option Project.RawList}
  {refs changed : Refs}

theorem leaves_put {P : LeafPath → Prop} (hroot : ∀ p, IsRootFile p → P p) {es fs : Entries}
    {name : Text} {l : Leaf} (hname : name ∈ rootFiles)
    (h : TreeBuilder.put reserved es name (.leaf l) = some fs)
    (hes : ∀ x ∈ Entry.leavesIn [] es, P x.1) : ∀ x ∈ Entry.leavesIn [] fs, P x.1 := by
  obtain ⟨n, hn, rfl⟩ := TreeBuilder.put_eq_some h
  intro x hx
  obtain ⟨e, he, hxe⟩ := Entry.mem_leavesIn.mp hx
  rcases TreeBuilder.mem_insert.mp he with rfl | ⟨he, -⟩
  · rw [List.mem_singleton.mp hxe]
    exact hroot _ ⟨rfl, name, hname, hn⟩
  · exact hes x (Entry.mem_leavesIn.mpr ⟨e, he, hxe⟩)

/-- A canon over a tree: three files at most, and what stays of the tree. -/
theorem canonTree_eq_some {listJson : Bytes} {t u : Tree}
    (h : canonTree reserved fromSlice listJson t = some u) : ∃ es fs gs,
    TreeBuilder.put reserved t.entries "list.json".toList (.leaf (.file false listJson)) =
      some es ∧
    ((Project.readmeFromCanon fromSlice listJson = none ∧ fs = es) ∨
      ∃ text, Project.readmeFromCanon fromSlice listJson = some text ∧
        TreeBuilder.put reserved es "README.md".toList (.leaf (.file false (utf8 text))) =
          some fs) ∧
    TreeBuilder.put reserved fs ".gitattributes".toList
      (.leaf (.file false (utf8 Readme.gitattributes))) = some gs ∧
    u.entries = gs.filter (fun e => e.1.bytes ≠ utf8 "steps".toList) := by
  obtain ⟨es, hes, h⟩ := Option.bind_eq_some_iff.mp h
  cases hread : Project.readmeFromCanon fromSlice listJson with
  | none =>
    simp only [hread] at h
    obtain ⟨fs, hsame, h⟩ := Option.bind_eq_some_iff.mp h
    obtain ⟨gs, hgs, hu⟩ := Option.bind_eq_some_iff.mp h
    have hfs := (Option.some.inj hsame).symm
    exact ⟨es, fs, gs, hes, Or.inl ⟨rfl, hfs⟩, hgs, Tree.ofEntries_eq_some hu⟩
  | some text =>
    simp only [hread] at h
    obtain ⟨fs, hfs, h⟩ := Option.bind_eq_some_iff.mp h
    obtain ⟨gs, hgs, hu⟩ := Option.bind_eq_some_iff.mp h
    exact ⟨es, fs, gs, hes, Or.inr ⟨text, rfl, hfs⟩, hgs, Tree.ofEntries_eq_some hu⟩

theorem paths_canonTree {P : LeafPath → Prop} (hroot : ∀ p, IsRootFile p → P p) {listJson : Bytes}
    {t u : Tree} (h : canonTree reserved fromSlice listJson t = some u) (ht : ∀ p ∈ t.paths, P p) :
    ∀ p ∈ u.paths, P p := by
  have hnames : "list.json".toList ∈ rootFiles ∧ "README.md".toList ∈ rootFiles ∧
      ".gitattributes".toList ∈ rootFiles := by decide
  have hleaves : ∀ x ∈ Entry.leavesIn [] t.entries, P x.1 := fun x hx =>
    ht x.1 (List.mem_map_of_mem hx)
  obtain ⟨es, fs, gs, hes, hfs, hgs, hu⟩ := canonTree_eq_some h
  have hfirst := leaves_put hroot hnames.1 hes hleaves
  have hsecond : ∀ x ∈ Entry.leavesIn [] fs, P x.1 := by
    rcases hfs with ⟨-, rfl⟩ | ⟨text, -, hfs⟩
    · exact hfirst
    · exact leaves_put hroot hnames.2.1 hfs hfirst
  have hthird := leaves_put hroot hnames.2.2 hgs hsecond
  intro p hp
  obtain ⟨x, hx, rfl⟩ := List.mem_map.mp hp
  obtain ⟨e, he, hxe⟩ := Entry.mem_leavesIn.mp hx
  rw [hu] at he
  exact hthird x (Entry.mem_leavesIn.mpr ⟨e, List.mem_of_mem_filter he, hxe⟩)

theorem placed_canonTree {listJson : Bytes} {t u : Tree}
    (h : canonTree reserved fromSlice listJson t = some u) (ht : ∀ p ∈ t.paths, Placed p) :
    ∀ p ∈ u.paths, Placed p :=
  paths_canonTree (fun _ hroot => Or.inl hroot) h ht

theorem placed_merge {ours theirs : Commit} {t : Tree} (h : lib.merge ours theirs = some t)
    (hours : Refs.Holds PlacedCommit (.commit ours))
    (htheirs : Refs.Holds PlacedCommit (.commit theirs)) : ∀ p ∈ t.paths, Placed p := by
  intro p hp
  rcases lib.merge_paths ours theirs t h p hp with hp | hp
  · exact hours ours rfl ours .refl p hp
  · exact htheirs theirs rfl theirs .refl p hp

theorem holds_merge {ours theirs : Commit} {t : Tree} {parents : List Commit} {stamp : Stamp}
    (ht : ∀ p ∈ t.paths, Placed p) (hparents : ∀ p ∈ parents, p = ours ∨ p = theirs)
    (hours : Refs.Holds PlacedCommit (.commit ours))
    (htheirs : Refs.Holds PlacedCommit (.commit theirs)) :
    Refs.Holds PlacedCommit (.commit (.mk t parents stamp)) := by
  rw [Refs.holds_commit_iff]
  refine ⟨ht, fun p hp => ?_⟩
  rcases hparents p hp with rfl | rfl
  · exact hours
  · exact htheirs

theorem branchRef_ne_main {name : Text} (h : name ≠ mainName) : branchRef name ≠ mainRef :=
  fun heq => h (branchRef_injective heq)

theorem keeps_createBranch {written : Bool} {name origin : Text} (h : Orderly refs)
    (hok : createBranch written refs name origin = .ok changed) : Keeps refs changed := by
  obtain ⟨base, c, hc, hnew, rfl⟩ := createBranch_eq_ok hok
  have hname : branchRef name ≠ mainRef := by
    obtain ⟨tip, htip⟩ := h.main
    intro heq
    rw [heq] at hnew
    apply hnew
    rw [← AList.lookup_isSome, htip]
    rfl
  exact .insert h.placed hname (h.placed.holds hc)

theorem keeps_deleteBranch {written : Bool} {name : Text} (h : Orderly refs)
    (hok : deleteBranch written refs name = .ok changed) : Keeps refs changed := by
  obtain ⟨hname, rfl⟩ := deleteBranch_eq_ok hok
  exact .erase h.placed (branchRef_ne_main hname)

theorem keeps_commitToBranch {written : Bool} {branch : Text} {listJson : Bytes}
    {expectedTip : Option Commit} {stamp : Stamp} (h : Orderly refs)
    (hok : commitToBranch reserved fromSlice written refs branch listJson expectedTip stamp =
      .ok changed) : Keeps refs changed := by
  obtain ⟨hname, rfl | ⟨tip, t, htip, ht, rfl⟩⟩ := commitToBranch_eq_ok hok
  · exact .refl h.placed
  · have hholds := h.placed.holds htip
    apply Keeps.insert h.placed (branchRef_ne_main hname)
    rw [Refs.holds_commit_iff]
    refine ⟨placed_canonTree ht (hholds tip rfl tip .refl), fun p hp => ?_⟩
    rw [List.mem_singleton.mp hp]
    exact hholds

theorem keeps_updateBranch {written : Bool} {name : Text} {stamp : Stamp} (h : Orderly refs)
    (hok : updateBranch lib written refs name stamp = .ok changed) : Keeps refs changed := by
  obtain ⟨hname, theirs, ours, htheirs, hours, hchanged⟩ := updateBranch_eq_ok hok
  have hfirst := h.placed.holds htheirs
  have hsecond := h.placed.holds hours
  rcases hchanged with rfl | ⟨t, ht, rfl⟩
  · exact .insert h.placed (branchRef_ne_main hname) hsecond
  · apply Keeps.insert h.placed (branchRef_ne_main hname)
    exact holds_merge (placed_merge ht hfirst hsecond) (by simp) hfirst hsecond

theorem keeps_mergeBranch {written squash : Bool} {name : Text} {stamp : Stamp}
    (h : Orderly refs) (hok : mergeBranch lib written refs name squash stamp = .ok changed) :
    Keeps refs changed := by
  obtain ⟨ours, theirs, newTip, htheirs, hours, hmerged, hformat, -, -, rfl⟩ :=
    mergeBranch_eq_ok hok
  have hfirst := h.placed.holds hours
  have hsecond := h.placed.holds htheirs
  refine .insert_main h.placed ?_ hformat
  rcases hmerged with rfl | ⟨t, parents, ht, hparents, rfl⟩
  · exact hsecond
  · exact holds_merge (placed_merge ht hfirst hsecond) hparents hfirst hsecond

theorem keeps_mergeResolved {written squash : Bool} {branch : Text} {listJson : Bytes}
    {stamp : Stamp} (h : Orderly refs)
    (hok : mergeResolved reserved fromSlice written refs branch listJson squash stamp =
      .ok changed) : Keeps refs changed := by
  obtain ⟨ours, theirs, t, parents, htheirs, hours, ht, rfl, hformat, rfl⟩ :=
    mergeResolved_eq_ok hok
  have hfirst := h.placed.holds hours
  have hparents : ∀ p ∈ (if squash then [ours] else [ours, theirs]), p = ours ∨ p = theirs := by
    cases squash <;> simp
  refine .insert_main h.placed ?_ hformat
  exact holds_merge (placed_canonTree ht (hfirst ours rfl ours .refl)) hparents hfirst
    (h.placed.holds htheirs)

theorem keeps_createTag {written : Bool} {name : Text} {version : Int} (h : Orderly refs)
    (hok : createTag written refs name version = .ok changed) : Keeps refs changed := by
  obtain ⟨-, t, ht, rfl⟩ := createTag_eq_ok hok
  exact .insert h.placed (tagRef_ne_mainRef name) (h.placed.holds ht)

end Branches

end Setfork.PlacedFiles
