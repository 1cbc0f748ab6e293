/- RepeatedMerges
   digest: What the two merge doors call nothing to merge, and what a merge does a second time. -/
import Setfork.ResolvedTree

set_option autoImplicit false
set_option relaxedAutoImplicit false

namespace Setfork.RepeatedMerges

open Setfork.Foundation
open Setfork.Rows
open Setfork.TreeRule (authoredDirs leafAllowed leafAllowed_iff)
open Setfork.Project (RawList readmeFromCanon)
open Setfork.Authored
open Setfork.Repository
open Setfork.History
open Setfork.Alignment
open Setfork.Push
open Setfork.Received
open Setfork.Branches
open Setfork.Service
open Setfork.PlacedFiles (paths_canonTree canonTree_eq_some branchRef_ne_main)
open Setfork.ResolvedTree (canonTree_get canonTree_get_other overMain_canonTree
  authoredDirs_not_decided)

/-- A merge that somebody asks for: of a branch as it stands, or of a canon settled on by hand. -/
inductive MergeCall where
  | branch (name : Text) (squash : Bool)
  | resolved (name : Text) (listJson : Bytes) (squash : Bool)

/-- What one attempt at a call meets. -/
structure Attempt where
  written : Bool
  first : ProjectionFaults
  second : ProjectionFaults
  stamp : Stamp

namespace MergeCall

def name : MergeCall → Text
  | .branch name _ => name
  | .resolved name _ _ => name

def op (a : Attempt) : MergeCall → Op
  | .branch name squash => .mergeBranch a.written a.first a.second name squash a.stamp
  | .resolved name listJson squash =>
    .mergeResolved a.written a.first a.second name listJson squash a.stamp

/-- What the call makes of the references before main is projected. -/
def merged (core : Core) (lib : GitLibrary) (a : Attempt) (refs : Refs) :
    MergeCall → Except BranchRefusal Refs
  | .branch name squash => mergeBranch lib a.written refs name squash a.stamp
  | .resolved name listJson squash =>
    mergeResolved core.reserved core.parser.fromSlice a.written refs name listJson squash a.stamp

theorem step_op (core : Core) (lib : GitLibrary) (a : Attempt) (call : MergeCall) (st : State) :
    step core lib (call.op a) st =
      afterMerge core a.first a.second (fun refs => call.merged core lib a refs) st := by
  cases call <;> rfl

end MergeCall

section Nothing

variable {core : Core} {lib : GitLibrary} {refs : Refs} {name : Text} {ours theirs : Commit}

/-- The branch has no commit that main lacks. -/
def NothingAhead (ours theirs : Commit) : Prop := ∀ c, theirs.Reaches c → ours.Reaches c

theorem nothingAhead_iff : NothingAhead ours theirs ↔ ours.Reaches theirs :=
  ⟨fun h => h theirs .refl, fun h _ hc => h.trans hc⟩

theorem moveMain_ne_nothing (written : Bool) (refs : Refs) (newTip old : Commit) :
    moveMain written refs newTip old ≠ .error .nothingToMerge := by
  unfold moveMain
  cases updateMain refs written newTip (some old) with
  | error e => exact fun h => by cases h
  | ok moved => exact fun h => by cases h

theorem mergeBranch_nothing_iff (written squash : Bool) (stamp : Stamp)
    (hname : writableBranch name = true) (hbranch : refs.lookup (branchRef name) = some (.commit theirs))
    (hmain : refs.lookup mainRef = some (.commit ours)) :
    mergeBranch lib written refs name squash stamp = .error .nothingToMerge ↔
      ours.Reaches theirs := by
  simp only [mergeBranch, hname, tipOf_eq_ok.mpr hbranch, tipOf_eq_ok.mpr hmain, Bool.not_true,
    Bool.false_eq_true, if_false]
  by_cases hbehind : ours.Reaches theirs
  · simp [hbehind]
  · rw [if_neg hbehind]
    refine iff_of_false (fun h => ?_) hbehind
    cases hmerge : lib.merge ours theirs with
    | none =>
      simp only [mergeCommit, hmerge] at h
      split_ifs at h
      · cases h
      · exact moveMain_ne_nothing _ _ _ _ h
      · cases h
    | some t =>
      simp only [mergeCommit, hmerge] at h
      split_ifs at h <;> exact moveMain_ne_nothing _ _ _ _ h

theorem mergeResolved_nothing_iff (reserved : Name → Bool) (fromSlice : Bytes → Option RawList)
    (written squash : Bool) (listJson : Bytes) (stamp : Stamp)
    (hname : writableBranch name = true) (hbranch : refs.lookup (branchRef name) = some (.commit theirs))
    (hmain : refs.lookup mainRef = some (.commit ours)) :
    mergeResolved reserved fromSlice written refs name listJson squash stamp =
      .error .nothingToMerge ↔ ours = theirs := by
  rw [mergeResolved, if_pos hname, commitResolved, tipOf_eq_ok.mpr hbranch, tipOf_eq_ok.mpr hmain]
  dsimp only
  by_cases hsame : ours = theirs
  · simp [hsame]
  · rw [if_neg hsame]
    refine iff_of_false (fun h => ?_) hsame
    cases htree : canonTree reserved fromSlice listJson ours.tree with
    | none =>
      rw [htree] at h
      cases h
    | some t =>
      rw [htree] at h
      exact moveMain_ne_nothing _ _ _ _ h

/-- Every merge of the branch, at either door and in either mode, is refused for this reason exactly
when the branch has nothing that main lacks, unless its tip lies behind the tip of main. -/
theorem nothing_to_merge_iff (core : Core) (lib : GitLibrary) (hname : writableBranch name = true)
    (hbranch : refs.lookup (branchRef name) = some (.commit theirs))
    (hmain : refs.lookup mainRef = some (.commit ours)) :
    (∀ call : MergeCall, call.name = name → ∀ a : Attempt,
      (call.merged core lib a refs = .error .nothingToMerge ↔ NothingAhead ours theirs)) ↔
    ¬ (ours.Reaches theirs ∧ ours ≠ theirs) := by
  constructor
  · rintro h ⟨hreach, hne⟩
    have hsettled := h (.resolved name [] false) rfl ⟨true, (steady 0).projection,
      (steady 0).projection, ⟨[], [], 0⟩⟩
    rw [MergeCall.merged, mergeResolved_nothing_iff _ _ _ _ _ _ hname hbranch hmain,
      nothingAhead_iff] at hsettled
    exact hne (hsettled.mpr hreach)
  · intro h call hcall a
    rw [nothingAhead_iff]
    cases call with
    | branch other squash =>
      obtain rfl : other = name := hcall
      exact mergeBranch_nothing_iff _ _ _ hname hbranch hmain
    | resolved other listJson squash =>
      obtain rfl : other = name := hcall
      rw [MergeCall.merged, mergeResolved_nothing_iff _ _ _ _ _ _ hname hbranch hmain]
      refine ⟨fun hsame => hsame ▸ .refl, fun hreach => ?_⟩
      by_contra hne
      exact h ⟨hreach, hne⟩

end Nothing

open Setfork.ResolvedMerges (oneStep oneStep_read baseCommit sideCommit forkedRefs forkedRefs_main
  forkedRefs_branches oneResolution oneResolution_readme showcase showcase_violation
  canonTree_listTree merge_succeeds_iff lookup_withTag_branch)

theorem base_not_reaches_side (seconds : Int) : ¬ baseCommit.Reaches (sideCommit seconds) :=
  fun h => Commit.ne_of_isParent_reaches h (List.mem_singleton_self baseCommit) rfl

def attempt : Attempt := ⟨true, (steady 0).projection, (steady 0).projection, ⟨[], [], 3⟩⟩

/-- A branch with a commit of its own, squashed at one door and settled at the other. -/
theorem nothing_to_merge_forked :
    ((MergeCall.branch "a".toList true).merged canonCore plainLibrary attempt forkedRefs =
      .error .nothingToMerge ↔ NothingAhead baseCommit (sideCommit 1)) ∧
    ((MergeCall.resolved "a".toList [] false).merged canonCore plainLibrary attempt forkedRefs =
      .error .nothingToMerge ↔ NothingAhead baseCommit (sideCommit 1)) := by
  have hagree := (nothing_to_merge_iff canonCore plainLibrary (by decide) forkedRefs_branches.1
    forkedRefs_main).mpr fun h => base_not_reaches_side 1 h.1
  exact ⟨hagree _ rfl attempt, hagree _ rfl attempt⟩

/-- Main has gone on from a branch that stayed. -/
def behindRefs : Refs :=
  AList.insert (branchRef "a".toList) (.commit baseCommit)
    (AList.insert mainRef (.commit (sideCommit 1)) ∅)

theorem oneResolution_tree : ∃ text, canonTree (fun _ => false) canonCore.parser.fromSlice
    oneResolution.listJson (Received.listTree oneStep) =
      some (showcase (utf8 Readme.gitattributes) (utf8 text) oneResolution.listJson) := by
  obtain ⟨text, htext⟩ := oneResolution_readme
  exact ⟨text, canonTree_listTree _ oneStep htext⟩

/-- One door has nothing to merge, and the other one merges. -/
theorem behind_branch_resolved :
    NothingAhead (sideCommit 1) baseCommit ∧
    mergeBranch plainLibrary true behindRefs "a".toList false ⟨[], [], 0⟩ =
      .error .nothingToMerge ∧
    ∃ moved, oneResolution.merge canonCore "a".toList behindRefs = .ok moved := by
  have hmain : behindRefs.lookup mainRef = some (.commit (sideCommit 1)) := by
    rw [behindRefs, AList.lookup_insert_ne (by decide), AList.lookup_insert]
  have hbranch : behindRefs.lookup (branchRef "a".toList) = some (.commit baseCommit) :=
    AList.lookup_insert _
  have hreach : (sideCommit 1).Reaches baseCommit := .single (List.mem_singleton_self baseCommit)
  have hdifferent : sideCommit 1 ≠ baseCommit :=
    Commit.ne_of_isParent_reaches .refl (List.mem_singleton_self baseCommit)
  obtain ⟨text, htree⟩ := oneResolution_tree
  refine ⟨nothingAhead_iff.mpr hreach,
    (mergeBranch_nothing_iff true false _ (by decide) hbranch hmain).mpr hreach, ?_⟩
  exact merge_succeeds_iff.mpr ⟨by decide, rfl, sideCommit 1, baseCommit, _, hmain, hbranch,
    hdifferent, htree, showcase_violation _ _ _⟩

section Again

variable {reserved : Name → Bool} {fromSlice : Bytes → Option RawList} {listJson : Bytes}
  {t u : Tree}

theorem put_again {es fs : Entries} {name : Text} {e : Entry}
    (h : TreeBuilder.put reserved es name e = some fs) (es' : Entries) :
    ∃ fs', TreeBuilder.put reserved es' name e = some fs' ∧
      ∃ n, fs' = TreeBuilder.insert n e es' := by
  simp only [TreeBuilder.put, Option.bind_eq_some_iff] at h
  obtain ⟨n, hn, h⟩ := h
  split_ifs at h with hfree
  refine ⟨TreeBuilder.insert n e es', ?_, n, rfl⟩
  rw [TreeBuilder.put, hn, Option.bind_some, if_neg hfree]

def Writes (es : Entries) : Prop := (es.map Prod.fst).Nodup ∧ ∀ e ∈ es, e.2.wellFormed = true

theorem Writes.insert {es : Entries} (h : Writes es) (n : Name) (l : Leaf) :
    Writes (TreeBuilder.insert n (.leaf l) es) := by
  refine ⟨TreeBuilder.nodup_insert h.1, fun e he => ?_⟩
  rcases TreeBuilder.mem_insert.mp he with rfl | ⟨he, -⟩
  · rfl
  · exact h.2 e he

theorem writes_entries (t : Tree) : Writes t.entries :=
  ⟨t.nodup, fun _ he => t.entry_wellFormed he⟩

theorem Writes.tree {es : Entries} (h : Writes es) (p : Name × Entry → Bool) :
    ∃ w, Tree.ofEntries (es.filter p) = some w :=
  Tree.ofEntries_isSome (h.1.sublist (List.filter_sublist.map _))
    fun e he => h.2 e (List.mem_filter.mp he).1

theorem canonTree_of_puts {es fs gs : Entries}
    (hes : TreeBuilder.put reserved t.entries "list.json".toList (.leaf (.file false listJson)) =
      some es)
    (hfs : (readmeFromCanon fromSlice listJson = none ∧ fs = es) ∨
      ∃ text, readmeFromCanon fromSlice listJson = some text ∧
        TreeBuilder.put reserved es "README.md".toList (.leaf (.file false (utf8 text))) = some fs)
    (hgs : TreeBuilder.put reserved fs ".gitattributes".toList
      (.leaf (.file false (utf8 Readme.gitattributes))) = some gs) :
    canonTree reserved fromSlice listJson t =
      Tree.ofEntries (gs.filter fun e => e.1.bytes ≠ utf8 "steps".toList) := by
  unfold canonTree
  rcases hfs with ⟨hnone, rfl⟩ | ⟨text, hsome, hput⟩
  · simp only [bind, hes, hnone, hgs, Option.bind_some]
  · simp only [bind, hes, hsome, hput, hgs, Option.bind_some]

theorem canonTree_again (h : canonTree reserved fromSlice listJson t = some u) (other : Tree) :
    ∃ w, canonTree reserved fromSlice listJson other = some w := by
  obtain ⟨es, fs, gs, hes, hfs, hgs, -⟩ := canonTree_eq_some h
  obtain ⟨es', hes', n, rfl⟩ := put_again hes other.entries
  have hfirst := (writes_entries other).insert n (.file false listJson)
  rcases hfs with ⟨hnone, -⟩ | ⟨text, hsome, hput⟩
  · obtain ⟨gs', hgs', m, rfl⟩ := put_again hgs
      (TreeBuilder.insert n (.leaf (.file false listJson)) other.entries)
    rw [canonTree_of_puts hes' (Or.inl ⟨hnone, rfl⟩) hgs']
    exact (hfirst.insert m _).tree _
  · obtain ⟨fs', hfs', m, rfl⟩ := put_again hput
      (TreeBuilder.insert n (.leaf (.file false listJson)) other.entries)
    obtain ⟨gs', hgs', k, rfl⟩ := put_again hgs (TreeBuilder.insert m (.leaf (.file false (utf8 text)))
      (TreeBuilder.insert n (.leaf (.file false listJson)) other.entries))
    rw [canonTree_of_puts hes' (Or.inr ⟨text, hsome, hfs'⟩) hgs']
    exact ((hfirst.insert m _).insert k _).tree _

theorem inFormat_canonTree (h : canonTree reserved fromSlice listJson t = some u)
    (ht : mainViolation t = none) : mainViolation u = none := by
  obtain ⟨-, hforeign, hauthored⟩ := (mainViolation_eq_none_iff t).mp ht
  rw [mainViolation_eq_none_iff, firstForeignPath_eq_none_iff]
  refine ⟨by rw [(overMain_canonTree h).canon]; rfl, ?_, ?_⟩
  · have hroot : ∀ p, TreeRule.IsRootFile p → leafAllowed p = true :=
      fun p hp => (leafAllowed_iff p).mpr (Or.inl hp)
    exact paths_canonTree hroot h ((firstForeignPath_eq_none_iff t).mp hforeign)
  · have hentries : authoredEntries u = authoredEntries t := by
      refine List.flatMap_congr fun d hd => ?_
      rw [canonTree_get_other h (authoredDirs_not_decided d hd)]
    rw [authoredViolation, hentries]
    exact hauthored

end Again

def SameFiles (t u : Tree) : Prop := ∀ e, e ∈ t.entries ↔ e ∈ u.entries

theorem SameFiles.get {t u : Tree} (h : SameFiles t u) (name : Text) : t.get name = u.get name := by
  ext e
  simp only [Tree.get_eq_some_iff, h (_, e)]

/-- The same call once more leaves the files of main and the versions as they are, whatever else
has happened in between. -/
def Settled (core : Core) (lib : GitLibrary) (call : MergeCall) (newTip theirs : Commit) : Prop :=
  ∀ (a : Attempt) (refs : Refs) (s : ListState), refs.lookup mainRef = some (.commit newTip) →
    refs.lookup (branchRef call.name) = some (.commit theirs) → ∃ refs' s' tip,
      step core lib (call.op a) ⟨.repo refs, some s⟩ = ⟨.repo refs', some s'⟩ ∧
      refs'.lookup mainRef = some (.commit tip) ∧ SameFiles tip.tree newTip.tree ∧
      s'.versions = s.versions

/-- The branch merged into the tip once more gives nothing that main takes. -/
def Stopped (lib : GitLibrary) (newTip theirs : Commit) : Prop :=
  ∀ t, lib.merge newTip theirs = some t → mainViolation t ≠ none

/-- The calls that find nothing to do a second time. -/
def Exhausted (lib : GitLibrary) (newTip theirs : Commit) : MergeCall → Prop
  | .branch _ false => True
  | .branch _ true => newTip = theirs ∨ Stopped lib newTip theirs
  | .resolved _ _ _ => newTip = theirs

section Repeat

variable {core : Core} {lib : GitLibrary} {call : MergeCall} {refs moved : Refs}
  {ours theirs newTip : Commit} {name : Text} {written squash : Bool} {stamp : Stamp}

theorem moveMain_of {newTip old : Commit} (hformat : mainViolation newTip.tree = none)
    (hold : refs.lookup mainRef = some (.commit old)) (hreach : newTip.Reaches old) :
    moveMain true refs newTip old = .ok (refs.insert mainRef (.commit newTip)) := by
  have hmove : updateMain refs true newTip (some old) =
      .ok (refs.insert mainRef (.commit newTip)) :=
    updateMain_eq_ok_iff.mpr ⟨hformat, hold, fun _ h => Option.some.inj h ▸ hreach, rfl, rfl⟩
  rw [moveMain, hmove]

theorem writable_of_merged {a : Attempt} (h : call.merged core lib a refs = .ok moved) :
    writableBranch call.name = true := by
  by_contra hname
  cases call with
  | branch name squash => simp [MergeCall.merged, mergeBranch, show ¬ writableBranch name from hname] at h
  | resolved name listJson squash =>
    simp [MergeCall.merged, mergeResolved, show ¬ writableBranch name from hname] at h

theorem tip_of_mergeBranch (hbranch : refs.lookup (branchRef name) = some (.commit theirs))
    (h : mergeBranch lib written refs name squash stamp = .ok moved)
    (htip : moved.lookup mainRef = some (.commit newTip)) :
    if squash then newTip.Reaches theirs → newTip = theirs else newTip.Reaches theirs := by
  obtain ⟨ours, theirs', tip, hbranch', hmain, -, -, -, -, hchanged⟩ := mergeBranch_eq_ok h
  obtain rfl := Refs.commit_unique hbranch hbranch'
  rw [hchanged, AList.lookup_insert] at htip
  obtain rfl := Target.commit.inj (Option.some.inj htip)
  have hmoves : ∀ made, moveMain written refs made ours = .ok moved → made = tip := by
    intro made hmade
    obtain ⟨-, -, -, heq⟩ := moveMain_eq_ok hmade
    have hlookup := congrArg (AList.lookup mainRef) (hchanged.symm.trans heq)
    rw [AList.lookup_insert, AList.lookup_insert] at hlookup
    exact (Target.commit.inj (Option.some.inj hlookup)).symm
  unfold mergeBranch at h
  rw [tipOf_eq_ok.mpr hbranch, tipOf_eq_ok.mpr hmain] at h
  dsimp only at h
  cases squash with
  | true =>
    cases hmerge : lib.merge ours theirs with
    | none =>
      simp only [mergeCommit, hmerge] at h
      split_ifs at h
    | some t =>
      simp only [mergeCommit, hmerge] at h
      split_ifs at h with hname hbehind
      obtain rfl := hmoves _ h
      intro hreach
      rcases (Commit.reaches_iff_parents _ _).mp hreach with heq | ⟨p, hp, hlater⟩
      · exact heq.symm
      · rw [Commit.parents, List.mem_singleton] at hp
        exact absurd (hp ▸ hlater) hbehind
  | false =>
    simp only [Bool.false_eq_true, if_false] at h ⊢
    cases hmerge : lib.merge ours theirs with
    | none =>
      simp only [mergeCommit, hmerge] at h
      split_ifs at h with hname hbehind hforward
      obtain rfl := hmoves _ h
      exact .refl
    | some t =>
      simp only [mergeCommit, hmerge] at h
      split_ifs at h with hname hbehind hforward
      · obtain rfl := hmoves _ h
        exact .refl
      · obtain rfl := hmoves _ h
        exact .single (List.mem_cons_of_mem ours (List.mem_singleton_self theirs))

theorem settled_of_refused
    (h : ∀ (a : Attempt) (refs : Refs), refs.lookup mainRef = some (.commit newTip) →
      refs.lookup (branchRef call.name) = some (.commit theirs) →
      ∃ e, call.merged core lib a refs = .error e) : Settled core lib call newTip theirs := by
  intro a refs s hmain hbranch
  obtain ⟨e, he⟩ := h a refs hmain hbranch
  refine ⟨refs, s, newTip, ?_, hmain, fun _ => Iff.rfl, rfl⟩
  rw [MergeCall.step_op, afterMerge]
  simp only [he]

theorem canonReads_of_projected {first second : ProjectionFaults} {s : ListState}
    (h : (projectMainOrLog core first second moved s).2.2 ≠ 0) : CanonReads core moved := by
  by_contra hnot
  apply h
  have honce := projectPushedCommit_of_not_reads first (s := s) hnot
  simp only [projectMainOrLog, honce]
  rfl

theorem main_projected {first second : ProjectionFaults} {s : ListState} (hrows : RowsUpTo s) :
    (projectMainOrLog core first second moved s).1.lookup mainRef = moved.lookup mainRef := by
  rcases projectMainOrLog_refs first second hrows with ⟨-, hsame⟩ | ⟨tip, -, -, hrefs, -⟩
  · rw [hsame]
  · rw [hrefs]
    exact ResolvedMerges.lookup_withTag_branch moved _ tip mainName

theorem markedList_rows : RowsUpTo Healing.markedList := by
  intro r hr
  rw [List.mem_singleton.mp hr]
  decide

theorem canonReads_of_same {again : Refs} {old tip : Commit} (h : CanonReads core refs)
    (hmain : refs.lookup mainRef = some (.commit old))
    (htip : again.lookup mainRef = some (.commit tip))
    (hget : tip.tree.get "list.json".toList = old.tree.get "list.json".toList) :
    CanonReads core again := by
  obtain ⟨c, bytes, subject, raw, hread, hparse, hsteps⟩ := h
  refine ⟨tip, bytes, core.subject tip.stamp, raw, ?_, hparse, hsteps⟩
  rw [readTip, Refs.commitAt_eq_some.mpr hmain, Option.bind_some] at hread
  rw [readTip, Refs.commitAt_eq_some.mpr htip, Option.bind_some, hget]
  cases hentry : old.tree.get "list.json".toList with
  | none =>
    rw [hentry] at hread
    cases hread
  | some e =>
    rw [hentry] at hread
    cases e with
    | dir es => cases hread
    | leaf l =>
      obtain ⟨content, hblob, heq⟩ := Option.map_eq_some_iff.mp hread
      obtain ⟨-, hrest⟩ := Prod.mk.inj heq
      obtain ⟨rfl, -⟩ := Prod.mk.inj hrest
      simp only [hblob, Option.map_some]

theorem step_projects {a : Attempt} {s : ListState} {tip : Commit}
    (hmerged : call.merged core lib a refs = .ok moved) (hreads : CanonReads core moved)
    (htip : moved.lookup mainRef = some (.commit tip)) (hrows : RowsUpTo s)
    (hfirst : a.first.insert = .done) : ∃ s', NextVersion s s' ∧
      step core lib (call.op a) ⟨.repo refs, some s⟩ =
        ⟨.repo (withTag moved (taggedOnce a.first s.currentVersion) tip), some s'⟩ ∧
      (projectMainOrLog core a.first a.second moved s).2.2 = s.currentVersion + 1 := by
  obtain ⟨next, -, hproject⟩ := projectPushedCommit_of_reads a.first hreads htip hrows
  rcases hproject with ⟨-, patched, hnext, hdone⟩ | ⟨hfailed, -⟩ | ⟨hlost, -⟩
  · refine ⟨patched, hnext, ?_, ?_⟩
    · rw [MergeCall.step_op, afterMerge]
      simp only [hmerged, projectMainOrLog, hdone]
    · simp only [projectMainOrLog, hdone, Option.getD_some]
  · rw [hfirst] at hfailed
    cases hfailed
  · rw [hfirst] at hlost
    cases hlost

theorem not_settled_of_moved {a : Attempt} {tip : Commit}
    (hmain : refs.lookup mainRef = some (.commit newTip))
    (hbranch : refs.lookup (branchRef call.name) = some (.commit theirs))
    (hreads : CanonReads core refs) (hfirst : a.first.insert = .done)
    (h : call.merged core lib a refs = .ok (refs.insert mainRef (.commit tip))) :
    ¬ Settled core lib call newTip theirs := by
  intro hsettled
  obtain ⟨refs', s', tip', hstep, htip', hsame, hversions⟩ :=
    hsettled a refs Healing.markedList hmain hbranch
  have htip : (refs.insert mainRef (.commit tip)).lookup mainRef = some (.commit tip) :=
    AList.lookup_insert _
  have hafter := hstep
  rw [MergeCall.step_op, afterMerge] at hafter
  simp only [h, State.mk.injEq, Disk.repo.injEq] at hafter
  rw [← hafter.1, main_projected markedList_rows, htip] at htip'
  obtain rfl := Target.commit.inj (Option.some.inj htip')
  have hagain := canonReads_of_same hreads hmain htip (hsame.get "list.json".toList)
  obtain ⟨next, ⟨-, v, -, hrows⟩, hmakes, -⟩ :=
    step_projects h hagain htip markedList_rows hfirst
  have hlist := congrArg State.list (hstep.symm.trans hmakes)
  rw [Option.some.inj hlist, hrows] at hversions
  exact List.cons_ne_nil v [] (List.append_right_eq_self.mp hversions)

theorem mergeBranch_again {t : Tree} (hname : writableBranch name = true)
    (hmain : refs.lookup mainRef = some (.commit newTip))
    (hbranch : refs.lookup (branchRef name) = some (.commit theirs))
    (hahead : ¬ newTip.Reaches theirs) (hmerge : lib.merge newTip theirs = some t)
    (hformat : mainViolation t = none) (stamp : Stamp) :
    mergeBranch lib true refs name true stamp =
      .ok (refs.insert mainRef (.commit (.mk t [newTip] stamp))) := by
  have hmove : moveMain true refs (.mk t [newTip] stamp) newTip =
      .ok (refs.insert mainRef (.commit (.mk t [newTip] stamp))) :=
    moveMain_of hformat hmain (.single (List.mem_singleton_self newTip))
  simp only [mergeBranch, hname, tipOf_eq_ok.mpr hbranch, tipOf_eq_ok.mpr hmain, Bool.not_true,
    Bool.false_eq_true, if_false, if_neg hahead, if_true, mergeCommit, hmerge, hmove]

theorem mergeResolved_again {reserved : Name → Bool} {fromSlice : Bytes → Option RawList}
    {listJson : Bytes} {t : Tree} (hname : writableBranch name = true)
    (hmain : refs.lookup mainRef = some (.commit newTip))
    (hbranch : refs.lookup (branchRef name) = some (.commit theirs)) (hdifferent : newTip ≠ theirs)
    (htree : canonTree reserved fromSlice listJson newTip.tree = some t)
    (hformat : mainViolation t = none) (squash : Bool) (stamp : Stamp) :
    mergeResolved reserved fromSlice true refs name listJson squash stamp =
      .ok (refs.insert mainRef (.commit (.mk t
        (if squash then [newTip] else [newTip, theirs]) stamp))) := by
  have hparent : newTip ∈ if squash then [newTip] else [newTip, theirs] := by
    cases squash <;> simp
  have hmove : moveMain true refs
      (.mk t (if squash then [newTip] else [newTip, theirs]) stamp) newTip = .ok (refs.insert mainRef
        (.commit (.mk t (if squash then [newTip] else [newTip, theirs]) stamp))) :=
    moveMain_of hformat hmain (.single hparent)
  simp only [mergeResolved, hname, if_true, commitResolved, tipOf_eq_ok.mpr hbranch,
    tipOf_eq_ok.mpr hmain, if_neg hdifferent, htree, hmove]

theorem settled_of_reaches (core : Core) (lib : GitLibrary) (hname : writableBranch name = true)
    (h : newTip.Reaches theirs) (squash : Bool) :
    Settled core lib (.branch name squash) newTip theirs :=
  settled_of_refused fun a _ hmain hbranch =>
    ⟨_, (mergeBranch_nothing_iff a.written squash a.stamp hname hbranch hmain).mpr h⟩

theorem settled_of_same (core : Core) (lib : GitLibrary) (hname : writableBranch name = true)
    (listJson : Bytes) (squash : Bool) :
    Settled core lib (.resolved name listJson squash) theirs theirs :=
  settled_of_refused fun a _ hmain hbranch =>
    ⟨_, (mergeResolved_nothing_iff _ _ a.written squash listJson a.stamp hname hbranch hmain).mpr rfl⟩

theorem settled_of_stopped (core : Core) (h : Stopped lib newTip theirs) (name : Text) :
    Settled core lib (.branch name true) newTip theirs := by
  apply settled_of_refused
  intro a refs hmain hbranch
  simp only [MergeCall.merged, mergeBranch, tipOf_eq_ok.mpr hmain, if_true]
  simp only [MergeCall.name] at hbranch
  rw [tipOf_eq_ok.mpr hbranch]
  dsimp only
  split_ifs
  · exact ⟨_, rfl⟩
  · exact ⟨_, rfl⟩
  · cases hmerge : lib.merge newTip theirs with
    | none => exact ⟨.conflict, by simp only [mergeCommit, hmerge]⟩
    | some t =>
      obtain ⟨e, he⟩ := Option.ne_none_iff_exists'.mp (h t hmerge)
      refine ⟨.main e, ?_⟩
      simp only [mergeCommit, hmerge, moveMain, updateMain, Commit.tree, he]

theorem moved_of_merged {a : Attempt} (h : call.merged core lib a refs = .ok moved) :
    ∃ tip, moved = refs.insert mainRef (.commit tip) := by
  cases call with
  | branch name squash =>
    obtain ⟨-, -, tip, -, -, -, -, -, -, hmoved⟩ := mergeBranch_eq_ok h
    exact ⟨tip, hmoved⟩
  | resolved name listJson squash =>
    obtain ⟨-, -, t, parents, -, -, -, -, -, hmoved⟩ := mergeResolved_eq_ok h
    exact ⟨_, hmoved⟩

/-- After a merge whose projection has made a version, the same call once more leaves the files of
main and the versions alone exactly when it finds nothing to do: it merges without squashing, or
the new tip is the tip of the branch, or a second squash gives nothing that main takes. -/
theorem settled_iff_exhausted (core : Core) (lib : GitLibrary) (call : MergeCall) (a : Attempt)
    {refs moved : Refs} {theirs newTip : Commit} {s : ListState}
    (hbranch : refs.lookup (branchRef call.name) = some (.commit theirs))
    (hmerged : call.merged core lib a refs = .ok moved)
    (htip : moved.lookup mainRef = some (.commit newTip))
    (hprojected : (projectMainOrLog core a.first a.second moved s).2.2 ≠ 0) :
    Settled core lib call newTip theirs ↔ Exhausted lib newTip theirs call := by
  have hname := writable_of_merged hmerged
  have hreads := canonReads_of_projected hprojected
  have hstays : moved.lookup (branchRef call.name) = some (.commit theirs) := by
    obtain ⟨tip, rfl⟩ := moved_of_merged hmerged
    rw [AList.lookup_insert_ne (branchRef_ne_main (writableBranch_ne_main hname))]
    exact hbranch
  -- An attempt at which nothing fails.
  have hbreaks : ∀ tip : Commit, call.merged core lib
      ⟨true, (steady 0).projection, (steady 0).projection, ⟨[], [], 0⟩⟩ moved =
        .ok (moved.insert mainRef (.commit tip)) → ¬ Settled core lib call newTip theirs :=
    fun tip h => not_settled_of_moved htip hstays hreads rfl h
  cases call with
  | branch name squash =>
    have hheld := tip_of_mergeBranch hbranch hmerged htip
    cases squash with
    | false => exact iff_of_true (settled_of_reaches core lib hname hheld false) trivial
    | true =>
      constructor
      · intro hsettled
        by_contra hgoes
        simp only [Exhausted, Stopped, not_or, not_forall, not_not] at hgoes
        obtain ⟨hdifferent, t, hmerge, hformat⟩ := hgoes
        have hahead : ¬ newTip.Reaches theirs := fun h => hdifferent (hheld h)
        exact hbreaks _ (mergeBranch_again hname htip hstays hahead hmerge hformat _) hsettled
      · rintro (rfl | hstopped)
        · exact settled_of_reaches core lib hname .refl true
        · exact settled_of_stopped core hstopped name
  | resolved name listJson squash =>
    constructor
    · intro hsettled
      by_contra hdifferent
      obtain ⟨ours, -, t, parents, -, -, htree, -, hformat, hmoved⟩ := mergeResolved_eq_ok hmerged
      rw [hmoved, AList.lookup_insert] at htip
      obtain rfl := Target.commit.inj (Option.some.inj htip)
      obtain ⟨w, hw⟩ := canonTree_again htree t
      have htip' : moved.lookup mainRef = some (.commit (.mk t parents a.stamp)) := by
        rw [hmoved, AList.lookup_insert]
      exact hbreaks _ (mergeResolved_again hname htip' hstays hdifferent hw
        (inFormat_canonTree hw hformat) squash _) hsettled
    · rintro rfl
      exact settled_of_same core lib hname listJson squash

end Repeat

theorem canonReads_oneStep {refs : Refs} {tip : Commit}
    (hmain : refs.lookup mainRef = some (.commit tip))
    (hget : tip.tree.get "list.json".toList =
      some (.leaf (.file false oneResolution.listJson))) : CanonReads canonCore refs :=
  canonReads_of_get hmain hget oneStep_read rfl

theorem settled_fast_forward :
    Settled canonCore plainLibrary (.branch "b".toList false) (sideCommit 2) (sideCommit 2) := by
  have hforward : mergeBranch plainLibrary true forkedRefs "b".toList false attempt.stamp =
      .ok (forkedRefs.insert mainRef (.commit (sideCommit 2))) :=
    mergeBranch_forward (by decide) forkedRefs_branches.2 forkedRefs_main
      (List.mem_singleton_self baseCommit) (Received.listTree_violation oneStep)
  have hmerged : (MergeCall.branch "b".toList false).merged canonCore plainLibrary attempt
      forkedRefs = .ok (forkedRefs.insert mainRef (.commit (sideCommit 2))) := hforward
  have htip : (forkedRefs.insert mainRef (.commit (sideCommit 2))).lookup mainRef =
      some (.commit (sideCommit 2)) := AList.lookup_insert _
  have hreads := canonReads_oneStep htip (Received.listTree_get oneStep)
  obtain ⟨-, -, -, hversion⟩ := step_projects hmerged hreads htip markedList_rows rfl
  refine (settled_iff_exhausted canonCore plainLibrary (.branch "b".toList false) attempt
    (s := Healing.markedList) forkedRefs_branches.2 hmerged htip ?_).mpr trivial
  rw [hversion]
  decide

/-- The branch in conflict, with the canon that was settled on. -/
def settledCall : MergeCall := .resolved "a".toList oneResolution.listJson false

/-- The settled canon is merged, and merged again: two commits with one canon and two versions. -/
theorem settled_canon_merged_twice : ∃ refs₁ s₁ refs₂ s₂,
    step canonCore plainLibrary (settledCall.op attempt) ⟨.repo forkedRefs, some Healing.markedList⟩ =
      ⟨.repo refs₁, some s₁⟩ ∧
    step canonCore plainLibrary (settledCall.op attempt) ⟨.repo refs₁, some s₁⟩ =
      ⟨.repo refs₂, some s₂⟩ ∧
    NextVersion Healing.markedList s₁ ∧ NextVersion s₁ s₂ := by
  obtain ⟨text, htree⟩ := oneResolution_tree
  set first : Commit := .mk (showcase (utf8 Readme.gitattributes) (utf8 text)
    oneResolution.listJson) [baseCommit, sideCommit 1] ⟨[], [], 3⟩ with hfirst
  have hdifferent : baseCommit ≠ sideCommit 1 := fun heq => base_not_reaches_side 1 (heq ▸ .refl)
  have hmerged : settledCall.merged canonCore plainLibrary attempt forkedRefs =
      .ok (forkedRefs.insert mainRef (.commit first)) :=
    mergeResolved_again (by decide) forkedRefs_main forkedRefs_branches.1 hdifferent htree
      (showcase_violation _ _ _) false _
  have htip : (forkedRefs.insert mainRef (.commit first)).lookup mainRef = some (.commit first) :=
    AList.lookup_insert _
  obtain ⟨s₁, hnext₁, hstep₁, -⟩ :=
    step_projects hmerged (canonReads_oneStep htip rfl) htip markedList_rows rfl
  set refs₁ := withTag (forkedRefs.insert mainRef (.commit first))
    (taggedOnce attempt.first Healing.markedList.currentVersion) first with hrefs₁
  have hmain : refs₁.lookup mainRef = some (.commit first) :=
    (lookup_withTag_branch _ _ first mainName).trans htip
  have hbranch : refs₁.lookup (branchRef "a".toList) = some (.commit (sideCommit 1)) :=
    (lookup_withTag_branch _ _ first _).trans
      ((AList.lookup_insert_ne (by decide)).trans forkedRefs_branches.1)
  obtain ⟨w, hw⟩ := canonTree_again htree first.tree
  have hformat : mainViolation w = none := inFormat_canonTree hw (showcase_violation _ _ _)
  have hchild : first ≠ sideCommit 1 := Commit.ne_of_isParent_reaches .refl
    (List.mem_cons_of_mem baseCommit (List.mem_singleton_self (sideCommit 1)))
  have hagain : settledCall.merged canonCore plainLibrary attempt refs₁ =
      .ok (refs₁.insert mainRef (.commit (.mk w [first, sideCommit 1] ⟨[], [], 3⟩))) :=
    mergeResolved_again (by decide) hmain hbranch hchild hw hformat false _
  have htip₂ : (refs₁.insert mainRef (.commit (.mk w [first, sideCommit 1] ⟨[], [], 3⟩))).lookup
      mainRef = some (.commit (.mk w [first, sideCommit 1] ⟨[], [], 3⟩)) := AList.lookup_insert _
  have hcanon : w.get "list.json".toList = some (.leaf (.file false oneResolution.listJson)) :=
    (overMain_canonTree hw).canon
  have hreads₂ := canonReads_oneStep htip₂ hcanon
  obtain ⟨s₂, hnext₂, hstep₂, -⟩ :=
    step_projects hagain hreads₂ htip₂ (markedList_rows.next hnext₁) rfl
  exact ⟨refs₁, s₁, _, s₂, hstep₁, hstep₂, hnext₁, hnext₂⟩

end Setfork.RepeatedMerges
