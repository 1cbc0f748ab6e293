/- ResolvedMerges
   digest: A conflict is read in one call and resolved in another, with everybody else in between. -/
import Setfork.Foundation.Interleave
import Setfork.Healing
import Setfork.PushBack
import Setfork.Received
import Setfork.Service

set_option autoImplicit false
set_option relaxedAutoImplicit false

namespace Setfork.ResolvedMerges

open Setfork.Foundation
open Setfork.Project
open Setfork.Repository
open Setfork.History
open Setfork.Alignment
open Setfork.Push (GitLibrary)
open Setfork.Branches
open Setfork.Service

/-- What the core takes from its libraries to read a conflict: the best common ancestor of two
commits, and a canon that goes through a JSON value before it becomes a manifest. -/
structure SnapshotReader where
  mergeBase : Commit → Commit → Option Commit
  fromValue : Bytes → Option RawList

structure BranchSnapshotData where
  tip : Commit
  title : Text
  desc : Text
  tags : List Text
  ordered : Bool
  steps : List ProjStep

variable (reader : SnapshotReader)

def snapshotFromData (tip : Commit) (raw : Bytes) : Option BranchSnapshotData :=
  (reader.fromValue raw).map fun parsed =>
    { tip := tip
      title := parsed.title.getD []
      desc := parsed.desc.getD []
      tags := parsed.tags.getD []
      ordered := parsed.ordered.getD true
      steps := parseSteps (parsed.steps.getD []) }

def commitSnapshot (c : Commit) : Option BranchSnapshotData :=
  match c.tree.get "list.json".toList with
  | some (.leaf l) => l.blob.bind (snapshotFromData reader c)
  | _ => none

def branchSnapshot (refs : Refs) (ref : Text) : Option BranchSnapshotData :=
  (refs.commitAt ref).bind (commitSnapshot reader)

structure MergeState where
  branch : Text
  base : BranchSnapshotData
  ours : BranchSnapshotData
  theirs : BranchSnapshotData

/-- How far the reading of a conflict has come; each reference is read at a moment of its own. -/
inductive Reading where
  | idle
  | asked (branch : Text) (branchTip : Commit)
  | based (branch : Text) (base : BranchSnapshotData)
  | sawOurs (branch : Text) (base ours : BranchSnapshotData)

/-- A client of the core: the call it waits for, and the last answer it was given. -/
structure Client where
  reading : Reading
  answer : Option MergeState

/-- The tip of the branch is read first. -/
def getMergeState (refs : Refs) (branch : Text) (client : Client) : Client :=
  if writableBranch branch then
    match refs.commitAt (branchRef branch) with
    | none => { client with reading := .idle }
    | some tip => { client with reading := .asked branch tip }
  else { client with reading := .idle }

/-- The next read of a call: the tip of main for the common ancestor, and then main and the branch
once more for their canons. What is not found ends the call. -/
def readOn (refs : Refs) (client : Client) : Client :=
  match client.reading with
  | .idle => client
  | .asked branch branchTip =>
    match (refs.commitAt mainRef).bind fun mainTip =>
        (reader.mergeBase mainTip branchTip).bind (commitSnapshot reader) with
    | none => { client with reading := .idle }
    | some base => { client with reading := .based branch base }
  | .based branch base =>
    match branchSnapshot reader refs mainRef with
    | none => { client with reading := .idle }
    | some ours => { client with reading := .sawOurs branch base ours }
  | .sawOurs branch base ours =>
    match branchSnapshot reader refs (branchRef branch) with
    | none => { client with reading := .idle }
    | some theirs => ⟨.idle, some ⟨branch, base, ours, theirs⟩⟩

structure Resolution where
  written : Bool
  first : ProjectionFaults
  second : ProjectionFaults
  listJson : Bytes
  squash : Bool
  stamp : Stamp

/-- A resolution names the branch and nothing of what its client saw. -/
def Resolution.op (call : Resolution) (branch : Text) : Op :=
  .mergeResolved call.written call.first call.second branch call.listJson call.squash call.stamp

inductive Event where
  | ask (branch : Text)
  | read
  | resolve (call : Resolution)
  | write (op : Op)

def refsOf (st : State) : Refs :=
  match st.disk with
  | .repo refs => refs
  | _ => ∅

variable (core : Core) (lib : GitLibrary)

/-- One step of a client, or of a writer. Readers take no lock; the writing part of a call holds
it and is one step. -/
def advance (event : Event) (st : State) (client : Client) : State × Client :=
  match event with
  | .ask branch => (st, getMergeState (refsOf st) branch client)
  | .read => (st, readOn reader (refsOf st) client)
  | .resolve call =>
    match client.answer with
    | none => (st, client)
    | some seen => (step core lib (call.op seen.branch) st, client)
  | .write op => (step core lib op st, client)

/-- One of the two tips is not what the client saw. -/
def Moved (seen : MergeState) (refs : Refs) : Prop :=
  refs.lookup mainRef ≠ some (.commit seen.ours.tip) ∨
    refs.lookup (branchRef seen.branch) ≠ some (.commit seen.theirs.tip)

/-- The merge a resolution asks for. -/
def Resolution.merge (call : Resolution) (branch : Text) (refs : Refs) :
    Except BranchRefusal Refs :=
  mergeResolved core.reserved core.parser.fromSlice call.written refs branch call.listJson
    call.squash call.stamp

/-- The merge stands on the two commits the client saw; where one of them has moved, it is refused
and nothing changes. -/
structure StandsOn (call : Resolution) (seen : MergeState) (st next : State) : Prop where
  builds : ∀ refs moved, st.disk = .repo refs → call.merge core seen.branch refs = .ok moved →
    refs.lookup (branchRef seen.branch) = some (.commit seen.theirs.tip) ∧
    refs.lookup mainRef = some (.commit seen.ours.tip) ∧
    ∃ t, canonTree core.reserved core.parser.fromSlice call.listJson seen.ours.tip.tree = some t ∧
      moved = refs.insert mainRef (.commit (.mk t
        (if call.squash then [seen.ours.tip] else [seen.ours.tip, seen.theirs.tip]) call.stamp))
  refuses : ∀ refs, st.disk = .repo refs → Moved seen refs →
    (∃ e, call.merge core seen.branch refs = .error e) ∧ next = st

/-- A resolution that can be carried out: a branch that may be written to, two different tips, and
a canon that makes a tree main takes. -/
structure Resolvable (call : Resolution) (branch : Text) (refs : Refs) : Prop where
  name : writableBranch branch = true
  written : call.written = true
  tips : ∃ ours theirs t, refs.lookup mainRef = some (.commit ours) ∧
    refs.lookup (branchRef branch) = some (.commit theirs) ∧ ours ≠ theirs ∧
    canonTree core.reserved core.parser.fromSlice call.listJson ours.tree = some t ∧
    mainViolation t = none

section Resolutions

variable {core : Core} {call : Resolution} {branch : Text} {refs : Refs}

theorem merge_succeeds_iff : (∃ moved, call.merge core branch refs = .ok moved) ↔
    Resolvable core call branch refs := by
  constructor
  · rintro ⟨moved, h⟩
    obtain ⟨ours, theirs, t, parents, hbranch, hmain, htree, -, hformat, -⟩ := mergeResolved_eq_ok h
    unfold Resolution.merge mergeResolved at h
    cases hname : writableBranch branch with
    | false =>
      rw [hname] at h
      cases h
    | true =>
      rw [if_pos hname, commitResolved, tipOf_eq_ok.mpr hbranch, tipOf_eq_ok.mpr hmain] at h
      dsimp only at h
      by_cases hsame : ours = theirs
      · rw [if_pos hsame] at h
        cases h
      · rw [if_neg hsame, htree] at h
        refine ⟨hname, ?_, ours, theirs, t, hmain, hbranch, hsame, htree, hformat⟩
        unfold moveMain at h
        dsimp only at h
        cases hmove : updateMain refs call.written (.mk t (if call.squash then [ours]
            else [ours, theirs]) call.stamp) (some ours) with
        | error e =>
          rw [hmove] at h
          cases h
        | ok next => exact (updateMain_eq_ok_iff.mp hmove).2.2.2.1
  · rintro ⟨hname, hwritten, ours, theirs, t, hmain, hbranch, hsame, htree, hformat⟩
    refine ⟨refs.insert mainRef (.commit (.mk t (if call.squash then [ours] else [ours, theirs])
      call.stamp)), ?_⟩
    have hparent : (Commit.mk t (if call.squash then [ours] else [ours, theirs])
        call.stamp).IsParent ours := by
      show ours ∈ (if call.squash then [ours] else [ours, theirs])
      split_ifs
      · exact List.mem_singleton_self ours
      · exact List.mem_cons_self
    have hmove : updateMain refs call.written (.mk t (if call.squash then [ours]
        else [ours, theirs]) call.stamp) (some ours) = .ok _ :=
      updateMain_eq_ok_iff.mpr ⟨hformat, hmain, fun old hold => by
        obtain rfl := Option.some.inj hold
        exact .single hparent, hwritten, rfl⟩
    rw [Resolution.merge, mergeResolved, if_pos hname, commitResolved, tipOf_eq_ok.mpr hbranch,
      tipOf_eq_ok.mpr hmain]
    dsimp only
    rw [if_neg hsame, htree]
    dsimp only
    rw [moveMain, hmove]

theorem step_of_refused {lib : GitLibrary} {st : State} {e : BranchRefusal}
    (hdisk : st.disk = .repo refs) (h : call.merge core branch refs = .error e) :
    step core lib (call.op branch) st = st := by
  have hmerge : mergeResolved core.reserved core.parser.fromSlice call.written refs branch
      call.listJson call.squash call.stamp = .error e := h
  unfold Resolution.op
  rw [step, afterMerge, hdisk]
  dsimp only
  rw [hmerge]

theorem standsOn_iff (lib : GitLibrary) (seen : MergeState) (st : State) :
    StandsOn core call seen st (step core lib (call.op seen.branch) st) ↔
      ∀ refs, st.disk = .repo refs → Resolvable core call seen.branch refs → ¬ Moved seen refs := by
  constructor
  · intro h refs hdisk hready hmoved
    obtain ⟨moved, hmerge⟩ := merge_succeeds_iff.mpr hready
    obtain ⟨⟨e, hrefused⟩, -⟩ := h.refuses refs hdisk hmoved
    rw [hmerge] at hrefused
    cases hrefused
  · intro h
    refine ⟨fun refs moved hdisk hmerge => ?_, fun refs hdisk hmoved => ?_⟩
    · have hstill := h refs hdisk (merge_succeeds_iff.mp ⟨moved, hmerge⟩)
      simp only [Moved, not_or, not_not] at hstill
      obtain ⟨hmain, hbranch⟩ := hstill
      obtain ⟨ours, theirs, t, parents, htheirs, hours, htree, hparents, -, heq⟩ :=
        mergeResolved_eq_ok hmerge
      obtain rfl := Refs.commit_unique hours hmain
      obtain rfl := Refs.commit_unique htheirs hbranch
      rw [hparents] at heq
      exact ⟨hbranch, hmain, t, htree, heq⟩
    · cases hmerge : call.merge core seen.branch refs with
      | error e => exact ⟨⟨e, rfl⟩, step_of_refused hdisk hmerge⟩
      | ok moved =>
        have hready := merge_succeeds_iff.mp ⟨moved, hmerge⟩
        exact absurd hmoved (h refs hdisk hready)

end Resolutions

section Schedules

variable {ι : Type} [DecidableEq ι] (schedule : List (ι × Event)) (start : State)

/-- The repository and all clients after the first steps of a schedule; nobody has asked before. -/
def after (n : Nat) : Interleave.System ι State Client :=
  Interleave.run (fun _ => advance reader core lib) (schedule.take n) ⟨start, fun _ => ⟨.idle, none⟩⟩

theorem after_zero : after reader core lib schedule start 0 = ⟨start, fun _ => ⟨.idle, none⟩⟩ := by
  rw [after, List.take_zero]
  rfl

theorem after_succ {k : Nat} (hk : k < schedule.length) :
    after reader core lib schedule start (k + 1) =
      Interleave.act (fun _ => advance reader core lib) schedule[k]
        (after reader core lib schedule start k) :=
  Runs.run_take_succ _ schedule _ k hk

theorem after_event {k : Nat} (hk : k < schedule.length) {a : ι} {event : Event}
    (h : schedule[k] = (a, event)) :
    ((after reader core lib schedule start (k + 1)).shared,
      (after reader core lib schedule start (k + 1)).places a) =
        advance reader core lib event (after reader core lib schedule start k).shared
          ((after reader core lib schedule start k).places a) := by
  rw [after_succ reader core lib schedule start hk, h, Interleave.act_shared]
  exact congrArg (Prod.mk _)
    (Interleave.act_place_self (fun _ => advance reader core lib) (a, event) _)

variable {reader core lib schedule start}

abbrev refsAt (reader : SnapshotReader) (core : Core) (lib : GitLibrary)
    (schedule : List (ι × Event)) (start : State) (k : Nat) : Refs :=
  refsOf (after reader core lib schedule start k).shared

def SawMain (reader : SnapshotReader) (core : Core) (lib : GitLibrary)
    (schedule : List (ι × Event)) (start : State) (k : Nat) (ours : BranchSnapshotData) : Prop :=
  ∃ i ≤ k, branchSnapshot reader (refsAt reader core lib schedule start i) mainRef = some ours

/-- An answer was read from main, and after that from the branch. -/
def WasRead (reader : SnapshotReader) (core : Core) (lib : GitLibrary)
    (schedule : List (ι × Event)) (start : State) (k : Nat) (seen : MergeState) : Prop :=
  ∃ j ≤ k, SawMain reader core lib schedule start j seen.ours ∧
    branchSnapshot reader (refsAt reader core lib schedule start j) (branchRef seen.branch) =
      some seen.theirs

structure HoldsReads (reader : SnapshotReader) (core : Core) (lib : GitLibrary)
    (schedule : List (ι × Event)) (start : State) (k : Nat) (client : Client) : Prop where
  reading : ∀ branch base ours, client.reading = .sawOurs branch base ours →
    SawMain reader core lib schedule start k ours
  answer : ∀ seen, client.answer = some seen → WasRead reader core lib schedule start k seen

theorem HoldsReads.later {k n : Nat} {client : Client} (hkn : k ≤ n)
    (h : HoldsReads reader core lib schedule start k client) :
    HoldsReads reader core lib schedule start n client := by
  constructor
  · intro branch base ours hreading
    obtain ⟨i, hi, hread⟩ := h.reading branch base ours hreading
    exact ⟨i, by omega, hread⟩
  · intro seen hseen
    obtain ⟨j, hj, hread⟩ := h.answer seen hseen
    exact ⟨j, by omega, hread⟩

theorem HoldsReads.idle {k : Nat} {client : Client}
    (h : HoldsReads reader core lib schedule start k client) :
    HoldsReads reader core lib schedule start k { client with reading := .idle } :=
  ⟨fun _ _ _ hreading => (nomatch hreading), h.answer⟩

theorem holdsReads_getMergeState {k : Nat} {client : Client} (branch : Text)
    (h : HoldsReads reader core lib schedule start k client) :
    HoldsReads reader core lib schedule start k
      (getMergeState (refsAt reader core lib schedule start k) branch client) := by
  unfold getMergeState
  split_ifs
  · cases Refs.commitAt (refsAt reader core lib schedule start k) (branchRef branch) with
    | none => exact h.idle
    | some tip => exact ⟨fun _ _ _ hreading => (nomatch hreading), h.answer⟩
  · exact h.idle

theorem holdsReads_readOn {k : Nat} {client : Client}
    (h : HoldsReads reader core lib schedule start k client) :
    HoldsReads reader core lib schedule start k
      (readOn reader (refsAt reader core lib schedule start k) client) := by
  unfold readOn
  cases hreading : client.reading with
  | idle => exact h
  | asked branch branchTip =>
    dsimp only
    split
    · exact h.idle
    · exact ⟨fun _ _ _ hreading => (nomatch hreading), h.answer⟩
  | based branch base =>
    dsimp only
    cases hours : branchSnapshot reader (refsAt reader core lib schedule start k) mainRef with
    | none => exact h.idle
    | some ours =>
      refine ⟨fun branch' base' ours' hsaw => ?_, h.answer⟩
      obtain ⟨-, -, rfl⟩ := Reading.sawOurs.inj hsaw
      exact ⟨k, le_refl k, hours⟩
  | sawOurs branch base ours =>
    dsimp only
    have hmain := h.reading branch base ours hreading
    cases htheirs : branchSnapshot reader (refsAt reader core lib schedule start k)
        (branchRef branch) with
    | none => exact h.idle
    | some theirs =>
      refine ⟨fun _ _ _ hsaw => (nomatch hsaw), fun seen hseen => ?_⟩
      obtain rfl := Option.some.inj hseen
      exact ⟨k, le_refl k, hmain, htheirs⟩

theorem holdsReads_after {k : Nat} (hk : k ≤ schedule.length) (a : ι) :
    HoldsReads reader core lib schedule start k
      ((after reader core lib schedule start k).places a) := by
  induction k with
  | zero =>
    rw [after_zero]
    constructor
    · intro branch base ours h
      cases h
    · intro seen h
      cases h
  | succ k ih =>
    have hbefore := ih (by omega)
    rw [after_succ reader core lib schedule start (show k < schedule.length by omega)]
    by_cases ha : a = schedule[k].1
    · subst ha
      rw [Interleave.act_place_self]
      apply HoldsReads.later (Nat.le_succ k)
      cases schedule[k].2 with
      | ask branch => exact holdsReads_getMergeState branch hbefore
      | read => exact holdsReads_readOn hbefore
      | resolve call =>
        rw [advance]
        split
        · exact hbefore
        · exact hbefore
      | write op => exact hbefore
    · rw [Interleave.act_place_of_ne _ ha]
      exact hbefore.later (Nat.le_succ k)

/-- Whoever interleaves with whom: the two snapshots a client resolves were read from main and from
the branch, and every resolution stands on them exactly when, at its step, main and the branch still
point at the commits of the snapshots or the resolution cannot be carried out. -/
theorem resolved_merges_stand_on_reads_iff (reader : SnapshotReader) (core : Core)
    (lib : GitLibrary) (schedule : List (ι × Event)) (start : State) :
    (∀ k ≤ schedule.length, ∀ a seen,
      ((after reader core lib schedule start k).places a).answer = some seen →
        WasRead reader core lib schedule start k seen) ∧
    ((∀ k, ∀ hk : k < schedule.length, ∀ call seen, schedule[k].2 = .resolve call →
        ((after reader core lib schedule start k).places schedule[k].1).answer = some seen →
        StandsOn core call seen (after reader core lib schedule start k).shared
          (after reader core lib schedule start (k + 1)).shared) ↔
      ∀ k, ∀ hk : k < schedule.length, ∀ call seen, schedule[k].2 = .resolve call →
        ((after reader core lib schedule start k).places schedule[k].1).answer = some seen →
        ∀ refs, (after reader core lib schedule start k).shared.disk = .repo refs →
          Resolvable core call seen.branch refs → ¬ Moved seen refs) := by
  refine ⟨fun k hk a seen hseen => (holdsReads_after hk a).answer seen hseen, ?_⟩
  have hstep : ∀ k, ∀ hk : k < schedule.length, ∀ call seen, schedule[k].2 = .resolve call →
      ((after reader core lib schedule start k).places schedule[k].1).answer = some seen →
      (after reader core lib schedule start (k + 1)).shared =
        step core lib (call.op seen.branch) (after reader core lib schedule start k).shared := by
    intro k hk call seen hcall hseen
    rw [after_succ reader core lib schedule start hk, Interleave.act_shared, hcall, advance, hseen]
  constructor
  · intro h k hk call seen hcall hseen
    have hstands := h k hk call seen hcall hseen
    rw [hstep k hk call seen hcall hseen] at hstands
    exact (standsOn_iff lib seen _).mp hstands
  · intro h k hk call seen hcall hseen
    rw [hstep k hk call seen hcall hseen]
    exact (standsOn_iff lib seen _).mpr (h k hk call seen hcall hseen)

end Schedules

def oneStep : Serialize.VersionData := PushBack.pushedCanon [PushBack.twin 1 true]

theorem oneStep_read : canonCore.parser.fromSlice (utf8 (Serialize.listJson [] oneStep)) =
    some (rawOfCanon oneStep) := PushBack.single_read

def baseCommit : Commit := .mk (Received.listTree oneStep) [] ⟨[], [], 0⟩

/-- The commit of the branch in conflict, and one of another branch. -/
def sideCommit (seconds : Int) : Commit :=
  .mk (Received.listTree oneStep) [baseCommit] ⟨[], [], seconds⟩

/-- The first version on main, with two branches that stand on it. -/
def forkedRefs : Refs :=
  AList.insert (branchRef "b".toList) (.commit (sideCommit 2))
    (AList.insert (branchRef "a".toList) (.commit (sideCommit 1))
      (AList.insert (tagRef (versionTag 1)) (.commit baseCommit)
        (AList.insert mainRef (.commit baseCommit) ∅)))

/-- A reader that goes by the canon alone; the first of two commits is their common ancestor. -/
noncomputable def plainReader : SnapshotReader := ⟨fun c _ => some c, canonCore.parser.fromSlice⟩

def oneResolution : Resolution :=
  ⟨true, (steady 0).projection, (steady 0).projection, utf8 (Serialize.listJson [] oneStep), false,
    ⟨[], [], 3⟩⟩

/-- A client reads the conflict of one branch; the other branch is merged; the client resolves. -/
def overtaken : List (Bool × Event) :=
  [(true, .ask "a".toList), (true, .read), (true, .read), (true, .read),
    (false, .write (.mergeBranch true (steady 0).projection (steady 0).projection "b".toList false
      ⟨[], [], 0⟩)),
    (true, .resolve oneResolution)]

theorem commitSnapshot_oneStep (parents : List Commit) (stamp : Stamp) :
    ∃ data : BranchSnapshotData,
      commitSnapshot plainReader (.mk (Received.listTree oneStep) parents stamp) = some data ∧
      data.tip = .mk (Received.listTree oneStep) parents stamp := by
  rw [commitSnapshot, Commit.tree, Received.listTree_get]
  dsimp only
  rw [Leaf.blob, Option.bind_some, snapshotFromData, show plainReader.fromValue =
    canonCore.parser.fromSlice from rfl, oneStep_read]
  exact ⟨_, rfl, rfl⟩

theorem forkedRefs_main : forkedRefs.lookup mainRef = some (.commit baseCommit) := by
  rw [forkedRefs, AList.lookup_insert_ne (by decide), AList.lookup_insert_ne (by decide),
    AList.lookup_insert_ne (tagRef_ne_mainRef _).symm, AList.lookup_insert]

theorem forkedRefs_branches :
    forkedRefs.lookup (branchRef "a".toList) = some (.commit (sideCommit 1)) ∧
      forkedRefs.lookup (branchRef "b".toList) = some (.commit (sideCommit 2)) := by
  constructor
  · rw [forkedRefs, AList.lookup_insert_ne (by decide), AList.lookup_insert]
  · rw [forkedRefs, AList.lookup_insert]

theorem lookup_withTag_branch (refs : Refs) (number : Option Int) (tip : Commit) (branch : Text) :
    (Received.withTag refs number tip).lookup (branchRef branch) = refs.lookup (branchRef branch) := by
  cases number with
  | none => rfl
  | some n =>
    apply AList.lookup_insert_ne
    intro heq
    have hbranch : (branchRef branch)[5]? = some 'h' := rfl
    have htag : (tagRef (versionTag n))[5]? = some 't' := rfl
    rw [heq, htag] at hbranch
    exact absurd hbranch (by decide)

theorem forked_merge : ∃ refs,
    (step canonCore Push.plainLibrary (.mergeBranch true (steady 0).projection
      (steady 0).projection "b".toList false ⟨[], [], 0⟩)
      ⟨.repo forkedRefs, some Healing.markedList⟩).disk = .repo refs ∧
      refs.lookup mainRef = some (.commit (sideCommit 2)) ∧
      refs.lookup (branchRef "a".toList) = some (.commit (sideCommit 1)) := by
  have hmerge : mergeBranch Push.plainLibrary true forkedRefs "b".toList false ⟨[], [], 0⟩ =
      .ok (forkedRefs.insert mainRef (.commit (sideCommit 2))) :=
    mergeBranch_forward (by decide) forkedRefs_branches.2 forkedRefs_main
      (List.mem_singleton_self baseCommit) (Received.listTree_violation oneStep)
  have hrows : Received.RowsUpTo Healing.markedList := by
    intro r hr
    rw [List.mem_singleton.mp hr]
    decide
  rw [step, afterMerge]
  dsimp only
  rw [hmerge]
  dsimp only
  refine ⟨_, rfl, ?_⟩
  set merged := forkedRefs.insert mainRef (.commit (sideCommit 2)) with hmerged
  have hmain : merged.lookup mainRef = some (.commit (sideCommit 2)) := AList.lookup_insert _
  have hbranch : merged.lookup (branchRef "a".toList) = some (.commit (sideCommit 1)) :=
    (AList.lookup_insert_ne (by decide)).trans forkedRefs_branches.1
  rcases @Received.projectMainOrLog_refs canonCore merged Healing.markedList
    (steady 0).projection (steady 0).projection hrows with ⟨-, hsame⟩ | ⟨tip, -, -, hrefs, -⟩
  · rw [hsame]
    exact ⟨hmain, hbranch⟩
  · rw [hrefs]
    refine ⟨?_, (lookup_withTag_branch merged _ tip _).trans hbranch⟩
    exact (lookup_withTag_branch merged _ tip mainName).trans hmain

def readmeName : Name := ⟨utf8 "README.md".toList, by decide, by decide, by decide⟩

def showcase (attributes readme listJson : Bytes) : Tree where
  entries := [(AuthoredDoors.gitattributesName, .leaf (.file false attributes)),
    (readmeName, .leaf (.file false readme)),
    (AuthoredDoors.listJsonName, .leaf (.file false listJson))]
  wellFormed := rfl

set_option maxRecDepth 4000 in
theorem showcase_violation (attributes readme listJson : Bytes) :
    mainViolation (showcase attributes readme listJson) = none := by
  rw [mainViolation_eq_none_iff, Authored.firstForeignPath_eq_none_iff]
  have hpaths : (showcase attributes readme listJson).paths =
      [⟨[], AuthoredDoors.gitattributesName⟩, ⟨[], readmeName⟩, ⟨[], AuthoredDoors.listJsonName⟩] := rfl
  refine ⟨rfl, ?_, rfl⟩
  rw [hpaths]
  decide

theorem canonTree_listTree (fromSlice : Bytes → Option RawList) (v : Serialize.VersionData)
    {text : Text} {listJson : Bytes} (hread : readmeFromCanon fromSlice listJson = some text) :
    canonTree (fun _ => false) fromSlice listJson (Received.listTree v) =
      some (showcase (utf8 Readme.gitattributes) (utf8 text) listJson) := by
  unfold canonTree
  rw [hread]
  generalize hreadme : utf8 text = readme
  generalize utf8 Readme.gitattributes = attributes
  have hcanon : TreeBuilder.put (fun _ => false) (Received.listTree v).entries "list.json".toList
      (.leaf (.file false listJson)) =
        some [(AuthoredDoors.listJsonName, .leaf (.file false listJson))] := rfl
  have hshown : TreeBuilder.put (fun _ => false)
      [(AuthoredDoors.listJsonName, .leaf (.file false listJson))] "README.md".toList
      (.leaf (.file false readme)) = some [(readmeName, .leaf (.file false readme)),
        (AuthoredDoors.listJsonName, .leaf (.file false listJson))] := rfl
  have hwhole : TreeBuilder.put (fun _ => false) [(readmeName, .leaf (.file false readme)),
      (AuthoredDoors.listJsonName, .leaf (.file false listJson))] ".gitattributes".toList
      (.leaf (.file false attributes)) = some (showcase attributes readme listJson).entries := rfl
  rw [hcanon]
  dsimp only [bind, Option.bind]
  rw [hreadme, hshown]
  dsimp only [bind, Option.bind]
  rw [hwhole]
  rfl

theorem oneResolution_readme : ∃ text, readmeFromCanon canonCore.parser.fromSlice
    oneResolution.listJson = some text := by
  have hjson : oneResolution.listJson = utf8 (Serialize.listJson [] oneStep) := rfl
  rw [readmeFromCanon, hjson, oneStep_read]
  exact ⟨_, rfl⟩

theorem oneResolution_ready {refs : Refs}
    (hmain : refs.lookup mainRef = some (.commit (sideCommit 2)))
    (hbranch : refs.lookup (branchRef "a".toList) = some (.commit (sideCommit 1))) :
    Resolvable canonCore oneResolution "a".toList refs := by
  obtain ⟨text, htext⟩ := oneResolution_readme
  have hdifferent : sideCommit 2 ≠ sideCommit 1 := by
    intro heq
    have hstamp := congrArg Commit.stamp heq
    exact absurd hstamp (by decide)
  exact ⟨by decide, rfl, sideCommit 2, sideCommit 1, _, hmain, hbranch, hdifferent,
    canonTree_listTree _ oneStep htext, showcase_violation _ _ _⟩

def forked : State := ⟨.repo forkedRefs, some Healing.markedList⟩

/-- Everybody after the first events. -/
noncomputable def overtakenAfter (k : Nat) : Interleave.System Bool State Client :=
  after plainReader canonCore Push.plainLibrary overtaken forked k

theorem overtakenAfter_succ {k : Nat} (hk : k < overtaken.length) : overtakenAfter (k + 1) =
    Interleave.act (fun _ => advance plainReader canonCore Push.plainLibrary) overtaken[k]
      (overtakenAfter k) :=
  after_succ plainReader canonCore Push.plainLibrary overtaken forked hk

noncomputable def overtakenAt (k : Nat) : State × Client :=
  ((overtakenAfter k).shared, (overtakenAfter k).places true)

theorem overtaken_next {k : Nat} (hk : k < overtaken.length) {event : Event}
    (h : overtaken[k] = (true, event)) : overtakenAt (k + 1) =
      advance plainReader canonCore Push.plainLibrary event (overtakenAt k).1 (overtakenAt k).2 :=
  after_event plainReader canonCore Push.plainLibrary overtaken forked hk h

theorem overtaken_seen : ∃ seen, overtakenAt 4 = (forked, ⟨.idle, some seen⟩) ∧
    seen.branch = "a".toList ∧ seen.ours.tip = baseCommit := by
  obtain ⟨base, hbase, hours⟩ := commitSnapshot_oneStep [] ⟨[], [], 0⟩
  obtain ⟨theirs, htheirs, -⟩ := commitSnapshot_oneStep [baseCommit] ⟨[], [], 1⟩
  have hmain : forkedRefs.commitAt mainRef = some baseCommit :=
    Refs.commitAt_eq_some.mpr forkedRefs_main
  have hbranch : forkedRefs.commitAt (branchRef "a".toList) = some (sideCommit 1) :=
    Refs.commitAt_eq_some.mpr forkedRefs_branches.1
  have hfirst : overtakenAt 0 = (forked, ⟨.idle, none⟩) := by
    rw [overtakenAt, overtakenAfter, after_zero]
  have hasked : overtakenAt 1 = (forked, ⟨.asked "a".toList (sideCommit 1), none⟩) := by
    rw [overtaken_next (k := 0) (by decide) rfl, hfirst]
    simp only [advance, getMergeState, forked, refsOf, hbranch]
    rfl
  have hbased : overtakenAt 2 = (forked, ⟨.based "a".toList base, none⟩) := by
    rw [overtaken_next (k := 1) (by decide) rfl, hasked]
    have hcommon : commitSnapshot plainReader baseCommit = some base := hbase
    simp only [advance, readOn, forked, refsOf, hmain, Option.bind_some, plainReader] at hcommon ⊢
    rw [hcommon]
  have hsaw : overtakenAt 3 = (forked, ⟨.sawOurs "a".toList base base, none⟩) := by
    rw [overtaken_next (k := 2) (by decide) rfl, hbased]
    have hread : branchSnapshot plainReader forkedRefs mainRef = some base := by
      rw [branchSnapshot, hmain]
      exact hbase
    simp only [advance, readOn, forked, refsOf, hread]
  have hgiven : overtakenAt 4 = (forked, ⟨.idle, some ⟨"a".toList, base, base, theirs⟩⟩) := by
    rw [overtaken_next (k := 3) (by decide) rfl, hsaw]
    have hread : branchSnapshot plainReader forkedRefs (branchRef "a".toList) = some theirs := by
      rw [branchSnapshot, hbranch]
      exact htheirs
    simp only [advance, readOn, forked, refsOf, hread]
  exact ⟨_, hgiven, rfl, hours⟩

/-- Main has moved to the other branch since the client read it, and the resolution is carried out
all the same. -/
theorem overtaken_resolution : ¬ ∀ k, ∀ hk : k < overtaken.length, ∀ call seen,
    overtaken[k].2 = .resolve call →
    ((overtakenAfter k).places overtaken[k].1).answer = some seen →
    StandsOn canonCore call seen (overtakenAfter k).shared (overtakenAfter (k + 1)).shared := by
  intro h
  obtain ⟨seen, hseen, hname, hours⟩ := overtaken_seen
  obtain ⟨refs, hdisk, hmain, hbranch⟩ := forked_merge
  have hbefore : (overtakenAfter 4).shared = forked := congrArg Prod.fst hseen
  have hclient : (overtakenAfter 4).places true = ⟨.idle, some seen⟩ := congrArg Prod.snd hseen
  have hmerged : (overtakenAfter 5).shared.disk = .repo refs := by
    rw [overtakenAfter_succ (k := 4) (by decide), Interleave.act_shared, hbefore]
    exact hdisk
  have hanswer : ((overtakenAfter 5).places true).answer = some seen := by
    rw [overtakenAfter_succ (k := 4) (by decide), Interleave.act_place_of_ne _ (by decide), hclient]
  have hstep : (overtakenAfter 6).shared =
      step canonCore Push.plainLibrary (oneResolution.op seen.branch) (overtakenAfter 5).shared := by
    rw [overtakenAfter_succ (k := 5) (by decide), Interleave.act_shared,
      show overtaken[5] = (true, .resolve oneResolution) from rfl, advance, hanswer]
  have hstands := h 5 (by decide) oneResolution seen rfl hanswer
  rw [hstep, standsOn_iff, hname] at hstands
  refine hstands refs hmerged (oneResolution_ready hmain hbranch) (Or.inl ?_)
  rw [hmain, hours]
  intro heq
  have hstamp := congrArg Commit.stamp (Target.commit.inj (Option.some.inj heq))
  exact absurd hstamp (by decide)

end Setfork.ResolvedMerges
