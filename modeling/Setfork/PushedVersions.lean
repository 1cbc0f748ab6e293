/- PushedVersions
   digest: How many versions one push makes, and what its projection leaves in the database. -/
import Setfork.Healing
import Setfork.PushBack
import Setfork.Received

set_option autoImplicit false
set_option relaxedAutoImplicit false

namespace Setfork.PushedVersions

open Setfork.Foundation
open Setfork.Foundation.Json
open Setfork.Serialize
open Setfork.Rows
open Setfork.CanonMirror
open Setfork.Project
open Setfork.Carryover
open Setfork.Reproject
open Setfork.Repository
open Setfork.History
open Setfork.Alignment
open Setfork.Push
open Setfork.Received
open Setfork.PushBack (pushedCanon twin single_read)
open Setfork.Healing (markedRefs markedRefs_main markedList firstCommit)

/-- At most one version row is added, and the current version grows by at most one. -/
def AtMostOne (before after : ListState) : Prop :=
  after.versions.length ≤ before.versions.length + 1 ∧
    after.currentVersion ≤ before.currentVersion + 1

/-- Both attempts at a projection commit their rows: the first one was not told so. -/
structure InsertsTwice (core : Core) (first second : ProjectionFaults) (refs : Refs)
    (s : ListState) : Prop where
  reads : CanonReads core refs
  lost : first.insert = .lost
  again : second.insert ≠ .failed
  free : FreeNumber s (s.currentVersion + 1)
  next : FreeNumber s (s.currentVersion + 2)

section Attempts

variable {core : Core} {refs : Refs} {s : ListState}

theorem atMostOne_same (s : ListState) : AtMostOne s s := ⟨Nat.le_succ _, by omega⟩

theorem atMostOne_next {next : ListState} (h : NextVersion s next) : AtMostOne s next := by
  obtain ⟨hcurrent, v, -, hversions⟩ := h
  refine ⟨?_, hcurrent.le⟩
  rw [hversions, List.length_append, List.length_singleton]

theorem not_atMostOne_twice {next last : ListState} (h : NextVersion s next)
    (h' : NextVersion next last) : ¬ AtMostOne s last := by
  intro hone
  have hfirst := h.1
  have hsecond := h'.1
  have hle := hone.2
  omega

theorem freeNumber_next_iff {next : ListState} (h : NextVersion s next) :
    FreeNumber next (next.currentVersion + 1) ↔ FreeNumber s (s.currentVersion + 2) := by
  obtain ⟨hcurrent, v, hv, hversions⟩ := h
  have hnumber : next.currentVersion + 1 = s.currentVersion + 2 := by omega
  rw [FreeNumber, hversions, hnumber]
  constructor
  · intro hfree w hw
    exact hfree w (List.mem_append_left _ hw)
  · intro hfree w hw
    rcases List.mem_append.mp hw with hw | hw
    · exact hfree w hw
    · rw [List.mem_singleton.mp hw, hv]
      omega

theorem projectPushedCommit_adds (core : Core) (f : ProjectionFaults) (refs : Refs)
    (s : ListState) :
    (CanonReads core refs ∧ FreeNumber s (s.currentVersion + 1) ∧ f.insert ≠ .failed ∧
      NextVersion s (projectPushedCommit core f refs s).list) ∨
    (¬ (CanonReads core refs ∧ FreeNumber s (s.currentVersion + 1) ∧ f.insert ≠ .failed) ∧
      (projectPushedCommit core f refs s).list = s) := by
  by_cases hreads : CanonReads core refs
  · obtain ⟨tip, subject, raw, steps, hcanon⟩ := canonReads_iff.mp hreads
    by_cases hfree : FreeNumber s (s.currentVersion + 1)
    · have hnext : NextVersion s (withRows s subject steps f.createdAt) := ⟨rfl, _, rfl, rfl⟩
      have hproject := projectPushedCommit_eq f hcanon hfree
      cases hinsert : f.insert with
      | done =>
        rw [hinsert] at hproject
        refine Or.inl ⟨hreads, hfree, nofun, ?_⟩
        rw [hproject]
        dsimp only
        split_ifs
        · exact hnext
        · exact hnext
      | failed =>
        rw [hinsert] at hproject
        refine Or.inr ⟨fun h => h.2.2 rfl, ?_⟩
        rw [hproject]
      | lost =>
        rw [hinsert] at hproject
        refine Or.inl ⟨hreads, hfree, nofun, ?_⟩
        rw [hproject]
        exact hnext
    · refine Or.inr ⟨fun h => hfree h.2.1, ?_⟩
      rw [projectPushedCommit_taken f hcanon hfree]
  · refine Or.inr ⟨fun h => hreads h.1, ?_⟩
    rw [projectPushedCommit_of_not_reads f hreads]

theorem projectMainOrLog_list (core : Core) (first second : ProjectionFaults) (refs : Refs)
    (s : ListState) :
    (projectMainOrLog core first second refs s).2.1 =
      match (projectPushedCommit core first refs s).outcome with
      | .ok _ => (projectPushedCommit core first refs s).list
      | .error _ => (projectPushedCommit core second
          (projectPushedCommit core first refs s).refs
          (projectPushedCommit core first refs s).list).list := by
  unfold projectMainOrLog
  dsimp only
  cases (projectPushedCommit core first refs s).outcome with
  | ok version => rfl
  | error e =>
    dsimp only
    split <;> rfl

theorem atMostOne_projectPushedCommit (core : Core) (f : ProjectionFaults) (refs : Refs)
    (s : ListState) : AtMostOne s (projectPushedCommit core f refs s).list := by
  rcases projectPushedCommit_adds core f refs s with ⟨-, -, -, hnext⟩ | ⟨-, hsame⟩
  · exact atMostOne_next hnext
  · rw [hsame]
    exact atMostOne_same s

theorem projectMainOrLog_atMostOne_iff (core : Core) (first second : ProjectionFaults)
    (refs : Refs) (s : ListState) :
    AtMostOne s (projectMainOrLog core first second refs s).2.1 ↔
      ¬ InsertsTwice core first second refs s := by
  rw [projectMainOrLog_list]
  by_cases hreads : CanonReads core refs
  · obtain ⟨tip, subject, raw, steps, hcanon⟩ := canonReads_iff.mp hreads
    by_cases hfree : FreeNumber s (s.currentVersion + 1)
    · have hproject := projectPushedCommit_eq first hcanon hfree
      cases hinsert : first.insert with
      | done =>
        rw [hinsert] at hproject
        have hone := atMostOne_projectPushedCommit core first refs s
        rw [hproject] at hone ⊢
        refine iff_of_true hone fun h => ?_
        cases hinsert.symm.trans h.lost
      | failed =>
        rw [hinsert] at hproject
        rw [hproject]
        refine iff_of_true (atMostOne_projectPushedCommit core second refs s) fun h => ?_
        cases hinsert.symm.trans h.lost
      | lost =>
        rw [hinsert] at hproject
        rw [hproject]
        have hnext : NextVersion s (withRows s subject steps first.createdAt) := ⟨rfl, _, rfl, rfl⟩
        rcases projectPushedCommit_adds core second refs
          (withRows s subject steps first.createdAt) with
          ⟨-, hfree', hagain, hlast⟩ | ⟨hnot, hsame⟩
        · refine iff_of_false (not_atMostOne_twice hnext hlast) fun h => h ?_
          exact ⟨hreads, hinsert, hagain, hfree, (freeNumber_next_iff hnext).mp hfree'⟩
        · have hone : AtMostOne s (projectPushedCommit core second refs
              (withRows s subject steps first.createdAt)).list := by
            rw [hsame]
            exact atMostOne_next hnext
          refine iff_of_true hone fun h => hnot ?_
          exact ⟨hreads, (freeNumber_next_iff hnext).mpr h.next, h.again⟩
    · rw [projectPushedCommit_taken first hcanon hfree]
      exact iff_of_true (atMostOne_projectPushedCommit core second refs s) fun h => hfree h.free
  · rw [projectPushedCommit_of_not_reads first hreads]
    exact iff_of_true (atMostOne_same s) fun h => hreads h.reads

end Attempts

section Pushes

variable (core : Core) (lib : GitLibrary) (f : PushFaults) (env : HookEnv)
  (commands : List RefCommand) (refs : Refs)

/-- The references after a push and its magic references. -/
def pushedRefs : Refs :=
  (takeMagicPushes f.magic env.actor refs (received lib f.applied env refs commands)).1

/-- A push gets as far as the projection: git answered, the magic references were taken, and main
has moved. -/
structure PushProjects : Prop where
  answered : f.answered = true
  taken : (takeMagicPushes f.magic env.actor refs
    (received lib f.applied env refs commands)).2.2 = true
  main : ((received lib f.applied env refs commands).lookup mainRef).isSome = true
  moved : (received lib f.applied env refs commands).lookup mainRef ≠ refs.lookup mainRef

theorem receivePack_list_cases (s : ListState) :
    (PushProjects lib f env commands refs ∧
      (receivePack core lib f env commands refs (some s)).list =
        some (projectMainOrLog core f.first f.second (pushedRefs lib f env commands refs) s).2.1) ∨
    (¬ PushProjects lib f env commands refs ∧
      (receivePack core lib f env commands refs (some s)).list = some s) := by
  unfold receivePack
  dsimp only
  split_ifs with hanswered htaken hmoved
  · refine Or.inr ⟨fun h => ?_, rfl⟩
    have hyes := h.answered
    simp [hyes] at hanswered
  · refine Or.inr ⟨fun h => ?_, rfl⟩
    have hyes := h.taken
    simp [hyes] at htaken
  · exact Or.inl ⟨⟨by simpa using hanswered, by simpa using htaken, hmoved.1, hmoved.2⟩, rfl⟩
  · exact Or.inr ⟨fun h => hmoved ⟨h.main, h.moved⟩, rfl⟩

/-- A push makes at most one version exactly when its two projections do not both commit rows. -/
theorem push_makes_one_version_iff (s : ListState) :
    (∃ after, (receivePack core lib f env commands refs (some s)).list = some after ∧
      AtMostOne s after) ↔
    ¬ (PushProjects lib f env commands refs ∧
      InsertsTwice core f.first f.second (pushedRefs lib f env commands refs) s) := by
  rcases receivePack_list_cases core lib f env commands refs s with ⟨hprojects, hlist⟩ | ⟨hnot, hlist⟩
  · rw [hlist]
    have hone := projectMainOrLog_atMostOne_iff core f.first f.second
      (pushedRefs lib f env commands refs) s
    constructor
    · intro h hboth
      obtain ⟨after, hafter, hatMost⟩ := h
      obtain rfl := Option.some.inj hafter
      exact hone.mp hatMost hboth.2
    · intro h
      exact ⟨_, rfl, hone.mpr fun htwice => h ⟨hprojects, htwice⟩⟩
  · rw [hlist]
    exact iff_of_true ⟨s, rfl, atMostOne_same s⟩ fun h => hnot h.1

end Pushes

/-- A commit with one step over another commit. -/
def pushedOver (c : Commit) : Commit := .mk (listTree (pushedCanon [twin 1 true])) [c] ⟨[], [], 0⟩

/-- The first insertion is committed, and its acknowledgement is lost. -/
def lostAck : PushFaults where
  answered := true
  applied := fun _ => true
  magic := ⟨fun _ => true, fun _ => true⟩
  first := ⟨.lost, .done, true, 0⟩
  second := ⟨.done, .done, true, 0⟩

/-- One push makes two versions. -/
theorem lost_acknowledgement_makes_two :
    ¬ ∃ after, (receivePack canonCore plainLibrary lostAck ownerEnv
        [overMain firstCommit (pushedOver firstCommit)] markedRefs (some markedList)).list =
          some after ∧ AtMostOne markedList after := by
  have hgot : received plainLibrary lostAck.applied ownerEnv markedRefs
      [overMain firstCommit (pushedOver firstCommit)] =
        markedRefs.insert mainRef (.commit (pushedOver firstCommit)) :=
    received_listTree plainLibrary markedRefs_main _ _
  have hmain : (markedRefs.insert mainRef (.commit (pushedOver firstCommit))).lookup mainRef =
      some (.commit (pushedOver firstCommit)) := AList.lookup_insert markedRefs
  have hprojects : PushProjects plainLibrary lostAck ownerEnv
      [overMain firstCommit (pushedOver firstCommit)] markedRefs := by
    refine ⟨rfl, rfl, ?_, ?_⟩
    · rw [hgot, hmain]
      rfl
    · rw [hgot, hmain, markedRefs_main]
      intro heq
      have hparent : (pushedOver firstCommit).IsParent firstCommit := List.mem_singleton_self _
      exact Commit.ne_of_isParent_reaches .refl hparent (Target.commit.inj (Option.some.inj heq))
  have hafter : pushedRefs plainLibrary lostAck ownerEnv
      [overMain firstCommit (pushedOver firstCommit)] markedRefs =
        markedRefs.insert mainRef (.commit (pushedOver firstCommit)) := hgot
  have htwice : InsertsTwice canonCore lostAck.first lostAck.second
      (markedRefs.insert mainRef (.commit (pushedOver firstCommit))) markedList := by
    refine ⟨?_, rfl, nofun, ?_, ?_⟩
    · exact canonReads_of_get hmain (listTree_get _) single_read rfl
    · unfold FreeNumber
      decide
    · unfold FreeNumber
      decide
  rintro ⟨after, hlist, hone⟩
  rcases receivePack_list_cases canonCore plainLibrary lostAck ownerEnv
    [overMain firstCommit (pushedOver firstCommit)] markedRefs markedList with
    ⟨-, hprojected⟩ | ⟨hnot, -⟩
  · obtain rfl := Option.some.inj (hlist.symm.trans hprojected)
    rw [hafter, projectMainOrLog_atMostOne_iff] at hone
    exact hone htwice
  · exact hnot hprojects

/-- The columns of the list besides its versions. -/
structure SameMeta (a b : ListState) : Prop where
  title : a.title = b.title
  desc : a.desc = b.desc
  tags : a.tags = b.tags
  ordered : a.ordered = b.ordered
  kind : a.listKind = b.listKind
  header : a.skillHeader = b.skillHeader

/-- The version rows, the step rows and the current version are those of a canon. -/
structure RowsReflect (s : ListState) (subject : Text) (steps : List RawStep) (createdAt : Int)
    (after : ListState) : Prop where
  current : after.currentVersion = s.currentVersion + 1
  versions : after.versions = (withRows s subject steps createdAt).versions

/-- All or nothing: the database is unchanged, or its rows and its meta reflect the canon at the
tip of main. -/
def AllOrNothing (core : Core) (f : ProjectionFaults) (refs : Refs) (s after : ListState) : Prop :=
  after = s ∨ ∃ tip subject raw steps, ReadsCanon core refs tip subject raw steps ∧
    RowsReflect s subject steps f.createdAt after ∧ SameMeta after (updateMeta raw s)

section Transactions

variable {core : Core} (f : ProjectionFaults) {refs : Refs} {s : ListState}

theorem projection_unchanged (h : CanonReads core refs → FreeNumber s (s.currentVersion + 1) →
    f.insert = .failed) : (projectPushedCommit core f refs s).list = s := by
  by_cases hreads : CanonReads core refs
  · obtain ⟨tip, subject, raw, steps, hcanon⟩ := canonReads_iff.mp hreads
    by_cases hfree : FreeNumber s (s.currentVersion + 1)
    · rw [projectPushedCommit_eq f hcanon hfree, h hreads hfree]
    · rw [projectPushedCommit_taken f hcanon hfree]
  · rw [projectPushedCommit_of_not_reads f hreads]

theorem projection_reflects {tip : Commit} {subject : Text} {raw : RawList} {steps : List RawStep}
    (hcanon : ReadsCanon core refs tip subject raw steps)
    (hfree : FreeNumber s (s.currentVersion + 1)) (hinsert : f.insert ≠ .failed) :
    RowsReflect s subject steps f.createdAt (projectPushedCommit core f refs s).list ∧
      (SameMeta (projectPushedCommit core f refs s).list (updateMeta raw s) ∨
        SameMeta (projectPushedCommit core f refs s).list s ∧
          (f.patched = .failed ∨ f.insert = .lost)) := by
  have hproject := projectPushedCommit_eq f hcanon hfree
  have hrows : RowsReflect s subject steps f.createdAt (withRows s subject steps f.createdAt) :=
    ⟨rfl, rfl⟩
  have hmeta : SameMeta (withRows s subject steps f.createdAt) s := ⟨rfl, rfl, rfl, rfl, rfl, rfl⟩
  cases hcase : f.insert with
  | failed => exact absurd hcase hinsert
  | lost =>
    rw [hcase] at hproject
    rw [hproject]
    exact ⟨hrows, Or.inr ⟨hmeta, Or.inr rfl⟩⟩
  | done =>
    rw [hcase] at hproject
    rw [hproject]
    dsimp only
    split_ifs with hpatched
    · exact ⟨hrows, Or.inr ⟨hmeta, Or.inl hpatched⟩⟩
    · exact ⟨⟨rfl, rfl⟩, Or.inl ⟨rfl, rfl, rfl, rfl, rfl, rfl⟩⟩

end Transactions

/-- A projection whose rows are not committed changes nothing; else the rows reflect the canon, and
the meta does so too, or is as it was when its own transaction failed or the commit of the rows was
reported as a failure. With a canon that reads and a free number the rows are in unless their
transaction fails. -/
theorem projection_by_transactions (core : Core) (f : ProjectionFaults) (refs : Refs)
    (s : ListState) :
    (f.insert = .failed → (projectPushedCommit core f refs s).list = s) ∧
    ((projectPushedCommit core f refs s).list = s ∨
      ∃ tip subject raw steps, ReadsCanon core refs tip subject raw steps ∧
        RowsReflect s subject steps f.createdAt (projectPushedCommit core f refs s).list ∧
        (SameMeta (projectPushedCommit core f refs s).list (updateMeta raw s) ∨
          SameMeta (projectPushedCommit core f refs s).list s ∧
            (f.patched = .failed ∨ f.insert = .lost))) ∧
    ∀ tip subject raw steps, ReadsCanon core refs tip subject raw steps →
      FreeNumber s (s.currentVersion + 1) → f.insert ≠ .failed →
      RowsReflect s subject steps f.createdAt (projectPushedCommit core f refs s).list := by
  refine ⟨fun hfailed => projection_unchanged f fun _ _ => hfailed, ?_,
    fun tip subject raw steps hcanon hfree hinsert => (projection_reflects f hcanon hfree hinsert).1⟩
  by_cases hdone : CanonReads core refs ∧ FreeNumber s (s.currentVersion + 1) ∧ f.insert ≠ .failed
  · obtain ⟨hreads, hfree, hinsert⟩ := hdone
    obtain ⟨tip, subject, raw, steps, hcanon⟩ := canonReads_iff.mp hreads
    exact Or.inr ⟨tip, subject, raw, steps, hcanon, projection_reflects f hcanon hfree hinsert⟩
  · refine Or.inl (projection_unchanged f fun hreads hfree => ?_)
    by_contra hinsert
    exact hdone ⟨hreads, hfree, hinsert⟩

def unorderedCanon : VersionData := { pushedCanon [twin 1 true] with ordered := false }

private theorem unorderedCanon_read : (canonParser []).fromSlice (utf8 (listJson [] unorderedCanon)) =
    some (rawOfCanon unorderedCanon) := by
  have hheader : ∀ h ∈ unorderedCanon.skillHeader, UniqueKeys h := by
    intro h hh
    cases hh
  have hmaps : VersionMaps unorderedCanon := by
    refine ⟨fun t ht => ?_, hheader, rfl, fun t ht => ?_⟩ <;> rw [List.mem_singleton.mp ht] <;> trivial
  have hshallow : Shallow unorderedCanon := by
    intro t ht _
    rw [List.mem_singleton.mp ht]
    exact Nat.zero_le 124
  exact ((canonParser []).fromSlice_listJson hmaps).1 hshallow

/-- Its commit over the first one. -/
def unorderedTip : Commit := .mk (listTree unorderedCanon) [firstCommit] ⟨[], [], 0⟩

/-- The rows are in, and the meta is not. -/
def lostMeta : ProjectionFaults := ⟨.done, .failed, true, 0⟩

/-- The new steps stand under the old meta. -/
theorem lost_meta_leaves_old_order :
    ¬ AllOrNothing canonCore lostMeta (markedRefs.insert mainRef (.commit unorderedTip)) markedList
      (projectPushedCommit canonCore lostMeta (markedRefs.insert mainRef (.commit unorderedTip))
        markedList).list := by
  have hmain : (markedRefs.insert mainRef (.commit unorderedTip)).lookup mainRef =
      some (.commit unorderedTip) := AList.lookup_insert markedRefs
  have hcanon : ReadsCanon canonCore (markedRefs.insert mainRef (.commit unorderedTip)) unorderedTip
      _ (rawOfCanon unorderedCanon) _ :=
    readsCanon_of_get hmain (listTree_get _) unorderedCanon_read rfl
  have hfree : FreeNumber markedList (markedList.currentVersion + 1) := by
    unfold FreeNumber
    decide
  rw [projectPushedCommit_eq lostMeta hcanon hfree]
  rintro (hsame | ⟨tip, subject, raw, steps, hreads, -, hmeta⟩)
  · have hcurrent := congrArg ListState.currentVersion hsame
    exact absurd hcurrent (by decide)
  · obtain ⟨-, -, rfl, -⟩ := hcanon.unique hreads
    have hordered := hmeta.ordered
    exact absurd hordered (by decide)

end Setfork.PushedVersions
