/- FailedWrites
   digest: What a web write that fails leaves behind, against the state its alignment left. -/
import Setfork.Healing

set_option autoImplicit false
set_option relaxedAutoImplicit false

namespace Setfork.FailedWrites

open Setfork.Foundation
open Setfork.Rows
open Setfork.Authored
open Setfork.VersionTree
open Setfork.Repository
open Setfork.History
open Setfork.Alignment
open Setfork.WebVersion
open Setfork.Healing

def IsRefusal : WebVersionError → Prop
  | .projectionLost _ => False
  | _ => True

/-- A write that reports such an error leaves the references and the rows of its alignment. -/
def LeavesNothing (synced : Synced) (w : WebWrite) : Prop :=
  ∀ e, w.outcome = .error e → IsRefusal e → w.disk = synced.disk ∧ w.list = synced.list

structure LosesTag (core : Core) (f : WebFaults) (refs : Refs) (s : ListState) (edit : WebEdit) :
    Prop where
  inserted : f.inserted = true
  written : f.history.written = true
  untagged : f.history.tagged (s.currentVersion + 1) = false
  accepted : ∃ parent c, Acceptable core refs s edit f.createdAt parent c

/-- Over the state of its alignment the write gets as far as main and loses the tag. -/
structure StopsAtTag (core : Core) (f : WebFaults) (synced : Synced) (edit : WebEdit) : Prop where
  aligned : ∃ o, synced.outcome = .ok o ∧ ∀ highest current, o ≠ .conflict highest current
  row : f.readRow = true
  lost : ∃ refs s, synced.disk = .repo refs ∧ synced.list = some s ∧ LosesTag core f refs s edit

section Write

variable (core : Core) (f : WebFaults) {refs : Refs} {s : ListState} (edit : WebEdit)

theorem writeVersion_leavesNothing_iff {synced : Synced} (hrepo : synced.disk = .repo refs)
    (hlist : synced.list = some s) :
    LeavesNothing synced (writeVersion core f refs s edit) ↔ ¬ LosesTag core f refs s edit := by
  rcases writeVersion_cases core f refs s edit with ⟨⟨e, he⟩, hnone⟩ | hmoved
  · have hleft : LeavesNothing synced (writeVersion core f refs s edit) := by
      rw [he]
      exact fun _ _ _ => ⟨hrepo.symm, hlist.symm⟩
    refine iff_of_true hleft fun h => ?_
    obtain ⟨parent, c, haccept⟩ := h.accepted
    have hwritten := hnone parent c haccept h.inserted
    rw [h.written] at hwritten
    cases hwritten
  · obtain ⟨parent, c, haccept, hinserted, hwritten, hwrite⟩ := hmoved
    rcases hwrite with ⟨htag, hdisk, -, hout⟩ | ⟨htag, -, -, hout⟩
    · have hlost : LosesTag core f refs s edit :=
        ⟨hinserted, hwritten, htag, parent, c, haccept⟩
      refine iff_of_false (fun h => ?_) fun h => h hlost
      have hsame := (h _ hout trivial).1
      rw [hdisk, hrepo] at hsame
      have hmain : (refs.insert mainRef (.commit c)).lookup mainRef = refs.lookup mainRef := by
        rw [Disk.repo.inj hsame]
      rw [AList.lookup_insert, haccept.main] at hmain
      obtain ⟨p, hp, heq⟩ := Option.map_eq_some_iff.mp hmain.symm
      exact (commitVersion_parents haccept.commit p hp).2 (Target.commit.inj heq).symm
    · have hleft : LeavesNothing synced (writeVersion core f refs s edit) := by
        intro e he hrefusal
        rw [hout] at he
        split_ifs at he
        obtain rfl := Except.error.inj he
        exact absurd hrefusal id
      refine iff_of_true hleft fun h => ?_
      have huntagged := h.untagged
      rw [htag] at huntagged
      cases huntagged

/-- Whatever fails in it, a web write that reports a failure other than a lost projection leaves
nothing of the edit behind, exactly when it does not lose the tag after moving main. -/
theorem failed_write_leaves_nothing_iff (disk : Disk) (list : Option ListState) :
    LeavesNothing (syncRepoWithDb core f.sync disk list)
        (commitWebVersion core f disk list edit) ↔
      ¬ StopsAtTag core f (syncRepoWithDb core f.sync disk list) edit := by
  unfold commitWebVersion
  dsimp only
  generalize syncRepoWithDb core f.sync disk list = synced
  have hstop : ∀ e, ¬ StopsAtTag core f synced edit →
      (LeavesNothing synced ⟨synced.disk, synced.list, .error e⟩ ↔
        ¬ StopsAtTag core f synced edit) :=
    fun _ h => iff_of_true (fun _ _ _ => ⟨rfl, rfl⟩) h
  have hfailed : ∀ e, synced.outcome = .error e → ¬ StopsAtTag core f synced edit := by
    intro e he h
    obtain ⟨o, ho, -⟩ := h.aligned
    cases ho.symm.trans he
  split
  · rename_i highest current hok
    refine hstop _ fun h => ?_
    obtain ⟨o, ho, hconflict⟩ := h.aligned
    exact hconflict highest current (Except.ok.inj (ho.symm.trans hok))
  · rename_i hfail
    exact hstop _ (hfailed _ hfail)
  · rename_i hfail
    exact hstop _ (hfailed _ hfail)
  · rename_i o hconflict hok
    split_ifs with hrow
    · refine hstop _ fun h => ?_
      have hread := h.row
      rw [Bool.not_eq_true'] at hrow
      rw [hrow] at hread
      cases hread
    · split
      · rename_i hlist
        rw [← hlist]
        refine hstop _ fun h => ?_
        obtain ⟨_, _, -, hs, -⟩ := h.lost
        cases hlist.symm.trans hs
      · rename_i s refs hlist hrepo
        rw [writeVersion_leavesNothing_iff core f edit hrepo hlist]
        refine not_congr ⟨fun h => ?_, fun h => ?_⟩
        · exact ⟨⟨o, hok, fun highest current heq => hconflict highest current heq⟩,
            by simpa using hrow, refs, s, hrepo, hlist, h⟩
        · obtain ⟨refs', s', hrefs, hs, hlost⟩ := h.lost
          obtain rfl := Disk.repo.inj (hrepo.symm.trans hrefs)
          obtain rfl := Option.some.inj (hlist.symm.trans hs)
          exact hlost
      · rename_i s hlist hrepo
        rw [← hlist]
        refine hstop _ fun h => ?_
        obtain ⟨refs, _, hrefs, -⟩ := h.lost
        exact hrepo refs hrefs

end Write

/-- A write whose tag cannot be set. -/
def untagged : WebFaults := ⟨steady 0, true, true, 0, ⟨true, fun _ => false⟩, .done⟩

private theorem markedRefs_synced : syncRepoWithDb canonCore untagged.sync (.repo markedRefs)
    (some markedList) = ⟨.repo markedRefs, some markedList, .ok .inSync, false⟩ := by
  rw [sync_of_agree canonCore untagged.sync markedRefs_agree]
  rfl

/-- The write answers that nothing was written, and the edit is the tip of main. -/
theorem untagged_write_leaves_main :
    ¬ LeavesNothing (syncRepoWithDb canonCore untagged.sync (.repo markedRefs) (some markedList))
      (commitWebVersion canonCore untagged (.repo markedRefs) (some markedList)
        (markEdit false)) := by
  rw [commitWebVersion_of_agree canonCore untagged markedRefs_agree, if_pos ⟨rfl, rfl⟩,
    markedRefs_synced, writeVersion_leavesNothing_iff canonCore untagged (markEdit false) rfl rfl]
  intro h
  exact h ⟨rfl, rfl, rfl, (markEdit_reaches false).accepted⟩

end Setfork.FailedWrites
