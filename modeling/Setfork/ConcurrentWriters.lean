/- ConcurrentWriters
   digest: Any number of writers of one list under its lock: their versions follow one another, and
   so do the commits under them. -/
import Mathlib.Data.List.Chain
import Setfork.Writers

set_option autoImplicit false
set_option relaxedAutoImplicit false

namespace Setfork.ConcurrentWriters

open Setfork.Foundation
open Setfork.Rows
open Setfork.Repository
open Setfork.History
open Setfork.Alignment
open Setfork.WebVersion
open Setfork.Push
open Setfork.Received
open Setfork.Branches
open Setfork.Service
open Setfork.TagRuns
open Setfork.Writers
open Setfork.Healing (firstCommit markedList markedRefs markedRefs_main markedRefs_agree
  markedRefs_ready markEdit plainWrite)

structure Unborn (refs : Refs) (s : ListState) : Prop where
  start : 0 ≤ s.currentVersion
  rows : s.versions = []
  tags : ∀ ref ∈ refs, tagVersion ref = none

/-- The current version has the highest version tag, on a commit under main; a main above it has no
canon that makes a version. -/
structure Standing (core : Core) (c : Commit) (refs : Refs) (s : ListState) : Prop where
  born : 0 < s.currentVersion
  rows : RowsUpTo s
  highest : (maxTagIn refs : Int) = s.currentVersion
  tag : refs.lookup (tagRef (versionTag s.currentVersion)) = some (.commit c)
  main : ∃ tip, refs.lookup mainRef = some (.commit tip) ∧ tip.Reaches c ∧
    (tip = c ∨ ¬ CanonReads core refs)

/-- Git and database agree, up to commits that are no versions. -/
def Healthy (core : Core) (last : Option Commit) (refs : Refs) (s : ListState) : Prop :=
  match last with
  | none => Unborn refs s
  | some c => Standing core c refs s

theorem Standing.tag_reads {core : Core} {c : Commit} {refs : Refs} {s : ListState}
    (h : Standing core c refs s) :
    (tagVersion (tagRef (versionTag s.currentVersion))).isSome = true := by
  have hborn := h.born
  have hhighest := h.highest
  rcases maxTagIn_eq refs with hzero | ⟨top, -, hmax⟩
  · omega
  · rw [← hhighest, tagVersion_of_fits (tagVersion_fits hmax)]
    rfl

section Healthy

variable {core : Core} {last : Option Commit} {refs : Refs} {s : ListState}

theorem Healthy.rows (h : Healthy core last refs s) : RowsUpTo s := by
  cases last with
  | none =>
    intro r hr
    rw [Unborn.rows h] at hr
    cases hr
  | some c => exact Standing.rows h

theorem Healthy.start (h : Healthy core last refs s) : 0 ≤ s.currentVersion := by
  cases last with
  | none => exact Unborn.start h
  | some c => exact (Standing.born h).le

theorem maxTagIn_of_untagged (h : ∀ ref ∈ refs, tagVersion ref = none) : maxTagIn refs = 0 := by
  rcases maxTagIn_eq refs with hzero | ⟨ref, href, hk⟩
  · exact hzero
  · rw [h ref href] at hk
    cases hk

theorem Healthy.highest_le (h : Healthy core last refs s) : (maxTagIn refs : Int) ≤ s.currentVersion := by
  cases last with
  | none =>
    rw [maxTagIn_of_untagged (Unborn.tags h)]
    exact Unborn.start h
  | some c => exact (Standing.highest h).le

theorem align_of_unborn (f : SyncFaults) (h : Unborn refs s) :
    (alignByCounters core f refs s 0).refs = refs ∧ (alignByCounters core f refs s 0).list = s := by
  rcases alignByCounters_cases core f refs s 0 _ rfl with
    ⟨hzero, heq | ⟨-, heq⟩⟩ | ⟨-, heq⟩ | ⟨habove, -⟩
  · rw [heq]
    exact ⟨rfl, rfl⟩
  · have hborn : ¬ 0 < s.currentVersion := by
      have hzero' : (0 : Int) = s.currentVersion := by simpa using hzero
      omega
    have hsame : alignByCounters core f refs s 0 = ⟨refs, s, .ok .inSync, false⟩ := by
      rw [alignByCounters, if_pos hzero, if_neg fun hboth => hborn hboth.1]
    rw [hsame]
    exact ⟨rfl, rfl⟩
  · obtain ⟨hlist, ⟨hrefs, -⟩ | ⟨⟨r, hr, -⟩, -⟩⟩ := catchUp_cases core f refs s 0 _ rfl
    · rw [heq]
      exact ⟨hrefs, hlist⟩
    · rw [h.rows] at hr
      cases hr
  · have hstart := h.start
    simp at habove
    omega

/-- An alignment changes nothing of a healthy list, whatever fails in it. -/
theorem sync_of_healthy (f : SyncFaults) (h : Healthy core last refs s) :
    (syncRepoWithDb core f (.repo refs) (some s)).disk = .repo refs ∧
      (syncRepoWithDb core f (.repo refs) (some s)).list = some s := by
  cases hcurrent : f.readCurrent with
  | false => simp [syncRepoWithDb, hcurrent]
  | true =>
    cases last with
    | none =>
      have hunborn : Unborn refs s := h
      have hzero := maxTagIn_of_untagged hunborn.tags
      obtain ⟨hrefs, hlist⟩ := @align_of_unborn core refs s f hunborn
      cases hmain : refs.lookup mainRef with
      | some t =>
        simp only [syncRepoWithDb, hcurrent, hmain, hzero]
        simp [Aligned.synced, hrefs, hlist]
      | none =>
        have hheal : (healMain core f refs s 0).refs = refs ∧ (healMain core f refs s 0).list = s := by
          have hnothing : min ((0 : Nat) : Int) s.currentVersion = 0 := by
            have hstart := hunborn.start
            omega
          rcases healMain_cases core f refs s 0 0 hnothing.symm _ rfl with
            ⟨e, hpos, -⟩ | ⟨c, hpos, -⟩ | ⟨-, heq⟩
          · exact absurd hpos (Int.lt_irrefl 0)
          · exact absurd hpos (Int.lt_irrefl 0)
          · rw [heq, if_pos rfl]
            rcases bootstrapOr_cases core f refs s _ _ rfl with ⟨hstop, -⟩ | ⟨hother, -⟩ | ⟨hsome, -⟩
            · rw [hstop]
              exact ⟨rfl, rfl⟩
            · rw [hother]
              exact ⟨hrefs, hlist⟩
            · exact absurd hunborn.rows hsome
        simp only [syncRepoWithDb, hcurrent, hmain, hzero]
        simp [Aligned.synced, hheal.1, hheal.2]
    | some c =>
      have hstanding : Standing core c refs s := h
      obtain ⟨tip, hmain, -, htip⟩ := hstanding.main
      have haligned : (alignByCounters core f refs s (maxTagIn refs)).refs = refs ∧
          (alignByCounters core f refs s (maxTagIn refs)).list = s := by
        rw [alignByCounters, if_pos hstanding.highest]
        split_ifs with hoff
        · have hunread : ¬ CanonReads core refs := by
            rcases htip with rfl | hunread
            · have hon : tagOnTip refs s.currentVersion = true := by
                simp [tagOnTip, hmain, hstanding.tag]
              rw [hon] at hoff
              cases hoff.2
            · exact hunread
          rw [projectedOr, projectPushedCommit_of_not_reads _ hunread]
          exact ⟨rfl, rfl⟩
        · exact ⟨rfl, rfl⟩
      simp only [syncRepoWithDb, hcurrent, hmain]
      simp [Aligned.synced, haligned.1, haligned.2]

theorem ensureRepo_of_healthy (f : SyncFaults) (h : Healthy core last refs s) :
    ensureRepo core f ⟨.repo refs, some s⟩ = ⟨.repo refs, some s⟩ := by
  obtain ⟨hdisk, hlist⟩ := sync_of_healthy f h
  simp only [ensureRepo, hdisk, hlist]

end Healthy

structure MovedOn (before after : Refs) (tip : Commit) : Prop where
  main : after.lookup mainRef = some (.commit tip)
  forward : ∀ old, before.lookup mainRef = some (.commit old) → tip.Reaches old ∧ tip ≠ old

/-- What one version is for the next one. -/
def Follows (old new : Commit) : Prop := new.Reaches old ∧ new ≠ old

theorem follows_of_reaches {c tip new : Commit} (h : new.Reaches tip) (hne : new ≠ tip)
    (htip : tip.Reaches c) : Follows c new := by
  refine ⟨h.trans htip, ?_⟩
  rcases Relation.ReflTransGen.cases_head h with heq | ⟨p, hp, hrest⟩
  · exact absurd heq hne
  · rintro rfl
    exact Commit.ne_of_isParent_reaches (hrest.trans htip) hp rfl

section Changes

variable {core : Core} {last : Option Commit} {refs changed : Refs} {s : ListState}

theorem canonReads_congr (h : changed.lookup mainRef = refs.lookup mainRef) :
    CanonReads core changed ↔ CanonReads core refs := by
  have hread : readTip core changed = readTip core refs := by
    simp only [readTip, Refs.commitAt, h]
  simp only [CanonReads, hread]

theorem tags_of_beside (hbeside : Beside refs changed) (h : ∀ ref ∈ refs, tagVersion ref = none) :
    ∀ ref ∈ changed, tagVersion ref = none := by
  intro ref href
  by_contra hsome
  obtain ⟨k, hk⟩ := Option.ne_none_iff_exists'.mp hsome
  have hmem : ref ∈ refs := by
    rw [← AList.lookup_isSome, ← hbeside.tags ref (by rw [hk]; rfl), AList.lookup_isSome]
    exact href
  rw [h ref hmem] at hk
  cases hk

theorem maxTagIn_of_beside (hbeside : Beside refs changed) : maxTagIn changed = maxTagIn refs := by
  apply maxTagIn_congr
  intro ref k hk
  have hsame := hbeside.tags ref (by rw [hk]; rfl)
  rw [← AList.lookup_isSome, hsame, AList.lookup_isSome]

theorem healthy_aside (h : Healthy core last refs s) (hbeside : Beside refs changed)
    (hmain : mainRef ∈ refs → changed.lookup mainRef = refs.lookup mainRef) :
    Healthy core last changed s := by
  cases last with
  | none => exact ⟨Unborn.start h, Unborn.rows h, tags_of_beside hbeside (Unborn.tags h)⟩
  | some c =>
    have hstanding : Standing core c refs s := h
    obtain ⟨tip, htip, hreach, hread⟩ := hstanding.main
    have hsame := hmain (SoundStates.mem_main_of_lookup htip)
    refine ⟨hstanding.born, hstanding.rows, ?_, hbeside.tagsKept _ ?_ _ hstanding.tag, tip, ?_,
      hreach, ?_⟩
    · rw [maxTagIn_of_beside hbeside]
      exact hstanding.highest
    · exact hstanding.tag_reads
    · rw [hsame]
      exact htip
    · rw [canonReads_congr hsame]
      exact hread

theorem healthy_moved {tip : Commit} (h : Healthy core last refs s) (hbeside : Beside refs changed)
    (hmoved : MovedOn refs changed tip) (hunread : ¬ CanonReads core changed) :
    Healthy core last changed s := by
  cases last with
  | none => exact ⟨Unborn.start h, Unborn.rows h, tags_of_beside hbeside (Unborn.tags h)⟩
  | some c =>
    have hstanding : Standing core c refs s := h
    obtain ⟨old, hold, hreach, -⟩ := hstanding.main
    refine ⟨hstanding.born, hstanding.rows, ?_,
      hbeside.tagsKept _ hstanding.tag_reads _ hstanding.tag, tip, hmoved.main,
      (hmoved.forward old hold).1.trans hreach, Or.inr hunread⟩
    rw [maxTagIn_of_beside hbeside]
    exact hstanding.highest

theorem healthy_recorded {tip : Commit} {s' : ListState} (h : Healthy core last refs s)
    (hbeside : Beside refs changed) (hmoved : MovedOn refs changed tip)
    (hnext : NextVersion s s') (hfits : s.currentVersion + 1 ≤ 2147483647) :
    Healthy core (some tip)
      (changed.insert (tagRef (versionTag (s.currentVersion + 1))) (.commit tip)) s' ∧
    ∀ old ∈ last, Follows old tip := by
  have hstart := h.start
  constructor
  · obtain ⟨n, hn⟩ := Int.eq_ofNat_of_zero_le (show 0 ≤ s.currentVersion + 1 by omega)
    have hup : maxTagIn changed ≤ n := by
      have hle := h.highest_le
      rw [maxTagIn_of_beside hbeside]
      omega
    have hmax := maxTagIn_insert_next (show n ≤ 2147483647 by omega) hup (.commit tip)
    refine ⟨?_, h.rows.next hnext, ?_, ?_, tip, ?_, .refl, Or.inl rfl⟩
    · rw [hnext.1]
      omega
    · rw [hnext.1, hn]
      exact_mod_cast hmax
    · rw [hnext.1]
      exact AList.lookup_insert changed
    · exact (AList.lookup_insert_ne (tagRef_ne_mainRef _).symm).trans hmoved.main
  · intro old hold
    cases last with
    | none => cases hold
    | some c =>
      obtain rfl := Option.some.inj hold
      have hstanding : Standing core c refs s := h
      obtain ⟨main, hmain, hreach, -⟩ := hstanding.main
      obtain ⟨hforward, hne⟩ := hmoved.forward main hmain
      exact follows_of_reaches hforward hne hreach

end Changes

/-- One of the two attempts at a projection records the version and its tag. -/
def Recorded (first second : ProjectionFaults) : Prop :=
  (first.insert = .done ∧ first.tagged = true) ∨
    (first.insert = .failed ∧ second.insert = .done ∧ second.tagged = true)

/-- Nothing fails between a move of main and the record of its version; an operator does not ask
for projections of his own. -/
def Lands : Op → Prop
  | .web f _ => (∀ n, f.history.tagged n = true) ∧ f.tail = .done
  | .push f _ _ => f.answered = true ∧ (∀ name, f.magic.moved name = true) ∧
      (∀ name, f.magic.deleted name = true) ∧ Recorded f.first f.second
  | .mergeBranch _ first second _ _ _ => Recorded first second
  | .mergeResolved _ first second _ _ _ _ => Recorded first second
  | .reproject _ => False
  | _ => True

/-- An operation leaves the version as it is, or makes the next one and reports it. -/
def Advances (core : Core) (last : Option Commit) (s : ListState) (next : State)
    (report : Option Made) : Prop :=
  ∃ refs' s', next = ⟨.repo refs', some s'⟩ ∧
    ((report = none ∧ s'.currentVersion = s.currentVersion ∧ Healthy core last refs' s') ∨
    ∃ c, report = some ⟨s.currentVersion + 1, c⟩ ∧ s'.currentVersion = s.currentVersion + 1 ∧
      Healthy core (some c) refs' s' ∧ ∀ old ∈ last, Follows old c)

section Landing

variable {core : Core} {lib : GitLibrary} {last : Option Commit} {refs changed : Refs}
  {s : ListState}

theorem advances_quiet (h : Healthy core last changed s) :
    Advances core last s ⟨.repo changed, some s⟩ none :=
  ⟨changed, s, rfl, Or.inl ⟨rfl, rfl, h⟩⟩

theorem madeAt_repo {n : Int} {tip : Commit} {list : Option ListState}
    (h : changed.lookup mainRef = some (.commit tip)) :
    madeAt n ⟨.repo changed, list⟩ = some ⟨n, tip⟩ := by
  simp only [madeAt, Refs.commitAt_eq_some.mpr h, Option.map_some]

theorem advances_project {first second : ProjectionFaults} {tip : Commit}
    (h : Healthy core last refs s) (hbeside : Beside refs changed)
    (hmoved : MovedOn refs changed tip) (hrecorded : Recorded first second)
    (hfits : s.currentVersion + 1 ≤ 2147483647) :
    Advances core last s
      ⟨.repo (projectMainOrLog core first second changed s).1,
        some (projectMainOrLog core first second changed s).2.1⟩
      (projectedAt (projectMainOrLog core first second changed s).2.2
        ⟨.repo (projectMainOrLog core first second changed s).1,
          some (projectMainOrLog core first second changed s).2.1⟩) := by
  by_cases hreads : CanonReads core changed
  · have hboth : ∃ patched, NextVersion s patched ∧ projectMainOrLog core first second changed s =
        (changed.insert (tagRef (versionTag (s.currentVersion + 1))) (.commit tip), patched,
          s.currentVersion + 1) := by
      obtain ⟨_, _, honce⟩ := projectPushedCommit_of_reads first hreads hmoved.main h.rows
      rcases hrecorded with ⟨hdone, htagged⟩ | ⟨hfailed, hdone, htagged⟩
      · rcases honce with ⟨-, patched, hnext, honce⟩ | ⟨hstop, -⟩ | ⟨hstop, -⟩
        · refine ⟨patched, hnext, ?_⟩
          simp [projectMainOrLog, honce, taggedOnce, hdone, htagged, withTag]
        · rw [hdone] at hstop
          cases hstop
        · rw [hdone] at hstop
          cases hstop
      · obtain ⟨_, _, hagain⟩ := projectPushedCommit_of_reads second hreads hmoved.main h.rows
        rcases honce with ⟨hstop, -⟩ | ⟨-, honce⟩ | ⟨hstop, -⟩
        · rw [hfailed] at hstop
          cases hstop
        · rcases hagain with ⟨-, patched, hnext, hagain⟩ | ⟨hstop, -⟩ | ⟨hstop, -⟩
          · refine ⟨patched, hnext, ?_⟩
            simp [projectMainOrLog, honce, hagain, taggedOnce, hdone, htagged, withTag]
          · rw [hdone] at hstop
            cases hstop
          · rw [hdone] at hstop
            cases hstop
        · rw [hfailed] at hstop
          cases hstop
    obtain ⟨patched, hnext, heq⟩ := hboth
    obtain ⟨hhealthy, hfollows⟩ := healthy_recorded h hbeside hmoved hnext hfits
    rw [heq]
    refine ⟨_, patched, rfl, Or.inr ⟨tip, ?_, hnext.1, hhealthy, hfollows⟩⟩
    have hstart := h.start
    have hmain : (changed.insert (tagRef (versionTag (s.currentVersion + 1)))
        (.commit tip)).lookup mainRef = some (.commit tip) :=
      (AList.lookup_insert_ne (tagRef_ne_mainRef _).symm).trans hmoved.main
    rw [projectedAt, if_neg (show ¬ s.currentVersion + 1 = 0 by omega)]
    exact madeAt_repo hmain
  · have hnone : projectMainOrLog core first second changed s = (changed, s, 0) := by
      have honce := projectPushedCommit_of_not_reads first (s := s) hreads
      simp only [projectMainOrLog, honce]
      rfl
    rw [hnone]
    exact advances_quiet (healthy_moved h hbeside hmoved hreads)

theorem movedOn_of_received {applied : Text → Bool} {magic : MagicFaults} {env : HookEnv}
    {commands : List RefCommand}
    (hdiffers : (received lib applied env refs commands).lookup mainRef ≠ refs.lookup mainRef) :
    ∃ tip, MovedOn refs (takeMagicPushes magic env.actor refs
      (received lib applied env refs commands)).1 tip := by
  rcases main_received_forward applied env refs commands with hsame | ⟨c, hc, hforward⟩
  · exact absurd hsame hdiffers
  · refine ⟨c, (lookup_takeMagicPushes_main magic env.actor refs _).trans hc, fun old hold => ?_⟩
    refine ⟨hforward old hold, ?_⟩
    rintro rfl
    exact hdiffers (hc.trans hold.symm)

theorem advances_push (f : PushFaults) (env : HookEnv) (commands : List RefCommand)
    (h : Healthy core last refs s) (hlands : Lands (.push f env commands))
    (hfits : s.currentVersion + 1 ≤ 2147483647) :
    Advances core last s (step core lib (.push f env commands) ⟨.repo refs, some s⟩)
      (made core lib (.push f env commands) ⟨.repo refs, some s⟩) := by
  obtain ⟨hanswered, hmagic, hremoved, hrecorded⟩ := hlands
  have hall := takeMagicPushes_all hmagic hremoved env.actor refs
    (received lib f.applied env refs commands)
  have hbeside := @beside_received lib f.applied f.magic env refs commands
  simp only [step, made, receivePack, hanswered, hall, Bool.not_true, Bool.false_eq_true, if_false]
  split_ifs with hmain
  · obtain ⟨tip, hmoved⟩ := movedOn_of_received hmain.2
    exact advances_project h hbeside hmoved hrecorded hfits
  · have hsame : (received lib f.applied env refs commands).lookup mainRef =
        refs.lookup mainRef := by
      rcases main_received_forward f.applied env refs commands with hsame | ⟨c, hc, -⟩
      · exact hsame
      · by_contra hdiffers
        exact hmain ⟨by rw [hc]; rfl, hdiffers⟩
    have hhealthy := healthy_aside h hbeside fun _ =>
      (lookup_takeMagicPushes_main f.magic env.actor refs _).trans hsame
    exact advances_quiet hhealthy

theorem advances_merge {merged : Refs → Except BranchRefusal Refs} {first second : ProjectionFaults}
    (hmerged : ∀ moved, merged refs = .ok moved → Beside refs moved ∧ ∃ tip, MovedOn refs moved tip)
    (h : Healthy core last refs s) (hrecorded : Recorded first second)
    (hfits : s.currentVersion + 1 ≤ 2147483647) :
    Advances core last s (afterMerge core first second merged ⟨.repo refs, some s⟩)
      (made.mergeMade core ⟨.repo refs, some s⟩ merged first second
        (afterMerge core first second merged ⟨.repo refs, some s⟩)) := by
  cases hdone : merged refs with
  | error e =>
    simp only [afterMerge, made.mergeMade, hdone]
    exact advances_quiet h
  | ok moved =>
    obtain ⟨hbeside, tip, hmoved⟩ := hmerged moved hdone
    simp only [afterMerge, made.mergeMade, hdone]
    exact advances_project h hbeside hmoved hrecorded hfits

theorem advances_web (f : WebFaults) (edit : WebEdit) (h : Healthy core last refs s)
    (hlands : Lands (.web f edit)) (hfits : s.currentVersion + 1 ≤ 2147483647) :
    Advances core last s (step core lib (.web f edit) ⟨.repo refs, some s⟩)
      (made core lib (.web f edit) ⟨.repo refs, some s⟩) := by
  obtain ⟨htagged, htail⟩ := hlands
  obtain ⟨hdisk, hlist⟩ := sync_of_healthy f.sync h
  have hstop : ∀ (w : WebWrite) (e : WebVersionError), w = ⟨.repo refs, some s, .error e⟩ →
      Advances core last s ⟨w.disk, w.list⟩
        (w.outcome.toOption.bind fun n => madeAt n ⟨w.disk, w.list⟩) := by
    intro w e hw
    rw [hw]
    exact advances_quiet h
  have hwhole : ∀ w, commitWebVersion core f (.repo refs) (some s) edit = w →
      Advances core last s ⟨w.disk, w.list⟩
        (w.outcome.toOption.bind fun n => madeAt n ⟨w.disk, w.list⟩) := by
    intro w hw
    rcases commitWebVersion_synced core f edit hdisk hlist with ⟨e, he⟩ | hwritten
    · exact hstop w e (hw.symm.trans he)
    · rw [hwritten] at hw
      rcases writeVersion_cases core f refs s edit with
        ⟨⟨e, he⟩, -⟩ | ⟨parent, c, haccept, -, -, hwrite⟩
      · exact hstop w e (hw.symm.trans he)
      · rw [htagged, htail] at hwrite
        obtain ⟨hfalse, -⟩ | ⟨-, hdisk', hlist', hout⟩ := hwrite
        · cases hfalse
        · rw [hw] at hdisk' hlist' hout
          have hmoved : MovedOn refs (refs.insert mainRef (.commit c)) c := by
            refine ⟨AList.lookup_insert refs, fun old hold => ?_⟩
            have hparent : parent = some old := Option.map_injective
              (fun _ _ => Target.commit.inj) (haccept.main.symm.trans hold)
            exact commitVersion_parents haccept.commit old hparent
          have hnext : NextVersion s (editedList s edit f.createdAt) := ⟨rfl, _, rfl, rfl⟩
          obtain ⟨hhealthy, hfollows⟩ := healthy_recorded h
            (Beside.insert tagVersion_mainRef (.commit c)) hmoved hnext hfits
          rw [hdisk', hlist', hout]
          refine ⟨_, _, rfl, Or.inr ⟨c, ?_, hnext.1, hhealthy, hfollows⟩⟩
          have hmain : ((refs.insert mainRef (.commit c)).insert
              (tagRef (versionTag (s.currentVersion + 1))) (.commit c)).lookup mainRef =
                some (.commit c) :=
            (AList.lookup_insert_ne (tagRef_ne_mainRef _).symm).trans hmoved.main
          exact @madeAt_repo _ _ c (some (editedList s edit f.createdAt)) hmain
  exact hwhole _ rfl

theorem moves_mergeBranch {written squash : Bool} {name : Text} {stamp : Stamp}
    (h : mergeBranch lib written refs name squash stamp = .ok changed) :
    Beside refs changed ∧ ∃ tip, MovedOn refs changed tip := by
  obtain ⟨ours, -, newTip, -, hours, -, -, hreach, hne, rfl⟩ := mergeBranch_eq_ok h
  refine ⟨.insert tagVersion_mainRef _, newTip, AList.lookup_insert refs, fun old hold => ?_⟩
  obtain rfl := Refs.commit_unique hours hold
  exact ⟨hreach, hne⟩

theorem moves_mergeResolved {written squash : Bool} {branch : Text} {listJson : Bytes}
    {stamp : Stamp} (h : mergeResolved core.reserved core.parser.fromSlice written refs branch
      listJson squash stamp = .ok changed) :
    Beside refs changed ∧ ∃ tip, MovedOn refs changed tip := by
  obtain ⟨ours, theirs, t, parents, -, hours, -, hparents, -, rfl⟩ := mergeResolved_eq_ok h
  refine ⟨.insert tagVersion_mainRef _, _, AList.lookup_insert refs, fun old hold => ?_⟩
  obtain rfl := Refs.commit_unique hours hold
  have hparent : (Commit.mk t parents stamp).IsParent ours := by
    show ours ∈ parents
    rw [hparents]
    split_ifs
    · exact List.mem_singleton_self ours
    · exact List.mem_cons_self
  exact ⟨.single hparent, Commit.ne_of_isParent_reaches .refl hparent⟩

theorem advances_onRefs {change : Refs → Except BranchRefusal Refs}
    (hchange : ∀ changed, change refs = .ok changed → Beside refs changed ∧
      (mainRef ∈ refs → changed.lookup mainRef = refs.lookup mainRef))
    (h : Healthy core last refs s) :
    Advances core last s (onRefs change ⟨.repo refs, some s⟩) none := by
  cases hdone : change refs with
  | error e =>
    simp only [onRefs, hdone]
    exact advances_quiet h
  | ok changed =>
    obtain ⟨hbeside, hmain⟩ := hchange changed hdone
    simp only [onRefs, hdone]
    exact advances_quiet (healthy_aside h hbeside hmain)

theorem lookup_main_insert_branch {name : Text} (hname : name ≠ mainName) (t : Target) :
    (refs.insert (branchRef name) t).lookup mainRef = refs.lookup mainRef :=
  AList.lookup_insert_ne (branchRef_ne_main hname).symm

theorem advances_step (op : Op) (h : Healthy core last refs s) (hlands : Lands op)
    (hfits : s.currentVersion + 1 ≤ 2147483647) :
    Advances core last s (step core lib op ⟨.repo refs, some s⟩)
      (made core lib op ⟨.repo refs, some s⟩) := by
  cases op with
  | ensure f =>
    rw [step, ensureRepo_of_healthy f h]
    exact advances_quiet h
  | align f =>
    obtain ⟨hdisk, hlist⟩ := sync_of_healthy f h
    simp only [step, hdisk, hlist]
    exact advances_quiet h
  | web f edit => exact advances_web f edit h hlands hfits
  | push f env commands => exact advances_push f env commands h hlands hfits
  | reproject f => exact hlands.elim
  | createBranch written name origin =>
    simp only [step, made]
    refine advances_onRefs ?_ h
    intro changed hdone
    refine ⟨beside_createBranch hdone, fun hmain => ?_⟩
    obtain ⟨base, c, -, hfree, rfl⟩ := createBranch_eq_ok hdone
    apply AList.lookup_insert_ne
    intro heq
    rw [heq] at hmain
    exact hfree hmain
  | deleteBranch written name =>
    simp only [step, made]
    refine advances_onRefs ?_ h
    intro changed hdone
    refine ⟨beside_deleteBranch hdone, fun _ => ?_⟩
    obtain ⟨hname, rfl⟩ := deleteBranch_eq_ok hdone
    exact AList.lookup_erase_ne (branchRef_ne_main hname).symm
  | commitToBranch written branch listJson expectedTip stamp =>
    simp only [step, made]
    refine advances_onRefs ?_ h
    intro changed hdone
    refine ⟨beside_commitToBranch hdone, fun _ => ?_⟩
    obtain ⟨hname, rfl | ⟨tip, t, -, -, rfl⟩⟩ := commitToBranch_eq_ok hdone
    · rfl
    · exact lookup_main_insert_branch hname _
  | updateBranch written name stamp =>
    simp only [step, made]
    refine advances_onRefs ?_ h
    intro changed hdone
    refine ⟨beside_updateBranch hdone, fun _ => ?_⟩
    obtain ⟨hname, theirs, ours, -, -, rfl | ⟨t, -, rfl⟩⟩ := updateBranch_eq_ok hdone
    · exact lookup_main_insert_branch hname _
    · exact lookup_main_insert_branch hname _
  | mergeBranch written first second name squash stamp =>
    simp only [step, made]
    refine advances_merge ?_ h hlands hfits
    exact fun moved hdone => moves_mergeBranch hdone
  | mergeResolved written first second branch listJson squash stamp =>
    simp only [step, made]
    refine advances_merge ?_ h hlands hfits
    exact fun moved hdone => moves_mergeResolved hdone
  | createTag written name version =>
    simp only [step, made]
    refine advances_onRefs ?_ h
    intro changed hdone
    refine ⟨beside_createTag hdone, fun _ => ?_⟩
    obtain ⟨-, t, -, rfl⟩ := createTag_eq_ok hdone
    exact AList.lookup_insert_ne (tagRef_ne_mainRef name).symm

end Landing

section Ledger

variable {ι : Type} (core : Core) (lib : GitLibrary) (calls : ι → Call)

def callSections (a : ι) (place : Place) : Option (List Move) := sections core lib (calls a) place

theorem advance_called (a : ι) (st : State) :
    Lock.advance (callSections core lib calls) a () st .called =
      (ensureRepo core (calls a).ensure st, .ensured) := rfl

theorem advance_ensured (a : ι) (st : State) :
    Lock.advance (callSections core lib calls) a () st .ensured =
      (step core lib (calls a).op st, .returned (made core lib (calls a).op st)) :=
  whole_workMoves core lib (calls a).op st .ensured

/-- The versions that calls have reported, in their order, and what holds of them whatever fails. -/
structure Ledger (sys : Interleave.System ι State Place) (hist : List (ι × Made)) : Prop where
  returned : ∀ a v, sys.places a = .returned (some v) ↔ (a, v) ∈ hist
  ascending : hist.Pairwise fun x y => x.2.version < y.2.version
  upTo : ∀ x ∈ hist, ∃ s, sys.shared.list = some s ∧ x.2.version ≤ s.currentVersion
  expected : ∀ x ∈ hist, ∀ f edit e, (calls x.1).op = .web f edit →
    edit.expectedVersion = some e → x.2.version = e + 1

/-- The reported versions of a list that was healthy, with its last commit before them. -/
structure Lined (last : Option Commit) (first : Int) (sys : Interleave.System ι State Place)
    (hist : List (ι × Made)) : Prop where
  numbers : ∀ i (h : i < hist.length), hist[i].2.version = first + 1 + i
  chain : (last.toList ++ hist.map fun x => x.2.commit).IsChain Follows
  state : ∃ refs s, sys.shared = ⟨.repo refs, some s⟩ ∧ s.currentVersion = first + hist.length ∧
    Healthy core (last.toList ++ hist.map fun x => x.2.commit).getLast? refs s

variable {core lib calls} {sys : Interleave.System ι State Place} {hist : List (ι × Made)} {a : ι}
  {st : State} {place : Place}

theorem Lined.quiet {last : Option Commit} {first : Int} {next : Interleave.System ι State Place}
    {refs' : Refs} {s' : ListState} (h : Lined core last first sys hist)
    (hnext : next.shared = ⟨.repo refs', some s'⟩)
    (hcurrent : s'.currentVersion = first + hist.length)
    (hhealthy : Healthy core (last.toList ++ hist.map fun x => x.2.commit).getLast? refs' s') :
    Lined core last first next hist :=
  ⟨h.numbers, h.chain, refs', s', hnext, hcurrent, hhealthy⟩

theorem Lined.report {last : Option Commit} {first : Int} {next : Interleave.System ι State Place}
    {refs' : Refs} {s' : ListState} {c : Commit} (h : Lined core last first sys hist)
    (hnext : next.shared = ⟨.repo refs', some s'⟩)
    (hcurrent : s'.currentVersion = first + hist.length + 1)
    (hhealthy : Healthy core (some c) refs' s')
    (hfollows : ∀ old ∈ (last.toList ++ hist.map fun x => x.2.commit).getLast?, Follows old c) :
    Lined core last first next (hist ++ [(a, ⟨first + hist.length + 1, c⟩)]) := by
  have hcommits : last.toList ++ (hist ++ [(a, (⟨first + hist.length + 1, c⟩ : Made))]).map
      (fun x => x.2.commit) = (last.toList ++ hist.map fun x => x.2.commit) ++ [c] := by simp
  refine ⟨?_, ?_, refs', s', hnext, ?_, ?_⟩
  · intro i hi
    rw [List.length_append, List.length_singleton] at hi
    by_cases hlt : i < hist.length
    · rw [List.getElem_append_left hlt]
      exact h.numbers i hlt
    · obtain rfl : i = hist.length := by omega
      rw [List.getElem_append_right (Nat.le_refl _)]
      simp
      omega
  · rw [hcommits, List.isChain_append]
    refine ⟨h.chain, List.isChain_singleton c, fun old hold new hnew => ?_⟩
    obtain rfl := Option.some.inj hnew
    exact hfollows old hold
  · rw [hcurrent, List.length_append, List.length_singleton]
    omega
  · rw [hcommits, List.getLast?_concat]
    exact hhealthy

variable [DecidableEq ι]

theorem Ledger.quiet (h : Ledger calls sys hist) (hlater : Later sys.shared st)
    (hbefore : ∀ v, sys.places a ≠ .returned (some v)) (hafter : ∀ v, place ≠ .returned (some v)) :
    Ledger calls ⟨st, Function.update sys.places a place⟩ hist where
  returned := by
    intro b v
    by_cases hb : b = a
    · subst hb
      rw [← h.returned b v]
      simp [hbefore v, hafter v]
    · rw [← h.returned b v]
      simp [hb]
  ascending := h.ascending
  upTo := by
    intro x hx
    obtain ⟨s, hs, hle⟩ := h.upTo x hx
    obtain ⟨s', hs', hle'⟩ := hlater s hs
    exact ⟨s', hs', hle.trans hle'⟩
  expected := h.expected

theorem Ledger.report {v : Made} (h : Ledger calls sys hist) (hnumber : Numbered sys.shared st v)
    (hlater : Later sys.shared st) (hbefore : ∀ v, sys.places a ≠ .returned (some v))
    (hexpected : ∀ f edit e, (calls a).op = .web f edit → edit.expectedVersion = some e →
      v.version = e + 1) :
    Ledger calls ⟨st, Function.update sys.places a (.returned (some v))⟩ (hist ++ [(a, v)]) := by
  obtain ⟨s, s', hs, hs', hlast, hnew⟩ := hnumber.lists
  refine ⟨?_, ?_, ?_, ?_⟩
  · intro b w
    rw [List.mem_append, List.mem_singleton, ← h.returned b w]
    by_cases hb : b = a
    · subst hb
      simp [hbefore w, eq_comm]
    · simp [hb]
  · rw [List.pairwise_append]
    refine ⟨h.ascending, List.pairwise_singleton _ _, fun x hx y hy => ?_⟩
    rw [List.mem_singleton.mp hy]
    obtain ⟨t, ht, hle⟩ := h.upTo x hx
    obtain rfl := Option.some.inj (hs.symm.trans ht)
    exact lt_of_le_of_lt hle hnew
  · intro x hx
    rcases List.mem_append.mp hx with hx | hx
    · obtain ⟨t, ht, hle⟩ := h.upTo x hx
      obtain ⟨t', ht', hle'⟩ := hlater t ht
      exact ⟨t', ht', hle.trans hle'⟩
    · rw [List.mem_singleton.mp hx]
      exact ⟨s', hs', hlast.ge⟩
  · intro x hx
    rcases List.mem_append.mp hx with hx | hx
    · exact h.expected x hx
    · rw [List.mem_singleton.mp hx]
      exact hexpected

theorem ledger_act {last : Option Commit} {first : Int} (a : ι) (h : Ledger calls sys hist) :
    ∃ hist', hist'.length ≤ hist.length + 1 ∧
      Ledger calls (Interleave.act (Lock.advance (callSections core lib calls)) (a, ()) sys) hist' ∧
      (Lined core last first sys hist → Lands (calls a).op →
        first + hist.length + 1 ≤ 2147483647 →
        Lined core last first
          (Interleave.act (Lock.advance (callSections core lib calls)) (a, ()) sys) hist') := by
  have hact : Interleave.act (Lock.advance (callSections core lib calls)) (a, ()) sys =
      ⟨(Lock.advance (callSections core lib calls) a () sys.shared (sys.places a)).1,
        Function.update sys.places a
          (Lock.advance (callSections core lib calls) a () sys.shared (sys.places a)).2⟩ := rfl
  have hidle : Lock.advance (callSections core lib calls) a () sys.shared (sys.places a) =
      (sys.shared, sys.places a) →
      Interleave.act (Lock.advance (callSections core lib calls)) (a, ()) sys = sys := by
    intro hnothing
    rw [hact, hnothing, Function.update_eq_self]
  cases hplace : sys.places a with
  | called =>
    rw [hact, hplace, advance_called]
    refine ⟨hist, Nat.le_succ _, ?_, fun hlined _ _ => ?_⟩
    · exact h.quiet (later_ensureRepo _ _) (fun v hv => by rw [hplace] at hv; cases hv)
        (fun v hv => nomatch hv)
    · obtain ⟨refs, s, hshared, hcurrent, hhealthy⟩ := hlined.state
      refine hlined.quiet ?_ hcurrent hhealthy
      rw [hshared]
      exact ensureRepo_of_healthy _ hhealthy
  | ensured =>
    rw [hact, hplace, advance_ensured]
    have hbefore : ∀ v, sys.places a ≠ .returned (some v) := by
      intro v hv
      rw [hplace] at hv
      cases hv
    obtain ⟨hlater, hnumber⟩ := step_number (calls a).op sys.shared
    cases hmade : made core lib (calls a).op sys.shared with
    | none =>
      refine ⟨hist, Nat.le_succ _, h.quiet hlater hbefore (fun v hv => nomatch hv), ?_⟩
      intro hlined hlands hfits
      obtain ⟨refs, s, hshared, hcurrent, hhealthy⟩ := hlined.state
      have hadvances := @advances_step core lib _ _ _ (calls a).op hhealthy hlands (by omega)
      rw [← hshared, hmade] at hadvances
      obtain ⟨refs', s', hnext, ⟨-, hsame, hkept⟩ | ⟨c, hreport, -⟩⟩ := hadvances
      · exact hlined.quiet hnext (hsame.trans hcurrent) hkept
      · cases hreport
    | some v =>
      have hexpected : ∀ f edit e, (calls a).op = .web f edit → edit.expectedVersion = some e →
          v.version = e + 1 := by
        intro f edit e hop he
        rw [hop] at hmade
        exact ((web_number f edit sys.shared).2 v hmade).2 e he
      refine ⟨hist ++ [(a, v)], by simp, h.report (hnumber v hmade) hlater hbefore hexpected, ?_⟩
      intro hlined hlands hfits
      obtain ⟨refs, s, hshared, hcurrent, hhealthy⟩ := hlined.state
      have hadvances := @advances_step core lib _ _ _ (calls a).op hhealthy hlands (by omega)
      rw [← hshared, hmade] at hadvances
      obtain ⟨refs', s', hnext, ⟨hreport, -⟩ | ⟨c, hreport, hone, hkept, hfollows⟩⟩ := hadvances
      · cases hreport
      · obtain rfl := Option.some.inj hreport
        rw [hcurrent] at hone ⊢
        exact hlined.report hnext hone hkept hfollows
  | aligned outcome =>
    rw [hidle (by rw [hplace]; rfl)]
    exact ⟨hist, Nat.le_succ _, h, fun hlined _ _ => hlined⟩
  | moved projects =>
    rw [hidle (by rw [hplace]; rfl)]
    exact ⟨hist, Nat.le_succ _, h, fun hlined _ _ => hlined⟩
  | returned version =>
    rw [hidle (by rw [hplace]; rfl)]
    exact ⟨hist, Nat.le_succ _, h, fun hlined _ _ => hlined⟩

/-- All calls before anything has happened. -/
def waiting (st : State) : Interleave.System ι State Place := ⟨st, fun _ => .called⟩

theorem ledger_serial (core : Core) (lib : GitLibrary) (calls : ι → Call) (order : List ι)
    (start : State) (last : Option Commit) (first : Int) : ∃ hist, hist.length ≤ order.length ∧
    Ledger calls (Lock.serial (callSections core lib calls) order (waiting start)) hist ∧
    (Lined core last first (waiting start) ([] : List (ι × Made)) → (∀ a, Lands (calls a).op) →
      first + order.length ≤ 2147483647 →
      Lined core last first (Lock.serial (callSections core lib calls) order (waiting start)) hist) := by
  induction order using List.reverseRecOn with
  | nil =>
    refine ⟨[], Nat.le_refl 0, ⟨?_, List.Pairwise.nil, nofun, nofun⟩, fun h _ _ => h⟩
    intro a v
    constructor
    · intro h
      cases h
    · intro h
      cases h
  | append_singleton order a ih =>
    obtain ⟨hist, hlength, hledger, hlined⟩ := ih
    obtain ⟨hist', hlength', hledger', hlined'⟩ :=
      ledger_act a hledger
    rw [Lock.serial_append]
    refine ⟨hist', ?_, hledger', fun hstart hlands hfits => ?_⟩
    · rw [List.length_append, List.length_singleton]
      omega
    · rw [List.length_append, List.length_singleton] at hfits
      exact hlined' (hlined hstart hlands (by omega)) (hlands a) (by omega)

/-- Everybody after a schedule of moves under the lock. -/
def after (core : Core) (lib : GitLibrary) (calls : ι → Call) (schedule : List ι) (start : State) :
    Lock.Locked ι State Place :=
  Runs.run (Lock.act (callSections core lib calls)) schedule ⟨waiting start, none⟩

/-- A call has come back with a version. -/
def Returned (sys : Lock.Locked ι State Place) (a : ι) (v : Made) : Prop :=
  sys.system.places a = .returned (some v) ∧ ∀ left, sys.holder ≠ some (a, left)

/-- Any number of calls in any interleaving under the lock, whatever fails in them: a write on
version `e` becomes version `e + 1`, and no two calls report one number. From a healthy list, where
no call breaks off between its move of main and the record of its version, the reported numbers
follow the current version one by one, and each commit has the one before it among its ancestors. -/
theorem writers_follow_one_another (core : Core) (lib : GitLibrary) (calls : ι → Call)
    (schedule : List ι) (start : State) :
    (∀ a v, Returned (after core lib calls schedule start) a v → ∀ f edit e,
      (calls a).op = .web f edit → edit.expectedVersion = some e → v.version = e + 1) ∧
    (∀ a b v w, Returned (after core lib calls schedule start) a v →
      Returned (after core lib calls schedule start) b w → v.version = w.version → a = b) ∧
    ∀ last refs s, start = ⟨.repo refs, some s⟩ → Healthy core last refs s →
      (∀ a, Lands (calls a).op) → s.currentVersion + schedule.length ≤ 2147483647 →
      ∃ hist : List (ι × Made),
        (∀ a v, Returned (after core lib calls schedule start) a v ↔ (a, v) ∈ hist) ∧
        (∀ i (h : i < hist.length), hist[i].2.version = s.currentVersion + 1 + i) ∧
        (last.toList ++ hist.map fun x => x.2.commit).IsChain Follows := by
  obtain ⟨order, hlength, horder⟩ :=
    Lock.exists_order (callSections core lib calls) (waiting start) schedule
  have hplace : ∀ a v, Returned (after core lib calls schedule start) a v ↔
      (Lock.serial (callSections core lib calls) order (waiting start)).places a =
        .returned (some v) := by
    intro a v
    constructor
    · intro h
      rw [← h.1]
      exact (horder.place h.2).symm
    · intro h
      have hfree : ∀ left, (after core lib calls schedule start).holder ≠ some (a, left) := by
        intro left hholder
        unfold Lock.InOrder at horder
        rw [show (Runs.run (Lock.act (callSections core lib calls)) schedule
          ⟨waiting start, none⟩).holder = _ from hholder] at horder
        obtain ⟨moves, hsection, -⟩ := horder
        rw [h] at hsection
        cases hsection
      exact ⟨(horder.place hfree).trans h, hfree⟩
  refine ⟨?_, ?_, ?_⟩
  · obtain ⟨hist, -, hledger, -⟩ := ledger_serial core lib calls order start none 0
    intro a v hreturned f edit e hop he
    exact hledger.expected (a, v) ((hledger.returned a v).mp ((hplace a v).mp hreturned)) f edit e hop he
  · obtain ⟨hist, -, hledger, -⟩ := ledger_serial core lib calls order start none 0
    intro a b v w hv hw hsame
    have hmemv := (hledger.returned a v).mp ((hplace a v).mp hv)
    have hmemw := (hledger.returned b w).mp ((hplace b w).mp hw)
    obtain ⟨i, hi, hiv⟩ := List.getElem_of_mem hmemv
    obtain ⟨j, hj, hjw⟩ := List.getElem_of_mem hmemw
    have hascending := List.pairwise_iff_getElem.mp hledger.ascending
    rcases Nat.lt_trichotomy i j with hlt | rfl | hlt
    · have hless := hascending i j hi hj hlt
      rw [hiv, hjw] at hless
      exact absurd hsame (ne_of_lt hless)
    · rw [hiv] at hjw
      exact (Prod.mk.inj hjw).1
    · have hless := hascending j i hj hi hlt
      rw [hiv, hjw] at hless
      exact absurd hsame (ne_of_gt hless)
  · intro last refs s hstart hhealthy hlands hfits
    obtain ⟨hist, -, hledger, hlined⟩ :=
      ledger_serial core lib calls order start last s.currentVersion
    have hfirst : Lined core last s.currentVersion (waiting start) ([] : List (ι × Made)) := by
      refine ⟨nofun, ?_, refs, s, hstart, by simp, ?_⟩
      · cases last with
        | none => exact List.isChain_nil
        | some c => exact List.isChain_singleton c
      · cases last with
        | none => exact hhealthy
        | some c => exact hhealthy
    have hline := hlined hfirst hlands (by omega)
    exact ⟨hist, fun a v => (hplace a v).trans (hledger.returned a v), hline.numbers, hline.chain⟩

end Ledger

theorem markedRefs_healthy : Healthy canonCore (some firstCommit) markedRefs markedList := by
  have hagree := markedRefs_agree
  exact ⟨hagree.born, hagree.rows, hagree.highest, AList.lookup_insert _,
    firstCommit, markedRefs_main, .refl, Or.inl rfl⟩

section Alone

variable {ι : Type} [DecidableEq ι] {core : Core} {lib : GitLibrary} {calls : ι → Call}
  {sys : Interleave.System ι State Place} {a : ι}

theorem run_ensure (h : sys.places a = .called) :
    Runs.run (Lock.act (callSections core lib calls)) (List.replicate 3 a) ⟨sys, none⟩ =
      ⟨⟨ensureRepo core (calls a).ensure sys.shared, Function.update sys.places a .ensured⟩, none⟩ := by
  have hsection : callSections core lib calls a (sys.places a) =
      some [ensureMove core (calls a).ensure] := by rw [h]; rfl
  rw [show 3 = [ensureMove core (calls a).ensure].length + 2 from rfl, Lock.run_section hsection,
    Interleave.act, h, advance_called]

theorem run_web {f : WebFaults} {edit : WebEdit} (h : sys.places a = .ensured)
    (hop : (calls a).op = .web f edit) :
    Runs.run (Lock.act (callSections core lib calls)) (List.replicate 4 a) ⟨sys, none⟩ =
      ⟨⟨step core lib (.web f edit) sys.shared, Function.update sys.places a
        (.returned (made core lib (.web f edit) sys.shared))⟩, none⟩ := by
  have hsection : callSections core lib calls a (sys.places a) =
      some [alignMove core f.sync, writeMove core f edit] := by
    rw [h, callSections, sections, hop]
    rfl
  rw [show 4 = [alignMove core f.sync, writeMove core f edit].length + 2 from rfl,
    Lock.run_section hsection, Interleave.act, h, advance_ensured, hop]

theorem web_made {f : WebFaults} {edit : WebEdit} {refs refs' : Refs} {s s' : ListState} {n : Int}
    {tip : Commit} (hmain : refs'.lookup mainRef = some (.commit tip))
    (h : commitWebVersion core f (.repo refs) (some s) edit = ⟨.repo refs', some s', .ok n⟩) :
    step core lib (.web f edit) ⟨.repo refs, some s⟩ = ⟨.repo refs', some s'⟩ ∧
      made core lib (.web f edit) ⟨.repo refs, some s⟩ = some ⟨n, tip⟩ := by
  have hstep : step core lib (.web f edit) ⟨.repo refs, some s⟩ = ⟨.repo refs', some s'⟩ := by
    simp only [step, h]
  refine ⟨hstep, ?_⟩
  simp only [made, hstep, h]
  exact @madeAt_repo refs' n tip (some s') hmain

end Alone

def editOf (second : Bool) : WebEdit :=
  { markEdit second with expectedVersion := some (if second then 2 else 1) }

/-- Two calls that save the list: one on its first version, one on the second. -/
def editors (second : Bool) : Call := ⟨steady 0, .web plainWrite (editOf second)⟩

def overlapping : List Bool :=
  List.replicate 3 false ++ List.replicate 3 true ++ List.replicate 4 false ++ List.replicate 4 true

private theorem overlapping_returned : ∃ v w,
    Returned (after canonCore plainLibrary editors overlapping
      ⟨.repo markedRefs, some markedList⟩) false v ∧
    Returned (after canonCore plainLibrary editors overlapping
      ⟨.repo markedRefs, some markedList⟩) true w := by
  have hnames : CarriedTree.NamesFree canonCore.reserved := fun _ _ _ _ => rfl
  have hensure : ensureRepo canonCore (steady 0) ⟨.repo markedRefs, some markedList⟩ = _ :=
    ensureRepo_of_healthy _ markedRefs_healthy
  obtain ⟨c, -, hfirst, hready⟩ := @Healing.Ready.written _ hnames _ _ _ markedRefs_ready (by decide)
    (editOf false) rfl fun e he => (Option.some.inj he).symm
  obtain ⟨d, -, hsecond, hlast⟩ := @Healing.Ready.written _ hnames _ _ _ hready (by decide)
    (editOf true) rfl fun e he => (Option.some.inj he).symm
  obtain ⟨hstep, hreport⟩ := @web_made _ plainLibrary _ _ _ _ _ _ _ _ hready.main hfirst
  obtain ⟨-, hreport'⟩ := @web_made _ plainLibrary _ _ _ _ _ _ _ _ hlast.main hsecond
  have hend : ∃ st, after canonCore plainLibrary editors overlapping
      ⟨.repo markedRefs, some markedList⟩ = ⟨⟨st, Function.update (Function.update (Function.update
        (Function.update (fun _ => .called) false .ensured) true .ensured) false
          (.returned (some ⟨2, c⟩))) true (.returned (some ⟨3, d⟩))⟩, none⟩ := by
    rw [after, overlapping, Runs.run_append, Runs.run_append, Runs.run_append, run_ensure rfl]
    dsimp only [waiting, editors]
    rw [hensure, run_ensure rfl]
    dsimp only [editors]
    rw [hensure, run_web rfl rfl, hstep, hreport, run_web rfl rfl, hreport']
    exact ⟨_, rfl⟩
  obtain ⟨st, hend⟩ := hend
  rw [hend]
  exact ⟨_, _, ⟨rfl, nofun⟩, rfl, nofun⟩

/-- Two editors whose calls overlap: both come back, with the second and the third version. -/
theorem editors_follow_one_another : ∃ v w,
    Returned (after canonCore plainLibrary editors overlapping
      ⟨.repo markedRefs, some markedList⟩) false v ∧ v.version = 2 ∧
    Returned (after canonCore plainLibrary editors overlapping
      ⟨.repo markedRefs, some markedList⟩) true w ∧ w.version = 3 ∧
    ∃ hist : List (Bool × Made), (false, v) ∈ hist ∧ (true, w) ∈ hist ∧
      (∀ i (h : i < hist.length), hist[i].2.version = markedList.currentVersion + 1 + i) ∧
      ((some firstCommit).toList ++ hist.map fun x => x.2.commit).IsChain Follows := by
  obtain ⟨v, w, hv, hw⟩ := overlapping_returned
  obtain ⟨hexpected, -, hline⟩ := writers_follow_one_another canonCore plainLibrary editors
    overlapping ⟨.repo markedRefs, some markedList⟩
  have hlands : ∀ a, Lands (editors a).op := fun a => ⟨fun _ => rfl, rfl⟩
  obtain ⟨hist, hreturned, hnumbers, hchain⟩ := hline _ _ _ rfl markedRefs_healthy hlands (by decide)
  refine ⟨v, w, hv, hexpected false v hv _ _ 1 rfl rfl, hw, hexpected true w hw _ _ 2 rfl rfl, hist,
    (hreturned false v).mp hv, (hreturned true w).mp hw, hnumbers, hchain⟩

end Setfork.ConcurrentWriters
