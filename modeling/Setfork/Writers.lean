/- Writers
   digest: The calls that write versions, move by move under the lock of their repository, and the
   version each of them reports. -/
import Setfork.Foundation.Lock
import Setfork.TagRuns

set_option autoImplicit false
set_option relaxedAutoImplicit false

namespace Setfork.Writers

open Setfork.Foundation
open Setfork.Rows
open Setfork.Repository
open Setfork.History
open Setfork.Alignment
open Setfork.WebVersion
open Setfork.Push
open Setfork.Branches
open Setfork.Service

/-- A version a call reports, with the tip of main under it. -/
structure Made where
  version : Int
  commit : Commit

/-- A call ensures the repository first, and does its own work after that. -/
structure Call where
  ensure : SyncFaults
  op : Op

/-- How far a call has come: the lock is free between the ensuring and the work; an alignment, or a
move of main, is in the middle of the work. -/
inductive Place where
  | called
  | ensured
  | aligned (outcome : Except SyncError SyncOutcome)
  | moved (projects : Bool)
  | returned (version : Option Made)

abbrev Move := Lock.Move State Place

variable (core : Core) (lib : GitLibrary)

def madeAt (version : Int) (st : State) : Option Made :=
  match st.disk with
  | .repo refs => (refs.commitAt mainRef).map fun c => ⟨version, c⟩
  | _ => none

def projectedAt (version : Int) (st : State) : Option Made :=
  if version = 0 then none else madeAt version st

def writeAligned (f : WebFaults) (edit : WebEdit) (synced : State)
    (outcome : Except SyncError SyncOutcome) : WebWrite :=
  match outcome with
  | .ok (.conflict highest current) =>
    ⟨synced.disk, synced.list, .error (.outOfSync highest current)⟩
  | .error .rowNotFound => ⟨synced.disk, synced.list, .error .notFound⟩
  | .error _ => ⟨synced.disk, synced.list, .error .database⟩
  | .ok _ =>
    if !f.readRow then ⟨synced.disk, synced.list, .error .database⟩
    else
      match synced.list, synced.disk with
      | none, _ => ⟨synced.disk, none, .error .notFound⟩
      | some s, .repo refs => writeVersion core f refs s edit
      | some s, _ => ⟨synced.disk, some s, .error (.git gitError)⟩

theorem commitWebVersion_eq (f : WebFaults) (edit : WebEdit) (st : State) :
    commitWebVersion core f st.disk st.list edit =
      writeAligned core f edit ⟨(syncRepoWithDb core f.sync st.disk st.list).disk,
        (syncRepoWithDb core f.sync st.disk st.list).list⟩
        (syncRepoWithDb core f.sync st.disk st.list).outcome := rfl

/-- Where the alignment finds nothing to do, a web version is refused as it stands, or written. -/
theorem commitWebVersion_synced (f : WebFaults) (edit : WebEdit) {refs : Refs} {s : ListState}
    (hdisk : (syncRepoWithDb core f.sync (.repo refs) (some s)).disk = .repo refs)
    (hlist : (syncRepoWithDb core f.sync (.repo refs) (some s)).list = some s) :
    (∃ e, commitWebVersion core f (.repo refs) (some s) edit =
      ⟨.repo refs, some s, .error e⟩) ∨
    commitWebVersion core f (.repo refs) (some s) edit = writeVersion core f refs s edit := by
  rw [show commitWebVersion core f (.repo refs) (some s) edit = _ from
    commitWebVersion_eq core f edit ⟨.repo refs, some s⟩, hdisk, hlist]
  unfold writeAligned
  split
  · exact Or.inl ⟨_, rfl⟩
  · exact Or.inl ⟨_, rfl⟩
  · exact Or.inl ⟨_, rfl⟩
  · split_ifs
    · exact Or.inl ⟨_, rfl⟩
    · exact Or.inr rfl

def ensureMove (f : SyncFaults) : Move := fun st _ => (ensureRepo core f st, .ensured)

def alignMove (f : SyncFaults) : Move := fun st _ =>
  let synced := syncRepoWithDb core f st.disk st.list
  (⟨synced.disk, synced.list⟩, .aligned synced.outcome)

def writeMove (f : WebFaults) (edit : WebEdit) : Move := fun st place =>
  match place with
  | .aligned outcome =>
    let write := writeAligned core f edit st outcome
    let next : State := ⟨write.disk, write.list⟩
    (next, .returned (write.outcome.toOption.bind fun n => madeAt n next))
  | other => (st, other)

/-- The pack is taken in, and the magic references; whether main has moved decides what follows. -/
def receiveMove (f : PushFaults) (env : HookEnv) (commands : List RefCommand) : Move := fun st _ =>
  match st.disk with
  | .repo refs =>
    let after := received lib f.applied env refs commands
    if !f.answered then (⟨.repo after, st.list⟩, .moved false)
    else
      let taken := takeMagicPushes f.magic env.actor refs after
      (⟨.repo taken.1, st.list⟩, .moved (taken.2.2 &&
        decide ((after.lookup mainRef).isSome ∧ after.lookup mainRef ≠ refs.lookup mainRef)))
  | _ => (st, .moved false)

def mergeMove (merged : Refs → Except BranchRefusal Refs) : Move := fun st _ =>
  match st.disk with
  | .repo refs =>
    match merged refs with
    | .error _ => (st, .moved false)
    | .ok changed => (⟨.repo changed, st.list⟩, .moved true)
  | _ => (st, .moved false)

def projectMove (first second : ProjectionFaults) : Move := fun st place =>
  match place, st.disk, st.list with
  | .moved true, .repo refs, some s =>
    let projected := projectMainOrLog core first second refs s
    let next : State := ⟨.repo projected.1, some projected.2.1⟩
    (next, .returned (projectedAt projected.2.2 next))
  | _, _, _ => (st, .returned none)

def workMoves : Op → List Move
  | .web f edit => [alignMove core f.sync, writeMove core f edit]
  | .push f env commands => [receiveMove lib f env commands, projectMove core f.first f.second]
  | .mergeBranch written first second name squash stamp =>
    [mergeMove fun refs => mergeBranch lib written refs name squash stamp,
      projectMove core first second]
  | .mergeResolved written first second branch listJson squash stamp =>
    [mergeMove fun refs => mergeResolved core.reserved core.parser.fromSlice written refs branch
      listJson squash stamp, projectMove core first second]
  | op => [fun st _ => (step core lib op st, .returned none)]

/-- The next critical section of a call. -/
def sections (call : Call) : Place → Option (List Move)
  | .called => some [ensureMove core call.ensure]
  | .ensured => some (workMoves core lib call.op)
  | _ => none

def made (op : Op) (st : State) : Option Made :=
  match op with
  | .web f edit =>
    (commitWebVersion core f st.disk st.list edit).outcome.toOption.bind fun n =>
      madeAt n (step core lib op st)
  | .push f env commands =>
    match st.disk with
    | .repo refs =>
      projectedAt (receivePack core lib f env commands refs st.list).newVersion (step core lib op st)
    | _ => none
  | .mergeBranch written first second name squash stamp =>
    mergeMade (fun refs => mergeBranch lib written refs name squash stamp) first second
      (step core lib op st)
  | .mergeResolved written first second branch listJson squash stamp =>
    mergeMade (fun refs => mergeResolved core.reserved core.parser.fromSlice written refs branch
      listJson squash stamp) first second (step core lib op st)
  | _ => none
where
  /-- The version a merge reports. -/
  mergeMade (merged : Refs → Except BranchRefusal Refs) (first second : ProjectionFaults)
      (next : State) : Option Made :=
    match st.disk, st.list with
    | .repo refs, some s =>
      match merged refs with
      | .error _ => none
      | .ok moved => projectedAt (projectMainOrLog core first second moved s).2.2 next
    | _, _ => none

theorem whole_merge (merged : Refs → Except BranchRefusal Refs) (first second : ProjectionFaults)
    (st : State) (place : Place) :
    Lock.whole [mergeMove merged, projectMove core first second] st place =
      (afterMerge core first second merged st,
        .returned (made.mergeMade core st merged first second
          (afterMerge core first second merged st))) := by
  obtain ⟨disk, list⟩ := st
  cases disk with
  | absent => rfl
  | unreadable => rfl
  | repo refs =>
    cases hmerged : merged refs with
    | error e =>
      cases list with
      | none => simp [Lock.whole, mergeMove, projectMove, afterMerge, made.mergeMade, hmerged]
      | some s => simp [Lock.whole, mergeMove, projectMove, afterMerge, made.mergeMade, hmerged]
    | ok moved =>
      cases list with
      | none => simp [Lock.whole, mergeMove, projectMove, afterMerge, made.mergeMade, hmerged]
      | some s => simp [Lock.whole, mergeMove, projectMove, afterMerge, made.mergeMade, hmerged]

theorem whole_push (f : PushFaults) (env : HookEnv) (commands : List RefCommand) (st : State)
    (place : Place) :
    Lock.whole [receiveMove lib f env commands, projectMove core f.first f.second] st place =
      (step core lib (.push f env commands) st,
        .returned (made core lib (.push f env commands) st)) := by
  obtain ⟨disk, list⟩ := st
  cases disk with
  | absent => rfl
  | unreadable => rfl
  | repo refs =>
    simp only [Lock.whole, List.foldl_cons, List.foldl_nil, receiveMove, step, made, receivePack]
    split_ifs with hanswered htaken hmoved
    · simp [projectMove, projectedAt]
    · have hall : (takeMagicPushes f.magic env.actor refs
          (received lib f.applied env refs commands)).2.2 = false := by simpa using htaken
      simp [projectMove, projectedAt, hall]
    · have hall : (takeMagicPushes f.magic env.actor refs
          (received lib f.applied env refs commands)).2.2 = true := by simpa using htaken
      rw [hall, Bool.true_and, decide_eq_true hmoved]
      cases list with
      | none => simp [projectMove, projectedAt]
      | some s => rfl
    · have hall : (takeMagicPushes f.magic env.actor refs
          (received lib f.applied env refs commands)).2.2 = true := by simpa using htaken
      rw [hall, Bool.true_and, decide_eq_false hmoved]
      simp [projectMove, projectedAt]

theorem whole_workMoves (op : Op) (st : State) (place : Place) :
    Lock.whole (workMoves core lib op) st place =
      (step core lib op st, .returned (made core lib op st)) := by
  cases op with
  | web f edit => rfl
  | push f env commands => exact whole_push core lib f env commands st place
  | mergeBranch written first second name squash stamp =>
    exact whole_merge core _ first second st place
  | mergeResolved written first second branch listJson squash stamp =>
    exact whole_merge core _ first second st place
  | _ => rfl

variable {core lib}

def Later (before after : State) : Prop :=
  ∀ s, before.list = some s → ∃ s', after.list = some s' ∧ s.currentVersion ≤ s'.currentVersion

def SameOrNext (s s' : ListState) : Prop := s' = s ∨ NextVersion s s'

theorem SameOrNext.le {s s' : ListState} (h : SameOrNext s s') :
    s.currentVersion ≤ s'.currentVersion := by
  rcases h with rfl | hnext
  · exact Int.le_refl _
  · have hlast := hnext.1
    omega

theorem sameOrNext_project (f : ProjectionFaults) (refs : Refs) (s : ListState) :
    SameOrNext s (projectPushedCommit core f refs s).list := by
  rcases (projectPushedCommit_cases core f refs s _ rfl).2 with ⟨-, hlist, -⟩ | ⟨hnext, -⟩ | ⟨hnext, -⟩
  · exact Or.inl hlist
  · exact Or.inr hnext
  · exact Or.inr hnext

theorem sameOrNext_align (f : SyncFaults) (refs : Refs) (s : ListState) (highest : Nat) :
    SameOrNext s (alignByCounters core f refs s highest).list := by
  rcases alignByCounters_cases core f refs s highest _ rfl with
    ⟨-, heq | ⟨-, heq⟩⟩ | ⟨-, heq⟩ | ⟨-, heq | ⟨-, -, heq⟩⟩
  · exact Or.inl (by rw [heq])
  · rw [heq]
    exact sameOrNext_project f.projection refs s
  · rw [heq]
    exact Or.inl (catchUp_cases core f refs s highest _ rfl).1
  · exact Or.inl (by rw [heq])
  · rw [heq]
    exact sameOrNext_project f.projection refs s

theorem sameOrNext_heal (f : SyncFaults) (refs : Refs) (s : ListState) (highest : Nat) :
    SameOrNext s (healMain core f refs s highest).list := by
  rcases healMain_cases core f refs s highest _ rfl _ rfl with ⟨e, -, -, heq⟩ | ⟨c, -, -, -, -, heq⟩ | ⟨-, heq⟩
  · exact Or.inl (by rw [heq])
  · rw [heq]
    exact sameOrNext_align f _ s highest
  · rw [heq]
    split_ifs
    · rcases bootstrapOr_cases core f refs s _ _ rfl with ⟨hsame, -⟩ | ⟨hother, -⟩ | ⟨-, hlist, -⟩
      · exact Or.inl (by rw [hsame])
      · rw [hother]
        exact sameOrNext_align f refs s highest
      · exact Or.inl hlist
    · exact sameOrNext_align f refs s highest

theorem sameOrNext_sync (f : SyncFaults) (disk : Disk) (s : ListState) :
    ∃ s', (syncRepoWithDb core f disk (some s)).list = some s' ∧ SameOrNext s s' := by
  unfold syncRepoWithDb
  split_ifs
  · exact ⟨s, rfl, Or.inl rfl⟩
  · cases disk with
    | absent =>
      dsimp only
      split
      · exact ⟨s, rfl, Or.inl rfl⟩
      · exact ⟨s, rfl, Or.inl rfl⟩
      · exact ⟨s, rfl, Or.inl rfl⟩
    | unreadable => exact ⟨s, rfl, Or.inl rfl⟩
    | repo refs =>
      dsimp only
      split_ifs
      · exact ⟨_, rfl, sameOrNext_align f refs s _⟩
      · exact ⟨_, rfl, sameOrNext_heal f refs s _⟩

theorem later_sync (f : SyncFaults) (st : State) :
    Later st ⟨(syncRepoWithDb core f st.disk st.list).disk,
      (syncRepoWithDb core f st.disk st.list).list⟩ := by
  intro s hs
  obtain ⟨s', hs', hnext⟩ := sameOrNext_sync f st.disk s
  rw [hs]
  exact ⟨s', hs', hnext.le⟩

theorem later_ensureRepo (f : SyncFaults) (st : State) : Later st (ensureRepo core f st) := by
  have hsync := @later_sync core f st
  obtain ⟨disk, list⟩ := st
  cases disk with
  | unreadable => exact hsync
  | repo refs => exact hsync
  | absent =>
    intro s hs
    cases list with
    | none => cases hs
    | some s' =>
      unfold ensureRepo
      dsimp only
      split_ifs
      · exact ⟨s, hs, Int.le_refl _⟩
      · exact ⟨s, hs, Int.le_refl _⟩
      · exact ⟨s, hs, Int.le_refl _⟩

theorem projectMainOrLog_number (first second : ProjectionFaults) (refs : Refs) (s : ListState) :
    s.currentVersion ≤ (projectMainOrLog core first second refs s).2.1.currentVersion ∧
    ((projectMainOrLog core first second refs s).2.2 ≠ 0 →
      (projectMainOrLog core first second refs s).2.1.currentVersion =
        (projectMainOrLog core first second refs s).2.2 ∧
      s.currentVersion < (projectMainOrLog core first second refs s).2.2) := by
  have hone : ∀ (f : ProjectionFaults) (r : Refs) (l : ListState) n,
      (projectPushedCommit core f r l).outcome = .ok (some n) →
        (projectPushedCommit core f r l).list.currentVersion = n ∧ l.currentVersion < n := by
    intro f r l n hn
    rcases (projectPushedCommit_cases core f r l _ rfl).2 with
      ⟨-, -, hout | hout⟩ | ⟨-, -, hout⟩ | ⟨hnext, hout, -⟩
    · rw [hout] at hn
      cases hn
    · rw [hout] at hn
      cases hn
    · rw [hout] at hn
      cases hn
    · rw [hout] at hn
      obtain rfl := Option.some.inj (Except.ok.inj hn)
      exact ⟨hnext.1, by omega⟩
  have hfirst := (@sameOrNext_project core first refs s).le
  unfold projectMainOrLog
  dsimp only
  split
  · rename_i version hversion
    refine ⟨hfirst, fun hne => ?_⟩
    cases version with
    | none => exact absurd rfl hne
    | some n => exact hone first refs s n hversion
  · have hagain := (@sameOrNext_project core second
      (projectPushedCommit core first refs s).refs (projectPushedCommit core first refs s).list).le
    split
    · rename_i version hversion
      refine ⟨hfirst.trans hagain, fun hne => ?_⟩
      cases version with
      | none => exact absurd rfl hne
      | some n =>
        obtain ⟨heq, hlt⟩ := hone second _ _ n hversion
        exact ⟨heq, lt_of_le_of_lt hfirst hlt⟩
    · exact ⟨hfirst.trans hagain, fun hne => absurd rfl hne⟩

theorem writeVersion_number (f : WebFaults) (refs : Refs) (s : ListState) (edit : WebEdit) :
    ∃ s', (writeVersion core f refs s edit).list = some s' ∧ s.currentVersion ≤ s'.currentVersion ∧
      ∀ n, (writeVersion core f refs s edit).outcome = .ok n →
        s'.currentVersion = n ∧ s.currentVersion < n ∧ ∀ e, edit.expectedVersion = some e → n = e + 1 := by
  rcases writeVersion_cases core f refs s edit with ⟨⟨e, he⟩, -⟩ | ⟨parent, c, haccept, -, -, hwrite⟩
  · rw [he]
    exact ⟨s, rfl, Int.le_refl _, fun n hn => nomatch hn⟩
  · rcases hwrite with ⟨-, -, hlist, hout⟩ | ⟨-, -, hlist, hout⟩
    · rw [hlist, hout]
      exact ⟨s, rfl, Int.le_refl _, fun n hn => nomatch hn⟩
    · rw [hlist, hout]
      refine ⟨_, rfl, ?_, fun n hn => ?_⟩
      · split_ifs
        · exact Int.le_refl _
        · show s.currentVersion ≤ s.currentVersion + 1
          omega
      · split_ifs at hn with htail
        obtain rfl := Except.ok.inj hn
        have hkept : f.tail ≠ .failed := by
          rw [htail]
          nofun
        rw [if_neg hkept]
        refine ⟨rfl, by omega, fun e he => ?_⟩
        rw [haccept.expected e he]

theorem commitWebVersion_number (f : WebFaults) (disk : Disk) (s : ListState) (edit : WebEdit) :
    ∃ s', (commitWebVersion core f disk (some s) edit).list = some s' ∧
      s.currentVersion ≤ s'.currentVersion ∧
      ∀ n, (commitWebVersion core f disk (some s) edit).outcome = .ok n →
        s'.currentVersion = n ∧ s.currentVersion < n ∧ ∀ e, edit.expectedVersion = some e → n = e + 1 := by
  obtain ⟨s', hs', hnext⟩ := sameOrNext_sync f.sync disk s
  have hstop : ∀ e : WebVersionError, ∃ s'', (syncRepoWithDb core f.sync disk (some s)).list = some s'' ∧
      s.currentVersion ≤ s''.currentVersion ∧
      ∀ n, (Except.error e : Except WebVersionError Int) = .ok n →
        s''.currentVersion = n ∧ s.currentVersion < n ∧ ∀ e, edit.expectedVersion = some e → n = e + 1 :=
    fun e => ⟨s', hs', hnext.le, fun n hn => nomatch hn⟩
  unfold commitWebVersion
  dsimp only
  generalize hsynced : syncRepoWithDb core f.sync disk (some s) = synced at hs' hstop
  split
  · exact hstop _
  · exact hstop _
  · exact hstop _
  · split_ifs
    · exact ⟨s', hs', hnext.le, fun n hn => hn.elim⟩
    · split
      · rename_i hnone
        rw [hnone] at hs'
        cases hs'
      · rename_i l refs hl _
        obtain rfl := Option.some.inj (hl.symm.trans hs')
        obtain ⟨last, hlast, hle, hnumber⟩ := writeVersion_number f refs l edit
        refine ⟨last, hlast, hnext.le.trans hle, fun n hn => ?_⟩
        obtain ⟨heq, hlt, hexpected⟩ := hnumber n hn
        exact ⟨heq, lt_of_le_of_lt hnext.le hlt, hexpected⟩
      · rename_i l hl _
        exact ⟨l, rfl, by rw [Option.some.inj (hl.symm.trans hs')]; exact hnext.le, fun n hn => nomatch hn⟩

structure Numbered (before after : State) (v : Made) : Prop where
  lists : ∃ s s', before.list = some s ∧ after.list = some s' ∧ s'.currentVersion = v.version ∧
    s.currentVersion < v.version

theorem version_of_madeAt {n : Int} {st : State} {v : Made} (h : madeAt n st = some v) :
    v.version = n := by
  unfold madeAt at h
  split at h
  · obtain ⟨c, -, rfl⟩ := Option.map_eq_some_iff.mp h
    rfl
  · cases h

theorem version_of_projectedAt {n : Int} {st : State} {v : Made} (h : projectedAt n st = some v) :
    n ≠ 0 ∧ v.version = n := by
  unfold projectedAt at h
  split_ifs at h with hzero
  exact ⟨hzero, version_of_madeAt h⟩

theorem projected_number (first second : ProjectionFaults) {disk : Disk} (refs : Refs)
    (s : ListState) {out : State}
    (hout : out = ⟨.repo (projectMainOrLog core first second refs s).1,
      some (projectMainOrLog core first second refs s).2.1⟩) :
    Later ⟨disk, some s⟩ out ∧
      ∀ v, projectedAt (projectMainOrLog core first second refs s).2.2 out = some v →
        Numbered ⟨disk, some s⟩ out v := by
  obtain ⟨hle, hnumber⟩ := projectMainOrLog_number first second refs s
  subst hout
  refine ⟨fun s' hs' => ⟨_, rfl, ?_⟩, fun v hv => ?_⟩
  · rw [← Option.some.inj hs']
    exact hle
  · obtain ⟨hne, hversion⟩ := version_of_projectedAt hv
    obtain ⟨heq, hlt⟩ := hnumber hne
    exact ⟨s, _, rfl, rfl, heq.trans hversion.symm, hversion ▸ hlt⟩

theorem later_onRefs (change : Refs → Except BranchRefusal Refs) (st : State) :
    Later st (onRefs change st) := by
  have hlist : (onRefs change st).list = st.list := by
    unfold onRefs
    split
    · split <;> rfl
    · rfl
  intro s hs
  exact ⟨s, hlist.trans hs, Int.le_refl _⟩

theorem merge_number (merged : Refs → Except BranchRefusal Refs) (first second : ProjectionFaults)
    (st : State) : Later st (afterMerge core first second merged st) ∧
      ∀ v, made.mergeMade core st merged first second (afterMerge core first second merged st) =
        some v → Numbered st (afterMerge core first second merged st) v := by
  obtain ⟨disk, list⟩ := st
  have hsame : ∀ after : State, after.list = list → Later ⟨disk, list⟩ after :=
    fun after hlist s hs => ⟨s, hlist.trans hs, Int.le_refl _⟩
  cases disk with
  | absent => exact ⟨hsame _ rfl, fun v hv => by cases hv⟩
  | unreadable => exact ⟨hsame _ rfl, fun v hv => by cases hv⟩
  | repo refs =>
    cases hmerged : merged refs with
    | error e =>
      simp only [afterMerge, hmerged]
      refine ⟨hsame _ rfl, fun v hv => ?_⟩
      cases list with
      | none => cases hv
      | some s =>
        simp only [made.mergeMade, hmerged] at hv
        cases hv
    | ok moved =>
      cases list with
      | none =>
        simp only [afterMerge, made.mergeMade, hmerged]
        exact ⟨hsame _ rfl, fun v hv => by cases hv⟩
      | some s =>
        simp only [afterMerge, made.mergeMade, hmerged]
        exact projected_number first second moved s rfl

theorem push_number (f : PushFaults) (env : HookEnv) (commands : List RefCommand) (st : State) :
    Later st (step core lib (.push f env commands) st) ∧
      ∀ v, made core lib (.push f env commands) st = some v →
        Numbered st (step core lib (.push f env commands) st) v := by
  obtain ⟨disk, list⟩ := st
  have hsame : ∀ after : State, after.list = list → Later ⟨disk, list⟩ after :=
    fun after hlist s hs => ⟨s, hlist.trans hs, Int.le_refl _⟩
  have hzero : ∀ (st : State) v, projectedAt 0 st ≠ some v :=
    fun st v hv => (version_of_projectedAt hv).1 rfl
  cases disk with
  | absent => exact ⟨hsame _ rfl, fun v hv => nomatch hv⟩
  | unreadable => exact ⟨hsame _ rfl, fun v hv => nomatch hv⟩
  | repo refs =>
    simp only [made, step, receivePack]
    split_ifs
    · exact ⟨hsame _ rfl, fun v hv => absurd hv (hzero _ v)⟩
    · exact ⟨hsame _ rfl, fun v hv => absurd hv (hzero _ v)⟩
    · cases list with
      | none => exact ⟨hsame _ rfl, fun v hv => absurd hv (hzero _ v)⟩
      | some s =>
        exact projected_number f.first f.second
          (takeMagicPushes f.magic env.actor refs (received lib f.applied env refs commands)).1 s rfl
    · exact ⟨hsame _ rfl, fun v hv => absurd hv (hzero _ v)⟩

theorem web_number (f : WebFaults) (edit : WebEdit) (st : State) :
    Later st (step core lib (.web f edit) st) ∧ ∀ v, made core lib (.web f edit) st = some v →
      Numbered st (step core lib (.web f edit) st) v ∧
        ∀ e, edit.expectedVersion = some e → v.version = e + 1 := by
  obtain ⟨disk, list⟩ := st
  cases list with
  | none =>
    have hnone : ∀ n, (commitWebVersion core f disk none edit).outcome ≠ .ok n := by
      intro n
      unfold commitWebVersion syncRepoWithDb
      cases f.sync.readCurrent <;> exact nofun
    refine ⟨fun s hs => (nomatch hs), fun v hv => ?_⟩
    obtain ⟨n, hn, -⟩ := Option.bind_eq_some_iff.mp hv
    cases hout : (commitWebVersion core f disk none edit).outcome with
    | error e =>
      rw [show (commitWebVersion core f disk none edit).outcome = _ from hout] at hn
      cases hn
    | ok m => exact absurd hout (hnone m)
  | some s =>
    obtain ⟨s', hlist, hle, hnumber⟩ := commitWebVersion_number f disk s edit
    refine ⟨fun l hl => ⟨s', hlist, ?_⟩, fun v hv => ?_⟩
    · rw [← Option.some.inj hl]
      exact hle
    · obtain ⟨n, hn, hmade⟩ := Option.bind_eq_some_iff.mp hv
      have hversion := version_of_madeAt hmade
      cases hout : (commitWebVersion core f disk (some s) edit).outcome with
      | error e =>
        rw [show (commitWebVersion core f disk (some s) edit).outcome = _ from hout] at hn
        cases hn
      | ok m =>
        rw [show (commitWebVersion core f disk (some s) edit).outcome = _ from hout] at hn
        obtain rfl := Option.some.inj hn
        obtain ⟨heq, hlt, hexpected⟩ := hnumber m hout
        refine ⟨⟨s, s', rfl, hlist, heq.trans hversion.symm, hversion ▸ hlt⟩, fun e he => ?_⟩
        rw [hversion]
        exact hexpected e he

theorem step_number (op : Op) (st : State) : Later st (step core lib op st) ∧
    ∀ v, made core lib op st = some v → Numbered st (step core lib op st) v := by
  cases op with
  | ensure f => exact ⟨later_ensureRepo f st, fun v hv => nomatch hv⟩
  | align f => exact ⟨later_sync f st, fun v hv => nomatch hv⟩
  | web f edit =>
    obtain ⟨hlater, hnumber⟩ := web_number f edit st
    exact ⟨hlater, fun v hv => (hnumber v hv).1⟩
  | push f env commands => exact push_number f env commands st
  | reproject f =>
    refine ⟨fun s hs => ?_, fun v hv => nomatch hv⟩
    obtain ⟨disk, list⟩ := st
    cases disk with
    | repo refs =>
      obtain rfl : list = some s := hs
      exact ⟨_, rfl, (sameOrNext_project f refs s).le⟩
    | absent => exact ⟨s, hs, Int.le_refl _⟩
    | unreadable => exact ⟨s, hs, Int.le_refl _⟩
  | createBranch written name origin => exact ⟨later_onRefs _ st, fun v hv => nomatch hv⟩
  | deleteBranch written name => exact ⟨later_onRefs _ st, fun v hv => nomatch hv⟩
  | commitToBranch written branch listJson expectedTip stamp =>
    exact ⟨later_onRefs _ st, fun v hv => nomatch hv⟩
  | updateBranch written name stamp => exact ⟨later_onRefs _ st, fun v hv => nomatch hv⟩
  | mergeBranch written first second name squash stamp => exact merge_number _ first second st
  | mergeResolved written first second branch listJson squash stamp =>
    exact merge_number _ first second st
  | createTag written name version => exact ⟨later_onRefs _ st, fun v hv => nomatch hv⟩

end Setfork.Writers
