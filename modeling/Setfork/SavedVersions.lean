/- SavedVersions
   digest: What a reader is sent of a saved version, at every later moment of every run. -/
import Setfork.PublishedCanon
import Setfork.VersionShas
import Setfork.Writers

set_option autoImplicit false
set_option relaxedAutoImplicit false

namespace Setfork.SavedVersions

open Setfork.Foundation
open Setfork.Foundation.Json
open Setfork.Serialize (isStepType storageType)
open Setfork.Rows
open Setfork.CanonMirror
open Setfork.Repository
open Setfork.History
open Setfork.Alignment
open Setfork.WebVersion
open Setfork.Push
open Setfork.Branches
open Setfork.Received (RowsUpTo)
open Setfork.Service
open Setfork.Writers
open Setfork.Wire
open Setfork.PublishedCanon (stepRow guide readNote)
open Setfork.Healing (markEdit markedList markedRefs markedRefs_ready plainWrite)
open Setfork.TagRuns (run_saved)
open Setfork.VersionShas (CommitIds Listing Shas versionShas versionShaOne)

/-- A version without the ids of its rows; its moment to the second. -/
structure Version where
  version : Int
  note : Text
  commitSha : Text
  createdAt : Int
  authoredApplied : Bool

/-- A step without the ids of its rows. -/
structure Step where
  n : Int
  title : Option LocaleText
  desc : Option LocaleText
  command : Text
  level : Text
  why : Option LocaleText
  section_ : Option LocaleText
  subtasks : List LocaleText
  refs : List StepRef
  imageRef : Text
  needsHuman : Bool
  needsHumanAsk : Option LocaleText
  danger : Bool
  type : Text
  contentJson : Text

/-- A reference from its column; what is no object has neither label nor address. -/
def readRef (r : Value) : StepRef where
  label := some (locMap ((r.get "label".toList).getD .null))
  url := ((r.get "url".toList).bind Value.asStr).getD []

def readStep (column : Number → Number) (s : StepRecord) : Step :=
  let blockType := wireType s.type
  { n := s.n
    title := some (locMap s.title.value)
    desc := some (locMap s.desc.value)
    command := s.command
    level := s.level.asStr
    why := some (locMap s.why.value)
    section_ := some (locMap s.section_.value)
    subtasks := (s.subtasks.value.asArr.map (List.map locMap)).getD []
    refs := (s.refs.value.asArr.map (List.map readRef)).getD []
    imageRef := s.imageKey.getD []
    needsHuman := s.needsHuman.getD false
    needsHumanAsk := some (locMap ((s.needsHumanAsk.map Jsonb.value).getD .null))
    danger := s.danger.getD false
    type := blockType
    -- a step carries no payload, a block without one the empty text
    contentJson := if blockType.isEmpty then [] else (s.content.map (fun c => compact (mapNumbers column c.value))).getD [] }

section Readings

variable (column : Number → Number) (ids : CommitIds)

/-- One version with its steps. -/
def getVersion (volume : Bool) (st : State) (version : Int) : Option (Version × List Step) :=
  (st.list.bind fun s => s.versions.find? fun v => v.version = version).map fun v =>
    (⟨v.version, v.note, versionShaOne ids volume st.disk v.version, v.createdAt, false⟩,
      (orderedSteps v).map (readStep column))

def versionGe (a b : VersionRecord) : Prop := b.version ≤ a.version

instance : DecidableRel versionGe := fun a b => inferInstanceAs (Decidable (b.version ≤ a.version))

def shaIn (shas : Shas) (version : Int) : Text :=
  if version < 0 then [] else (shas.lookup version.toNat).getD []

/-- All versions; the repository is not opened for an empty history. -/
def listVersions (order : ∀ refs, Listing refs) (volume : Bool) (st : State) : List Version :=
  let rows := ((st.list.map ListState.versions).getD []).insertionSort versionGe
  let shas := if rows.isEmpty then ∅ else versionShas ids order volume st.disk
  rows.map fun v => ⟨v.version, v.note, shaIn shas v.version, v.createdAt, false⟩

end Readings

section Onward

variable {core : Core} {lib : GitLibrary}

/-- Version after version was added, and nothing else happened to the rows of versions. -/
abbrev Onward : ListState → ListState → Prop := Relation.ReflTransGen NextVersion

def Ahead (before after : State) : Prop :=
  (before.list = none → after.list = none) ∧
    ∀ s, before.list = some s → ∃ s', after.list = some s' ∧ Onward s s'

theorem onward_of_sameOrNext {s s' : ListState} (h : SameOrNext s s') : Onward s s' := by
  rcases h with rfl | hnext
  · exact .refl
  · exact .single hnext

theorem Ahead.of_list {before after : State} (h : after.list = before.list) : Ahead before after :=
  ⟨fun hnone => h.trans hnone, fun s hs => ⟨s, h.trans hs, .refl⟩⟩

theorem Ahead.refl (st : State) : Ahead st st := .of_list rfl

theorem Ahead.trans {a b c : State} (h : Ahead a b) (h' : Ahead b c) : Ahead a c := by
  refine ⟨fun hnone => h'.1 (h.1 hnone), fun s hs => ?_⟩
  obtain ⟨middle, hmiddle, hgrown⟩ := h.2 s hs
  obtain ⟨last, hlast, hgrown'⟩ := h'.2 middle hmiddle
  exact ⟨last, hlast, hgrown.trans hgrown'⟩

theorem Ahead.of_some {before after : State} {s s' : ListState} (hs : before.list = some s)
    (hs' : after.list = some s') (h : Onward s s') : Ahead before after := by
  refine ⟨fun hnone => ?_, fun t ht => ⟨s', hs', ?_⟩⟩
  · rw [hs] at hnone
    cases hnone
  · obtain rfl := Option.some.inj (hs.symm.trans ht)
    exact h

theorem onward_projectMainOrLog (first second : ProjectionFaults) (refs : Refs) (s : ListState) :
    Onward s (projectMainOrLog core first second refs s).2.1 := by
  have honce := onward_of_sameOrNext (@sameOrNext_project core first refs s)
  have hagain := onward_of_sameOrNext (@sameOrNext_project core second
    (projectPushedCommit core first refs s).refs (projectPushedCommit core first refs s).list)
  unfold projectMainOrLog
  dsimp only
  split
  · exact honce
  · split
    · exact honce.trans hagain
    · exact honce.trans hagain

theorem ahead_sync (f : SyncFaults) (st : State) :
    Ahead st ⟨(syncRepoWithDb core f st.disk st.list).disk,
      (syncRepoWithDb core f st.disk st.list).list⟩ := by
  cases hlist : st.list with
  | none =>
    refine .of_list ?_
    unfold syncRepoWithDb
    rw [hlist]
    split_ifs <;> rfl
  | some s =>
    obtain ⟨s', hs', hnext⟩ := @sameOrNext_sync core f st.disk s
    exact .of_some hlist hs' (onward_of_sameOrNext hnext)

theorem ahead_ensureRepo (f : SyncFaults) (st : State) : Ahead st (ensureRepo core f st) := by
  have hsync := @ahead_sync core f st
  obtain ⟨disk, list⟩ := st
  cases disk with
  | unreadable => exact hsync
  | repo refs => exact hsync
  | absent =>
    apply Ahead.of_list
    cases list with
    | none => rfl
    | some s =>
      unfold ensureRepo
      dsimp only
      split_ifs <;> rfl

theorem ahead_writeAligned (f : WebFaults) (edit : WebEdit) (synced : State)
    (outcome : Except SyncError SyncOutcome) :
    Ahead synced ⟨(writeAligned core f edit synced outcome).disk,
      (writeAligned core f edit synced outcome).list⟩ := by
  unfold writeAligned
  split
  · exact .of_list rfl
  · exact .of_list rfl
  · exact .of_list rfl
  · split_ifs
    · exact .of_list rfl
    · split
      · rename_i hnone
        exact .of_list hnone.symm
      · rename_i s refs hs _
        rcases writeVersion_cases core f refs s edit with
          ⟨⟨e, he⟩, -⟩ | ⟨parent, c, -, -, -, ⟨-, -, hlist, -⟩ | ⟨-, -, hlist, -⟩⟩
        · exact .of_some hs (congrArg WebWrite.list he) .refl
        · exact .of_some hs hlist .refl
        · refine .of_some hs hlist ?_
          split_ifs
          · exact .refl
          · exact .single ⟨rfl, _, rfl, rfl⟩
      · rename_i s hs _
        exact .of_some hs rfl .refl

theorem ahead_onRefs (change : Refs → Except BranchRefusal Refs) (st : State) :
    Ahead st (onRefs change st) := by
  apply Ahead.of_list
  unfold onRefs
  split
  · split <;> rfl
  · rfl

theorem ahead_afterMerge (first second : ProjectionFaults)
    (merged : Refs → Except BranchRefusal Refs) (st : State) :
    Ahead st (afterMerge core first second merged st) := by
  unfold afterMerge
  split
  · split
    · exact .of_list rfl
    · rename_i hnone
      exact .of_list hnone.symm
    · rename_i s _ hs
      exact .of_some hs rfl (onward_projectMainOrLog first second _ s)
  · exact .of_list rfl

theorem ahead_push (f : PushFaults) (env : HookEnv) (commands : List RefCommand) (st : State) :
    Ahead st (step core lib (.push f env commands) st) := by
  obtain ⟨disk, list⟩ := st
  cases disk with
  | absent => exact .refl _
  | unreadable => exact .refl _
  | repo refs =>
    simp only [step, receivePack]
    split_ifs
    · exact .of_list rfl
    · exact .of_list rfl
    · cases list with
      | none => exact .of_list rfl
      | some s => exact .of_some rfl rfl (onward_projectMainOrLog f.first f.second _ s)
    · exact .of_list rfl

theorem ahead_step (op : Op) (st : State) : Ahead st (step core lib op st) := by
  cases op with
  | ensure f => exact ahead_ensureRepo f st
  | align f => exact ahead_sync f st
  | web f edit =>
    have hwrite := @ahead_writeAligned core f edit
      ⟨(syncRepoWithDb core f.sync st.disk st.list).disk,
        (syncRepoWithDb core f.sync st.disk st.list).list⟩
      (syncRepoWithDb core f.sync st.disk st.list).outcome
    exact (ahead_sync f.sync st).trans hwrite
  | push f env commands => exact ahead_push f env commands st
  | reproject f =>
    obtain ⟨disk, list⟩ := st
    cases disk with
    | absent => exact .refl _
    | unreadable => exact .refl _
    | repo refs =>
      cases list with
      | none => exact .refl _
      | some s => exact .of_some rfl rfl (onward_of_sameOrNext (sameOrNext_project f refs s))
  | createBranch written name origin => exact ahead_onRefs _ st
  | deleteBranch written name => exact ahead_onRefs _ st
  | commitToBranch written branch listJson expectedTip stamp => exact ahead_onRefs _ st
  | updateBranch written name stamp => exact ahead_onRefs _ st
  | mergeBranch written first second name squash stamp => exact ahead_afterMerge first second _ st
  | mergeResolved written first second branch listJson squash stamp =>
    exact ahead_afterMerge first second _ st
  | createTag written name version => exact ahead_onRefs _ st

theorem ahead_run (ops : List Op) (st : State) : Ahead st (run core lib ops st) :=
  @Runs.run_invariant _ _ (step core lib) (Ahead st) (fun op st' h => h.trans (ahead_step op st')) ops st (.refl st)

end Onward

def SameReading (shown sent : Option LocaleText) : Prop := SameText (shown.getD ∅) (sent.getD ∅)

/-- The step under its number as a reader is sent it, field by field. -/
structure Shows (fromStr : Text → Option Value) (column : Number → Number) (n : Int) (sent : NewStep)
    (shown : Step) : Prop where
  n : shown.n = n
  title : SameReading shown.title sent.title
  desc : SameReading shown.desc sent.desc
  command : shown.command = sent.command
  level : shown.level = (Level.parse sent.level).asStr
  why : SameReading shown.why sent.why
  section_ : SameReading shown.section_ sent.section_
  subtasks : List.Forall₂ SameText shown.subtasks sent.subtasks
  refs : List.Forall₂ (fun a b => SameReading a.label b.label ∧ a.url = b.url) shown.refs sent.refs
  imageRef : shown.imageRef = sent.imageRef
  needsHuman : shown.needsHuman = sent.needsHuman
  needsHumanAsk : SameReading shown.needsHumanAsk (if sent.needsHuman then sent.needsHumanAsk else none)
  danger : shown.danger = sent.danger
  type : shown.type = wireType (some sent.type)
  contentJson : shown.contentJson = if isStepType sent.type then [] else
    compact (mapNumbers column (Jsonb.store (contentValue fromStr sent.type sent.contentJson)).value)

section Texts

def entryLe (a b : Sigma fun _ : Text => Text) : Prop := jsonbRank a.1 ≤ jsonbRank b.1

instance : DecidableRel entryLe :=
  fun a b => inferInstanceAs (Decidable (jsonbRank a.1 ≤ jsonbRank b.1))

def byRank (l : LocaleText) : LocaleText :=
  ⟨l.entries.insertionSort entryLe,
    ((List.perm_insertionSort entryLe l.entries).map Sigma.fst).nodup_iff.mpr l.nodupKeys⟩

theorem reorder_locJson (l : LocaleText) :
    reorder jsonbRank (locJson (some l)) = locJson (some (byRank l)) := by
  have hplain : reorderMembers jsonbRank (localeMembers l) = localeMembers l := by
    rw [reorderMembers_eq_map, localeMembers, List.map_map]
    rfl
  simp only [locJson, Option.elim_some, reorder, hplain]
  congr 1
  exact (List.map_insertionSort entryLe (memberLe jsonbRank)
    (fun e : Sigma fun _ : Text => Text => (e.1, Value.str e.2)) l.entries fun _ _ _ _ => Iff.rfl).symm

theorem sameReading_column (l : Option LocaleText) :
    SameReading (some (locMap (Jsonb.store (locJson l)).value)) l := by
  cases l with
  | none => exact fun lang => rfl
  | some l =>
    intro lang
    have hsorted := locMap_locJson (byRank l) lang
    rw [Jsonb.value_store, reorder_locJson]
    exact hsorted.trans (AList.perm_lookup (List.perm_insertionSort entryLe l.entries))

theorem sameText_column (subtasks : List LocaleText) :
    List.Forall₂ SameText
      ((subtasks.map fun t => reorder jsonbRank (locJson (some t))).map locMap) subtasks := by
  rw [List.map_map, List.forall₂_map_left_iff, List.forall₂_same]
  exact fun t _ => sameReading_column (some t)

private theorem get_refFields (r : StepRef) (key : Text) :
    (Value.obj (present (refFields r))).get key =
      ((refFields r).find? (fun f => f.1 = key)).bind Prod.snd := by
  apply find_present
  simp only [refFields, List.map_cons, List.map_nil]
  decide

theorem sameRef_column (r : StepRef) :
    SameReading (readRef (reorder jsonbRank (.obj (present (refFields r))))).label r.label ∧
      (readRef (reorder jsonbRank (.obj (present (refFields r))))).url = r.url := by
  have hlabel : (Value.obj (present (refFields r))).get "label".toList = some (locJson r.label) := by
    rw [get_refFields]
    rfl
  have hurl : (Value.obj (present (refFields r))).get "url".toList =
      if r.url.isEmpty then none else some (.str r.url) := by
    rw [get_refFields]
    rfl
  refine ⟨?_, ?_⟩
  · rw [readRef, get_reorder, hlabel]
    exact sameReading_column r.label
  · simp only [readRef]
    rw [get_reorder, hurl]
    split_ifs with hempty
    · exact (List.isEmpty_iff.mp hempty).symm
    · rfl

end Texts

theorem wireType_storageType (t : Text) : wireType (some (storageType t)) = wireType (some t) := by
  rw [wireType_some, wireType_some, Serialize.isStepType_storageType, storageType]
  split_ifs <;> rfl

private theorem isEmpty_wireType (t : Text) : (wireType (some t)).isEmpty = isStepType t := by
  rw [wireType_some]
  split_ifs with hstep
  · rw [hstep]
    rfl
  · rw [Bool.not_eq_true] at hstep
    rw [hstep]
    exact (Bool.or_eq_false_iff.mp hstep).1

theorem shows_readStep (fromStr : Text → Option Value) (column : Number → Number) (n : Int)
    (s : NewStep) :
    Shows fromStr column n s (readStep column (insertStepRow n (stepRow fromStr s))) where
  n := rfl
  title := sameReading_column s.title
  desc := sameReading_column s.desc
  command := rfl
  level := rfl
  why := sameReading_column s.why
  section_ := sameReading_column s.section_
  subtasks := by
    simp only [readStep, insertStepRow, stepRow, Jsonb.value_store, reorder, Value.asArr,
      Option.map_some, Option.getD_some, reorderItems_eq_map, List.map_map]
    exact List.map_map ▸ sameText_column s.subtasks
  refs := by
    simp only [readStep, insertStepRow, stepRow, refsJson, Jsonb.value_store, reorder, Value.asArr,
      Option.map_some, Option.getD_some, reorderItems_eq_map, List.map_map]
    rw [List.forall₂_map_left_iff, List.forall₂_same]
    exact fun r _ => sameRef_column r
  imageRef := by
    cases himage : s.imageRef with
    | nil => simp [readStep, insertStepRow, stepRow, himage]
    | cons c t => simp [readStep, insertStepRow, stepRow, himage]
  needsHuman := rfl
  needsHumanAsk := by
    simp only [readStep, insertStepRow, stepRow, Option.map_some, Option.getD_some]
    split_ifs
    · exact sameReading_column s.needsHumanAsk
    · exact sameReading_column none
  danger := rfl
  type := wireType_storageType s.type
  contentJson := by
    simp only [readStep, insertStepRow, stepRow, wireType_storageType, isEmpty_wireType,
      Option.map_some, Option.getD_some]

/-- A client has just saved this version: the core answered its edit with the number, or created the
list with it. -/
inductive Saved (core : Core) (lib : GitLibrary) (fromStr : Text → Option Value)
    (steps : List NewStep) (note : Text) (createdAt : Int) : Int → State → Prop
  | web (f : WebFaults) (edit : WebEdit) (before : State) (n : Int)
      (rows : edit.rows = steps.map (stepRow fromStr)) (text : edit.note = note)
      (moment : f.createdAt = createdAt)
      (answer : (commitWebVersion core f before.disk before.list edit).outcome = .ok n) :
      Saved core lib fromStr steps note createdAt n (step core lib (.web f edit) before)
  | create (column : Number → Number) (m : ListMeta) (disk : Disk) :
      Saved core lib fromStr steps note createdAt 1
        ⟨disk, some (createList column m note createdAt (steps.map (stepRow fromStr)))⟩

section Runs

variable {core : Core} {lib : GitLibrary}

theorem Onward.isPrefix {s s' : ListState} (h : Onward s s') : s.versions <+: s'.versions := by
  induction h with
  | refl => exact List.prefix_refl _
  | tail _ hnext ih =>
    obtain ⟨-, v, -, hrows⟩ := hnext
    rw [hrows]
    exact ih.trans (List.prefix_append _ _)

theorem find_of_ahead {before after : State} (h : Ahead before after) {n : Int} {v : VersionRecord}
    (hv : (before.list.bind fun s => s.versions.find? fun v => v.version = n) = some v) :
    (after.list.bind fun s => s.versions.find? fun v => v.version = n) = some v := by
  obtain ⟨s, hs, hfind⟩ := Option.bind_eq_some_iff.mp hv
  obtain ⟨s', hs', hgrown⟩ := h.2 s hs
  rw [hs', Option.bind_some]
  exact hgrown.isPrefix.find?_eq_some hfind

theorem getVersion_of_find (column : Number → Number) (ids : CommitIds) (volume : Bool) {st : State} {n : Int}
    {v : VersionRecord}
    (hv : (st.list.bind fun s => s.versions.find? fun v => v.version = n) = some v) :
    getVersion column ids volume st n =
      some (⟨v.version, v.note, versionShaOne ids volume st.disk v.version, v.createdAt, false⟩,
        (orderedSteps v).map (readStep column)) := by
  rw [getVersion, hv, Option.map_some]

theorem find_writeVersion {f : WebFaults} {refs : Refs} {s : ListState} {edit : WebEdit} {n : Int}
    (hout : (writeVersion core f refs s edit).outcome = .ok n) :
    ((writeVersion core f refs s edit).list.bind fun s => s.versions.find? fun v => v.version = n) =
      some ⟨n, edit.note, f.createdAt, insertStepRows edit.rows⟩ := by
  rcases writeVersion_cases core f refs s edit with
    ⟨⟨e, he⟩, -⟩ | ⟨parent, c, haccept, -, -, ⟨-, -, -, hrefused⟩ | ⟨-, -, hlist, htail⟩⟩
  · rw [he] at hout
    cases hout
  · rw [hrefused] at hout
    cases hout
  · rw [htail] at hout
    split_ifs at hout with hdone
    obtain rfl := Except.ok.inj hout
    have hkept : f.tail ≠ .failed := by
      rw [hdone]
      nofun
    have hfree : s.versions.find? (fun v => v.version = s.currentVersion + 1) = none := by
      rw [List.find?_eq_none]
      intro v hv hnumber
      exact haccept.free v hv (of_decide_eq_true hnumber)
    rw [hlist, if_neg hkept, Option.bind_some]
    show (s.versions ++ _).find? _ = _
    rw [List.find?_append, hfree, Option.none_or, List.find?_singleton, if_pos (by simp)]

theorem find_writeAligned {f : WebFaults} {edit : WebEdit} {synced : State}
    {outcome : Except SyncError SyncOutcome} {n : Int}
    (hout : (writeAligned core f edit synced outcome).outcome = .ok n) :
    ((writeAligned core f edit synced outcome).list.bind fun s =>
        s.versions.find? fun v => v.version = n) =
      some ⟨n, edit.note, f.createdAt, insertStepRows edit.rows⟩ := by
  unfold writeAligned at hout ⊢
  split at hout
  · cases hout
  · cases hout
  · cases hout
  · split_ifs at hout ⊢
    split at hout
    · cases hout
    · exact find_writeVersion hout
    · cases hout

theorem Saved.find {fromStr : Text → Option Value} {steps : List NewStep} {note : Text}
    {createdAt n : Int} {st : State} (h : Saved core lib fromStr steps note createdAt n st) :
    (st.list.bind fun s => s.versions.find? fun v => v.version = n) =
      some ⟨n, note, createdAt, insertStepRows (steps.map (stepRow fromStr))⟩ := by
  cases h with
  | web f edit before n rows text moment answer =>
    rw [← rows, ← text, ← moment]
    rw [commitWebVersion_eq] at answer
    exact find_writeAligned answer
  | create column m disk => rfl

/-- Whatever the core does after a client has saved a version, a reader is sent it: with its note and
its moment, the steps in their order, each as the client gave it. -/
theorem saved_version_is_served {fromStr : Text → Option Value} {steps : List NewStep} {note : Text}
    {createdAt n : Int} {st : State} (h : Saved core lib fromStr steps note createdAt n st)
    (ops : List Op) (column : Number → Number) (ids : CommitIds) (volume : Bool) :
    ∃ sha shown, getVersion column ids volume (run core lib ops st) n =
        some (⟨n, note, sha, createdAt, false⟩, shown) ∧
      shown.length = steps.length ∧
      ∀ i (hi : i < steps.length) (hi' : i < shown.length),
        Shows fromStr column (i + 1) steps[i] shown[i] := by
  have hfound := find_of_ahead (@ahead_run core lib ops st) h.find
  have hanswer := getVersion_of_find column ids volume hfound
  rw [orderedSteps_insertStepRows, insertStepRows, numbered_map, map_numbered] at hanswer
  refine ⟨_, _, hanswer, by simp [numbered], fun i hi hi' => ?_⟩
  simp only [numbered, List.getElem_mapIdx]
  exact shows_readStep fromStr column (i + 1) steps[i]

/-- What a version shows beside its commit, which moves with the tags. -/
def Version.untagged (v : Version) : Version := { v with commitSha := [] }

/-- The numbers of the versions are distinct, and none is above the current one. -/
structure Counted (s : ListState) : Prop where
  rows : RowsUpTo s
  distinct : (s.versions.map VersionRecord.version).Nodup

theorem Counted.next {s next : ListState} (h : Counted s) (hnext : NextVersion s next) :
    Counted next := by
  refine ⟨h.rows.next hnext, ?_⟩
  obtain ⟨-, v, hv, hrows⟩ := hnext
  rw [hrows, List.map_append, List.map_singleton, List.nodup_append]
  refine ⟨h.distinct, List.nodup_singleton _, fun n hn m hm heq => ?_⟩
  obtain ⟨r, hr, rfl⟩ := List.mem_map.mp hn
  have hle := h.rows r hr
  rw [List.mem_singleton.mp hm] at heq
  omega

theorem insertionSort_concat {rows : List VersionRecord} {v : VersionRecord}
    (h : ∀ r ∈ rows, r.version < v.version) :
    (rows ++ [v]).insertionSort versionGe = v :: rows.insertionSort versionGe := by
  induction rows with
  | nil => rfl
  | cons r rows ih =>
    obtain ⟨hr, hrest⟩ := List.forall_mem_cons.mp h
    have hbelow : ¬ versionGe r v := not_le.mpr hr
    rw [List.cons_append, List.insertionSort_cons, ih hrest, List.orderedInsert_cons, if_neg hbelow,
      List.insertionSort_cons]

/-- The newest version first: what comes goes to the front. -/
theorem Counted.onward {s s' : ListState} (h : Counted s) (hgrown : Onward s s') :
    Counted s' ∧
      ∃ newer, s'.versions.insertionSort versionGe = newer ++ s.versions.insertionSort versionGe := by
  induction hgrown with
  | refl => exact ⟨h, [], rfl⟩
  | @tail middle last _ hnext ih =>
    obtain ⟨hcounted, newer, hlisted⟩ := ih
    refine ⟨hcounted.next hnext, ?_⟩
    obtain ⟨-, v, hv, hrows⟩ := hnext
    have habove : ∀ r ∈ middle.versions, r.version < v.version := by
      intro r hr
      have hle := hcounted.rows r hr
      omega
    exact ⟨v :: newer, by rw [hrows, insertionSort_concat habove, hlisted, List.cons_append]⟩

private theorem total_versionGe : Std.Total versionGe := ⟨fun a b => le_total b.version a.version⟩

private theorem trans_versionGe : IsTrans VersionRecord versionGe :=
  ⟨fun _ _ _ hab hbc => le_trans hbc hab⟩

theorem Counted.descending {s : ListState} (h : Counted s) :
    (s.versions.insertionSort versionGe).Pairwise (fun a b => b.version < a.version) := by
  have hsorted := @List.pairwise_insertionSort _ versionGe _ total_versionGe trans_versionGe s.versions
  have hdistinct : (s.versions.insertionSort versionGe).Pairwise fun a b => a.version ≠ b.version := by
    rw [← List.pairwise_map]
    exact ((List.perm_insertionSort versionGe s.versions).map _).nodup_iff.mpr h.distinct
  exact (hsorted.and hdistinct).imp fun hboth => lt_of_le_of_ne hboth.1 (Ne.symm hboth.2)

theorem find_of_distinct {rows : List VersionRecord}
    (h : (rows.map VersionRecord.version).Nodup) {v : VersionRecord} (hv : v ∈ rows) :
    rows.find? (fun r => r.version = v.version) = some v := by
  induction rows with
  | nil => cases hv
  | cons r rows ih =>
    rw [List.map_cons, List.nodup_cons] at h
    rw [List.find?_cons]
    rcases List.mem_cons.mp hv with rfl | hrest
    · simp
    · have hne : r.version ≠ v.version := fun heq => h.1 (heq ▸ List.mem_map_of_mem hrest)
      simp [hne, ih h.2 hrest]

section Listing

variable (ids : CommitIds) (order : ∀ refs, Listing refs) (volume : Bool)

theorem mem_listVersions {st : State} {s : ListState} (hs : st.list = some s) {v : Version} :
    v ∈ listVersions ids order volume st → ∃ r ∈ s.versions, ∃ sha,
      v = ⟨r.version, r.note, sha, r.createdAt, false⟩ := by
  simp only [listVersions, hs, Option.map_some, Option.getD_some, List.mem_map]
  rintro ⟨r, hr, rfl⟩
  exact ⟨r, (List.mem_insertionSort versionGe).mp hr, _, rfl⟩

theorem untagged_listVersions {st : State} {s : ListState} (hs : st.list = some s) :
    (listVersions ids order volume st).map Version.untagged =
      (s.versions.insertionSort versionGe).map
        (fun r => ⟨r.version, r.note, [], r.createdAt, false⟩) := by
  simp only [listVersions, hs, Option.map_some, Option.getD_some, List.map_map]
  rfl

end Listing

/-- The history of a list is only written on: what a reader was once told about a version and its
steps he is told again at every later moment, the commit behind its tag apart; the listing goes
strictly down, later versions stand before those of any earlier moment, and each of its versions is
the one that is found under its number. -/
theorem history_only_grows {st : State} {s : ListState} (hs : st.list = some s) (hcounted : Counted s)
    (ops : List Op) (column : Number → Number) (ids : CommitIds) (order : ∀ refs, Listing refs) (volume : Bool) :
    (∀ n v steps, getVersion column ids volume st n = some (v, steps) →
      ∃ sha, getVersion column ids volume (run core lib ops st) n = some ({ v with commitSha := sha }, steps)) ∧
    (∃ newer, (listVersions ids order volume (run core lib ops st)).map Version.untagged =
      newer ++ (listVersions ids order volume st).map Version.untagged) ∧
    (listVersions ids order volume (run core lib ops st)).Pairwise
      (fun a b => b.version < a.version) ∧
    ∀ v ∈ listVersions ids order volume (run core lib ops st), ∃ sha steps,
      getVersion column ids volume (run core lib ops st) v.version =
        some ({ v with commitSha := sha }, steps) := by
  have hahead := @ahead_run core lib ops st
  obtain ⟨s', hs', hgrown⟩ := hahead.2 s hs
  obtain ⟨hcounted', newer, hlisted⟩ := hcounted.onward hgrown
  refine ⟨fun n v steps hv => ?_, ?_, ?_, fun v hv => ?_⟩
  · obtain ⟨r, hr, heq⟩ := Option.map_eq_some_iff.mp hv
    obtain ⟨rfl, rfl⟩ := Prod.mk.inj heq
    exact ⟨_, getVersion_of_find column ids volume (find_of_ahead hahead hr)⟩
  · rw [untagged_listVersions ids order volume hs', untagged_listVersions ids order volume hs, hlisted,
      List.map_append]
    exact ⟨_, rfl⟩
  · simp only [listVersions, hs', Option.map_some, Option.getD_some]
    exact List.pairwise_map.mpr hcounted'.descending
  · obtain ⟨r, hr, sha, rfl⟩ := mem_listVersions ids order volume hs' hv
    have hfind : ((run core lib ops st).list.bind fun s =>
        s.versions.find? fun w => w.version = r.version) = some r := by
      rw [hs', Option.bind_some]
      exact find_of_distinct hcounted'.distinct hr
    exact ⟨_, _, getVersion_of_find column ids volume hfind⟩

end Runs

def guideEdit : WebEdit where
  note := "second".toList
  rows := guide.map (stepRow readNote)
  patch := ⟨none, none, none, none⟩
  expectedVersion := none
  authored := none

def laterOps : List Op := [markEdit false, markEdit true].map (.web plainWrite)

private theorem carries : ∀ e ∈ [guideEdit, markEdit false, markEdit true],
    e.authored = none ∧ e.expectedVersion = none :=
  List.forall_mem_cons.mpr ⟨⟨rfl, rfl⟩,
    List.forall_mem_cons.mpr ⟨⟨rfl, rfl⟩, List.forall_mem_singleton.mpr ⟨rfl, rfl⟩⟩⟩

/-- Saved as the second version of a list, it is served when two more versions have been saved. -/
theorem saved_version_is_served_later :
    ∃ st, Saved canonCore plainLibrary readNote guide "second".toList 0 2 st ∧
      (run canonCore plainLibrary laterOps st).list.map ListState.currentVersion = some 4 ∧
      ∃ sha shown, getVersion id VersionShas.twoIds true (run canonCore plainLibrary laterOps st) 2 =
          some (⟨2, "second".toList, sha, 0, false⟩, shown) ∧
        shown.length = guide.length ∧
        ∀ i (hi : i < guide.length) (hi' : i < shown.length),
          Shows readNote id (i + 1) guide[i] shown[i] := by
  have hnames : CarriedTree.NamesFree canonCore.reserved := fun _ _ _ _ => rfl
  obtain ⟨hguide, hlater⟩ := List.forall_mem_cons.mp carries
  obtain ⟨c, -, hwrite, hready⟩ := markedRefs_ready.written hnames (by decide) hguide.1 fun e he =>
    absurd (hguide.2.symm.trans he) (Option.some_ne_none e).symm
  obtain ⟨last, after, hrun, -⟩ := @run_saved canonCore plainLibrary hnames _ hlater _ _ _ hready
    (by decide)
  have hsaved : Saved canonCore plainLibrary readNote guide "second".toList 0 2
      (step canonCore plainLibrary (.web plainWrite guideEdit)
        ⟨.repo markedRefs, some markedList⟩) :=
    .web plainWrite guideEdit _ 2 rfl rfl rfl (by rw [hwrite]; rfl)
  refine ⟨_, hsaved, ?_, saved_version_is_served hsaved laterOps id VersionShas.twoIds true⟩
  simp only [step, hwrite]
  rw [laterOps, hrun]
  rfl

theorem counted_markedList : Counted markedList :=
  ⟨fun _ hr => (List.mem_singleton.mp hr) ▸ le_refl _, List.nodup_singleton 1⟩

/-- Three versions are added to the first, and what was told about it is told again. -/
theorem history_only_grows_later :
    (run canonCore plainLibrary (.web plainWrite guideEdit :: laterOps)
      ⟨.repo markedRefs, some markedList⟩).list.map ListState.currentVersion = some 4 ∧
    (∀ n v steps, getVersion id VersionShas.twoIds true ⟨.repo markedRefs, some markedList⟩ n =
        some (v, steps) →
      ∃ sha, getVersion id VersionShas.twoIds true
        (run canonCore plainLibrary (.web plainWrite guideEdit :: laterOps)
          ⟨.repo markedRefs, some markedList⟩) n = some ({ v with commitSha := sha }, steps)) ∧
    ∃ newer, (listVersions VersionShas.twoIds VersionShas.asKept true
        (run canonCore plainLibrary (.web plainWrite guideEdit :: laterOps)
          ⟨.repo markedRefs, some markedList⟩)).map Version.untagged =
      newer ++ (listVersions VersionShas.twoIds VersionShas.asKept true
        ⟨.repo markedRefs, some markedList⟩).map Version.untagged := by
  have hnames : CarriedTree.NamesFree canonCore.reserved := fun _ _ _ _ => rfl
  obtain ⟨last, after, hrun, -⟩ := @run_saved canonCore plainLibrary hnames _ carries _ _ _
    markedRefs_ready (by decide)
  obtain ⟨htold, hlisted, -⟩ := @history_only_grows canonCore plainLibrary
    ⟨.repo markedRefs, some markedList⟩ markedList rfl counted_markedList
    (.web plainWrite guideEdit :: laterOps) id VersionShas.twoIds VersionShas.asKept true
  refine ⟨?_, htold, hlisted⟩
  have hops : Op.web plainWrite guideEdit :: laterOps =
      [guideEdit, markEdit false, markEdit true].map (.web plainWrite) := rfl
  rw [hops, hrun]
  rfl

end Setfork.SavedVersions
