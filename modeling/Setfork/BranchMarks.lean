/- BranchMarks
   digest: The content of a branch, read and written back: what its blocks keep, and whose marks they
   have afterwards. -/
import Setfork.EditorRoundTrip

set_option autoImplicit false
set_option relaxedAutoImplicit false

namespace Setfork.BranchMarks

open Setfork.Foundation (Text Bytes trim utf8 Uuid)
open Setfork.Foundation.Json
open Setfork.Serialize (VersionData SerStep StepRef isStepBlock isStepType keepsRef printedImageKey
  listJson canonValue listJson_eq_iff)
open Setfork.Rows (loc locVal numbered numbered_map map_numbered forall₂_self_numbered
  presentText)
open Setfork.Carryover (CarryOver lastMark)
open Setfork.Project
open Setfork.Reproject (kept projOf isStepType_projOf)
open Setfork.StrictCanon
open Setfork.ShownCanon
open Setfork.Wire (contentValue wireType)
open Setfork.Convert
open Setfork.EditorRoundTrip

/-- The marks of the current version for a block of a branch; none without an identity that the
current version knows. -/
def currentMark (carry : Uuid → Option CarryOver) (t : SerStep) : CarryOver :=
  ((t.blockId.bind Uuid.parseStr).bind carry).getD CarryOver.default

def livingRefs (refs : List StepRef) : List StepRef :=
  (refs.filter (fun r => keepsRef r.label r.url)).map
    (fun r => ⟨r.label, r.url.filter (fun u => !u.isEmpty)⟩)

/-- A block of a branch and the block that is written back for it: its identity, type, content,
texts and references are its own, its marks are those of the current version. The numbers of its
content have been read twice, once with the list and once as a payload. -/
structure WrittenBack (read : Number → Number) (carry : Uuid → Option CarryOver) (t back : SerStep) :
    Prop where
  blockId : back.blockId = t.blockId.filter notBlank
  isStep : isStepBlock back = isStepBlock t
  blockType : isStepBlock t = false → back.blockType = t.blockType
  content : isStepBlock t = false → back.content = mapNumbers (read ∘ read) t.content
  title : back.title = t.title
  desc : back.desc = t.desc
  command : back.command = t.command
  level : back.level = t.level
  why : back.why = t.why
  section_ : back.section_ = t.section_
  subtasks : back.subtasks = t.subtasks
  refs : back.refs = livingRefs t.refs
  danger : back.danger = (currentMark carry t).danger
  imageKey : back.imageKey = (currentMark carry t).imageKey
  needsHuman : back.needsHuman = (currentMark carry t).needsHuman
  needsHumanAsk : back.needsHumanAsk =
    if (currentMark carry t).needsHuman then presentText (loc (currentMark carry t).needsHumanAsk)
    else none

section Blocks

variable (fromStr : Text → Option Value) {carry : Uuid → Option CarryOver} {t : SerStep} {n : Int}

def wireStep (n : Int) (t : SerStep) : SnapshotStep := stepToPb n (projOf t)

@[simp] theorem isStepType_wireStep : isStepType (wireStep n t).type = isStepBlock t :=
  isStepType_projOf t

private theorem visible_getD (o : Option Text) :
    (some ((o.filter notBlank).getD [])).filter notBlank = o.filter notBlank := by
  cases o with
  | none => rfl
  | some x =>
    have hnil : notBlank [] = false := rfl
    cases hblank : notBlank x <;> simp [Option.filter, hblank, hnil]

theorem blockId_wireStep :
    (fromSnapshotStep fromStr (wireStep n t)).blockId = t.blockId.filter notBlank :=
  visible_getD t.blockId

theorem markFor_wireStep : markFor carry (wireStep n t) = currentMark carry t := by
  have hwire : (some (wireStep n t).blockId).filter notBlank = t.blockId.filter notBlank :=
    visible_getD t.blockId
  have hparse : Uuid.parseStr (wireStep n t).blockId = t.blockId.bind Uuid.parseStr := by
    calc Uuid.parseStr (wireStep n t).blockId
        = (some (wireStep n t).blockId).bind Uuid.parseStr := rfl
      _ = ((some (wireStep n t).blockId).filter notBlank).bind Uuid.parseStr :=
          (parse_visible _).symm
      _ = (t.blockId.filter notBlank).bind Uuid.parseStr := by rw [hwire]
      _ = t.blockId.bind Uuid.parseStr := parse_visible _
  rw [markFor, currentMark, hparse]

private theorem refs_wireStep :
    (fromSnapshotStep fromStr (wireStep n t)).refs = livingRefs t.refs := by
  have hrefs : (fromSnapshotStep fromStr (wireStep n t)).refs =
      ((((t.refs.filter (fun r => keepsRef r.label r.url)).map
        (fun r => (⟨r.label, r.url⟩ : ProjRef))).map
        (fun r => (⟨r.label, r.url.getD []⟩ : SnapshotRef))).map
        (fun r => (⟨r.label, if r.url.isEmpty then none else some r.url⟩ : StepRef))) := rfl
  have heach : ∀ r : StepRef, (⟨r.label, if (r.url.getD []).isEmpty then none
      else some (r.url.getD [])⟩ : StepRef) = ⟨r.label, r.url.filter (fun u => !u.isEmpty)⟩ := by
    intro r
    cases r.url with
    | none => rfl
    | some u => cases u <;> rfl
  rw [hrefs, List.map_map, List.map_map, livingRefs]
  exact List.map_congr_left fun r _ => heach r

private theorem content_wireStep {v : Value} (hread : fromStr (compact t.content) = some v)
    (hblock : isStepBlock t = false) :
    (fromSnapshotStep fromStr (wireStep n t)).content = v := by
  have htype : isStepType (wireStep n t).type = false := by
    rw [isStepType_wireStep, hblock]
  have hjson : (wireStep n t).contentJson = compact t.content := by
    have hprint : (wireStep n t).contentJson = if (wireStep n t).type.isEmpty then []
        else compact (projOf t).content := rfl
    have hcontent : (projOf t).content = t.content := by
      rw [projOf, hblock]
      rfl
    rw [isStepType, Bool.or_eq_false_iff] at htype
    rw [hprint, htype.1, hcontent]
    rfl
  have hvalue : (fromSnapshotStep fromStr (wireStep n t)).content =
      contentValue fromStr (wireStep n t).type (wireStep n t).contentJson := rfl
  have hne : (compact t.content).isEmpty = false :=
    List.isEmpty_eq_false_iff.mpr (compact_ne_nil t.content)
  rw [hvalue, contentValue, htype, hjson, hne, hread]
  rfl

private theorem blockType_wireStep (hblock : isStepBlock t = false) :
    (fromSnapshotStep fromStr (wireStep n t)).blockType = t.blockType := by
  have htype : (fromSnapshotStep fromStr (wireStep n t)).blockType =
      if isStepType (wireStep n t).type then none else some (wireStep n t).type := rfl
  have hwire : (wireStep n t).type = if isStepBlock t then [] else t.blockType.getD [] := rfl
  rw [htype, isStepType_wireStep, hwire, hblock]
  cases hb : t.blockType with
  | none =>
    rw [isStepBlock, hb] at hblock
    cases hblock
  | some b => rfl

theorem writtenBack_canonBlock {read : Number → Number}
    (hread : isStepBlock t = false →
      fromStr (compact (mapNumbers read t.content)) = some (mapNumbers (read ∘ read) t.content)) :
    WrittenBack read carry t (canonBlock fromStr carry (wireStep n (changeStep read t))) := by
  have hmark : markFor carry (wireStep n (changeStep read t)) = currentMark carry t :=
    @markFor_wireStep carry (changeStep read t) n
  have hask : (canonBlock fromStr carry (wireStep n (changeStep read t))).needsHumanAsk =
      if (currentMark carry t).needsHuman then
        presentText (loc (currentMark carry t).needsHumanAsk) else none := by
    rw [canonBlock, hmark]
    cases (currentMark carry t).needsHuman with
    | true => cases presentText (loc (currentMark carry t).needsHumanAsk) <;> rfl
    | false => cases presentText (loc (currentMark carry t).needsHumanAsk) <;> rfl
  exact {
    blockId := @blockId_wireStep fromStr (changeStep read t) n
    isStep := by
      rw [isStepBlock_canonBlock, isStepType_wireStep]
      rfl
    blockType := @blockType_wireStep fromStr (changeStep read t) n
    content := fun hblock =>
      @content_wireStep fromStr (changeStep read t) n _ (hread hblock) hblock
    title := rfl
    desc := rfl
    command := rfl
    level := rfl
    why := rfl
    section_ := rfl
    subtasks := rfl
    refs := @refs_wireStep fromStr (changeStep read t) n
    danger := congrArg CarryOver.danger hmark
    imageKey := congrArg CarryOver.imageKey hmark
    needsHuman := congrArg CarryOver.needsHuman hmark
    needsHumanAsk := hask }

end Blocks

section Lists

variable {lib : Libraries} {read : Number → Number} {branchUrl : Text} {w : VersionData}

theorem shallow_of_read (hlib : Reads lib read) (hmaps : VersionMaps w) {value : Value}
    (hread : lib.fromStr (listJson branchUrl w) = .ok value) :
    Shallow w ∧ value = canonValue branchUrl (changeNumbers read w) := by
  have hdepth : depth (canonValue branchUrl w) ≤ 127 := by
    by_contra hlarge
    obtain ⟨e, he⟩ := hlib.deep branchUrl w (by omega)
    rw [he] at hread
    cases hread
  rw [hlib.shown branchUrl w hmaps hdepth] at hread
  exact ⟨(depth_canonValue_le branchUrl w).mp hdepth, (Except.ok.inj hread).symm⟩

theorem parts_of_canonValue {parts : ListParts}
    (hparts : parseListValue (canonValue branchUrl w) = some parts) : parts = shownParts w := by
  rw [parseListValue_canonValue] at hparts
  split_ifs at hparts
  exact (Option.some.inj hparts).symm

end Lists

/-- The blocks of a branch that goes over the wire and into a canon again: each that the soft parse
keeps is written back, in its place. -/
theorem branch_written_back {lib : Libraries} {read : Number → Number} (hlib : Reads lib read)
    (hpayload : ∀ v, UniqueKeys v → depth v ≤ 127 →
      lib.fromStr (compact v) = .ok (mapNumbers read v))
    (carry : Uuid → Option CarryOver) (schemaUrl : Text) (props : Option Text × Option Value)
    {branchUrl : Text} {w : VersionData} (hmaps : VersionMaps w) {value : Value} {parts : ListParts}
    (hread : lib.fromStr (listJson branchUrl w) = .ok value)
    (hparts : parseListValue value = some parts) {c : ListContent}
    (hwire : c.steps = stepsToPb parts.steps) :
    ∃ v, canonListJson (reader lib) carry schemaUrl (some c) props =
        .ok (utf8 (listJson schemaUrl v)) ∧
      List.Forall₂ (WrittenBack read carry) (w.steps.filter kept) v.steps := by
  obtain ⟨hshallow, rfl⟩ := shallow_of_read hlib hmaps hread
  obtain rfl := parts_of_canonValue hparts
  refine ⟨canonData (reader lib) carry c props, rfl, ?_⟩
  have hsteps : (canonData (reader lib) carry c props).steps =
      numbered (fun n t => canonBlock (reader lib) carry (wireStep n (changeStep read t)))
        (w.steps.filter kept) := by
    have hkept : (shownParts (changeNumbers read w)).steps =
        (w.steps.filter kept).map (projOf ∘ changeStep read) := by
      change ((w.steps.map (changeStep read)).filter kept).map projOf = _
      rw [List.filter_map, List.map_map]
      rfl
    rw [canonData_steps, hwire, hkept, stepsToPb, numbered_map, map_numbered]
    rfl
  rw [hsteps, forall₂_self_numbered]
  intro i hi
  apply writtenBack_canonBlock
  intro hblock
  have hmem : (w.steps.filter kept)[i] ∈ w.steps :=
    List.mem_of_mem_filter (List.getElem_mem hi)
  have hdepth := hshallow _ hmem hblock
  have hunique := @uniqueKeys_mapNumbers read _ (hmaps.content _ hmem)
  rw [reader, hpayload _ hunique (by rw [depth_mapNumbers]; omega), mapNumbers_mapNumbers]
  rfl

/-- A dangerous step with a question and an image. -/
def wipeStep : SerStep where
  n := 1
  blockType := none
  content := .obj []
  blockId := some "11111111-2222-3333-4444-555555555555".toList
  title := "Wipe the disk".toList
  desc := []
  command := "rm -rf /data".toList
  imageKey := some "u/1/disk.png".toList
  level := "required".toList
  needsHuman := true
  needsHumanAsk := some "Which disk?".toList
  danger := true
  why := []
  section_ := []
  subtasks := []
  refs := []

def untitledStep : SerStep := { wipeStep with n := 2, blockId := none, title := [] }

/-- A block of text. -/
def noteBlock : SerStep :=
  { wipeStep with
    n := 3
    blockType := some "text".toList
    content := .obj [("md".toList, .str "Mind the disk".toList)]
    blockId := none
    title := [] }

def branchList : VersionData where
  version := 1
  note := []
  ts := 0
  title := "Cleanup".toList
  desc := []
  tags := []
  ordered := true
  kind := none
  skillHeader := none
  steps := [wipeStep, untitledStep, noteBlock]

theorem branchList_maps : VersionMaps branchList := by
  have hempty : UniqueKeys (.obj []) := ⟨List.nodup_nil, trivial⟩
  have hnote : UniqueKeys noteBlock.content := ⟨List.nodup_singleton _, trivial, trivial⟩
  have hnumbers : ∀ t ∈ [wipeStep, untitledStep, noteBlock], fitsInt32 t.n = true := by decide
  refine ⟨?_, fun h hh => (by cases hh), rfl, hnumbers⟩
  show ∀ t ∈ [wipeStep, untitledStep, noteBlock], UniqueKeys t.content
  simp only [List.forall_mem_cons, List.not_mem_nil, false_implies, implies_true, and_true]
  exact ⟨hempty, hempty, hnote⟩

theorem branchList_read :
    printedReader.fromStr (listJson publishedUrl branchList) =
      .ok (canonValue publishedUrl branchList) ∧
    parseListValue (canonValue publishedUrl branchList) = some (shownParts branchList) := by
  have hshallow : Shallow branchList := by
    show ∀ t ∈ [wipeStep, untitledStep, noteBlock], isStepBlock t = false → depth t.content ≤ 124
    simp only [List.forall_mem_cons, List.not_mem_nil, false_implies, implies_true, and_true]
    refine ⟨fun _ => ?_, fun _ => ?_, fun _ => ?_⟩ <;> decide
  have hdepth := (depth_canonValue_le publishedUrl branchList).mpr hshallow
  refine ⟨printedReader_ok (uniqueKeys_canonValue branchList_maps) hdepth (Or.inl rfl), ?_⟩
  rw [parseListValue_canonValue]
  rfl

def wipeMarks : Uuid → Option CarryOver :=
  lastMark ((wipeStep.blockId.bind Uuid.parseStr).toList.map (fun id =>
    (id, ⟨true, locVal "Which disk?".toList, some "u/1/disk.png".toList, true⟩)))

theorem branch_written_back_known :
    ∃ v, canonListJson (reader printedReader) wipeMarks publishedUrl
        (some (listContentFromParts (shownParts branchList))) (none, none) =
        .ok (utf8 (listJson publishedUrl v)) ∧
      List.Forall₂ (WrittenBack id wipeMarks) (branchList.steps.filter kept) v.steps :=
  branch_written_back printedReader_reads
    (fun v hunique hdepth => by rw [mapNumbers_id]; exact printedReader_ok hunique hdepth (Or.inr rfl))
    wipeMarks publishedUrl (none, none) branchList_maps branchList_read.1 branchList_read.2 rfl

/-- A list on a branch has a dangerous step that the current version does not know, and a step
without a title: the one loses its marks, the other is gone. -/
theorem branch_marks_lost :
    ∃ value parts v, printedReader.fromStr (listJson publishedUrl branchList) = .ok value ∧
      parseListValue value = some parts ∧
      canonListJson (reader printedReader) (fun _ => none) publishedUrl
        (some (listContentFromParts parts)) (none, none) = .ok (utf8 (listJson publishedUrl v)) ∧
      branchList.steps = [wipeStep, untitledStep, noteBlock] ∧ wipeStep.danger = true ∧
      ∃ wiped note, v.steps = [wiped, note] ∧ wiped.blockId = wipeStep.blockId ∧
        wiped.danger = false ∧ wiped.needsHuman = false ∧ wiped.imageKey = none := by
  refine ⟨_, _, _, branchList_read.1, branchList_read.2, rfl, rfl, rfl, ?_⟩
  rw [canonData_steps]
  exact ⟨_, _, rfl, rfl, rfl, rfl, rfl⟩

end Setfork.BranchMarks
