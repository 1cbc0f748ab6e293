/- PublishedCanon
   digest: Which blocks of a version that a client wrote come back from its own canon. -/
import Setfork.Reproject
import Setfork.Suggestions

set_option autoImplicit false
set_option relaxedAutoImplicit false

namespace Setfork.PublishedCanon

open Setfork.Foundation (Text Uuid utf8)
open Setfork.Foundation.Json
open Setfork.Serialize (SerStep VersionData listJson storageType isStepType isStepBlock
  isStepType_storageType)
open Setfork.Rows
open Setfork.CanonMirror
open Setfork.Project
open Setfork.Reproject
open Setfork.Wire

/-- An identity that is no UUID is dropped. -/
def blockIdOf (s : NewStep) : Option Uuid := Uuid.parseStr s.blockId

section Doors

variable (fromStr : Text → Option Value)

def stepRow (s : NewStep) : StepRow where
  blockType := storageType s.type
  content := contentValue fromStr s.type s.contentJson
  blockId := blockIdOf s
  title := locJson s.title
  desc := locJson s.desc
  command := s.command
  imageKey := if s.imageRef.isEmpty then none else some s.imageRef
  level := Level.parse s.level
  why := locJson s.why
  section_ := locJson s.section_
  subtasks := .arr (s.subtasks.map (fun t => locJson (some t)))
  refs := refsJson s.refs
  needsHuman := s.needsHuman
  needsHumanAsk := if s.needsHuman then locJson s.needsHumanAsk else .obj []
  danger := s.danger

/-- A version that a client writes, into a list that is there or with a new one. -/
inductive Published (steps : List NewStep) : VersionData → Prop
  | web (m : ListMeta) (version : Int) (note : Text) (ts : Int)
      (number : fitsInt32 version = true) (header : ∀ h ∈ m.skillHeader, UniqueKeys h) :
      Published steps (webVersionData m version note ts (steps.map (stepRow fromStr)))
  | create (m : ListMeta) (note : Text) (ts : Int) (header : ∀ h ∈ m.skillHeader, UniqueKeys h) :
      Published steps (createVersionData m note ts (steps.map (stepRow fromStr)))

/-- A block, or a step whose title has a text that is not blank. -/
def titled (s : NewStep) : Bool := !isStepType s.type || notBlank (loc (locJson s.title))

variable {fromStr} {steps : List NewStep} {v : VersionData}

theorem Published.steps_eq (hv : Published fromStr steps v) :
    v.steps = numbered (fun n s => serStepFromRow n (stepRow fromStr s)) steps := by
  cases hv with
  | web => exact numbered_map serStepFromRow (stepRow fromStr) steps
  | create => exact numbered_map serStepFromRow (stepRow fromStr) steps

theorem Published.header_maps (hv : Published fromStr steps v) :
    ∀ h ∈ v.skillHeader, UniqueKeys h := by
  cases hv with
  | web m version note ts number header =>
    intro h hh
    obtain ⟨w, hw, hvalid⟩ := Option.bind_eq_some_iff.mp hh
    exact Serialize.uniqueKeys_skillHeaderValid (header w hw) hvalid
  | create m note ts header =>
    intro h hh
    obtain ⟨w, hw, hvalid⟩ := Option.bind_eq_some_iff.mp hh
    exact Serialize.uniqueKeys_skillHeaderValid (header w hw) hvalid

private theorem isStepBlock_stepRow (n : Int) (s : NewStep) :
    isStepBlock (serStepFromRow n (stepRow fromStr s)) = isStepType s.type := by
  rw [isStepBlock_row]
  exact isStepType_storageType s.type

theorem kept_stepRow (n : Int) (s : NewStep) :
    kept (serStepFromRow n (stepRow fromStr s)) = titled s := by
  rw [kept, isStepBlock_stepRow]
  rfl

theorem Published.kept_eq (hv : Published fromStr steps v) : v.steps.map kept = steps.map titled := by
  rw [hv.steps_eq, map_numbered]
  simp only [kept_stepRow]
  refine List.ext_getElem (by simp [numbered]) fun i _ _ => ?_
  simp only [numbered, List.getElem_map, List.getElem_mapIdx]

private theorem Published.mem_steps (hv : Published fromStr steps v) {t : SerStep}
    (ht : t ∈ v.steps) : ∃ s ∈ steps, ∃ n, t = serStepFromRow n (stepRow fromStr s) := by
  rw [hv.steps_eq, numbered] at ht
  obtain ⟨i, hi, rfl⟩ := List.mem_mapIdx.mp ht
  exact ⟨steps[i], List.getElem_mem hi, _, rfl⟩

theorem Published.numbers (hcount : steps.length ≤ 2147483647) (hv : Published fromStr steps v) :
    NumbersFit v := by
  refine ⟨?_, ?_⟩
  · cases hv with
    | web m version note ts number header => exact number
    | create => rfl
  · rw [hv.steps_eq]
    exact fits_numbered (fun _ _ => rfl) hcount

theorem Published.maps (hmaps : ∀ t v, fromStr t = some v → UniqueKeys v)
    (hcount : steps.length ≤ 2147483647) (hv : Published fromStr steps v) : VersionMaps v := by
  refine ⟨fun t ht => ?_, hv.header_maps, hv.numbers hcount⟩
  obtain ⟨s, -, n, rfl⟩ := hv.mem_steps ht
  simp only [serStepFromRow]
  split_ifs
  · trivial
  · exact uniqueKeys_contentValue hmaps s.type s.contentJson

theorem Published.shallow (hv : Published fromStr steps v)
    (hdepth : ∀ s ∈ steps, depth (contentValue fromStr s.type s.contentJson) ≤ 124) :
    Shallow v := by
  intro t ht hblock
  obtain ⟨s, hs, n, rfl⟩ := hv.mem_steps ht
  have hcontent : (serStepFromRow n (stepRow fromStr s)).content =
      contentValue fromStr s.type s.contentJson := by
    rw [isStepBlock_row] at hblock
    exact if_neg (by simp [hblock])
  rw [hcontent]
  exact hdepth s hs

end Doors

/-- The parsed form of a canon step, with the numbers of its payload as the parser reads them. -/
def readBack {schemaUrl : Text} (parser : Parser schemaUrl) (t : SerStep) : ProjStep :=
  projOf (changeStep parser.read t)

theorem parseSteps_fromSlice {schemaUrl : Text} (parser : Parser schemaUrl) {v : VersionData}
    (hmaps : VersionMaps v) (hshallow : Shallow v) :
    ∃ raw, parser.fromSlice (utf8 (listJson schemaUrl v)) = some raw ∧
      parseSteps (raw.steps.getD []) = (v.steps.filter kept).map (readBack parser) := by
  refine ⟨_, (parser.fromSlice_listJson hmaps).1 hshallow, ?_⟩
  change parseSteps ((v.steps.map (changeStep parser.read)).map rawOfStep) = _
  rw [parseSteps_rawOfSteps, List.filter_map, List.map_map]
  rfl

/-- The canon of a version that a client wrote gives back its blocks in their order, without the
steps that have no title; so all of them come back exactly when every step has one. Only the numbers
of a payload are as the parser reads them. -/
theorem published_blocks_read_back {schemaUrl : Text} (parser : Parser schemaUrl)
    {fromStr : Text → Option Value} (hmaps : ∀ t v, fromStr t = some v → UniqueKeys v)
    {steps : List NewStep} (hcount : steps.length ≤ 2147483647) {v : VersionData}
    (hv : Published fromStr steps v)
    (hdepth : ∀ s ∈ steps, depth (contentValue fromStr s.type s.contentJson) ≤ 124) :
    ∃ raw, parser.fromSlice (utf8 (listJson schemaUrl v)) = some raw ∧
      parseSteps (raw.steps.getD []) = (v.steps.filter kept).map (readBack parser) ∧
      v.steps.map kept = steps.map titled ∧
      ((parseSteps (raw.steps.getD [])).length = v.steps.length ↔ ∀ s ∈ steps, titled s) := by
  obtain ⟨raw, hraw, hsteps⟩ := parseSteps_fromSlice parser (hv.maps hmaps hcount) (hv.shallow hdepth)
  have hkept := hv.kept_eq
  refine ⟨raw, hraw, hsteps, hkept, ?_⟩
  rw [hsteps, List.length_map, List.length_filter_eq_length_iff]
  have hall : (∀ t ∈ v.steps, kept t = true) ↔ ∀ b ∈ v.steps.map kept, b = true := by
    rw [List.forall_mem_map]
  rw [hall, hkept, List.forall_mem_map]

def noteJson : Text := "\x7b\"text\":\"Mind the gap\"\x7d".toList

def readNote (t : Text) : Option Value :=
  if t = noteJson then some (.obj [("text".toList, .str "Mind the gap".toList)]) else none

/-- The first version of a list with these steps. -/
def firstVersion (steps : List NewStep) : VersionData :=
  createVersionData plainMeta [] 0 (steps.map (stepRow readNote))

theorem published_firstVersion (steps : List NewStep) :
    Published readNote steps (firstVersion steps) :=
  .create plainMeta [] 0 fun _ h => by cases h

theorem readNote_maps (t : Text) (v : Value) (h : readNote t = some v) : UniqueKeys v := by
  unfold readNote at h
  split_ifs at h
  obtain rfl := Option.some.inj h
  exact ⟨List.nodup_singleton _, trivial, trivial⟩

def untitledStep : NewStep := { Suggestions.cleanUp [] [] false with title := some ∅ }

/-- A destructive step, a note with its payload, and a step that asks a human. -/
def guide : List NewStep :=
  [Suggestions.cleanUp [] [] true, Suggestions.cleanUp "text".toList noteJson false,
    { Suggestions.cleanUp [] [] false with
      needsHuman := true
      needsHumanAsk := some (Suggestions.inEnglish "Which disk?".toList) }]

private theorem depth_guide : ∀ s ∈ guide, depth (contentValue readNote s.type s.contentJson) ≤ 124 := by
  intro s hs
  rcases List.mem_cons.mp hs with rfl | hs
  · decide
  · rcases List.mem_cons.mp hs with rfl | hs
    · decide
    · obtain rfl := List.mem_singleton.mp hs
      decide

theorem published_blocks_read_back_titled :
    ∃ raw, (canonParser []).fromSlice (utf8 (listJson [] (firstVersion guide))) = some raw ∧
      parseSteps (raw.steps.getD []) =
        ((firstVersion guide).steps.filter kept).map (readBack (canonParser [])) ∧
      (firstVersion guide).steps.map kept = [true, true, true] ∧
      (parseSteps (raw.steps.getD [])).length = (firstVersion guide).steps.length := by
  obtain ⟨raw, hraw, hsteps, hkept, hcount⟩ := published_blocks_read_back (canonParser [])
    readNote_maps (by decide) (published_firstVersion guide) depth_guide
  have htitled : guide.map titled = [true, true, true] := by decide
  refine ⟨raw, hraw, hsteps, hkept.trans htitled, hcount.mpr fun s hs => ?_⟩
  have hmem := List.mem_map_of_mem (f := titled) hs
  rw [htitled] at hmem
  simpa using hmem

/-- The version has one block, and its canon none that is read. -/
theorem untitled_step_dropped : ∃ raw,
    (canonParser []).fromSlice (utf8 (listJson [] (firstVersion [untitledStep]))) = some raw ∧
      (firstVersion [untitledStep]).steps.length = 1 ∧ parseSteps (raw.steps.getD []) = [] := by
  have hv := published_firstVersion [untitledStep]
  have hdepth : ∀ s ∈ [untitledStep],
      depth (contentValue readNote s.type s.contentJson) ≤ 124 :=
    List.forall_mem_singleton.mpr (by decide)
  obtain ⟨raw, hraw, hsteps⟩ := parseSteps_fromSlice (canonParser [])
    (hv.maps readNote_maps (by decide)) (hv.shallow hdepth)
  refine ⟨raw, hraw, rfl, ?_⟩
  have hdropped : (firstVersion [untitledStep]).steps.filter kept = [] := by
    rw [List.filter_eq_nil_iff]
    intro t ht hkept
    obtain ⟨s, hs, n, rfl⟩ := hv.mem_steps ht
    obtain rfl := List.mem_singleton.mp hs
    rw [kept_stepRow] at hkept
    exact absurd hkept (by decide)
  rw [hsteps, hdropped]
  rfl

end Setfork.PublishedCanon
