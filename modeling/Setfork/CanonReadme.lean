/- CanonReadme
   digest: The README made from a printed canon is the README of the version that was printed. -/
import Setfork.EditorRoundTrip
import Setfork.Project

set_option autoImplicit false
set_option relaxedAutoImplicit false

namespace Setfork.CanonReadme

open Setfork.Foundation (Text utf8)
open Setfork.Foundation.Json
open Setfork.Serialize
open Setfork.Readme
open Setfork.Project
open Setfork.EditorRoundTrip (publishedUrl)
open Setfork.EditorRoundTrip (nested depth_nested uniqueKeys_nested)

structure SameShown (s t : SerStep) : Prop where
  isStep : isStepBlock s = isStepBlock t
  block : isStepBlock s = false → s.blockType = t.blockType ∧
    ∀ key, contentText s.content key = contentText t.content key
  title : s.title = t.title
  desc : s.desc = t.desc
  command : s.command = t.command
  level : s.level = t.level
  why : s.why = t.why
  section_ : s.section_ = t.section_
  subtasks : s.subtasks = t.subtasks
  refs : s.refs = t.refs

structure SameReadme (v w : VersionData) : Prop where
  title : v.title = w.title
  desc : v.desc = w.desc
  tags : v.tags = w.tags
  ordered : v.ordered = w.ordered
  version : v.version = w.version
  steps : List.Forall₂ SameShown v.steps w.steps

theorem SameShown.trans {r s t : SerStep} (h : SameShown r s) (h' : SameShown s t) :
    SameShown r t where
  isStep := h.isStep.trans h'.isStep
  block := by
    intro hblock
    obtain ⟨htype, hcontent⟩ := h.block hblock
    obtain ⟨htype', hcontent'⟩ := h'.block (h.isStep ▸ hblock)
    exact ⟨htype.trans htype', fun key => (hcontent key).trans (hcontent' key)⟩
  title := h.title.trans h'.title
  desc := h.desc.trans h'.desc
  command := h.command.trans h'.command
  level := h.level.trans h'.level
  why := h.why.trans h'.why
  section_ := h.section_.trans h'.section_
  subtasks := h.subtasks.trans h'.subtasks
  refs := h.refs.trans h'.refs

theorem SameShown.blockLines {s t : SerStep} (h : SameShown s t) (hblock : isStepBlock s = false) :
    blockLines s = blockLines t := by
  obtain ⟨htype, hcontent⟩ := h.block hblock
  simp only [Readme.blockLines, htype, hcontent, h.refs]

theorem SameShown.stepLines {s t : SerStep} (h : SameShown s t) (marker : Text) :
    stepLines marker s = stepLines marker t := by
  simp only [Readme.stepLines, h.title, h.desc, h.command, h.level, h.why, h.subtasks, h.refs]

theorem bodyLines_congr {a b : List SerStep} (h : List.Forall₂ SameShown a b) (ordered : Bool)
    (section_ : Text) (number : Nat) :
    bodyLines ordered section_ number a = bodyLines ordered section_ number b := by
  induction h generalizing section_ number with
  | nil => rfl
  | @cons s t a b hst _ ih =>
    rw [bodyLines, bodyLines, ← hst.isStep]
    cases hstep : isStepBlock s with
    | false =>
      simp only [Bool.not_false, if_true]
      rw [hst.blockLines hstep, ih]
    | true =>
      simp only [Bool.not_true, Bool.false_eq_true, if_false]
      rw [hst.stepLines, hst.section_, ih]

theorem stepCount_congr {a b : List SerStep} (h : List.Forall₂ SameShown a b) :
    (a.filter isStepBlock).length = (b.filter isStepBlock).length := by
  induction h with
  | nil => rfl
  | @cons s t a b hst _ ih =>
    rw [List.filter_cons, List.filter_cons, ← hst.isStep]
    cases isStepBlock s with
    | false => exact ih
    | true => exact congrArg Nat.succ ih

theorem readme_congr {v w : VersionData} (h : SameReadme v w) : readme v = readme w := by
  have hlines : readmeLines v = readmeLines w := by
    simp only [readmeLines, h.title, h.desc, h.tags, h.ordered, h.version,
      stepCount_congr h.steps, bodyLines_congr h.steps]
  simp only [readme, hlines]

theorem sameShown_of_canon (number : Int) (t : SerStep) :
    SameShown (readmeStep number (rawOfStep t)) t := by
  have hrefs : (readmeStep number (rawOfStep t)).refs = t.refs := by
    show (t.refs.map rawOfRef).map _ = t.refs
    rw [List.map_map]
    refine List.map_id'' (fun r => ?_) t.refs
    obtain ⟨label, url⟩ := r
    cases label <;> rfl
  cases hstep : isStepBlock t with
  | true =>
    have htype : (readmeStep number (rawOfStep t)).blockType = none := by
      simp [readmeStep, rawOfStep, hstep]
    have hsame : isStepBlock (readmeStep number (rawOfStep t)) = true := by
      rw [isStepBlock, htype]
      rfl
    refine ⟨hsame.trans hstep.symm, fun h => ?_, rfl, rfl, rfl, rfl, rfl, rfl, rfl, hrefs⟩
    rw [hsame] at h
    cases h
  | false =>
    have htype : (readmeStep number (rawOfStep t)).blockType = t.blockType := by
      cases hnone : t.blockType with
      | none =>
        rw [isStepBlock, hnone] at hstep
        cases hstep
      | some blockType => simp [readmeStep, rawOfStep, hstep, hnone]
    have hcontent : (readmeStep number (rawOfStep t)).content = t.content := by
      have hnull : (nonNull t.content).getD .null = t.content := by
        cases t.content <;> rfl
      simp [readmeStep, rawOfStep, hstep, hnull]
    have hsame : isStepBlock (readmeStep number (rawOfStep t)) = isStepBlock t := by
      rw [isStepBlock, htype, isStepBlock]
    exact ⟨hsame, fun _ => ⟨htype, fun key => by rw [hcontent]⟩, rfl, rfl, rfl, rfl, rfl, rfl, rfl, hrefs⟩

theorem sameShown_changed (f : Number → Number) (t : SerStep) :
    SameShown (changeStep f t) t := by
  refine ⟨rfl, fun _ => ⟨rfl, fun key => ?_⟩, rfl, rfl, rfl, rfl, rfl, rfl, rfl, rfl⟩
  rw [changeStep, contentText, contentText, get_mapNumbers]
  cases t.content.get key with
  | none => rfl
  | some v => rw [Option.map_some, Option.bind_some, Option.bind_some, asStr_mapNumbers]

theorem sameShown_of_canons (f : Number → Number) (v : VersionData) :
    List.Forall₂ SameShown
      (((changeNumbers f v).steps.map rawOfStep).mapIdx fun i r => readmeStep ((i : Int) + 1) r)
      v.steps := by
  rw [List.forall₂_iff_get]
  refine ⟨by simp [changeNumbers], fun i h h' => ?_⟩
  simp only [List.get_eq_getElem, List.getElem_mapIdx, List.getElem_map, changeNumbers]
  exact (sameShown_of_canon _ _).trans (sameShown_changed f _)

theorem lookup_readme (schemaUrl : Text) (v : VersionData) :
    (versionFiles schemaUrl v).lookup "README.md".toList = some (readme v) := rfl

/-- The two roads to the README meet exactly when every payload is within the nesting limit of the
parser; past it no README is made. -/
theorem canon_readme_iff {schemaUrl : Text} (parser : Parser schemaUrl) {v : VersionData}
    (hmaps : VersionMaps v) :
    (readmeFromCanon parser.fromSlice (utf8 (listJson schemaUrl v)) =
        (versionFiles schemaUrl v).lookup "README.md".toList) ↔
      ∀ t ∈ v.steps, isStepBlock t = false → depth t.content ≤ 124 := by
  obtain ⟨hread, hrefused⟩ := parser.fromSlice_listJson hmaps
  rw [lookup_readme]
  constructor
  · intro h
    by_contra hdeep
    rw [readmeFromCanon, hrefused hdeep] at h
    cases h
  · intro hshallow
    rw [readmeFromCanon, hread hshallow]
    exact congrArg some (readme_congr ⟨rfl, rfl, rfl, rfl, rfl, sameShown_of_canons parser.read v⟩)

def bareStep : SerStep where
  n := 1
  blockType := none
  content := .null
  blockId := none
  title := "First".toList
  desc := []
  command := []
  imageKey := none
  level := []
  needsHuman := false
  needsHumanAsk := none
  danger := false
  why := []
  section_ := []
  subtasks := []
  refs := []

/-- A step and a block whose payload is nested this deep. -/
def nestedVersion (n : Nat) : VersionData where
  version := 1
  note := []
  ts := 0
  title := "List".toList
  desc := []
  tags := []
  ordered := true
  kind := none
  skillHeader := none
  steps := [bareStep,
    { bareStep with n := 2, blockType := some "text".toList, content := nested n }]

theorem nestedVersion_maps (n : Nat) : VersionMaps (nestedVersion n) where
  content t ht := by
    rcases List.mem_cons.mp ht with rfl | ht
    · exact trivial
    · rw [List.mem_singleton.mp ht]
      exact uniqueKeys_nested n
  header h hh := by cases hh
  numbers := by
    refine ⟨rfl, fun t ht => ?_⟩
    rcases List.mem_cons.mp ht with rfl | ht
    · rfl
    · rw [List.mem_singleton.mp ht]
      rfl

theorem nestedVersion_shallow (n : Nat) : Shallow (nestedVersion n) ↔ n ≤ 124 := by
  constructor
  · intro h
    have hdepth := h _ (List.mem_cons_of_mem _ List.mem_cons_self) rfl
    rwa [depth_nested] at hdepth
  · intro hn t ht hblock
    rcases List.mem_cons.mp ht with rfl | ht
    · cases hblock
    · rw [List.mem_singleton.mp ht, depth_nested]
      exact hn

theorem canon_readme_nested :
    readmeFromCanon (canonParser publishedUrl).fromSlice
        (utf8 (listJson publishedUrl (nestedVersion 124))) =
      (versionFiles publishedUrl (nestedVersion 124)).lookup "README.md".toList :=
  (canon_readme_iff (canonParser publishedUrl) (nestedVersion_maps 124)).mpr
    ((nestedVersion_shallow 124).mpr (Nat.le_refl 124))

/-- One level more, and the canon of a version makes no README. -/
theorem deep_canon_without_readme :
    VersionMaps (nestedVersion 125) ∧
      readmeFromCanon (canonParser publishedUrl).fromSlice
        (utf8 (listJson publishedUrl (nestedVersion 125))) ≠
        (versionFiles publishedUrl (nestedVersion 125)).lookup "README.md".toList := by
  have hdeep : ¬ Shallow (nestedVersion 125) := by
    rw [nestedVersion_shallow]
    omega
  have hrefused := ((canonParser publishedUrl).fromSlice_listJson (nestedVersion_maps 125)).2 hdeep
  refine ⟨nestedVersion_maps 125, ?_⟩
  rw [readmeFromCanon, hrefused, lookup_readme]
  exact (Option.some_ne_none _).symm

end Setfork.CanonReadme
