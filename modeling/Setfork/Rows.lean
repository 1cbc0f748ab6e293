/- Rows
   digest: The database rows of a list, and the two roads from a step row to the canon. -/
import Mathlib.Data.List.Lex
import Setfork.Foundation.JsonNumbers
import Setfork.Foundation.Uuid
import Setfork.Serialize

set_option autoImplicit false
set_option relaxedAutoImplicit false

namespace Setfork.Rows

open Setfork.Foundation (Text trim utf8 Uuid)
open Setfork.Foundation.Json
open Setfork.Serialize

def jsonbRank (key : Text) : List ℕ := (utf8 key).length :: (utf8 key).map UInt8.toNat

structure Jsonb where
  value : Value
  ordered : Ordered jsonbRank value

def Jsonb.store (v : Value) : Jsonb := ⟨reorder jsonbRank v, ordered_reorder jsonbRank v⟩

@[simp] theorem Jsonb.value_store (v : Value) : (Jsonb.store v).value = reorder jsonbRank v := rfl

inductive Level where
  | required
  | recommended
  | optional
deriving DecidableEq

namespace Level

def parse (s : Text) : Level :=
  if trim s = "recommended".toList then recommended
  else if trim s = "optional".toList then optional
  else required

def asStr : Level → Text
  | required => "required".toList
  | recommended => "recommended".toList
  | optional => "optional".toList

theorem parse_asStr (l : Level) : parse l.asStr = l := by
  cases l <;> decide

end Level

def locVal (s : Text) : Value :=
  if (trim s).isEmpty then .obj [] else .obj [("en".toList, .str (trim s))]

/-- The text under `en`, or else the first text in the order of the members. -/
def textOf (members : List (Text × Value)) : Text :=
  (((find "en".toList members).bind Value.asStr) <|> members.findSome? (fun m => m.2.asStr)).getD []

def loc (v : Value) : Text := (v.asObj.map textOf).getD []

/-- The text chosen when the members are taken in the order of a `jsonb` column. -/
def locByKey (v : Value) : Text :=
  (v.asObj.map (fun members => textOf (members.insertionSort (memberLe jsonbRank)))).getD []

private theorem findSome_map_reorder (members : List (Text × Value)) :
    (members.map (fun m => (m.1, reorder jsonbRank m.2))).findSome? (fun m => m.2.asStr) =
      members.findSome? (fun m => m.2.asStr) := by
  rw [List.findSome?_map]
  congr 1
  funext m
  exact asStr_reorder jsonbRank m.2

private theorem map_insertionSort (members : List (Text × Value)) :
    (members.map (fun m => (m.1, reorder jsonbRank m.2))).insertionSort (memberLe jsonbRank) =
      (members.insertionSort (memberLe jsonbRank)).map
        (fun m => (m.1, reorder jsonbRank m.2)) :=
  (List.map_insertionSort (memberLe jsonbRank) (memberLe jsonbRank)
    (fun m : Text × Value => (m.1, reorder jsonbRank m.2)) members fun _ _ _ _ => Iff.rfl).symm

/-- Storage in a `jsonb` column makes the choice of a text follow the key order. -/
theorem loc_reorder (v : Value) : loc (reorder jsonbRank v) = locByKey v := by
  cases v with
  | null | bool | int | float | str | arr => rfl
  | obj members =>
    simp only [loc, locByKey, reorder, Value.asObj, Option.map_some, Option.getD_some, textOf,
      find_insertionSort, find_reorderMembers]
    rw [reorderMembers_eq_map, map_insertionSort, findSome_map_reorder]
    cases find "en".toList members <;> simp

/-- A step row on its way into the database. -/
structure StepRow where
  blockType : Text
  content : Value
  blockId : Option Uuid
  title : Value
  desc : Value
  command : Text
  imageKey : Option Text
  level : Level
  why : Value
  section_ : Value
  subtasks : Value
  refs : Value
  needsHuman : Bool
  needsHumanAsk : Value
  danger : Bool

structure StepRecord where
  n : Int
  blockId : Option Uuid
  type : Option Text
  content : Option Jsonb
  title : Jsonb
  desc : Jsonb
  command : Text
  imageKey : Option Text
  level : Level
  needsHuman : Option Bool
  needsHumanAsk : Option Jsonb
  danger : Option Bool
  why : Jsonb
  section_ : Jsonb
  subtasks : Jsonb
  refs : Jsonb

def keptTexts (text : Value → Text) (subtasks : Value) : List Text :=
  (subtasks.asArr.map (fun a => (a.map text).filter (fun s => !s.isEmpty))).getD []

/-- The references of an array that live, with their labels read by `text`. -/
def keptRefs (text : Value → Text) (refs : Value) : List StepRef :=
  (refs.asArr.map (fun a => a.filterMap (fun x =>
    let label := ((x.get "label".toList).map text).getD []
    let url := (x.get "url".toList).bind Value.asStr
    if keepsRef label url then some ⟨label, url⟩ else none))).getD []

def refsFromJson (refs : Value) : List StepRef := keptRefs loc refs

def presentText (s : Text) : Option Text := if s.isEmpty then none else some s

/-- The canon step of a row that is not in the database yet. -/
def serStepFromRow (n : Int) (r : StepRow) : SerStep where
  n := n
  blockType := if isStepType r.blockType then none else some r.blockType
  content := if isStepType r.blockType then .null else r.content
  blockId := r.blockId.map Uuid.toString
  title := loc r.title
  desc := loc r.desc
  command := r.command
  imageKey := r.imageKey
  level := r.level.asStr
  needsHuman := r.needsHuman
  needsHumanAsk := (presentText (loc r.needsHumanAsk)).filter (fun _ => r.needsHuman)
  danger := r.danger
  why := loc r.why
  section_ := loc r.section_
  subtasks := keptTexts loc r.subtasks
  refs := refsFromJson r.refs

def insertStepRow (n : Int) (r : StepRow) : StepRecord where
  n := n
  blockId := r.blockId
  type := some r.blockType
  content := some (Jsonb.store r.content)
  title := Jsonb.store r.title
  desc := Jsonb.store r.desc
  command := r.command
  imageKey := r.imageKey
  level := r.level
  needsHuman := some r.needsHuman
  needsHumanAsk := some (Jsonb.store r.needsHumanAsk)
  danger := some r.danger
  why := Jsonb.store r.why
  section_ := Jsonb.store r.section_
  subtasks := Jsonb.store r.subtasks
  refs := Jsonb.store r.refs

/-- Rows are numbered from one in their order. -/
def numbered {α β : Type} (f : Int → α → β) (rows : List α) : List β :=
  rows.mapIdx (fun i r => f ((i : Int) + 1) r)

theorem forall₂_numbered {α β γ : Type} (R : β → γ → Prop) (f : Int → α → β) (g : Int → α → γ)
    (P : α → Prop) (hP : ∀ n a, R (f n a) (g n a) ↔ P a) (rows : List α) :
    List.Forall₂ R (numbered f rows) (numbered g rows) ↔ ∀ a ∈ rows, P a := by
  rw [List.forall₂_iff_get]
  simp only [numbered, List.length_mapIdx, true_and, List.get_eq_getElem, List.getElem_mapIdx, hP]
  constructor
  · intro h a ha
    obtain ⟨i, hi, rfl⟩ := List.getElem_of_mem ha
    exact h i hi hi
  · intro h i hi _
    exact h _ (List.getElem_mem hi)

theorem forall₂_self_numbered {α β : Type} (R : α → β → Prop) (f : Int → α → β) (rows : List α) :
    List.Forall₂ R rows (numbered f rows) ↔
      ∀ i (h : i < rows.length), R rows[i] (f ((i : Int) + 1) rows[i]) := by
  rw [List.forall₂_iff_get]
  simp only [numbered, List.length_mapIdx, true_and, List.get_eq_getElem, List.getElem_mapIdx]
  exact ⟨fun h i hi => h i hi hi, fun h i hi _ => h i hi⟩

theorem map_numbered {α β γ : Type} (f : Int → α → β) (g : β → γ) (rows : List α) :
    (numbered f rows).map g = numbered (fun n a => g (f n a)) rows := by
  refine List.ext_getElem (by simp [numbered]) fun i _ _ => ?_
  simp only [numbered, List.getElem_map, List.getElem_mapIdx]

theorem numbered_map {α β γ : Type} (f : Int → β → γ) (g : α → β) (rows : List α) :
    numbered f (rows.map g) = numbered (fun n a => f n (g a)) rows := by
  refine List.ext_getElem (by simp [numbered]) fun i _ _ => ?_
  simp only [numbered, List.getElem_map, List.getElem_mapIdx]

def insertStepRows (rows : List StepRow) : List StepRecord := numbered insertStepRow rows

/-- The canon step of a row read from the database, whose `jsonb` columns give a number back as
`column` says. -/
def loadStep (column : Number → Number) (sr : StepRecord) : SerStep :=
  let blockType := sr.type.filter (fun t => !isStepType t)
  { n := sr.n
    blockType := blockType
    content :=
      if blockType.isSome then
        (sr.content.map (fun c => mapNumbers column c.value)).getD .null
      else .null
    blockId := sr.blockId.map Uuid.toString
    title := loc sr.title.value
    desc := loc sr.desc.value
    command := sr.command
    imageKey := sr.imageKey
    level := sr.level.asStr
    needsHuman := sr.needsHuman.getD false
    needsHumanAsk := (sr.needsHumanAsk.map (fun v => loc v.value)).bind presentText
    danger := sr.danger.getD false
    why := loc sr.why.value
    section_ := loc sr.section_.value
    subtasks := keptTexts loc sr.subtasks.value
    refs := refsFromJson sr.refs.value }

structure VersionRecord where
  version : Int
  note : Text
  createdAt : Int
  steps : List StepRecord

/-- The row of a list together with its versions, in a database that keeps numbers of `jsonb` columns
as decimals: what such a column gives back for a number is `column`. -/
structure ListState where
  column : Number → Number
  currentVersion : Int
  title : Jsonb
  desc : Jsonb
  tags : List Text
  ordered : Bool
  listKind : Option Text
  skillHeader : Option Value
  versions : List VersionRecord

def recordLe (a b : StepRecord) : Prop := a.n ≤ b.n

instance : DecidableRel recordLe := fun a b => inferInstanceAs (Decidable (a.n ≤ b.n))

def versionLe (a b : VersionRecord) : Prop := a.version ≤ b.version

instance : DecidableRel versionLe := fun a b => inferInstanceAs (Decidable (a.version ≤ b.version))

def orderedSteps (v : VersionRecord) : List StepRecord := v.steps.insertionSort recordLe

/-- The version data of one version row. -/
def loadVersionData (s : ListState) (v : VersionRecord) : VersionData where
  version := v.version
  note := v.note
  ts := v.createdAt
  title := loc s.title.value
  desc := loc s.desc.value
  tags := s.tags
  ordered := s.ordered
  kind := s.listKind.filter isValidKind
  skillHeader := s.skillHeader.bind skillHeaderValid
  steps := (orderedSteps v).map (loadStep s.column)

/-- The whole history of a list, oldest version first. -/
def loadBundleData (s : ListState) : List VersionData :=
  (s.versions.insertionSort versionLe).map (loadVersionData s)

private theorem pairwise_mapIdx (rows : List StepRow) :
    (insertStepRows rows).Pairwise recordLe := by
  rw [insertStepRows, numbered, List.pairwise_iff_getElem]
  intro i j hi hj hij
  simp only [List.getElem_mapIdx, recordLe, insertStepRow]
  omega

/-- Rows come back in the order in which they were inserted. -/
theorem orderedSteps_insertStepRows (version : Int) (note : Text) (createdAt : Int)
    (rows : List StepRow) :
    orderedSteps ⟨version, note, createdAt, insertStepRows rows⟩ = insertStepRows rows :=
  List.Pairwise.insertionSort_eq (pairwise_mapIdx rows)

end Setfork.Rows
