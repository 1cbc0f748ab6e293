/- CanonMirror
   digest: The canon built before insertion against the canon read back after it. -/
import Setfork.Rows

set_option autoImplicit false
set_option relaxedAutoImplicit false

namespace Setfork.CanonMirror

open Setfork.Foundation (Text trim Uuid)
open Setfork.Foundation.Json
open Setfork.Serialize
open Setfork.Rows

/-- The list columns a version is written with. -/
structure ListMeta where
  title : Value
  desc : Value
  tags : List Text
  ordered : Bool
  kind : Option Text
  skillHeader : Option Value

/-- The version data a web write commits. -/
def webVersionData (m : ListMeta) (version : Int) (note : Text) (ts : Int)
    (rows : List StepRow) : VersionData where
  version := version
  note := note
  ts := ts
  title := loc m.title
  desc := loc m.desc
  tags := m.tags
  ordered := m.ordered
  kind := m.kind.filter isValidKind
  skillHeader := m.skillHeader.bind skillHeaderValid
  steps := numbered serStepFromRow rows

/-- The version data a list is born with: no kind, the header of the request sanitised. -/
def createVersionData (m : ListMeta) (note : Text) (ts : Int) (rows : List StepRow) :
    VersionData where
  version := 1
  note := note
  ts := ts
  title := loc m.title
  desc := loc m.desc
  tags := m.tags
  ordered := m.ordered
  kind := none
  skillHeader := m.skillHeader.bind skillHeaderValid
  steps := numbered serStepFromRow rows

def saveMeta (m : ListMeta) (s : ListState) : ListState :=
  { s with
    title := Jsonb.store m.title
    desc := Jsonb.store m.desc
    tags := m.tags
    ordered := m.ordered
    listKind := m.kind
    skillHeader := m.skillHeader }

def saveVersion (version : Int) (note : Text) (createdAt : Int) (rows : List StepRow)
    (s : ListState) : ListState :=
  { s with
    currentVersion := version
    versions := s.versions ++ [⟨version, note, createdAt, insertStepRows rows⟩] }

/-- The rows a new list is born with. -/
def createList (column : Number → Number) (m : ListMeta) (note : Text) (createdAt : Int)
    (rows : List StepRow) : ListState where
  column := column
  currentVersion := 1
  title := Jsonb.store m.title
  desc := Jsonb.store m.desc
  tags := m.tags
  ordered := m.ordered
  listKind := none
  skillHeader := m.skillHeader.bind skillHeaderValid
  versions := [⟨1, note, createdAt, insertStepRows rows⟩]

/-- The data of one version as the history loader gives it. -/
def reloaded (s : ListState) (version : Int) : Option VersionData :=
  (loadBundleData s).find? (fun v => v.version = version)

/-- Whatever the canon takes from a row does not depend on the order of members, and the column gives
the numbers of a payload back. -/
structure RowStable (column : Number → Number) (r : StepRow) : Prop where
  title : loc r.title = locByKey r.title
  desc : loc r.desc = locByKey r.desc
  why : loc r.why = locByKey r.why
  section_ : loc r.section_ = locByKey r.section_
  ask : r.needsHuman = true → loc r.needsHumanAsk = locByKey r.needsHumanAsk
  subtasks : keptTexts loc r.subtasks = keptTexts locByKey r.subtasks
  refs : keptRefs loc r.refs = keptRefs locByKey r.refs
  content : isStepType r.blockType = false →
    Ordered jsonbRank r.content ∧ ∀ x ∈ numbersIn r.content, column x = x

/-- The same for the titles of the list and for all rows. -/
structure OrderStable (column : Number → Number) (m : ListMeta) (rows : List StepRow) : Prop where
  title : loc m.title = locByKey m.title
  desc : loc m.desc = locByKey m.desc
  rows : ∀ r ∈ rows, RowStable column r

theorem keptTexts_reorder (subtasks : Value) :
    keptTexts loc (reorder jsonbRank subtasks) = keptTexts locByKey subtasks := by
  cases subtasks with
  | null | bool | int | float | str | obj => rfl
  | arr items =>
    simp only [keptTexts, reorder, Value.asArr, Option.map_some, Option.getD_some]
    rw [reorderItems_eq_map, List.map_map]
    simp only [Function.comp_def, loc_reorder]

theorem refsFromJson_reorder (refs : Value) :
    refsFromJson (reorder jsonbRank refs) = keptRefs locByKey refs := by
  cases refs with
  | null | bool | int | float | str | obj => rfl
  | arr items =>
    simp only [refsFromJson, keptRefs, reorder, Value.asArr, Option.map_some, Option.getD_some]
    rw [reorderItems_eq_map, List.filterMap_map]
    congr 1
    funext x
    have hlabel : ((reorder jsonbRank x).get "label".toList).map loc =
        (x.get "label".toList).map locByKey := by
      rw [get_reorder, Option.map_map]
      simp only [Function.comp_def, loc_reorder]
    have hurl : ((reorder jsonbRank x).get "url".toList).bind Value.asStr =
        (x.get "url".toList).bind Value.asStr := by
      rw [get_reorder]
      cases x.get "url".toList <;> simp
    simp only [Function.comp_apply, hlabel, hurl]

private theorem presentText_injective : Function.Injective presentText := by
  intro s t h
  cases s <;> cases t <;> simp_all [presentText]

theorem isStepBlock_row (n : Int) (r : StepRow) :
    isStepBlock (serStepFromRow n r) = isStepType r.blockType := by
  cases h : isStepType r.blockType <;> simp [isStepBlock, serStepFromRow, h]

private theorem isStepBlock_load (column : Number → Number) (n : Int) (r : StepRow) :
    isStepBlock (loadStep column (insertStepRow n r)) = isStepType r.blockType := by
  cases h : isStepType r.blockType <;> simp [isStepBlock, loadStep, insertStepRow, Option.filter, h]

private theorem ask_eq_iff (column : Number → Number) (n : Int) (r : StepRow) (hmark : r.needsHuman = true) :
    (serStepFromRow n r).needsHumanAsk = (loadStep column (insertStepRow n r)).needsHumanAsk ↔
      loc r.needsHumanAsk = locByKey r.needsHumanAsk := by
  have hfilter (o : Option Text) : o.filter (fun _ => true) = o := by cases o <;> rfl
  simp only [serStepFromRow, loadStep, insertStepRow, hmark, hfilter, Option.map_some,
    Option.bind_some, Jsonb.value_store, loc_reorder]
  exact presentText_injective.eq_iff

theorem sameStep_iff (column : Number → Number) (n : Int) (r : StepRow) :
    SameStep (serStepFromRow n r) (loadStep column (insertStepRow n r)) ↔ RowStable column r := by
  constructor
  · intro h
    refine ⟨h.title.trans (loc_reorder r.title), h.desc.trans (loc_reorder r.desc),
      h.why.trans (loc_reorder r.why), h.section_.trans (loc_reorder r.section_),
      fun hmark => (ask_eq_iff column n r hmark).mp (h.needsHumanAsk hmark),
      h.subtasks.trans (keptTexts_reorder r.subtasks),
      h.refs.trans (refsFromJson_reorder r.refs), fun hblock => ?_⟩
    have hcontent := h.content (by rw [isStepBlock_row, hblock])
    simp only [serStepFromRow, loadStep, insertStepRow, hblock, Option.filter, Bool.not_false,
      if_true, Option.isSome_some, Option.map_some, Option.getD_some, Jsonb.value_store,
      Bool.false_eq_true, if_false] at hcontent
    exact (mapNumbers_reorder_eq_self_iff jsonbRank r.content).mp hcontent.symm
  · intro h
    refine ⟨rfl, rfl, ?_, ?_, ?_, h.title.trans (loc_reorder r.title).symm,
      h.desc.trans (loc_reorder r.desc).symm, rfl, rfl, rfl, rfl,
      fun hmark => (ask_eq_iff column n r hmark).mpr (h.ask hmark), rfl,
      h.why.trans (loc_reorder r.why).symm, h.section_.trans (loc_reorder r.section_).symm,
      h.subtasks.trans (keptTexts_reorder r.subtasks).symm,
      h.refs.trans (refsFromJson_reorder r.refs).symm⟩
    · rw [isStepBlock_row, isStepBlock_load]
    · intro hblock
      rw [isStepBlock_row] at hblock
      simp [serStepFromRow, loadStep, insertStepRow, hblock, Option.filter]
    · intro hblock
      rw [isStepBlock_row] at hblock
      simp only [serStepFromRow, loadStep, insertStepRow, hblock, Option.filter, Bool.not_false,
        if_true, Option.isSome_some, Option.map_some, Option.getD_some, Jsonb.value_store,
        Bool.false_eq_true, if_false]
      exact ((mapNumbers_reorder_eq_self_iff jsonbRank r.content).mpr (h.content hblock)).symm

theorem sameSteps_iff (column : Number → Number) (rows : List StepRow) :
    List.Forall₂ SameStep (numbered serStepFromRow rows)
        ((insertStepRows rows).map (loadStep column)) ↔ ∀ r ∈ rows, RowStable column r := by
  rw [insertStepRows, map_numbered]
  exact forall₂_numbered SameStep _ _ (RowStable column) (sameStep_iff column) rows

private theorem find_map_of_unique {vs : List VersionRecord} {f : VersionRecord → VersionData}
    (hf : ∀ v, (f v).version = v.version) {v : VersionRecord} (hv : v ∈ vs)
    (huniq : ∀ w ∈ vs, w.version = v.version → w = v) :
    (vs.map f).find? (fun d => d.version = v.version) = some (f v) := by
  induction vs with
  | nil => simp at hv
  | cons w vs ih =>
    by_cases hw : w.version = v.version
    · simp [huniq w List.mem_cons_self hw, hf]
    · have hvs : v ∈ vs := by
        rcases List.mem_cons.mp hv with rfl | h
        · exact absurd rfl hw
        · exact h
      rw [List.map_cons, List.find?_cons_of_neg (by simp [hf, hw])]
      exact ih hvs fun u hu => huniq u (List.mem_cons_of_mem w hu)

theorem reloaded_of_unique {s : ListState} {v : VersionRecord} (hv : v ∈ s.versions)
    (huniq : ∀ w ∈ s.versions, w.version = v.version → w = v) :
    reloaded s v.version = some (loadVersionData s v) := by
  refine find_map_of_unique (fun _ => rfl) ?_ ?_
  · exact (List.mem_insertionSort _).mpr hv
  · intro w hw
    exact huniq w ((List.mem_insertionSort _).mp hw)

theorem reloaded_saveVersion (s : ListState) (version : Int) (note : Text) (ts : Int)
    (rows : List StepRow) (hfresh : ∀ v ∈ s.versions, v.version ≠ version) :
    reloaded (saveVersion version note ts rows s) version =
      some (loadVersionData (saveVersion version note ts rows s)
        ⟨version, note, ts, insertStepRows rows⟩) := by
  refine reloaded_of_unique (v := ⟨version, note, ts, insertStepRows rows⟩) ?_ ?_
  · simp [saveVersion]
  · intro w hw hversion
    simp only [saveVersion, List.mem_append, List.mem_singleton] at hw
    rcases hw with hw | rfl
    · exact absurd hversion (hfresh w hw)
    · rfl

private theorem sameCanon_iff {column : Number → Number} {m : ListMeta} {rows : List StepRow}
    {v w : VersionData} (hv : v.steps = numbered serStepFromRow rows)
    (hw : w.steps = (insertStepRows rows).map (loadStep column))
    (hvtitle : v.title = loc m.title) (hwtitle : w.title = locByKey m.title)
    (hvdesc : v.desc = loc m.desc) (hwdesc : w.desc = locByKey m.desc) (htags : v.tags = w.tags)
    (hordered : v.ordered = w.ordered) (hkind : v.kind = w.kind)
    (hheader : v.skillHeader = w.skillHeader) (hversion : v.version = w.version) :
    SameCanon v w ↔ OrderStable column m rows := by
  constructor
  · intro h
    have hsteps := h.steps
    rw [hv, hw, sameSteps_iff] at hsteps
    exact ⟨hvtitle ▸ hwtitle ▸ h.title, hvdesc ▸ hwdesc ▸ h.desc, hsteps⟩
  · intro h
    refine ⟨?_, ?_, htags, hordered, hkind, by rw [hheader], hversion, ?_⟩
    · rw [hvtitle, hwtitle, h.title]
    · rw [hvdesc, hwdesc, h.desc]
    · rw [hv, hw, sameSteps_iff]
      exact h.rows

theorem web_canon_iff (schemaUrl : Text) (s : ListState) (m : ListMeta) (version : Int)
    (note : Text) (ts : Int) (rows : List StepRow) (hfresh : ∀ v ∈ s.versions, v.version ≠ version) :
    (∃ after, reloaded (saveVersion version note ts rows (saveMeta m s)) version = some after ∧
      listJson schemaUrl (webVersionData m version note ts rows) = listJson schemaUrl after) ↔
      OrderStable s.column m rows := by
  rw [reloaded_saveVersion (saveMeta m s) version note ts rows hfresh]
  simp only [Option.some.injEq, exists_eq_left', listJson_eq_iff]
  refine sameCanon_iff rfl ?_ rfl (loc_reorder m.title) rfl (loc_reorder m.desc) rfl rfl rfl rfl rfl
  rw [loadVersionData, orderedSteps_insertStepRows]
  rfl

theorem create_canon_iff (schemaUrl : Text) (column : Number → Number) (m : ListMeta) (note : Text)
    (ts : Int) (rows : List StepRow) :
    (∃ after, reloaded (createList column m note ts rows) 1 = some after ∧
      listJson schemaUrl (createVersionData m note ts rows) = listJson schemaUrl after) ↔
      OrderStable column m rows := by
  have hload : reloaded (createList column m note ts rows) 1 =
      some (loadVersionData (createList column m note ts rows) ⟨1, note, ts, insertStepRows rows⟩) := rfl
  rw [hload]
  simp only [Option.some.injEq, exists_eq_left', listJson_eq_iff]
  refine sameCanon_iff rfl ?_ rfl (loc_reorder m.title) rfl (loc_reorder m.desc) rfl rfl rfl ?_ rfl
  · rw [loadVersionData, orderedSteps_insertStepRows]
    rfl
  · exact (bind_skillHeaderValid_idem m.skillHeader).symm

/-- The canon committed before the rows are inserted is byte for byte the canon read back after
it exactly when nothing printed depends on the order of object members. -/
theorem canon_before_insertion_iff (schemaUrl : Text) (s : ListState) (m : ListMeta) (version : Int)
    (note : Text) (ts : Int) (rows : List StepRow) (hfresh : ∀ v ∈ s.versions, v.version ≠ version) :
    ((∃ after, reloaded (saveVersion version note ts rows (saveMeta m s)) version = some after ∧
      listJson schemaUrl (webVersionData m version note ts rows) = listJson schemaUrl after) ↔
      OrderStable s.column m rows) ∧
    ((∃ after, reloaded (createList s.column m note ts rows) 1 = some after ∧
      listJson schemaUrl (createVersionData m note ts rows) = listJson schemaUrl after) ↔
      OrderStable s.column m rows) :=
  ⟨web_canon_iff schemaUrl s m version note ts rows hfresh,
    create_canon_iff schemaUrl s.column m note ts rows⟩

def plainMeta : ListMeta := ⟨locVal "Redis".toList, .obj [], [], true, none, none⟩

/-- A presentation block with this content and no texts of its own. -/
def imageRow (content : Value) : StepRow where
  blockType := "image".toList
  content := content
  blockId := none
  title := .obj []
  desc := .obj []
  command := []
  imageKey := none
  level := .required
  why := .obj []
  section_ := .obj []
  subtasks := .arr []
  refs := .arr []
  needsHuman := false
  needsHumanAsk := .obj []
  danger := false

def captionFirst : Value :=
  .obj [("caption".toList, .str "scheme".toList), ("ref".toList, .str "a.png".toList)]

def bornList : ListState := createList id plainMeta "initial".toList 0 []

theorem canon_before_insertion_empty_image :
    (∀ v ∈ bornList.versions, v.version ≠ 2) ∧
    ((∃ after, reloaded (saveVersion 2 [] 0 [imageRow (.obj [])] (saveMeta plainMeta bornList)) 2 =
        some after ∧
      listJson [] (webVersionData plainMeta 2 [] 0 [imageRow (.obj [])]) = listJson [] after) ↔
      OrderStable id plainMeta [imageRow (.obj [])]) :=
  ⟨by decide, (canon_before_insertion_iff [] bornList plainMeta 2 [] 0 [imageRow (.obj [])]
    (by decide)).1⟩

/-- An image block whose caption stands before its reference comes back in the other order. -/
theorem canon_before_insertion_caption_first :
    ¬ ∃ after,
      reloaded (saveVersion 2 [] 0 [imageRow captionFirst] (saveMeta plainMeta bornList)) 2 =
        some after ∧
      listJson [] (webVersionData plainMeta 2 [] 0 [imageRow captionFirst]) =
        listJson [] after := by
  rw [web_canon_iff [] bornList plainMeta 2 [] 0 [imageRow captionFirst] (by decide)]
  intro h
  have hcontent := (h.rows _ List.mem_cons_self).content rfl
  have hpair : memberLe jsonbRank ("caption".toList, .str "scheme".toList)
      ("ref".toList, .str "a.png".toList) := List.rel_of_pairwise_cons hcontent.1.1 List.mem_cons_self
  exact absurd hpair (by decide)

end Setfork.CanonMirror
