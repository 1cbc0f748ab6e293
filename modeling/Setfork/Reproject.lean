/- Reproject
   digest: Projecting a printed canon: exactly which canons come back from the database unchanged. -/
import Setfork.Carryover

set_option autoImplicit false
set_option relaxedAutoImplicit false

namespace Setfork.Reproject

open Setfork.Foundation (Text trim trim_trim Trimmed Uuid)
open Setfork.Foundation.Json
open Setfork.Serialize
open Setfork.Rows
open Setfork.CanonMirror
open Setfork.Project
open Setfork.Carryover

/-- A canon step that survives the parse. -/
def kept (t : SerStep) : Bool := !isStepBlock t || notBlank t.title

def projOf (t : SerStep) : ProjStep where
  imageKey := printedImageKey t
  needsHuman := if t.needsHuman then some true else none
  needsHumanAsk := (if t.needsHuman then t.needsHumanAsk else none).filter notBlank
  danger := if t.danger then some true else none
  blockType := if isStepBlock t then [] else t.blockType.getD []
  content := if isStepBlock t then .null else t.content
  blockId := t.blockId.filter notBlank
  title := t.title
  desc := t.desc
  command := t.command
  level := t.level
  why := t.why
  section_ := t.section_
  subtasks := t.subtasks
  refs := (t.refs.filter (fun r => keepsRef r.label r.url)).map (fun r => ⟨r.label, r.url⟩)

theorem getD_label (r : StepRef) : (rawOfRef r).label.getD [] = r.label := by
  obtain ⟨label, url⟩ := r
  cases label <;> rfl

private theorem getD_nonNull (v : Value) : (nonNull v).getD .null = v := by
  cases v <;> rfl

private theorem isStepType_of_block {t : SerStep} (h : isStepBlock t = false) :
    ∃ bt, t.blockType = some bt ∧ isStepType bt = false := by
  unfold isStepBlock at h
  cases hbt : t.blockType with
  | none => simp [hbt] at h
  | some bt => exact ⟨bt, rfl, by simpa [hbt] using h⟩

theorem isStepType_rawOfStep (t : SerStep) :
    isStepType ((rawOfStep t).blockType.getD []) = isStepBlock t := by
  rw [rawOfStep]
  cases h : isStepBlock t with
  | true => rfl
  | false =>
    obtain ⟨bt, hbt, hblock⟩ := isStepType_of_block h
    rw [hbt]
    exact hblock

theorem parseStep_rawOfStep (t : SerStep) :
    parseStep (rawOfStep t) = if kept t then some (projOf t) else none := by
  have hrefs : ((t.refs.map rawOfRef).filter (fun r => keepsRef (r.label.getD []) r.url)).map
      (fun r => (⟨r.label.getD [], r.url⟩ : ProjRef)) =
      (t.refs.filter (fun r => keepsRef r.label r.url)).map (fun r => ⟨r.label, r.url⟩) := by
    rw [List.filter_map, List.map_map]
    simp only [Function.comp_def, getD_label]
    rfl
  cases h : isStepBlock t with
  | true =>
    have hstep : isStepType [] = true := rfl
    cases htitle : notBlank t.title with
    | true => simp [parseStep, rawOfStep, kept, projOf, h, hstep, htitle, hrefs]
    | false => simp [parseStep, rawOfStep, kept, h, hstep, htitle]
  | false =>
    obtain ⟨bt, hbt, hblock⟩ := isStepType_of_block h
    simp [parseStep, rawOfStep, kept, projOf, h, hbt, hblock, getD_nonNull, hrefs]

/-- Steps that are numbered by their place have numbers of 32 bits. -/
theorem fits_numbered {α : Type} {f : Int → α → SerStep} (hf : ∀ n x, (f n x).n = n) {xs : List α}
    (hcount : xs.length ≤ 2147483647) : ∀ t ∈ numbered f xs, fitsInt32 t.n = true := by
  intro t ht
  obtain ⟨i, hi, rfl⟩ := List.mem_mapIdx.mp ht
  rw [hf, fitsInt32, Bool.and_eq_true, decide_eq_true_eq, decide_eq_true_eq]
  omega

theorem locByKey_locVal (x : Text) : locByKey (locVal x) = trim x := by
  unfold locVal
  split_ifs with h
  · rw [List.isEmpty_iff.mp h]
    rfl
  · rfl

theorem loc_store_locVal (x : Text) : loc (Jsonb.store (locVal x)).value = trim x := by
  rw [Jsonb.value_store, loc_reorder, locByKey_locVal]

def storedUrl (url : Option Text) : Option Text := (url.map trim).filter (fun u => !u.isEmpty)

def storedRef (label : Text) (url : Option Text) : StepRef := ⟨trim label, storedUrl url⟩

theorem keepsRef_stored (label : Text) (url : Option Text) :
    keepsRef (trim label) (storedUrl url) = keepsRef label url := by
  cases url with
  | none => simp [keepsRef, storedUrl, trim_trim]
  | some u =>
    by_cases hu : trim u = []
    · simp [keepsRef, storedUrl, trim_trim, Option.filter, hu]
    · have hne : (trim u).isEmpty = false := by simpa using hu
      simp [keepsRef, storedUrl, trim_trim, Option.filter, hne]

private theorem keptTexts_stored (xs : List Text) :
    keptTexts loc (reorder jsonbRank
      (.arr ((xs.filter notBlank).map (fun x => enValue (trim x))))) =
      (xs.filter notBlank).map trim := by
  rw [keptTexts_reorder]
  simp only [keptTexts, Value.asArr, Option.map_some, Option.getD_some, List.map_map]
  have hloc : (locByKey ∘ fun x => enValue (trim x)) = trim := by
    funext x
    rfl
  rw [hloc, List.filter_eq_self]
  intro y hy
  obtain ⟨x, hx, rfl⟩ := List.mem_map.mp hy
  exact (List.mem_filter.mp hx).2

private theorem keptRef_refRow (r : ProjRef) :
    (((refRow r).get "label".toList).map locByKey).getD [] = trim r.label ∧
      ((refRow r).get "url".toList).bind Value.asStr = storedUrl r.url := by
  obtain ⟨label, url⟩ := r
  have hlabel : locByKey (if (trim label).isEmpty then .obj [] else enValue (trim label)) =
      trim label := by
    split_ifs with h
    · rw [List.isEmpty_iff.mp h]
      rfl
    · rfl
  constructor
  · rw [← hlabel]
    rfl
  · change (find "url".toList (("label".toList, _) ::
      ((storedUrl url).map (fun u => ("url".toList, Value.str u))).toList)).bind Value.asStr = _
    rw [find_cons]
    cases storedUrl url <;> rfl

private theorem refs_stored (rs : List ProjRef) :
    refsFromJson (reorder jsonbRank
      (.arr ((rs.filter (fun r => keepsRef r.label r.url)).map refRow))) =
      (rs.filter (fun r => keepsRef r.label r.url)).map (fun r => storedRef r.label r.url) := by
  rw [refsFromJson_reorder]
  simp only [keptRefs, Value.asArr, Option.map_some, Option.getD_some, List.filterMap_map]
  rw [← List.filterMap_eq_map]
  refine List.filterMap_congr fun r hr => ?_
  obtain ⟨hlabel, hurl⟩ := keptRef_refRow r
  have hkeep : keepsRef (trim r.label) (storedUrl r.url) = true := by
    rw [keepsRef_stored]
    exact (List.mem_filter.mp hr).2
  simp only [Function.comp_apply, hlabel, hurl, hkeep, if_true, storedRef]

def landed (column : Number → Number) (keep : List (Uuid × CarryOver)) (n : Int) (p : ProjStep) :
    SerStep :=
  loadStep column (insertStepRow n (projStepRow keep p))

def shownAsk (keep : List (Uuid × CarryOver)) (p : ProjStep) : Option Text :=
  presentText (locByKey (askRow p.needsHuman p.needsHumanAsk (carried keep p)))

theorem landed_eq (column : Number → Number) (keep : List (Uuid × CarryOver)) (n : Int)
    (p : ProjStep) : landed column keep n p =
      { n := n
        blockType := if isStepType p.blockType then none else some p.blockType
        content :=
          if isStepType p.blockType then .null
          else mapNumbers column (reorder jsonbRank p.content)
        blockId := (blockUuid p).map Uuid.toString
        title := trim p.title
        desc := trim p.desc
        command := trim p.command
        imageKey := imageKeyRow p.imageKey (carried keep p)
        level := (Level.parse p.level).asStr
        needsHuman := p.needsHuman.getD (carried keep p).needsHuman
        needsHumanAsk := shownAsk keep p
        danger := p.danger.getD (carried keep p).danger
        why := trim p.why
        section_ := trim p.section_
        subtasks := (p.subtasks.filter notBlank).map trim
        refs := (p.refs.filter (fun r => keepsRef r.label r.url)).map
          (fun r => storedRef r.label r.url) } := by
  have htype : (some (storageType p.blockType)).filter (fun t => !isStepType t) =
      if isStepType p.blockType then none else some p.blockType := by
    cases h : isStepType p.blockType with
    | true => simp [Option.filter, isStepType_storageType, h]
    | false => simp [Option.filter, storageType, h]
  simp only [landed, loadStep, insertStepRow, projStepRow, htype, locByKey_locVal,
    Option.map_some, Option.getD_some, Jsonb.value_store, keptTexts_stored, refs_stored,
    Option.bind_some, loc_reorder, shownAsk]
  cases h : isStepType p.blockType <;> simp

def resolved (keep : List (Uuid × CarryOver)) (t : SerStep) : CarryOver :=
  (((t.blockId.filter notBlank).bind Uuid.parseStr).bind (lastMark keep)).getD CarryOver.default

def shownKey (key : Option Text) : Option Text := (key.map trim).filter (fun k => !k.isEmpty)

/-- A canon step that a projection onto these marks gives back as it is, where `turn` is what becomes
of a number that is read and kept in a column. -/
structure StepReproduced (turn : Number → Number) (keep : List (Uuid × CarryOver)) (t : SerStep) :
    Prop where
  kept : kept t = true
  blockId : ∀ b ∈ t.blockId, ∃ u : Uuid, b = u.toString
  content : isStepBlock t = false →
    Ordered jsonbRank t.content ∧ ∀ x ∈ numbersIn t.content, turn x = x
  title : Trimmed t.title
  desc : Trimmed t.desc
  command : Trimmed t.command
  imageKey : shownKey t.imageKey = none → shownKey (resolved keep t).imageKey = none
  level : (Level.parse t.level).asStr = t.level
  needsHuman : t.needsHuman = false → (resolved keep t).needsHuman = false
  needsHumanAsk : t.needsHuman = true → ∀ a ∈ t.needsHumanAsk, a ≠ [] ∧ Trimmed a
  danger : t.danger = false → (resolved keep t).danger = false
  why : Trimmed t.why
  section_ : Trimmed t.section_
  subtasks : ∀ x ∈ t.subtasks, x ≠ [] ∧ Trimmed x
  refs : ∀ r ∈ t.refs, keepsRef r.label r.url = true ∧ storedRef r.label r.url = r

theorem notBlank_of_trimmed {x : Text} (hx : Trimmed x) : notBlank x = true ↔ x ≠ [] := by
  rw [notBlank, show trim x = x from hx]
  simp

private theorem kept_map_eq_self {α : Type} (p : α → Bool) (f : α → α) (xs : List α) :
    (xs.filter p).map f = xs ↔ ∀ x ∈ xs, p x = true ∧ f x = x := by
  constructor
  · intro h
    have hlen : (xs.filter p).length = xs.length := by simpa using congrArg List.length h
    have hall : xs.filter p = xs := List.filter_eq_self.mpr
      (List.length_filter_eq_length_iff.mp hlen)
    rw [hall] at h
    intro x hx
    refine ⟨List.filter_eq_self.mp hall x hx, ?_⟩
    have hmap : xs.map f = xs.map id := by rw [h, List.map_id]
    exact List.map_inj_left.mp hmap x hx
  · intro h
    rw [List.filter_eq_self.mpr fun x hx => (h x hx).1]
    have hmap : xs.map f = xs.map id := List.map_congr_left fun x hx => (h x hx).2
    rw [hmap, List.map_id]

theorem notBlank_toString (u : Uuid) : notBlank u.toString = true := by
  rw [notBlank_of_trimmed u.trimmed_toString]
  intro h
  have hlen := u.length_toString
  rw [h] at hlen
  exact absurd hlen (by decide)

private theorem blockId_iff (b : Option Text) :
    b = (((b.filter notBlank).bind Uuid.parseStr).map Uuid.toString) ↔
      ∀ x ∈ b, ∃ u : Uuid, x = u.toString := by
  cases b with
  | none => simp
  | some x =>
    constructor
    · intro h y hy
      obtain rfl := Option.some.inj hy
      obtain ⟨u, -, hu⟩ := Option.map_eq_some_iff.mp h.symm
      exact ⟨u, hu.symm⟩
    · intro h
      obtain ⟨u, rfl⟩ := h x rfl
      rw [Option.filter_some, if_pos (notBlank_toString u), Option.bind_some,
        Uuid.parseStr_toString]
      rfl

private theorem image_iff {key : Option Text} {carry : CarryOver} :
    shownKey key = shownKey (imageKeyRow (shownKey key) carry) ↔
      (shownKey key = none → shownKey carry.imageKey = none) := by
  cases h : shownKey key with
  | none =>
    have hrow : imageKeyRow none carry = carry.imageKey := rfl
    rw [hrow]
    simp [eq_comm]
  | some k =>
    obtain ⟨hmap, hne⟩ := Option.filter_eq_some_iff.mp h
    obtain ⟨x, -, hk⟩ := Option.map_eq_some_iff.mp hmap
    have htrim : trim k = k := by rw [← hk, trim_trim]
    have hrow : imageKeyRow (some k) carry = some k := by
      cases k with
      | nil => cases hne
      | cons c k => simp [imageKeyRow, htrim]
    rw [hrow, shownKey, Option.map_some, htrim, Option.filter_some, if_pos hne]
    simp

private theorem ask_iff {t : SerStep} (keep : List (Uuid × CarryOver)) (hmark : t.needsHuman = true) :
    t.needsHumanAsk = shownAsk keep (projOf t) ↔
      ∀ a ∈ t.needsHumanAsk, a ≠ [] ∧ Trimmed a := by
  have hshown : shownAsk keep (projOf t) =
      (t.needsHumanAsk.filter notBlank).bind (fun a => presentText (trim a)) := by
    cases hask : t.needsHumanAsk.filter notBlank with
    | none => simp [shownAsk, projOf, hmark, hask, askRow]; rfl
    | some a => simp [shownAsk, projOf, hmark, hask, askRow, locByKey_locVal]
  rw [hshown]
  cases t.needsHumanAsk with
  | none => simp
  | some a =>
    simp only [Option.mem_def, Option.some.injEq, forall_eq', Option.filter_some]
    cases hblank : notBlank a with
    | false =>
      simp only [Bool.false_eq_true, if_false, Option.bind_none, reduceCtorEq, false_iff, not_and]
      intro hne htrim
      rw [(notBlank_of_trimmed htrim).mpr hne] at hblank
      cases hblank
    | true =>
      have hpresent : presentText (trim a) = some (trim a) := by
        have hne : (trim a).isEmpty = false := by simpa [notBlank] using hblank
        simp [presentText, hne]
      rw [if_pos rfl, Option.bind_some, hpresent, Option.some.injEq]
      constructor
      · intro h
        exact ⟨(notBlank_of_trimmed h.symm).mp hblank, h.symm⟩
      · exact fun h => h.2.symm

private theorem flag_iff (b c : Bool) :
    b = (if b then some true else none).getD c ↔ (b = false → c = false) := by
  cases b <;> cases c <;> simp

theorem isStepType_projOf (t : SerStep) :
    isStepType (projOf t).blockType = isStepBlock t := by
  cases h : isStepBlock t with
  | true => simp [projOf, h, isStepType]
  | false =>
    obtain ⟨bt, hbt, hblock⟩ := isStepType_of_block h
    simp [projOf, h, hbt, hblock]

private theorem isStepBlock_landed (column : Number → Number) (keep : List (Uuid × CarryOver)) (n : Int)
    (t : SerStep) : isStepBlock (landed column keep n (projOf t)) = isStepBlock t := by
  rw [landed_eq, isStepBlock, isStepType_projOf]
  cases h : isStepBlock t with
  | true => rfl
  | false => simpa [isStepType_projOf] using h

private theorem refs_iff (rs : List StepRef) :
    rs = (((rs.filter (fun r => keepsRef r.label r.url)).map (fun r => (⟨r.label, r.url⟩ : ProjRef))).filter
        (fun r => keepsRef r.label r.url)).map (fun r => storedRef r.label r.url) ↔
      ∀ r ∈ rs, keepsRef r.label r.url = true ∧ storedRef r.label r.url = r := by
  have hkept : ((rs.filter (fun r => keepsRef r.label r.url)).map
      (fun r => (⟨r.label, r.url⟩ : ProjRef))).filter (fun r => keepsRef r.label r.url) =
      (rs.filter (fun r => keepsRef r.label r.url)).map (fun r => ⟨r.label, r.url⟩) := by
    rw [List.filter_eq_self]
    intro q hq
    obtain ⟨r, hr, rfl⟩ := List.mem_map.mp hq
    exact (List.mem_filter.mp hr).2
  rw [hkept, List.map_map, eq_comm]
  exact kept_map_eq_self (fun r : StepRef => keepsRef r.label r.url)
    (fun r => storedRef r.label r.url) rs

private theorem subtasks_iff (xs : List Text) :
    xs = (xs.filter notBlank).map trim ↔ ∀ x ∈ xs, x ≠ [] ∧ Trimmed x := by
  rw [eq_comm, kept_map_eq_self]
  refine forall₂_congr fun x _ => ?_
  constructor
  · intro h
    exact ⟨(notBlank_of_trimmed h.2).mp h.1, h.2⟩
  · intro h
    exact ⟨(notBlank_of_trimmed h.2).mpr h.1, h.2⟩

private structure LandedFields (turn : Number → Number) (keep : List (Uuid × CarryOver)) (n : Int)
    (t row : SerStep) : Prop where
  number : row.n = n
  blockId : row.blockId = ((t.blockId.filter notBlank).bind Uuid.parseStr).map Uuid.toString
  block : isStepBlock row = isStepBlock t
  type : isStepBlock t = false → row.blockType.getD [] = t.blockType.getD []
  content : isStepBlock t = false → row.content = mapNumbers turn (reorder jsonbRank t.content)
  title : row.title = trim t.title
  desc : row.desc = trim t.desc
  command : row.command = trim t.command
  image : printedImageKey row = shownKey (imageKeyRow (shownKey t.imageKey) (resolved keep t))
  level : row.level = (Level.parse t.level).asStr
  needs : row.needsHuman =
    (if t.needsHuman then some true else none).getD (resolved keep t).needsHuman
  ask : row.needsHumanAsk = shownAsk keep (projOf t)
  danger : row.danger = (if t.danger then some true else none).getD (resolved keep t).danger
  why : row.why = trim t.why
  section_ : row.section_ = trim t.section_
  subtasks : row.subtasks = (t.subtasks.filter notBlank).map trim
  refs : t.refs = row.refs ↔
    ∀ r ∈ t.refs, keepsRef r.label r.url = true ∧ storedRef r.label r.url = r

private theorem landed_fields (column read : Number → Number) (keep : List (Uuid × CarryOver)) (n : Int)
    (t : SerStep) :
    LandedFields (column ∘ read) keep n t (landed column keep n (projOf (changeStep read t))) where
  number := by rw [landed_eq]
  blockId := by
    rw [landed_eq]
    rfl
  block := isStepBlock_landed column keep n (changeStep read t)
  type := fun hblock => by
    have hchanged : isStepBlock (changeStep read t) = false := hblock
    simp only [landed_eq, isStepType_projOf, hchanged]
    simp only [projOf, hchanged]
    rfl
  content := fun hblock => by
    have hchanged : isStepBlock (changeStep read t) = false := hblock
    have hcontent : (projOf (changeStep read t)).content = mapNumbers read t.content := by
      simp only [projOf, hchanged]
      rfl
    simp only [landed_eq, isStepType_projOf, hchanged, hcontent, reorder_mapNumbers,
      mapNumbers_mapNumbers, Bool.false_eq_true, if_false]
  title := by
    rw [landed_eq]
    rfl
  desc := by
    rw [landed_eq]
    rfl
  command := by
    rw [landed_eq]
    rfl
  image := by
    rw [landed_eq]
    rfl
  level := by
    rw [landed_eq]
    rfl
  needs := by
    rw [landed_eq]
    rfl
  ask := by
    rw [landed_eq]
    rfl
  danger := by
    rw [landed_eq]
    rfl
  why := by
    rw [landed_eq]
    rfl
  section_ := by
    rw [landed_eq]
    rfl
  subtasks := by
    rw [landed_eq]
    rfl
  refs := by
    rw [landed_eq, ← refs_iff]
    rfl

theorem sameStep_landed_iff (column read : Number → Number) (keep : List (Uuid × CarryOver)) {n : Int}
    {t : SerStep} (hkept : kept t = true) (hn : t.n = n) :
    SameStep t (landed column keep n (projOf (changeStep read t))) ↔
      StepReproduced (column ∘ read) keep t := by
  have row := landed_fields column read keep n t
  constructor
  · intro h
    refine ⟨hkept, (blockId_iff t.blockId).mp (h.blockId.trans row.blockId), ?_, ?_, ?_, ?_, ?_, ?_,
      ?_, ?_, ?_, ?_, ?_, ?_, row.refs.mp h.refs⟩
    · intro hblock
      exact (mapNumbers_reorder_eq_self_iff jsonbRank t.content).mp
        ((h.content hblock).trans (row.content hblock)).symm
    · exact (h.title.trans row.title).symm
    · exact (h.desc.trans row.desc).symm
    · exact (h.command.trans row.command).symm
    · exact image_iff.mp (h.imageKey.trans row.image)
    · exact (h.level.trans row.level).symm
    · exact (flag_iff _ _).mp (h.needsHuman.trans row.needs)
    · intro hmark
      exact (ask_iff keep hmark).mp ((h.needsHumanAsk hmark).trans row.ask)
    · exact (flag_iff _ _).mp (h.danger.trans row.danger)
    · exact (h.why.trans row.why).symm
    · exact (h.section_.trans row.section_).symm
    · exact (subtasks_iff t.subtasks).mp (h.subtasks.trans row.subtasks)
  · intro h
    refine ⟨hn.trans row.number.symm, ((blockId_iff t.blockId).mpr h.blockId).trans row.blockId.symm,
      row.block.symm, fun hblock => (row.type hblock).symm, ?_, ?_, ?_, ?_, ?_, ?_, ?_, ?_, ?_, ?_,
      ?_, ?_, row.refs.mpr h.refs⟩
    · intro hblock
      rw [row.content hblock]
      exact ((mapNumbers_reorder_eq_self_iff jsonbRank t.content).mpr (h.content hblock)).symm
    · rw [row.title]
      exact h.title.symm
    · rw [row.desc]
      exact h.desc.symm
    · rw [row.command]
      exact h.command.symm
    · rw [row.image]
      exact image_iff.mpr h.imageKey
    · rw [row.level]
      exact h.level.symm
    · rw [row.needs]
      exact (flag_iff _ _).mpr h.needsHuman
    · intro hmark
      rw [row.ask]
      exact (ask_iff keep hmark).mpr (h.needsHumanAsk hmark)
    · rw [row.danger]
      exact (flag_iff _ _).mpr h.danger
    · rw [row.why]
      exact h.why.symm
    · rw [row.section_]
      exact h.section_.symm
    · rw [row.subtasks]
      exact (subtasks_iff t.subtasks).mpr h.subtasks

def projected (s : ListState) (raw : RawList) (steps : List RawStep) (note : Text)
    (createdAt : Int) : VersionData where
  version := s.currentVersion + 1
  note := note
  ts := createdAt
  title := loc (updateMeta raw s).title.value
  desc := loc (updateMeta raw s).desc.value
  tags := (updateMeta raw s).tags
  ordered := (updateMeta raw s).ordered
  kind := (updateMeta raw s).listKind.filter isValidKind
  skillHeader := (updateMeta raw s).skillHeader.bind skillHeaderValid
  steps := numbered (landed s.column (currentMarks s)) (parseSteps steps)

/-- No version of the list carries this number yet. -/
def FreeNumber (s : ListState) (n : Int) : Prop := ∀ v ∈ s.versions, v.version ≠ n

def projectedList (s : ListState) (raw : RawList) (steps : List RawStep) (note : Text)
    (createdAt : Int) : ListState :=
  updateMeta raw (saveVersion (s.currentVersion + 1) note createdAt
    ((parseSteps steps).map (projStepRow (currentMarks s))) s)

theorem freeNumber_iff {s : ListState} {n : Int} :
    s.versions.any (fun v => v.version = n) = false ↔ FreeNumber s n := by
  simp only [List.any_eq_false, decide_eq_true_eq]
  rfl

theorem addVersion_of_free {s : ListState} (hfree : FreeNumber s (s.currentVersion + 1))
    (note : Text) (createdAt : Int) (steps : List ProjStep) : addVersion s note createdAt steps =
      some (saveVersion (s.currentVersion + 1) note createdAt
        (steps.map (projStepRow (currentMarks s))) s) := by
  rw [addVersion, freeNumber_iff.mpr hfree]
  rfl

theorem addVersion_of_taken {s : ListState} (htaken : ¬ FreeNumber s (s.currentVersion + 1))
    (note : Text) (createdAt : Int) (steps : List ProjStep) :
    addVersion s note createdAt steps = none := by
  rw [addVersion, if_pos]
  rwa [← freeNumber_iff, Bool.not_eq_false] at htaken

theorem projectList_eq_some_iff {s s' : ListState} {raw : RawList} {note : Text} {ts : Int} :
    projectList s raw note ts = some s' ↔ ∃ steps, raw.steps = some steps ∧
      FreeNumber s (s.currentVersion + 1) ∧ s' = projectedList s raw steps note ts := by
  rw [projectList, Option.bind_eq_some_iff]
  refine exists_congr fun steps => and_congr_right fun _ => ?_
  by_cases hfree : FreeNumber s (s.currentVersion + 1)
  · rw [addVersion_of_free hfree, Option.map_some, Option.some.injEq, and_iff_right hfree]
    exact eq_comm
  · rw [addVersion_of_taken hfree]
    exact iff_of_false (fun hnone => by cases hnone) fun h => hfree h.1

/-- The data of the current version as the history loader gives it. -/
def currentData (s : ListState) : Option VersionData := reloaded s s.currentVersion

theorem currentData_projectedList {s : ListState} (hfree : FreeNumber s (s.currentVersion + 1))
    (raw : RawList) (steps : List RawStep) (note : Text) (ts : Int) :
    currentData (projectedList s raw steps note ts) = some (projected s raw steps note ts) := by
  have hrows : (insertStepRows ((parseSteps steps).map (projStepRow (currentMarks s)))).map
      (loadStep s.column) = numbered (landed s.column (currentMarks s)) (parseSteps steps) := by
    rw [insertStepRows, map_numbered, numbered_map]
    rfl
  have hload := reloaded_of_unique (s := projectedList s raw steps note ts)
    (v := ⟨s.currentVersion + 1, note, ts,
      insertStepRows ((parseSteps steps).map (projStepRow (currentMarks s)))⟩) ?_ ?_
  · refine hload.trans ?_
    have hcolumn : (projectedList s raw steps note ts).column = s.column := rfl
    rw [loadVersionData, orderedSteps_insertStepRows, hcolumn, hrows]
    rfl
  · simp [projectedList, updateMeta, saveVersion]
  · intro w hw hversion
    simp only [projectedList, updateMeta, saveVersion, List.mem_append, List.mem_singleton] at hw
    rcases hw with hw | rfl
    · exact absurd hversion (hfree w hw)
    · rfl

/-- A version that a projection of its canon onto a list gives back as it is. -/
structure Reproduces (read : Number → Number) (s : ListState) (v : VersionData) : Prop where
  title : if notBlank v.title then Trimmed v.title else loc s.title.value = v.title
  desc : Trimmed v.desc
  tags : v.tags.length ≤ 20
  kind : ∀ k ∈ v.kind, isValidKind k = true
  noKind : v.kind = none → s.listKind.filter isValidKind = none
  noHeader : v.skillHeader.bind skillHeaderValid = none → s.skillHeader.bind skillHeaderValid = none
  numbers : ∀ i (hi : i < v.steps.length), v.steps[i].n = i + 1
  steps : ∀ t ∈ v.steps, StepReproduced (s.column ∘ read) (currentMarks s) t

theorem parseSteps_rawOfSteps (ts : List SerStep) :
    parseSteps (ts.map rawOfStep) = (ts.filter kept).map projOf := by
  induction ts with
  | nil => rfl
  | cons t ts ih =>
    have hstep : parseSteps ((t :: ts).map rawOfStep) =
        (parseStep (rawOfStep t)).toList ++ parseSteps (ts.map rawOfStep) := by
      rw [parseSteps, parseSteps, List.map_cons, List.filterMap_cons]
      cases parseStep (rawOfStep t) <;> rfl
    rw [hstep, ih, parseStep_rawOfStep]
    cases h : kept t <;> simp [h]

private theorem sameSteps_landed_iff (column read : Number → Number) (keep : List (Uuid × CarryOver))
    (ts : List SerStep) :
    List.Forall₂ SameStep ts (numbered (landed column keep)
        (parseSteps ((ts.map (changeStep read)).map rawOfStep))) ↔
      (∀ i (hi : i < ts.length), ts[i].n = i + 1) ∧
        ∀ t ∈ ts, StepReproduced (column ∘ read) keep t := by
  have hfilter : (ts.map (changeStep read)).filter kept = (ts.filter kept).map (changeStep read) := by
    rw [List.filter_map]
    rfl
  rw [parseSteps_rawOfSteps, hfilter, List.map_map, numbered_map]
  have hkept (hall : ∀ t ∈ ts, kept t = true) : ts.filter kept = ts := List.filter_eq_self.mpr hall
  have hitems (hall : ∀ t ∈ ts, kept t = true) :
      List.Forall₂ SameStep ts (numbered
          (fun n t => landed column keep n ((projOf ∘ changeStep read) t)) (ts.filter kept)) ↔
        ∀ i (hi : i < ts.length),
          SameStep ts[i] (landed column keep (i + 1) (projOf (changeStep read ts[i]))) := by
    rw [hkept hall, List.forall₂_iff_get]
    simp only [numbered, List.length_mapIdx, true_and, List.get_eq_getElem, List.getElem_mapIdx]
    exact ⟨fun h i hi => h i hi hi, fun h i hi _ => h i hi⟩
  constructor
  · intro h
    have hall : ∀ t ∈ ts, kept t = true := by
      have hlen := h.length_eq
      rw [numbered, List.length_mapIdx] at hlen
      exact List.length_filter_eq_length_iff.mp hlen.symm
    have hsame := (hitems hall).mp h
    have hnumber (i : Nat) (hi : i < ts.length) : ts[i].n = i + 1 := by
      have hn := (hsame i hi).n
      rwa [landed_eq] at hn
    refine ⟨hnumber, fun t ht => ?_⟩
    obtain ⟨i, hi, rfl⟩ := List.getElem_of_mem ht
    exact (sameStep_landed_iff column read keep (hall _ ht) (hnumber i hi)).mp (hsame i hi)
  · intro h
    obtain ⟨hnumber, hstep⟩ := h
    refine (hitems fun t ht => (hstep t ht).kept).mpr fun i hi => ?_
    have ht := hstep _ (List.getElem_mem hi)
    exact (sameStep_landed_iff column read keep ht.kept (hnumber i hi)).mpr ht

private theorem title_iff (s : ListState) (x : Text) :
    x = loc (if (some x).any notBlank then Jsonb.store (locVal ((some x).getD [])) else s.title).value ↔
      if notBlank x then Trimmed x else loc s.title.value = x := by
  rw [Option.any_some]
  cases h : notBlank x with
  | true =>
    simp only [if_true, Option.getD_some, loc_store_locVal]
    exact eq_comm
  | false =>
    simp only [Bool.false_eq_true, if_false]
    exact eq_comm

private theorem kind_iff (k current : Option Text) :
    k = ((k.filter isValidKind).or current).filter isValidKind ↔
      (∀ x ∈ k, isValidKind x = true) ∧ (k = none → current.filter isValidKind = none) := by
  cases k with
  | none =>
    rw [Option.filter_none, Option.none_or, eq_comm]
    exact ⟨fun h => ⟨nofun, fun _ => h⟩, fun h => h.2 rfl⟩
  | some x =>
    cases hx : isValidKind x with
    | true => simp [Option.filter_some, hx]
    | false =>
      simp only [Option.filter_some, hx, Bool.false_eq_true, if_false, Option.none_or,
        Option.mem_def, Option.some.injEq, forall_eq', false_and, iff_false]
      intro h
      have hvalid := (Option.filter_eq_some_iff.mp h.symm).2
      rw [hx] at hvalid
      cases hvalid

private theorem headerPatch_valid {current : Option Value} {v h : Value}
    (hv : skillHeaderValid v = some h) : headerPatch current (some h) = some h := by
  have hidem := skillHeaderValid_idem hv
  unfold headerPatch
  split
  · contradiction
  · rename_i heq
    obtain rfl := Option.some.inj heq
    cases hidem
  · rename_i w _ heq
    obtain rfl := Option.some.inj heq
    rw [hidem]

private theorem header_iff (o current : Option Value) :
    o.bind skillHeaderValid =
        ((headerPatch current (o.bind skillHeaderValid)).bind skillHeaderValid).bind skillHeaderValid ↔
      (o.bind skillHeaderValid = none → current.bind skillHeaderValid = none) := by
  rw [bind_skillHeaderValid_idem]
  cases h : o.bind skillHeaderValid with
  | none => simp [headerPatch, eq_comm]
  | some w =>
    obtain ⟨v, -, hv⟩ := Option.bind_eq_some_iff.mp h
    rw [headerPatch_valid hv, Option.bind_some, skillHeaderValid_idem hv]
    simp

/-- A canon that is pushed back comes out of the database as it went in exactly when it is
reproduced. -/
theorem sameCanon_projected_iff (read : Number → Number) (s : ListState) (v : VersionData)
    (note : Text) (ts : Int) :
    SameCanon { v with version := s.currentVersion + 1 }
        (projected s (rawOfCanon (changeNumbers read v))
          ((changeNumbers read v).steps.map rawOfStep) note ts) ↔ Reproduces read s v := by
  have hdesc : v.desc = loc (Jsonb.store (locVal v.desc)).value ↔ Trimmed v.desc := by
    rw [loc_store_locVal]
    exact eq_comm
  have htags : v.tags = v.tags.take 20 ↔ v.tags.length ≤ 20 := by
    rw [eq_comm, List.take_eq_self_iff]
  constructor
  · intro h
    obtain ⟨hnumbers, hsteps⟩ := (sameSteps_landed_iff s.column read (currentMarks s) v.steps).mp h.steps
    obtain ⟨hkind, hnone⟩ := (kind_iff v.kind s.listKind).mp h.kind
    exact ⟨(title_iff s v.title).mp h.title, hdesc.mp h.desc, htags.mp h.tags, hkind, hnone,
      (header_iff v.skillHeader s.skillHeader).mp h.skillHeader, hnumbers, hsteps⟩
  · intro h
    exact ⟨(title_iff s v.title).mpr h.title, hdesc.mpr h.desc, htags.mpr h.tags, rfl,
      (kind_iff v.kind s.listKind).mpr ⟨h.kind, h.noKind⟩,
      (header_iff v.skillHeader s.skillHeader).mpr h.noHeader, rfl,
      (sameSteps_landed_iff s.column read (currentMarks s) v.steps).mpr ⟨h.numbers, h.steps⟩⟩

end Setfork.Reproject
