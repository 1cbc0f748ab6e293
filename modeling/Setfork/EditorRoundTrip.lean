/- EditorRoundTrip
   digest: The canon that is shown to an author and read back: when it is accepted unchanged. -/
import Setfork.Convert
import Setfork.ShownCanon

set_option autoImplicit false
set_option relaxedAutoImplicit false

namespace Setfork.EditorRoundTrip

open Setfork.Foundation (Text Bytes trim utf8 Uuid)
open Setfork.Foundation.Json
open Setfork.Serialize (VersionData SerStep isStepBlock isStepType isValidKind keepsRef
  printedImageKey listKinds listJson canonValue)
open Setfork.Rows (loc locVal numbered numbered_map forall₂_self_numbered presentText)
open Setfork.Carryover (CarryOver)
open Setfork.Project
open Setfork.Reproject (kept projOf)
open Setfork.StrictCanon
open Setfork.ShownCanon
open Setfork.Wire (contentValue wireType uniqueKeys_contentValue)
open Setfork.Convert

/-- What is relied on: the JSON reader reads a printed canon back up to its nesting limit, a number of
a payload as it reads numbers, and refuses it beyond; what it reads are maps, and a URI is not
blank. -/
structure Reads (lib : Libraries) (read : Number → Number) : Prop where
  shown : ∀ url v, VersionMaps v → depth (canonValue url v) ≤ 127 →
    lib.fromStr (listJson url v) = .ok (canonValue url (changeNumbers read v))
  deep : ∀ url v, 127 < depth (canonValue url v) → ∃ e, lib.fromStr (listJson url v) = .error e
  maps : ∀ t v, lib.fromStr t = .ok v → UniqueKeys v
  uri : ∀ u, lib.isUri u = true → notBlank u = true

/-- The payload reader, which does not say what is wrong with a text. -/
def reader (lib : Libraries) (t : Text) : Option Value := (lib.fromStr t).toOption

structure EditableStep (isUri : Text → Bool) (s : SnapshotStep) : Prop where
  n : 1 ≤ s.n
  number : fitsInt32 s.n = true
  level : s.level ∈ names ["required", "recommended", "optional"]
  title : isStepType s.type = true → notBlank s.title = true
  refs : ∀ r ∈ s.refs, notBlank r.label = true ∨ isUri r.url = true

structure Editable (isUri : Text → Bool) (c : ListContent) : Prop where
  version : 1 ≤ c.version
  number : fitsInt32 c.version = true
  steps : ∀ s ∈ c.steps, EditableStep isUri s

/-- A block comes back with everything that its canon carries: its own fields and the marks of the
current version. -/
structure SameBlock (fromStr : Text → Option Value) (carry : Uuid → Option CarryOver)
    (sent back : SnapshotStep) : Prop where
  n : back.n = sent.n
  title : back.title = sent.title
  desc : back.desc = sent.desc
  command : back.command = sent.command
  level : back.level = sent.level
  why : back.why = sent.why
  section_ : back.section_ = sent.section_
  subtasks : back.subtasks = sent.subtasks
  refs : back.refs = sent.refs
  type : back.type = wireType (some sent.type)
  contentJson : back.contentJson =
    if isStepType sent.type then [] else compact (contentValue fromStr sent.type sent.contentJson)
  blockId : back.blockId = if notBlank sent.blockId then sent.blockId else []
  danger : back.danger = (markFor carry sent).danger
  imageKey : back.imageKey = ((markFor carry sent).imageKey.map trim).getD []
  needsHuman : back.needsHuman = (markFor carry sent).needsHuman
  needsHumanAsk : back.needsHumanAsk =
    if (markFor carry sent).needsHuman then loc (markFor carry sent).needsHumanAsk else []

structure SameContent (fromStr : Text → Option Value) (carry : Uuid → Option CarryOver)
    (sent back : ListContent) : Prop where
  title : back.title = sent.title
  desc : back.desc = sent.desc
  tags : back.tags = sent.tags
  ordered : back.ordered = sent.ordered
  version : back.version = sent.version
  steps : List.Forall₂ (SameBlock fromStr carry) sent.steps back.steps

/-- A reference the schema lets pass: its address is a URI, and without one its label shows
something. -/
def RefShown (isUri : Text → Bool) (r : SnapshotRef) : Prop :=
  if r.url = [] then hasNonSpace r.label = true else isUri r.url = true

def AskShown (mark : CarryOver) : Prop :=
  mark.needsHuman = true → loc mark.needsHumanAsk ≠ [] → notBlank (loc mark.needsHumanAsk) = true

/-- The contents that make the round: the schema has a proper address, blocks are numbered by their
place, payloads stay within the nesting limit of the whole text and have numbers that the reader gives
back, and no reference or question is one that the strict reading refuses or drops. -/
structure Showable (lib : Libraries) (read : Number → Number) (carry : Uuid → Option CarryOver)
    (schemaUrl : Text) (c : ListContent) : Prop where
  schema : lib.isUri schemaUrl = true
  numbered : ∀ i (h : i < c.steps.length), c.steps[i].n = (i : Int) + 1
  shallow : ∀ s ∈ c.steps, isStepType s.type = false →
    depth (contentValue (reader lib) s.type s.contentJson) ≤ 124
  numbers : ∀ s ∈ c.steps, isStepType s.type = false →
    ∀ x ∈ numbersIn (contentValue (reader lib) s.type s.contentJson), read x = x
  refs : ∀ s ∈ c.steps, ∀ r ∈ s.refs, RefShown lib.isUri r
  asks : ∀ s ∈ c.steps, AskShown (markFor carry s)

section Blocks

variable {fromStr : Text → Option Value} {read : Number → Number} {carry : Uuid → Option CarryOver}
  {s : SnapshotStep}

def canonRef (r : SnapshotRef) : Serialize.StepRef :=
  ⟨r.label, if r.url.isEmpty then none else some r.url⟩

theorem refs_canonBlock (s : SnapshotStep) :
    (canonBlock fromStr carry s).refs = s.refs.map canonRef := rfl

private theorem notBlank_ne_nil {t : Text} (h : notBlank t = true) : t ≠ [] := by
  rintro rfl
  cases h

theorem keepsRef_canonRef {isUri : Text → Bool} (huri : ∀ u, isUri u = true → notBlank u = true)
    {r : SnapshotRef} (h : notBlank r.label = true ∨ isUri r.url = true) :
    keepsRef (canonRef r).label (canonRef r).url = true := by
  rw [keepsRef, Bool.or_eq_true]
  rcases h with hlabel | haddress
  · exact Or.inl hlabel
  · have hvisible := huri r.url haddress
    have hne : r.url.isEmpty = false := by
      rw [List.isEmpty_eq_false_iff]
      exact notBlank_ne_nil hvisible
    have hurl : (canonRef r).url = some r.url := by
      rw [canonRef, hne]
      rfl
    rw [hurl]
    exact Or.inr hvisible

theorem refFits_canonRef {isUri : Text → Bool} {r : SnapshotRef} :
    RefFits isUri (canonRef r) ↔ RefShown isUri r := by
  have hlabel : (canonRef r).label = r.label := rfl
  by_cases hempty : r.url = []
  · have hurl : (canonRef r).url = none := by
      rw [canonRef, hempty]
      rfl
    rw [RefShown, if_pos hempty]
    constructor
    · intro h
      rcases h.visible with ⟨u, hu, -⟩ | hlabelled
      · rw [hurl] at hu
        cases hu
      · exact hlabelled
    · intro hlabelled
      refine ⟨fun u hu => ?_, Or.inr hlabelled⟩
      rw [hurl] at hu
      cases hu
  · have hurl : (canonRef r).url = some r.url := by
      rw [canonRef, List.isEmpty_eq_false_iff.mpr hempty]
      rfl
    rw [RefShown, if_neg hempty]
    constructor
    · intro h
      exact h.url r.url hurl
    · intro haddress
      refine ⟨fun u hu => ?_, Or.inl ⟨r.url, hurl, hempty⟩⟩
      rw [hurl] at hu
      obtain rfl := Option.some.inj hu
      exact haddress

def shownBlock (fromStr : Text → Option Value) (read : Number → Number)
    (carry : Uuid → Option CarryOver) (n : Int) (s : SnapshotStep) : SnapshotStep :=
  stepToPb n (projOf (changeStep read (canonBlock fromStr carry s)))

private theorem isStepBlock_changed (s : SnapshotStep) :
    isStepBlock (changeStep read (canonBlock fromStr carry s)) = isStepType s.type :=
  @isStepBlock_canonBlock fromStr carry s

private theorem blockType_projOf (s : SnapshotStep) :
    (projOf (changeStep read (canonBlock fromStr carry s))).blockType = wireType (some s.type) := by
  rw [projOf, isStepBlock_changed, Wire.wireType_some]
  cases hstep : isStepType s.type with
  | true => rfl
  | false =>
    show ((if isStepType s.type then none else some s.type) : Option Text).getD [] = s.type
    rw [hstep]
    rfl

private theorem contentJson_shownBlock (n : Int) :
    ((shownBlock fromStr read carry n s).contentJson =
      if isStepType s.type then [] else compact (contentValue fromStr s.type s.contentJson)) ↔
      (isStepType s.type = false →
        ∀ x ∈ numbersIn (contentValue fromStr s.type s.contentJson), read x = x) := by
  have hjson : (shownBlock fromStr read carry n s).contentJson =
      if (projOf (changeStep read (canonBlock fromStr carry s))).blockType.isEmpty then []
      else compact (projOf (changeStep read (canonBlock fromStr carry s))).content := rfl
  rw [hjson, blockType_projOf, Wire.wireType_some]
  cases hstep : isStepType s.type with
  | true => simp
  | false =>
    have hne : s.type.isEmpty = false := by
      rw [isStepType, Bool.or_eq_false_iff] at hstep
      exact hstep.1
    have hcontent : (projOf (changeStep read (canonBlock fromStr carry s))).content =
        mapNumbers read (contentValue fromStr s.type s.contentJson) := by
      rw [projOf, isStepBlock_changed, hstep]
      rfl
    have hprint : ∀ v w : Value, compact v = compact w ↔ v = w :=
      fun v w => ⟨fun h => compact_injective h, congrArg compact⟩
    simp only [hne, hcontent, Bool.false_eq_true, if_false, hprint, mapNumbers_eq_self_iff,
      forall_const]

private theorem refs_shownBlock (n : Int)
    (hrefs : ∀ r ∈ s.refs, keepsRef (canonRef r).label (canonRef r).url = true) :
    (shownBlock fromStr read carry n s).refs = s.refs := by
  have hkept : (s.refs.map canonRef).filter (fun r => keepsRef r.label r.url) =
      s.refs.map canonRef := by
    rw [List.filter_eq_self, List.forall_mem_map]
    exact hrefs
  have hsame : ∀ r : SnapshotRef,
      (⟨(canonRef r).label, (canonRef r).url.getD []⟩ : SnapshotRef) = r := by
    intro r
    obtain ⟨label, url⟩ := r
    cases url <;> rfl
  have hback : (shownBlock fromStr read carry n s).refs =
      ((((s.refs.map canonRef).filter (fun r => keepsRef r.label r.url)).map
        (fun r => (⟨r.label, r.url⟩ : ProjRef))).map (fun r => ⟨r.label, r.url.getD []⟩)) := rfl
  rw [hback, hkept, List.map_map, List.map_map]
  calc s.refs.map _ = s.refs.map id := List.map_congr_left fun r _ => hsame r
    _ = s.refs := List.map_id _

private theorem blockId_shownBlock (n : Int) : (shownBlock fromStr read carry n s).blockId =
    if notBlank s.blockId then s.blockId else [] := by
  have hid : (shownBlock fromStr read carry n s).blockId =
      ((((some s.blockId).filter notBlank).filter notBlank)).getD [] := rfl
  rw [hid, Option.filter_some]
  cases hblank : notBlank s.blockId with
  | true =>
    rw [if_pos rfl, Option.filter_some, if_pos hblank]
    rfl
  | false => rfl

private theorem imageKey_shownBlock (n : Int) : (shownBlock fromStr read carry n s).imageKey =
    ((markFor carry s).imageKey.map trim).getD [] := by
  have hkey : (shownBlock fromStr read carry n s).imageKey =
      (((markFor carry s).imageKey.map trim).filter (fun k => !k.isEmpty)).getD [] := rfl
  rw [hkey]
  cases (markFor carry s).imageKey.map trim with
  | none => rfl
  | some k => cases k <;> rfl

private theorem getD_flag (b : Bool) : (if b then some true else none).getD false = b := by
  cases b <;> rfl

private theorem needsHumanAsk_shownBlock (n : Int) :
    ((shownBlock fromStr read carry n s).needsHumanAsk =
      if (markFor carry s).needsHuman then loc (markFor carry s).needsHumanAsk else []) ↔
      AskShown (markFor carry s) := by
  have hask : (shownBlock fromStr read carry n s).needsHumanAsk =
      ((if (markFor carry s).needsHuman then
        (presentText (loc (markFor carry s).needsHumanAsk)).filter
          (fun _ => (markFor carry s).needsHuman)
        else none).filter notBlank).getD [] := rfl
  rw [hask, AskShown]
  cases (markFor carry s).needsHuman with
  | false => simp
  | true =>
    cases hloc : loc (markFor carry s).needsHumanAsk with
    | nil => simp [presentText]
    | cons ch t =>
      cases hblank : notBlank (ch :: t) <;> simp [presentText, Option.filter, hblank]

theorem sameBlock_shownBlock {n : Int}
    (hrefs : ∀ r ∈ s.refs, keepsRef (canonRef r).label (canonRef r).url = true) :
    SameBlock fromStr carry s (shownBlock fromStr read carry n s) ↔
      s.n = n ∧ (isStepType s.type = false →
        ∀ x ∈ numbersIn (contentValue fromStr s.type s.contentJson), read x = x) ∧
      AskShown (markFor carry s) := by
  constructor
  · intro h
    exact ⟨h.n.symm, (contentJson_shownBlock n).mp h.contentJson,
      (needsHumanAsk_shownBlock n).mp h.needsHumanAsk⟩
  · rintro ⟨hn, hnumbers, hask⟩
    exact {
      n := hn.symm
      title := rfl
      desc := rfl
      command := rfl
      level := rfl
      why := rfl
      section_ := rfl
      subtasks := rfl
      refs := refs_shownBlock n hrefs
      type := blockType_projOf s
      contentJson := (contentJson_shownBlock n).mpr hnumbers
      blockId := blockId_shownBlock n
      danger := getD_flag (markFor carry s).danger
      imageKey := imageKey_shownBlock n
      needsHuman := getD_flag (markFor carry s).needsHuman
      needsHumanAsk := (needsHumanAsk_shownBlock n).mpr hask }

end Blocks

section Contents

variable {lib : Libraries} {read : Number → Number} {carry : Uuid → Option CarryOver}
  {schemaUrl : Text} {props : Option Text × Option Value} {c : ListContent}

private theorem refs_kept (hlib : Reads lib read) (hc : Editable lib.isUri c) :
    ∀ s ∈ c.steps, ∀ r ∈ s.refs, keepsRef (canonRef r).label (canonRef r).url = true :=
  fun s hs r hr => keepsRef_canonRef hlib.uri ((hc.steps s hs).refs r hr)

theorem stepSilent_canonData (hlib : Reads lib read) (hc : Editable lib.isUri c) :
    ∀ t ∈ (canonData (reader lib) carry c props).steps, StepSilent t := by
  rw [canonData_steps, List.forall_mem_map]
  intro s hs
  refine ⟨?_, ?_⟩
  · rw [kept, isStepBlock_canonBlock]
    cases hstep : isStepType s.type with
    | false => rfl
    | true => exact (hc.steps s hs).title hstep
  · rw [refs_canonBlock, List.forall_mem_map]
    exact refs_kept hlib hc s hs

theorem canonFits_canonData (hc : Editable lib.isUri c) :
    CanonFits lib.isUri schemaUrl (canonData (reader lib) carry c props) ↔
      lib.isUri schemaUrl = true ∧ ∀ s ∈ c.steps, ∀ r ∈ s.refs, RefShown lib.isUri r := by
  have hrefs : ∀ s : SnapshotStep, (∀ r ∈ (canonBlock (reader lib) carry s).refs,
      RefFits lib.isUri r) ↔ ∀ r ∈ s.refs, RefShown lib.isUri r := by
    intro s
    rw [refs_canonBlock, List.forall_mem_map]
    exact forall₂_congr fun r _ => refFits_canonRef
  constructor
  · intro h
    refine ⟨h.url, fun s hs => ?_⟩
    have hstep := h.steps (canonBlock (reader lib) carry s) (by
      rw [canonData_steps]
      exact List.mem_map_of_mem hs)
    exact (hrefs s).mp hstep.refs
  · rintro ⟨hurl, hshown⟩
    refine ⟨hurl, hc.version, fun k hk => ?_, ?_⟩
    · obtain ⟨-, hvalid⟩ := Option.filter_eq_some_iff.mp hk
      exact List.contains_iff_mem.mp hvalid
    · rw [canonData_steps, List.forall_mem_map]
      intro s hs
      exact ⟨(hc.steps s hs).n, (hc.steps s hs).level, (hrefs s).mpr (hshown s hs)⟩

theorem numbersFit_canonData (hc : Editable lib.isUri c) :
    NumbersFit (canonData (reader lib) carry c props) := by
  refine ⟨hc.number, ?_⟩
  rw [canonData_steps, List.forall_mem_map]
  exact fun s hs => (hc.steps s hs).number

private theorem reader_maps (hlib : Reads lib read) : ∀ t v, reader lib t = some v → UniqueKeys v := by
  intro t v h
  rw [reader] at h
  cases hread : lib.fromStr t with
  | error e =>
    rw [hread] at h
    cases h
  | ok w =>
    rw [hread] at h
    obtain rfl := Option.some.inj h
    exact hlib.maps t w hread

theorem versionMaps_canonData (hlib : Reads lib read) (hheader : ∀ h ∈ props.2, UniqueKeys h)
    (hc : Editable lib.isUri c) : VersionMaps (canonData (reader lib) carry c props) := by
  refine ⟨?_, hheader, numbersFit_canonData hc⟩
  rw [canonData_steps, List.forall_mem_map]
  exact fun s _ => uniqueKeys_contentValue (reader_maps hlib) s.type s.contentJson

theorem shallow_canonData : Shallow (canonData (reader lib) carry c props) ↔
    ∀ s ∈ c.steps, isStepType s.type = false →
      depth (contentValue (reader lib) s.type s.contentJson) ≤ 124 := by
  rw [Shallow, canonData_steps, List.forall_mem_map]
  refine forall₂_congr fun s _ => ?_
  rw [isStepBlock_canonBlock]
  rfl

theorem steps_shownParts (hlib : Reads lib read) (hc : Editable lib.isUri c) :
    (listContentFromParts
        (shownParts (changeNumbers read (canonData (reader lib) carry c props)))).steps =
      numbered (shownBlock (reader lib) read carry) c.steps := by
  set v := changeNumbers read (canonData (reader lib) carry c props) with hv
  have hkept : v.steps.filter kept = v.steps := by
    refine List.filter_eq_self.mpr fun t ht => ?_
    obtain ⟨x, hx, rfl⟩ := List.mem_map.mp (show t ∈ List.map _ _ from ht)
    exact (stepSilent_canonData hlib hc x hx).title
  have hback : (listContentFromParts (shownParts v)).steps =
      numbered stepToPb ((v.steps.filter kept).map projOf) := rfl
  rw [hback, hkept, hv, changeNumbers, canonData_steps, List.map_map, List.map_map, numbered_map]
  rfl

theorem sameContent_shownParts (hlib : Reads lib read) (hc : Editable lib.isUri c) :
    SameContent (reader lib) carry c (listContentFromParts
        (shownParts (changeNumbers read (canonData (reader lib) carry c props)))) ↔
      (∀ i (h : i < c.steps.length), c.steps[i].n = (i : Int) + 1) ∧
        (∀ s ∈ c.steps, isStepType s.type = false →
          ∀ x ∈ numbersIn (contentValue (reader lib) s.type s.contentJson), read x = x) ∧
        ∀ s ∈ c.steps, AskShown (markFor carry s) := by
  have hsteps : List.Forall₂ (SameBlock (reader lib) carry) c.steps
      (numbered (shownBlock (reader lib) read carry) c.steps) ↔
      ∀ i (h : i < c.steps.length), c.steps[i].n = (i : Int) + 1 ∧
        (isStepType c.steps[i].type = false → ∀ x ∈ numbersIn
          (contentValue (reader lib) c.steps[i].type c.steps[i].contentJson), read x = x) ∧
        AskShown (markFor carry c.steps[i]) := by
    rw [forall₂_self_numbered]
    exact forall₂_congr fun i hi =>
      sameBlock_shownBlock (refs_kept hlib hc c.steps[i] (List.getElem_mem hi))
  constructor
  · intro h
    have heach := hsteps.mp (steps_shownParts hlib hc ▸ h.steps)
    exact ⟨fun i hi => (heach i hi).1,
      List.forall_mem_iff_getElem.mpr fun i hi => (heach i hi).2.1,
      List.forall_mem_iff_getElem.mpr fun i hi => (heach i hi).2.2⟩
  · rintro ⟨hnumbered, hnumbers, hasks⟩
    have hblocks := hsteps.mpr fun i hi =>
      ⟨hnumbered i hi, hnumbers _ (List.getElem_mem hi), hasks _ (List.getElem_mem hi)⟩
    rw [← @steps_shownParts lib read carry props c hlib hc] at hblocks
    exact ⟨rfl, rfl, rfl, rfl, rfl, hblocks⟩

theorem refused_of_deep (hlib : Reads lib read)
    (hdeep : ¬ Shallow (canonData (reader lib) carry c props)) :
    ∃ e, parseCanon lib (listJson schemaUrl (canonData (reader lib) carry c props)) = .error e := by
  have hlarge : 127 < depth (canonValue schemaUrl (canonData (reader lib) carry c props)) := by
    by_contra hle
    apply hdeep
    apply (depth_canonValue_le schemaUrl _).mp
    omega
  obtain ⟨e, he⟩ := hlib.deep schemaUrl _ hlarge
  exact ⟨_, parseCanon_syntax he⟩

end Contents

theorem canonFits_changeNumbers {isUri : Text → Bool} {schemaUrl : Text} (read : Number → Number)
    (v : VersionData) :
    CanonFits isUri schemaUrl (changeNumbers read v) ↔ CanonFits isUri schemaUrl v := by
  have hsteps : (∀ t ∈ (changeNumbers read v).steps, StepFits isUri t) ↔
      ∀ t ∈ v.steps, StepFits isUri t := by
    rw [changeNumbers, List.forall_mem_map]
    exact forall₂_congr fun t _ => ⟨fun h => ⟨h.n, h.level, h.refs⟩, fun h => ⟨h.n, h.level, h.refs⟩⟩
  exact ⟨fun h => ⟨h.url, h.version, h.kind, hsteps.mp h.steps⟩,
    fun h => ⟨h.url, h.version, h.kind, hsteps.mpr h.steps⟩⟩

/-- The canon of an editable content is accepted back without an issue, and with the same content,
exactly when the content is showable. -/
theorem shown_canon_accepted_iff {lib : Libraries} {read : Number → Number} (hlib : Reads lib read)
    (carry : Uuid → Option CarryOver) (schemaUrl : Text) (props : Option Text × Option Value)
    (hheader : ∀ h ∈ props.2, UniqueKeys h) {c : ListContent} (hc : Editable lib.isUri c) :
    ∃ text, canonListJson (reader lib) carry schemaUrl (some c) props = .ok (utf8 text) ∧
      ((∃ parts, parseCanon lib text = .ok parts ∧
          SameContent (reader lib) carry c (listContentFromParts parts)) ↔
        Showable lib read carry schemaUrl c) := by
  have hmaps := @versionMaps_canonData lib read carry props c hlib hheader hc
  have hnumbers : NumbersFit (changeNumbers read (canonData (reader lib) carry c props)) := by
    refine ⟨hc.number, ?_⟩
    rw [changeNumbers, List.forall_mem_map]
    exact (numbersFit_canonData hc).steps
  refine ⟨listJson schemaUrl (canonData (reader lib) carry c props), rfl, ?_⟩
  by_cases hdepth : depth (canonValue schemaUrl (canonData (reader lib) carry c props)) ≤ 127
  · have hread := hlib.shown schemaUrl _ hmaps hdepth
    have hshallow := shallow_canonData.mp ((depth_canonValue_le schemaUrl _).mp hdepth)
    have hparse := fun parts => @parseCanon_canonValue _ _ lib _ parts hread hnumbers
    constructor
    · rintro ⟨parts, hok, hsame⟩
      obtain ⟨⟨hfits, -⟩, rfl⟩ := (hparse parts).mp hok
      obtain ⟨hurl, hrefs⟩ := (canonFits_canonData hc).mp ((canonFits_changeNumbers read _).mp hfits)
      obtain ⟨hnumbered, hpayloads, hasks⟩ := (sameContent_shownParts hlib hc).mp hsame
      exact ⟨hurl, hnumbered, hshallow, hpayloads, hrefs, hasks⟩
    · intro h
      have hfits := (@canonFits_canonData lib carry schemaUrl props c hc).mpr
        ⟨h.schema, h.refs⟩
      refine ⟨_, (hparse _).mpr ⟨⟨(canonFits_changeNumbers read _).mpr hfits, ?_⟩, rfl⟩,
        (sameContent_shownParts hlib hc).mpr ⟨h.numbered, h.numbers, h.asks⟩⟩
      rw [changeNumbers, List.forall_mem_map]
      exact fun t ht => ⟨(stepSilent_canonData hlib hc t ht).title,
        (stepSilent_canonData hlib hc t ht).refs⟩
  · have hdeep : ¬ Shallow (canonData (reader lib) carry c props) := fun h =>
      hdepth ((depth_canonValue_le schemaUrl _).mpr h)
    obtain ⟨e, he⟩ := @refused_of_deep lib read carry schemaUrl props c hlib hdeep
    refine iff_of_false ?_ fun h => hdeep (shallow_canonData.mpr h.shallow)
    rintro ⟨parts, hok, -⟩
    rw [he] at hok
    cases hok

def Printed (v : Value) (t : Text) : Prop := pretty 0 v ++ ['\n'] = t ∨ compact v = t

theorem Printed.unique {v w : Value} {t : Text} (hv : Printed v t) (hw : Printed w t) : v = w := by
  rcases hv with rfl | rfl
  · rcases hw with hw | hw
    · exact (pretty_injective (List.append_cancel_right hw)).symm
    · exact absurd hw (compact_ne_line w _)
  · rcases hw with hw | hw
    · exact absurd hw.symm (compact_ne_line v _)
    · exact (compact_injective hw).symm

open Classical in
/-- A reader of printed maps, and addresses that start like one of the web. -/
noncomputable def printedReader : Libraries where
  fromStr := fun t =>
    if h : ∃ v, UniqueKeys v ∧ depth v ≤ 127 ∧ Printed v t then .ok h.choose
    else .error ⟨[], 1, 1⟩
  isUri := fun u => "https://".toList.isPrefixOf u
  describe := fun _ _ => []

theorem printedReader_ok {v : Value} {t : Text} (hunique : UniqueKeys v) (hdepth : depth v ≤ 127)
    (hprint : Printed v t) : printedReader.fromStr t = .ok v := by
  have hex : ∃ w, UniqueKeys w ∧ depth w ≤ 127 ∧ Printed w t := ⟨v, hunique, hdepth, hprint⟩
  have hsame : hex.choose = v := hex.choose_spec.2.2.unique hprint
  simp only [printedReader]
  rw [dif_pos hex, hsame]

theorem printedReader_reads : Reads printedReader id where
  shown := by
    intro url v hmaps hdepth
    rw [changeNumbers_id]
    exact printedReader_ok (uniqueKeys_canonValue hmaps) hdepth (Or.inl rfl)
  deep := by
    intro url v hdeep
    refine ⟨⟨[], 1, 1⟩, ?_⟩
    simp only [printedReader]
    rw [dif_neg]
    rintro ⟨w, -, hdepth, hprint⟩
    obtain rfl := hprint.unique (Or.inl rfl)
    omega
  maps := by
    intro t v h
    simp only [printedReader] at h
    split_ifs at h with hex
    obtain rfl := Except.ok.inj h
    exact hex.choose_spec.1
  uri := by
    intro u hu
    have hmem : 'h' ∈ u := by
      obtain ⟨rest, rfl⟩ := List.isPrefixOf_iff_prefix.mp hu
      exact List.mem_append_left rest (by decide)
    have hvisible := Foundation.trim_ne_nil_of_mem hmem (by decide)
    rw [notBlank, Bool.not_eq_true', List.isEmpty_eq_false_iff]
    exact hvisible

def guideStep : SnapshotStep where
  n := 1
  title := "Install Redis".toList
  desc := []
  command := "brew install redis".toList
  level := "required".toList
  why := []
  section_ := []
  subtasks := ["Check the port".toList]
  refs := [⟨"docs".toList, "https://redis.io".toList⟩]
  type := []
  contentJson := []
  blockId := "11111111-2222-3333-4444-555555555555".toList
  danger := false
  imageKey := []
  needsHuman := false
  needsHumanAsk := []

def notePayload : Value :=
  .obj [("text".toList, .str "Mind the gap".toList), ("pages".toList, .arr [.int 3, .int 7])]

/-- A block of text with its payload. -/
def noteBlock : SnapshotStep :=
  { guideStep with
    n := 2
    title := []
    subtasks := []
    refs := []
    type := "text".toList
    contentJson := compact notePayload
    blockId := [] }

def guide : ListContent where
  title := "Redis".toList
  desc := []
  tags := ["cache".toList]
  ordered := true
  version := 1
  steps := [guideStep, noteBlock]

def guideMarks (_ : Uuid) : Option CarryOver :=
  some ⟨true, locVal "Which port?".toList, some "u/1/port.png".toList, true⟩

def publishedUrl : Text := "https://setfork.com/schema/list.v1.json".toList

theorem guideStep_editable : EditableStep printedReader.isUri guideStep := by
  refine ⟨by decide, by decide, by decide, fun _ => by decide, ?_⟩
  intro r hr
  obtain rfl := List.mem_singleton.mp hr
  exact Or.inl (by decide)

theorem guide_editable : Editable printedReader.isUri guide := by
  refine ⟨by decide, by decide, ?_⟩
  refine List.forall_mem_cons.mpr ⟨guideStep_editable, List.forall_mem_singleton.mpr ?_⟩
  exact ⟨by decide, by decide, by decide, fun hstep => (by cases hstep), fun r hr => (by cases hr)⟩

private theorem contentValue_noteBlock :
    contentValue (reader printedReader) noteBlock.type noteBlock.contentJson = notePayload := by
  have hunique : UniqueKeys notePayload := by
    refine ⟨by decide, trivial, ⟨trivial, trivial, trivial⟩, trivial⟩
  have hread : reader printedReader (compact notePayload) = some notePayload := by
    rw [reader, printedReader_ok hunique (by decide) (Or.inr rfl)]
    rfl
  have hblock : isStepType noteBlock.type = false := rfl
  have hjson : noteBlock.contentJson = compact notePayload := rfl
  have hne : (compact notePayload).isEmpty = false :=
    List.isEmpty_eq_false_iff.mpr (compact_ne_nil notePayload)
  rw [contentValue, hblock, hjson, hne, hread]
  rfl

theorem guide_showable : Showable printedReader id guideMarks publishedUrl guide where
  schema := by
    show "https://".toList.isPrefixOf publishedUrl = true
    decide
  numbered := by
    intro i hi
    have hlength : guide.steps.length = 2 := rfl
    obtain rfl | rfl : i = 0 ∨ i = 1 := by omega
    · rfl
    · rfl
  shallow := by
    refine List.forall_mem_cons.mpr ⟨fun hblock => (by cases hblock),
      List.forall_mem_singleton.mpr fun _ => ?_⟩
    rw [contentValue_noteBlock]
    decide
  numbers := fun _ _ _ _ _ => rfl
  refs := by
    refine List.forall_mem_cons.mpr ⟨List.forall_mem_singleton.mpr ?_,
      List.forall_mem_singleton.mpr fun r hr => (by cases hr)⟩
    show "https://".toList.isPrefixOf "https://redis.io".toList = true
    decide
  asks := by
    refine List.forall_mem_cons.mpr ⟨fun _ _ => (by decide), List.forall_mem_singleton.mpr ?_⟩
    exact fun hneeds => absurd hneeds (by decide)

theorem guide_accepted :
    ∃ text, canonListJson (reader printedReader) guideMarks publishedUrl (some guide)
        (none, none) = .ok (utf8 text) ∧
      ∃ parts, parseCanon printedReader text = .ok parts ∧
        SameContent (reader printedReader) guideMarks guide (listContentFromParts parts) := by
  obtain ⟨text, htext, hiff⟩ := shown_canon_accepted_iff printedReader_reads guideMarks
    publishedUrl (none, none) (fun _ hh => by cases hh) guide_editable
  exact ⟨text, htext, hiff.mpr guide_showable⟩

/-- Arrays in arrays. -/
def nested : Nat → Value
  | 0 => .null
  | n + 1 => .arr [nested n]

theorem depth_nested (n : Nat) : depth (nested n) = n := by
  induction n with
  | zero => rfl
  | succ n ih =>
    have hitems : depth (nested (n + 1)) = max (depth (nested n)) 0 + 1 := rfl
    rw [hitems, ih]
    omega

theorem uniqueKeys_nested (n : Nat) : UniqueKeys (nested n) := by
  induction n with
  | zero => exact trivial
  | succ n ih => exact ⟨ih, trivial⟩

/-- A block whose payload is nested this deep. -/
def deepBlock (n : Nat) : SnapshotStep :=
  { guideStep with
    n := 2
    title := []
    refs := []
    type := "text".toList
    contentJson := compact (nested n) }

def deepGuide (n : Nat) : ListContent := { guide with steps := [guideStep, deepBlock n] }

theorem deepGuide_editable (n : Nat) : Editable printedReader.isUri (deepGuide n) := by
  have hguide := guideStep_editable
  have hblock : EditableStep printedReader.isUri (deepBlock n) := by
    refine ⟨?_, rfl, hguide.level, fun hstep => (by cases hstep), fun r hr => (by cases hr)⟩
    show (1 : Int) ≤ 2
    omega
  refine ⟨guide_editable.version, guide_editable.number, ?_⟩
  intro s hs
  rcases List.mem_cons.mp hs with rfl | hs
  · exact hguide
  · obtain rfl := List.mem_singleton.mp hs
    exact hblock

theorem contentValue_deepBlock {n : Nat} (hn : n ≤ 127) :
    contentValue (reader printedReader) (deepBlock n).type (deepBlock n).contentJson =
      nested n := by
  have hread : reader printedReader (compact (nested n)) = some (nested n) := by
    have hdepth : depth (nested n) ≤ 127 := by rwa [depth_nested]
    rw [reader, printedReader_ok (uniqueKeys_nested n) hdepth (Or.inr rfl)]
    rfl
  have hblock : isStepType (deepBlock n).type = false := rfl
  have hjson : (deepBlock n).contentJson = compact (nested n) := rfl
  have hne : (compact (nested n)).isEmpty = false :=
    List.isEmpty_eq_false_iff.mpr (compact_ne_nil (nested n))
  rw [contentValue, hblock, hjson, hne, hread]
  rfl

/-- A payload of 125 levels is stored as it is, and the canon that shows it is refused. -/
theorem deep_payload_refused :
    Editable printedReader.isUri (deepGuide 125) ∧
    contentValue (reader printedReader) (deepBlock 125).type (deepBlock 125).contentJson =
      nested 125 ∧
    ∃ text, canonListJson (reader printedReader) (fun _ => none) publishedUrl
        (some (deepGuide 125)) (none, none) = .ok (utf8 text) ∧
      ∃ e, parseCanon printedReader text = .error e := by
  have hcontent := contentValue_deepBlock (show 125 ≤ 127 by omega)
  refine ⟨deepGuide_editable 125, hcontent, _, rfl, ?_⟩
  apply refused_of_deep printedReader_reads
  intro hshallow
  have hdeep := shallow_canonData.mp hshallow (deepBlock 125)
    (List.mem_cons_of_mem _ (List.mem_singleton.mpr rfl)) rfl
  rw [hcontent, depth_nested] at hdeep
  omega

end Setfork.EditorRoundTrip
