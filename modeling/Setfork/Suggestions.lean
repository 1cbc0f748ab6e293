/- Suggestions
   digest: What a proposed step keeps of itself when it is stored and read back. -/
import Setfork.Wire
import Setfork.Rows

set_option autoImplicit false
set_option relaxedAutoImplicit false

namespace Setfork.Suggestions

open Setfork.Foundation (Text)
open Setfork.Foundation.Json
open Setfork.Serialize (isStepType)
open Setfork.Rows (Jsonb jsonbRank)
open Setfork.Wire

section Codec

variable (fromStr : Text → Option Value)

/-- The members of a stored proposal; a picture and the payload of a block are there or not. -/
def proposedFields (s : NewStep) : List (Text × Option Value) :=
  [("title".toList, some (locJson s.title)),
   ("desc".toList, some (locJson s.desc)),
   ("command".toList, some (.str s.command)),
   ("hasImage".toList, some (.bool !s.imageRef.isEmpty)),
   ("imageKey".toList, if s.imageRef.isEmpty then none else some (.str s.imageRef)),
   ("level".toList, some (.str s.level)),
   ("why".toList, some (locJson s.why)),
   ("section".toList, some (locJson s.section_)),
   ("subtasks".toList, some (.arr (s.subtasks.map (fun t => locJson (some t))))),
   ("refs".toList, some (refsJson s.refs)),
   ("type".toList, if isStepType s.type then none else some (.str s.type)),
   ("content".toList,
     if isStepType s.type then none else some (contentValue fromStr s.type s.contentJson))]

def proposedJson (s : NewStep) : Value := .obj (present (proposedFields fromStr s))

/-- Only an object holds a locale text. -/
def locFromObj (v : Option Value) : Option LocaleText :=
  v.bind (fun x => if x.asObj.isSome then some (locMap x) else none)

def textAt (v : Value) (key : Text) : Text := ((v.get key).bind Value.asStr).getD []

def asBool : Value → Option Bool
  | .bool b => some b
  | _ => none

def boolAt (v : Value) (key : Text) : Bool := ((v.get key).bind asBool).getD false

def itemsAt (v : Value) (key : Text) : List Value := ((v.get key).bind Value.asArr).getD []

def refFromJson (v : Value) : Option StepRef :=
  if v.asObj.isSome then some ⟨locFromObj (v.get "label".toList), textAt v "url".toList⟩ else none

def jsonToStep (v : Value) : NewStep where
  blockId := textAt v "blockId".toList
  title := locFromObj (v.get "title".toList)
  desc := locFromObj (v.get "desc".toList)
  command := textAt v "command".toList
  level := textAt v "level".toList
  why := locFromObj (v.get "why".toList)
  section_ := locFromObj (v.get "section".toList)
  subtasks := (itemsAt v "subtasks".toList).filterMap (fun x => locFromObj (some x))
  refs := (itemsAt v "refs".toList).filterMap refFromJson
  imageRef := textAt v "imageKey".toList
  needsHuman := boolAt v "needsHuman".toList
  needsHumanAsk := locFromObj (v.get "needsHumanAsk".toList)
  danger := boolAt v "danger".toList
  type := wireType (some (textAt v "type".toList))
  contentJson :=
    if isStepType (textAt v "type".toList) then []
    else ((v.get "content".toList).map compact).getD []

/-- The items of a new suggestion go through a `jsonb` column, and the answer is read from there. -/
def createSuggestion (steps : List NewStep) : Jsonb × List NewStep :=
  let items := Jsonb.store (.arr (steps.map (proposedJson fromStr)))
  (items, (items.value.asArr.getD []).map jsonToStep)

end Codec

def SameLabel (a b : Option LocaleText) : Prop := Option.Rel SameText a b

structure SameRef (a b : StepRef) : Prop where
  label : SameLabel a.label b.label
  url : a.url = b.url

/-- A payload comes back as the same text, or as the printed form of the value it holds. -/
def SameContent (fromStr : Text → Option Value) (back sent : Text) : Prop :=
  back = sent ∨ ∃ v, fromStr sent = some v ∧ back = compact v

/-- The step that came back is the step that was sent, field by field. -/
structure Survives (fromStr : Text → Option Value) (sent back : NewStep) : Prop where
  blockId : back.blockId = sent.blockId
  title : SameLabel back.title sent.title
  desc : SameLabel back.desc sent.desc
  command : back.command = sent.command
  level : back.level = sent.level
  why : SameLabel back.why sent.why
  section_ : SameLabel back.section_ sent.section_
  subtasks : List.Forall₂ SameText back.subtasks sent.subtasks
  refs : List.Forall₂ SameRef back.refs sent.refs
  imageRef : back.imageRef = sent.imageRef
  needsHuman : back.needsHuman = sent.needsHuman
  needsHumanAsk : SameLabel back.needsHumanAsk sent.needsHumanAsk
  danger : back.danger = sent.danger
  type : wireType (some back.type) = wireType (some sent.type)
  content : SameContent fromStr back.contentJson sent.contentJson

/-- The texts every step has are there. -/
structure TextsPresent (s : NewStep) : Prop where
  title : s.title.isSome
  desc : s.desc.isSome
  why : s.why.isSome
  section_ : s.section_.isSome
  labels : ∀ r ∈ s.refs, r.label.isSome

/-- A block has a payload that is JSON, which no empty text is; a step has none. -/
def ContentFits (fromStr : Text → Option Value) (s : NewStep) : Prop :=
  if isStepType s.type then s.contentJson = []
  else s.contentJson ≠ [] ∧ (fromStr s.contentJson).isSome

/-- A step without identity and without the marks of its author. -/
structure Unmarked (s : NewStep) : Prop where
  blockId : s.blockId = []
  needsHuman : s.needsHuman = false
  needsHumanAsk : s.needsHumanAsk = none
  danger : s.danger = false

section Fields

variable (fromStr : Text → Option Value) (s : NewStep)

private theorem proposedFields_nodup : ((proposedFields fromStr s).map Prod.fst).Nodup := by
  simp only [proposedFields, List.map_cons, List.map_nil]
  decide

theorem get_proposedJson (key : Text) :
    (proposedJson fromStr s).get key =
      ((proposedFields fromStr s).find? (fun f => f.1 = key)).bind Prod.snd :=
  find_present key _ (proposedFields_nodup fromStr s)

private theorem locFromObj_locJson (l : Option LocaleText) :
    locFromObj (some (locJson l)) = some (locMap (locJson l)) := rfl

theorem sameLabel_locJson {l : Option LocaleText} (hl : l.isSome) :
    SameLabel (locFromObj (some (locJson l))) l := by
  obtain ⟨t, rfl⟩ := Option.isSome_iff_exists.mp hl
  exact Option.Rel.some (locMap_locJson t)

theorem sameText_subtasks (subtasks : List LocaleText) :
    List.Forall₂ SameText
      ((subtasks.map (fun t => locJson (some t))).filterMap (fun x => locFromObj (some x)))
      subtasks := by
  induction subtasks with
  | nil => exact List.Forall₂.nil
  | cons t subtasks ih =>
    simp only [List.map_cons, List.filterMap_cons, locFromObj_locJson]
    exact List.Forall₂.cons (locMap_locJson t) ih

private theorem get_refFields (r : StepRef) (key : Text) :
    (Value.obj (present (refFields r))).get key =
      ((refFields r).find? (fun f => f.1 = key)).bind Prod.snd := by
  apply find_present
  simp only [refFields, List.map_cons, List.map_nil]
  decide

theorem refFromJson_refFields (r : StepRef) :
    refFromJson (.obj (present (refFields r))) =
      some ⟨some (locMap (locJson r.label)), r.url⟩ := by
  have hlabel : (Value.obj (present (refFields r))).get "label".toList = some (locJson r.label) := by
    rw [get_refFields]
    rfl
  have hurl : textAt (Value.obj (present (refFields r))) "url".toList = r.url := by
    unfold textAt
    rw [get_refFields]
    cases hempty : r.url with
    | nil => simp [refFields, hempty]
    | cons c t => simp [refFields, hempty, Value.asStr]
  simp only [refFromJson, Value.asObj, Option.isSome_some, if_true]
  rw [hlabel, hurl, locFromObj_locJson]

theorem sameRef_refs {refs : List StepRef} (hlabels : ∀ r ∈ refs, r.label.isSome) :
    List.Forall₂ SameRef
      ((refs.map (fun r => Value.obj (present (refFields r)))).filterMap refFromJson) refs := by
  induction refs with
  | nil => exact List.Forall₂.nil
  | cons r refs ih =>
    obtain ⟨hr, hrest⟩ := List.forall_mem_cons.mp hlabels
    simp only [List.map_cons, List.filterMap_cons, refFromJson_refFields]
    refine List.Forall₂.cons ⟨?_, rfl⟩ (ih hrest)
    rw [← locFromObj_locJson]
    exact sameLabel_locJson hr

private theorem get_unwritten {key : Text}
    (hkey : (proposedFields fromStr s).find? (fun f => f.1 = key) = none) :
    (proposedJson fromStr s).get key = none := by
  rw [get_proposedJson, hkey]
  rfl

private theorem unmarked_of_absent {v : Value} (hblock : v.get "blockId".toList = none)
    (hneeds : v.get "needsHuman".toList = none) (hask : v.get "needsHumanAsk".toList = none)
    (hdanger : v.get "danger".toList = none) : Unmarked (jsonToStep v) := by
  refine ⟨?_, ?_, ?_, ?_⟩ <;> simp only [jsonToStep, textAt, boolAt]
  · rw [hblock]
    rfl
  · rw [hneeds]
    rfl
  · rw [hask]
    rfl
  · rw [hdanger]
    rfl

theorem marks_lost : Unmarked (jsonToStep (proposedJson fromStr s)) :=
  unmarked_of_absent (get_unwritten fromStr s rfl) (get_unwritten fromStr s rfl)
    (get_unwritten fromStr s rfl) (get_unwritten fromStr s rfl)

theorem textAt_type : textAt (proposedJson fromStr s) "type".toList = wireType (some s.type) := by
  have hget : (proposedJson fromStr s).get "type".toList =
      if isStepType s.type then none else some (.str s.type) := by
    rw [get_proposedJson]
    rfl
  unfold textAt
  rw [hget, wireType_some]
  split_ifs <;> rfl

theorem textAt_imageKey : textAt (proposedJson fromStr s) "imageKey".toList = s.imageRef := by
  have hget : (proposedJson fromStr s).get "imageKey".toList =
      if s.imageRef.isEmpty then none else some (.str s.imageRef) := by
    rw [get_proposedJson]
    rfl
  unfold textAt
  rw [hget]
  split_ifs with hempty
  · rw [List.isEmpty_iff.mp hempty]
    rfl
  · rfl

theorem content_back (hcontent : ContentFits fromStr s) :
    SameContent fromStr (jsonToStep (proposedJson fromStr s)).contentJson s.contentJson := by
  have hget : (proposedJson fromStr s).get "content".toList =
      if isStepType s.type then none
      else some (contentValue fromStr s.type s.contentJson) := by
    rw [get_proposedJson]
    rfl
  simp only [jsonToStep, textAt_type, isStepType_wireType, hget]
  unfold ContentFits at hcontent
  split_ifs at hcontent ⊢ with hstep
  · exact Or.inl hcontent.symm
  · obtain ⟨hsome, hread⟩ := hcontent
    obtain ⟨v, hv⟩ := Option.isSome_iff_exists.mp hread
    have hvalue : contentValue fromStr s.type s.contentJson = v := by
      simp [contentValue, hstep, hsome, hv]
    exact Or.inr ⟨v, hv, by rw [hvalue]; rfl⟩

theorem survives_iff_unmarked (htexts : TextsPresent s) (hcontent : ContentFits fromStr s) :
    Survives fromStr s (jsonToStep (proposedJson fromStr s)) ↔ Unmarked s := by
  have hlost := marks_lost fromStr s
  constructor
  · intro h
    refine ⟨?_, ?_, ?_, ?_⟩
    · rw [← h.blockId, hlost.blockId]
    · rw [← h.needsHuman, hlost.needsHuman]
    · have hask := h.needsHumanAsk
      rw [hlost.needsHumanAsk] at hask
      cases hs : s.needsHumanAsk with
      | none => rfl
      | some t =>
        rw [hs] at hask
        cases hask
    · rw [← h.danger, hlost.danger]
  · intro h
    have hkey := get_proposedJson fromStr s
    exact {
      blockId := by rw [hlost.blockId, h.blockId]
      title := by
        simp only [jsonToStep, hkey]
        exact sameLabel_locJson htexts.title
      desc := by
        simp only [jsonToStep, hkey]
        exact sameLabel_locJson htexts.desc
      command := by
        simp only [jsonToStep, textAt, hkey]
        rfl
      level := by
        simp only [jsonToStep, textAt, hkey]
        rfl
      why := by
        simp only [jsonToStep, hkey]
        exact sameLabel_locJson htexts.why
      section_ := by
        simp only [jsonToStep, hkey]
        exact sameLabel_locJson htexts.section_
      subtasks := by
        simp only [jsonToStep, itemsAt, hkey]
        exact sameText_subtasks s.subtasks
      refs := by
        simp only [jsonToStep, itemsAt, hkey]
        exact sameRef_refs htexts.labels
      imageRef := textAt_imageKey fromStr s
      needsHuman := by rw [hlost.needsHuman, h.needsHuman]
      needsHumanAsk := by
        rw [hlost.needsHumanAsk, h.needsHumanAsk]
        exact Option.Rel.none
      danger := by rw [hlost.danger, h.danger]
      type := by
        simp only [jsonToStep, textAt_type]
        rw [wireType_wireType, wireType_wireType]
      content := content_back fromStr s hcontent }

theorem type_back : (jsonToStep (proposedJson fromStr s)).type = wireType (some s.type) := by
  simp only [jsonToStep, textAt_type]
  exact wireType_wireType s.type

private theorem wireType_eq_self_iff (t : Text) : wireType (some t) = t ↔ t ≠ "step".toList := by
  rw [wireType_some]
  split_ifs with hstep
  · simp only [isStepType, Bool.or_eq_true, List.isEmpty_iff, beq_iff_eq] at hstep
    constructor
    · rintro rfl
      decide
    · intro hne
      exact (hstep.resolve_right hne).symm
  · refine iff_of_true rfl ?_
    rintro rfl
    exact hstep (by decide)

end Fields

/-- A suggestion survives storage exactly when it has neither identity nor marks; a step spelled
out as `step` comes back under its other spelling, the empty type. -/
theorem suggestion_survives_iff (fromStr : Text → Option Value) (s : NewStep)
    (htexts : TextsPresent s) (hcontent : ContentFits fromStr s) :
    (Survives fromStr s (jsonToStep (proposedJson fromStr s)) ↔ Unmarked s) ∧
      ((jsonToStep (proposedJson fromStr s)).type = s.type ↔ s.type ≠ "step".toList) := by
  refine ⟨survives_iff_unmarked fromStr s htexts hcontent, ?_⟩
  rw [type_back]
  exact wireType_eq_self_iff s.type

def inEnglish (s : Text) : LocaleText := AList.singleton "en".toList s

/-- A step or block of the protocol with texts in one language. -/
def cleanUp (type contentJson : Text) (danger : Bool) : NewStep where
  title := some (inEnglish "Clean up".toList)
  desc := some ∅
  command := "rm -rf build".toList
  level := "required".toList
  why := some ∅
  section_ := some ∅
  subtasks := [inEnglish "Check the path".toList]
  refs := [⟨some (inEnglish "Manual".toList), "https://example.org".toList⟩]
  imageRef := []
  type := type
  contentJson := contentJson
  blockId := []
  needsHuman := false
  needsHumanAsk := none
  danger := danger

private theorem cleanUp_texts (type contentJson : Text) (danger : Bool) :
    TextsPresent (cleanUp type contentJson danger) :=
  ⟨rfl, rfl, rfl, rfl, List.forall_mem_singleton.mpr rfl⟩

/-- A reader of JSON, as far as the empty list needs one. -/
def readEmptyList (t : Text) : Option Value := if t = "[]".toList then some (.arr []) else none

private theorem cleanUp_content :
    ContentFits readEmptyList (cleanUp "text".toList "[]".toList false) := by
  unfold ContentFits
  exact (if_neg (by decide)).mpr ⟨by decide, by decide⟩

theorem unmarked_block_survives :
    (Survives readEmptyList (cleanUp "text".toList "[]".toList false)
        (jsonToStep (proposedJson readEmptyList (cleanUp "text".toList "[]".toList false))) ↔
      Unmarked (cleanUp "text".toList "[]".toList false)) ∧
    ((jsonToStep (proposedJson readEmptyList (cleanUp "text".toList "[]".toList false))).type =
        (cleanUp "text".toList "[]".toList false).type ↔
      (cleanUp "text".toList "[]".toList false).type ≠ "step".toList) :=
  suggestion_survives_iff readEmptyList _ (cleanUp_texts _ _ _) cleanUp_content

/-- The mark of a destructive command is gone from the suggestion that proposes it. -/
theorem danger_mark_stripped :
    TextsPresent (cleanUp [] [] true) ∧ ContentFits readEmptyList (cleanUp [] [] true) ∧
    ¬ Survives readEmptyList (cleanUp [] [] true)
      (jsonToStep (proposedJson readEmptyList (cleanUp [] [] true))) := by
  refine ⟨cleanUp_texts _ _ _, (if_pos rfl).mpr rfl, ?_⟩
  intro h
  have hlost := marks_lost readEmptyList (cleanUp [] [] true)
  have hdanger := h.danger
  rw [hlost.danger] at hdanger
  cases hdanger

end Setfork.Suggestions
