/- Wire
   digest: Steps and locale texts as the service protocol carries them, and their JSON. -/
import Mathlib.Data.List.AList
import Setfork.Serialize

set_option autoImplicit false
set_option relaxedAutoImplicit false

namespace Setfork.Wire

open Setfork.Foundation (Text)
open Setfork.Foundation.Json
open Setfork.Serialize (isStepType)

abbrev LocaleText := AList (fun _ : Text => Text)

def localeMembers (l : LocaleText) : List (Text × Value) :=
  l.entries.map (fun e => (e.1, .str e.2))

/-- A text that is not there is written as one without languages. -/
def locJson (l : Option LocaleText) : Value := .obj (l.elim [] localeMembers)

def insertText (texts : LocaleText) (m : Text × Value) : LocaleText :=
  match m.2.asStr with
  | some s => texts.insert m.1 s
  | none => texts

/-- Members that are not texts are skipped. -/
def locMap (v : Value) : LocaleText := (v.asObj.getD []).foldl insertText ∅

def SameText (a b : LocaleText) : Prop := ∀ lang, a.lookup lang = b.lookup lang

private theorem lookup_foldl_insertText (entries : List (Sigma fun _ : Text => Text))
    (hnodup : entries.NodupKeys) (texts : LocaleText) (lang : Text) :
    ((entries.map (fun e => (e.1, Value.str e.2))).foldl insertText texts).lookup lang =
      (entries.dlookup lang).or (texts.lookup lang) := by
  induction entries generalizing texts with
  | nil => rfl
  | cons e entries ih =>
    obtain ⟨k, s⟩ := e
    rw [List.nodupKeys_cons] at hnodup
    obtain ⟨hfresh, hrest⟩ := hnodup
    simp only [List.map_cons, List.foldl_cons]
    rw [ih hrest]
    change (entries.dlookup lang).or ((texts.insert k s).lookup lang) = _
    by_cases hk : lang = k
    · subst hk
      have habsent : entries.dlookup lang = none := List.dlookup_eq_none.mpr hfresh
      rw [habsent, AList.lookup_insert, List.dlookup_cons_eq]
      rfl
    · have hskip : List.dlookup lang ((⟨k, s⟩ : Sigma fun _ : Text => Text) :: entries) =
          entries.dlookup lang := List.dlookup_cons_ne entries ⟨k, s⟩ hk
      rw [AList.lookup_insert_ne hk, hskip]

theorem locMap_locJson (l : LocaleText) : SameText (locMap (locJson (some l))) l := by
  intro lang
  have hfold := lookup_foldl_insertText l.entries l.nodupKeys ∅ lang
  rw [AList.lookup_empty, Option.or_none] at hfold
  exact hfold

structure StepRef where
  label : Option LocaleText
  url : Text

/-- A step or block as a client sends it and reads it. -/
structure NewStep where
  title : Option LocaleText
  desc : Option LocaleText
  command : Text
  level : Text
  why : Option LocaleText
  section_ : Option LocaleText
  subtasks : List LocaleText
  refs : List StepRef
  imageRef : Text
  type : Text
  contentJson : Text
  blockId : Text
  needsHuman : Bool
  needsHumanAsk : Option LocaleText
  danger : Bool

/-- The type the protocol carries: a step is always the empty text. -/
def wireType (t : Option Text) : Text :=
  match t with
  | some t => if isStepType t then [] else t
  | none => []

theorem wireType_some (t : Text) : wireType (some t) = if isStepType t then [] else t := rfl

@[simp] theorem isStepType_wireType (t : Text) : isStepType (wireType (some t)) = isStepType t := by
  rw [wireType_some]
  split_ifs with hstep
  · rw [hstep]
    rfl
  · rfl

@[simp] theorem wireType_wireType (t : Text) :
    wireType (some (wireType (some t))) = wireType (some t) := by
  rw [wireType_some (wireType (some t)), isStepType_wireType]
  split_ifs with hstep
  · rw [wireType_some, if_pos hstep]
  · rfl

/-- The payload of a block; a step, no text and a text that is no JSON have the empty object. -/
def contentValue (fromStr : Text → Option Value) (stepType contentJson : Text) : Value :=
  if isStepType stepType || contentJson.isEmpty then .obj []
  else (fromStr contentJson).getD (.obj [])

theorem uniqueKeys_contentValue {fromStr : Text → Option Value}
    (hmaps : ∀ t v, fromStr t = some v → UniqueKeys v) (type contentJson : Text) :
    UniqueKeys (contentValue fromStr type contentJson) := by
  have hempty : UniqueKeys (.obj []) := ⟨List.nodup_nil, trivial⟩
  unfold contentValue
  split_ifs
  · exact hempty
  · cases h : fromStr contentJson with
    | none => exact hempty
    | some w => exact hmaps contentJson w h

def refFields (r : StepRef) : List (Text × Option Value) :=
  [("label".toList, some (locJson r.label)),
   ("url".toList, if r.url.isEmpty then none else some (.str r.url))]

def refsJson (refs : List StepRef) : Value :=
  .arr (refs.map (fun r => .obj (present (refFields r))))

end Setfork.Wire
