/- Convert
   digest: The content of a list on the wire, and the canon of a branch that is made of it. -/
import Setfork.Carryover
import Setfork.StrictCanon
import Setfork.Wire

set_option autoImplicit false
set_option relaxedAutoImplicit false

namespace Setfork.Convert

open Setfork.Foundation (Text Bytes trim utf8 Uuid)
open Setfork.Foundation.Json
open Setfork.Serialize
open Setfork.Rows (loc numbered presentText)
open Setfork.Carryover (CarryOver)
open Setfork.Project (ProjStep notBlank)
open Setfork.StrictCanon (ListParts)
open Setfork.Wire (contentValue)

structure SnapshotRef where
  label : Text
  url : Text

structure SnapshotStep where
  n : Int
  title : Text
  desc : Text
  command : Text
  level : Text
  why : Text
  section_ : Text
  subtasks : List Text
  refs : List SnapshotRef
  type : Text
  contentJson : Text
  blockId : Text
  danger : Bool
  imageKey : Text
  needsHuman : Bool
  needsHumanAsk : Text

structure ListContent where
  title : Text
  desc : Text
  tags : List Text
  ordered : Bool
  version : Int
  steps : List SnapshotStep

def stepToPb (n : Int) (st : ProjStep) : SnapshotStep where
  n := n
  title := st.title
  desc := st.desc
  command := st.command
  level := st.level
  why := st.why
  section_ := st.section_
  subtasks := st.subtasks
  refs := st.refs.map (fun r => ⟨r.label, r.url.getD []⟩)
  type := st.blockType
  contentJson := if st.blockType.isEmpty then [] else compact st.content
  blockId := st.blockId.getD []
  danger := st.danger.getD false
  imageKey := st.imageKey.getD []
  needsHuman := st.needsHuman.getD false
  needsHumanAsk := st.needsHumanAsk.getD []

/-- Blocks are numbered by their place. -/
def stepsToPb (steps : List ProjStep) : List SnapshotStep := numbered stepToPb steps

def listContentFromParts (p : ListParts) : ListContent where
  title := p.title
  desc := p.desc
  tags := p.tags
  ordered := p.ordered
  version := p.version
  steps := stepsToPb p.steps

section Canon

variable (fromStr : Text → Option Value)

def fromSnapshotStep (s : SnapshotStep) : SerStep where
  n := s.n
  blockType := if isStepType s.type then none else some s.type
  content := contentValue fromStr s.type s.contentJson
  blockId := (some s.blockId).filter notBlank
  title := s.title
  desc := s.desc
  command := s.command
  imageKey := none
  level := s.level
  needsHuman := false
  needsHumanAsk := none
  danger := false
  why := s.why
  section_ := s.section_
  subtasks := s.subtasks
  refs := s.refs.map (fun r => ⟨r.label, if r.url.isEmpty then none else some r.url⟩)

def fromListContent (c : ListContent) : VersionData where
  version := c.version
  note := []
  ts := 0
  title := c.title
  desc := c.desc
  tags := c.tags
  ordered := c.ordered
  kind := none
  skillHeader := none
  steps := c.steps.map (fromSnapshotStep fromStr)

variable (carry : Uuid → Option CarryOver)

def enriched (s : SerStep) : SerStep :=
  match (s.blockId.bind Uuid.parseStr).bind carry with
  | none => s
  | some co =>
    { s with
      imageKey := co.imageKey
      needsHuman := co.needsHuman
      needsHumanAsk := (presentText (loc co.needsHumanAsk)).filter (fun _ => co.needsHuman)
      danger := co.danger }

/-- The version data of a canon that is written into a branch: kind, header and marks come from the
database. -/
def canonData (c : ListContent) (props : Option Text × Option Value) : VersionData :=
  { fromListContent fromStr c with
    kind := props.1.filter isValidKind
    skillHeader := props.2
    steps := (fromListContent fromStr c).steps.map (enriched carry) }

inductive Status where
  | invalidArgument (message : Text)
deriving DecidableEq

def canonListJson (schemaUrl : Text) (content : Option ListContent)
    (props : Option Text × Option Value) : Except Status Bytes :=
  match content with
  | none => .error (.invalidArgument "content required".toList)
  | some c => .ok (utf8 (listJson schemaUrl (canonData fromStr carry c props)))

end Canon

section Blocks

variable {fromStr : Text → Option Value} {carry : Uuid → Option CarryOver}

def markFor (carry : Uuid → Option CarryOver) (s : SnapshotStep) : CarryOver :=
  ((Uuid.parseStr s.blockId).bind carry).getD CarryOver.default

def canonBlock (fromStr : Text → Option Value) (carry : Uuid → Option CarryOver)
    (s : SnapshotStep) : SerStep :=
  { fromSnapshotStep fromStr s with
    imageKey := (markFor carry s).imageKey
    needsHuman := (markFor carry s).needsHuman
    needsHumanAsk := (presentText (loc (markFor carry s).needsHumanAsk)).filter
      (fun _ => (markFor carry s).needsHuman)
    danger := (markFor carry s).danger }

theorem parse_visible (id : Option Text) :
    (id.filter notBlank).bind Uuid.parseStr = id.bind Uuid.parseStr := by
  cases id with
  | none => rfl
  | some t =>
    rw [Option.filter_some]
    cases hblank : notBlank t with
    | true => rfl
    | false =>
      show none = Uuid.parseStr t
      cases hparse : Uuid.parseStr t with
      | none => rfl
      | some u =>
        have hvisible := Uuid.trim_ne_nil_of_parseStr hparse
        rw [notBlank, Bool.not_eq_false', List.isEmpty_iff] at hblank
        exact absurd hblank hvisible

theorem parse_blockId (s : SnapshotStep) :
    ((fromSnapshotStep fromStr s).blockId).bind Uuid.parseStr = Uuid.parseStr s.blockId :=
  parse_visible (some s.blockId)

theorem enriched_fromSnapshotStep (s : SnapshotStep) :
    enriched carry (fromSnapshotStep fromStr s) = canonBlock fromStr carry s := by
  rw [enriched, parse_blockId, canonBlock, markFor]
  cases (Uuid.parseStr s.blockId).bind carry <;> rfl

theorem canonData_steps (c : ListContent) (props : Option Text × Option Value) :
    (canonData fromStr carry c props).steps = c.steps.map (canonBlock fromStr carry) := by
  rw [canonData, fromListContent, List.map_map]
  exact List.map_congr_left fun s _ => enriched_fromSnapshotStep s

@[simp] theorem isStepBlock_canonBlock (s : SnapshotStep) :
    isStepBlock (canonBlock fromStr carry s) = isStepType s.type := by
  rw [canonBlock, isStepBlock, fromSnapshotStep]
  cases h : isStepType s.type <;> simp [h]

end Blocks

end Setfork.Convert
