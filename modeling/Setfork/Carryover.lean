/- Carryover
   digest: The projection of a manifest: rows with carried marks, the new version, the patched meta. -/
import Setfork.CanonMirror
import Setfork.Project

set_option autoImplicit false
set_option relaxedAutoImplicit false

namespace Setfork.Carryover

open Setfork.Foundation (Text trim Uuid)
open Setfork.Foundation.Json
open Setfork.Serialize
open Setfork.Rows
open Setfork.CanonMirror
open Setfork.Project

/-- What a new version takes over from the current one by block identity. -/
structure CarryOver where
  needsHuman : Bool
  needsHumanAsk : Value
  imageKey : Option Text
  danger : Bool

def CarryOver.default : CarryOver := ⟨false, .obj [], none, false⟩

def currentRows (s : ListState) : List StepRecord :=
  ((s.versions.filter (fun v => v.version = s.currentVersion)).flatMap
    (fun v => v.steps)).insertionSort recordLe

def markOf (r : StepRecord) : CarryOver where
  needsHuman := r.needsHuman.getD false
  needsHumanAsk := (r.needsHumanAsk.map Jsonb.value).getD (.obj [])
  imageKey := r.imageKey
  danger := r.danger.getD false

/-- The insertions that build the map of marks, in order. -/
def currentMarks (s : ListState) : List (Uuid × CarryOver) :=
  (currentRows s).filterMap (fun r => r.blockId.map (fun id => (id, markOf r)))

def lastMark (keep : List (Uuid × CarryOver)) (id : Uuid) : Option CarryOver :=
  (keep.reverse.find? (fun m => m.1 = id)).map Prod.snd

def blockUuid (s : ProjStep) : Option Uuid := s.blockId.bind Uuid.parseStr

def carried (keep : List (Uuid × CarryOver)) (s : ProjStep) : CarryOver :=
  ((blockUuid s).bind (lastMark keep)).getD CarryOver.default

def enValue (s : Text) : Value := .obj [("en".toList, .str s)]

def refRow (r : ProjRef) : Value :=
  let label := trim r.label
  let url := (r.url.map trim).filter (fun u => !u.isEmpty)
  .obj (("label".toList, if label.isEmpty then .obj [] else enValue label) ::
    (url.map (fun u => ("url".toList, Value.str u))).toList)

/-- An image key: the file decides when it has the field, an empty one takes the image away. -/
def imageKeyRow (key : Option Text) (carry : CarryOver) : Option Text :=
  match key.map trim with
  | some [] => none
  | some k => some k
  | none => carry.imageKey

def askRow (mark : Option Bool) (ask : Option Text) (carry : CarryOver) : Value :=
  match mark with
  | some true => (ask.map locVal).getD (.obj [])
  | some false => .obj []
  | none => carry.needsHumanAsk

def projStepRow (keep : List (Uuid × CarryOver)) (s : ProjStep) : StepRow where
  blockType := storageType s.blockType
  content := if isStepType s.blockType then .obj [] else s.content
  blockId := blockUuid s
  title := locVal s.title
  desc := locVal s.desc
  command := trim s.command
  imageKey := imageKeyRow s.imageKey (carried keep s)
  level := Level.parse s.level
  why := locVal s.why
  section_ := locVal s.section_
  subtasks := .arr ((s.subtasks.filter notBlank).map (fun x => enValue (trim x)))
  refs := .arr ((s.refs.filter (fun r => keepsRef r.label r.url)).map refRow)
  needsHuman := s.needsHuman.getD (carried keep s).needsHuman
  needsHumanAsk := askRow s.needsHuman s.needsHumanAsk (carried keep s)
  danger := s.danger.getD (carried keep s).danger

/-- A new version of the list; a number that is taken fails the insertion. -/
def addVersion (s : ListState) (note : Text) (createdAt : Int) (steps : List ProjStep) :
    Option ListState :=
  if s.versions.any (fun v => v.version = s.currentVersion + 1) then none
  else
    some (saveVersion (s.currentVersion + 1) note createdAt
      (steps.map (projStepRow (currentMarks s))) s)

def headerPatch (current : Option Value) : Option Value → Option Value
  | none => current
  | some (.obj []) => none
  | some h =>
    match skillHeaderValid h with
    | some valid => some valid
    | none => current

/-- The meta of a pushed canon; a field that is not in the file changes nothing. -/
def updateMeta (raw : RawList) (s : ListState) : ListState :=
  { s with
    title := if raw.title.any notBlank then Jsonb.store (locVal (raw.title.getD [])) else s.title
    desc := (raw.desc.map (fun d => Jsonb.store (locVal d))).getD s.desc
    tags := (raw.tags.map (List.take 20)).getD s.tags
    ordered := raw.ordered.getD s.ordered
    listKind := (raw.kind.filter isValidKind).or s.listKind
    skillHeader := headerPatch s.skillHeader raw.skillHeader }

/-- The projection of a parsed manifest; one without steps makes no version. -/
def projectList (s : ListState) (raw : RawList) (note : Text) (createdAt : Int) :
    Option ListState :=
  raw.steps.bind (fun steps =>
    (addVersion s note createdAt (parseSteps steps)).map (updateMeta raw))

end Setfork.Carryover
