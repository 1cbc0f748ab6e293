/- Project
   digest: Reading list.json back: the soft parse, the steps it keeps, and what a canon parses to. -/
import Setfork.Foundation.JsonNumbers
import Setfork.Readme

set_option autoImplicit false
set_option relaxedAutoImplicit false

namespace Setfork.Project

open Setfork.Foundation (Text Bytes trim utf8 utf8_injective)
open Setfork.Foundation.Json
open Setfork.Serialize
open Setfork.Readme (readme)

structure RawRef where
  label : Option Text
  url : Option Text

structure RawStep where
  n : Option Int
  blockId : Option Text
  blockType : Option Text
  content : Option Value
  title : Option Text
  desc : Option Text
  command : Option Text
  imageKey : Option Text
  level : Option Text
  needsHuman : Option Bool
  needsHumanAsk : Option Text
  danger : Option Bool
  why : Option Text
  section_ : Option Text
  subtasks : Option (List Text)
  refs : Option (List RawRef)

/-- The manifest with all its fields optional. -/
structure RawList where
  title : Option Text
  desc : Option Text
  tags : Option (List Text)
  ordered : Option Bool
  kind : Option Text
  skillHeader : Option Value
  version : Option Int
  steps : Option (List RawStep)

/-- The members of a record: an object, or an array with one item for each field. -/
def recordMembers (names : List String) : Value → Option (List (Text × Value))
  | .obj members => some members
  | .arr items =>
    if items.length = names.length then some ((names.map String.toList).zip items) else none
  | _ => none

def optional {α : Type} (read : Value → Option α) : Option Value → Option (Option α)
  | none => some none
  | some .null => some none
  | some v => (read v).map some

def field {α : Type} (read : Value → Option α) (members : List (Text × Value)) (name : String) :
    Option (Option α) :=
  optional read (find name.toList members)

def asInt : Value → Option Int
  | .int i => some i
  | _ => none

def asBool : Value → Option Bool
  | .bool b => some b
  | _ => none

def asList {α : Type} (read : Value → Option α) (v : Value) : Option (List α) :=
  v.asArr.bind (List.mapM read)

def RawRef.ofJson (v : Value) : Option RawRef := do
  let m ← recordMembers ["label", "url"] v
  let label ← field Value.asStr m "label"
  let url ← field Value.asStr m "url"
  some ⟨label, url⟩

def stepNames : List String :=
  ["n", "blockId", "type", "content", "title", "desc", "command", "imageKey", "level",
    "needsHuman", "needsHumanAsk", "danger", "why", "section", "subtasks", "refs"]

def RawStep.ofJson (v : Value) : Option RawStep := do
  let m ← recordMembers stepNames v
  let n ← field asInt m "n"
  let blockId ← field Value.asStr m "blockId"
  let blockType ← field Value.asStr m "type"
  let content ← field some m "content"
  let title ← field Value.asStr m "title"
  let desc ← field Value.asStr m "desc"
  let command ← field Value.asStr m "command"
  let imageKey ← field Value.asStr m "imageKey"
  let level ← field Value.asStr m "level"
  let needsHuman ← field asBool m "needsHuman"
  let needsHumanAsk ← field Value.asStr m "needsHumanAsk"
  let danger ← field asBool m "danger"
  let why ← field Value.asStr m "why"
  let section_ ← field Value.asStr m "section"
  let subtasks ← field (asList Value.asStr) m "subtasks"
  let refs ← field (asList RawRef.ofJson) m "refs"
  some ⟨n, blockId, blockType, content, title, desc, command, imageKey, level, needsHuman,
    needsHumanAsk, danger, why, section_, subtasks, refs⟩

def listNames : List String :=
  ["title", "desc", "tags", "ordered", "kind", "skillHeader", "version", "steps"]

def RawList.ofJson (v : Value) : Option RawList := do
  let m ← recordMembers listNames v
  let title ← field Value.asStr m "title"
  let desc ← field Value.asStr m "desc"
  let tags ← field (asList Value.asStr) m "tags"
  let ordered ← field asBool m "ordered"
  let kind ← field Value.asStr m "kind"
  let skillHeader ← field some m "skillHeader"
  let version ← field asInt m "version"
  let steps ← field (asList RawStep.ofJson) m "steps"
  some ⟨title, desc, tags, ordered, kind, skillHeader, version, steps⟩

structure ProjRef where
  label : Text
  url : Option Text

/-- A step on its way from list.json to a row. A mark that is `none` was not in the file. -/
structure ProjStep where
  imageKey : Option Text
  needsHuman : Option Bool
  needsHumanAsk : Option Text
  danger : Option Bool
  blockType : Text
  content : Value
  blockId : Option Text
  title : Text
  desc : Text
  command : Text
  level : Text
  why : Text
  section_ : Text
  subtasks : List Text
  refs : List ProjRef

def notBlank (s : Text) : Bool := !(trim s).isEmpty

def parseStep (s : RawStep) : Option ProjStep :=
  let bt := s.blockType.getD []
  let isStep := isStepType bt
  if isStep && !notBlank (s.title.getD []) then none
  else
    some {
      imageKey := s.imageKey
      needsHuman := s.needsHuman
      needsHumanAsk := s.needsHumanAsk.filter notBlank
      danger := s.danger
      blockType := if isStep then [] else bt
      blockId := s.blockId.filter notBlank
      content := if isStep then .null else s.content.getD .null
      title := s.title.getD []
      desc := s.desc.getD []
      command := s.command.getD []
      level := s.level.getD []
      why := s.why.getD []
      section_ := s.section_.getD []
      subtasks := s.subtasks.getD []
      refs := ((s.refs.getD []).filter (fun r => keepsRef (r.label.getD []) r.url)).map
        (fun r => ⟨r.label.getD [], r.url⟩) }

def parseSteps (steps : List RawStep) : List ProjStep := steps.filterMap parseStep

def readmeStep (number : Int) (r : RawStep) : SerStep where
  n := r.n.getD number
  blockType := r.blockType
  content := r.content.getD .null
  blockId := r.blockId
  title := r.title.getD []
  desc := r.desc.getD []
  command := r.command.getD []
  imageKey := r.imageKey
  level := r.level.getD []
  needsHuman := r.needsHuman.getD false
  needsHumanAsk := r.needsHumanAsk
  danger := r.danger.getD false
  why := r.why.getD []
  section_ := r.section_.getD []
  subtasks := r.subtasks.getD []
  refs := (r.refs.getD []).map (fun x => ⟨x.label.getD [], x.url⟩)

/-- The README of a canon that is put into a tree as it is. -/
def readmeFromCanon (fromSlice : Bytes → Option RawList) (raw : Bytes) : Option Text :=
  (fromSlice raw).map (fun parsed => readme {
    version := parsed.version.getD 0
    note := []
    ts := 0
    title := parsed.title.getD []
    desc := parsed.desc.getD []
    tags := parsed.tags.getD []
    ordered := parsed.ordered.getD true
    kind := parsed.kind
    skillHeader := parsed.skillHeader
    steps := (parsed.steps.getD []).mapIdx (fun i r => readmeStep ((i : Int) + 1) r) })

/-- Cuts `vN: ` off the subject of a commit. -/
def stripVPrefix (s : Text) : Text :=
  match s with
  | 'v' :: rest =>
    match rest.dropWhile Char.isDigit with
    | ':' :: tail => if rest.head?.any Char.isDigit then tail.dropWhile (· == ' ') else s
    | _ => s
  | _ => s

def projectionNote (subject : Text) : Text :=
  let stripped := (stripVPrefix subject).take 200
  if notBlank stripped then stripped else "pushed via git".toList

def rawOfRef (r : StepRef) : RawRef where
  label := if r.label.isEmpty then none else some r.label
  url := r.url

def nonNull : Value → Option Value
  | .null => none
  | v => some v

def rawOfStep (t : SerStep) : RawStep where
  n := some t.n
  blockId := t.blockId
  blockType := if isStepBlock t then none else some (t.blockType.getD [])
  content := if isStepBlock t then none else nonNull t.content
  title := some t.title
  desc := some t.desc
  command := some t.command
  imageKey := printedImageKey t
  level := some t.level
  needsHuman := if t.needsHuman then some true else none
  needsHumanAsk := if t.needsHuman then t.needsHumanAsk else none
  danger := if t.danger then some true else none
  why := some t.why
  section_ := some t.section_
  subtasks := some t.subtasks
  refs := some (t.refs.map rawOfRef)

def rawOfCanon (v : VersionData) : RawList where
  title := some v.title
  desc := some v.desc
  tags := some v.tags
  ordered := some v.ordered
  kind := v.kind
  skillHeader := v.skillHeader.bind skillHeaderValid
  version := some v.version
  steps := some (v.steps.map rawOfStep)

private theorem field_present {α : Type} (read : Value → Option α)
    {fields : List (Text × Option Value)} (hnodup : (fields.map Prod.fst).Nodup) (name : String)
    (o : Option Value)
    (hfind : fields.find? (fun f => f.1 = name.toList) = some (name.toList, o)) :
    field read (present fields) name = optional read o := by
  rw [field, find_present _ _ hnodup, hfind]
  rfl

private theorem optional_str (o : Option Text) : optional Value.asStr (o.map Value.str) = some o := by
  cases o <;> rfl

private theorem optional_arr {α : Type} (read : Value → Option α) (items : List Value) :
    optional read (some (.arr items)) = (read (.arr items)).map some := rfl

theorem optional_some (o : Option Value) : optional some o = some (o.bind nonNull) := by
  cases o with
  | none => rfl
  | some v => cases v <;> rfl

private theorem mapM_map {α β γ : Type} {f : β → Option γ} {g : α → β} {k : α → γ}
    (h : ∀ a, f (g a) = some (k a)) (xs : List α) : (xs.map g).mapM f = some (xs.map k) := by
  induction xs with
  | nil => rfl
  | cons x xs ih => simp [List.mapM_cons, h, ih]

theorem asList_texts (ts : List Text) : asList Value.asStr (texts ts) = some ts := by
  have h := mapM_map (f := Value.asStr) (g := Value.str) (k := id) (fun _ => rfl) ts
  rwa [List.map_id] at h

theorem rawRef_refValue (r : StepRef) : RawRef.ofJson (refValue r) = some (rawOfRef r) := by
  obtain ⟨label, url⟩ := r
  cases label <;> cases url <;> rfl

private theorem optional_flag (b : Bool) :
    optional asBool (if b then some (.bool true) else none) =
      some (if b then some true else none) := by
  cases b <;> rfl

private theorem optional_texts (ts : List Text) :
    optional (asList Value.asStr) (some (texts ts)) = some (some ts) := by
  have h := asList_texts ts
  rw [texts] at h ⊢
  rw [optional_arr, h]
  rfl

theorem bind_of_eq {α β : Type} {x : Option α} {a : α} {f : α → Option β} {r : Option β}
    (hx : x = some a) (h : f a = r) : (x >>= f) = r := by
  rw [hx]
  exact h

private theorem skillHeader_obj {o : Option Value} {w : Value}
    (h : o.bind skillHeaderValid = some w) : ∃ members, w = .obj members := by
  simp only [Option.bind_eq_some_iff, skillHeaderValid] at h
  obtain ⟨v, -, obj, -, hout⟩ := h
  split_ifs at hout
  exact ⟨_, (Option.some.inj hout).symm⟩

theorem rawStep_stepValue (t : SerStep) : RawStep.ofJson (stepValue t) = some (rawOfStep t) := by
  have hf {α : Type} (read : Value → Option α) (name : String) (o : Option Value)
      (hfind : (stepFields t).find? (fun f => f.1 = name.toList) = some (name.toList, o)) :
      field read (present (stepFields t)) name = optional read o :=
    field_present read (stepFields_nodup t) name o hfind
  have hstr (name : String) (x : Text)
      (hfind : (stepFields t).find? (fun f => f.1 = name.toList) =
        some (name.toList, some (.str x))) :
      field Value.asStr (present (stepFields t)) name = some (some x) := hf Value.asStr name _ hfind
  have hid := (hf Value.asStr "blockId" (t.blockId.map .str) rfl).trans (optional_str _)
  have htype : field Value.asStr (present (stepFields t)) "type" =
      some (rawOfStep t).blockType := by
    rw [hf Value.asStr "type" (if isStepBlock t then none else some (.str (t.blockType.getD []))) rfl]
    cases h : isStepBlock t <;> simp [rawOfStep, h, optional, Value.asStr]
  have hcontent : field some (present (stepFields t)) "content" = some (rawOfStep t).content := by
    rw [hf some "content" (if isStepBlock t then none else some t.content) rfl, optional_some]
    cases h : isStepBlock t <;> simp [rawOfStep, h]
  have himage := (hf Value.asStr "imageKey" ((printedImageKey t).map .str) rfl).trans
    (optional_str _)
  have hneeds := (hf asBool "needsHuman" (if t.needsHuman then some (.bool true) else none) rfl).trans
    (optional_flag _)
  have hask : field Value.asStr (present (stepFields t)) "needsHumanAsk" =
      some (rawOfStep t).needsHumanAsk := by
    rw [hf Value.asStr "needsHumanAsk"
      (if t.needsHuman then t.needsHumanAsk.map .str else none) rfl]
    cases h : t.needsHuman
    · simp [rawOfStep, h, optional]
    · simp [rawOfStep, h, optional_str]
  have hdanger := (hf asBool "danger" (if t.danger then some (.bool true) else none) rfl).trans
    (optional_flag _)
  have hsubtasks := (hf (asList Value.asStr) "subtasks" (some (texts t.subtasks)) rfl).trans
    (optional_texts _)
  have hrefs : field (asList RawRef.ofJson) (present (stepFields t)) "refs" =
      some (some (t.refs.map rawOfRef)) := by
    rw [hf (asList RawRef.ofJson) "refs" (some (.arr (t.refs.map refValue))) rfl]
    have hlist : asList RawRef.ofJson (.arr (t.refs.map refValue)) = some (t.refs.map rawOfRef) :=
      mapM_map rawRef_refValue t.refs
    rw [optional_arr, hlist]
    rfl
  have hmembers : recordMembers stepNames (stepValue t) = some (present (stepFields t)) := rfl
  have hn : field asInt (present (stepFields t)) "n" = some (some t.n) :=
    hf asInt "n" (some (.int t.n)) rfl
  have htitle := hstr "title" t.title rfl
  have hdesc := hstr "desc" t.desc rfl
  have hcommand := hstr "command" t.command rfl
  have hlevel := hstr "level" t.level rfl
  have hwhy := hstr "why" t.why rfl
  have hsection := hstr "section" t.section_ rfl
  unfold RawStep.ofJson
  refine bind_of_eq hmembers ?_
  refine bind_of_eq hn ?_
  refine bind_of_eq hid ?_
  refine bind_of_eq htype ?_
  refine bind_of_eq hcontent ?_
  refine bind_of_eq htitle ?_
  refine bind_of_eq hdesc ?_
  refine bind_of_eq hcommand ?_
  refine bind_of_eq himage ?_
  refine bind_of_eq hlevel ?_
  refine bind_of_eq hneeds ?_
  refine bind_of_eq hask ?_
  refine bind_of_eq hdanger ?_
  refine bind_of_eq hwhy ?_
  refine bind_of_eq hsection ?_
  refine bind_of_eq hsubtasks ?_
  refine bind_of_eq hrefs ?_
  rfl

theorem rawList_canonValue (schemaUrl : Text) (v : VersionData) :
    RawList.ofJson (canonValue schemaUrl v) = some (rawOfCanon v) := by
  have hf {α : Type} (read : Value → Option α) (name : String) (o : Option Value)
      (hfind : (canonFields schemaUrl v).find? (fun f => f.1 = name.toList) =
        some (name.toList, o)) :
      field read (present (canonFields schemaUrl v)) name = optional read o :=
    field_present read (canonFields_nodup schemaUrl v) name o hfind
  have htitle : field Value.asStr (present (canonFields schemaUrl v)) "title" =
      some (some v.title) := hf Value.asStr "title" (some (.str v.title)) rfl
  have hdesc : field Value.asStr (present (canonFields schemaUrl v)) "desc" =
      some (some v.desc) := hf Value.asStr "desc" (some (.str v.desc)) rfl
  have htags := (hf (asList Value.asStr) "tags" (some (texts v.tags)) rfl).trans (optional_texts _)
  have hordered : field asBool (present (canonFields schemaUrl v)) "ordered" =
      some (some v.ordered) := hf asBool "ordered" (some (.bool v.ordered)) rfl
  have hkind := (hf Value.asStr "kind" (v.kind.map .str) rfl).trans (optional_str _)
  have hheader : field some (present (canonFields schemaUrl v)) "skillHeader" =
      some (v.skillHeader.bind skillHeaderValid) := by
    rw [hf some "skillHeader" (v.skillHeader.bind skillHeaderValid) rfl, optional_some]
    cases h : v.skillHeader.bind skillHeaderValid with
    | none => rfl
    | some w =>
      obtain ⟨members, rfl⟩ := skillHeader_obj h
      rfl
  have hversion : field asInt (present (canonFields schemaUrl v)) "version" =
      some (some v.version) := hf asInt "version" (some (.int v.version)) rfl
  have hsteps : field (asList RawStep.ofJson) (present (canonFields schemaUrl v)) "steps" =
      some (some (v.steps.map rawOfStep)) := by
    rw [hf (asList RawStep.ofJson) "steps" (some (.arr (v.steps.map stepValue))) rfl]
    have hlist : asList RawStep.ofJson (.arr (v.steps.map stepValue)) =
        some (v.steps.map rawOfStep) := mapM_map rawStep_stepValue v.steps
    rw [optional_arr, hlist]
    rfl
  have hmembers : recordMembers listNames (canonValue schemaUrl v) =
      some (present (canonFields schemaUrl v)) := rfl
  unfold RawList.ofJson
  refine bind_of_eq hmembers ?_
  refine bind_of_eq htitle ?_
  refine bind_of_eq hdesc ?_
  refine bind_of_eq htags ?_
  refine bind_of_eq hordered ?_
  refine bind_of_eq hkind ?_
  refine bind_of_eq hheader ?_
  refine bind_of_eq hversion ?_
  refine bind_of_eq hsteps ?_
  rfl

/-- Contents are maps and stay within the nesting limit of the parser: the payload of a block
stands three containers deep. -/
structure RawList.Bounded (raw : RawList) : Prop where
  content : ∀ steps ∈ raw.steps, ∀ r ∈ steps, ∀ c ∈ r.content, UniqueKeys c ∧ depth c ≤ 124
  header : ∀ h ∈ raw.skillHeader, UniqueKeys h

def fitsInt32 (i : Int) : Bool := -2147483648 ≤ i && i ≤ 2147483647

structure NumbersFit (v : VersionData) : Prop where
  version : fitsInt32 v.version = true
  steps : ∀ t ∈ v.steps, fitsInt32 t.n = true

/-- What the types of a version promise: the values it carries are maps, and its numbers fit. -/
structure VersionMaps (v : VersionData) : Prop where
  content : ∀ t ∈ v.steps, UniqueKeys t.content
  header : ∀ h ∈ v.skillHeader, UniqueKeys h
  numbers : NumbersFit v

def changeStep (f : Number → Number) (t : SerStep) : SerStep :=
  { t with content := mapNumbers f t.content }

def changeNumbers (f : Number → Number) (v : VersionData) : VersionData :=
  { v with steps := v.steps.map (changeStep f) }

/-- The JSON reader: it reads a printed value up to its nesting limit, and a printed number as
`read` says, which for a float need not be the number that was printed. -/
structure Parser (schemaUrl : Text) where
  fromSlice : Bytes → Option RawList
  read : Number → Number
  canon : ∀ v, VersionMaps v → depth (canonValue schemaUrl v) ≤ 127 →
    fromSlice (utf8 (listJson schemaUrl v)) =
      RawList.ofJson (canonValue schemaUrl (changeNumbers read v))
  deep : ∀ v, 127 < depth (canonValue schemaUrl v) →
    fromSlice (utf8 (listJson schemaUrl v)) = none
  bounded : ∀ b raw, fromSlice b = some raw → raw.Bounded

def Shallow (v : VersionData) : Prop :=
  ∀ t ∈ v.steps, isStepBlock t = false → depth t.content ≤ 124

private theorem mem_present {fields : List (Text × Option Value)} {m : Text × Value} :
    m ∈ present fields ↔ (m.1, some m.2) ∈ fields := by
  simp only [present, List.mem_filterMap, Option.map_eq_some_iff]
  constructor
  · rintro ⟨⟨k, o⟩, hf, v, rfl, rfl⟩
    exact hf
  · intro hf
    exact ⟨(m.1, some m.2), hf, m.2, rfl, rfl⟩

private theorem depth_present_le {fields : List (Text × Option Value)} {n : Nat} :
    depth (.obj (present fields)) ≤ n + 1 ↔ ∀ f ∈ fields, ∀ v ∈ f.2, depth v ≤ n := by
  simp only [depth_obj_le, mem_present]
  constructor
  · rintro h ⟨k, o⟩ hf v hv
    obtain rfl : o = some v := hv
    exact h (k, v) hf
  · intro h m hm
    exact h (m.1, some m.2) hm m.2 rfl

private theorem depth_str (x : Text) : depth (.str x) = 0 := rfl

private theorem depth_texts_le (ts : List Text) (n : Nat) : depth (texts ts) ≤ n + 1 := by
  rw [texts, depth_arr_le]
  intro v hv
  obtain ⟨x, -, rfl⟩ := List.mem_map.mp hv
  exact Nat.zero_le n

private theorem depth_map_str_le (o : Option Text) (n : Nat) : ∀ v ∈ o.map Value.str, depth v ≤ n := by
  intro v hv
  obtain ⟨x, -, rfl⟩ := Option.map_eq_some_iff.mp hv
  exact Nat.zero_le n

private theorem depth_refs_le (refs : List StepRef) (n : Nat) :
    depth (.arr (refs.map refValue)) ≤ n + 2 := by
  rw [depth_arr_le]
  intro v hv
  obtain ⟨r, -, rfl⟩ := List.mem_map.mp hv
  rw [refValue, depth_present_le]
  intro f hf
  simp only [refFields, List.mem_cons, List.not_mem_nil, or_false] at hf
  rcases hf with rfl | rfl
  · intro w hw
    cases h : r.label.isEmpty <;> simp [h] at hw
    rw [← hw]
    exact Nat.zero_le n
  · exact depth_map_str_le r.url n

private theorem depth_if_le {b : Bool} {o p : Option Value} {n : Nat}
    (ho : b = true → ∀ v ∈ o, depth v ≤ n) (hp : b = false → ∀ v ∈ p, depth v ≤ n) :
    ∀ v, (if b = true then o else p) = some v → depth v ≤ n := by
  intro v hv
  cases b with
  | true => exact ho rfl v hv
  | false => exact hp rfl v hv

private theorem depth_none (n : Nat) : ∀ v ∈ (none : Option Value), depth v ≤ n := nofun

private theorem depth_some_true (n : Nat) : ∀ v ∈ some (Value.bool true), depth v ≤ n := by
  intro v hv
  rw [← Option.some.inj hv]
  exact Nat.zero_le n

private theorem depth_stepValue_le (t : SerStep) :
    depth (stepValue t) ≤ 125 ↔ (isStepBlock t = false → depth t.content ≤ 124) := by
  rw [stepValue, depth_present_le]
  simp only [stepFields, List.forall_mem_cons, List.not_mem_nil, false_implies, implies_true,
    Option.mem_def, Option.some.injEq, forall_eq', depth_str, Nat.zero_le, and_true, true_and]
  constructor
  · rintro ⟨-, -, -, hcontent, -⟩ hblock
    exact hcontent _ (by simp [hblock])
  · intro h
    have htype : ∀ v ∈ some (Value.str (t.blockType.getD [])), depth v ≤ 124 := by
      intro v hv
      rw [← Option.some.inj hv]
      exact Nat.zero_le 124
    have hcontent : isStepBlock t = false → ∀ v ∈ some t.content, depth v ≤ 124 := by
      intro hblock v hv
      rw [← Option.some.inj hv]
      exact h hblock
    refine ⟨Nat.zero_le _, depth_map_str_le _ _, depth_if_le (fun _ => depth_none _) fun _ => htype,
      depth_if_le (fun _ => depth_none _) hcontent, depth_map_str_le _ _,
      depth_if_le (fun _ => depth_some_true _) fun _ => depth_none _,
      depth_if_le (fun _ => depth_map_str_le _ _) fun _ => depth_none _,
      depth_if_le (fun _ => depth_some_true _) fun _ => depth_none _,
      depth_texts_le _ 123, depth_refs_le _ 122⟩

private theorem depth_header_le {o : Option Value} {n : Nat} :
    ∀ v ∈ o.bind skillHeaderValid, depth v ≤ n + 2 := by
  intro v hv
  simp only [Option.mem_def, Option.bind_eq_some_iff, skillHeaderValid] at hv
  obtain ⟨w, -, obj, -, hout⟩ := hv
  split_ifs at hout
  obtain rfl := Option.some.inj hout
  rw [depth_present_le]
  intro f hf w hw
  rcases List.mem_append.mp hf with hf | hf
  · obtain ⟨key, -, rfl⟩ := List.mem_map.mp hf
    obtain ⟨x, -, rfl⟩ := Option.map_eq_some_iff.mp hw
    exact Nat.zero_le _
  · obtain rfl := List.mem_singleton.mp hf
    simp only [headerMetadata, Option.mem_def, Option.bind_eq_some_iff, Option.map_eq_some_iff] at hw
    obtain ⟨clean, ⟨metadata, -, rfl⟩, hclean⟩ := hw
    split_ifs at hclean
    obtain rfl := Option.some.inj hclean
    rw [depth_obj_le]
    intro m hm
    obtain ⟨k, -, hk⟩ := List.mem_filterMap.mp hm
    obtain ⟨x, -, rfl⟩ := Option.map_eq_some_iff.mp hk
    exact Nat.zero_le n

/-- The canon of a version parses exactly when its payloads are within the limit. -/
theorem depth_canonValue_le (schemaUrl : Text) (v : VersionData) :
    depth (canonValue schemaUrl v) ≤ 127 ↔ Shallow v := by
  have hsteps : depth (.arr (v.steps.map stepValue)) ≤ 126 ↔ Shallow v := by
    rw [depth_arr_le, List.forall_mem_map]
    exact forall_congr' fun t => imp_congr_right fun _ => depth_stepValue_le t
  rw [canonValue, depth_present_le, ← hsteps]
  simp only [canonFields, List.forall_mem_cons, List.not_mem_nil, false_implies, implies_true,
    Option.mem_def, Option.some.injEq, forall_eq', depth_str, Nat.zero_le, and_true, true_and]
  constructor
  · rintro ⟨-, -, -, -, -, h⟩
    exact h
  · intro h
    exact ⟨depth_texts_le _ 125, Nat.zero_le _, depth_map_str_le _ _, depth_header_le, Nat.zero_le _,
      h⟩

theorem Parser.fromSlice_listJson {schemaUrl : Text} (parser : Parser schemaUrl) {v : VersionData}
    (hmaps : VersionMaps v) : (Shallow v →
      parser.fromSlice (utf8 (listJson schemaUrl v)) =
        some (rawOfCanon (changeNumbers parser.read v))) ∧
    (¬ Shallow v → parser.fromSlice (utf8 (listJson schemaUrl v)) = none) := by
  rw [← depth_canonValue_le schemaUrl v]
  refine ⟨fun h => ?_, fun h => parser.deep v (by omega)⟩
  rw [parser.canon v hmaps h, rawList_canonValue]

open Classical in
noncomputable def readCanon (schemaUrl : Text) (b : Bytes) : Option RawList :=
  if h : ∃ v, VersionMaps v ∧ Shallow v ∧ utf8 (listJson schemaUrl v) = b then
    some (rawOfCanon h.choose)
  else none

private theorem canonValue_of_print {schemaUrl : Text} {v w : VersionData}
    (h : utf8 (listJson schemaUrl v) = utf8 (listJson schemaUrl w)) :
    canonValue schemaUrl v = canonValue schemaUrl w :=
  listJson_inj.mp (utf8_injective h)

private theorem rawOfCanon_bounded {v : VersionData} (hmaps : VersionMaps v) (hshallow : Shallow v) :
    (rawOfCanon v).Bounded := by
  constructor
  · intro steps hsteps r hr c hc
    obtain rfl := Option.some.inj hsteps
    obtain ⟨t, ht, rfl⟩ := List.mem_map.mp hr
    simp only [rawOfStep] at hc
    cases hblock : isStepBlock t with
    | true =>
      rw [hblock] at hc
      cases hc
    | false =>
      rw [hblock] at hc
      have hcontent : c = t.content := by
        cases h : t.content <;> simp_all [nonNull]
      rw [hcontent]
      exact ⟨hmaps.content t ht, hshallow t ht hblock⟩
  · intro h hh
    obtain ⟨w, hw, hvalid⟩ := Option.bind_eq_some_iff.mp hh
    exact uniqueKeys_skillHeaderValid (hmaps.header w hw) hvalid

theorem changeNumbers_id (v : VersionData) : changeNumbers id v = v := by
  have hsteps : v.steps.map (changeStep id) = v.steps :=
    List.map_id'' (fun t => by rw [changeStep, mapNumbers_id]) v.steps
  rw [changeNumbers, hsteps]

/-- It gives every number back. -/
noncomputable def canonParser (schemaUrl : Text) : Parser schemaUrl where
  fromSlice := readCanon schemaUrl
  read := id
  canon := by
    intro v hmaps hdepth
    have hex : ∃ w, VersionMaps w ∧ Shallow w ∧
        utf8 (listJson schemaUrl w) = utf8 (listJson schemaUrl v) :=
      ⟨v, hmaps, (depth_canonValue_le schemaUrl v).mp hdepth, rfl⟩
    rw [readCanon, dif_pos hex, changeNumbers_id, ← canonValue_of_print hex.choose_spec.2.2,
      rawList_canonValue]
  deep := by
    intro v hdeep
    rw [readCanon, dif_neg]
    intro hex
    obtain ⟨w, -, hshallow, hprint⟩ := hex
    have hw := (depth_canonValue_le schemaUrl w).mpr hshallow
    rw [canonValue_of_print hprint] at hw
    omega
  bounded := by
    intro b raw h
    unfold readCanon at h
    split_ifs at h with hex
    obtain rfl := Option.some.inj h
    exact rawOfCanon_bounded hex.choose_spec.1 hex.choose_spec.2.1

end Setfork.Project
