/- Serialize
   digest: The canon list.json of a version, and which parts of a version it determines. -/
import Setfork.Foundation.JsonPrint

set_option autoImplicit false
set_option relaxedAutoImplicit false

namespace Setfork.Serialize

open Setfork.Foundation (Text trim)
open Setfork.Foundation.Json

/-- A step proper, as opposed to a block that carries a type and a content. -/
def isStepType (t : Text) : Bool := t.isEmpty || t == "step".toList

/-- The type a row stores: a step is always an explicit `step`. -/
def storageType (t : Text) : Text := if isStepType t then "step".toList else t

theorem isStepType_storageType (t : Text) : isStepType (storageType t) = isStepType t := by
  unfold storageType
  split_ifs with h
  · rw [h]
    decide
  · rfl

structure StepRef where
  label : Text
  url : Option Text

/-- A reference lives by an address or by a label. -/
def keepsRef (label : Text) (url : Option Text) : Bool :=
  !(trim label).isEmpty || url.any (fun u => !(trim u).isEmpty)

/-- A step or block of a version on its way to the canon. -/
structure SerStep where
  n : Int
  blockType : Option Text
  content : Value
  blockId : Option Text
  title : Text
  desc : Text
  command : Text
  imageKey : Option Text
  level : Text
  needsHuman : Bool
  needsHumanAsk : Option Text
  danger : Bool
  why : Text
  section_ : Text
  subtasks : List Text
  refs : List StepRef

def isStepBlock (s : SerStep) : Bool := s.blockType.all isStepType

structure VersionData where
  version : Int
  note : Text
  ts : Int
  title : Text
  desc : Text
  tags : List Text
  ordered : Bool
  kind : Option Text
  skillHeader : Option Value
  steps : List SerStep

def listKinds : List Text :=
  ["procedure", "inventory", "checklist", "criteria", "options", "recipe"].map String.toList

def isValidKind (s : Text) : Bool := listKinds.contains s

def skillHeaderKeys : List Text :=
  ["license", "compatibility", "allowed-tools", "heading"].map String.toList

def headerText (obj : List (Text × Value)) (key : Text) : Option Value :=
  (((find key obj).bind Value.asStr).filter (fun s => !(trim s).isEmpty)).map Value.str

/-- The members of `metadata` that survive: strings outside the reserved prefix. -/
def cleanMetadata (metadata : List (Text × Value)) : List (Text × Value) :=
  (metadata.filter (fun m => !"setfork-".toList.isPrefixOf m.1)).filterMap
    (fun m => m.2.asStr.map (fun s => (m.1, Value.str s)))

def headerMetadata (obj : List (Text × Value)) : Option Value :=
  (((find "metadata".toList obj).bind Value.asObj).map cleanMetadata).bind
    (fun clean => if clean.isEmpty then none else some (Value.obj clean))

def headerFields (obj : List (Text × Value)) : List (Text × Option Value) :=
  skillHeaderKeys.map (fun key => (key, headerText obj key)) ++
    [("metadata".toList, headerMetadata obj)]

/-- The header of a skill in its admitted form, or nothing. -/
def skillHeaderValid (v : Value) : Option Value :=
  v.asObj.bind (fun obj =>
    let out := present (headerFields obj)
    if out.isEmpty then none else some (Value.obj out))

theorem headerFields_nodup (obj : List (Text × Value)) :
    ((headerFields obj).map Prod.fst).Nodup := by
  simp only [headerFields, skillHeaderKeys, List.map_append, List.map_cons, List.map_nil]
  decide

private theorem find_headerText (obj : List (Text × Value)) {key : Text}
    (hkey : key ∈ skillHeaderKeys) :
    find key (present (headerFields obj)) = headerText obj key := by
  rw [find_present key _ (headerFields_nodup obj)]
  simp only [skillHeaderKeys, List.map_cons, List.map_nil, List.mem_cons, List.not_mem_nil,
    or_false] at hkey
  rcases hkey with rfl | rfl | rfl | rfl <;> rfl

private theorem find_headerMetadata (obj : List (Text × Value)) :
    find "metadata".toList (present (headerFields obj)) = headerMetadata obj := by
  rw [find_present _ _ (headerFields_nodup obj)]
  rfl

private theorem headerText_idem (obj : List (Text × Value)) {key : Text}
    (hkey : key ∈ skillHeaderKeys) :
    headerText (present (headerFields obj)) key = headerText obj key := by
  rw [headerText, find_headerText obj hkey, headerText]
  cases (find key obj).bind Value.asStr with
  | none => rfl
  | some s => by_cases hs : (trim s).isEmpty <;> simp [Option.filter, hs, Value.asStr]

theorem cleanMetadata_idem (metadata : List (Text × Value)) :
    cleanMetadata (cleanMetadata metadata) = cleanMetadata metadata := by
  induction metadata with
  | nil => rfl
  | cons m ms ih =>
    obtain ⟨k, v⟩ := m
    unfold cleanMetadata at ih ⊢
    cases hk : "setfork-".toList.isPrefixOf k <;> cases v <;> simp_all [Value.asStr]

private theorem headerMetadata_idem (obj : List (Text × Value)) :
    headerMetadata (present (headerFields obj)) = headerMetadata obj := by
  rw [headerMetadata, find_headerMetadata, headerMetadata]
  cases (find "metadata".toList obj).bind Value.asObj with
  | none => rfl
  | some metadata =>
    by_cases hclean : cleanMetadata metadata = []
    · simp [hclean]
    · simp [hclean, Value.asObj, cleanMetadata_idem]

private theorem headerFields_idem (obj : List (Text × Value)) :
    headerFields (present (headerFields obj)) = headerFields obj := by
  have htexts : skillHeaderKeys.map (fun key => (key, headerText (present (headerFields obj)) key))
      = skillHeaderKeys.map (fun key => (key, headerText obj key)) :=
    List.map_congr_left fun key hkey => by rw [headerText_idem obj hkey]
  rw [headerFields, htexts, headerMetadata_idem]
  rfl

theorem skillHeaderValid_idem {v h : Value} (hv : skillHeaderValid v = some h) :
    skillHeaderValid h = some h := by
  simp only [skillHeaderValid, Option.bind_eq_some_iff] at hv
  obtain ⟨obj, -, hout⟩ := hv
  split_ifs at hout with hempty
  obtain rfl := Option.some.inj hout
  simp only [skillHeaderValid, Value.asObj, Option.bind_some, headerFields_idem, if_neg hempty]

theorem bind_skillHeaderValid_idem (o : Option Value) :
    (o.bind skillHeaderValid).bind skillHeaderValid = o.bind skillHeaderValid := by
  cases o with
  | none => rfl
  | some v =>
    cases hv : skillHeaderValid v with
    | none => simp [hv]
    | some h => simp [hv, skillHeaderValid_idem hv]

private theorem uniqueKeys_cleanMetadata {metadata : List (Text × Value)}
    (hmeta : (metadata.map Prod.fst).Nodup) : UniqueKeys (.obj (cleanMetadata metadata)) := by
  have hkeys : ((cleanMetadata metadata).map Prod.fst).Sublist (metadata.map Prod.fst) := by
    have hfilter : ((metadata.filter (fun m => !"setfork-".toList.isPrefixOf m.1)).map
        Prod.fst).Sublist (metadata.map Prod.fst) := List.filter_sublist.map Prod.fst
    refine List.Sublist.trans ?_ hfilter
    rw [cleanMetadata]
    generalize metadata.filter (fun m => !"setfork-".toList.isPrefixOf m.1) = ms
    induction ms with
    | nil => exact List.Sublist.slnil
    | cons m ms ih =>
      rw [List.filterMap_cons]
      cases m.2.asStr with
      | none => exact ih.cons _
      | some x => exact ih.cons_cons _
  refine ⟨hmeta.sublist hkeys, (uniqueMembers_iff _).mpr fun m hm => ?_⟩
  obtain ⟨k, -, hk⟩ := List.mem_filterMap.mp hm
  obtain ⟨x, -, rfl⟩ := Option.map_eq_some_iff.mp hk
  exact trivial

theorem uniqueKeys_skillHeaderValid {v h : Value} (hv : UniqueKeys v)
    (hvalid : skillHeaderValid v = some h) : UniqueKeys h := by
  simp only [skillHeaderValid, Option.bind_eq_some_iff] at hvalid
  obtain ⟨obj, hobj, hout⟩ := hvalid
  split_ifs at hout
  obtain rfl := Option.some.inj hout
  obtain rfl : v = .obj obj := by
    cases v <;> simp [Value.asObj] at hobj
    rw [hobj]
  refine uniqueKeys_present (headerFields_nodup obj) fun f hf w hw => ?_
  rcases List.mem_append.mp hf with hf | hf
  · obtain ⟨key, -, rfl⟩ := List.mem_map.mp hf
    obtain ⟨x, -, rfl⟩ := Option.map_eq_some_iff.mp hw
    exact trivial
  · obtain rfl := List.mem_singleton.mp hf
    simp only [headerMetadata, Option.mem_def, Option.bind_eq_some_iff,
      Option.map_eq_some_iff] at hw
    obtain ⟨clean, ⟨metadata, ⟨inner, hfind, hmeta⟩, rfl⟩, hclean⟩ := hw
    split_ifs at hclean
    obtain rfl := Option.some.inj hclean
    obtain rfl : inner = .obj metadata := by
      cases inner <;> simp [Value.asObj] at hmeta
      rw [hmeta]
    have hmem : ∃ m ∈ obj, m.2 = .obj metadata := by
      obtain ⟨m, hm, hm2⟩ := Option.map_eq_some_iff.mp hfind
      exact ⟨m, List.mem_of_find?_eq_some hm, hm2⟩
    obtain ⟨m, hm, hm2⟩ := hmem
    have hunique := (uniqueMembers_iff obj).mp hv.2 m hm
    rw [hm2] at hunique
    exact uniqueKeys_cleanMetadata hunique.1

def refFields (r : StepRef) : List (Text × Option Value) :=
  [("label".toList, if r.label.isEmpty then none else some (.str r.label)),
   ("url".toList, r.url.map .str)]

def refValue (r : StepRef) : Value := .obj (present (refFields r))

def printedImageKey (s : SerStep) : Option Text :=
  (s.imageKey.map trim).filter (fun k => !k.isEmpty)

def texts (ts : List Text) : Value := .arr (ts.map .str)

def stepFields (s : SerStep) : List (Text × Option Value) :=
  [("n".toList, some (.int s.n)),
   ("blockId".toList, s.blockId.map .str),
   ("type".toList, if isStepBlock s then none else some (.str (s.blockType.getD []))),
   ("content".toList, if isStepBlock s then none else some s.content),
   ("title".toList, some (.str s.title)),
   ("desc".toList, some (.str s.desc)),
   ("command".toList, some (.str s.command)),
   ("imageKey".toList, (printedImageKey s).map .str),
   ("level".toList, some (.str s.level)),
   ("needsHuman".toList, if s.needsHuman then some (.bool true) else none),
   ("needsHumanAsk".toList, if s.needsHuman then s.needsHumanAsk.map .str else none),
   ("danger".toList, if s.danger then some (.bool true) else none),
   ("why".toList, some (.str s.why)),
   ("section".toList, some (.str s.section_)),
   ("subtasks".toList, some (texts s.subtasks)),
   ("refs".toList, some (.arr (s.refs.map refValue)))]

def stepValue (s : SerStep) : Value := .obj (present (stepFields s))

def canonFields (schemaUrl : Text) (v : VersionData) : List (Text × Option Value) :=
  [("$schema".toList, some (.str schemaUrl)),
   ("title".toList, some (.str v.title)),
   ("desc".toList, some (.str v.desc)),
   ("tags".toList, some (texts v.tags)),
   ("ordered".toList, some (.bool v.ordered)),
   ("kind".toList, v.kind.map .str),
   ("skillHeader".toList, v.skillHeader.bind skillHeaderValid),
   ("version".toList, some (.int v.version)),
   ("steps".toList, some (.arr (v.steps.map stepValue)))]

def canonValue (schemaUrl : Text) (v : VersionData) : Value :=
  .obj (present (canonFields schemaUrl v))

/-- The machine-readable snapshot of a version. -/
def listJson (schemaUrl : Text) (v : VersionData) : Text :=
  pretty 0 (canonValue schemaUrl v) ++ ['\n']

theorem listJson_inj {schemaUrl : Text} {v w : VersionData} :
    listJson schemaUrl v = listJson schemaUrl w ↔
      canonValue schemaUrl v = canonValue schemaUrl w := by
  refine ⟨fun h => pretty_injective (List.append_cancel_right h), fun h => ?_⟩
  rw [listJson, listJson, h]

private theorem str_injective : Function.Injective Value.str := fun _ _ h => Value.str.inj h

theorem texts_inj {a b : List Text} : texts a = texts b ↔ a = b := by
  rw [texts, texts, Value.arr.injEq]
  exact (List.map_injective_iff.mpr str_injective).eq_iff

theorem refFields_nodup (r : StepRef) : ((refFields r).map Prod.fst).Nodup := by
  simp only [refFields, List.map_cons, List.map_nil]
  decide

theorem refValue_inj {r r' : StepRef} : refValue r = refValue r' ↔ r = r' := by
  refine ⟨fun h => ?_, fun h => h ▸ rfl⟩
  have hfields : refFields r = refFields r' := by
    rw [refValue, refValue, Value.obj.injEq] at h
    have hkeys : (refFields r).map Prod.fst = (refFields r').map Prod.fst := rfl
    exact (present_inj hkeys (refFields_nodup r)).mp h
  obtain ⟨label, url⟩ := r
  obtain ⟨label', url'⟩ := r'
  simp only [refFields, List.cons.injEq, Prod.mk.injEq, true_and, and_true,
    (Option.map_injective str_injective).eq_iff] at hfields
  obtain ⟨hlabel, rfl⟩ := hfields
  cases label <;> cases label' <;> simp_all

structure SameStep (s t : SerStep) : Prop where
  n : s.n = t.n
  blockId : s.blockId = t.blockId
  isStep : isStepBlock s = isStepBlock t
  blockType : isStepBlock s = false → s.blockType.getD [] = t.blockType.getD []
  content : isStepBlock s = false → s.content = t.content
  title : s.title = t.title
  desc : s.desc = t.desc
  command : s.command = t.command
  imageKey : printedImageKey s = printedImageKey t
  level : s.level = t.level
  needsHuman : s.needsHuman = t.needsHuman
  needsHumanAsk : s.needsHuman = true → s.needsHumanAsk = t.needsHumanAsk
  danger : s.danger = t.danger
  why : s.why = t.why
  section_ : s.section_ = t.section_
  subtasks : s.subtasks = t.subtasks
  refs : s.refs = t.refs

private theorem refs_inj {a b : List StepRef} : a.map refValue = b.map refValue ↔ a = b :=
  (List.map_injective_iff.mpr fun _ _ h => refValue_inj.mp h).eq_iff

theorem stepFields_nodup (s : SerStep) : ((stepFields s).map Prod.fst).Nodup := by
  simp only [stepFields, List.map_cons, List.map_nil]
  decide

theorem stepValue_inj {s t : SerStep} : stepValue s = stepValue t ↔ SameStep s t := by
  have hfields : stepValue s = stepValue t ↔ stepFields s = stepFields t := by
    rw [stepValue, stepValue, Value.obj.injEq]
    exact present_inj rfl (stepFields_nodup s)
  rw [hfields]
  simp only [stepFields, List.cons.injEq, Prod.mk.injEq, true_and, and_true, Option.some.injEq,
    Value.int.injEq, Value.str.injEq, Value.arr.injEq, (Option.map_injective str_injective).eq_iff,
    texts_inj, refs_inj]
  constructor
  · rintro ⟨hn, hid, htype, hcontent, htitle, hdesc, hcommand, himage, hlevel, hhuman, hask,
      hdanger, hwhy, hsection, hsubtasks, hrefs⟩
    have hstep : isStepBlock s = isStepBlock t := by
      cases hs : isStepBlock s <;> cases ht : isStepBlock t <;> simp [hs, ht] at htype ⊢
    have hneeds : s.needsHuman = t.needsHuman := by
      cases hs : s.needsHuman <;> cases ht : t.needsHuman <;> simp [hs, ht] at hhuman ⊢
    refine ⟨hn, hid, hstep, ?_, ?_, htitle, hdesc, hcommand, himage, hlevel, hneeds, ?_, ?_,
      hwhy, hsection, hsubtasks, hrefs⟩
    · intro hblock
      simpa [hblock, ← hstep] using htype
    · intro hblock
      simpa [hblock, ← hstep] using hcontent
    · intro hmark
      simpa [hmark, ← hneeds, (Option.map_injective str_injective).eq_iff] using hask
    · cases hs : s.danger <;> cases ht : t.danger <;> simp [hs, ht] at hdanger ⊢
  · intro h
    refine ⟨h.n, h.blockId, ?_, ?_, h.title, h.desc, h.command, h.imageKey, h.level, ?_, ?_, ?_,
      h.why, h.section_, h.subtasks, h.refs⟩
    · rw [← h.isStep]
      cases hs : isStepBlock s
      · simp [h.blockType hs]
      · rfl
    · rw [← h.isStep]
      cases hs : isStepBlock s
      · simp [h.content hs]
      · rfl
    · rw [h.needsHuman]
    · rw [← h.needsHuman]
      cases hs : s.needsHuman
      · rfl
      · simp [h.needsHumanAsk hs]
    · rw [h.danger]

structure SameCanon (v w : VersionData) : Prop where
  title : v.title = w.title
  desc : v.desc = w.desc
  tags : v.tags = w.tags
  ordered : v.ordered = w.ordered
  kind : v.kind = w.kind
  skillHeader : v.skillHeader.bind skillHeaderValid = w.skillHeader.bind skillHeaderValid
  version : v.version = w.version
  steps : List.Forall₂ SameStep v.steps w.steps

private theorem steps_inj {a b : List SerStep} :
    a.map stepValue = b.map stepValue ↔ List.Forall₂ SameStep a b := by
  rw [← List.forall₂_eq_eq_eq, List.forall₂_map_left_iff, List.forall₂_map_right_iff]
  simp only [stepValue_inj]

theorem canonFields_nodup (schemaUrl : Text) (v : VersionData) :
    ((canonFields schemaUrl v).map Prod.fst).Nodup := by
  simp only [canonFields, List.map_cons, List.map_nil]
  decide

/-- Two canons are byte for byte the same exactly when all printed parts agree. -/
theorem listJson_eq_iff {schemaUrl : Text} {v w : VersionData} :
    listJson schemaUrl v = listJson schemaUrl w ↔ SameCanon v w := by
  have hfields : canonValue schemaUrl v = canonValue schemaUrl w ↔
      canonFields schemaUrl v = canonFields schemaUrl w := by
    rw [canonValue, canonValue, Value.obj.injEq]
    exact present_inj rfl (canonFields_nodup schemaUrl v)
  rw [listJson_inj, hfields]
  simp only [canonFields, List.cons.injEq, Prod.mk.injEq, true_and, and_true, Option.some.injEq,
    Value.int.injEq, Value.str.injEq, Value.bool.injEq, Value.arr.injEq,
    (Option.map_injective str_injective).eq_iff, texts_inj, steps_inj]
  constructor
  · rintro ⟨htitle, hdesc, htags, hordered, hkind, hheader, hversion, hsteps⟩
    exact ⟨htitle, hdesc, htags, hordered, hkind, hheader, hversion, hsteps⟩
  · intro h
    exact ⟨h.title, h.desc, h.tags, h.ordered, h.kind, h.skillHeader, h.version, h.steps⟩

end Setfork.Serialize
