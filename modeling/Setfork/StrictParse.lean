/- StrictParse
   digest: What a text without issues is read as: every block, every reference and every text. -/
import Setfork.StrictCanon
import Setfork.Wire

set_option autoImplicit false
set_option relaxedAutoImplicit false

namespace Setfork.StrictParse

open Setfork.Foundation (Text trim)
open Setfork.Foundation.Json
open Setfork.Foundation.JsonSchema
open Setfork.Serialize (isStepType keepsRef texts)
open Setfork.Project
open Setfork.StrictCanon
open Setfork.Wire (wireType)

section Fields

variable {members : List (Text × Value)}

theorem get_obj (members : List (Text × Value)) (key : Text) :
    (Value.obj members).get key = find key members := rfl

theorem field_of_find {α : Type} {read : Value → Option α} {put : α → Value} {name : String}
    {o : Option α} (hfind : find name.toList members = o.map put)
    (hread : ∀ a, read (put a) = some a) (hnull : ∀ a, put a ≠ .null) :
    field read members name = some o := by
  rw [field, hfind]
  cases o with
  | none => rfl
  | some a =>
    have hopt : optional read (some (put a)) = (read (put a)).map some := by
      cases hput : put a with
      | null => exact absurd hput (hnull a)
      | _ => rfl
    rw [Option.map_some, hopt, hread]
    rfl

theorem find_of_property {name : String} {α : Type} {put : α → Value} {inner : Schema}
    (h : Valid (.property name.toList inner) (.obj members))
    (hput : ∀ x, Valid inner x → ∃ a, x = put a) :
    ∃ o : Option α, find name.toList members = o.map put := by
  rw [valid_property] at h
  cases hget : find name.toList members with
  | none => exact ⟨none, rfl⟩
  | some x =>
    obtain ⟨a, rfl⟩ := hput x (h x hget)
    exact ⟨some a, rfl⟩

theorem find_of_required {name : String} {α : Type}
    {put : α → Value} {inner : Schema}
    (h : Valid (.property name.toList inner) (.obj members))
    (hthere : (Value.obj members).get name.toList |>.isSome)
    (hput : ∀ x, Valid inner x → ∃ a, x = put a) : ∃ a, find name.toList members = some (put a) := by
  obtain ⟨x, hx⟩ := Option.isSome_iff_exists.mp hthere
  obtain ⟨a, rfl⟩ := hput x (valid_property.mp h x hx)
  exact ⟨a, hx⟩

theorem string_of_valid {x : Value} (h : Valid (.type .string) x) : ∃ s, x = .str s := by
  rw [valid_type] at h
  cases x <;> first | exact ⟨_, rfl⟩ | cases h

theorem boolean_of_valid {x : Value} (h : Valid (.type .boolean) x) : ∃ b, x = .bool b := by
  rw [valid_type] at h
  cases x <;> first | exact ⟨_, rfl⟩ | cases h

theorem array_of_valid {x : Value} (h : Valid (.type .array) x) : ∃ items, x = .arr items := by
  rw [valid_type] at h
  cases x <;> first | exact ⟨_, rfl⟩ | cases h

theorem object_of_valid {x : Value} (h : Valid (.type .object) x) : ∃ ms, x = .obj ms := by
  rw [valid_type] at h
  cases x <;> first | exact ⟨_, rfl⟩ | cases h

theorem integer_of_valid {x : Value} (h : Valid (.type .integer) x) :
    (∃ i, x = .int i) ∨ ∃ lit, x = .float lit := by
  rw [valid_type] at h
  cases x with
  | int i => exact Or.inl ⟨i, rfl⟩
  | float lit => exact Or.inr ⟨lit, rfl⟩
  | _ => cases h

theorem one_le_of_valid {i : Int} (h : Valid (.minimum 1) (.int i)) : 1 ≤ i := by
  have hq := valid_minimum.mp h (i : ℚ) rfl
  exact_mod_cast hq

theorem texts_of_valid {x : Value}
    (h : Valid (.all [.type .array, .items (.type .string)]) x) : ∃ ts, x = texts ts := by
  rw [valid_both] at h
  obtain ⟨harray, hitems⟩ := h
  obtain ⟨items, rfl⟩ := array_of_valid harray
  rw [valid_items] at hitems
  have hstrings := hitems items rfl
  clear harray hitems
  induction items with
  | nil => exact ⟨[], rfl⟩
  | cons x items ih =>
    obtain ⟨hx, hrest⟩ := List.forall_mem_cons.mp hstrings
    obtain ⟨s, rfl⟩ := string_of_valid hx
    obtain ⟨ts, hts⟩ := ih hrest
    refine ⟨s :: ts, ?_⟩
    rw [texts, Value.arr.injEq] at hts ⊢
    rw [hts, List.map_cons]

theorem mapM_forall₂ {α β : Type} {f : α → Option β} {R : α → β → Prop} {xs : List α}
    (h : ∀ x ∈ xs, ∃ y, f x = some y ∧ R x y) :
    ∃ ys, xs.mapM f = some ys ∧ List.Forall₂ R xs ys := by
  induction xs with
  | nil => exact ⟨[], rfl, List.Forall₂.nil⟩
  | cons x xs ih =>
    obtain ⟨hx, hrest⟩ := List.forall_mem_cons.mp h
    obtain ⟨y, hy, hxy⟩ := hx
    obtain ⟨ys, hys, hxsys⟩ := ih hrest
    refine ⟨y :: ys, ?_, List.Forall₂.cons hxy hxsys⟩
    rw [List.mapM_cons, hy, hys]
    rfl

theorem isSome_mapM {α β : Type} (f : α → Option β) (xs : List α) :
    (xs.mapM f).isSome = xs.all fun x => (f x).isSome := by
  induction xs with
  | nil => rfl
  | cons x xs ih =>
    rw [List.mapM_cons, List.all_cons, ← ih]
    cases f x with
    | none => rfl
    | some y => cases xs.mapM f <;> rfl

end Fields

structure ReadRef (x : Value) (r : RawRef) : Prop where
  label : x.get "label".toList = r.label.map .str
  url : x.get "url".toList = r.url.map .str

structure ReadStep (x : Value) (raw : RawStep) : Prop where
  n : ∃ i, 1 ≤ i ∧ x.get "n".toList = some (.int i) ∧ raw.n = some i
  blockId : x.get "blockId".toList = raw.blockId.map .str
  blockType : x.get "type".toList = raw.blockType.map .str
  content : raw.content = (x.get "content".toList).bind nonNull
  title : ∃ s, x.get "title".toList = some (.str s) ∧ raw.title = some s
  desc : ∃ s, x.get "desc".toList = some (.str s) ∧ raw.desc = some s
  command : ∃ s, x.get "command".toList = some (.str s) ∧ raw.command = some s
  imageKey : x.get "imageKey".toList = raw.imageKey.map .str
  level : ∃ s, x.get "level".toList = some (.str s) ∧ raw.level = some s
  needsHuman : x.get "needsHuman".toList = raw.needsHuman.map .bool
  needsHumanAsk : x.get "needsHumanAsk".toList = raw.needsHumanAsk.map .str
  danger : x.get "danger".toList = raw.danger.map .bool
  why : ∃ s, x.get "why".toList = some (.str s) ∧ raw.why = some s
  section_ : ∃ s, x.get "section".toList = some (.str s) ∧ raw.section_ = some s
  subtasks : ∃ ts, x.get "subtasks".toList = some (texts ts) ∧ raw.subtasks = some ts
  refs : ∃ items refs, x.get "refs".toList = some (.arr items) ∧ raw.refs = some refs ∧
    List.Forall₂ ReadRef items refs
  probe : LossProbe.ofJson x = some ⟨raw.blockType, raw.title, raw.refs⟩

section Blocks

variable {isUri : Text → Bool} {x : Value}

private theorem read_str {members : List (Text × Value)} {name : String} {o : Option Text}
    (h : find name.toList members = o.map Value.str) : field Value.asStr members name = some o :=
  field_of_find h (fun _ => rfl) (fun _ hnull => by cases hnull)

private theorem read_there {members : List (Text × Value)} {name : String} {o : Option Text}
    (h : ∃ t, find name.toList members = some (.str t) ∧ o = some t) :
    field Value.asStr members name = some o := by
  obtain ⟨t, ht, rfl⟩ := h
  exact read_str ht

private theorem read_bool {members : List (Text × Value)} {name : String} {o : Option Bool}
    (h : find name.toList members = o.map Value.bool) : field asBool members name = some o :=
  field_of_find h (fun _ => rfl) (fun _ hnull => by cases hnull)

theorem rawRef_of_find {members : List (Text × Value)} {label url : Option Text}
    (hlabel : find "label".toList members = label.map .str)
    (hurl : find "url".toList members = url.map .str) :
    RawRef.ofJson (.obj members) = some ⟨label, url⟩ := by
  have hmembers : recordMembers ["label", "url"] (.obj members) = some members := rfl
  unfold RawRef.ofJson
  refine bind_of_eq hmembers ?_
  refine bind_of_eq (read_str hlabel) ?_
  refine bind_of_eq (read_str hurl) ?_
  rfl

theorem readRef_of_valid (h : Valid (refSchema isUri) x) :
    ∃ r, RawRef.ofJson x = some r ∧ ReadRef x r := by
  simp only [refSchema, valid_all_cons, valid_all_nil, and_true] at h
  obtain ⟨hobject, hlabel, hurl, -, -⟩ := h
  obtain ⟨members, rfl⟩ := object_of_valid hobject
  obtain ⟨label, hlabel⟩ := find_of_property hlabel fun _ => string_of_valid
  obtain ⟨url, hurl⟩ := find_of_property hurl fun x hx =>
    string_of_valid (valid_both.mp hx).1
  exact ⟨⟨label, url⟩, rawRef_of_find hlabel hurl, hlabel, hurl⟩

private theorem refs_of_property {members : List (Text × Value)}
    (h : Valid (.property "refs".toList (.all [.type .array, .items (refSchema isUri)]))
      (.obj members)) (hthere : ∃ x, (Value.obj members).get "refs".toList = some x) :
    ∃ items refs, find "refs".toList members = some (.arr items) ∧
      items.mapM RawRef.ofJson = some refs ∧ List.Forall₂ ReadRef items refs := by
  obtain ⟨x, hx⟩ := hthere
  have hvalid := valid_property.mp h x hx
  rw [valid_both] at hvalid
  obtain ⟨harray, hitems⟩ := hvalid
  obtain ⟨items, rfl⟩ := array_of_valid harray
  have heach := valid_items.mp hitems items rfl
  obtain ⟨refs, hread, hrefs⟩ := mapM_forall₂ fun x hx => readRef_of_valid (heach x hx)
  exact ⟨items, refs, hx, hread, hrefs⟩

private theorem number_of_property {members : List (Text × Value)} {name : String}
    (h : Valid (.property name.toList (.all [.type .integer, .minimum 1])) (.obj members))
    (hthere : ((Value.obj members).get name.toList).isSome = true) :
    (∃ i, 1 ≤ i ∧ find name.toList members = some (.int i) ∧
      field asInt members name = some (some i)) ∨
    ((∀ i, find name.toList members ≠ some (.int i)) ∧ field asInt members name = none) := by
  obtain ⟨number, hnumber⟩ := Option.isSome_iff_exists.mp hthere
  obtain ⟨hinteger, hminimum⟩ := valid_both.mp (valid_property.mp h number hnumber)
  rw [get_obj] at hnumber
  rw [field, hnumber]
  rcases integer_of_valid hinteger with ⟨i, rfl⟩ | ⟨lit, rfl⟩
  · exact Or.inl ⟨i, one_le_of_valid hminimum, rfl, rfl⟩
  · exact Or.inr ⟨fun i heq => (by cases heq), rfl⟩

structure StepMembers (members : List (Text × Value)) (raw : RawStep) : Prop where
  blockId : find "blockId".toList members = raw.blockId.map .str
  blockType : find "type".toList members = raw.blockType.map .str
  content : raw.content = (find "content".toList members).bind nonNull
  title : ∃ s, find "title".toList members = some (.str s) ∧ raw.title = some s
  desc : ∃ s, find "desc".toList members = some (.str s) ∧ raw.desc = some s
  command : ∃ s, find "command".toList members = some (.str s) ∧ raw.command = some s
  imageKey : find "imageKey".toList members = raw.imageKey.map .str
  level : ∃ s, find "level".toList members = some (.str s) ∧ raw.level = some s
  needsHuman : find "needsHuman".toList members = raw.needsHuman.map .bool
  needsHumanAsk : find "needsHumanAsk".toList members = raw.needsHumanAsk.map .str
  danger : find "danger".toList members = raw.danger.map .bool
  why : ∃ s, find "why".toList members = some (.str s) ∧ raw.why = some s
  section_ : ∃ s, find "section".toList members = some (.str s) ∧ raw.section_ = some s
  subtasks : ∃ ts, find "subtasks".toList members = some (texts ts) ∧ raw.subtasks = some ts
  refs : ∃ items refs, find "refs".toList members = some (.arr items) ∧ raw.refs = some refs ∧
    items.mapM RawRef.ofJson = some refs ∧ List.Forall₂ ReadRef items refs

section Members

variable {members : List (Text × Value)} {raw : RawStep}

private theorem StepMembers.read_refs (h : StepMembers members raw) :
    field (asList RawRef.ofJson) members "refs" = some raw.refs := by
  obtain ⟨items, refs, hitems, hrefs, hread, -⟩ := h.refs
  rw [field, hitems, hrefs]
  exact congrArg (Option.map some) hread

/-- Everything but the number is read, so the number decides. -/
theorem StepMembers.ofJson (h : StepMembers members raw) :
    RawStep.ofJson (.obj members) =
      (field asInt members "n").map (fun n => { raw with n := n }) := by
  have hmembers : recordMembers stepNames (.obj members) = some members := rfl
  have hcontent : field some members "content" = some raw.content := by
    rw [field, optional_some, h.content]
  have hsubtasks : field (asList Value.asStr) members "subtasks" = some raw.subtasks := by
    obtain ⟨ts, hts, hraw⟩ := h.subtasks
    rw [hraw]
    exact field_of_find (o := some ts) hts asList_texts fun _ hnull => by cases hnull
  unfold RawStep.ofJson
  refine bind_of_eq hmembers ?_
  cases field asInt members "n" with
  | none => rfl
  | some n =>
    refine bind_of_eq rfl ?_
    refine bind_of_eq (read_str h.blockId) ?_
    refine bind_of_eq (read_str h.blockType) ?_
    refine bind_of_eq hcontent ?_
    refine bind_of_eq (read_there h.title) ?_
    refine bind_of_eq (read_there h.desc) ?_
    refine bind_of_eq (read_there h.command) ?_
    refine bind_of_eq (read_str h.imageKey) ?_
    refine bind_of_eq (read_there h.level) ?_
    refine bind_of_eq (read_bool h.needsHuman) ?_
    refine bind_of_eq (read_str h.needsHumanAsk) ?_
    refine bind_of_eq (read_bool h.danger) ?_
    refine bind_of_eq (read_there h.why) ?_
    refine bind_of_eq (read_there h.section_) ?_
    refine bind_of_eq hsubtasks ?_
    refine bind_of_eq h.read_refs ?_
    rfl

theorem StepMembers.probe (h : StepMembers members raw) :
    LossProbe.ofJson (.obj members) = some ⟨raw.blockType, raw.title, raw.refs⟩ := by
  unfold LossProbe.ofJson
  refine bind_of_eq (show recordMembers _ (Value.obj members) = some members from rfl) ?_
  refine bind_of_eq (read_str h.blockType) ?_
  refine bind_of_eq (read_there h.title) ?_
  refine bind_of_eq h.read_refs ?_
  rfl

theorem StepMembers.readStep (h : StepMembers members raw) {i : Int} (hone : 1 ≤ i)
    (hn : find "n".toList members = some (.int i)) :
    ReadStep (.obj members) { raw with n := some i } := by
  obtain ⟨items, refs, hitems, hrefs, -, hsame⟩ := h.refs
  exact ⟨⟨i, hone, hn, rfl⟩, h.blockId, h.blockType, h.content, h.title, h.desc, h.command,
    h.imageKey, h.level, h.needsHuman, h.needsHumanAsk, h.danger, h.why, h.section_, h.subtasks,
    ⟨items, refs, hitems, hrefs, hsame⟩, h.probe⟩

theorem stepMembers_of_valid (h : Valid (blockSchema isUri) (.obj members)) :
    ∃ raw, StepMembers members raw := by
  simp only [blockSchema, valid_all_cons, valid_all_nil, and_true] at h
  obtain ⟨-, hrequired, -, htexts, hlevel, hneeds, hdanger, hsubtasks, hrefs, -⟩ := h
  have hthere := valid_required.mp hrequired members rfl
  rw [valid_all] at htexts
  have hstr : ∀ k ∈ blockTexts, ∃ o : Option Text, find k.toList members = o.map Value.str :=
    fun k hk => find_of_property (htexts _ (List.mem_map_of_mem hk)) fun _ => string_of_valid
  have hneed : ∀ k ∈ blockTexts, ((Value.obj members).get k.toList).isSome = true →
      ∃ t, find k.toList members = some (.str t) := fun k hk hsome =>
    find_of_required (htexts _ (List.mem_map_of_mem hk)) hsome fun _ => string_of_valid
  obtain ⟨blockId, hblockId⟩ := hstr "blockId" (by simp [blockTexts])
  obtain ⟨blockType, hblockType⟩ := hstr "type" (by simp [blockTexts])
  obtain ⟨title, htitle⟩ := hneed "title" (by simp [blockTexts]) (hthere _ (by simp [names]))
  obtain ⟨desc, hdesc⟩ := hneed "desc" (by simp [blockTexts]) (hthere _ (by simp [names]))
  obtain ⟨command, hcommand⟩ := hneed "command" (by simp [blockTexts]) (hthere _ (by simp [names]))
  obtain ⟨imageKey, himageKey⟩ := hstr "imageKey" (by simp [blockTexts])
  obtain ⟨why, hwhy⟩ := hneed "why" (by simp [blockTexts]) (hthere _ (by simp [names]))
  obtain ⟨ask, hask⟩ := hstr "needsHumanAsk" (by simp [blockTexts])
  obtain ⟨section_, hsection⟩ := hneed "section" (by simp [blockTexts]) (hthere _ (by simp [names]))
  obtain ⟨level, hlevel⟩ := find_of_required hlevel (hthere _ (by simp [names])) fun x hx =>
    string_of_valid (valid_both.mp hx).1
  obtain ⟨needsHuman, hneeds⟩ := find_of_property hneeds fun _ => boolean_of_valid
  obtain ⟨danger, hdanger⟩ := find_of_property hdanger fun _ => boolean_of_valid
  obtain ⟨subtasks, hsubtasks⟩ := find_of_required hsubtasks (hthere _ (by simp [names]))
    fun _ => texts_of_valid
  obtain ⟨items, refs, hitems, hread, hsame⟩ := refs_of_property hrefs
    (Option.isSome_iff_exists.mp (hthere "refs".toList (by simp [names])))
  exact ⟨⟨none, blockId, blockType, (find "content".toList members).bind nonNull, some title,
    some desc, some command, imageKey, some level, needsHuman, ask, danger, some why, some section_,
    some subtasks, some refs⟩, hblockId, hblockType, rfl, ⟨title, htitle, rfl⟩, ⟨desc, hdesc, rfl⟩,
    ⟨command, hcommand, rfl⟩, himageKey, ⟨level, hlevel, rfl⟩, hneeds, hask, hdanger,
    ⟨why, hwhy, rfl⟩, ⟨section_, hsection, rfl⟩, ⟨subtasks, hsubtasks, rfl⟩,
    ⟨items, refs, hitems, rfl, hread, hsame⟩⟩

end Members

theorem readStep_of_valid (h : Valid (blockSchema isUri) x) :
    (∃ raw, RawStep.ofJson x = some raw ∧ ReadStep x raw) ∨
    ((∀ i, x.get "n".toList ≠ some (.int i)) ∧ RawStep.ofJson x = none) := by
  have hparts := h
  simp only [blockSchema, valid_all_cons] at hparts
  obtain ⟨hobject, hrequired, hn, -⟩ := hparts
  obtain ⟨members, rfl⟩ := object_of_valid hobject
  obtain ⟨raw, hraw⟩ := stepMembers_of_valid h
  have hthere := valid_required.mp hrequired members rfl
  rw [hraw.ofJson]
  rcases number_of_property hn (hthere _ (by simp [names])) with ⟨i, hone, hi, hread⟩ | ⟨hnot, hnone⟩
  · rw [hread]
    exact Or.inl ⟨_, rfl, hraw.readStep hone hi⟩
  · rw [hnone]
    exact Or.inr ⟨hnot, rfl⟩

end Blocks

structure ReadList (v : Value) (raw : RawList) : Prop where
  title : ∃ s, v.get "title".toList = some (.str s) ∧ raw.title = some s
  desc : ∃ s, v.get "desc".toList = some (.str s) ∧ raw.desc = some s
  tags : ∃ ts, v.get "tags".toList = some (texts ts) ∧ raw.tags = some ts
  ordered : ∃ b, v.get "ordered".toList = some (.bool b) ∧ raw.ordered = some b
  version : ∃ i, 1 ≤ i ∧ v.get "version".toList = some (.int i) ∧ raw.version = some i
  steps : ∃ items steps, v.get "steps".toList = some (.arr items) ∧ raw.steps = some steps ∧
    List.Forall₂ ReadStep items steps

def IsInt32 (o : Option Value) : Prop := ∃ i : Int, i ≤ 2147483647 ∧ o = some (.int i)

/-- The version and the numbers of the blocks are such numbers. -/
structure PlainNumbers (v : Value) : Prop where
  version : IsInt32 (v.get "version".toList)
  steps : ∀ items, v.get "steps".toList = some (.arr items) → ∀ x ∈ items, IsInt32 (x.get "n".toList)

theorem mapM_eq_none {α β : Type} {f : α → Option β} {xs : List α} {x : α} (hx : x ∈ xs)
    (h : f x = none) : xs.mapM f = none := by
  rw [← Option.not_isSome_iff_eq_none, isSome_mapM, List.all_eq_true]
  intro hall
  have hsome := hall x hx
  rw [h] at hsome
  cases hsome

section Manifest

variable {isUri : Text → Bool} {v : Value}

/-- The members of a manifest as it is read, its version and its blocks apart. -/
structure ListMembers (members : List (Text × Value)) (raw : RawList) : Prop where
  title : ∃ s, find "title".toList members = some (.str s) ∧ raw.title = some s
  desc : ∃ s, find "desc".toList members = some (.str s) ∧ raw.desc = some s
  tags : ∃ ts, find "tags".toList members = some (texts ts) ∧ raw.tags = some ts
  ordered : ∃ b, find "ordered".toList members = some (.bool b) ∧ raw.ordered = some b
  kind : find "kind".toList members = raw.kind.map .str
  skillHeader : raw.skillHeader = (find "skillHeader".toList members).bind nonNull

/-- Everything else is read, so the version and the blocks decide. -/
theorem ListMembers.ofJson {members : List (Text × Value)} {raw : RawList}
    (h : ListMembers members raw) :
    RawList.ofJson (.obj members) = (field asInt members "version").bind fun version =>
      (field (asList RawStep.ofJson) members "steps").map fun steps =>
        { raw with version := version, steps := steps } := by
  obtain ⟨ts, htags, hts⟩ := h.tags
  obtain ⟨b, hordered, hb⟩ := h.ordered
  have hmembers : recordMembers listNames (.obj members) = some members := rfl
  have rtags : field (asList Value.asStr) members "tags" = some raw.tags := by
    rw [hts]
    exact field_of_find (o := some ts) htags asList_texts fun _ hnull => by cases hnull
  have rordered : field asBool members "ordered" = some raw.ordered := by
    rw [hb]
    exact read_bool (o := some b) hordered
  have rheader : field some members "skillHeader" = some raw.skillHeader := by
    rw [field, optional_some, h.skillHeader]
  unfold RawList.ofJson
  refine bind_of_eq hmembers ?_
  refine bind_of_eq (read_there h.title) ?_
  refine bind_of_eq (read_there h.desc) ?_
  refine bind_of_eq rtags ?_
  refine bind_of_eq rordered ?_
  refine bind_of_eq (read_str h.kind) ?_
  refine bind_of_eq rheader ?_
  cases field asInt members "version" with
  | none => rfl
  | some version => cases field (asList RawStep.ofJson) members "steps" <;> rfl

theorem listMembers_of_valid {members : List (Text × Value)}
    (h : Valid (listSchema isUri) (.obj members)) : ∃ raw, ListMembers members raw := by
  simp only [listSchema, valid_all_cons] at h
  obtain ⟨-, hrequired, -, htitle, hdesc, htags, hordered, hkind, -⟩ := h
  have hthere := valid_required.mp hrequired members rfl
  obtain ⟨title, htitle⟩ := find_of_required htitle (hthere _ (by simp [names]))
    fun _ => string_of_valid
  obtain ⟨desc, hdesc⟩ := find_of_required hdesc (hthere _ (by simp [names]))
    fun _ => string_of_valid
  obtain ⟨tags, htags⟩ := find_of_required htags (hthere _ (by simp [names]))
    fun _ => texts_of_valid
  obtain ⟨ordered, hordered⟩ := find_of_required hordered (hthere _ (by simp [names]))
    fun _ => boolean_of_valid
  obtain ⟨kind, hkind⟩ := find_of_property hkind fun x hx =>
    string_of_valid (valid_both.mp hx).1
  exact ⟨⟨some title, some desc, some tags, some ordered, kind,
    (find "skillHeader".toList members).bind nonNull, none, none⟩, ⟨title, htitle, rfl⟩,
    ⟨desc, hdesc, rfl⟩, ⟨tags, htags, rfl⟩, ⟨ordered, hordered, rfl⟩, hkind, rfl⟩

private theorem readSteps_of_valid {items : List Value}
    (h : ∀ x ∈ items, Valid (blockSchema isUri) x) :
    (∃ steps, items.mapM RawStep.ofJson = some steps ∧ List.Forall₂ ReadStep items steps) ∨
      ((∃ x ∈ items, ∀ i, x.get "n".toList ≠ some (.int i)) ∧
        items.mapM RawStep.ofJson = none) := by
  by_cases hall : ∀ x ∈ items, ∃ raw, RawStep.ofJson x = some raw ∧ ReadStep x raw
  · exact Or.inl (mapM_forall₂ hall)
  · push Not at hall
    obtain ⟨x, hx, hunread⟩ := hall
    rcases readStep_of_valid (h x hx) with ⟨raw, hraw, hsame⟩ | ⟨hn, hnone⟩
    · exact absurd hsame (hunread raw hraw)
    · exact Or.inr ⟨⟨x, hx, hn⟩, mapM_eq_none hx hnone⟩

theorem readList_of_valid (h : Valid (listSchema isUri) v) :
    (∃ raw, RawList.ofJson v = some raw ∧ ReadList v raw) ∨
      (¬ PlainNumbers v ∧ RawList.ofJson v = none) := by
  have hparts := h
  simp only [listSchema, valid_all_cons] at hparts
  obtain ⟨hobject, hrequired, -, -, -, -, -, -, -, hversion, hsteps, -⟩ := hparts
  obtain ⟨members, rfl⟩ := object_of_valid hobject
  have hthere := valid_required.mp hrequired members rfl
  obtain ⟨raw, hraw⟩ := listMembers_of_valid h
  obtain ⟨items, hitems, hblocks⟩ : ∃ items, find "steps".toList members = some (.arr items) ∧
      ∀ x ∈ items, Valid (blockSchema isUri) x := by
    obtain ⟨x, hx⟩ := Option.isSome_iff_exists.mp (hthere "steps".toList (by simp [names]))
    have hboth := valid_both.mp (valid_property.mp hsteps x hx)
    obtain ⟨items, rfl⟩ := array_of_valid hboth.1
    exact ⟨items, hx, valid_items.mp hboth.2 items rfl⟩
  have rsteps : field (asList RawStep.ofJson) members "steps" =
      (items.mapM RawStep.ofJson).map some := by
    rw [field, hitems]
    rfl
  rw [hraw.ofJson, rsteps]
  rcases number_of_property hversion (hthere _ (by simp [names])) with
    ⟨i, hone, hi, hread⟩ | ⟨hnot, hnone⟩
  · rw [hread, Option.bind_some]
    rcases readSteps_of_valid hblocks with ⟨steps, hmap, hsame⟩ | ⟨⟨x, hx, hn⟩, hmap⟩
    · rw [hmap]
      exact Or.inl ⟨_, rfl, hraw.title, hraw.desc, hraw.tags, hraw.ordered, ⟨i, hone, hi, rfl⟩,
        items, steps, hitems, rfl, hsame⟩
    · rw [hmap]
      refine Or.inr ⟨fun hplain => ?_, rfl⟩
      obtain ⟨j, -, hj⟩ := hplain.steps items hitems x hx
      exact hn j hj
  · rw [hnone]
    refine Or.inr ⟨fun hplain => ?_, rfl⟩
    obtain ⟨j, -, hj⟩ := hplain.version
    exact hnot j hj

private theorem fits_of_one_le {i : Int} (h : 1 ≤ i) : fitsInt32 i = true ↔ i ≤ 2147483647 := by
  rw [fitsInt32, Bool.and_eq_true, decide_eq_true_eq, decide_eq_true_eq]
  omega

private theorem numbers_fit_iff {items : List Value} {steps : List RawStep}
    (h : List.Forall₂ ReadStep items steps) :
    (∀ s ∈ steps, s.n.all fitsInt32 = true) ↔ ∀ x ∈ items, IsInt32 (x.get "n".toList) := by
  induction h with
  | nil => exact iff_of_true (fun _ hs => by cases hs) (fun _ hx => by cases hx)
  | @cons x s items steps hxs _ ih =>
    obtain ⟨i, hone, hget, hn⟩ := hxs.n
    rw [List.forall_mem_cons, List.forall_mem_cons, ih, hget, hn, Option.all_some,
      fits_of_one_le hone]
    refine and_congr_left fun _ => ⟨fun hi => ⟨i, hi, rfl⟩, ?_⟩
    rintro ⟨j, hj, heq⟩
    obtain rfl := Value.int.inj (Option.some.inj heq)
    exact hj

theorem fits_iff {raw : RawList} (h : ReadList v raw) : fits raw = true ↔ PlainNumbers v := by
  obtain ⟨i, hone, hget, hversion⟩ := h.version
  obtain ⟨items, steps, hitems, hsteps, hsame⟩ := h.steps
  rw [fits, Bool.and_eq_true, hversion, hsteps, Option.all_some, Option.getD_some,
    List.all_eq_true, numbers_fit_iff hsame, fits_of_one_le hone]
  constructor
  · rintro ⟨hi, hall⟩
    refine ⟨⟨i, hi, hget⟩, fun items' hitems' => ?_⟩
    rw [hitems] at hitems'
    obtain rfl := Value.arr.inj (Option.some.inj hitems')
    exact hall
  · rintro ⟨⟨j, hj, heq⟩, hall⟩
    rw [hget] at heq
    obtain rfl := Value.int.inj (Option.some.inj heq)
    exact ⟨hj, hall items hitems⟩

theorem fromValue_of_valid (h : Valid (listSchema isUri) v) :
    (PlainNumbers v ∧ ∃ raw, fromValue v = some raw ∧ ReadList v raw) ∨
      (¬ PlainNumbers v ∧ fromValue v = none) := by
  rcases readList_of_valid h with ⟨raw, hraw, hread⟩ | ⟨hnot, hnone⟩
  · rw [fromValue, hraw, Option.filter_some]
    by_cases hfits : fits raw = true
    · rw [if_pos hfits]
      exact Or.inl ⟨(fits_iff hread).mp hfits, raw, rfl, hread⟩
    · rw [if_neg hfits]
      exact Or.inr ⟨fun hplain => hfits ((fits_iff hread).mpr hplain), rfl⟩
  · rw [fromValue, hnone]
    exact Or.inr ⟨hnot, rfl⟩

end Manifest

/-- A reference is kept with its texts; a label that is not there is read as an empty one. -/
structure RefVerbatim (x : Value) (r : ProjRef) : Prop where
  label : x.get "label".toList = some (.str r.label) ∨
    (x.get "label".toList = none ∧ r.label = [])
  url : x.get "url".toList = r.url.map .str

/-- A block is kept with all its texts, references and marks. Its type is kept as the protocol
carries it: the two spellings of a step are one type. -/
structure BlockVerbatim (x : Value) (s : ProjStep) : Prop where
  blockId : x.get "blockId".toList = s.blockId.map .str
  blockType : wireType ((x.get "type".toList).bind Value.asStr) = s.blockType
  content : isStepType s.blockType = false → (x.get "content".toList).getD .null = s.content
  title : x.get "title".toList = some (.str s.title)
  desc : x.get "desc".toList = some (.str s.desc)
  command : x.get "command".toList = some (.str s.command)
  imageKey : x.get "imageKey".toList = s.imageKey.map .str
  level : x.get "level".toList = some (.str s.level)
  needsHuman : x.get "needsHuman".toList = s.needsHuman.map .bool
  needsHumanAsk : x.get "needsHumanAsk".toList = s.needsHumanAsk.map .str
  danger : x.get "danger".toList = s.danger.map .bool
  why : x.get "why".toList = some (.str s.why)
  section_ : x.get "section".toList = some (.str s.section_)
  subtasks : x.get "subtasks".toList = some (texts s.subtasks)
  refs : ∃ items, x.get "refs".toList = some (.arr items) ∧ List.Forall₂ RefVerbatim items s.refs

structure Verbatim (v : Value) (parts : ListParts) : Prop where
  title : v.get "title".toList = some (.str parts.title)
  desc : v.get "desc".toList = some (.str parts.desc)
  tags : v.get "tags".toList = some (texts parts.tags)
  ordered : v.get "ordered".toList = some (.bool parts.ordered)
  version : v.get "version".toList = some (.int parts.version)
  steps : ∃ items, v.get "steps".toList = some (.arr items) ∧
    List.Forall₂ BlockVerbatim items parts.steps

/-- The identity and the question of a block are not blank where they are there. -/
def NoBlankTexts (x : Value) : Prop :=
  ∀ k ∈ ["blockId", "needsHumanAsk"], ∀ s, x.get k.toList = some (.str s) → notBlank s = true

section Parse

variable {x : Value} {raw : RawStep}

theorem probeIssues_eq_nil_iff {i : Nat} (h : ReadStep x raw) :
    probeIssues i x = [] ↔
      (isStepType (raw.blockType.getD []) && !notBlank (raw.title.getD [])) = false ∧
        ∀ r ∈ raw.refs.getD [], keepsRef (r.label.getD []) r.url = true := by
  rw [probeIssues, h.probe, List.append_eq_nil_iff, flatten_mapIdx_eq_nil,
    List.forall_mem_iff_getElem]
  refine and_congr ?_ (forall₂_congr fun k hk => ?_)
  · cases isStepType (raw.blockType.getD []) && !notBlank (raw.title.getD []) <;> simp
  · cases keepsRef ((raw.refs.getD [])[k].label.getD []) (raw.refs.getD [])[k].url <;> simp

private theorem refs_verbatim {items : List Value} {refs : List RawRef}
    (h : List.Forall₂ ReadRef items refs) :
    List.Forall₂ RefVerbatim items (refs.map fun r => ⟨r.label.getD [], r.url⟩) := by
  rw [List.forall₂_map_right_iff]
  refine h.imp fun x r hread => ⟨?_, hread.url⟩
  rw [hread.label]
  cases r.label with
  | none => exact Or.inr ⟨rfl, rfl⟩
  | some label => exact Or.inl rfl

private theorem filter_eq_iff {o : Option Text} :
    o.map Value.str = (o.filter notBlank).map Value.str ↔ ∀ s ∈ o, notBlank s = true := by
  cases o with
  | none => exact iff_of_true rfl fun _ hs => by cases hs
  | some t => cases ht : notBlank t <;> simp [Option.filter, ht]

private theorem noBlankTexts_iff (h : ReadStep x raw) :
    NoBlankTexts x ↔ (∀ s ∈ raw.blockId, notBlank s = true) ∧
      ∀ s ∈ raw.needsHumanAsk, notBlank s = true := by
  have hone : ∀ o : Option Text, (∀ s, o.map Value.str = some (.str s) → notBlank s = true) ↔
      ∀ s ∈ o, notBlank s = true := by
    intro o
    cases o <;> simp
  unfold NoBlankTexts
  simp only [List.forall_mem_cons, List.not_mem_nil, false_implies, implies_true, and_true]
  rw [h.blockId, h.needsHumanAsk, hone, hone]

private theorem getD_bind_nonNull (o : Option Value) :
    (o.bind nonNull).getD .null = o.getD .null := by
  cases o with
  | none => rfl
  | some v => cases v <;> rfl

theorem parseStep_of_silent {i : Nat} (h : ReadStep x raw) (hnone : probeIssues i x = []) :
    ∃ s, parseStep raw = some s ∧ (BlockVerbatim x s ↔ NoBlankTexts x) := by
  obtain ⟨hkept, hrefs⟩ := (probeIssues_eq_nil_iff h).mp hnone
  obtain ⟨title, htitle, hrtitle⟩ := h.title
  obtain ⟨desc, hdesc, hrdesc⟩ := h.desc
  obtain ⟨command, hcommand, hrcommand⟩ := h.command
  obtain ⟨level, hlevel, hrlevel⟩ := h.level
  obtain ⟨why, hwhy, hrwhy⟩ := h.why
  obtain ⟨section_, hsection, hrsection⟩ := h.section_
  obtain ⟨subtasks, hsubtasks, hrsubtasks⟩ := h.subtasks
  obtain ⟨items, refs, hitems, hrrefs, hsame⟩ := h.refs
  have hall : (raw.refs.getD []).filter (fun r => keepsRef (r.label.getD []) r.url) = refs := by
    rw [hrrefs, Option.getD_some] at hrefs ⊢
    exact List.filter_eq_self.mpr hrefs
  unfold parseStep
  simp only [hkept, Bool.false_eq_true, if_false, hall]
  refine ⟨_, rfl, ?_⟩
  rw [noBlankTexts_iff h]
  constructor
  · intro hverbatim
    have hid := hverbatim.blockId
    have hask := hverbatim.needsHumanAsk
    rw [h.blockId] at hid
    rw [h.needsHumanAsk] at hask
    exact ⟨filter_eq_iff.mp hid, filter_eq_iff.mp hask⟩
  · rintro ⟨hid, hask⟩
    have htype : (x.get "type".toList).bind Value.asStr = raw.blockType := by
      rw [h.blockType]
      cases raw.blockType <;> rfl
    exact {
      blockId := by
        rw [h.blockId]
        exact filter_eq_iff.mpr hid
      blockType := by
        rw [htype]
        cases raw.blockType <;> rfl
      content := by
        intro hblock
        have hnotStep : isStepType (raw.blockType.getD []) = false := by
          cases hstep : isStepType (raw.blockType.getD []) with
          | true =>
            rw [hstep, if_pos rfl] at hblock
            cases hblock
          | false => rfl
        rw [hnotStep, if_neg (by decide), h.content]
        exact (getD_bind_nonNull _).symm
      title := by rw [htitle, hrtitle]; rfl
      desc := by rw [hdesc, hrdesc]; rfl
      command := by rw [hcommand, hrcommand]; rfl
      imageKey := h.imageKey
      level := by rw [hlevel, hrlevel]; rfl
      needsHuman := h.needsHuman
      needsHumanAsk := by
        rw [h.needsHumanAsk]
        exact filter_eq_iff.mpr hask
      danger := h.danger
      why := by rw [hwhy, hrwhy]; rfl
      section_ := by rw [hsection, hrsection]; rfl
      subtasks := by rw [hsubtasks, hrsubtasks]; rfl
      refs := ⟨items, hitems, refs_verbatim hsame⟩ }

private theorem forall₂_iff_of_each {α β : Type} {R : α → β → Prop} {P : α → Prop} {xs : List α}
    {ys : List β} (h : List.Forall₂ (fun x y => R x y ↔ P x) xs ys) :
    List.Forall₂ R xs ys ↔ ∀ x ∈ xs, P x := by
  induction h with
  | nil => exact iff_of_true List.Forall₂.nil fun _ hx => by cases hx
  | cons hxy _ ih => rw [List.forall₂_cons, List.forall_mem_cons, hxy, ih]

private theorem parseSteps_of_silent {items : List Value} {steps : List RawStep}
    (hsame : List.Forall₂ ReadStep items steps)
    (hnone : ∀ x ∈ items, ∃ i, probeIssues i x = []) :
    List.Forall₂ (fun x s => BlockVerbatim x s ↔ NoBlankTexts x) items (parseSteps steps) := by
  induction hsame with
  | nil => exact List.Forall₂.nil
  | @cons x raw items steps hxraw _ ih =>
    obtain ⟨hx, hrest⟩ := List.forall_mem_cons.mp hnone
    obtain ⟨i, hi⟩ := hx
    obtain ⟨s, hs, hiff⟩ := parseStep_of_silent hxraw hi
    have hcons : parseSteps (raw :: steps) = s :: parseSteps steps := by
      rw [parseSteps, List.filterMap_cons, hs]
      rfl
    rw [hcons]
    exact List.Forall₂.cons hiff (ih hrest)

end Parse

/-- What a text has to be like for all of it to be read: its numbers are plain, and no block has a
blank identity or a blank question. -/
structure Readable (v : Value) : Prop where
  numbers : PlainNumbers v
  texts : ∀ items, v.get "steps".toList = some (.arr items) → ∀ x ∈ items, NoBlankTexts x

section Texts

variable {isUri : Text → Bool} {v : Value}

theorem parseListValue_of_silent (h : Valid (listSchema isUri) v) (hloss : silentLossIssues v = []) :
    ((∃ parts, parseListValue v = some parts ∧ Verbatim v parts) ↔ Readable v) ∧
      (parseListValue v = none ↔ ¬ PlainNumbers v) := by
  rcases fromValue_of_valid h with ⟨hplain, raw, hraw, hread⟩ | ⟨hnot, hnone⟩
  · obtain ⟨title, htitle, hrtitle⟩ := hread.title
    obtain ⟨desc, hdesc, hrdesc⟩ := hread.desc
    obtain ⟨tags, htags, hrtags⟩ := hread.tags
    obtain ⟨ordered, hordered, hrordered⟩ := hread.ordered
    obtain ⟨version, -, hversion, hrversion⟩ := hread.version
    obtain ⟨items, steps, hitems, hrsteps, hsame⟩ := hread.steps
    have hsilent : ∀ x ∈ items, ∃ i, probeIssues i x = [] := by
      intro x hx
      rw [silentLossIssues, hitems] at hloss
      obtain ⟨i, hi, rfl⟩ := List.getElem_of_mem hx
      exact ⟨i, List.flatten_eq_nil_iff.mp hloss _ (List.mem_mapIdx.mpr ⟨i, hi, rfl⟩)⟩
    have hblocks := forall₂_iff_of_each (parseSteps_of_silent hsame hsilent)
    have hparse : parseListValue v = some ⟨title, desc, tags, ordered, version,
        parseSteps steps⟩ := by
      rw [parseListValue, hraw, Option.map_some, hrtitle, hrdesc, hrtags, hrordered, hrversion,
        hrsteps]
      rfl
    rw [hparse]
    refine ⟨⟨?_, fun hreadable => ?_⟩, iff_of_false (fun hnone => by cases hnone) ?_⟩
    · rintro ⟨parts, hparts, hverbatim⟩
      obtain rfl := Option.some.inj hparts
      refine ⟨hplain, fun items' hitems' => ?_⟩
      obtain ⟨items'', hitems'', hsteps⟩ := hverbatim.steps
      rw [hitems] at hitems' hitems''
      obtain rfl := Value.arr.inj (Option.some.inj hitems')
      obtain rfl := Value.arr.inj (Option.some.inj hitems'')
      exact hblocks.mp hsteps
    · exact ⟨_, rfl, htitle, hdesc, htags, hordered, hversion, items, hitems,
        hblocks.mpr (hreadable.texts items hitems)⟩
    · exact fun hcontra => hcontra hplain
  · have hparse : parseListValue v = none := by
      rw [parseListValue, hnone]
      rfl
    rw [hparse]
    refine ⟨iff_of_false ?_ fun hreadable => hnot hreadable.numbers, iff_of_true rfl hnot⟩
    rintro ⟨parts, hparts, -⟩
    cases hparts

end Texts

/-- A text that raises no issue is read, every block, reference and text of it, exactly when it is
readable; and it gets the issue of the soft parse exactly when a number of it is not plain. -/
theorem strict_parse_complete_iff {lib : Libraries} {text : Text} {v : Value}
    (hread : lib.fromStr text = .ok v) (hschema : schemaIssues lib v = [])
    (hloss : silentLossIssues v = []) :
    ((∃ parts, parseCanon lib text = .ok parts ∧ Verbatim v parts) ↔ Readable v) ∧
      (parseCanon lib text = .error [shapeIssue] ↔ ¬ PlainNumbers v) := by
  obtain ⟨hverbatim, hnone⟩ := parseListValue_of_silent (schemaIssues_eq_nil_iff.mp hschema) hloss
  rw [parseCanon_of_no_issues hread hschema hloss, ← hverbatim, ← hnone]
  cases parseListValue v with
  | none => simp
  | some parts => simp

/-- A list of one step with this number. -/
def numberedManifest (n : Int) : Value := .obj [
  ("title".toList, .str "List".toList),
  ("desc".toList, .str []),
  ("tags".toList, .arr []),
  ("ordered".toList, .bool true),
  ("version".toList, .int 1),
  ("steps".toList, .arr [.obj [
    ("n".toList, .int n),
    ("title".toList, .str "Step".toList),
    ("desc".toList, .str []),
    ("command".toList, .str []),
    ("level".toList, .str "required".toList),
    ("why".toList, .str []),
    ("section".toList, .str []),
    ("subtasks".toList, .arr []),
    ("refs".toList, .arr [])]])]

/-- Libraries that know how to read one value. -/
def readersOf (v : Value) : Libraries where
  fromStr := fun t => if t = pretty 0 v then .ok v else .error ⟨[], 1, 1⟩
  isUri := fun _ => false
  describe := fun _ _ => []

theorem readersOf_pretty (v : Value) : (readersOf v).fromStr (pretty 0 v) = .ok v := if_pos rfl

theorem numberedManifest_silent : silentLossIssues (numberedManifest 1) = [] ∧
    silentLossIssues (numberedManifest 2147483648) = [] := ⟨rfl, rfl⟩

theorem numberedManifest_valid (isUri : Text → Bool) :
    Valid (listSchema isUri) (numberedManifest 1) ∧
      Valid (listSchema isUri) (numberedManifest 2147483648) := by
  constructor <;> rw [Valid] <;> rfl

theorem strict_parse_complete_numbered :
    ((∃ parts, parseCanon (readersOf (numberedManifest 1)) (pretty 0 (numberedManifest 1)) =
        .ok parts ∧ Verbatim (numberedManifest 1) parts) ↔ Readable (numberedManifest 1)) ∧
      (parseCanon (readersOf (numberedManifest 1)) (pretty 0 (numberedManifest 1)) =
        .error [shapeIssue] ↔ ¬ PlainNumbers (numberedManifest 1)) :=
  strict_parse_complete_iff (readersOf_pretty (numberedManifest 1))
    (schemaIssues_eq_nil_iff.mpr (numberedManifest_valid _).1) numberedManifest_silent.1

/-- The schema and the probe are silent about a number of 33 bits, and the text is refused. -/
theorem large_number_refused_without_path :
    schemaIssues (readersOf (numberedManifest 2147483648)) (numberedManifest 2147483648) = [] ∧
    silentLossIssues (numberedManifest 2147483648) = [] ∧
    parseCanon (readersOf (numberedManifest 2147483648)) (pretty 0 (numberedManifest 2147483648)) =
      .error [shapeIssue] := by
  have hschema := schemaIssues_eq_nil_iff.mpr
    (numberedManifest_valid (readersOf (numberedManifest 2147483648)).isUri).2
  have hnone : parseListValue (numberedManifest 2147483648) = none := rfl
  refine ⟨hschema, numberedManifest_silent.2, ?_⟩
  rw [parseCanon_of_no_issues (readersOf_pretty _) hschema numberedManifest_silent.2, hnone]

end Setfork.StrictParse
