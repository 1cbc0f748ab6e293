/- ShownCanon
   digest: What the strict reading finds in a canon that the core printed itself. -/
import Setfork.Reproject
import Setfork.StrictParse

set_option autoImplicit false
set_option relaxedAutoImplicit false

namespace Setfork.ShownCanon

open Setfork.Foundation (Text trim)
open Setfork.Foundation.Json
open Setfork.Foundation.JsonSchema
open Setfork.Serialize
open Setfork.Project
open Setfork.Reproject (kept projOf getD_label isStepType_rawOfStep parseSteps_rawOfSteps)
open Setfork.StrictCanon
open Setfork.StrictParse

section Fields

variable {fields : List (Text × Option Value)}

theorem get_present (hnodup : (fields.map Prod.fst).Nodup) {key : Text} {o : Option Value}
    (hfind : (fields.find? (fun f => f.1 = key)).bind Prod.snd = o) :
    (Value.obj (present fields)).get key = o := by
  rw [get_obj, find_present key fields hnodup, hfind]

theorem valid_property_map {v : Value} {name : Text} {inner : Schema} {α : Type} {o : Option α}
    {put : α → Value} (hget : v.get name = o.map put) :
    Valid (.property name inner) v ↔ ∀ a ∈ o, Valid inner (put a) := by
  rw [valid_property, hget]
  cases o <;> simp

theorem valid_property_some {v x : Value} {name : Text} {inner : Schema}
    (hget : v.get name = some x) : Valid (.property name inner) v ↔ Valid inner x := by
  rw [valid_property, hget]
  simp only [Option.some.injEq, forall_eq']

theorem valid_noOthers_present {known : List Text} (h : fields.map Prod.fst ⊆ known) :
    Valid (.noOthers known) (.obj (present fields)) := by
  rw [valid_noOthers]
  rintro members heq m hm
  obtain rfl := Value.obj.inj heq
  obtain ⟨f, hf, hval⟩ := List.mem_filterMap.mp hm
  obtain ⟨x, -, rfl⟩ := Option.map_eq_some_iff.mp hval
  exact h (List.mem_map_of_mem hf)

theorem valid_required_present (hnodup : (fields.map Prod.fst).Nodup) {required : List Text}
    (h : ∀ k ∈ required, ((fields.find? (fun f => f.1 = k)).bind Prod.snd).isSome = true) :
    Valid (.required required) (.obj (present fields)) := by
  rw [valid_required]
  intro members _ k hk
  rw [get_present hnodup rfl]
  exact h k hk

theorem valid_text {v : Value} {name : Text} {o : Option Text}
    (hget : v.get name = o.map Value.str) : Valid (.property name (.type .string)) v :=
  (valid_property_map hget).mpr fun _ _ => rfl

theorem valid_flag {v : Value} {name : Text} {b : Bool}
    (hget : v.get name = if b then some (.bool true) else none) :
    Valid (.property name (.type .boolean)) v := by
  rw [valid_property, hget]
  intro x hx
  cases b with
  | false => cases hx
  | true =>
    obtain rfl := Option.some.inj hx
    rfl

theorem valid_texts (ts : List Text) :
    Valid (.all [.type .array, .items (.type .string)]) (texts ts) := by
  rw [valid_both]
  refine ⟨rfl, valid_items.mpr fun items heq x hx => ?_⟩
  obtain rfl := Value.arr.inj heq
  obtain ⟨s, -, rfl⟩ := List.mem_map.mp hx
  rfl

theorem valid_positive {i : Int} :
    Valid (.all [.type .integer, .minimum 1]) (.int i) ↔ 1 ≤ i := by
  rw [valid_both]
  have hinteger : Valid (.type .integer) (.int i) := by
    rw [valid_type]
    exact decide_eq_true (Rat.den_intCast i)
  refine ⟨fun h => one_le_of_valid h.2, fun h => ⟨hinteger, ?_⟩⟩
  rw [valid_minimum]
  intro q hq
  obtain rfl := Option.some.inj hq
  exact_mod_cast h

theorem valid_enum_str {values : List Text} {s : Text} :
    Valid (.all [.type .string, .enum values]) (.str s) ↔ s ∈ values := by
  rw [valid_both]
  have hstring : Valid (.type .string) (.str s) := rfl
  rw [valid_enum]
  simp only [Value.str.injEq, exists_eq_right', hstring, true_and]

theorem valid_array {α : Type} {each : Schema} {put : α → Value} {xs : List α} :
    Valid (.all [.type .array, .items each]) (.arr (xs.map put)) ↔
      ∀ x ∈ xs, Valid each (put x) := by
  rw [valid_both]
  have harray : Valid (.type .array) (.arr (xs.map put)) := rfl
  rw [valid_items]
  simp only [harray, true_and, Value.arr.injEq, forall_eq', List.forall_mem_map]

end Fields

section Schema

variable {isUri : Text → Bool}

structure RefFits (isUri : Text → Bool) (r : StepRef) : Prop where
  url : ∀ u ∈ r.url, isUri u = true
  visible : (∃ u ∈ r.url, u ≠ []) ∨ hasNonSpace r.label = true

theorem refValue_label (r : StepRef) : (refValue r).get "label".toList =
    ((some r.label).filter (fun l => !l.isEmpty)).map .str := by
  have hget : (refValue r).get "label".toList =
      if r.label.isEmpty then none else some (.str r.label) := get_present (refFields_nodup r) rfl
  rw [hget]
  cases h : r.label.isEmpty <;> simp [Option.filter, h]

theorem refValue_url (r : StepRef) : (refValue r).get "url".toList = r.url.map .str :=
  get_present (refFields_nodup r) rfl

private theorem valid_required_one {members : List (Text × Value)} {name : Text} :
    Valid (.required [name]) (.obj members) ↔ ((Value.obj members).get name).isSome = true := by
  rw [valid_required]
  simp only [Value.obj.injEq, forall_eq', List.mem_singleton, forall_eq]

private theorem valid_address_or_label {r : StepRef} :
    Valid (.anyOf [
      .all [.required (names ["url"]), .property "url".toList (.minLength 1)],
      .all [.required (names ["label"]), .property "label".toList (.pattern hasNonSpace)]])
      (refValue r) ↔ (∃ u ∈ r.url, u ≠ []) ∨ hasNonSpace r.label = true := by
  have haddress : Valid (.required (names ["url"])) (refValue r) ∧
      Valid (.property "url".toList (.minLength 1)) (refValue r) ↔ ∃ u ∈ r.url, u ≠ [] := by
    have hsome : Valid (.required (names ["url"])) (refValue r) ↔ r.url.isSome = true := by
      rw [refValue, names, List.map_singleton, valid_required_one, ← refValue, refValue_url,
        Option.isSome_map]
    rw [hsome, valid_property_map (refValue_url r)]
    cases r.url with
    | none => simp
    | some u => simp [valid_minLength, Nat.one_le_iff_ne_zero]
  have hlabel : Valid (.required (names ["label"])) (refValue r) ∧
      Valid (.property "label".toList (.pattern hasNonSpace)) (refValue r) ↔
        hasNonSpace r.label = true := by
    have hsome : Valid (.required (names ["label"])) (refValue r) ↔
        ((some r.label).filter (fun l => !l.isEmpty)).isSome = true := by
      rw [refValue, names, List.map_singleton, valid_required_one, ← refValue, refValue_label,
        Option.isSome_map]
    rw [hsome, valid_property_map (refValue_label r)]
    cases h : r.label with
    | nil => simp [hasNonSpace]
    | cons c l => simp [valid_pattern]
  simp only [valid_anyOf, List.exists_mem_cons_iff, List.not_mem_nil, false_and, exists_false,
    or_false, valid_both]
  exact or_congr haddress hlabel

theorem valid_refValue {r : StepRef} : Valid (refSchema isUri) (refValue r) ↔ RefFits isUri r := by
  have hobject : Valid (.type .object) (refValue r) := rfl
  have hothers : Valid (.noOthers (names ["label", "url"])) (refValue r) :=
    valid_noOthers_present (List.Subset.refl _)
  have hlabel := valid_text (refValue_label r)
  have hurl : Valid (.property "url".toList (.all [.type .string, .format isUri])) (refValue r) ↔
      ∀ u ∈ r.url, isUri u = true := by
    rw [valid_property_map (refValue_url r)]
    refine forall_congr' fun u => imp_congr_right fun _ => ?_
    rw [valid_both, valid_format]
    simp only [Value.str.injEq, forall_eq']
    exact and_iff_right rfl
  simp only [refSchema, valid_all_cons, valid_all_nil, and_true]
  rw [hurl, valid_address_or_label]
  constructor
  · rintro ⟨-, -, haddress, hvisible, -⟩
    exact ⟨haddress, hvisible⟩
  · intro hfits
    exact ⟨hobject, hlabel, hfits.url, hfits.visible, hothers⟩

structure StepFits (isUri : Text → Bool) (t : SerStep) : Prop where
  n : 1 ≤ t.n
  level : t.level ∈ names ["required", "recommended", "optional"]
  refs : ∀ r ∈ t.refs, RefFits isUri r

private theorem get_stepValue {t : SerStep} {key : Text} {o : Option Value}
    (hfind : ((stepFields t).find? (fun f => f.1 = key)).bind Prod.snd = o) :
    (stepValue t).get key = o := get_present (stepFields_nodup t) hfind

private theorem blockTexts_valid (t : SerStep) :
    Valid (.all (blockTexts.map (fun k => .property k.toList (.type .string)))) (stepValue t) := by
  have htype : (stepValue t).get "type".toList =
      (if isStepBlock t then none else some (t.blockType.getD [])).map Value.str := by
    rw [get_stepValue rfl]
    show (if isStepBlock t then none else some (Value.str (t.blockType.getD []))) = _
    cases isStepBlock t <;> rfl
  have hask : (stepValue t).get "needsHumanAsk".toList =
      (if t.needsHuman then t.needsHumanAsk else none).map Value.str := by
    rw [get_stepValue rfl]
    show (if t.needsHuman then t.needsHumanAsk.map Value.str else none) = _
    cases t.needsHuman <;> rfl
  rw [valid_all]
  simp only [blockTexts, List.map_cons, List.map_nil, List.forall_mem_cons, List.not_mem_nil,
    false_implies, implies_true, and_true]
  have htext {key : Text} {x : Text}
      (hfind : ((stepFields t).find? (fun f => f.1 = key)).bind Prod.snd = some (.str x)) :
      Valid (.property key (.type .string)) (stepValue t) :=
    valid_text (o := some x) (get_stepValue hfind)
  exact ⟨valid_text (get_stepValue rfl), valid_text htype, htext rfl, htext rfl, htext rfl,
    valid_text (get_stepValue rfl), htext rfl, valid_text hask, htext rfl⟩

theorem valid_stepValue {t : SerStep} :
    Valid (blockSchema isUri) (stepValue t) ↔ StepFits isUri t := by
  have hobject : Valid (.type .object) (stepValue t) := rfl
  have hothers : Valid (.noOthers (names ["n", "blockId", "type", "content", "title", "desc",
      "command", "imageKey", "level", "why", "needsHuman", "needsHumanAsk", "danger", "section",
      "subtasks", "refs"])) (stepValue t) := by
    apply valid_noOthers_present
    simp only [stepFields, List.map_cons, List.map_nil]
    decide
  have hrequired : Valid (.required (names ["n", "title", "desc", "command", "level", "why",
      "section", "subtasks", "refs"])) (stepValue t) := by
    apply valid_required_present (stepFields_nodup t)
    simp only [names, List.map_cons, List.map_nil, List.forall_mem_cons, List.not_mem_nil,
      false_implies, implies_true, and_true]
    exact ⟨rfl, rfl, rfl, rfl, rfl, rfl, rfl, rfl, rfl⟩
  have hn : Valid (.property "n".toList (.all [.type .integer, .minimum 1])) (stepValue t) ↔
      1 ≤ t.n := by
    rw [valid_property_some (get_stepValue rfl), valid_positive]
  have hlevel : Valid (.property "level".toList
      (.all [.type .string, .enum (names ["required", "recommended", "optional"])]))
      (stepValue t) ↔ t.level ∈ names ["required", "recommended", "optional"] := by
    rw [valid_property_some (get_stepValue rfl), valid_enum_str]
  have hneeds : Valid (.property "needsHuman".toList (.type .boolean)) (stepValue t) :=
    valid_flag (b := t.needsHuman) (get_stepValue rfl)
  have hdanger : Valid (.property "danger".toList (.type .boolean)) (stepValue t) :=
    valid_flag (b := t.danger) (get_stepValue rfl)
  have hsubtasks : Valid (.property "subtasks".toList
      (.all [.type .array, .items (.type .string)])) (stepValue t) :=
    (valid_property_some (get_stepValue rfl)).mpr (valid_texts t.subtasks)
  have hrefs : Valid (.property "refs".toList (.all [.type .array, .items (refSchema isUri)]))
      (stepValue t) ↔ ∀ r ∈ t.refs, RefFits isUri r := by
    rw [valid_property_some (get_stepValue rfl), valid_array]
    exact forall₂_congr fun r _ => valid_refValue
  simp only [blockSchema, valid_all_cons, valid_all_nil, and_true]
  rw [hn, hlevel, hrefs]
  constructor
  · rintro ⟨-, -, hpos, -, hregistry, -, -, -, heach, -⟩
    exact ⟨hpos, hregistry, heach⟩
  · intro h
    exact ⟨hobject, hrequired, h.n, blockTexts_valid t, h.level, hneeds, hdanger, hsubtasks,
      h.refs, hothers⟩

theorem valid_skillHeader {v h : Value} (hvalid : skillHeaderValid v = some h) :
    Valid skillHeaderSchema h := by
  simp only [skillHeaderValid, Option.bind_eq_some_iff] at hvalid
  obtain ⟨obj, -, hout⟩ := hvalid
  split_ifs at hout
  obtain rfl := Option.some.inj hout
  have hget {key : Text} {o : Option Value}
      (hfind : ((headerFields obj).find? (fun f => f.1 = key)).bind Prod.snd = o) :
      (Value.obj (present (headerFields obj))).get key = o :=
    get_present (headerFields_nodup obj) hfind
  have hothers : Valid (.noOthers (names ["license", "compatibility", "allowed-tools", "metadata",
      "heading"])) (.obj (present (headerFields obj))) := by
    apply valid_noOthers_present
    simp only [headerFields, skillHeaderKeys, List.map_append, List.map_cons, List.map_nil]
    decide
  have htext {key : Text} (hfind : ((headerFields obj).find? (fun f => f.1 = key)).bind Prod.snd =
      headerText obj key) : Valid (.property key (.type .string))
        (.obj (present (headerFields obj))) := valid_text (hget hfind)
  have hmetadata : Valid (.property "metadata".toList
      (.all [.type .object, .others [] (.type .string)])) (.obj (present (headerFields obj))) := by
    rw [valid_property, hget (o := headerMetadata obj) rfl]
    intro x hx
    obtain ⟨clean, hclean, hsome⟩ := Option.bind_eq_some_iff.mp hx
    obtain ⟨inner, -, rfl⟩ := Option.map_eq_some_iff.mp hclean
    split_ifs at hsome
    obtain rfl := Option.some.inj hsome
    rw [valid_both]
    refine ⟨rfl, valid_others.mpr fun members heq m hm _ => ?_⟩
    obtain rfl := Value.obj.inj heq
    obtain ⟨k, -, hk⟩ := List.mem_filterMap.mp hm
    obtain ⟨s, -, rfl⟩ := Option.map_eq_some_iff.mp hk
    rfl
  simp only [skillHeaderSchema, valid_all_cons, valid_all_nil, and_true]
  exact ⟨rfl, htext rfl, htext rfl, htext rfl, hmetadata, htext rfl, hothers⟩

structure CanonFits (isUri : Text → Bool) (schemaUrl : Text) (v : VersionData) : Prop where
  url : isUri schemaUrl = true
  version : 1 ≤ v.version
  kind : ∀ k ∈ v.kind, k ∈ listKinds
  steps : ∀ t ∈ v.steps, StepFits isUri t

private theorem get_canonValue {schemaUrl : Text} {v : VersionData} {key : Text}
    {o : Option Value}
    (hfind : ((canonFields schemaUrl v).find? (fun f => f.1 = key)).bind Prod.snd = o) :
    (canonValue schemaUrl v).get key = o := get_present (canonFields_nodup schemaUrl v) hfind

theorem valid_canonValue {schemaUrl : Text} {v : VersionData} :
    Valid (listSchema isUri) (canonValue schemaUrl v) ↔ CanonFits isUri schemaUrl v := by
  have hobject : Valid (.type .object) (canonValue schemaUrl v) := rfl
  have hothers : Valid (.noOthers (names ["$schema", "title", "desc", "tags", "ordered", "kind",
      "skillHeader", "version", "steps"])) (canonValue schemaUrl v) :=
    valid_noOthers_present (List.Subset.refl _)
  have hrequired : Valid (.required (names ["title", "desc", "tags", "ordered", "version",
      "steps"])) (canonValue schemaUrl v) := by
    apply valid_required_present (canonFields_nodup schemaUrl v)
    simp only [names, List.map_cons, List.map_nil, List.forall_mem_cons, List.not_mem_nil,
      false_implies, implies_true, and_true]
    exact ⟨rfl, rfl, rfl, rfl, rfl, rfl⟩
  have hurl : Valid (.property "$schema".toList (.all [.type .string, .format isUri]))
      (canonValue schemaUrl v) ↔ isUri schemaUrl = true := by
    rw [valid_property_some (get_canonValue rfl), valid_both, valid_format]
    simp only [Value.str.injEq, forall_eq']
    exact and_iff_right rfl
  have htext {name : Text} {s : Text}
      (hfind : ((canonFields schemaUrl v).find? (fun f => f.1 = name)).bind Prod.snd =
        some (.str s)) : Valid (.property name (.type .string)) (canonValue schemaUrl v) :=
    valid_text (o := some s) (get_canonValue hfind)
  have htags : Valid (.property "tags".toList (.all [.type .array, .items (.type .string)]))
      (canonValue schemaUrl v) :=
    (valid_property_some (get_canonValue rfl)).mpr (valid_texts v.tags)
  have hordered : Valid (.property "ordered".toList (.type .boolean)) (canonValue schemaUrl v) :=
    (valid_property_some (get_canonValue (o := some (.bool v.ordered)) rfl)).mpr rfl
  have hkind : Valid (.property "kind".toList (.all [.type .string, .enum listKinds]))
      (canonValue schemaUrl v) ↔ ∀ k ∈ v.kind, k ∈ listKinds := by
    rw [valid_property_map (get_canonValue (o := v.kind.map .str) rfl)]
    exact forall₂_congr fun k _ => valid_enum_str
  have hheader : Valid (.property "skillHeader".toList skillHeaderSchema)
      (canonValue schemaUrl v) := by
    rw [valid_property, get_canonValue (o := v.skillHeader.bind skillHeaderValid) rfl]
    intro x hx
    obtain ⟨h, -, hvalid⟩ := Option.bind_eq_some_iff.mp hx
    exact valid_skillHeader hvalid
  have hversion : Valid (.property "version".toList (.all [.type .integer, .minimum 1]))
      (canonValue schemaUrl v) ↔ 1 ≤ v.version := by
    rw [valid_property_some (get_canonValue rfl), valid_positive]
  have hsteps : Valid (.property "steps".toList (.all [.type .array, .items (blockSchema isUri)]))
      (canonValue schemaUrl v) ↔ ∀ t ∈ v.steps, StepFits isUri t := by
    rw [valid_property_some (get_canonValue rfl), valid_array]
    exact forall₂_congr fun t _ => valid_stepValue
  simp only [listSchema, valid_all_cons, valid_all_nil, and_true]
  rw [hurl, hkind, hversion, hsteps]
  constructor
  · rintro ⟨-, -, haddress, -, -, -, -, hkinds, -, hpos, heach, -⟩
    exact ⟨haddress, hpos, hkinds, heach⟩
  · intro h
    exact ⟨hobject, hrequired, h.url, htext rfl, htext rfl, htags, hordered, h.kind, hheader,
      h.version, h.steps, hothers⟩

end Schema

structure StepSilent (t : SerStep) : Prop where
  title : kept t = true
  refs : ∀ r ∈ t.refs, keepsRef r.label r.url = true

def shownParts (v : VersionData) : ListParts where
  title := v.title
  desc := v.desc
  tags := v.tags
  ordered := v.ordered
  version := v.version
  steps := (v.steps.filter kept).map projOf

section Parse

variable {isUri : Text → Bool} {schemaUrl : Text} {v : VersionData}

private theorem probeIssues_stepValue {t : SerStep} {i : Nat} (hfits : StepFits isUri t) :
    probeIssues i (stepValue t) = [] ↔ StepSilent t := by
  have hread : ReadStep (stepValue t) (rawOfStep t) := by
    rcases readStep_of_valid (valid_stepValue.mpr hfits) with ⟨raw, hraw, hread⟩ | ⟨-, hnone⟩
    · rw [rawStep_stepValue] at hraw
      rw [Option.some.inj hraw]
      exact hread
    · rw [rawStep_stepValue] at hnone
      cases hnone
  have htitle : (rawOfStep t).title.getD [] = t.title := rfl
  have hrefs : (∀ r ∈ (rawOfStep t).refs.getD [], keepsRef (r.label.getD []) r.url = true) ↔
      ∀ r ∈ t.refs, keepsRef r.label r.url = true := by
    show (∀ r ∈ t.refs.map rawOfRef, _) ↔ _
    rw [List.forall_mem_map]
    refine forall₂_congr fun r _ => ?_
    rw [getD_label]
    rfl
  rw [probeIssues_eq_nil_iff hread, isStepType_rawOfStep, htitle, hrefs]
  have hkept : (isStepBlock t && !notBlank t.title) = false ↔ kept t = true := by
    rw [kept]
    cases isStepBlock t <;> cases notBlank t.title <;> simp
  rw [hkept]
  exact ⟨fun h => ⟨h.1, h.2⟩, fun h => ⟨h.title, h.refs⟩⟩

theorem silentLossIssues_canonValue (hfits : CanonFits isUri schemaUrl v) :
    silentLossIssues (canonValue schemaUrl v) = [] ↔ ∀ t ∈ v.steps, StepSilent t := by
  have hsteps : (canonValue schemaUrl v).get "steps".toList = some (.arr (v.steps.map stepValue)) :=
    get_canonValue rfl
  have hitems : silentLossIssues (canonValue schemaUrl v) =
      ((v.steps.map stepValue).mapIdx probeIssues).flatten := by
    rw [silentLossIssues, hsteps]
    rfl
  rw [hitems, flatten_mapIdx_eq_nil, List.forall_mem_iff_getElem]
  simp only [List.length_map, List.getElem_map]
  exact forall₂_congr fun i hi => probeIssues_stepValue (hfits.steps _ (List.getElem_mem hi))

theorem parseListValue_canonValue : parseListValue (canonValue schemaUrl v) =
    if fits (rawOfCanon v) then some (shownParts v) else none := by
  rw [parseListValue, fromValue, rawList_canonValue, Option.filter_some]
  cases fits (rawOfCanon v) with
  | false => rfl
  | true =>
    rw [if_pos rfl, if_pos rfl, Option.map_some, shownParts, ← parseSteps_rawOfSteps]
    rfl

private theorem fits_rawOfCanon (hnumbers : NumbersFit v) : fits (rawOfCanon v) = true := by
  rw [fits, Bool.and_eq_true]
  refine ⟨hnumbers.version, ?_⟩
  rw [List.all_eq_true]
  intro raw hraw
  obtain ⟨t, ht, rfl⟩ := List.mem_map.mp hraw
  exact hnumbers.steps t ht

theorem parseCanon_canonValue {lib : Libraries} {text : Text} {parts : ListParts}
    (hread : lib.fromStr text = .ok (canonValue schemaUrl v)) (hnumbers : NumbersFit v) :
    parseCanon lib text = .ok parts ↔
      (CanonFits lib.isUri schemaUrl v ∧ ∀ t ∈ v.steps, StepSilent t) ∧ shownParts v = parts := by
  rw [parseCanon_ok_iff hread, schemaIssues_eq_nil_iff, valid_canonValue,
    parseListValue_canonValue, if_pos (fits_rawOfCanon hnumbers), Option.some.injEq, ← and_assoc]
  refine and_congr_left fun _ => and_congr_right fun hfits => ?_
  exact silentLossIssues_canonValue hfits

end Parse

private theorem uniqueKeys_texts (ts : List Text) : UniqueKeys (texts ts) := by
  rw [texts, UniqueKeys, uniqueItems_iff]
  intro x hx
  obtain ⟨s, -, rfl⟩ := List.mem_map.mp hx
  exact trivial

private theorem uniqueKeys_str (o : Option Text) : ∀ x ∈ o.map Value.str, UniqueKeys x := by
  intro x hx
  obtain ⟨s, -, rfl⟩ := Option.map_eq_some_iff.mp hx
  exact trivial

private theorem uniqueKeys_flag (b : Bool) :
    ∀ x, (if b = true then some (Value.bool true) else none) = some x → UniqueKeys x := by
  intro x hx
  cases b with
  | false => cases hx
  | true =>
    obtain rfl := Option.some.inj hx
    exact trivial

private theorem uniqueKeys_refs (refs : List StepRef) : UniqueKeys (.arr (refs.map refValue)) := by
  rw [UniqueKeys, uniqueItems_iff]
  intro x hx
  obtain ⟨r, -, rfl⟩ := List.mem_map.mp hx
  refine uniqueKeys_present (refFields_nodup r) fun f hf => ?_
  simp only [refFields, List.mem_cons, List.not_mem_nil, or_false] at hf
  rcases hf with rfl | rfl
  · intro y hy
    cases hlabel : r.label.isEmpty with
    | true => simp [hlabel] at hy
    | false =>
      simp only [hlabel] at hy
      obtain rfl := Option.some.inj hy
      exact trivial
  · exact uniqueKeys_str r.url

theorem uniqueKeys_stepValue {t : SerStep} (hcontent : UniqueKeys t.content) :
    UniqueKeys (stepValue t) := by
  have htype : ∀ x, (if isStepBlock t = true then none else some (Value.str (t.blockType.getD [])))
      = some x → UniqueKeys x := by
    intro x hx
    split_ifs at hx
    obtain rfl := Option.some.inj hx
    exact trivial
  have hpayload : ∀ x, (if isStepBlock t = true then none else some t.content) = some x →
      UniqueKeys x := by
    intro x hx
    split_ifs at hx
    obtain rfl := Option.some.inj hx
    exact hcontent
  have hask : ∀ x, (if t.needsHuman = true then t.needsHumanAsk.map Value.str else none) = some x →
      UniqueKeys x := by
    intro x hx
    split_ifs at hx
    exact uniqueKeys_str _ x hx
  apply uniqueKeys_present (stepFields_nodup t)
  simp only [stepFields, List.forall_mem_cons, List.not_mem_nil, false_implies, implies_true,
    Option.mem_def, Option.some.injEq, forall_eq', and_true]
  exact ⟨trivial, uniqueKeys_str _, htype, hpayload, trivial, trivial, trivial, uniqueKeys_str _,
    trivial, uniqueKeys_flag _, hask, uniqueKeys_flag _, trivial, trivial, uniqueKeys_texts _,
    uniqueKeys_refs _⟩

theorem uniqueKeys_canonValue {schemaUrl : Text} {v : VersionData} (hmaps : VersionMaps v) :
    UniqueKeys (canonValue schemaUrl v) := by
  have hheader : ∀ x, v.skillHeader.bind skillHeaderValid = some x → UniqueKeys x := by
    intro x hx
    obtain ⟨h, hh, hvalid⟩ := Option.bind_eq_some_iff.mp hx
    exact uniqueKeys_skillHeaderValid (hmaps.header h hh) hvalid
  have hsteps : UniqueKeys (.arr (v.steps.map stepValue)) := by
    rw [UniqueKeys, uniqueItems_iff]
    intro x hx
    obtain ⟨t, ht, rfl⟩ := List.mem_map.mp hx
    exact uniqueKeys_stepValue (hmaps.content t ht)
  apply uniqueKeys_present (canonFields_nodup schemaUrl v)
  simp only [canonFields, List.forall_mem_cons, List.not_mem_nil, false_implies, implies_true,
    Option.mem_def, Option.some.injEq, forall_eq', and_true]
  exact ⟨trivial, trivial, trivial, uniqueKeys_texts _, trivial, uniqueKeys_str _, hheader, trivial,
    hsteps⟩

end Setfork.ShownCanon
