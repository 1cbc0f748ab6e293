/- EmptyRefs
   digest: How an empty reference is named: the rule of the schema and the rule of the probe, and
   what is left of their issues where both speak. -/
import Setfork.StrictParse

set_option autoImplicit false
set_option relaxedAutoImplicit false

namespace Setfork.EmptyRefs

open Setfork.Foundation (Text trim isWhitespace trim_ne_nil_of_mem)
open Setfork.Foundation.Json
open Setfork.Foundation.JsonSchema
open Setfork.Serialize (keepsRef)
open Setfork.Project
open Setfork.StrictCanon
open Setfork.StrictParse (get_obj isSome_mapM rawRef_of_find readersOf readersOf_pretty)

mutual

def withPattern (found : Text → Bool) : Schema → Schema
  | .type t => .type t
  | .enum values => .enum values
  | .minimum bound => .minimum bound
  | .minLength bound => .minLength bound
  | .pattern _ => .pattern found
  | .format holds => .format holds
  | .items each => .items (withPattern found each)
  | .required names => .required names
  | .property name inner => .property name (withPattern found inner)
  | .noOthers known => .noOthers known
  | .others known inner => .others known (withPattern found inner)
  | .anyOf options => .anyOf (withPatterns found options)
  | .all parts => .all (withPatterns found parts)

def withPatterns (found : Text → Bool) : List Schema → List Schema
  | [] => []
  | s :: parts => withPattern found s :: withPatterns found parts

end

section Reading

variable (space : Char → Bool) (lib : Libraries)

def nonSpaceBy (s : Text) : Bool := s.any (fun c => !space c)

def listSchemaBy : Schema := withPattern (nonSpaceBy space) (listSchema lib.isUri)

def schemaErrors (v : Value) : List SchemaError := errors [] v (listSchemaBy space lib)

def schemaIssuesBy (v : Value) : List (CanonIssue × Bool) :=
  (schemaErrors space lib v).map (fun e =>
    (⟨e.path, .schema, lib.describe v e, 0, 0⟩, decide (e.kind = .anyOf)))

/-- `parse_canon` with regular expressions of that class. -/
def parseCanonBy (text : Text) : Except (List CanonIssue) ListParts :=
  match lib.fromStr text with
  | .error e => .error [⟨[], .syntaxError, e.message, e.line, e.column⟩]
  | .ok v =>
    let loss := silentLossIssues v
    let emptyRef (path : Text) := loss.any (fun l => decide (l.code = .refEmpty) && l.path == path)
    let issues :=
      ((schemaIssuesBy space lib v).filter (fun s => !(s.2 && emptyRef s.1.path))).map Prod.fst ++
        loss
    if issues.isEmpty then
      match parseListValue v with
      | some parts => .ok parts
      | none => .error [shapeIssue]
    else .error issues

theorem parseCanonBy_ecma : parseCanonBy ecmaSpace = parseCanon := rfl

end Reading

def refPath (i k : Nat) : Text := pathItem (pathKey (stepPath i) "refs".toList) k

theorem refIssue_path (i k : Nat) : (refIssue i k).path = refPath i k := rfl

def emptyRefAt (v : Value) (path : Text) : Bool :=
  (silentLossIssues v).any (fun l => decide (l.code = .refEmpty) && l.path == path)

def reportedErrors (space : Char → Bool) (lib : Libraries) (v : Value) : List SchemaError :=
  (schemaErrors space lib v).filter (fun e => !(decide (e.kind = .anyOf) && emptyRefAt v e.path))

def report (space : Char → Bool) (lib : Libraries) (v : Value) : List CanonIssue :=
  (reportedErrors space lib v).map (fun e => ⟨e.path, .schema, lib.describe v e, 0, 0⟩) ++
    silentLossIssues v

/-- How often the emptiness of a reference is named, by its own issue or by the schema. -/
def namings (space : Char → Bool) (lib : Libraries) (v : Value) (i k : Nat) : Nat :=
  (silentLossIssues v).count (refIssue i k) +
    (reportedErrors space lib v).count ⟨refPath i k, .anyOf⟩

theorem under_stepPath (i k : Nat) : Under (stepPath i) (refPath i k) :=
  under_slash (under_slash (under_refl (refPath i k)))

theorem refPath_injective {i k i' k' : Nat} (h : refPath i k = refPath i' k') :
    i = i' ∧ k = k' := by
  have hstep : Under (stepPath i') (refPath i k) := by
    rw [h]
    exact under_stepPath i' k'
  obtain rfl : i = i' := index_of_under (under_stepPath i k) hstep
  have href : Under (refPath i k') (refPath i k) := by
    rw [h]
    exact under_refl (refPath i k')
  exact ⟨rfl, index_of_under (under_refl (refPath i k)) href⟩

theorem refIssue_injective {i k i' k' : Nat} (h : refIssue i k = refIssue i' k') :
    i = i' ∧ k = k' :=
  refPath_injective (congrArg CanonIssue.path h)

theorem mem_probeIssues {i : Nat} {raw : Value} {l : CanonIssue} (h : l ∈ probeIssues i raw) :
    l = titleIssue i ∨ ∃ k, l = refIssue i k := by
  unfold probeIssues at h
  cases hprobe : LossProbe.ofJson raw with
  | none =>
    rw [hprobe] at h
    cases h
  | some probe =>
    rw [hprobe] at h
    rcases List.mem_append.mp h with htitle | hrefs
    · split_ifs at htitle with hblank
      · exact Or.inl (List.mem_singleton.mp htitle)
      · cases htitle
    · obtain ⟨ls, hls, hl⟩ := List.mem_flatten.mp hrefs
      obtain ⟨k, hk, rfl⟩ := List.mem_mapIdx.mp hls
      split_ifs at hl with hkept
      · cases hl
      · exact Or.inr ⟨k, List.mem_singleton.mp hl⟩

theorem mem_silentLossIssues {v : Value} {l : CanonIssue} (h : l ∈ silentLossIssues v) :
    ∃ i raw, l ∈ probeIssues i raw := by
  unfold silentLossIssues at h
  split at h
  · cases h
  · obtain ⟨ls, hls, hl⟩ := List.mem_flatten.mp h
    obtain ⟨i, hi, rfl⟩ := List.mem_mapIdx.mp hls
    exact ⟨i, _, hl⟩

theorem refEmpty_of_mem_silentLossIssues {v : Value} {l : CanonIssue}
    (h : l ∈ silentLossIssues v) (hcode : l.code = .refEmpty) : ∃ i k, l = refIssue i k := by
  obtain ⟨i, raw, hraw⟩ := mem_silentLossIssues h
  rcases mem_probeIssues hraw with rfl | ⟨k, rfl⟩
  · cases hcode
  · exact ⟨i, k, rfl⟩

theorem index_of_mem_probeIssues {i j k : Nat} {raw : Value} (h : refIssue i k ∈ probeIssues j raw) :
    j = i := by
  rcases mem_probeIssues h with heq | ⟨k', heq⟩
  · cases congrArg CanonIssue.code heq
  · exact (refIssue_injective heq).1.symm

theorem count_probeIssues {i k : Nat} {raw : Value} {probe : LossProbe} {r : RawRef}
    (hprobe : LossProbe.ofJson raw = some probe) (hr : (probe.refs.getD [])[k]? = some r) :
    (probeIssues i raw).count (refIssue i k) =
      if keepsRef (r.label.getD []) r.url then 0 else 1 := by
  unfold probeIssues
  rw [hprobe]
  simp only [List.count_append]
  have htitle : ∀ b : Bool, (if b then [titleIssue i] else []).count (refIssue i k) = 0 := by
    intro b
    refine List.count_eq_zero_of_not_mem fun hmem => ?_
    cases b with
    | false => cases hmem
    | true => cases congrArg CanonIssue.code (List.mem_singleton.mp hmem)
  rw [htitle, Nat.zero_add]
  rw [count_flatten_mapIdx hr fun j y hmem => ?_]
  · cases keepsRef (r.label.getD []) r.url with
    | false => exact List.count_singleton_self
    | true => rfl
  · split_ifs at hmem with hkept
    · cases hmem
    · exact (refIssue_injective (List.mem_singleton.mp hmem)).2.symm

section Losses

variable {v step : Value} {steps : List Value} {i : Nat}

theorem count_silentLossIssues (hsteps : v.get "steps".toList = some (.arr steps))
    (hstep : steps[i]? = some step) (k : Nat) :
    (silentLossIssues v).count (refIssue i k) = (probeIssues i step).count (refIssue i k) := by
  unfold silentLossIssues
  rw [hsteps]
  exact count_flatten_mapIdx hstep fun j y hmem => index_of_mem_probeIssues hmem

def readsText : Option Value → Bool
  | none => true
  | some .null => true
  | some (.str _) => true
  | _ => false

def readsRef (x : Value) : Bool :=
  match recordMembers ["label", "url"] x with
  | some members => readsText (find "label".toList members) && readsText (find "url".toList members)
  | none => false

/-- What the probe needs of a step with these references. -/
def probeReads (step : Value) (refs : List Value) : Bool :=
  readsText (step.get "type".toList) && readsText (step.get "title".toList) && refs.all readsRef

theorem isSome_field_str (members : List (Text × Value)) (name : String) :
    (field Value.asStr members name).isSome = readsText (find name.toList members) := by
  unfold field
  cases find name.toList members with
  | none => rfl
  | some x => cases x <;> rfl

theorem isSome_rawRef (x : Value) : (RawRef.ofJson x).isSome = readsRef x := by
  unfold RawRef.ofJson readsRef
  cases recordMembers ["label", "url"] x with
  | none => rfl
  | some members =>
    simp only [Option.bind_eq_bind, Option.bind_some, ← isSome_field_str]
    cases field Value.asStr members "label" with
    | none => rfl
    | some label =>
      cases field Value.asStr members "url" with
      | none => rfl
      | some url => rfl

theorem getElem?_of_mapM {α β : Type} {f : α → Option β} {xs : List α} {ys : List β}
    (h : xs.mapM f = some ys) (k : Nat) : ys[k]? = xs[k]?.bind f := by
  induction xs generalizing ys k with
  | nil =>
    obtain rfl : [] = ys := Option.some.inj h
    rfl
  | cons x xs ih =>
    rw [List.mapM_cons] at h
    obtain ⟨y, hy, h⟩ := Option.bind_eq_some_iff.mp h
    obtain ⟨rest, hrest, h⟩ := Option.bind_eq_some_iff.mp h
    obtain rfl : y :: rest = ys := Option.some.inj h
    cases k with
    | zero => exact hy.symm
    | succ k => exact ih hrest k

theorem lossProbe_cases {refs : List Value}
    (hrefs : step.get "refs".toList = some (.arr refs)) :
    (probeReads step refs = false ∧ LossProbe.ofJson step = none) ∨
      (probeReads step refs = true ∧ ∃ probe rs, LossProbe.ofJson step = some probe ∧
        refs.mapM RawRef.ofJson = some rs ∧ probe.refs = some rs) := by
  cases step with
  | obj members =>
    have hlist : field (asList RawRef.ofJson) members "refs" =
        (refs.mapM RawRef.ofJson).map some := by
      rw [get_obj] at hrefs
      rw [field, hrefs]
      rfl
    have hall : (refs.mapM RawRef.ofJson).isSome = refs.all readsRef := by
      rw [isSome_mapM]
      simp only [isSome_rawRef]
    have hmembers : recordMembers ["type", "title", "refs"] (.obj members) = some members := rfl
    unfold LossProbe.ofJson probeReads
    rw [hmembers, get_obj, get_obj, ← isSome_field_str, ← isSome_field_str, ← hall]
    simp only [Option.bind_eq_bind, Option.bind_some, hlist]
    cases field Value.asStr members "type" with
    | none => exact Or.inl ⟨rfl, rfl⟩
    | some blockType =>
      cases field Value.asStr members "title" with
      | none => exact Or.inl ⟨rfl, rfl⟩
      | some title =>
        cases refs.mapM RawRef.ofJson with
        | none => exact Or.inl ⟨rfl, rfl⟩
        | some rs => exact Or.inr ⟨rfl, ⟨blockType, title, some rs⟩, rs, rfl, rfl, rfl⟩
  | _ => cases hrefs

end Losses

section Report

variable {space : Char → Bool} {lib : Libraries} {text : Text} {v : Value}

theorem parseCanonBy_eq (hread : lib.fromStr text = .ok v) :
    parseCanonBy space lib text =
      if (report space lib v).isEmpty then
        match parseListValue v with
        | some parts => .ok parts
        | none => .error [shapeIssue]
      else .error (report space lib v) := by
  have hissues : ((schemaIssuesBy space lib v).filter
      (fun s => !(s.2 && emptyRefAt v s.1.path))).map Prod.fst =
      (reportedErrors space lib v).map (fun e => ⟨e.path, .schema, lib.describe v e, 0, 0⟩) := by
    rw [schemaIssuesBy, List.filter_map, List.map_map]
    rfl
  unfold parseCanonBy
  rw [hread]
  simp only
  rw [report, ← hissues]
  rfl

theorem dropped_of_not_reported {e : SchemaError} (he : e ∈ schemaErrors space lib v)
    (hdropped : e ∉ reportedErrors space lib v) :
    ∃ i k, e = ⟨refPath i k, .anyOf⟩ ∧ refIssue i k ∈ silentLossIssues v := by
  have hboth : e.kind = .anyOf ∧ emptyRefAt v e.path = true := by
    by_contra hnot
    refine hdropped (List.mem_filter.mpr ⟨he, ?_⟩)
    rw [Bool.not_eq_true', Bool.and_eq_false_iff, decide_eq_false_iff_not, ← Bool.not_eq_true]
    exact not_and_or.mp hnot
  obtain ⟨hkind, hat⟩ := hboth
  obtain ⟨l, hl, hempty⟩ := List.any_eq_true.mp hat
  rw [Bool.and_eq_true, decide_eq_true_eq, beq_iff_eq] at hempty
  obtain ⟨i, k, rfl⟩ := refEmpty_of_mem_silentLossIssues hl hempty.1
  refine ⟨i, k, ?_, hl⟩
  rw [← refIssue_path, hempty.2, ← hkind]

theorem emptyRefAt_refPath (i k : Nat) :
    emptyRefAt v (refPath i k) = decide (refIssue i k ∈ silentLossIssues v) := by
  rw [Bool.eq_iff_iff, decide_eq_true_eq, emptyRefAt, List.any_eq_true]
  constructor
  · rintro ⟨l, hl, hempty⟩
    rw [Bool.and_eq_true, decide_eq_true_eq, beq_iff_eq] at hempty
    obtain ⟨i', k', rfl⟩ := refEmpty_of_mem_silentLossIssues hl hempty.1
    obtain ⟨rfl, rfl⟩ := refPath_injective hempty.2
    exact hl
  · intro hmem
    exact ⟨refIssue i k, hmem, Bool.and_eq_true_iff.mpr ⟨rfl, beq_self_eq_true _⟩⟩

theorem namings_eq (i k : Nat) :
    namings space lib v i k = (silentLossIssues v).count (refIssue i k) +
      if refIssue i k ∈ silentLossIssues v then 0
      else (schemaErrors space lib v).count ⟨refPath i k, .anyOf⟩ := by
  rw [namings, Nat.add_left_cancel_iff, reportedErrors]
  split_ifs with hloss
  · refine List.count_eq_zero_of_not_mem fun hmem => ?_
    have hkept := (List.mem_filter.mp hmem).2
    rw [emptyRefAt_refPath, decide_eq_true hloss] at hkept
    cases hkept
  · refine List.count_filter ?_
    rw [emptyRefAt_refPath, decide_eq_false hloss]
    rfl

end Report

def refOptions (space : Char → Bool) : List Schema := [
  .all [.required (names ["url"]), .property "url".toList (.minLength 1)],
  .all [.required (names ["label"]), .property "label".toList (.pattern (nonSpaceBy space))]]

section SchemaWord

variable {space : Char → Bool} {lib : Libraries} {v step ref : Value} {steps refs : List Value}
variable {i k : Nat}

theorem count_schemaErrors (hsteps : v.get "steps".toList = some (.arr steps))
    (hstep : steps[i]? = some step) (hrefs : step.get "refs".toList = some (.arr refs))
    (href : refs[k]? = some ref) :
    (schemaErrors space lib v).count ⟨refPath i k, .anyOf⟩ =
      (errors (refPath i k) ref (.anyOf (refOptions space))).count ⟨refPath i k, .anyOf⟩ := by
  let found := nonSpaceBy space
  let refItem := withPattern found (refSchema lib.isUri)
  let block := withPattern found (blockSchema lib.isUri)
  calc (schemaErrors space lib v).count ⟨refPath i k, .anyOf⟩
    _ = (errors [] v (.property "steps".toList (.all [.type .array, .items block]))).count
          ⟨refPath i k, .anyOf⟩ := count_all_only 10 rfl rfl rfl
    _ = (errors (pathKey [] "steps".toList) (.arr steps)
          (.all [.type .array, .items block])).count ⟨refPath i k, .anyOf⟩ := count_property hsteps
    _ = (errors (pathKey [] "steps".toList) (.arr steps) (.items block)).count
          ⟨refPath i k, .anyOf⟩ := count_all_only 1 rfl rfl rfl
    _ = (errors (stepPath i) step block).count ⟨refPath i k, .anyOf⟩ :=
        count_items hstep (under_stepPath i k)
    _ = (errors (stepPath i) step
          (.property "refs".toList (.all [.type .array, .items refItem]))).count
          ⟨refPath i k, .anyOf⟩ := count_all_only 8 rfl rfl rfl
    _ = (errors (pathKey (stepPath i) "refs".toList) (.arr refs)
          (.all [.type .array, .items refItem])).count ⟨refPath i k, .anyOf⟩ :=
        count_property hrefs
    _ = (errors (pathKey (stepPath i) "refs".toList) (.arr refs) (.items refItem)).count
          ⟨refPath i k, .anyOf⟩ := count_all_only 1 rfl rfl rfl
    _ = (errors (refPath i k) ref refItem).count ⟨refPath i k, .anyOf⟩ :=
        count_items href (under_refl (refPath i k))
    _ = (errors (refPath i k) ref (.anyOf (refOptions space))).count ⟨refPath i k, .anyOf⟩ :=
        count_all_only 3 rfl rfl rfl

theorem valid_required_str {members : List (Text × Value)} {name : String} {o : Option Text}
    {inner : Schema} (ho : find name.toList members = o.map .str) :
    Valid (.all [.required (names [name]), .property name.toList inner]) (.obj members) ↔
      ∃ s ∈ o, Valid inner (.str s) := by
  rw [valid_both, valid_required, valid_property, get_obj, ho]
  cases o with
  | none => simp [names, get_obj, ho]
  | some s => simp [names, get_obj, ho]

theorem valid_refOptions {members : List (Text × Value)} {label url : Option Text}
    (hlabel : find "label".toList members = label.map .str)
    (hurl : find "url".toList members = url.map .str) :
    Valid (.anyOf (refOptions space)) (.obj members) ↔
      (∃ u ∈ url, u ≠ []) ∨ ∃ s ∈ label, nonSpaceBy space s = true := by
  have hlength : ∀ u : Text, Valid (.minLength 1) (.str u) ↔ u ≠ [] := by
    intro u
    rw [valid_minLength]
    simp only [Value.str.injEq, forall_eq', Nat.one_le_iff_ne_zero, ne_eq, List.length_eq_zero_iff]
  have hfound : ∀ s : Text, Valid (.pattern (nonSpaceBy space)) (.str s) ↔
      nonSpaceBy space s = true := by
    intro s
    rw [valid_pattern]
    simp only [Value.str.injEq, forall_eq']
  rw [refOptions, valid_anyOf]
  simp only [List.exists_mem_cons_iff, List.not_mem_nil, false_and, exists_false, or_false]
  rw [valid_required_str hurl, valid_required_str hlabel]
  simp only [hlength, hfound]

end SchemaWord

/-- On a label without an address: one that is not blank has a character outside the class, and a
blank one is of the class, unless the probe can read its step. -/
def LabelRulesMeet (space : Char → Bool) (readable : Bool) (label : Text) : Prop :=
  if notBlank label then nonSpaceBy space label = true
  else nonSpaceBy space label = false ∨ readable = true

/-- The emptiness of a reference is named as the rule of the core says, and nothing else is
dropped. -/
structure NamedOnce (space : Char → Bool) (lib : Libraries) (text : Text) (v : Value) (i k : Nat)
    (kept : Bool) : Prop where
  result : parseCanonBy space lib text =
    if (report space lib v).isEmpty then
      match parseListValue v with
      | some parts => .ok parts
      | none => .error [shapeIssue]
    else .error (report space lib v)
  once : namings space lib v i k = if kept then 0 else 1
  others : ∀ e ∈ schemaErrors space lib v, e ∉ reportedErrors space lib v →
    ∃ i k, e = ⟨refPath i k, .anyOf⟩ ∧ refIssue i k ∈ silentLossIssues v

theorem notBlank_eq_nonSpaceBy (s : Text) : notBlank s = nonSpaceBy isWhitespace s := by
  rw [Bool.eq_iff_iff, notBlank, Bool.not_eq_true', List.isEmpty_eq_false_iff, nonSpaceBy,
    List.any_eq_true]
  constructor
  · intro hleft
    by_contra hnone
    refine hleft ?_
    have hall : ∀ c ∈ s, isWhitespace c = true := by
      intro c hc
      by_contra hvisible
      exact hnone ⟨c, hc, by rw [Bool.not_eq_true] at hvisible; rw [hvisible]; rfl⟩
    rw [trim, List.dropWhile_eq_nil_iff.mpr hall, List.rdropWhile_nil]
  · rintro ⟨c, hc, hvisible⟩
    exact trim_ne_nil_of_mem hc ((Bool.not_eq_true' _).mp hvisible)

theorem labelRulesMeet_white_space (readable : Bool) (label : Text) :
    LabelRulesMeet isWhitespace readable label := by
  rw [LabelRulesMeet, notBlank_eq_nonSpaceBy]
  split_ifs with hvisible
  · exact hvisible
  · exact Or.inl (Bool.not_eq_true _ ▸ hvisible)

section Meet

variable {space : Char → Bool} {lib : Libraries} {text : Text} {v step : Value}
variable {steps refs : List Value} {members : List (Text × Value)} {label url : Option Text}
variable {i k : Nat}

theorem keepsRef_iff (huri : ∀ u, lib.isUri u = true → notBlank u = true)
    (hform : ∀ u ∈ url, u = [] ∨ lib.isUri u = true) :
    keepsRef (label.getD []) url = true ↔
      (∃ u ∈ url, u ≠ []) ∨ ∃ s ∈ label, notBlank s = true := by
  have haddress : url.any notBlank = true ↔ ∃ u ∈ url, u ≠ [] := by
    rw [Option.any_eq_true]
    constructor
    · rintro ⟨u, hu, hvisible⟩
      refine ⟨u, hu, ?_⟩
      rintro rfl
      cases hvisible
    · rintro ⟨u, hu, hne⟩
      exact ⟨u, hu, huri u ((hform u hu).resolve_left hne)⟩
  have htext : notBlank (label.getD []) = true ↔ ∃ s ∈ label, notBlank s = true := by
    cases label with
    | none => exact iff_of_false (by decide) fun ⟨_, hs, _⟩ => by cases hs
    | some s => simp
  have hrule : keepsRef (label.getD []) url = (notBlank (label.getD []) || url.any notBlank) := rfl
  rw [hrule, Bool.or_eq_true, htext, haddress, or_comm]

theorem namings_eq_ite (hsteps : v.get "steps".toList = some (.arr steps))
    (hstep : steps[i]? = some step) (hrefs : step.get "refs".toList = some (.arr refs))
    (href : refs[k]? = some (.obj members))
    (hlabel : find "label".toList members = label.map .str)
    (hurl : find "url".toList members = url.map .str) :
    namings space lib v i k =
      if probeReads step refs = true ∧ keepsRef (label.getD []) url = false then 1
      else if Valid (.anyOf (refOptions space)) (.obj members) then 0 else 1 := by
  have hschema : (schemaErrors space lib v).count ⟨refPath i k, .anyOf⟩ =
      if Valid (.anyOf (refOptions space)) (.obj members) then 0 else 1 :=
    (count_schemaErrors hsteps hstep hrefs href).trans count_anyOf
  have hloss := count_silentLossIssues hsteps hstep k
  rw [namings_eq, hschema]
  rcases lossProbe_cases hrefs with ⟨hreads, hprobe⟩ | ⟨hreads, probe, rs, hprobe, hrs, hprefs⟩
  · have hnone : (silentLossIssues v).count (refIssue i k) = 0 := by
      rw [hloss, probeIssues, hprobe]
      rfl
    rw [hnone, if_neg (List.count_eq_zero.mp hnone), hreads, Nat.zero_add]
    rfl
  · have hr : (probe.refs.getD [])[k]? = some ⟨label, url⟩ := by
      rw [hprefs, Option.getD_some, getElem?_of_mapM hrs, href, Option.bind_some]
      exact rawRef_of_find hlabel hurl
    have hcount : (silentLossIssues v).count (refIssue i k) =
        if keepsRef (label.getD []) url then 0 else 1 := by
      rw [hloss]
      exact count_probeIssues hprobe hr
    rw [hcount, hreads]
    cases hkeeps : keepsRef (label.getD []) url with
    | false =>
      rw [hkeeps, if_neg Bool.false_ne_true] at hcount
      have hmem : refIssue i k ∈ silentLossIssues v := List.count_pos_iff.mp (by omega)
      simp only [if_pos hmem, and_self, Bool.false_eq_true, if_true, if_false, Nat.add_zero]
    | true =>
      rw [hkeeps, if_pos rfl] at hcount
      have hnot : refIssue i k ∉ silentLossIssues v := List.count_eq_zero.mp hcount
      simp only [if_neg hnot, Bool.true_eq_false, and_false, if_true, if_false, Nat.zero_add]

/-- The emptiness of a reference is named exactly once where it is empty, and not at all where it
is not, exactly if it has an address or the rules of schema and core meet on its label. -/
theorem empty_ref_named_once_iff (huri : ∀ u, lib.isUri u = true → notBlank u = true)
    (hread : lib.fromStr text = .ok v) (hsteps : v.get "steps".toList = some (.arr steps))
    (hstep : steps[i]? = some step) (hrefs : step.get "refs".toList = some (.arr refs))
    (href : refs[k]? = some (.obj members))
    (hlabel : find "label".toList members = label.map .str)
    (hurl : find "url".toList members = url.map .str)
    (hform : ∀ u ∈ url, u = [] ∨ lib.isUri u = true) :
    NamedOnce space lib text v i k (keepsRef (label.getD []) url) ↔
      (∃ u ∈ url, u ≠ []) ∨ ∀ s ∈ label, LabelRulesMeet space (probeReads step refs) s := by
  have hnamed : NamedOnce space lib text v i k (keepsRef (label.getD []) url) ↔
      namings space lib v i k = if keepsRef (label.getD []) url then 0 else 1 :=
    ⟨NamedOnce.once, fun honce =>
      ⟨parseCanonBy_eq hread, honce, fun _ he hdropped => dropped_of_not_reported he hdropped⟩⟩
  have hkeeps : keepsRef (label.getD []) url = true ↔
      (∃ u ∈ url, u ≠ []) ∨ ∃ s ∈ label, notBlank s = true := keepsRef_iff huri hform
  have hvalid : Valid (.anyOf (refOptions space)) (.obj members) ↔
      (∃ u ∈ url, u ≠ []) ∨ ∃ s ∈ label, nonSpaceBy space s = true := valid_refOptions hlabel hurl
  rw [hnamed, namings_eq_ite hsteps hstep hrefs href hlabel hurl]
  by_cases haddress : ∃ u ∈ url, u ≠ []
  · have hkept := hkeeps.mpr (Or.inl haddress)
    have hmet := hvalid.mpr (Or.inl haddress)
    simp only [hkept, hmet, Bool.true_eq_false, and_false, if_true, if_false]
    exact iff_of_true trivial (Or.inl haddress)
  · rw [or_iff_right haddress] at hkeeps hvalid ⊢
    cases label with
    | none =>
      have hempty : keepsRef (Option.getD none []) url = false := by
        rw [← Bool.not_eq_true, hkeeps]
        exact fun ⟨_, hs, _⟩ => by cases hs
      have hviolated : ¬ Valid (.anyOf (refOptions space)) (.obj members) := by
        rw [hvalid]
        exact fun ⟨_, hs, _⟩ => by cases hs
      simp only [hempty, hviolated, if_false, Bool.false_eq_true, ite_self]
      exact iff_of_true trivial fun _ hs => by cases hs
    | some s =>
      simp only [Option.mem_def, Option.some.injEq, exists_eq_left', forall_eq'] at hkeeps hvalid ⊢
      have hrule : keepsRef (Option.getD (some s) []) url = notBlank s := Bool.eq_iff_iff.mpr hkeeps
      simp only [hrule, hvalid, LabelRulesMeet]
      cases notBlank s <;> cases nonSpaceBy space s <;> cases probeReads step refs <;> simp

end Meet

/-- A list of one step with one reference that has a label and no address. -/
def labelledList (title : Value) (label : Text) : Value := .obj [
  ("title".toList, .str "List".toList),
  ("desc".toList, .str []),
  ("tags".toList, .arr []),
  ("ordered".toList, .bool true),
  ("version".toList, .int 1),
  ("steps".toList, .arr [.obj [
    ("n".toList, .int 1),
    ("title".toList, title),
    ("desc".toList, .str []),
    ("command".toList, .str []),
    ("level".toList, .str "required".toList),
    ("why".toList, .str []),
    ("section".toList, .str []),
    ("subtasks".toList, .arr []),
    ("refs".toList, .arr [.obj [("label".toList, .str label)]])]])]

theorem plain_labels_named_once :
    NamedOnce ecmaSpace (readersOf (labelledList (.str "Step".toList) "docs".toList))
        (pretty 0 (labelledList (.str "Step".toList) "docs".toList))
        (labelledList (.str "Step".toList) "docs".toList) 0 0 true ∧
      NamedOnce ecmaSpace (readersOf (labelledList (.str "Step".toList) "  ".toList))
        (pretty 0 (labelledList (.str "Step".toList) "  ".toList))
        (labelledList (.str "Step".toList) "  ".toList) 0 0 false := by
  have huri : ∀ v u, (readersOf v).isUri u = true → notBlank u = true := fun _ _ h => by cases h
  have hform : ∀ v, ∀ u ∈ (none : Option Text), u = [] ∨ (readersOf v).isUri u = true :=
    fun _ _ hu => by cases hu
  constructor
  · have hiff := @empty_ref_named_once_iff ecmaSpace _ _ _ _ _ _ _ (some "docs".toList) none 0 0
      (huri _) (readersOf_pretty (labelledList (.str "Step".toList) "docs".toList)) rfl rfl rfl rfl
      rfl rfl (hform _)
    exact hiff.mpr (Or.inr fun s hs => by cases hs; rfl)
  · have hiff := @empty_ref_named_once_iff ecmaSpace _ _ _ _ _ _ _ (some "  ".toList) none 0 0
      (huri _) (readersOf_pretty (labelledList (.str "Step".toList) "  ".toList)) rfl rfl rfl rfl
      rfl rfl (hform _)
    exact hiff.mpr (Or.inr fun s hs => by cases hs; exact Or.inl rfl)

/-- A label of one byte order mark is kept by the core and refused by the schema; one of the next
line character is dropped by the core and named by nobody, where the probe cannot read its step. -/
theorem mark_and_next_line_misnamed :
    (keepsRef ['\ufeff'] none = true ∧
      parseCanon (readersOf (labelledList (.str "Step".toList) ['\ufeff']))
          (pretty 0 (labelledList (.str "Step".toList) ['\ufeff'])) =
        .error [⟨"/steps/0/refs/0".toList, .schema, [], 0, 0⟩] ∧
      ¬ NamedOnce ecmaSpace (readersOf (labelledList (.str "Step".toList) ['\ufeff']))
        (pretty 0 (labelledList (.str "Step".toList) ['\ufeff']))
        (labelledList (.str "Step".toList) ['\ufeff']) 0 0 true) ∧
    (keepsRef ['\x85'] none = false ∧
      parseCanon (readersOf (labelledList (.int 5) ['\x85']))
          (pretty 0 (labelledList (.int 5) ['\x85'])) =
        .error [⟨"/steps/0/title".toList, .schema, [], 0, 0⟩] ∧
      ¬ NamedOnce ecmaSpace (readersOf (labelledList (.int 5) ['\x85']))
        (pretty 0 (labelledList (.int 5) ['\x85'])) (labelledList (.int 5) ['\x85']) 0 0
        false) := by
  refine ⟨⟨rfl, ?_, fun h => ?_⟩, rfl, ?_, fun h => ?_⟩
  · rw [parseCanon, readersOf_pretty]
    rfl
  · have honce : namings ecmaSpace (readersOf (labelledList (.str "Step".toList) ['\ufeff']))
        (labelledList (.str "Step".toList) ['\ufeff']) 0 0 = 1 := rfl
    cases honce.symm.trans h.once
  · rw [parseCanon, readersOf_pretty]
    rfl
  · have honce : namings ecmaSpace (readersOf (labelledList (.int 5) ['\x85']))
        (labelledList (.int 5) ['\x85']) 0 0 = 0 := rfl
    cases honce.symm.trans h.once

end Setfork.EmptyRefs
