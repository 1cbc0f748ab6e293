/- StrictCanon
   digest: The strict reading of list.json for an editor: the published schema, the probe for silent
   losses, and the soft parse behind them. -/
import Setfork.Foundation.JsonSchema
import Setfork.Project

set_option autoImplicit false
set_option relaxedAutoImplicit false

namespace Setfork.StrictCanon

open Setfork.Foundation (Text trim)
open Setfork.Foundation.Json
open Setfork.Foundation.JsonSchema
open Setfork.Serialize (isStepType keepsRef listKinds)
open Setfork.Project

/-- White space of ECMA 262, which `\s` stands for in a pattern. -/
def ecmaSpace (c : Char) : Bool :=
  c ∈ ['\t', '\n', '\x0b', '\x0c', '\r', ' ', '\u00a0', '\u1680', '\u2028', '\u2029', '\u202f',
    '\u205f', '\u3000', '\ufeff'] || ('\u2000' ≤ c && c ≤ '\u200a')

def hasNonSpace (s : Text) : Bool := s.any (fun c => !ecmaSpace c)

def names (ns : List String) : List Text := ns.map String.toList

section Schema

variable (isUri : Text → Bool)

def refSchema : Schema := .all [
  .type .object,
  .property "label".toList (.type .string),
  .property "url".toList (.all [.type .string, .format isUri]),
  .anyOf [
    .all [.required (names ["url"]), .property "url".toList (.minLength 1)],
    .all [.required (names ["label"]), .property "label".toList (.pattern hasNonSpace)]],
  .noOthers (names ["label", "url"])]

def blockTexts : List String :=
  ["blockId", "type", "title", "desc", "command", "imageKey", "why", "needsHumanAsk", "section"]

def blockSchema : Schema := .all [
  .type .object,
  .required (names ["n", "title", "desc", "command", "level", "why", "section", "subtasks", "refs"]),
  .property "n".toList (.all [.type .integer, .minimum 1]),
  .all (blockTexts.map (fun k => .property k.toList (.type .string))),
  .property "level".toList
    (.all [.type .string, .enum (names ["required", "recommended", "optional"])]),
  .property "needsHuman".toList (.type .boolean),
  .property "danger".toList (.type .boolean),
  .property "subtasks".toList (.all [.type .array, .items (.type .string)]),
  .property "refs".toList (.all [.type .array, .items (refSchema isUri)]),
  .noOthers (names ["n", "blockId", "type", "content", "title", "desc", "command", "imageKey",
    "level", "why", "needsHuman", "needsHumanAsk", "danger", "section", "subtasks", "refs"])]

def skillHeaderSchema : Schema := .all [
  .type .object,
  .property "license".toList (.type .string),
  .property "compatibility".toList (.type .string),
  .property "allowed-tools".toList (.type .string),
  .property "metadata".toList (.all [.type .object, .others [] (.type .string)]),
  .property "heading".toList (.type .string),
  .noOthers (names ["license", "compatibility", "allowed-tools", "metadata", "heading"])]

def listSchema : Schema := .all [
  .type .object,
  .required (names ["title", "desc", "tags", "ordered", "version", "steps"]),
  .property "$schema".toList (.all [.type .string, .format isUri]),
  .property "title".toList (.type .string),
  .property "desc".toList (.type .string),
  .property "tags".toList (.all [.type .array, .items (.type .string)]),
  .property "ordered".toList (.type .boolean),
  .property "kind".toList (.all [.type .string, .enum listKinds]),
  .property "skillHeader".toList skillHeaderSchema,
  .property "version".toList (.all [.type .integer, .minimum 1]),
  .property "steps".toList (.all [.type .array, .items (blockSchema isUri)]),
  .noOthers (names ["$schema", "title", "desc", "tags", "ordered", "kind", "skillHeader", "version",
    "steps"])]

end Schema

inductive IssueCode where
  | syntaxError
  | schema
  | stepTitleRequired
  | refEmpty
deriving DecidableEq

structure CanonIssue where
  path : Text
  code : IssueCode
  message : Text
  line : Nat
  column : Nat
deriving DecidableEq

structure SyntaxError where
  message : Text
  line : Nat
  column : Nat

/-- What the strict reading takes from its libraries: the JSON reader, the check of the format
`uri`, and the wording of schema errors. -/
structure Libraries where
  fromStr : Text → Except SyntaxError Value
  isUri : Text → Bool
  describe : Value → SchemaError → Text

/-- The issues of the schema, each with a mark that says whether an `anyOf` is violated. -/
def schemaIssues (lib : Libraries) (v : Value) : List (CanonIssue × Bool) :=
  (errors [] v (listSchema lib.isUri)).map (fun e =>
    (⟨e.path, .schema, lib.describe v e, 0, 0⟩, decide (e.kind = .anyOf)))

structure LossProbe where
  blockType : Option Text
  title : Option Text
  refs : Option (List RawRef)

def LossProbe.ofJson (v : Value) : Option LossProbe := do
  let m ← recordMembers ["type", "title", "refs"] v
  let blockType ← field Value.asStr m "type"
  let title ← field Value.asStr m "title"
  let refs ← field (asList RawRef.ofJson) m "refs"
  some ⟨blockType, title, refs⟩

def stepPath (i : Nat) : Text := pathItem (pathKey [] "steps".toList) i

def titleIssue (i : Nat) : CanonIssue :=
  ⟨pathKey (stepPath i) "title".toList, .stepTitleRequired,
    "a step block requires a non-empty title".toList, 0, 0⟩

def refIssue (i k : Nat) : CanonIssue :=
  ⟨pathItem (pathKey (stepPath i) "refs".toList) k, .refEmpty,
    "a reference requires a url or a label".toList, 0, 0⟩

/-- The issues of one element of the steps; one that is no block at all is left to the schema. -/
def probeIssues (i : Nat) (raw : Value) : List CanonIssue :=
  match LossProbe.ofJson raw with
  | none => []
  | some probe =>
    (if isStepType (probe.blockType.getD []) && !notBlank (probe.title.getD []) then [titleIssue i]
      else []) ++
    ((probe.refs.getD []).mapIdx (fun k r =>
      if keepsRef (r.label.getD []) r.url then [] else [refIssue i k])).flatten

def silentLossIssues (v : Value) : List CanonIssue :=
  match (v.get "steps".toList).bind Value.asArr with
  | none => []
  | some steps => (steps.mapIdx probeIssues).flatten

def fits (raw : RawList) : Bool :=
  raw.version.all fitsInt32 && (raw.steps.getD []).all (fun s => s.n.all fitsInt32)

def fromValue (v : Value) : Option RawList := (RawList.ofJson v).filter fits

structure ListParts where
  title : Text
  desc : Text
  tags : List Text
  ordered : Bool
  version : Int
  steps : List ProjStep

def parseListValue (v : Value) : Option ListParts :=
  (fromValue v).map fun parsed =>
    { title := parsed.title.getD []
      desc := parsed.desc.getD []
      tags := parsed.tags.getD []
      ordered := parsed.ordered.getD true
      version := parsed.version.getD 0
      steps := parseSteps (parsed.steps.getD []) }

/-- The issue without a path of a value that passes the schema and is no manifest all the same. -/
def shapeIssue : CanonIssue :=
  ⟨[], .schema, "list.json does not match the manifest shape".toList, 0, 0⟩

/-- The content of a text or everything that is wrong with it. The schema's word on a reference
without address and label gives way to the clearer one. -/
def parseCanon (lib : Libraries) (text : Text) : Except (List CanonIssue) ListParts :=
  match lib.fromStr text with
  | .error e => .error [⟨[], .syntaxError, e.message, e.line, e.column⟩]
  | .ok v =>
    let loss := silentLossIssues v
    let emptyRef (path : Text) := loss.any (fun l => decide (l.code = .refEmpty) && l.path == path)
    let issues :=
      ((schemaIssues lib v).filter (fun s => !(s.2 && emptyRef s.1.path))).map Prod.fst ++ loss
    if issues.isEmpty then
      match parseListValue v with
      | some parts => .ok parts
      | none => .error [shapeIssue]
    else .error issues

theorem parseCanon_of_no_issues {lib : Libraries} {text : Text} {v : Value}
    (hread : lib.fromStr text = .ok v) (hschema : schemaIssues lib v = [])
    (hloss : silentLossIssues v = []) :
    parseCanon lib text =
      match parseListValue v with
      | some parts => .ok parts
      | none => .error [shapeIssue] := by
  simp only [parseCanon, hread, hschema, hloss, List.filter_nil, List.map_nil, List.append_nil,
    List.isEmpty_nil, if_true]

theorem parseCanon_ok_iff {lib : Libraries} {text : Text} {v : Value} {parts : ListParts}
    (hread : lib.fromStr text = .ok v) :
    parseCanon lib text = .ok parts ↔
      schemaIssues lib v = [] ∧ silentLossIssues v = [] ∧ parseListValue v = some parts := by
  constructor
  · intro hok
    simp only [parseCanon, hread] at hok
    split_ifs at hok with hissues
    rw [List.isEmpty_iff, List.append_eq_nil_iff] at hissues
    obtain ⟨hfiltered, hloss⟩ := hissues
    have hschema : schemaIssues lib v = [] := by
      rw [hloss, List.map_eq_nil_iff, List.filter_eq_nil_iff] at hfiltered
      refine List.eq_nil_iff_forall_not_mem.mpr fun s hs => hfiltered s hs ?_
      rw [List.any_nil, Bool.and_false]
      rfl
    refine ⟨hschema, hloss, ?_⟩
    cases hparts : parseListValue v with
    | none =>
      rw [hparts] at hok
      cases hok
    | some found =>
      rw [hparts] at hok
      rw [Except.ok.inj hok]
  · rintro ⟨hschema, hloss, hparts⟩
    rw [parseCanon_of_no_issues hread hschema hloss, hparts]

theorem parseCanon_syntax {lib : Libraries} {text : Text} {e : SyntaxError}
    (hread : lib.fromStr text = .error e) :
    parseCanon lib text = .error [⟨[], .syntaxError, e.message, e.line, e.column⟩] := by
  rw [parseCanon, hread]

theorem schemaIssues_eq_nil_iff {lib : Libraries} {v : Value} :
    schemaIssues lib v = [] ↔ Valid (listSchema lib.isUri) v := List.map_eq_nil_iff

end Setfork.StrictCanon
