/- Readme
   digest: The README of a version, and the files of a version tree. -/
import Setfork.Serialize

set_option autoImplicit false
set_option relaxedAutoImplicit false

namespace Setfork.Readme

open Setfork.Foundation (Text trim isWhitespace)
open Setfork.Foundation.Json
open Setfork.Serialize

def joinLines (ls : List Text) : Text := List.intercalate ['\n'] ls

def normalizeBreaks : Text → Text
  | '\r' :: '\n' :: t => '\n' :: normalizeBreaks t
  | '\r' :: t => '\n' :: normalizeBreaks t
  | c :: t => c :: normalizeBreaks t
  | [] => []

def backtick : Char := Char.ofNat 96

/-- The longest run of backticks, given the run in progress and the longest so far. -/
def longestRun (run longest : Nat) : Text → Nat
  | [] => longest
  | c :: t => if c = backtick then longestRun (run + 1) (max longest (run + 1)) t else longestRun 0 longest t

/-- A code block whose fence is longer than any run of backticks inside. -/
def codeBlock (code indent lang : Text) : List Text :=
  let normalized := normalizeBreaks code
  let fence := List.replicate (max (longestRun 0 0 normalized) 2 + 1) backtick
  (indent ++ fence ++ lang) :: (normalized.splitOn '\n').map (indent ++ ·) ++ [indent ++ fence]

def refItem (r : StepRef) : Text :=
  match r.url, (trim r.label).isEmpty with
  | some u, true => ['<'] ++ u ++ ['>']
  | some u, false => ['['] ++ r.label ++ "](".toList ++ u ++ [')']
  | none, _ => r.label

def contentText (content : Value) (key : Text) : Text :=
  ((content.get key).bind Value.asStr).getD []

def blockLines (s : SerStep) : List Text :=
  if s.blockType = some "text".toList then
    let md := contentText s.content "md".toList
    let refs := (s.refs.map refItem).filter (fun x => !x.isEmpty)
    (if md.isEmpty then [] else [[], md, []]) ++
      (if refs.isEmpty then []
       else (if md.isEmpty then [[]] else []) ++ refs.map ("- ".toList ++ ·) ++ [[]])
  else if s.blockType = some "image".toList then
    let ref := contentText s.content "ref".toList
    if ref.isEmpty then []
    else [[], "![".toList ++ contentText s.content "caption".toList ++ "](".toList ++ ref ++ [')'], []]
  else []

def stepLines (marker : Text) (s : SerStep) : List Text :=
  let level :=
    if s.level.isEmpty || s.level == "required".toList then []
    else " _(".toList ++ s.level ++ ")_".toList
  let indent := List.replicate (marker.length + 1) ' '
  [marker ++ " **".toList ++ s.title ++ "**".toList ++ level] ++
    (if s.desc.isEmpty then []
     else [indent ++ s.desc.flatMap (fun c => if c = '\n' then '\n' :: indent else [c])]) ++
    (if s.command.isEmpty then [] else [] :: codeBlock s.command indent "sh".toList) ++
    (if s.why.isEmpty then [] else [indent ++ "> why: ".toList ++ s.why]) ++
    s.subtasks.map (fun st => indent ++ "- [ ] ".toList ++ st) ++
    s.refs.map (fun r => indent ++ "- ".toList ++ refItem r) ++ [[]]

/-- The lines of the steps, given the open section and the number of the last step. -/
def bodyLines (ordered : Bool) (section_ : Text) (number : Nat) : List SerStep → List Text
  | [] => []
  | s :: steps =>
    if !isStepBlock s then blockLines s ++ bodyLines ordered section_ number steps
    else
      let opened := !s.section_.isEmpty && s.section_ != section_
      let current := if opened then s.section_ else section_
      let marker := if ordered then printInt (number + 1 : Nat) ++ ['.'] else ['-']
      (if opened then [[], "## ".toList ++ s.section_, []] else []) ++ stepLines marker s ++
        bodyLines ordered current (number + 1) steps

def footer : List Text :=
  [[], "---".toList, [],
   "> Generated by SetFork — the canonical source is [list.json](./list.json). Edit list.json; manual changes to this file are overwritten on the next version.".toList]

def readmeLines (v : VersionData) : List Text :=
  let kind := if v.ordered then "Ordered list".toList else "Unordered set".toList
  let stepCount := (v.steps.filter isStepBlock).length
  ["# ".toList ++ v.title, []] ++
    (if v.desc.isEmpty then [] else [v.desc, []]) ++
    (if v.tags.isEmpty then []
     else [List.intercalate [' '] (v.tags.map (fun t => [backtick] ++ t ++ [backtick])), []]) ++
    ["> ".toList ++ kind ++ " · v".toList ++ printInt v.version ++ " · ".toList ++
      printInt (stepCount : Nat) ++ " items".toList, []] ++
    bodyLines v.ordered [] 0 v.steps ++ footer

/-- One pass over the text, from left to right: three line breaks in a row become two. -/
def replaceTriple : Text → Text
  | '\n' :: '\n' :: '\n' :: t => '\n' :: '\n' :: replaceTriple t
  | c :: t => c :: replaceTriple t
  | [] => []

def hasTriple : Text → Bool
  | '\n' :: '\n' :: '\n' :: _ => true
  | _ :: t => hasTriple t
  | [] => false

/-- Passes until no three line breaks are left; each pass shortens the text. -/
def collapseBreaks : Nat → Text → Text
  | 0, out => out
  | fuel + 1, out => if hasTriple out then collapseBreaks fuel (replaceTriple out) else out

def readme (v : VersionData) : Text :=
  let out := joinLines (readmeLines v)
  (collapseBreaks out.length out).rdropWhile isWhitespace ++ ['\n']

def gitattributes : Text := "README.md linguist-generated=true\n".toList

/-- The generated files of a version: the two views of the list and a service file. -/
def versionFiles (schemaUrl : Text) (v : VersionData) : List (Text × Text) :=
  [("README.md".toList, readme v), ("list.json".toList, listJson schemaUrl v),
   (".gitattributes".toList, gitattributes)]

/-- The message of a version commit. -/
def commitMessage (v : VersionData) : Text :=
  let boilerplate := ["initial".toList, "edit".toList, "seeded".toList].contains v.note
  (if !v.note.isEmpty && !boilerplate then
    ['v'] ++ printInt v.version ++ ": ".toList ++ v.note
  else ['v'] ++ printInt v.version) ++ ['\n']

end Setfork.Readme
