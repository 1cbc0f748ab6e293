/- History
   digest: Commits of versions, and the functions that put a run of versions on main and tag them. -/
import Setfork.Project
import Setfork.Repository
import Setfork.VersionTree

set_option autoImplicit false
set_option relaxedAutoImplicit false

namespace Setfork.History

open Setfork.Foundation
open Setfork.Foundation.Refs (setAll)
open Setfork.Serialize
open Setfork.Readme (versionFiles commitMessage)
open Setfork.Project (Parser)
open Setfork.Authored
open Setfork.VersionTree
open Setfork.Repository

/-- What the core is built with: the schema address, the names the git library refuses, the JSON
reader, and the subject line the git library reads from a commit. -/
structure Core where
  schemaUrl : Text
  reserved : Name → Bool
  parser : Parser schemaUrl
  subject : Stamp → Text

/-- A core without refused names, whose reader reads printed canons only. -/
noncomputable def canonCore : Core where
  schemaUrl := []
  reserved := fun _ => false
  parser := Project.canonParser []
  subject := fun stamp => stamp.message.takeWhile (fun c => c != '\n')

structure WriteFaults where
  written : Bool
  tagged : Int → Bool

def authorName : Text := "SetFork".toList

variable (core : Core)

/-- One commit of a version over its parent. -/
def commitVersion (parent : Option Commit) (v : VersionData) (authored : AuthoredSource) :
    Option Commit :=
  (buildTree core.reserved (versionFiles core.schemaUrl v) (parent.map Commit.tree) authored).map
    (fun t => .mk t parent.toList ⟨commitMessage v, authorName, v.ts⟩)

def commitAll (authored : AuthoredSource) :
    Option Commit → List VersionData → Option (List (Int × Commit))
  | _, [] => some []
  | parent, v :: vs =>
    (commitVersion core parent v authored).bind (fun c =>
      (commitAll authored (some c) vs).map (fun made => (v.version, c) :: made))

def tagAll (tagged : Int → Bool) (refs : Refs) : List (Int × Commit) → Refs × Bool
  | [] => (refs, true)
  | (version, c) :: rest =>
    if tagged version then tagAll tagged (refs.insert (tagRef (versionTag version)) (.commit c)) rest
    else (refs, false)

/-- Builds the history of versions: the commits, main, then the tags. -/
def buildHistory (f : WriteFaults) (refs : Refs) (versions : List VersionData)
    (parent : Option Commit) (authored : AuthoredSource) :
    Refs × Except MainUpdateError (Option Commit) :=
  match commitAll core authored parent versions with
  | none => (refs, .error gitError)
  | some made =>
    match (made.getLast?.map Prod.snd).or parent with
    | none => (refs, .ok none)
    | some tip =>
      if some tip = parent then (refs, .ok (some tip))
      else
        match updateMain refs f.written tip parent with
        | .error e => (refs, .error e)
        | .ok moved =>
          let tagged := tagAll f.tagged moved made
          (tagged.1, if tagged.2 then .ok (some tip) else .error gitError)

def mainCommit (refs : Refs) : Except MainUpdateError (Option Commit) :=
  match refs.lookup mainRef with
  | none => .ok none
  | some (.commit c) => .ok (some c)
  | some (.object _ _) => .error gitError

/-- One version over main with a file set or the files of the parent. -/
def appendVersionWith (f : WriteFaults) (refs : Refs) (v : VersionData)
    (authored : AuthoredSource) : Refs × Except MainUpdateError (Option Commit) :=
  let refusal :=
    match authored with
    | .carry => none
    | .replace files => authoredInputViolation files
  match refusal with
  | some e => (refs, .error e)
  | none =>
    match mainCommit refs with
    | .error e => (refs, .error e)
    | .ok parent => buildHistory core f refs [v] parent authored

/-- The birth of a repository with one version. -/
def initWithVersion (f : WriteFaults) (v : VersionData) (authored : AuthoredSource) :
    Refs × Except MainUpdateError (Option Commit) :=
  appendVersionWith core f ∅ v authored

/-- Whether the versions, newest first, already lie as commits at the end of main; a failure when
a tree to compare with cannot be built. -/
def tailFrom : Option Commit → List VersionData → Option (Option (List Commit))
  | _, [] => some (some [])
  | none, _ :: _ => some none
  | some c, v :: vs =>
    (buildTree core.reserved (versionFiles core.schemaUrl v) (some c.tree) .carry).bind (fun expected =>
      if c.tree = expected then
        (tailFrom c.parents.head? vs).map (fun found => found.map (fun cs => c :: cs))
      else some none)

def tailCommits (tip : Commit) (versions : List VersionData) : Option (Option (List Commit)) :=
  (tailFrom core (some tip) versions.reverse).map (fun found => found.map List.reverse)

/-- The catch-up of an alignment: versions that already lie as commits get their tags back. -/
def appendMissingVersions (f : WriteFaults) (refs : Refs) (versions : List VersionData) :
    Refs × Except MainUpdateError (Option Commit) :=
  if versions.isEmpty then (refs, .ok none)
  else
    match mainCommit refs with
    | .error e => (refs, .error e)
    | .ok none => buildHistory core f refs versions none .carry
    | .ok (some tip) =>
      match tailCommits core tip versions with
      | none => (refs, .error gitError)
      | some none => buildHistory core f refs versions (some tip) .carry
      | some (some found) =>
        let tagged := tagAll f.tagged refs ((versions.map VersionData.version).zip found)
        (tagged.1, if tagged.2 then .ok (some tip) else .error gitError)

def versionMoves (made : List (Int × Commit)) : List (Text × Commit) :=
  made.map (fun m => (tagRef (versionTag m.1), m.2))

theorem lookup_main_versionMoves (refs : Refs) (made : List (Int × Commit)) :
    (refs.setAll (versionMoves made)).lookup mainRef = refs.lookup mainRef := by
  apply Refs.lookup_setAll_of_notMem
  intro hmem
  obtain ⟨move, hmove, heq⟩ := List.mem_map.mp hmem
  obtain ⟨m, -, rfl⟩ := List.mem_map.mp hmove
  exact tagRef_ne_mainRef _ heq

theorem tagAll_eq (tagged : Int → Bool) (refs : Refs) (made : List (Int × Commit)) :
    tagAll tagged refs made =
      (refs.setAll (versionMoves (made.takeWhile (fun m => tagged m.1))),
        made.all (fun m => tagged m.1)) := by
  induction made generalizing refs with
  | nil => rfl
  | cons m made ih =>
    obtain ⟨n, c⟩ := m
    cases h : tagged n with
    | false => simp [tagAll, h, versionMoves]
    | true =>
      have htake : ((n, c) :: made).takeWhile (fun m => tagged m.1) =
          (n, c) :: made.takeWhile (fun m => tagged m.1) := List.takeWhile_cons_of_pos h
      rw [tagAll, if_pos h, ih, htake, List.all_cons, h]
      rfl

/-- The commits of a run stand over the parent and under the last of them. -/
theorem commitAll_spec {core : Core} {authored : AuthoredSource} {parent : Option Commit}
    {versions : List VersionData} {made : List (Int × Commit)}
    (h : commitAll core authored parent versions = some made) :
    made.map Prod.fst = versions.map VersionData.version ∧
    (∀ m ∈ made, ∀ p ∈ parent, ∃ d, m.2.Reaches d ∧ d.IsParent p) ∧
    ∀ tip, made.getLast?.map Prod.snd = some tip → ∀ m ∈ made, tip.Reaches m.2 := by
  induction versions generalizing parent made with
  | nil =>
    obtain rfl := Option.some.inj h
    exact ⟨rfl, by simp, by simp⟩
  | cons v vs ih =>
    obtain ⟨c, hc, hrest⟩ := Option.bind_eq_some_iff.mp h
    obtain ⟨later, hlater, rfl⟩ := Option.map_eq_some_iff.mp hrest
    obtain ⟨hversions, hover, hunder⟩ := ih hlater
    obtain ⟨t, -, rfl⟩ := Option.map_eq_some_iff.mp hc
    set c : Commit := .mk t parent.toList ⟨commitMessage v, authorName, v.ts⟩ with hdef
    have hparent : ∀ p ∈ parent, c.IsParent p := by
      intro p hp
      change p ∈ parent.toList
      rw [hp]
      exact List.mem_singleton_self p
    refine ⟨by simp [hversions], ?_, ?_⟩
    · intro m hm p hp
      rcases List.mem_cons.mp hm with rfl | hm
      · exact ⟨c, .refl, hparent p hp⟩
      · obtain ⟨d, hd, hdc⟩ := hover m hm c rfl
        exact ⟨c, hd.tail hdc, hparent p hp⟩
    · intro tip htip m hm
      cases later with
      | nil =>
        obtain rfl : m = (v.version, c) := by simpa using hm
        obtain rfl : c = tip := by simpa using htip
        exact .refl
      | cons n later =>
        have htip' : (n :: later).getLast?.map Prod.snd = some tip := by
          rwa [List.getLast?_cons_cons] at htip
        rcases List.mem_cons.mp hm with rfl | hm
        · obtain ⟨d, hd, hdc⟩ := hover n List.mem_cons_self c rfl
          exact (hunder tip htip' n List.mem_cons_self).trans (hd.tail hdc)
        · exact hunder tip htip' m hm

/-- The commits of the parent are below every commit of the run. -/
theorem reaches_of_commitAll {core : Core} {authored : AuthoredSource} {parent : Option Commit}
    {versions : List VersionData} {made : List (Int × Commit)}
    (h : commitAll core authored parent versions = some made) {m : Int × Commit} (hm : m ∈ made)
    {p : Commit} (hp : p ∈ parent) : m.2.Reaches p ∧ m.2 ≠ p := by
  obtain ⟨-, hover, -⟩ := commitAll_spec h
  obtain ⟨d, hd, hdp⟩ := hover m hm p hp
  exact ⟨hd.tail hdp, Commit.ne_of_isParent_reaches hd hdp⟩

/-- A history that is built moves main to the last commit and then sets tags in order. -/
theorem buildHistory_of_moved {core : Core} {f : WriteFaults} {refs moved : Refs}
    {versions : List VersionData} {parent : Option Commit} {authored : AuthoredSource}
    {made : List (Int × Commit)} {tip : Commit}
    (hmade : commitAll core authored parent versions = some made)
    (htip : made.getLast?.map Prod.snd = some tip)
    (hmoved : updateMain refs f.written tip parent = .ok moved) :
    buildHistory core f refs versions parent authored =
      (moved.setAll (versionMoves (made.takeWhile (fun m => f.tagged m.1))),
        if made.all (fun m => f.tagged m.1) then .ok (some tip) else .error gitError) := by
  have hne : some tip ≠ parent := by
    intro heq
    obtain ⟨m, hm, rfl⟩ := Option.map_eq_some_iff.mp htip
    exact (reaches_of_commitAll hmade (List.mem_of_getLast? hm) heq.symm).2 rfl
  simp only [buildHistory, hmade, htip, Option.some_or, if_neg hne, hmoved, tagAll_eq]

theorem buildHistory_cases (core : Core) (f : WriteFaults) (refs : Refs)
    (versions : List VersionData) (parent : Option Commit) (authored : AuthoredSource) :
    (buildHistory core f refs versions parent authored).1 = refs ∨
    ∃ made tip, commitAll core authored parent versions = some made ∧
      made.getLast?.map Prod.snd = some tip ∧ mainViolation tip.tree = none ∧
      refs.lookup mainRef = parent.map .commit ∧
      (buildHistory core f refs versions parent authored).1 =
        setAll (refs.insert mainRef (.commit tip))
          (versionMoves (made.takeWhile (fun m => f.tagged m.1))) := by
  cases hmade : commitAll core authored parent versions with
  | none => exact Or.inl (by simp only [buildHistory, hmade])
  | some made =>
    cases htip : made.getLast?.map Prod.snd with
    | none =>
      left
      simp only [buildHistory, hmade, htip, Option.none_or]
      cases parent with
      | none => rfl
      | some p => simp
    | some tip =>
      cases hmoved : updateMain refs f.written tip parent with
      | error e =>
        left
        simp only [buildHistory, hmade, htip, Option.some_or, hmoved]
        split_ifs <;> rfl
      | ok moved =>
        right
        obtain ⟨hformat, hold, -, -, rfl⟩ := updateMain_eq_ok_iff.mp hmoved
        refine ⟨made, tip, rfl, htip, hformat, hold, ?_⟩
        rw [buildHistory_of_moved hmade htip hmoved]

end Setfork.History
