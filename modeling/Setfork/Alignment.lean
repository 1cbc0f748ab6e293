/- Alignment
   digest: Projection of the tip of main, and the alignment of a repository with its database. -/
import Setfork.Carryover
import Setfork.History

set_option autoImplicit false
set_option relaxedAutoImplicit false

namespace Setfork.Alignment

open Setfork.Foundation
open Setfork.Serialize
open Setfork.Rows
open Setfork.Project (projectionNote)
open Setfork.Carryover (projectList updateMeta)
open Setfork.Authored
open Setfork.Repository
open Setfork.History

/-- How a database transaction ends: committed, rolled back, or committed with its
acknowledgement lost. -/
inductive DbWrite where
  | done
  | failed
  | lost
deriving DecidableEq

/-- What the steps of a projection meet: its two transactions, its tag, and the clock. -/
structure ProjectionFaults where
  insert : DbWrite
  patched : DbWrite
  tagged : Bool
  createdAt : Int

/-- What the steps of an alignment meet. -/
structure SyncFaults where
  readCurrent : Bool
  readRows : Bool
  restored : Bool
  history : WriteFaults
  projection : ProjectionFaults

/-- Nothing fails. -/
def steady (createdAt : Int) : SyncFaults :=
  ⟨true, true, true, ⟨true, fun _ => true⟩, ⟨.done, .done, true, createdAt⟩⟩

inductive SyncOutcome where
  | inSync
  | bootstrapped (versions : Nat)
  | mainRestored (version : Int)
  | appended (lower upper : Int)
  | projectedTip (version : Int)
  | tipNotVersioned (current : Int)
  | conflict (highest current : Int)
deriving DecidableEq

inductive SyncError where
  | rowNotFound
  | database
  | repository
  | git (e : MainUpdateError)
deriving DecidableEq

/-- What a call leaves: references, the list, its result, and whether it committed rows of the
database with nothing under them. -/
structure Aligned (α : Type) where
  refs : Refs
  list : ListState
  outcome : Except SyncError α
  rebuilt : Bool

variable (core : Core)

/-- The tip of main with the bytes of its canon and the subject line. -/
def readTip (refs : Refs) : Option (Commit × Bytes × Text) :=
  (refs.commitAt mainRef).bind (fun tip =>
    match tip.tree.get "list.json".toList with
    | some (.leaf l) => l.blob.map (fun raw => (tip, raw, core.subject tip.stamp))
    | _ => none)

/-- The tip of main becomes the next version, with its tag; a tip that does not parse, or has no
steps, makes none. -/
def projectPushedCommit (f : ProjectionFaults) (refs : Refs) (s : ListState) :
    Aligned (Option Int) :=
  match readTip core refs with
  | none => ⟨refs, s, .ok none, false⟩
  | some (tip, bytes, subject) =>
    match core.parser.fromSlice bytes with
    | none => ⟨refs, s, .ok none, false⟩
    | some raw =>
      match raw.steps with
      | none => ⟨refs, s, .ok none, false⟩
      | some steps =>
        match Carryover.addVersion s (projectionNote subject) f.createdAt
            (Project.parseSteps steps), f.insert with
        | none, _ => ⟨refs, s, .error .database, false⟩
        | some _, .failed => ⟨refs, s, .error .database, false⟩
        | some added, .lost => ⟨refs, added, .error .database, false⟩
        | some added, .done =>
          let version := s.currentVersion + 1
          let patched := if f.patched = .failed then added else updateMeta raw added
          let tagged :=
            if f.tagged then refs.insert (tagRef (versionTag version)) (.commit tip) else refs
          ⟨tagged, patched, .ok (some version), false⟩

/-- The tag of a version stands on the tip of main; what cannot be read counts as standing. -/
def tagOnTip (refs : Refs) (version : Int) : Bool :=
  match refs.lookup (tagRef (versionTag version)), refs.lookup mainRef with
  | some tag, some tip => tag = tip
  | _, _ => true

/-- Puts main back on the commit of a version tag; without the tag it does nothing. -/
def restoreMainFromTag (restored : Bool) (refs : Refs) (version : Int) :
    Except MainUpdateError (Option Refs) :=
  match refs.lookup (tagRef (versionTag version)) with
  | none => .ok none
  | some (.object _ _) => .error gitError
  | some (.commit c) => (updateMain refs restored c none).map some

/-- Builds the history of a list from the database; nothing when it has no versions. -/
def bootstrapFromDb (f : SyncFaults) (refs : Refs) (s : ListState) :
    Aligned (Option SyncOutcome) :=
  if !f.readRows then ⟨refs, s, .error .database, false⟩
  else
    let versions := loadBundleData s
    if versions.isEmpty then ⟨refs, s, .ok none, false⟩
    else
      match buildHistory core f.history refs versions none .carry with
      | (built, .ok _) => ⟨built, s, .ok (some (.bootstrapped versions.length)), true⟩
      | (built, .error e) => ⟨built, s, .error (.git e), true⟩

def missingVersions (s : ListState) (highest : Nat) : List VersionData :=
  (loadBundleData s).filter (fun v => (highest : Int) < v.version)

theorem mem_loadBundleData {s : ListState} {v : VersionData} :
    v ∈ loadBundleData s ↔ ∃ r ∈ s.versions, loadVersionData s r = v := by
  simp [loadBundleData]

theorem loadBundleData_ne_nil {s : ListState} : loadBundleData s ≠ [] ↔ s.versions ≠ [] := by
  rw [loadBundleData, ne_eq, List.map_eq_nil_iff, ← List.length_eq_zero_iff,
    List.length_insertionSort, List.length_eq_zero_iff]

theorem missingVersions_ne_nil {s : ListState} {highest : Nat} :
    missingVersions s highest ≠ [] ↔ ∃ r ∈ s.versions, (highest : Int) < r.version := by
  rw [missingVersions, ne_eq, List.filter_eq_nil_iff]
  simp [mem_loadBundleData, loadVersionData]

def catchUp (f : SyncFaults) (refs : Refs) (s : ListState) (highest : Nat) : Aligned SyncOutcome :=
  if !f.readRows then ⟨refs, s, .error .database, false⟩
  else
    let versions := missingVersions s highest
    if versions.isEmpty then
      if highest = 0 ∧ (refs.lookup mainRef).isNone then ⟨refs, s, .ok .inSync, false⟩
      else ⟨refs, s, .ok (.conflict highest s.currentVersion), false⟩
    else
      match appendMissingVersions core f.history refs versions with
      | (appended, .ok _) =>
        ⟨appended, s, .ok (.appended (highest + 1) s.currentVersion), (refs.lookup mainRef).isNone⟩
      | (appended, .error e) => ⟨appended, s, .error (.git e), (refs.lookup mainRef).isNone⟩

/-- The outcome of a projection in place of the given one, when there was nothing to project. -/
def projectedOr (projected : Aligned (Option Int)) (nothing : SyncOutcome) : Aligned SyncOutcome :=
  { projected with
    outcome := projected.outcome.map (fun o => (o.map SyncOutcome.projectedTip).getD nothing) }

/-- The highest version tag against the current version. -/
def alignByCounters (f : SyncFaults) (refs : Refs) (s : ListState) (highest : Nat) :
    Aligned SyncOutcome :=
  if (highest : Int) = s.currentVersion then
    if 0 < s.currentVersion ∧ tagOnTip refs s.currentVersion = false then
      projectedOr (projectPushedCommit core f.projection refs s) (.tipNotVersioned s.currentVersion)
    else ⟨refs, s, .ok .inSync, false⟩
  else if (highest : Int) < s.currentVersion then catchUp core f refs s highest
  else if (highest : Int) = s.currentVersion + 1 ∧ tagOnTip refs highest = true then
    projectedOr (projectPushedCommit core f.projection refs s) (.conflict highest s.currentVersion)
  else ⟨refs, s, .ok (.conflict highest s.currentVersion), false⟩

/-- A build from the database, or what follows when there is nothing to build from. -/
def bootstrapOr (f : SyncFaults) (refs : Refs) (s : ListState) (other : Aligned SyncOutcome) :
    Aligned SyncOutcome :=
  match bootstrapFromDb core f refs s with
  | ⟨built, list, .ok (some outcome), rebuilt⟩ => ⟨built, list, .ok outcome, rebuilt⟩
  | ⟨built, list, .error e, rebuilt⟩ => ⟨built, list, .error e, rebuilt⟩
  | ⟨_, _, .ok none, _⟩ => other

/-- A repository whose main is lost: its own tag gives main back, and only a repository without
version tags is built anew. -/
def healMain (f : SyncFaults) (refs : Refs) (s : ListState) (highest : Nat) : Aligned SyncOutcome :=
  let version := min (highest : Int) s.currentVersion
  let restore := if 0 < version then restoreMainFromTag f.restored refs version else .ok none
  match restore with
  | .error e => ⟨refs, s, .error (.git e), false⟩
  | .ok (some restored) =>
    let aligned := alignByCounters core f restored s highest
    { aligned with
      outcome := aligned.outcome.map (fun o => if o = .inSync then .mainRestored version else o) }
  | .ok none =>
    let aligned := alignByCounters core f refs s highest
    if highest = 0 then bootstrapOr core f refs s aligned else aligned

structure Synced where
  disk : Disk
  list : Option ListState
  outcome : Except SyncError SyncOutcome
  rebuilt : Bool

def Aligned.synced (a : Aligned SyncOutcome) : Synced := ⟨.repo a.refs, some a.list, a.outcome, a.rebuilt⟩

/-- The alignment of the repository of a list with its rows. -/
def syncRepoWithDb (f : SyncFaults) (disk : Disk) (list : Option ListState) : Synced :=
  if !f.readCurrent then ⟨disk, list, .error .database, false⟩
  else
    match list with
    | none => ⟨disk, none, .error .rowNotFound, false⟩
    | some s =>
      match disk with
      | .absent =>
        match bootstrapFromDb core f ∅ s with
        | ⟨_, _, .ok none, _⟩ => ⟨.absent, some s, .ok .inSync, false⟩
        | ⟨built, _, .ok (some outcome), rebuilt⟩ => ⟨.repo built, some s, .ok outcome, rebuilt⟩
        | ⟨built, _, .error e, rebuilt⟩ =>
          ⟨if rebuilt then .repo built else .absent, some s, .error e, rebuilt⟩
      | .unreadable => ⟨.unreadable, some s, .error .repository, false⟩
      | .repo refs =>
        if (refs.lookup mainRef).isSome then
          (alignByCounters core f refs s (maxTagIn refs)).synced
        else (healMain core f refs s (maxTagIn refs)).synced

/-- The list with one more version, numbered after the current one. -/
def NextVersion (s next : ListState) : Prop :=
  next.currentVersion = s.currentVersion + 1 ∧
    ∃ v, v.version = s.currentVersion + 1 ∧ next.versions = s.versions ++ [v]

private theorem nextVersion_addVersion {s added : ListState} {note : Text} {createdAt : Int}
    {steps : List Project.ProjStep} (h : Carryover.addVersion s note createdAt steps = some added) :
    NextVersion s added := by
  unfold Carryover.addVersion at h
  split_ifs at h
  obtain rfl := Option.some.inj h
  exact ⟨rfl, _, rfl, rfl⟩

theorem main_of_readTip {core : Core} {refs : Refs} {tip : Commit} {bytes : Bytes} {subject : Text}
    (h : readTip core refs = some (tip, bytes, subject)) :
    refs.lookup mainRef = some (.commit tip) := by
  obtain ⟨c, hc, hread⟩ := Option.bind_eq_some_iff.mp h
  have hcommit := Refs.commitAt_eq_some.mp hc
  split at hread
  · obtain ⟨raw, -, heq⟩ := Option.map_eq_some_iff.mp hread
    rw [hcommit, (Prod.mk.inj heq).1]
  · cases hread

/-- A projection leaves everything as it was, or makes the next version and at most its tag. -/
theorem projectPushedCommit_cases (core : Core) (f : ProjectionFaults) (refs : Refs)
    (s : ListState) (p : Aligned (Option Int)) (hp : projectPushedCommit core f refs s = p) :
    p.rebuilt = false ∧
    ((p.refs = refs ∧ p.list = s ∧ (p.outcome = .ok none ∨ p.outcome = .error .database)) ∨
    (NextVersion s p.list ∧ p.refs = refs ∧ p.outcome = .error .database) ∨
    (NextVersion s p.list ∧ p.outcome = .ok (some (s.currentVersion + 1)) ∧
      ∃ tip, refs.lookup mainRef = some (.commit tip) ∧
        p.refs = if f.tagged then
          refs.insert (tagRef (versionTag (s.currentVersion + 1))) (.commit tip) else refs)) := by
  subst hp
  unfold projectPushedCommit
  cases hread : readTip core refs with
  | none => exact ⟨rfl, Or.inl ⟨rfl, rfl, Or.inl rfl⟩⟩
  | some read =>
    obtain ⟨tip, bytes, subject⟩ := read
    have htip := main_of_readTip hread
    cases hparse : core.parser.fromSlice bytes with
    | none => simp [hparse]
    | some raw =>
      cases hsteps : raw.steps with
      | none => simp [hparse, hsteps]
      | some steps =>
        simp only [hparse, hsteps]
        cases hadd : Carryover.addVersion s (projectionNote subject) f.createdAt
            (Project.parseSteps steps) with
        | none => exact ⟨rfl, Or.inl ⟨rfl, rfl, Or.inr rfl⟩⟩
        | some added =>
          have hnext := nextVersion_addVersion hadd
          cases f.insert with
          | failed => exact ⟨rfl, Or.inl ⟨rfl, rfl, Or.inr rfl⟩⟩
          | lost => exact ⟨rfl, Or.inr (Or.inl ⟨hnext, rfl, rfl⟩)⟩
          | done =>
            refine ⟨rfl, Or.inr (Or.inr ⟨?_, rfl, tip, htip, rfl⟩)⟩
            show NextVersion s (if f.patched = .failed then added else updateMeta raw added)
            split_ifs
            · exact hnext
            · exact hnext

/-- The references after a projection: at most the tag of the next version is new. -/
theorem projectPushedCommit_refs (core : Core) (f : ProjectionFaults) (refs : Refs)
    (s : ListState) : (projectPushedCommit core f refs s).refs = refs ∨
      ∃ tip, refs.lookup mainRef = some (.commit tip) ∧ (projectPushedCommit core f refs s).refs =
        refs.insert (tagRef (versionTag (s.currentVersion + 1))) (.commit tip) := by
  obtain ⟨-, ⟨hrefs, -⟩ | ⟨-, hrefs, -⟩ | ⟨-, -, tip, htip, hrefs⟩⟩ :=
    projectPushedCommit_cases core f refs s _ rfl
  · exact Or.inl hrefs
  · exact Or.inl hrefs
  · split_ifs at hrefs
    · exact Or.inr ⟨tip, htip, hrefs⟩
    · exact Or.inl hrefs

/-- A catch-up leaves everything as it was, or appends what the repository has no tag for. -/
theorem catchUp_cases (core : Core) (f : SyncFaults) (refs : Refs) (s : ListState) (highest : Nat)
    (a : Aligned SyncOutcome) (ha : catchUp core f refs s highest = a) :
    a.list = s ∧
    ((a.refs = refs ∧ a.rebuilt = false ∧
      (f.readRows = true → ∀ r ∈ s.versions, r.version ≤ (highest : Int))) ∨
    ((∃ r ∈ s.versions, (highest : Int) < r.version) ∧
      a.refs = (appendMissingVersions core f.history refs (missingVersions s highest)).1 ∧
      a.rebuilt = (refs.lookup mainRef).isNone)) := by
  subst ha
  cases hread : f.readRows with
  | false => simp [catchUp, hread]
  | true =>
    by_cases hmissing : missingVersions s highest = []
    · have hnone : ∀ r ∈ s.versions, r.version ≤ (highest : Int) := by
        intro r hr
        by_contra hlt
        exact missingVersions_ne_nil.mpr ⟨r, hr, not_le.mp hlt⟩ hmissing
      have heq : catchUp core f refs s highest =
          if highest = 0 ∧ (refs.lookup mainRef).isNone then ⟨refs, s, .ok .inSync, false⟩
          else ⟨refs, s, .ok (.conflict highest s.currentVersion), false⟩ := by
        simp only [catchUp, hread, hmissing, List.isEmpty_nil, Bool.not_true, Bool.false_eq_true,
          if_false, if_true]
      rw [heq]
      split_ifs
      · exact ⟨rfl, Or.inl ⟨rfl, rfl, fun _ => hnone⟩⟩
      · exact ⟨rfl, Or.inl ⟨rfl, rfl, fun _ => hnone⟩⟩
    · have hsome := missingVersions_ne_nil.mp hmissing
      have hempty : (missingVersions s highest).isEmpty = false := by simpa using hmissing
      simp only [catchUp, hread, hempty, Bool.not_true, Bool.false_eq_true, if_false]
      split
      · rename_i appended _ happend
        exact ⟨rfl, Or.inr ⟨hsome, by rw [happend], rfl⟩⟩
      · rename_i appended _ happend
        exact ⟨rfl, Or.inr ⟨hsome, by rw [happend], rfl⟩⟩

theorem alignByCounters_cases (core : Core) (f : SyncFaults) (refs : Refs) (s : ListState)
    (highest : Nat) (a : Aligned SyncOutcome) (ha : alignByCounters core f refs s highest = a) :
    ((highest : Int) = s.currentVersion ∧ (a = ⟨refs, s, .ok .inSync, false⟩ ∨
      tagOnTip refs s.currentVersion = false ∧
        a = projectedOr (projectPushedCommit core f.projection refs s)
          (.tipNotVersioned s.currentVersion))) ∨
    ((highest : Int) < s.currentVersion ∧ a = catchUp core f refs s highest) ∨
    (s.currentVersion < (highest : Int) ∧
      (a = ⟨refs, s, .ok (.conflict highest s.currentVersion), false⟩ ∨
      (highest : Int) = s.currentVersion + 1 ∧ tagOnTip refs highest = true ∧
        a = projectedOr (projectPushedCommit core f.projection refs s)
          (.conflict highest s.currentVersion))) := by
  subst ha
  unfold alignByCounters
  split_ifs with hsame htip hbelow habove
  · exact Or.inl ⟨hsame, Or.inr ⟨htip.2, rfl⟩⟩
  · exact Or.inl ⟨hsame, Or.inl rfl⟩
  · exact Or.inr (Or.inl ⟨hbelow, rfl⟩)
  · exact Or.inr (Or.inr ⟨by omega, Or.inr ⟨habove.1, habove.2, rfl⟩⟩)
  · exact Or.inr (Or.inr ⟨by omega, Or.inl rfl⟩)

/-- The references after an alignment by counters: those of a projection, or of a catch-up. -/
theorem alignByCounters_refs (core : Core) (f : SyncFaults) (refs : Refs) (s : ListState)
    (highest : Nat) : (alignByCounters core f refs s highest).refs = refs ∨
      (alignByCounters core f refs s highest).refs =
        (projectPushedCommit core f.projection refs s).refs ∨
      (alignByCounters core f refs s highest).refs =
        (appendMissingVersions core f.history refs (missingVersions s highest)).1 := by
  rcases alignByCounters_cases core f refs s highest _ rfl with
    ⟨-, heq | ⟨-, heq⟩⟩ | ⟨-, heq⟩ | ⟨-, heq | ⟨-, -, heq⟩⟩
  · exact Or.inl (congrArg Aligned.refs heq)
  · exact Or.inr (Or.inl (congrArg Aligned.refs heq))
  · rcases (catchUp_cases core f refs s highest _ rfl).2 with ⟨hrefs, -⟩ | ⟨-, hrefs, -⟩
    · exact Or.inl ((congrArg Aligned.refs heq).trans hrefs)
    · exact Or.inr (Or.inr ((congrArg Aligned.refs heq).trans hrefs))
  · exact Or.inl (congrArg Aligned.refs heq)
  · exact Or.inr (Or.inl (congrArg Aligned.refs heq))

theorem restoreMainFromTag_cases (restored : Bool) (refs : Refs) (version : Int) :
    (restoreMainFromTag restored refs version = .ok none ↔
      refs.lookup (tagRef (versionTag version)) = none) ∧
    ∀ moved, restoreMainFromTag restored refs version = .ok (some moved) →
      ∃ c, refs.lookup (tagRef (versionTag version)) = some (.commit c) ∧
        refs.lookup mainRef = none ∧ mainViolation c.tree = none ∧
        moved = refs.insert mainRef (.commit c) := by
  unfold restoreMainFromTag
  cases htag : refs.lookup (tagRef (versionTag version)) with
  | none => simp
  | some t =>
    cases t with
    | object id => simp
    | commit c =>
      cases hmoved : updateMain refs restored c none with
      | error e => simp [Except.map, hmoved]
      | ok moved =>
        obtain ⟨hformat, hold, -, -, rfl⟩ := updateMain_eq_ok_iff.mp hmoved
        refine ⟨by simp [Except.map, hmoved], fun moved' heq => ?_⟩
        simp only [Except.map, hmoved, Except.ok.injEq, Option.some.injEq] at heq
        exact ⟨c, rfl, hold, hformat, heq.symm⟩

/-- A build from the database finds no rows, or puts them on main. -/
theorem bootstrapOr_cases (core : Core) (f : SyncFaults) (refs : Refs) (s : ListState)
    (other a : Aligned SyncOutcome) (ha : bootstrapOr core f refs s other = a) :
    (a = ⟨refs, s, .error .database, false⟩ ∧ f.readRows = false) ∨
    (a = other ∧ s.versions = []) ∨
    (s.versions ≠ [] ∧ a.list = s ∧ a.rebuilt = true ∧
      a.refs = (buildHistory core f.history refs (loadBundleData s) none .carry).1 ∧
      ∀ o, a.outcome = .ok o → o = .bootstrapped (loadBundleData s).length) := by
  subst ha
  cases hread : f.readRows with
  | false => exact Or.inl ⟨by simp [bootstrapOr, bootstrapFromDb, hread], rfl⟩
  | true =>
    right
    by_cases hrows : loadBundleData s = []
    · have hnone : s.versions = [] := by
        by_contra hsome
        exact loadBundleData_ne_nil.mpr hsome hrows
      exact Or.inl ⟨by simp [bootstrapOr, bootstrapFromDb, hread, hrows], hnone⟩
    · have hempty : (loadBundleData s).isEmpty = false := by simpa using hrows
      refine Or.inr ⟨loadBundleData_ne_nil.mp hrows, ?_⟩
      cases hbuilt : buildHistory core f.history refs (loadBundleData s) none .carry with
      | mk built result =>
        cases result with
        | ok tip => simp [bootstrapOr, bootstrapFromDb, hread, hempty, hbuilt, eq_comm]
        | error e => simp [bootstrapOr, bootstrapFromDb, hread, hempty, hbuilt]

/-- A lost main stays lost with an error, comes back from a tag, is built anew, or is left to the
counters. -/
theorem healMain_cases (core : Core) (f : SyncFaults) (refs : Refs) (s : ListState)
    (highest : Nat) (version : Int) (hversion : version = min (highest : Int) s.currentVersion)
    (a : Aligned SyncOutcome) (ha : healMain core f refs s highest = a) :
    (∃ e, 0 < version ∧ refs.lookup (tagRef (versionTag version)) ≠ none ∧
      a = ⟨refs, s, .error (.git e), false⟩) ∨
    (∃ c, 0 < version ∧ refs.lookup (tagRef (versionTag version)) = some (.commit c) ∧
      mainViolation c.tree = none ∧ refs.lookup mainRef = none ∧
      a = { alignByCounters core f (refs.insert mainRef (.commit c)) s highest with
        outcome := (alignByCounters core f (refs.insert mainRef (.commit c)) s highest).outcome.map
          (fun o => if o = .inSync then .mainRestored version else o) }) ∨
    ((0 < version → refs.lookup (tagRef (versionTag version)) = none) ∧
      a = if highest = 0 then bootstrapOr core f refs s (alignByCounters core f refs s highest)
        else alignByCounters core f refs s highest) := by
  subst ha hversion
  unfold healMain
  set version := min (highest : Int) s.currentVersion
  by_cases hpos : 0 < version
  · obtain ⟨hnone, hsome⟩ := restoreMainFromTag_cases f.restored refs version
    simp only [if_pos hpos]
    cases hrestore : restoreMainFromTag f.restored refs version with
    | error e =>
      have htag : refs.lookup (tagRef (versionTag version)) ≠ none := by
        intro htag
        rw [hnone.mpr htag] at hrestore
        cases hrestore
      exact Or.inl ⟨e, hpos, htag, rfl⟩
    | ok restored =>
      cases restored with
      | none => exact Or.inr (Or.inr ⟨fun _ => hnone.mp hrestore, rfl⟩)
      | some moved =>
        obtain ⟨c, htag, hmain, hformat, rfl⟩ := hsome moved hrestore
        exact Or.inr (Or.inl ⟨c, hpos, htag, hformat, hmain, rfl⟩)
  · refine Or.inr (Or.inr ⟨fun h => absurd h hpos, ?_⟩)
    simp only [if_neg hpos]

end Setfork.Alignment
