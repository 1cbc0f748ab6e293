/- Service
   digest: One repository with its list under every operation of the core, one step at a time. -/
import Setfork.Branches
import Setfork.WebVersion
import Setfork.Foundation.Runs

set_option autoImplicit false
set_option relaxedAutoImplicit false

namespace Setfork.Service

open Setfork.Foundation
open Setfork.Serialize
open Setfork.Rows
open Setfork.Authored
open Setfork.VersionTree
open Setfork.Repository
open Setfork.History
open Setfork.Alignment
open Setfork.WebVersion
open Setfork.Push
open Setfork.Branches

/-- The repository on disk and the rows of its list. -/
structure State where
  disk : Disk
  list : Option ListState

/-- The operations of the core. A call first ensures the repository and lets its lock go, so that
others can come in between: the ensuring is an operation of its own. -/
inductive Op where
  | ensure (f : SyncFaults)
  | align (f : SyncFaults)
  | web (f : WebFaults) (edit : WebEdit)
  | push (f : PushFaults) (env : HookEnv) (commands : List RefCommand)
  | reproject (f : ProjectionFaults)
  | createBranch (written : Bool) (name origin : Text)
  | deleteBranch (written : Bool) (name : Text)
  | commitToBranch (written : Bool) (branch : Text) (listJson : Bytes)
      (expectedTip : Option Commit) (stamp : Stamp)
  | updateBranch (written : Bool) (name : Text) (stamp : Stamp)
  | mergeBranch (written : Bool) (first second : ProjectionFaults) (name : Text) (squash : Bool)
      (stamp : Stamp)
  | mergeResolved (written : Bool) (first second : ProjectionFaults) (branch : Text)
      (listJson : Bytes) (squash : Bool) (stamp : Stamp)
  | createTag (written : Bool) (name : Text) (version : Int)

variable (core : Core) (lib : GitLibrary)

/-- The repository is there after this: built from the rows, born empty, or aligned with what it
finds; a failed alignment does not stop the call. -/
def ensureRepo (f : SyncFaults) (st : State) : State :=
  match st.disk, st.list with
  | .absent, none => st
  | .absent, some s =>
    if !f.readRows then st
    else if (loadBundleData s).isEmpty then { st with disk := .repo ∅ }
    else
      { st with disk := .repo (buildHistory core f.history ∅ (loadBundleData s) none .carry).1 }
  | disk, list =>
    let synced := syncRepoWithDb core f disk list
    ⟨synced.disk, synced.list⟩

/-- A change of references in a repository that opens; a refusal changes nothing. -/
def onRefs (change : Refs → Except BranchRefusal Refs) (st : State) : State :=
  match st.disk with
  | .repo refs =>
    match change refs with
    | .error _ => st
    | .ok changed => { st with disk := .repo changed }
  | _ => st

def afterMerge (first second : ProjectionFaults) (merged : Refs → Except BranchRefusal Refs)
    (st : State) : State :=
  match st.disk with
  | .repo refs =>
    match merged refs, st.list with
    | .error _, _ => st
    | .ok moved, none => ⟨.repo moved, none⟩
    | .ok moved, some s =>
      let projected := projectMainOrLog core first second moved s
      ⟨.repo projected.1, some projected.2.1⟩
  | _ => st

/-- The projection an operator asks for. -/
def reprojectTip (f : ProjectionFaults) (st : State) : State :=
  match st.disk, st.list with
  | .repo refs, some s =>
    let projected := projectPushedCommit core f refs s
    ⟨.repo projected.refs, some projected.list⟩
  | _, _ => st

/-- One operation. -/
def step : Op → State → State
  | .ensure f, st => ensureRepo core f st
  | .align f, st =>
    let synced := syncRepoWithDb core f st.disk st.list
    ⟨synced.disk, synced.list⟩
  | .web f edit, st =>
    let write := commitWebVersion core f st.disk st.list edit
    ⟨write.disk, write.list⟩
  | .push f env commands, st =>
    match st.disk with
    | .repo refs =>
      let result := receivePack core lib f env commands refs st.list
      ⟨.repo result.refs, result.list⟩
    | _ => st
  | .reproject f, st => reprojectTip core f st
  | .createBranch written name origin, st =>
    onRefs (fun refs => createBranch written refs name origin) st
  | .deleteBranch written name, st => onRefs (fun refs => deleteBranch written refs name) st
  | .commitToBranch written branch listJson expectedTip stamp, st =>
    onRefs (fun refs => commitToBranch core.reserved core.parser.fromSlice written refs branch
      listJson expectedTip stamp) st
  | .updateBranch written name stamp, st =>
    onRefs (fun refs => updateBranch lib written refs name stamp) st
  | .mergeBranch written first second name squash stamp, st =>
    afterMerge core first second (fun refs => mergeBranch lib written refs name squash stamp) st
  | .mergeResolved written first second branch listJson squash stamp, st =>
    afterMerge core first second (fun refs => mergeResolved core.reserved core.parser.fromSlice
      written refs branch listJson squash stamp) st
  | .createTag written name version, st => onRefs (fun refs => createTag written refs name version) st

/-- The state after a run of operations. -/
abbrev run (ops : List Op) (st : State) : State := Runs.run (step core lib) ops st

end Setfork.Service
