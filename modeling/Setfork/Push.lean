/- Push
   digest: A push: the rules of the hook, the updates git makes, the magic references, the projection. -/
import Setfork.Alignment
import Setfork.Foundation.Runs

set_option autoImplicit false
set_option relaxedAutoImplicit false

namespace Setfork.Push

open Setfork.Foundation
open Setfork.Rows
open Setfork.TreeRule
open Setfork.Authored
open Setfork.Repository
open Setfork.History
open Setfork.Alignment

/-- What the core takes from git: merges, and the commits a push brings. -/
structure GitLibrary where
  /-- The tree of a merge without conflicts. -/
  merge : Commit → Commit → Option Tree
  /-- `rev-list` of an object, without what the references reach. -/
  revList : Refs → Target → List Commit
  merge_paths : ∀ ours theirs t, merge ours theirs = some t →
    ∀ p ∈ t.paths, p ∈ ours.tree.paths ∨ p ∈ theirs.tree.paths
  mem_revList : ∀ refs t c, c ∈ revList refs t ↔
    ∃ tip, t.peel = some tip ∧ tip.Reaches c ∧ ¬ refs.Reachable c

/-- A library that finds a conflict in every merge. -/
def plainLibrary : GitLibrary where
  merge := fun _ _ => none
  revList := fun refs t =>
    ((t.peel.map Commit.history).getD []).filter (fun c => !decide (refs.Reachable c))
  merge_paths := fun _ _ _ h => nomatch h
  mem_revList := by
    intro refs t c
    cases t.peel with
    | none => simp
    | some tip => simp [Commit.mem_history]

variable (core : Core) (lib : GitLibrary)

/-- One line on the input of the hook: the old and the new object, if any, of a reference. -/
structure RefCommand where
  old : Option Target
  new : Option Target
  ref : Text

/-- What the hook knows besides the references: who pushes, which objects are stored, which
objects that are not commits hold a canon, and the answer about the content of a canon. -/
structure HookEnv where
  actor : Text
  role : Text
  stored : Bytes → Bool
  otherCanon : Bytes → Bool
  content : Target → Bool

inductive HookRefusal where
  | contributorNeedsActor
  | contributorNamespace (ref : Text)
  | magicNeedsActor
  | magicBadBase (ref : Text)
  | reservedTagName (ref : Text)
  | mainNoDelete
  | mainNoForce
  | listJsonRequired
  | treeAllowlist (commit : Commit) (bad : List Bytes)
  | authored (refusal : AuthoredRefusal)
  | content

def magicPrefix : Text := "refs/for/".toList

def magicMain : Text := "refs/for/main".toList

def isMagic (ref : Text) : Bool := magicPrefix.isPrefixOf ref

/-- Every role outside of the known ones is a stranger's. -/
def isRestricted (role : Text) : Bool :=
  !(["owner", "collaborator", ""].map String.toList).contains role

def isReservedTag (ref : Text) : Bool :=
  (stripPrefix "refs/tags/v".toList ref).any (fun ver => !ver.isEmpty && ver.all Char.isDigit)

/-- `merge-base --is-ancestor`, which fails for anything that is not a commit. -/
def isAncestor (old new : Target) : Bool :=
  match old.peel, new.peel with
  | some a, some c => decide (c.Reaches a)
  | _, _ => false

/-- Who may push to a reference, and which references cannot move in this way. -/
def nameRefusal (env : HookEnv) (cmd : RefCommand) : Option HookRefusal :=
  if isRestricted env.role && env.actor.isEmpty then some .contributorNeedsActor
  else if isRestricted env.role && cmd.ref != magicMain then some (.contributorNamespace cmd.ref)
  else if isMagic cmd.ref && env.actor.isEmpty then some .magicNeedsActor
  else if isMagic cmd.ref && cmd.ref != magicMain then some (.magicBadBase cmd.ref)
  else if isReservedTag cmd.ref then some (.reservedTagName cmd.ref)
  else if cmd.ref = mainRef then
    match cmd.old, cmd.new with
    | _, none => some .mainNoDelete
    | some old, some new => if isAncestor old new then none else some .mainNoForce
    | none, some _ => none
  else none

def entryThere (env : HookEnv) : Option Entry → Bool
  | none => false
  | some (.leaf (.gitlink id)) => env.stored id
  | some _ => true

def hasCanon (env : HookEnv) : Target → Bool
  | .commit c => entryThere env (c.tree.get "list.json".toList)
  | .object _ (some c) => entryThere env (c.tree.get "list.json".toList)
  | .object id none => env.otherCanon id

/-- The rules of the tree on one new commit, with the blobs read so far in the push. -/
def judgeCommit (seen : List Bytes) (c : Commit) : Except HookRefusal (List Bytes) :=
  if !(hookBad c.tree.paths).isEmpty then .error (.treeAllowlist c (hookBad c.tree.paths))
  else
    match hookLimits seen c.tree with
    | .error e => .error (.authored e)
    | .ok seen' => .ok seen'

def judgesContent (ref : Text) : Bool := ref == mainRef || ref == magicMain

/-- The body of the loop of the hook. -/
def judge (env : HookEnv) (refs : Refs) (seen : List Bytes) (cmd : RefCommand) :
    Except HookRefusal (List Bytes) :=
  match nameRefusal env cmd with
  | some e => .error e
  | none =>
    match cmd.new with
    | none => .ok seen
    | some t =>
      if !hasCanon env t then .error .listJsonRequired
      else
        match (lib.revList refs t).foldlM judgeCommit seen with
        | .error e => .error e
        | .ok seen' => if judgesContent cmd.ref && !env.content t then .error .content else .ok seen'

/-- The hook over all commands of a push; one refusal refuses them all. -/
def preReceive (env : HookEnv) (refs : Refs) (commands : List RefCommand) :
    Except HookRefusal (List Bytes) := commands.foldlM (judge lib env refs) []

def fitsBranch (ref : Text) : Option Target → Bool
  | some (.object _ _) => !"refs/heads/".toList.isPrefixOf ref
  | _ => true

/-- One update with its compare-and-swap; git may refuse it for reasons of its own. -/
def applyCommand (applied : Text → Bool) (refs : Refs) (cmd : RefCommand) : Refs :=
  if applied cmd.ref && fitsBranch cmd.ref cmd.new && decide (refs.lookup cmd.ref = cmd.old) then
    match cmd.new with
    | none => refs.erase cmd.ref
    | some t => refs.insert cmd.ref t
  else refs

def applyCommands (applied : Text → Bool) (refs : Refs) (commands : List RefCommand) : Refs :=
  commands.foldl (applyCommand applied) refs

/-- What git makes of a push: nothing when the hook refuses it. -/
def received (applied : Text → Bool) (env : HookEnv) (refs : Refs) (commands : List RefCommand) :
    Refs :=
  match preReceive lib env refs commands with
  | .error _ => refs
  | .ok _ => applyCommands applied refs commands

structure MagicPush where
  base : Text
  branch : Text
  tip : Target

/-- Which of the moves and deletions of magic references succeed. -/
structure MagicFaults where
  moved : Text → Bool
  deleted : Text → Bool

/-- The branch of the proposals of an author. -/
def authorBranch (actor base : Text) : Text := "u/".toList ++ actor ++ ['/'] ++ base

/-- The magic references one by one: what this push moved goes to the branch of its author, the
rest is removed. The flag says whether all of them were taken. -/
def takeNames (f : MagicFaults) (actor : Text) (before : Refs) :
    List Text → Refs → Refs × List MagicPush × Bool
  | [], refs => (refs, [], true)
  | name :: names, refs =>
    match stripPrefix magicPrefix name, refs.lookup name with
    | some base, some tip =>
      if before.lookup name = some tip then
        if f.deleted name then takeNames f actor before names (refs.erase name)
        else (refs, [], false)
      else if !f.moved name then (refs, [], false)
      else
        let moved := refs.insert (branchRef (authorBranch actor base)) tip
        if !f.deleted name then (moved, [], false)
        else
          let taken := takeNames f actor before names (moved.erase name)
          (taken.1, ⟨base, authorBranch actor base, tip⟩ :: taken.2.1, taken.2.2)
    | _, _ => takeNames f actor before names refs

def takeMagicPushes (f : MagicFaults) (actor : Text) (before refs : Refs) :
    Refs × List MagicPush × Bool :=
  if actor.isEmpty then (refs, [], true)
  else takeNames f actor before (refs.keys.filter isMagic) refs

/-- The new tip of main becomes a version; a failure is tried once more and then only logged. -/
def projectMainOrLog (first second : ProjectionFaults) (refs : Refs) (s : ListState) :
    Refs × ListState × Int :=
  let once := projectPushedCommit core first refs s
  match once.outcome with
  | .ok version => (once.refs, once.list, version.getD 0)
  | .error _ =>
    let again := projectPushedCommit core second once.refs once.list
    match again.outcome with
    | .ok version => (again.refs, again.list, version.getD 0)
    | .error _ => (again.refs, again.list, 0)

/-- What the steps of a push meet: the answer of git, its updates, the magic references, and the
two attempts at a projection. -/
structure PushFaults where
  answered : Bool
  applied : Text → Bool
  magic : MagicFaults
  first : ProjectionFaults
  second : ProjectionFaults

structure Received where
  refs : Refs
  list : Option ListState
  refusal : Option HookRefusal
  newVersion : Int
  magic : List MagicPush
  answered : Bool

def receivePack (f : PushFaults) (env : HookEnv) (commands : List RefCommand) (refs : Refs)
    (list : Option ListState) : Received :=
  let refusal :=
    match preReceive lib env refs commands with
    | .error e => some e
    | .ok _ => none
  let after := received lib f.applied env refs commands
  if !f.answered then ⟨after, list, refusal, 0, [], false⟩
  else
    let taken := takeMagicPushes f.magic env.actor refs after
    if !taken.2.2 then ⟨taken.1, list, refusal, 0, [], false⟩
    else if (after.lookup mainRef).isSome ∧ after.lookup mainRef ≠ refs.lookup mainRef then
      match list with
      | none => ⟨taken.1, none, refusal, 0, taken.2.1, true⟩
      | some s =>
        let projected := projectMainOrLog core f.first f.second taken.1 s
        ⟨projected.1, some projected.2.1, refusal, projected.2.2, taken.2.1, true⟩
    else ⟨taken.1, list, refusal, 0, taken.2.1, true⟩

variable {lib} {core}

theorem tagVersion_of_not_reserved {ref : Text} (h : isReservedTag ref = false) :
    tagVersion ref = none := by
  by_contra hsome
  obtain ⟨k, hk⟩ := Option.ne_none_iff_exists'.mp hsome
  obtain ⟨name, hname, hversion⟩ := Option.bind_eq_some_iff.mp hk
  unfold versionOfTag at hversion
  split at hversion
  · rename_i rest
    split_ifs at hversion with hempty
    have href : ref = "refs/tags/".toList ++ 'v' :: rest := by
      unfold stripPrefix at hname
      split_ifs at hname with hstart
      obtain ⟨tail, rfl⟩ := List.isPrefixOf_iff_prefix.mp hstart
      rw [← Option.some.inj hname, List.drop_left]
    have hstrip : stripPrefix "refs/tags/v".toList ref = some rest := by
      rw [href]
      simp [stripPrefix]
    have hdigits : isReservedTag ref = true := by
      rw [isReservedTag, hstrip]
      simpa using hempty
    rw [h] at hdigits
    cases hdigits
  · cases hversion

/-- A command with an admitted name touches no version tag, and moves main forward only. -/
theorem nameRefusal_eq_none {env : HookEnv} {cmd : RefCommand} (h : nameRefusal env cmd = none) :
    tagVersion cmd.ref = none ∧ (cmd.ref = mainRef → ∃ t, cmd.new = some t ∧
      ∀ old, cmd.old = some old → isAncestor old t = true) := by
  unfold nameRefusal at h
  split_ifs at h with _ _ _ _ hreserved hmain
  · refine ⟨tagVersion_of_not_reserved (by simpa using hreserved), fun _ => ?_⟩
    cases hnew : cmd.new with
    | none =>
      rw [hnew] at h
      cases h
    | some t =>
      refine ⟨t, rfl, fun old hold => ?_⟩
      rw [hnew, hold] at h
      simpa using h
  · exact ⟨tagVersion_of_not_reserved (by simpa using hreserved), fun heq => absurd heq hmain⟩

structure CommitAdmitted (c : Commit) : Prop where
  paths : hookBad c.tree.paths = []
  limits : WithinLimits c.tree

private theorem refused_spec {α ε : Type} {P : Prop} {Q : α → Prop} {x : Except ε α} {e : ε}
    (hx : x = .error e) (hP : ¬ P) : ((∃ a, x = .ok a) ↔ P) ∧ ∀ a, x = .ok a → Q a := by
  subst hx
  refine ⟨⟨fun h => ?_, fun h => absurd h hP⟩, fun a h => ?_⟩
  · obtain ⟨a, h⟩ := h
    cases h
  · cases h

private theorem passed_spec {α ε : Type} {P : Prop} {Q : α → Prop} {x : Except ε α} {a : α}
    (hx : x = .ok a) (hP : P) (hQ : Q a) : ((∃ a, x = .ok a) ↔ P) ∧ ∀ a, x = .ok a → Q a := by
  subst hx
  refine ⟨⟨fun _ => hP, fun _ => ⟨a, rfl⟩⟩, fun b h => ?_⟩
  rw [← Except.ok.inj h]
  exact hQ

theorem judgeCommit_spec {seen : List Bytes} (hseen : NulFree seen) (c : Commit) :
    ((∃ seen', judgeCommit seen c = .ok seen') ↔ CommitAdmitted c) ∧
      ∀ seen', judgeCommit seen c = .ok seen' → NulFree seen' := by
  obtain ⟨hlimits, hkept⟩ := hookLimits_spec hseen c.tree
  by_cases hbad : hookBad c.tree.paths = []
  · cases hread : hookLimits seen c.tree with
    | error e =>
      have hover : ¬ WithinLimits c.tree := by
        intro h
        obtain ⟨seen', hok⟩ := hlimits.mpr h
        rw [hread] at hok
        cases hok
      have hjudge : judgeCommit seen c = .error (.authored e) := by
        simp [judgeCommit, hbad, hread]
      exact refused_spec hjudge fun h => hover h.limits
    | ok next =>
      have hjudge : judgeCommit seen c = .ok next := by
        simp [judgeCommit, hbad, hread]
      exact passed_spec hjudge ⟨hbad, hlimits.mp ⟨next, hread⟩⟩ (hkept next hread)
  · have hjudge : judgeCommit seen c = .error (.treeAllowlist c (hookBad c.tree.paths)) := by
      simp [judgeCommit, hbad]
    exact refused_spec hjudge fun h => hbad h.paths

structure Admitted (lib : GitLibrary) (env : HookEnv) (refs : Refs) (cmd : RefCommand) : Prop where
  name : nameRefusal env cmd = none
  canon : ∀ t, cmd.new = some t → hasCanon env t = true
  commits : ∀ t, cmd.new = some t → ∀ c ∈ lib.revList refs t, CommitAdmitted c
  content : ∀ t, cmd.new = some t → judgesContent cmd.ref = true → env.content t = true

theorem judge_spec (env : HookEnv) (refs : Refs) (seen : List Bytes) (cmd : RefCommand)
    (hseen : NulFree seen) :
    ((∃ seen', judge lib env refs seen cmd = .ok seen') ↔ Admitted lib env refs cmd) ∧
      ∀ seen', judge lib env refs seen cmd = .ok seen' → NulFree seen' := by
  cases hname : nameRefusal env cmd with
  | some e =>
    have hjudge : judge lib env refs seen cmd = .error e := by simp [judge, hname]
    apply refused_spec hjudge
    intro h
    rw [h.name] at hname
    cases hname
  | none =>
    cases hnew : cmd.new with
    | none =>
      have hjudge : judge lib env refs seen cmd = .ok seen := by simp [judge, hname, hnew]
      exact passed_spec hjudge ⟨hname, by simp [hnew], by simp [hnew], by simp [hnew]⟩ hseen
    | some t =>
      have hsame : ∀ u, cmd.new = some u → t = u := fun u hu => Option.some.inj (hnew.symm.trans hu)
      obtain ⟨hcommits, hkept⟩ := Runs.foldlM_isOk_iff (fun s c hs => judgeCommit_spec hs c)
        (lib.revList refs t) hseen
      cases hcanon : hasCanon env t with
      | false =>
        have hjudge : judge lib env refs seen cmd = .error .listJsonRequired := by
          simp [judge, hname, hnew, hcanon]
        apply refused_spec hjudge
        intro h
        rw [h.canon t hnew] at hcanon
        cases hcanon
      | true =>
        cases hfold : (lib.revList refs t).foldlM judgeCommit seen with
        | error e =>
          have hjudge : judge lib env refs seen cmd = .error e := by
            simp [judge, hname, hnew, hcanon, hfold]
          apply refused_spec hjudge
          intro h
          obtain ⟨seen', hok⟩ := hcommits.mpr (h.commits t hnew)
          rw [hfold] at hok
          cases hok
        | ok next =>
          cases hcontent : judgesContent cmd.ref && !env.content t with
          | true =>
            have hjudge : judge lib env refs seen cmd = .error .content := by
              simp only [judge, hname, hnew, hcanon, hfold, hcontent]
              rfl
            apply refused_spec hjudge
            intro h
            rw [Bool.and_eq_true, Bool.not_eq_true'] at hcontent
            rw [h.content t hnew hcontent.1] at hcontent
            cases hcontent.2
          | false =>
            have hjudge : judge lib env refs seen cmd = .ok next := by
              simp only [judge, hname, hnew, hcanon, hfold, hcontent]
              rfl
            refine passed_spec hjudge ⟨hname, ?_, ?_, ?_⟩ (hkept next hfold)
            · intro u hu
              rw [← hsame u hu]
              exact hcanon
            · intro u hu
              rw [← hsame u hu]
              exact hcommits.mp ⟨next, hfold⟩
            · intro u hu hjudged
              rw [← hsame u hu]
              simpa [hjudged] using hcontent

/-- The hook lets a push pass exactly when it admits every command on its own. -/
theorem preReceive_isOk_iff (env : HookEnv) (refs : Refs) (commands : List RefCommand) :
    (∃ seen, preReceive lib env refs commands = .ok seen) ↔
      ∀ cmd ∈ commands, Admitted lib env refs cmd :=
  (Runs.foldlM_isOk_iff (fun seen cmd hseen => judge_spec env refs seen cmd hseen) commands
    (s := []) (by simp [NulFree])).1

end Setfork.Push
