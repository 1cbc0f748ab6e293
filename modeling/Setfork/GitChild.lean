/- GitChild
   digest: The git process behind a call: what it inherits, how it is fed and read, and who pushes. -/
import Setfork.Foundation.Pipes
import Setfork.MagicAuthors

set_option autoImplicit false
set_option relaxedAutoImplicit false

namespace Setfork.GitChild

open Setfork.Foundation
open Setfork.Foundation.Pipes (Act Ends Room Turn System start Finished)
open Setfork.Repository
open Setfork.History
open Setfork.Push
open Setfork.MagicAuthors
open Setfork.MagicPushes
open Setfork.Healing (firstCommit markedRefs markedList)
open Setfork.PushedVersions (pushedOver)

abbrev Environment := Text → Option Text

def actorKey : Text := "SETFORK_ACTOR".toList
def roleKey : Text := "SETFORK_ROLE".toList
def ownerKey : Text := "SETFORK_OWNER".toList
def slugKey : Text := "SETFORK_SLUG".toList
def coreBinKey : Text := "SETFORK_CORE_BIN".toList
def langKey : Text := "SETFORK_LANG".toList
def protocolKey : Text := "GIT_PROTOCOL".toList

structure PushEnv where
  actor : Option Text
  role : Option Text
  owner : Option Text
  slug : Option Text

def notEmpty (t : Text) : Bool := !t.isEmpty

/-- The binary that the hook asks: the one that runs, unless the service names another. -/
def coreBin (service : Environment) (exe : Option Text) : Option Text :=
  match service coreBinKey with
  | some v => if (trim v).isEmpty then exe else some v
  | none => exe

def setOrRemove (env : Environment) (variable_ : Text × Option Text) : Environment :=
  Function.update env variable_.1 (variable_.2.filter notEmpty)

def applyLang (lang : Option Text) (env : Environment) : Environment :=
  setOrRemove env (langKey, lang)

def pushVariables (service : Environment) (exe : Option Text) (push : PushEnv) :
    List (Text × Option Text) :=
  [(actorKey, push.actor), (roleKey, push.role), (ownerKey, push.owner), (slugKey, push.slug),
    (coreBinKey, coreBin service exe)]

def applyPushEnv (service : Environment) (exe : Option Text) (push : PushEnv) (env : Environment) :
    Environment := (pushVariables service exe push).foldl setOrRemove env

/-- The protocol version alone is passed on as it is inherited when the call has none. -/
def childEnv (service : Environment) (exe gitProtocol lang : Option Text) (push : PushEnv) :
    Environment :=
  let inherited :=
    match gitProtocol.filter notEmpty with
    | some p => Function.update service protocolKey (some p)
    | none => service
  applyPushEnv service exe push (applyLang lang inherited)

def shellVar (env : Environment) (key : Text) : Text := (env key).getD []

/-- The exit code with which the binary judges the canon of a commit of a list. -/
abbrev CheckContent := Text → Text → Text → Target → ℕ

/-- The hook asks about the content when it knows whom and of what; a binary that is not there or
does not run stops nobody. -/
def contentAllowed (check : CheckContent) (env : Environment) (t : Target) : Bool :=
  let bin := shellVar env coreBinKey
  let owner := shellVar env ownerKey
  let slug := shellVar env slugKey
  if notEmpty bin && notEmpty owner && notEmpty slug then
    [0, 126, 127].contains (check bin owner slug t)
  else true

def hookEnv (check : CheckContent) (stored otherCanon : Bytes → Bool) (env : Environment) :
    HookEnv where
  actor := shellVar env actorKey
  role := shellVar env roleKey
  stored := stored
  otherCanon := otherCanon
  content := contentAllowed check env

structure PostRequest where
  owner : Text
  slug : Text
  gitProtocol : Text
  lang : Text
  actorHandle : Text
  actorId : Text
  actorRole : Text

def opt (t : Text) : Option Text := if t.isEmpty then none else some t

/-- The author of a push; the name somebody goes by counts only for a caller that sends neither an
identifier nor a role. -/
def chooseActor (actorId actorRole actorHandle : Text) : Text :=
  match actorId, actorRole with
  | [], [] => actorHandle
  | [], _ => []
  | id, _ => id

def PostRequest.actor (request : PostRequest) : Text :=
  chooseActor request.actorId request.actorRole request.actorHandle

def pushEnv (request : PostRequest) : PushEnv :=
  ⟨opt request.actor, opt request.actorRole, opt request.owner, opt request.slug⟩

def requestEnv (service : Environment) (exe : Option Text) (request : PostRequest) : Environment :=
  childEnv service exe (opt request.gitProtocol) (opt request.lang) (pushEnv request)

section Variables

theorem foldl_setOrRemove_of_notMem {key : Text} (variables_ : List (Text × Option Text))
    (env : Environment) (h : key ∉ variables_.map Prod.fst) :
    variables_.foldl setOrRemove env key = env key := by
  induction variables_ generalizing env with
  | nil => rfl
  | cons v vs ih =>
    rw [List.map_cons, List.mem_cons, not_or] at h
    rw [List.foldl_cons, ih _ h.2]
    exact Function.update_of_ne h.1 _ env

theorem foldl_setOrRemove_of_mem {variables_ : List (Text × Option Text)} {key : Text}
    {value : Option Text} (hnodup : (variables_.map Prod.fst).Nodup)
    (h : (key, value) ∈ variables_) (env : Environment) :
    variables_.foldl setOrRemove env key = value.filter notEmpty := by
  induction variables_ generalizing env with
  | nil => cases h
  | cons v vs ih =>
    rw [List.map_cons, List.nodup_cons] at hnodup
    rw [List.foldl_cons]
    rcases List.mem_cons.mp h with rfl | hrest
    · rw [foldl_setOrRemove_of_notMem vs _ hnodup.1]
      exact Function.update_self key _ env
    · exact ih hnodup.2 hrest _

variable (service : Environment) (exe : Option Text) (request : PostRequest)

theorem nodup_pushVariables (push : PushEnv) :
    ((pushVariables service exe push).map Prod.fst).Nodup := by
  simp only [pushVariables, List.map_cons, List.map_nil]
  decide

theorem requestEnv_of_mem {key : Text} {value : Option Text}
    (h : (key, value) ∈ pushVariables service exe (pushEnv request)) :
    requestEnv service exe request key = value.filter notEmpty := by
  rw [requestEnv, childEnv, applyPushEnv]
  exact foldl_setOrRemove_of_mem (nodup_pushVariables service exe (pushEnv request)) h _

private theorem getD_filter_opt (t : Text) : ((opt t).filter notEmpty).getD [] = t := by
  cases t <;> rfl

theorem hookEnv_requestEnv (check : CheckContent) (stored otherCanon : Bytes → Bool) :
    hookEnv check stored otherCanon (requestEnv service exe request) =
      ⟨request.actor, request.actorRole, stored, otherCanon, fun t =>
        if notEmpty (((coreBin service exe).filter notEmpty).getD []) && notEmpty request.owner &&
            notEmpty request.slug then
          [0, 126, 127].contains (check (((coreBin service exe).filter notEmpty).getD [])
            request.owner request.slug t)
        else true⟩ := by
  have hvar : ∀ key value, (key, value) ∈ pushVariables service exe (pushEnv request) →
      shellVar (requestEnv service exe request) key = (value.filter notEmpty).getD [] := by
    intro key value h
    rw [shellVar, requestEnv_of_mem service exe request h]
  have hactor := hvar actorKey (opt request.actor) (.head _)
  have hrole := hvar roleKey (opt request.actorRole) (.tail _ (.head _))
  have howner := hvar ownerKey (opt request.owner) (.tail _ (.tail _ (.head _)))
  have hslug := hvar slugKey (opt request.slug) (.tail _ (.tail _ (.tail _ (.head _))))
  have hbin := hvar coreBinKey (coreBin service exe)
    (.tail _ (.tail _ (.tail _ (.tail _ (.head _)))))
  rw [getD_filter_opt] at hactor hrole howner hslug
  rw [hookEnv, hactor, hrole]
  congr 1
  funext t
  rw [contentAllowed, howner, hslug, hbin]

end Variables

/-- A push as it comes in, and what it meets: the environment of the service, the answers about the
content, the objects that are there, and the failures. -/
structure Attempt where
  service : Environment
  exe : Option Text
  request : PostRequest
  check : CheckContent
  stored : Bytes → Bool
  otherCanon : Bytes → Bool
  commands : List RefCommand
  faults : PushFaults

def Attempt.env (p : Attempt) : HookEnv :=
  hookEnv p.check p.stored p.otherCanon (requestEnv p.service p.exe p.request)

@[simp] theorem Attempt.env_actor (p : Attempt) : p.env.actor = p.request.actor := by
  rw [env, hookEnv_requestEnv]

@[simp] theorem Attempt.env_role (p : Attempt) : p.env.role = p.request.actorRole := by
  rw [env, hookEnv_requestEnv]

section Strangers

variable (core : Core) (lib : GitLibrary)

/-- One push after another, as the hook and the core take them. -/
def pushAll (held : Refs × Option Rows.ListState) (pushes : List Attempt) :
    Refs × Option Rows.ListState :=
  pushes.foldl (fun held p =>
    let result := receivePack core lib p.faults p.env p.commands held.1 held.2
    (result.refs, result.list)) held

variable {core lib} {f : PushFaults} {env : HookEnv} {commands : List RefCommand} {refs : Refs}
  {list : Option Rows.ListState}

theorem list_of_restricted (hrole : isRestricted env.role = true) :
    (receivePack core lib f env commands refs list).list = list := by
  have hmain : (received lib f.applied env refs commands).lookup mainRef = refs.lookup mainRef :=
    lookup_received_restricted hrole fun _ => by decide
  unfold receivePack
  dsimp only
  split_ifs with hanswered htaken hmoved
  · rfl
  · rfl
  · exact absurd hmain hmoved.2
  · rfl

theorem lookup_of_nameless (hrole : isRestricted env.role = true) (hactor : env.actor = [])
    (ref : Text) :
    (receivePack core lib f env commands refs list).refs.lookup ref = refs.lookup ref := by
  have hkept : (takeMagicPushes f.magic env.actor refs
      (received lib f.applied env refs commands)).1 = received lib f.applied env refs commands := by
    rw [takeMagicPushes, hactor]
    rfl
  rw [(receivePack_restricted hrole).1, hkept, ite_self]
  exact lookup_received_restricted hrole fun h => absurd hactor h

theorem actor_of_role {request : PostRequest} (hrole : isRestricted request.actorRole = true) :
    request.actor = request.actorId := by
  have hnonempty : request.actorRole ≠ [] := by
    intro hempty
    rw [hempty] at hrole
    exact absurd hrole (by decide)
  unfold PostRequest.actor chooseActor
  split
  · rename_i hempty
    exact absurd hempty hnonempty
  · rename_i hid _
    exact hid.symm
  · rfl

/-- Whatever the environment of the service holds and whatever name they go by, strangers leave the
list alone: over any number of their pushes no version is made, and no reference moves beside the
magic ones and the branches called by their identifiers. -/
theorem strangers_leave_the_list (core : Core) (lib : GitLibrary) (pushes : List Attempt)
    (hroles : ∀ p ∈ pushes, isRestricted p.request.actorRole = true) (refs : Refs)
    (list : Option Rows.ListState) :
    (pushAll core lib (refs, list) pushes).2 = list ∧
    ∀ ref, isMagic ref = false →
      (∀ p ∈ pushes, p.request.actorId ≠ [] →
        ref ≠ branchRef (authorBranch p.request.actorId "main".toList)) →
      (pushAll core lib (refs, list) pushes).1.lookup ref = refs.lookup ref := by
  induction pushes generalizing refs list with
  | nil => exact ⟨rfl, fun _ _ _ => rfl⟩
  | cons p pushes ih =>
    obtain ⟨hrole, hrest⟩ := List.forall_mem_cons.mp hroles
    have henv : isRestricted p.env.role = true := by rwa [p.env_role]
    have hactor : p.env.actor = p.request.actorId := by rw [p.env_actor, actor_of_role hrole]
    have hlist := @list_of_restricted core lib p.faults p.env p.commands refs list henv
    obtain ⟨hkept, hrefs⟩ := ih hrest (receivePack core lib p.faults p.env p.commands refs list).refs
      (receivePack core lib p.faults p.env p.commands refs list).list
    refine ⟨hkept.trans hlist, fun ref hmagic hbranch => ?_⟩
    obtain ⟨hown, hothers⟩ := List.forall_mem_cons.mp hbranch
    refine (hrefs ref hmagic hothers).trans ?_
    by_cases hid : p.request.actorId = []
    · exact lookup_of_nameless henv (hactor.trans hid) ref
    · have hchange := @stranger_changes core lib p.faults p.env p.commands refs list henv ref
      rcases hchange with hsame | heq | ⟨htrue, -⟩
      · exact hsame
      · rw [hactor] at heq
        exact absurd heq (hown hid)
      · rw [hmagic] at htrue
        cases htrue

end Strangers

structure GitFailure where
  args : List Text
  stderr : Bytes

/-- The answer of a call whose git has ended, is read to the end, and has no writer left. A pipe that
broke under the writer does not matter: git says why it stopped reading. -/
def answer {σ : Type} (args : List Text) (sys : System UInt8 σ) : Option (Except GitFailure Bytes) :=
  match sys.child, sys.out, sys.err, sys.pending with
  | .inr code, [], [], none =>
    some (if code = 0 then .ok sys.gotOut else .error ⟨args, sys.gotErr⟩)
  | _, _, _, _ => none

/-- A git with its body, which is nothing where the call has none. -/
def runGitIo {σ : Type} (s : σ) (input : Option Bytes) : System UInt8 σ := start s (input.getD [])

theorem answer_eq_some {σ : Type} {args : List Text} {sys : System UInt8 σ}
    {a : Except GitFailure Bytes} : answer args sys = some a ↔
      ∃ code, Finished sys code ∧
        a = if code = 0 then .ok sys.gotOut else .error ⟨args, sys.gotErr⟩ := by
  unfold answer Finished
  constructor
  · intro h
    split at h
    · rename_i code hchild hout herr hpending
      exact ⟨code, ⟨hchild, hout, herr, hpending⟩, (Option.some.inj h).symm⟩
    · cases h
  · rintro ⟨code, ⟨hchild, hout, herr, hpending⟩, rfl⟩
    rw [hchild, hout, herr, hpending]

/-- Whatever git does with its pipes, a call does not hang: for a git that ends on its body, over
pipes of any size and in any order of writing, running and reading, the call comes to its end in
bounded many turns, is never held up before, and answers with all that git writes, or with what git
says where it fails. -/
theorem git_call_answers {σ : Type} (proc : σ → Act UInt8 σ) (s : σ) (args : List Text)
    (input : Option Bytes) (room : Room)
    (hroom : 0 < room.input ∧ 0 < room.out ∧ 0 < room.err) {n code : ℕ} {o e : Bytes}
    (hends : Ends proc s (input.getD []) n o e code) (ts : List Turn) (sys : System UInt8 σ)
    (hrun : Pipes.run proc room ts (runGitIo s input) = some sys) :
    ts.length ≤ 2 * n + (input.getD []).length + 1 ∧
    (∀ a, answer args sys = some a → a = if code = 0 then .ok o else .error ⟨args, e⟩) ∧
    (answer args sys = none → ∃ t, (Pipes.turn proc room t sys).isSome = true) ∧
    ∃ more last, Pipes.run proc room more sys = some last ∧ (answer args last).isSome = true := by
  obtain ⟨hinput, hout, herr⟩ := hroom
  obtain ⟨m, hinv, hwork⟩ := Pipes.inv_run ts (Pipes.inv_start hends) hrun
  refine ⟨?_, fun a ha => ?_, fun hnone => ?_, ?_⟩
  · rw [Pipes.work_start] at hwork
    omega
  · obtain ⟨c, hfinished, rfl⟩ := answer_eq_some.mp ha
    obtain ⟨rfl, rfl, rfl⟩ := Pipes.outputs_of_finished hinv hfinished
    rfl
  · refine Pipes.exists_turn hinput hout herr hinv fun hfinished => ?_
    rw [answer_eq_some.mpr ⟨code, hfinished, rfl⟩] at hnone
    cases hnone
  · obtain ⟨more, last, hmore, hfinished⟩ := Pipes.exists_finished hinput hout herr hinv
    exact ⟨more, last, hmore, by rw [answer_eq_some.mpr ⟨code, hfinished, rfl⟩]; rfl⟩

def echo : Option (Option UInt8) → Act UInt8 (Option (Option UInt8))
  | none => .read some
  | some (some b) => .out b none
  | some none => .exit 0

def echoCall : System UInt8 (Option (Option UInt8)) := runGitIo none (some [1, 2])

def echoTurns : List Turn :=
  [.write, .child, .write, .child, .write, .child, .takeOut, .child, .takeOut, .child, .child]

/-- Two bytes through pipes of one byte each: before the last turn there is no answer, after it there
is, and it is the body. -/
theorem git_call_answers_echo : ∃ before after,
    Pipes.run echo ⟨1, 1, 1⟩ echoTurns.dropLast echoCall = some before ∧ answer [] before = none ∧
    Pipes.run echo ⟨1, 1, 1⟩ echoTurns echoCall = some after ∧ answer [] after = some (.ok [1, 2]) ∧
    echoTurns.length ≤ 2 * 6 + 2 + 1 ∧
    (∀ a, answer [] after = some a → a = if 0 = 0 then .ok [1, 2] else .error ⟨[], []⟩) ∧
    (answer [] after = none → ∃ t, (Pipes.turn echo ⟨1, 1, 1⟩ t after).isSome = true) ∧
    ∃ more last, Pipes.run echo ⟨1, 1, 1⟩ more after = some last ∧ (answer [] last).isSome = true :=
  ⟨_, _, rfl, rfl, rfl, rfl, git_call_answers echo none [] (some [1, 2]) ⟨1, 1, 1⟩ (by decide)
    (.read rfl (.out rfl (.read rfl (.out rfl (.eof rfl (.exit [] rfl)))))) echoTurns _ rfl⟩

/-- A stranger who goes by the name of the owner, pushed to a service that itself runs as the owner. -/
def strangerAttempt : Attempt where
  service := fun _ => some "owner".toList
  exe := none
  request := ⟨"owner".toList, "plan".toList, [], [], "owner".toList, "7f3a-01".toList,
    "contributor".toList⟩
  check := fun _ _ _ _ => 0
  stored := fun _ => true
  otherCanon := fun _ => false
  commands := [proposal (pushedOver firstCommit)]
  faults := nothingFails "7f3a-01".toList markedRefs

theorem strangers_leave_the_list_main :
    let held := pushAll canonCore plainLibrary (markedRefs, some markedList)
      [strangerAttempt, strangerAttempt]
    held.2 = some markedList ∧ held.1.lookup mainRef = markedRefs.lookup mainRef := by
  have hroles : ∀ p ∈ [strangerAttempt, strangerAttempt],
      isRestricted p.request.actorRole = true := by
    intro p hp
    rcases List.mem_pair.mp hp with rfl | rfl <;> decide
  obtain ⟨hlist, hrefs⟩ := strangers_leave_the_list canonCore plainLibrary
    [strangerAttempt, strangerAttempt] hroles markedRefs (some markedList)
  refine ⟨hlist, hrefs mainRef (by decide) fun p _ _ h => ?_⟩
  exact Received.authorBranch_ne_main _ _ h.symm

end Setfork.GitChild
