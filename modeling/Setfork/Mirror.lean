/- Mirror
   digest: The outgoing mirror of a list: its address and credentials, the push it runs, the status
   it writes, and one push as steps of its call. -/
import Setfork.Foundation.GitPush
import Setfork.Redaction
import Setfork.SerializedCalls
import Setfork.Service

set_option autoImplicit false
set_option relaxedAutoImplicit false

namespace Setfork.Mirror

open Setfork.Foundation
open Setfork.Foundation.GitPush
open Setfork.Foundation.Interleave (System)
open Setfork.TreeRule (stripPrefix stripPrefix_eq_some)
open Setfork.Redaction (redact scheme authorityOf)
open Setfork.Repository (Disk mainRef)
open Setfork.History (Core)
open Setfork.Push (GitLibrary)

structure Settings where
  url : Option Text
  token : Option Text

structure Status where
  syncedAt : Option Int
  error : Option Text
  attempts : Nat
deriving DecidableEq

def loadMirror (s : Settings) : Option (Text × Text) :=
  match s.url, s.token with
  | some url, some token =>
    if !(trim url).isEmpty && !(trim token).isEmpty then some (url, token) else none
  | _, _ => none

/-- Every outcome is written; a success takes the count of failures in a row back. -/
def recordMirrorResult (now : Int) (error : Option Text) (s : Status) : Status :=
  ⟨some now, error, if error.isNone then 0 else s.attempts + 1⟩

def validMirrorUrl (url : Text) : Bool :=
  match stripPrefix scheme url with
  | none => false
  | some rest => !(authorityOf rest).isEmpty && !(authorityOf rest).contains '@' && rest.contains '/'

def credUser (host : Text) : Text :=
  let h := host.map Char.toLower
  if "github.com".toList <:+ h then "x-access-token".toList
  else if "gitlab".toList <:+: h then "oauth2".toList
  else "git".toList

def urlWithToken (url token : Text) : Option Text :=
  (stripPrefix scheme url).map (fun rest =>
    scheme ++ credUser (authorityOf rest) ++ ":".toList ++ token ++ "@".toList ++ rest)

def pushArgs (bare pushurl : Text) (flags refspecs : List Text) : List Text :=
  ["--git-dir".toList, bare, "push".toList] ++ flags ++ [pushurl] ++ refspecs

def mirrorArgs (bare pushurl : Text) : List Text :=
  pushArgs bare pushurl ["--prune".toList]
    ["+refs/heads/main:refs/heads/main".toList, "+refs/tags/*:refs/tags/*".toList]

def accessProbeRef : Text := ":refs/heads/setfork-access-check-do-not-create".toList

def checkArgs (bare pushurl : Text) : List Text :=
  pushArgs bare pushurl ["--dry-run".toList] [accessProbeRef]

def tagsPath : Text := "refs/tags/".toList

def mirrorSpecs : List Refspec := [.one mainRef mainRef, .family tagsPath tagsPath]

private theorem scheme_not_flag {rest : Text} : isFlag (scheme ++ rest) = false := rfl

theorem urlWithToken_isFlag {url token pushurl : Text} (h : urlWithToken url token = some pushurl) :
    isFlag pushurl = false := by
  obtain ⟨rest, -, rfl⟩ := Option.map_eq_some_iff.mp h
  simp only [List.append_assoc]
  exact scheme_not_flag

theorem readPush_mirrorArgs {bare url token pushurl : Text}
    (h : urlWithToken url token = some pushurl) :
    readPush (mirrorArgs bare pushurl) = some ⟨true, false, pushurl, mirrorSpecs⟩ := by
  have hspecs : ["+refs/heads/main:refs/heads/main".toList, "+refs/tags/*:refs/tags/*".toList].mapM
      Refspec.parse = some mirrorSpecs := by decide
  have hflag : isFlag "--prune".toList = true := by decide
  simp only [readPush, mirrorArgs, pushArgs, List.cons_append, List.nil_append, and_self, if_true,
    List.takeWhile_cons_of_pos hflag, List.dropWhile_cons_of_pos hflag, List.takeWhile_cons,
    List.dropWhile_cons, urlWithToken_isFlag h, Bool.false_eq_true, if_false, hspecs, Option.map_some]
  rfl

theorem readPush_checkArgs {bare url token pushurl : Text}
    (h : urlWithToken url token = some pushurl) :
    readPush (checkArgs bare pushurl) = some ⟨false, true, pushurl,
      [.remove "refs/heads/setfork-access-check-do-not-create".toList]⟩ := by
  have hspecs : [accessProbeRef].mapM Refspec.parse =
      some [.remove "refs/heads/setfork-access-check-do-not-create".toList] := by decide
  have hflag : isFlag "--dry-run".toList = true := by decide
  simp only [readPush, checkArgs, pushArgs, List.cons_append, List.nil_append, and_self, if_true,
    List.takeWhile_cons_of_pos hflag, List.dropWhile_cons_of_pos hflag, List.takeWhile_cons,
    List.dropWhile_cons, urlWithToken_isFlag h, Bool.false_eq_true, if_false, hspecs, Option.map_some]
  rfl

/-- How a run of git can fail: it does not start, does not end in time, or says so. -/
inductive Failure where
  | notStarted (err : Text)
  | timedOut
  | refused (stderr : Text)

def dropReturn (line : Text) : Text :=
  if line.getLast? = some '\r' then line.dropLast else line

/-- The lines of a text; an end of line at its end begins no further one. -/
def lines (t : Text) : List Text :=
  let pieces := t.splitOn '\n'
  (if pieces.getLast? = some [] then pieces.dropLast else pieces).map dropReturn

def errorTail (stderr : Text) : Text :=
  trim (['\n'].intercalate ((lines stderr).drop ((lines stderr).length - 4)))

def failureText (token : Text) : Failure → Text
  | .notStarted err => "git push failed to start: ".toList ++ err
  | .timedOut => "git push timed out after 60s (network or forge not responding)".toList
  | .refused stderr => (redact (errorTail stderr) token).getD []

def badUrl : Text :=
  "mirror URL must be https://host/owner/repo (no credentials in the URL)".toList

/-- What a process is started with: the secret it shares with the frontend, and the cipher. -/
structure Vault where
  secret : Option Text
  decrypt : Text → Text → Option Text

/-- The state of the core, the mirror columns of the list, and the forges by address. What pushes
that were given up had sent may reach its forge at any later time; what the last success that was
recorded stands for is kept for the statements only. -/
structure World where
  core : Service.State
  settings : Settings
  status : Status
  forges : Text → Refs
  strays : List (Text × Command)
  vouched : Option (Text × Refs)

/-- What git looks at next: a name at the core, a name at the forge, or all it has not read yet. -/
inductive Look where
  | here (name : Text)
  | there (name : Text)
  | rest

/-- What a step of a push meets: whether the database, the forge or git answers, what git looks at,
what the forge does with commands, how git fails, and the time. -/
structure Turn where
  answered : Bool
  look : Look
  forge : Forge
  failure : Failure
  now : Int

/-- How far a push is. With a good outcome it remembers what it has sent, and where. -/
inductive Stage where
  | settings
  | reading (url token : Text) (req : Request) (here there : Log)
  | sending (url token : Text) (here : Refs) (cmds : List Command)
  | recording (outcome : Except Text (Text × Refs))
  | ended

section Push

variable (git : Git) (bare : Text) (vault : Vault)

/-- From the settings to the arguments of git, or the failure that is recorded. -/
def prepare (url stored : Text) : Except Text (Text × Request) :=
  match vault.secret with
  | none => .error "secret-missing".toList
  | some secret =>
    match vault.decrypt stored secret with
    | none => .error "token-undecryptable".toList
    | some token =>
      if !validMirrorUrl url then .error badUrl
      else
        match (urlWithToken url token).bind (fun pushurl =>
          git.request (mirrorArgs bare pushurl)) with
        | none => .error "bad mirror URL".toList
        | some req => .ok (token, req)

/-- One step of a push: it reads the settings, lets git read references of the core and of the
forge, which change meanwhile, sends the commands, and records the outcome. -/
def advance (turn : Turn) (w : World) : Stage → World × Stage
  | .settings =>
    if !turn.answered then (w, .ended)
    else
      match loadMirror w.settings with
      | none => (w, .ended)
      | some (url, stored) =>
        match prepare git bare vault url stored with
        | .error e => (w, .recording (.error e))
        | .ok (token, req) => (w, .reading url token req [] [])
  | .reading url token req here there =>
    match turn.answered, w.core.disk with
    | true, .repo refs =>
      match turn.look with
      | .here name => (w, .reading url token req ((name, refs.lookup name) :: here) there)
      | .there name =>
        (w, .reading url token req here ((name, (w.forges url).lookup name) :: there))
      | .rest =>
        let sent := settle here refs
        if req.specs.all (Refspec.resolves sent) then
          (w, .sending url token sent (git.commands req sent (settle there (w.forges url))))
        else (w, .recording (.error (failureText token turn.failure)))
    | _, _ => (w, .recording (.error (failureText token turn.failure)))
  | .sending url token here cmds =>
    if turn.answered then
      ({ w with forges := Function.update w.forges url (turn.forge.after cmds (w.forges url)) },
        .recording (if turn.forge.well cmds (w.forges url) then .ok (url, here)
          else .error (failureText token turn.failure)))
    else
      ({ w with strays := w.strays ++ cmds.map (fun cmd => (url, cmd)) },
        .recording (.error (failureText token turn.failure)))
  | .recording outcome =>
    if !turn.answered then (w, .ended)
    else
      match outcome with
      | .error e => ({ w with status := recordMirrorResult turn.now (some e) w.status }, .ended)
      | .ok sent =>
        ({ w with status := recordMirrorResult turn.now none w.status, vouched := some sent }, .ended)
  | .ended => (w, .ended)

/-- A push that is given up where it stands: what it was about to send may still arrive. -/
def abandon (w : World) : Stage → World
  | .sending url _ _ cmds => { w with strays := w.strays ++ cmds.map (fun cmd => (url, cmd)) }
  | _ => w

end Push

/-- The world, the calls of `serialized` for the list, and how far the push of each call is. -/
structure State (ι : Type) where
  world : World
  calls : System ι (SerializedCalls.Shared Unit) SerializedCalls.Phase
  stages : ι → Stage

/-- What can happen: an operation of the core, a change of the settings, a step of a call, which may
be dropped, a check of the access, the arrival of a stray command, and a hand at a forge. -/
inductive Op (ι : Type) where
  | core (op : Service.Op)
  | configure (settings : Settings)
  | call (a : ι) (dropped : Bool) (turn : Turn)
  | check (url token : Text) (turn : Turn)
  | arrive (i : Nat) (forge : Forge)
  | touch (url name : Text) (t : Option Target)

section Steps

variable {ι : Type} [DecidableEq ι] (core : Core) (lib : GitLibrary) (git : Git) (bare : Text)
  (vault : Vault)

abbrev callStep (op : ι × Bool) (calls : System ι (SerializedCalls.Shared Unit) SerializedCalls.Phase) :
    System ι (SerializedCalls.Shared Unit) SerializedCalls.Phase :=
  SerializedCalls.step (fun _ => ()) op calls

def stepCall (a : ι) (dropped : Bool) (turn : Turn) (st : State ι) : State ι :=
  match st.calls.places a with
  | .executing _ =>
    if dropped then
      ⟨abandon st.world (st.stages a), callStep (a, true) st.calls,
        Function.update st.stages a .ended⟩
    else
      match st.stages a with
      | .ended => { st with calls := callStep (a, false) st.calls }
      | stage =>
        let next := advance git bare vault turn st.world stage
        { st with world := next.1, stages := Function.update st.stages a next.2 }
  | _ => { st with calls := callStep (a, dropped) st.calls }

def arrive (forge : Forge) (w : World) (stray : Text × Command) : World :=
  let changed := forge.after [stray.2] (w.forges stray.1)
  { w with forges := Function.update w.forges stray.1 changed }

def checkAccess (url token : Text) (turn : Turn) (w : World) : World :=
  match w.core.disk,
    (urlWithToken url token).bind (fun pushurl => git.request (checkArgs bare pushurl)) with
  | .repo refs, some req =>
    let cmds := git.commands req refs (w.forges url)
    { w with forges := Function.update w.forges url (turn.forge.after cmds (w.forges url)) }
  | _, _ => w

def touch (url name : Text) (t : Option Target) (w : World) : World :=
  { w with forges := Function.update w.forges url (put (w.forges url) name t) }

def step : Op ι → State ι → State ι
  | .core op, st => { st with world := { st.world with core := Service.step core lib op st.world.core } }
  | .configure settings, st => { st with world := { st.world with settings := settings } }
  | .call a dropped turn, st => stepCall git bare vault a dropped turn st
  | .check url token turn, st => { st with world := checkAccess git bare url token turn st.world }
  | .arrive i forge, st =>
    match st.world.strays[i]? with
    | none => st
    | some stray => { st with world := arrive forge st.world stray }
  | .touch url name t, st => { st with world := touch url name t st.world }

abbrev run (ops : List (Op ι)) (st : State ι) : State ι :=
  Runs.run (step core lib git bare vault) ops st

/-- No call yet, and no push. -/
def initial (core : Service.State) (settings : Settings) (status : Status) (forges : Text → Refs) :
    State ι :=
  ⟨⟨core, settings, status, forges, [], none⟩, SerializedCalls.initial, fun _ => .settings⟩

end Steps

end Setfork.Mirror
