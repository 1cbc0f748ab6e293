/- GuardedCalls
   digest: Calls of several processes on many lists, move by move under the guards of their
   repositories: every list is at every moment as a run of whole operations leaves it. -/
import Setfork.RepoGuard
import Setfork.TagRuns
import Setfork.Writers

set_option autoImplicit false
set_option relaxedAutoImplicit false

namespace Setfork.GuardedCalls

open Setfork.Foundation
open Setfork.Foundation.OrderedLocks (Instr Agent Sys Protected Inherited)
open Setfork.Rows
open Setfork.Repository
open Setfork.History
open Setfork.Alignment
open Setfork.WebVersion
open Setfork.Push
open Setfork.Branches
open Setfork.Service
open Setfork.Writers (Place Move workMoves whole_workMoves)
open Setfork.RepoGuard
open Setfork.Healing (markedList markedRefs markedRefs_ready markEdit plainWrite)
open Setfork.TagRuns (Calm savedEdit run_calm currentVersion_saved)

def stopped : ProjectionFaults := ⟨.failed, .failed, false, 0⟩

/-- An operation of which only the first move is made: a write aligns the repository and no more,
and what moves main is not followed by a projection. -/
def cutOp : Op → Op
  | .web f edit => .web { f with readRow := false } edit
  | .push f env commands => .push { f with first := stopped, second := stopped } env commands
  | .mergeBranch written _ _ name squash stamp =>
    .mergeBranch written stopped stopped name squash stamp
  | .mergeResolved written _ _ branch listJson squash stamp =>
    .mergeResolved written stopped stopped branch listJson squash stamp
  | op => op

section Cut

variable (core : Core) (lib : GitLibrary)

theorem projectMainOrLog_stopped (refs : Refs) (s : ListState) :
    projectMainOrLog core stopped stopped refs s = (refs, s, 0) := by
  have honce : (projectPushedCommit core stopped refs s).refs = refs ∧
      (projectPushedCommit core stopped refs s).list = s ∧
      ((projectPushedCommit core stopped refs s).outcome = .ok none ∨
        (projectPushedCommit core stopped refs s).outcome = .error .database) := by
    unfold projectPushedCommit
    split
    · exact ⟨rfl, rfl, Or.inl rfl⟩
    split
    · exact ⟨rfl, rfl, Or.inl rfl⟩
    split
    · exact ⟨rfl, rfl, Or.inl rfl⟩
    split
    · exact ⟨rfl, rfl, Or.inr rfl⟩
    · exact ⟨rfl, rfl, Or.inr rfl⟩
    · rename_i hlost
      cases hlost
    · rename_i hdone
      cases hdone
  obtain ⟨hrefs, hlist, hok | herror⟩ := honce
  · unfold projectMainOrLog
    simp only [hok, hrefs, hlist, Option.getD_none]
  · unfold projectMainOrLog
    simp only [herror, hrefs, hlist]

theorem cut_merge (merged : Refs → Except BranchRefusal Refs) (st : State) (place : Place) :
    (Writers.mergeMove merged st place).1 = afterMerge core stopped stopped merged st := by
  obtain ⟨disk, list⟩ := st
  cases disk with
  | absent => rfl
  | unreadable => rfl
  | repo refs =>
    cases hmerged : merged refs with
    | error e => simp [Writers.mergeMove, afterMerge, hmerged]
    | ok moved =>
      cases list with
      | none => simp [Writers.mergeMove, afterMerge, hmerged]
      | some s => simp [Writers.mergeMove, afterMerge, hmerged, projectMainOrLog_stopped]

theorem cut_push (f : PushFaults) (env : HookEnv) (commands : List RefCommand) (st : State)
    (place : Place) : (Writers.receiveMove lib f env commands st place).1 =
      step core lib (.push { f with first := stopped, second := stopped } env commands) st := by
  obtain ⟨disk, list⟩ := st
  cases disk with
  | absent => rfl
  | unreadable => rfl
  | repo refs =>
    simp only [Writers.receiveMove, step, receivePack]
    split_ifs <;> (try rfl)
    cases list with
    | none => rfl
    | some s => simp [projectMainOrLog_stopped]

theorem cut_web (f : WebFaults) (edit : WebEdit) (st : State) (place : Place) :
    (Writers.alignMove core f.sync st place).1 =
      step core lib (.web { f with readRow := false } edit) st := by
  simp only [Writers.alignMove, step, Writers.commitWebVersion_eq, Writers.writeAligned]
  split <;> simp

theorem whole_cut (op : Op) {made todo : List Move} (h : workMoves core lib op = made ++ todo)
    (hmade : made ≠ []) (htodo : todo ≠ []) (st : State) (place : Place) :
    (Lock.whole made st place).1 = step core lib (cutOp op) st := by
  have hpair : ∀ {x y : Move}, [x, y] = made ++ todo → made = [x] := by
    intro x y hxy
    rcases List.cons_eq_append_iff.mp hxy with ⟨rfl, -⟩ | ⟨rest, rfl, hrest⟩
    · exact absurd rfl hmade
    · rcases List.cons_eq_append_iff.mp hrest with ⟨rfl, -⟩ | ⟨rest', rfl, hnil⟩
      · rfl
      · exact absurd (List.append_eq_nil_iff.mp hnil.symm).2 htodo
  have hsingle : ∀ {x : Move}, [x] ≠ made ++ todo := by
    intro x hx
    rcases List.cons_eq_append_iff.mp hx with ⟨rfl, -⟩ | ⟨rest, rfl, hnil⟩
    · exact hmade rfl
    · exact htodo (List.append_eq_nil_iff.mp hnil.symm).2
  cases op with
  | web f edit =>
    rw [hpair h]
    exact cut_web core lib f edit st place
  | push f env commands =>
    rw [hpair h]
    exact cut_push core lib f env commands st place
  | mergeBranch written first second name squash stamp =>
    rw [hpair h]
    exact cut_merge core _ st place
  | mergeResolved written first second branch listJson squash stamp =>
    rw [hpair h]
    exact cut_merge core _ st place
  | _ => exact absurd h hsingle

theorem workMoves_ne_nil (op : Op) : workMoves core lib op ≠ [] := by
  cases op <;> exact List.cons_ne_nil _ _

end Cut

/-- The operations that come under the guard of their repository: branches and releases are made and
deleted without it, and so is the projection an operator asks for. -/
def UnderGuard : Op → Prop
  | .createBranch .. | .deleteBranch .. | .createTag .. | .reproject .. => False
  | _ => True

structure Section where
  id : Uuid
  op : Op
  guarded : UnderGuard op

def Deed.move : Deed Move → Option Move
  | .query => none
  | .git m => some m
  | .transaction m _ => some m

def Job.moves : Job Move → List (List (Uuid × Move))
  | .guarded id deeds => [(deeds.filterMap Deed.move).map fun m => (id, m)]
  | _ => []

def Section.moves (core : Core) (lib : GitLibrary) (s : Section) : List (Uuid × Move) :=
  (workMoves core lib s.op).map fun m => (s.id, m)

/-- A call of a process: its jobs make the moves of its sections, one section after another. -/
structure Call (core : Core) (lib : GitLibrary) (π : Type) where
  process : π
  sections : List Section
  jobs : List (Job Move)
  performs : jobs.flatMap Job.moves = sections.map (Section.moves core lib)

/-- What a section does with its guard. The commit of a write is made by a thread of its own, and is
there without its rows when the transaction is gone. -/
def deeds (core : Core) (lib : GitLibrary) : Op → List (Deed Move)
  | .web f edit => [.query, .git (Writers.alignMove core f.sync),
      .transaction (Writers.writeMove core f edit)
        (some (Writers.writeMove core { f with tail := .failed } edit))]
  | .push f env commands => [.git (Writers.receiveMove lib f env commands),
      .transaction (Writers.projectMove core f.first f.second) none]
  | .mergeBranch written first second name squash stamp =>
    [.git (Writers.mergeMove fun refs => mergeBranch lib written refs name squash stamp),
      .transaction (Writers.projectMove core first second) none]
  | .mergeResolved written first second branch listJson squash stamp =>
    [.git (Writers.mergeMove fun refs => mergeResolved core.reserved core.parser.fromSlice written
        refs branch listJson squash stamp),
      .transaction (Writers.projectMove core first second) none]
  | op => .query :: (workMoves core lib op).map .git

theorem moves_deeds (core : Core) (lib : GitLibrary) (op : Op) :
    (deeds core lib op).filterMap Deed.move = workMoves core lib op := by
  cases op <;> rfl

def Call.ofSections {π : Type} (core : Core) (lib : GitLibrary) (p : π) (sections : List Section) :
    Call core lib π where
  process := p
  sections := sections
  jobs := sections.map fun s => .guarded s.id (deeds core lib s.op)
  performs := by
    induction sections with
    | nil => rfl
    | cons s sections ih =>
      rw [List.map_cons, List.flatMap_cons, ih, List.map_cons, Job.moves, moves_deeds]
      rfl

section Scripts

variable {π : Type}

/-- The work a script does before it takes an advisory lock again, and after that, lock by lock. -/
def plan : Script π Move → List (Uuid × Move) × List (List (Uuid × Move))
  | [] => ([], [])
  | .take (.key _) :: rest =>
    ([], if (plan rest).1 = [] then (plan rest).2 else (plan rest).1 :: (plan rest).2)
  | .work w :: rest => ((w.id, w.move) :: (plan rest).1, (plan rest).2)
  | _ :: rest => plan rest

def left (rest : Script π Move) : List (List (Uuid × Move)) :=
  if (plan rest).1 = [] then (plan rest).2 else (plan rest).1 :: (plan rest).2

@[simp] theorem plan_take_key (k : BitVec 64) (rest : Script π Move) :
    plan (.take (.key k) :: rest) = ([], left rest) := rfl

@[simp] theorem plan_free (r : Resource π) (rest : Script π Move) :
    plan (.free r :: rest) = plan rest := rfl

@[simp] theorem plan_work (w : Work Move) (rest : Script π Move) :
    plan (.work w :: rest) = ((w.id, w.move) :: (plan rest).1, (plan rest).2) := rfl

theorem plan_take_of_ne {r : Resource π} (h : ∀ k, r ≠ .key k) (rest : Script π Move) :
    plan (.take r :: rest) = plan rest := by
  cases r with
  | key k => exact absurd rfl (h k)
  | _ => rfl

theorem left_of_plan {rest : Script π Move} (h : (plan rest).1 = []) : left rest = (plan rest).2 :=
  if_pos h

theorem left_take (r : Resource π) (rest : Script π Move) : left (.take r :: rest) = left rest := by
  by_cases h : ∃ k, r = .key k
  · obtain ⟨k, rfl⟩ := h
    exact if_pos rfl
  · unfold left
    rw [plan_take_of_ne (fun k hk => h ⟨k, hk⟩)]

theorem left_free (r : Resource π) (rest : Script π Move) : left (.free r :: rest) = left rest := rfl

theorem left_abandon (held : List (Resource π)) (rest : Script π Move) :
    left (abandon .idle held rest) = [] := by
  have hfrees : ∀ (order : List (Resource π)) (tail : Script π Move), plan tail = ([], []) →
      plan (order.map .free ++ tail) = ([], []) := by
    intro order tail htail
    induction order with
    | nil => exact htail
    | cons r order ih => exact ih
  have hplan : plan (abandon .idle held rest) = ([], []) := by
    refine hfrees _ _ ?_
    rw [Drop.outlives, List.append_nil]
    have hlast : plan ((held.filter fun r => !isMutex r).map .free : Script π Move) = ([], []) := by
      have hnil := hfrees (held.filter fun r => !isMutex r) [] rfl
      rwa [List.append_nil] at hnil
    unfold pendingKey
    split
    · change ([], left ((held.filter fun r => !isMutex r).map .free)) = _
      rw [left_of_plan (by rw [hlast]), hlast]
    · exact hlast
  rw [left_of_plan (by rw [hplan]), hplan]

theorem plan_deeds (p : π) (id : Uuid) (deeds : List (Deed Move)) (rest : Script π Move) :
    plan (deeds.flatMap (Deed.script p id) ++ rest) =
      ((deeds.filterMap Deed.move).map (fun m => (id, m)) ++ (plan rest).1, (plan rest).2) := by
  induction deeds with
  | nil => rfl
  | cons deed deeds ih =>
    rw [List.flatMap_cons, List.append_assoc]
    cases deed with
    | query => exact ih
    | git m =>
      change plan (.work ⟨id, m, some m⟩ :: (deeds.flatMap (Deed.script p id) ++ rest)) = _
      rw [plan_work, ih]
      rfl
    | transaction m late =>
      change plan (.work ⟨id, m, late⟩ :: .free (.conn p) ::
        (deeds.flatMap (Deed.script p id) ++ rest)) = _
      rw [plan_work, plan_free, ih]
      rfl

theorem plan_callScript (procs : π → Process) (p : π) (jobs : List (Job Move))
    (hjobs : ∀ part ∈ jobs.flatMap Job.moves, part ≠ []) :
    plan (callScript procs p jobs) = ([], jobs.flatMap Job.moves) := by
  induction jobs with
  | nil => rfl
  | cons job jobs ih =>
    have hrest := ih fun part hpart => hjobs part (by
      rw [List.flatMap_cons]
      exact List.mem_append_right _ hpart)
    rw [callScript] at hrest
    have hleft : left (jobs.flatMap (Job.script procs p)) = jobs.flatMap Job.moves := by
      rw [left_of_plan (by rw [hrest]), hrest]
    rw [callScript, List.flatMap_cons]
    cases job with
    | query => exact hrest
    | numbered id =>
      change ([], left (jobs.flatMap (Job.script procs p))) = _
      rw [hleft]
      rfl
    | guarded id deeds =>
      have hpart : (deeds.filterMap Deed.move).map (fun m => (id, m)) ≠ [] :=
        hjobs _ (by
          rw [List.flatMap_cons]
          exact List.mem_append_left _ (List.mem_singleton_self _))
      have hdrop : plan (dropGuard procs p id ++ jobs.flatMap (Job.script procs p)) =
          ([], jobs.flatMap Job.moves) := hrest
      have hbody : plan (deeds.flatMap (Deed.script p id) ++
          (dropGuard procs p id ++ jobs.flatMap (Job.script procs p))) =
          ((deeds.filterMap Deed.move).map (fun m => (id, m)), jobs.flatMap Job.moves) := by
        rw [plan_deeds, hdrop, List.append_nil]
      have hpool : ∀ rest : Script π Move,
          plan (.take (lockPool procs p) :: rest) = plan rest := by
        intro rest
        refine plan_take_of_ne (fun k => ?_) rest
        unfold lockPool
        split_ifs <;> simp
      rw [Job.script, repoGuard, List.append_assoc, List.append_assoc]
      simp only [List.cons_append, List.nil_append]
      rw [plan_take_of_ne (by simp), hpool, plan_take_key, left, hbody, if_neg hpart]
      rfl

def lockOf (w : Work Move) : Resource π := .key (advisoryKey w.id)

variable [DecidableEq π]

theorem lock_of_plan {held : List (Resource π)} {rest : Script π Move}
    (h : Protected lockOf held rest) {w : Uuid × Move} {more : List (Uuid × Move)}
    (hplan : (plan rest).1 = w :: more) : .key (advisoryKey w.1) ∈ held := by
  induction rest generalizing held with
  | nil => cases hplan
  | cons instr rest ih =>
    cases instr with
    | take r =>
      by_cases hk : ∃ k, r = .key k
      · obtain ⟨k, rfl⟩ := hk
        cases hplan
      · rw [plan_take_of_ne (fun k heq => hk ⟨k, heq⟩)] at hplan
        exact (List.mem_cons.mp (ih h hplan)).resolve_left fun heq => hk ⟨_, heq.symm⟩
    | free r => exact List.mem_of_mem_erase (ih h hplan)
    | work m =>
      obtain ⟨rfl, -⟩ := List.cons.inj hplan
      exact h.1

end Scripts

/-- The lists with their repositories, and where every call stands in its section. -/
abbrev Shared (ι : Type) := (Uuid → Service.State) × (ι → Place)

/-- A section that is over, or was cut short: the call, and which of its sections. -/
structure Entry (ι : Type) where
  call : ι
  index : Nat
  cut : Bool

section Runs

variable {ι π : Type} {core : Core} {lib : GitLibrary}

def act [DecidableEq ι] (a : ι) (w : Work Move) (s : Shared ι) : Shared ι :=
  let made := w.move (s.1 w.id) (s.2 a)
  (Function.update s.1 w.id made.1, Function.update s.2 a made.2)

variable (calls : ι → Call core lib π)

/-- The operation an entry stands for. -/
def opOf (e : Entry ι) : Option Op :=
  (calls e.call).sections[e.index]?.map fun s => if e.cut then cutOp s.op else s.op

def onList (id : Uuid) (e : Entry ι) : Bool :=
  (calls e.call).sections[e.index]?.any fun s => s.id = id

def opsOn (id : Uuid) (hist : List (Entry ι)) : List Op :=
  (hist.filter (onList calls id)).filterMap (opOf calls)

/-- The list after the whole operations of a history. -/
def base (start : Uuid → Service.State) (hist : List (Entry ι)) (id : Uuid) : Service.State :=
  Service.run core lib (opsOn calls id hist) (start id)

variable {calls}

theorem base_append {start : Uuid → Service.State} (hist : List (Entry ι)) {e : Entry ι}
    {s : Section} (hs : (calls e.call).sections[e.index]? = some s) (id : Uuid) :
    base calls start (hist ++ [e]) id =
      if s.id = id then step core lib (if e.cut then cutOp s.op else s.op) (base calls start hist id)
      else base calls start hist id := by
  have hon : onList calls id e = decide (s.id = id) := by simp [onList, hs]
  have hop : opOf calls e = some (if e.cut then cutOp s.op else s.op) := by simp [opOf, hs]
  unfold base opsOn
  rw [List.filter_append, List.filterMap_append, Service.run, Runs.run_append]
  by_cases hid : s.id = id
  · rw [if_pos hid, List.filter_cons_of_pos (by rw [hon]; exact decide_eq_true hid),
      List.filter_nil, List.filterMap_cons, hop]
    rfl
  · rw [if_neg hid, List.filter_cons_of_neg (by rw [hon]; simpa using hid)]
    rfl

/-- How far a call is: its section, the moves it has made in it, and whether it was given up. -/
structure Stage where
  index : Nat
  made : List Move
  alive : Bool

/-- Where one call stands: its sections up to here are in the history, and what is left of its script
are the moves of the others; in the middle of a section, its list is as the moves so far leave it. -/
structure At (calls : ι → Call core lib π) (start : Uuid → Service.State) (hist : List (Entry ι))
    (a : ι) (now : Stage) (st : State ι π Move (Shared ι)) : Prop where
  complete : now.alive = true → ∀ j < now.index, ⟨a, j, false⟩ ∈ hist
  rest : now.alive = true → now.made = [] →
    left (st.agents a).rest = ((calls a).sections.drop now.index).map (Section.moves core lib)
  ended : now.alive = false → now.made = [] ∧ left (st.agents a).rest = []
  middle : now.made ≠ [] → ∃ s todo place, (calls a).sections[now.index]? = some s ∧
    workMoves core lib s.op = now.made ++ todo ∧ todo ≠ [] ∧
    plan (st.agents a).rest = (todo.map (fun m => (s.id, m)),
      ((calls a).sections.drop (now.index + 1)).map (Section.moves core lib)) ∧
    (st.shared.1 s.id, st.shared.2 a) = Lock.whole now.made (base calls start hist s.id) place

/-- What a run has come to: a history of sections, which every list is the outcome of, but for the
section that is under way. -/
structure Inv (calls : ι → Call core lib π) (start : Uuid → Service.State) (hist : List (Entry ι))
    (stage : ι → Stage) (st : State ι π Move (Shared ι)) : Prop where
  ordered : hist.Pairwise fun x y => x.call = y.call → x.index < y.index
  below : ∀ e ∈ hist, e.index < (stage e.call).index
  known : ∀ e ∈ hist, ∃ s, (calls e.call).sections[e.index]? = some s
  cuts : ∀ e ∈ hist, e.cut = true → (stage e.call).alive = false
  each : ∀ a, At calls start hist a (stage a) st
  quiet : ∀ id, (∀ a s, (stage a).made ≠ [] → (calls a).sections[(stage a).index]? = some s →
    s.id ≠ id) → st.shared.1 id = base calls start hist id

variable {start : Uuid → Service.State} {hist : List (Entry ι)} {stage : ι → Stage}
  {st st' : State ι π Move (Shared ι)}

theorem At.elsewhere {a : ι} {now : Stage} {added : List (Entry ι)}
    (h : At calls start hist a now st) (hagent : st'.agents a = st.agents a)
    (hplace : st'.shared.2 a = st.shared.2 a)
    (hlist : ∀ s, now.made ≠ [] → (calls a).sections[now.index]? = some s →
      st'.shared.1 s.id = st.shared.1 s.id ∧
        base calls start (hist ++ added) s.id = base calls start hist s.id) :
    At calls start (hist ++ added) a now st' := by
  refine ⟨fun halive j hj => List.mem_append_left _ (h.complete halive j hj), ?_, ?_,
    fun hmade => ?_⟩
  · rw [hagent]
    exact h.rest
  · rw [hagent]
    exact h.ended
  · obtain ⟨s, todo, place, hs, hmoves, htodo, hplan, hwhole⟩ := h.middle hmade
    obtain ⟨hstate, hbase⟩ := hlist s hmade hs
    refine ⟨s, todo, place, hs, hmoves, htodo, ?_, ?_⟩
    · rw [hagent]
      exact hplan
    · rw [hstate, hplace, hbase]
      exact hwhole

theorem Inv.elsewhere (h : Inv calls start hist stage st) (hshared : st'.shared = st.shared)
    (hleft : ∀ a, left (st'.agents a).rest = left (st.agents a).rest)
    (hplan : ∀ a, (stage a).made ≠ [] → plan (st'.agents a).rest = plan (st.agents a).rest) :
    Inv calls start hist stage st' where
  ordered := h.ordered
  below := h.below
  known := h.known
  cuts := h.cuts
  each := by
    intro a
    refine ⟨(h.each a).complete, ?_, ?_, fun hmade => ?_⟩
    · rw [hleft]
      exact (h.each a).rest
    · rw [hleft]
      exact (h.each a).ended
    · rw [hplan a hmade, hshared]
      exact (h.each a).middle hmade
  quiet := by
    intro id hid
    rw [hshared]
    exact h.quiet id hid

theorem whole_append (made : List Move) (m : Move) (x : Service.State) (place : Place) :
    Lock.whole (made ++ [m]) x place =
      m (Lock.whole made x place).1 (Lock.whole made x place).2 := by
  rw [Lock.whole, List.foldl_append]
  rfl

variable [DecidableEq ι] [DecidableEq π] {procs : π → Process}

omit [DecidableEq π] in
/-- One call goes on in its section or leaves it; the others stand where they stood. -/
theorem Inv.moved (h : Inv calls start hist stage st) {a : ι} {now : Stage}
    {added : List (Entry ι)} (hagents : ∀ b, b ≠ a → st'.agents b = st.agents b)
    (hplaces : ∀ b, b ≠ a → st'.shared.2 b = st.shared.2 b) (hone : added.length ≤ 1)
    (hadded : ∀ e ∈ added, e.call = a ∧ e.index = (stage a).index ∧ (stage a).index < now.index ∧
      (∃ s, (calls a).sections[(stage a).index]? = some s) ∧ (e.cut = true → now.alive = false))
    (hindex : (stage a).index ≤ now.index) (hdead : (stage a).alive = false → now.alive = false)
    (hothers : ∀ b, b ≠ a → ∀ s, (stage b).made ≠ [] → (calls b).sections[(stage b).index]? = some s →
      st'.shared.1 s.id = st.shared.1 s.id ∧
        base calls start (hist ++ added) s.id = base calls start hist s.id)
    (hnow : At calls start (hist ++ added) a now st')
    (hquiet : ∀ id, (∀ b, b ≠ a → ∀ s, (stage b).made ≠ [] →
        (calls b).sections[(stage b).index]? = some s → s.id ≠ id) →
      (∀ s, now.made ≠ [] → (calls a).sections[now.index]? = some s → s.id ≠ id) →
      st'.shared.1 id = base calls start (hist ++ added) id) :
    Inv calls start (hist ++ added) (Function.update stage a now) st' := by
  refine ⟨?_, fun e he => ?_, fun e he => ?_, fun e he hcut => ?_, fun b => ?_, fun id hid => ?_⟩
  · refine List.pairwise_append.mpr ⟨h.ordered, ?_, fun x hx y hy hcall => ?_⟩
    · match added, hone with
      | [], _ => exact List.Pairwise.nil
      | [e], _ => exact List.pairwise_singleton _ e
    · obtain ⟨hcall', hindex', -⟩ := hadded y hy
      have hbelow := h.below x hx
      rwa [hcall, hcall', ← hindex'] at hbelow
  · rcases List.mem_append.mp he with he | he
    · have hbelow := h.below e he
      by_cases hcall : e.call = a
      · rw [hcall] at hbelow ⊢
        rw [Function.update_self]
        exact Nat.lt_of_lt_of_le hbelow hindex
      · rwa [Function.update_of_ne hcall]
    · obtain ⟨hcall, hindex', hlt, -⟩ := hadded e he
      rwa [hcall, Function.update_self, hindex']
  · rcases List.mem_append.mp he with he | he
    · exact h.known e he
    · obtain ⟨hcall, hindex', -, hs, -⟩ := hadded e he
      rwa [hcall, hindex']
  · rcases List.mem_append.mp he with he | he
    · have hcuts := h.cuts e he hcut
      by_cases hcall : e.call = a
      · rw [hcall] at hcuts ⊢
        rw [Function.update_self]
        exact hdead hcuts
      · rwa [Function.update_of_ne hcall]
    · obtain ⟨hcall, -, -, -, hcut'⟩ := hadded e he
      rw [hcall, Function.update_self]
      exact hcut' hcut
  · by_cases hba : b = a
    · subst hba
      rwa [Function.update_self]
    · rw [Function.update_of_ne hba]
      exact (h.each b).elsewhere (hagents b hba) (hplaces b hba) (hothers b hba)
  · refine hquiet id (fun b hba s hmade hs => hid b s ?_ ?_) (fun s hmade hs => hid a s ?_ ?_)
    · rwa [Function.update_of_ne hba]
    · rwa [Function.update_of_ne hba]
    · rwa [Function.update_self]
    · rwa [Function.update_self]

/-- Nobody but one is in the middle of a section on one list. -/
theorem Inv.alone (h : Inv calls start hist stage st) (htallied : OrderedLocks.Tallied (capacity procs) st)
    (hprotected : ∀ a, Protected lockOf (st.agents a).held (st.agents a).rest) {a b : ι}
    {w : Uuid × Move} {more : List (Uuid × Move)} (ha : (plan (st.agents a).rest).1 = w :: more)
    {s : Section} (hb : (stage b).made ≠ [])
    (hs : (calls b).sections[(stage b).index]? = some s) (hid : s.id = w.1) : b = a := by
  obtain ⟨s', todo, place, hs', -, htodo, hplan, -⟩ := (h.each b).middle hb
  obtain rfl := Option.some.inj (hs.symm.trans hs')
  obtain ⟨m, todo, rfl⟩ := List.exists_cons_of_ne_nil htodo
  have hkeyb := lock_of_plan (hprotected b) (congrArg Prod.fst hplan)
  have hkeya := lock_of_plan (hprotected a) ha
  rw [hid] at hkeyb
  exact htallied.exclusive rfl hkeyb hkeya

theorem Inv.before_work (h : Inv calls start hist stage st)
    (htallied : OrderedLocks.Tallied (capacity procs) st)
    (hprotected : ∀ a, Protected lockOf (st.agents a).held (st.agents a).rest) {a : ι} {w : Work Move}
    {more : Script π Move} (hrest : (st.agents a).rest = .work w :: more) :
    (stage a).alive = true ∧ ∃ s todo place, (calls a).sections[(stage a).index]? = some s ∧
      s.id = w.id ∧ workMoves core lib s.op = (stage a).made ++ w.move :: todo ∧
      plan more = (todo.map (fun m => (s.id, m)),
        ((calls a).sections.drop ((stage a).index + 1)).map (Section.moves core lib)) ∧
      (st.shared.1 s.id, st.shared.2 a) =
        Lock.whole (stage a).made (base calls start hist s.id) place := by
  have hplan : plan (st.agents a).rest = ((w.id, w.move) :: (plan more).1, (plan more).2) := by
    rw [hrest, plan_work]
  have hleft : left (st.agents a).rest = ((w.id, w.move) :: (plan more).1) :: (plan more).2 := by
    rw [left, hplan]
    exact if_neg (List.cons_ne_nil _ _)
  have halive : (stage a).alive = true := by
    cases hdead : (stage a).alive with
    | true => rfl
    | false =>
      rw [((h.each a).ended hdead).2] at hleft
      cases hleft
  refine ⟨halive, ?_⟩
  by_cases hmade : (stage a).made = []
  · have hsections := (h.each a).rest halive hmade
    rw [hleft] at hsections
    -- the first move of a section
    cases hdrop : (calls a).sections.drop (stage a).index with
    | nil =>
      rw [hdrop] at hsections
      cases hsections
    | cons s tail =>
      have hs : (calls a).sections[(stage a).index]? = some s := by
        rw [← List.head?_drop, hdrop]
        rfl
      have htail : (calls a).sections.drop ((stage a).index + 1) = tail := by
        rw [← List.tail_drop, hdrop]
        rfl
      rw [hdrop, List.map_cons] at hsections
      obtain ⟨hfirst, hothers⟩ := List.cons.inj hsections
      cases hmoves : workMoves core lib s.op with
      | nil => exact absurd hmoves (workMoves_ne_nil core lib s.op)
      | cons m todo =>
        rw [Section.moves, hmoves, List.map_cons] at hfirst
        obtain ⟨hpair, htodo⟩ := List.cons.inj hfirst
        obtain ⟨hid, rfl⟩ := Prod.mk.inj hpair
        refine ⟨s, todo, st.shared.2 a, hs, hid.symm, by rw [hmade, hmoves]; rfl, ?_, ?_⟩
        · rw [htail, ← hothers, ← htodo]
        · rw [hmade]
          refine Prod.ext (h.quiet s.id fun b s' hb hs' hsame => ?_) rfl
          have hba := h.alone htallied hprotected (congrArg Prod.fst hplan) hb hs'
            (hsame.trans hid.symm)
          rw [hba] at hb
          exact hb hmade
  · obtain ⟨s, todo, place, hs, hmoves, htodo, hplan', hwhole⟩ := (h.each a).middle hmade
    rw [hplan] at hplan'
    obtain ⟨hnow, hlater⟩ := Prod.mk.inj hplan'
    cases todo with
    | nil => exact absurd rfl htodo
    | cons m todo =>
      rw [List.map_cons] at hnow
      obtain ⟨hpair, htodo'⟩ := List.cons.inj hnow
      obtain ⟨hid, rfl⟩ := Prod.mk.inj hpair
      exact ⟨s, todo, place, hs, hid.symm, hmoves, Prod.ext htodo' hlater, hwhole⟩

omit [DecidableEq π] in
theorem Inv.quiet_elsewhere (h : Inv calls start hist stage st) {a : ι} {s : Section}
    (hs : (calls a).sections[(stage a).index]? = some s) {id : Uuid} (hne : id ≠ s.id)
    (hothers : ∀ b, b ≠ a → ∀ s', (stage b).made ≠ [] →
      (calls b).sections[(stage b).index]? = some s' → s'.id ≠ id) :
    st.shared.1 id = base calls start hist id := by
  refine h.quiet id fun b s' hmade hs' => ?_
  by_cases hba : b = a
  · subst hba
    obtain rfl := Option.some.inj (hs.symm.trans hs')
    exact hne.symm
  · exact hothers b hba s' hmade hs'

/-- A move keeps what holds: the section goes on, or it is done and the history has it. -/
theorem Inv.work (h : Inv calls start hist stage st)
    (htallied : OrderedLocks.Tallied (capacity procs) st)
    (hprotected : ∀ a, Protected lockOf (st.agents a).held (st.agents a).rest) {a : ι} {w : Work Move}
    {more : Script π Move} {held : List (Resource π)} (hagent : st.agents a = ⟨held, .work w :: more⟩) :
    ∃ hist' stage', Inv calls start hist' stage'
        (⟨st.holders, Function.update st.agents a ⟨held, more⟩, act a w st.shared⟩ :
          State ι π Move (Shared ι)) ∧
      ∀ b, (stage' b).alive = (stage b).alive := by
  have hrest : (st.agents a).rest = .work w :: more := by rw [hagent]
  obtain ⟨halive, s, todo, place, hs, hid, hmoves, hplan, hwhole⟩ :=
    h.before_work htallied hprotected hrest
  have hnow : (plan (st.agents a).rest).1 = (w.id, w.move) :: (plan more).1 := by
    rw [hrest, plan_work]
  have hapart : ∀ b, b ≠ a → ∀ s', (stage b).made ≠ [] → (calls b).sections[(stage b).index]? =
      some s' → s'.id ≠ s.id := fun b hb s' hmade hs' heq =>
    hb (h.alone htallied hprotected hnow hmade hs' (heq.trans hid))
  have hmade : (act a w st.shared).1 s.id = (Lock.whole ((stage a).made ++ [w.move])
      (base calls start hist s.id) place).1 ∧ (act a w st.shared).2 a =
      (Lock.whole ((stage a).made ++ [w.move]) (base calls start hist s.id) place).2 := by
    rw [whole_append, ← hwhole]
    simp only [act, ← hid, Function.update_self, and_self]
  have helse : ∀ id, id ≠ s.id → (act a w st.shared).1 id = st.shared.1 id := fun id hne =>
    Function.update_of_ne (by rw [← hid]; exact hne) _ _
  have hplaces : ∀ b, b ≠ a → (act a w st.shared).2 b = st.shared.2 b := fun b hb =>
    Function.update_of_ne hb _ _
  have hagents : ∀ b, b ≠ a → Function.update st.agents a ⟨held, more⟩ b = st.agents b :=
    fun b hb => Function.update_of_ne hb _ _
  have hkept : ∀ {index : Nat} {made : List Move} (b : ι),
      (Function.update stage a ⟨index, made, true⟩ b).alive = (stage b).alive := by
    intro index made b
    by_cases hba : b = a
    · subst hba
      rw [Function.update_self, halive]
    · rw [Function.update_of_ne hba]
  cases todo with
  | nil =>
    have hbase : ∀ id, base calls start (hist ++ [⟨a, (stage a).index, false⟩]) id =
        if s.id = id then step core lib s.op (base calls start hist id)
        else base calls start hist id := fun id =>
      @base_append _ _ _ _ calls start hist ⟨a, (stage a).index, false⟩ s hs id
    refine ⟨hist ++ [⟨a, (stage a).index, false⟩],
      Function.update stage a ⟨(stage a).index + 1, [], true⟩,
      h.moved hagents hplaces (Nat.le_refl 1) (fun e he => ?_) (Nat.le_succ _)
        (fun hdead => by rw [halive] at hdead; cases hdead) (fun b hba s' hb hs' => ?_)
        ⟨fun _ j hj => ?_, fun _ _ => ?_, fun hdead => (nomatch hdead), fun hnil => absurd rfl hnil⟩
        (fun id hothers _ => ?_), hkept⟩
    · rw [List.mem_singleton.mp he]
      exact ⟨rfl, rfl, Nat.lt_succ_self _, ⟨s, hs⟩, fun hcut => (nomatch hcut)⟩
    · have hne := hapart b hba s' hb hs'
      exact ⟨helse _ hne, by rw [hbase, if_neg (Ne.symm hne)]⟩
    · rcases Nat.lt_succ_iff_lt_or_eq.mp hj with hj | rfl
      · exact List.mem_append_left _ ((h.each a).complete halive j hj)
      · exact List.mem_append_right _ (List.mem_singleton_self _)
    · simp only [Function.update_self]
      rw [left_of_plan (by rw [hplan]; rfl), hplan]
    · rw [hbase]
      by_cases hid' : s.id = id
      · subst hid'
        rw [if_pos rfl]
        refine hmade.1.trans ?_
        rw [← hmoves, whole_workMoves]
      · rw [if_neg hid']
        exact (helse id (Ne.symm hid')).trans (h.quiet_elsewhere hs (Ne.symm hid') hothers)
  | cons m todo =>
    have hinv := @Inv.moved _ _ _ _ calls start hist stage st
      ⟨st.holders, Function.update st.agents a ⟨held, more⟩, act a w st.shared⟩ _ h a
      ⟨(stage a).index, (stage a).made ++ [w.move], true⟩ [] hagents hplaces (Nat.zero_le 1)
      (fun e he => (List.not_mem_nil he).elim) (Nat.le_refl _)
      (fun hdead => by rw [halive] at hdead; cases hdead)
      (fun b hba s' hb hs' => ⟨helse _ (hapart b hba s' hb hs'), by rw [List.append_nil]⟩)
    rw [List.append_nil] at hinv
    refine ⟨hist, _, hinv ⟨fun _ => (h.each a).complete halive, fun _ hnil => ?_,
      fun hdead => (nomatch hdead), fun _ => ?_⟩ (fun id hothers hhere => ?_), hkept⟩
    · exact absurd hnil (by simp)
    · refine ⟨s, m :: todo, place, hs, ?_, List.cons_ne_nil _ _, ?_, Prod.ext hmade.1 hmade.2⟩
      · rw [hmoves, List.append_assoc]
        rfl
      · simp only [Function.update_self]
        exact hplan
    · have hne : id ≠ s.id := fun heq => hhere s (by simp) hs heq.symm
      exact (helse id hne).trans (h.quiet_elsewhere hs hne hothers)

/-- A call that is given up in the middle of a section has cut it short. -/
theorem Inv.giveUp (h : Inv calls start hist stage st)
    (htallied : OrderedLocks.Tallied (capacity procs) st)
    (hprotected : ∀ a, Protected lockOf (st.agents a).held (st.agents a).rest) (a : ι) :
    ∃ hist' stage', Inv calls start hist' stage' (OrderedLocks.giveUp abandon a .idle st) ∧
      ∀ b, b ≠ a → (stage' b).alive = (stage b).alive := by
  have hgone : left ((OrderedLocks.giveUp abandon a .idle st).agents a).rest = [] := by
    simp only [OrderedLocks.giveUp, Function.update_self]
    exact left_abandon _ _
  have hagents : ∀ b, b ≠ a → (OrderedLocks.giveUp abandon a .idle st).agents b = st.agents b :=
    fun b hb => Function.update_of_ne hb _ _
  have hkept : ∀ {now : Stage} b, b ≠ a → (Function.update stage a now b).alive = (stage b).alive :=
    fun b hba => by rw [Function.update_of_ne hba]
  by_cases hmade : (stage a).made = []
  · have hinv := @Inv.moved _ _ _ _ calls start hist stage st
      (OrderedLocks.giveUp abandon a .idle st) _ h a ⟨(stage a).index, [], false⟩ [] hagents
      (fun _ _ => rfl) (Nat.zero_le 1) (fun e he => (List.not_mem_nil he).elim) (Nat.le_refl _)
      (fun _ => rfl) (fun b hba s hb hs => ⟨rfl, by rw [List.append_nil]⟩)
    rw [List.append_nil] at hinv
    refine ⟨hist, _, hinv ⟨fun halive => absurd halive Bool.false_ne_true, fun halive => absurd halive Bool.false_ne_true,
      fun _ => ⟨rfl, hgone⟩, fun hnil => absurd rfl hnil⟩ (fun id hothers _ => ?_), hkept⟩
    refine h.quiet id fun b s hb hs => ?_
    by_cases hba : b = a
    · subst hba
      exact absurd hmade hb
    · exact hothers b hba s hb hs
  · obtain ⟨s, todo, place, hs, hmoves, htodo, hplan, hwhole⟩ := (h.each a).middle hmade
    have hapart : ∀ b, b ≠ a → ∀ s', (stage b).made ≠ [] → (calls b).sections[(stage b).index]? =
        some s' → s'.id ≠ s.id := by
      obtain ⟨m, todo, rfl⟩ := List.exists_cons_of_ne_nil htodo
      exact fun b hb s' hmadeb hs' heq => hb (h.alone htallied hprotected
        (congrArg Prod.fst hplan) hmadeb hs' heq)
    have hbase : ∀ id, base calls start (hist ++ [⟨a, (stage a).index, true⟩]) id =
        if s.id = id then step core lib (cutOp s.op) (base calls start hist id)
        else base calls start hist id := fun id =>
      @base_append _ _ _ _ calls start hist ⟨a, (stage a).index, true⟩ s hs id
    refine ⟨hist ++ [⟨a, (stage a).index, true⟩],
      Function.update stage a ⟨(stage a).index + 1, [], false⟩,
      h.moved hagents (fun _ _ => rfl) (Nat.le_refl 1) (fun e he => ?_) (Nat.le_succ _)
        (fun _ => rfl) (fun b hba s' hb hs' => ⟨rfl, ?_⟩)
        ⟨fun halive => absurd halive Bool.false_ne_true, fun halive => absurd halive Bool.false_ne_true, fun _ => ⟨rfl, hgone⟩,
          fun hnil => absurd rfl hnil⟩
        (fun id hothers _ => ?_), hkept⟩
    · rw [List.mem_singleton.mp he]
      exact ⟨rfl, rfl, Nat.lt_succ_self _, ⟨s, hs⟩, fun _ => rfl⟩
    · rw [hbase, if_neg (Ne.symm (hapart b hba s' hb hs'))]
    · rw [hbase]
      by_cases hid : s.id = id
      · subst hid
        rw [if_pos rfl, ← whole_cut core lib s.op hmoves hmade htodo _ place, ← hwhole]
        rfl
      · rw [if_neg hid]
        exact h.quiet_elsewhere hs (Ne.symm hid) hothers

theorem Inv.next (h : Inv calls start hist stage st)
    (htallied : OrderedLocks.Tallied (capacity procs) st)
    (hprotected : ∀ a, Protected lockOf (st.agents a).held (st.agents a).rest)
    (op : OrderedLocks.Op ι Drop) (hidle : ∀ a, op ≠ .giveUp a .working) : ∃ hist' stage',
      Inv calls start hist' stage' (OrderedLocks.step (capacity procs) act abandon op st) ∧
      ∀ b, op ≠ .giveUp b .idle → (stage' b).alive = (stage b).alive := by
  cases op with
  | giveUp a how =>
    cases how with
    | working => exact absurd rfl (hidle a)
    | idle =>
      obtain ⟨hist', stage', hinv, halive⟩ := h.giveUp htallied hprotected a
      exact ⟨hist', stage', hinv, fun b hb => halive b fun hba => hb (by rw [hba])⟩
  | go a =>
    simp only [OrderedLocks.step, OrderedLocks.go]
    rcases hagent : st.agents a with ⟨held, _ | ⟨r | r | w, more⟩⟩
    · exact ⟨hist, stage, h, fun _ _ => rfl⟩
    · dsimp only
      split_ifs with hfree
      · refine ⟨hist, stage, h.elsewhere rfl (fun b => ?_) (fun b hb => ?_), fun _ _ => rfl⟩
        · by_cases hba : b = a
          · subst hba
            simp only [Function.update_self, hagent]
            exact (left_take r more).symm
          · simp only [Function.update_of_ne hba]
        · by_cases hba : b = a
          · subst hba
            simp only [Function.update_self, hagent]
            by_cases hkey : ∃ k, r = .key k
            · -- in the middle of a section no further advisory lock is taken
              obtain ⟨k, rfl⟩ := hkey
              obtain ⟨s, todo, place, -, -, htodo, hplan, -⟩ := (h.each b).middle hb
              rw [hagent, plan_take_key] at hplan
              exact absurd (List.map_eq_nil_iff.mp (congrArg Prod.fst hplan).symm) htodo
            · exact (plan_take_of_ne (fun k heq => hkey ⟨k, heq⟩) more).symm
          · simp only [Function.update_of_ne hba]
      · exact ⟨hist, stage, h, fun _ _ => rfl⟩
    · refine ⟨hist, stage, h.elsewhere rfl (fun b => ?_) (fun b hb => ?_), fun _ _ => rfl⟩
      · by_cases hba : b = a
        · subst hba
          simp only [Function.update_self, hagent]
          exact (left_free r more).symm
        · simp only [Function.update_of_ne hba]
      · by_cases hba : b = a
        · subst hba
          simp only [Function.update_self, hagent, plan_free]
        · simp only [Function.update_of_ne hba]
    · obtain ⟨hist', stage', hinv, halive⟩ := h.work htallied hprotected hagent
      exact ⟨hist', stage', hinv, fun b _ => halive b⟩

variable (procs) (calls) (start)

/-- The calls of several processes, before the first of them does anything. -/
def initial : State ι π Move (Shared ι) :=
  RepoGuard.initial procs (fun a => ((calls a).process, (calls a).jobs)) (start, fun _ => .called)

/-- The calls after a schedule. -/
def after (ops : List (OrderedLocks.Op ι Drop)) : State ι π Move (Shared ι) :=
  RepoGuard.run procs act ops (initial calls start procs)

omit [DecidableEq ι] [DecidableEq π] in
theorem inv_initial :
    Inv calls start [] (fun _ => ⟨0, [], true⟩) (initial calls start procs) := by
  refine ⟨List.Pairwise.nil, fun e he => (List.not_mem_nil he).elim,
    fun e he => (List.not_mem_nil he).elim, fun e he => (List.not_mem_nil he).elim,
    fun a => ⟨fun _ j hj => (Nat.not_lt_zero j hj).elim, fun _ _ => ?_, fun ha => (nomatch ha),
      fun ha => absurd rfl ha⟩, fun id _ => rfl⟩
  · have hparts : ∀ part ∈ (calls a).jobs.flatMap Job.moves, part ≠ [] := by
      intro part hpart
      rw [(calls a).performs] at hpart
      obtain ⟨s, -, rfl⟩ := List.mem_map.mp hpart
      exact fun hnil => workMoves_ne_nil core lib s.op (List.map_eq_nil_iff.mp hnil)
    have hplan := plan_callScript procs (calls a).process (calls a).jobs hparts
    change left (callScript procs (calls a).process (calls a).jobs) = _
    rw [left_of_plan (by rw [hplan]), hplan, (calls a).performs, List.drop_zero]

theorem inv_after (ops : List (OrderedLocks.Op ι Drop)) (hidle : ∀ a, .giveUp a .working ∉ ops) :
    ∃ hist stage,
    Inv calls start hist stage (after calls start procs ops) ∧
    OrderedLocks.Tallied (capacity procs) (after calls start procs ops) ∧
    (∀ a, Protected lockOf ((after calls start procs ops).agents a).held
      ((after calls start procs ops).agents a).rest) ∧
    ∀ a, .giveUp a .idle ∉ ops → (stage a).alive = true := by
  induction ops using List.reverseRecOn with
  | nil => exact ⟨[], _, inv_initial calls start procs, OrderedLocks.tallied_initial _ _,
      fun a => protected_callScript lockOf _ (fun _ _ _ => List.mem_cons_self) _ _, fun _ _ => rfl⟩
  | append_singleton ops op ih =>
    obtain ⟨hist, stage, hinv, htallied, hprotected, halive⟩ :=
      ih fun a hmem => hidle a (List.mem_append_left _ hmem)
    have hnow : ∀ a, op ≠ .giveUp a .working := fun a hop => hidle a (by
      rw [hop]
      exact List.mem_append_right _ (List.mem_singleton_self _))
    have hrun : after calls start procs (ops ++ [op]) =
        OrderedLocks.step (capacity procs) act abandon op (after calls start procs ops) := by
      rw [after, RepoGuard.run, OrderedLocks.run, Runs.run_append]
      rfl
    obtain ⟨hist', stage', hinv', hkept⟩ := hinv.next htallied hprotected op hnow
    rw [hrun]
    refine ⟨hist', stage', hinv', OrderedLocks.tallied_step op htallied,
      fun a => OrderedLocks.inherited_step (OrderedLocks.inherited_protected lockOf) op
        (fun how held rest hop _ => ?_) (hprotected a), fun a ha => ?_⟩
    · cases how with
      | working => exact absurd hop (hnow a)
      | idle => exact protected_abandon held rest
    rw [hkept a fun hop => ha (by
      rw [hop]
      exact List.mem_append_right _ (List.mem_singleton_self _))]
    exact halive a fun hmem => ha (List.mem_append_left _ hmem)

/-- However many processes there are, and whatever calls are dropped while no thread works for them:
at every moment each list is as a run of whole operations leaves it, one for each section of a call,
in the order of the call and never twice. A call that is over and was not given up has all its
sections in there; one that is there cut short was given up or is still under way. -/
theorem guarded_runs_are_runs (ops : List (OrderedLocks.Op ι Drop))
    (hidle : ∀ a, .giveUp a .working ∉ ops) (id : Uuid) :
    ∃ hist : List (Entry ι), hist.Pairwise (fun x y => x.call = y.call → x.index < y.index) ∧
      (∀ e ∈ hist, ∃ s, (calls e.call).sections[e.index]? = some s ∧ s.id = id) ∧
      (after calls start procs ops).shared.1 id =
        Service.run core lib (hist.filterMap (opOf calls)) (start id) ∧
      (∀ a, .giveUp a .idle ∉ ops → ((after calls start procs ops).agents a).rest = [] →
        ∀ j s, (calls a).sections[j]? = some s → s.id = id → ⟨a, j, false⟩ ∈ hist) ∧
      ∀ e ∈ hist, e.cut = true →
        .giveUp e.call .idle ∈ ops ∨ ((after calls start procs ops).agents e.call).rest ≠ [] := by
  obtain ⟨hist, stage, hinv, -, -, halive⟩ := inv_after calls start procs ops hidle
  generalize after calls start procs ops = st at hinv ⊢
  have hgiven : ∀ a, (stage a).alive = false → .giveUp a .idle ∈ ops := by
    intro a ha
    by_contra hnot
    rw [halive a hnot] at ha
    cases ha
  have hpairwise : (hist.filter (onList calls id)).Pairwise
      fun x y => x.call = y.call → x.index < y.index := hinv.ordered.filter _
  have hknown : ∀ e ∈ hist.filter (onList calls id),
      ∃ s, (calls e.call).sections[e.index]? = some s ∧ s.id = id := by
    intro e he
    obtain ⟨he, hon⟩ := List.mem_filter.mp he
    obtain ⟨s, hs⟩ := hinv.known e he
    refine ⟨s, hs, ?_⟩
    simpa [onList, hs] using hon
  have hcomplete : ∀ a, .giveUp a .idle ∉ ops → (st.agents a).rest = [] → ∀ j s,
      (calls a).sections[j]? = some s → s.id = id →
      (⟨a, j, false⟩ : Entry ι) ∈ hist.filter (onList calls id) := by
    intro a ha hrest j s hs hid
    have hmade : (stage a).made = [] := by
      by_contra hmade
      obtain ⟨s', todo, place, -, -, htodo, hplan, -⟩ := (hinv.each a).middle hmade
      rw [hrest] at hplan
      exact htodo (List.map_eq_nil_iff.mp (congrArg Prod.fst hplan).symm)
    have hsections := (hinv.each a).rest (halive a ha) hmade
    rw [hrest] at hsections
    have hdrop := List.map_eq_nil_iff.mp (show _ = [] from hsections.symm)
    have hlength := List.drop_eq_nil_iff.mp hdrop
    have hj : j < (calls a).sections.length := (List.getElem?_eq_some_iff.mp hs).1
    refine List.mem_filter.mpr ⟨(hinv.each a).complete (halive a ha) j (by omega), ?_⟩
    simp [onList, hs, hid]
  have hcuts : ∀ e ∈ hist.filter (onList calls id), e.cut = true → .giveUp e.call .idle ∈ ops :=
    fun e he hcut => hgiven _ (hinv.cuts e (List.mem_of_mem_filter he) hcut)
  by_cases hmiddle : ∀ a s, (stage a).made ≠ [] →
      (calls a).sections[(stage a).index]? = some s → s.id ≠ id
  · exact ⟨hist.filter (onList calls id), hpairwise, hknown, hinv.quiet id hmiddle, hcomplete,
      fun e he hcut => Or.inl (hcuts e he hcut)⟩
  · -- the section under way counts as cut short for now
    push Not at hmiddle
    obtain ⟨a, s, hmade, hs, hid⟩ := hmiddle
    obtain ⟨s', todo, place, hs', hmoves, htodo, hplan, hwhole⟩ := (hinv.each a).middle hmade
    obtain rfl := Option.some.inj (hs.symm.trans hs')
    subst hid
    refine ⟨hist.filter (onList calls s.id) ++ [⟨a, (stage a).index, true⟩], ?_, fun e he => ?_, ?_,
      fun b hb hrest j s' hj hid => List.mem_append_left _ (hcomplete b hb hrest j s' hj hid),
      fun e he hcut => ?_⟩
    · refine List.pairwise_append.mpr ⟨hpairwise, List.pairwise_singleton _ _, fun x hx y hy hcall => ?_⟩
      obtain rfl := List.mem_singleton.mp hy
      have hbelow := hinv.below x (List.mem_of_mem_filter hx)
      rwa [hcall] at hbelow
    · rcases List.mem_append.mp he with he | he
      · exact hknown e he
      · rw [List.mem_singleton.mp he]
        exact ⟨s, hs, rfl⟩
    · have hop : opOf calls ⟨a, (stage a).index, true⟩ = some (cutOp s.op) := by simp [opOf, hs]
      rw [List.filterMap_append, List.filterMap_cons, hop, Service.run, Runs.run_append]
      change st.shared.1 s.id = step core lib (cutOp s.op) (base calls start hist s.id)
      rw [← whole_cut core lib s.op hmoves hmade htodo _ place, ← hwhole]
    · rcases List.mem_append.mp he with he | he
      · exact Or.inl (hcuts e he hcut)
      · rw [List.mem_singleton.mp he]
        refine Or.inr fun hrest => htodo ?_
        rw [hrest] at hplan
        exact List.map_eq_nil_iff.mp (congrArg Prod.fst hplan).symm

end Runs

/-- Two servers; each aligns the repository of one list and saves the list then. -/
noncomputable def twoCalls (p : Bool) : Call canonCore plainLibrary Bool :=
  Call.ofSections canonCore plainLibrary p
    [⟨Uuid.repeated 0, .ensure (steady 0), trivial⟩,
      ⟨Uuid.repeated 0, .web plainWrite (markEdit p), trivial⟩]

/-- The second call has to wait for the first, and the first for the second after that. -/
def turns : List (OrderedLocks.Op Bool Drop) :=
  (List.replicate 4 true ++ List.replicate 3 false ++ List.replicate 5 true ++
    List.replicate 3 false ++ List.replicate 3 true ++ List.replicate 17 false ++
    List.replicate 11 true).map .go

theorem guarded_runs_are_runs_two :
    let now := after twoCalls (fun _ => ⟨.repo markedRefs, some markedList⟩)
      (fun _ => ⟨true, none, none⟩) turns
    (∀ a, (now.agents a).rest = []) ∧
    ∃ hist : List (Entry Bool), hist.Perm [⟨true, 0, false⟩, ⟨true, 1, false⟩, ⟨false, 0, false⟩,
        ⟨false, 1, false⟩] ∧
      hist.Pairwise (fun x y => x.call = y.call → x.index < y.index) ∧
      now.shared.1 (Uuid.repeated 0) = Service.run canonCore plainLibrary
        (hist.filterMap (opOf twoCalls)) ⟨.repo markedRefs, some markedList⟩ ∧
      (now.shared.1 (Uuid.repeated 0)).list.map ListState.currentVersion = some 3 := by
  intro now
  have hends : ∀ a, (now.agents a).rest = [] := fun a => by
    rw [← List.isEmpty_iff]
    revert a
    decide +kernel
  refine ⟨hends, ?_⟩
  have hgoes : ∀ a how, OrderedLocks.Op.giveUp a how ∉ turns := by
    intro a how h
    obtain ⟨b, -, hb⟩ := List.mem_map.mp h
    cases hb
  obtain ⟨hist, hordered, hknown, hshared, hcomplete, hcuts⟩ := guarded_runs_are_runs twoCalls
    (fun _ => ⟨.repo markedRefs, some markedList⟩) (fun _ => ⟨true, none, none⟩) turns
    (fun a => hgoes a .working) (Uuid.repeated 0)
  have hperm : hist.Perm [⟨true, 0, false⟩, ⟨true, 1, false⟩, ⟨false, 0, false⟩,
      ⟨false, 1, false⟩] := by
    have hnodup : hist.Nodup := hordered.imp fun hxy heq => by
      have hlt := hxy (congrArg Entry.call heq)
      rw [heq] at hlt
      exact Nat.lt_irrefl _ hlt
    refine (List.perm_ext_iff_of_nodup hnodup (by simp)).mpr fun e => ⟨fun he => ?_, fun he => ?_⟩
    · obtain ⟨s, hs, -⟩ := hknown e he
      have hwhole : e.cut = false := by
        by_contra hcut
        rcases hcuts e he (by simpa using hcut) with hgiven | hrest
        · exact hgoes _ _ hgiven
        · exact hrest (hends _)
      obtain ⟨call, index, cut⟩ := e
      obtain rfl : cut = false := hwhole
      have hindex : index < 2 := (List.getElem?_eq_some_iff.mp hs).1
      interval_cases index <;> cases call <;> simp
    · simp only [List.mem_cons, List.not_mem_nil, or_false] at he
      rcases he with rfl | rfl | rfl | rfl
      · exact hcomplete _ (hgoes _ _) (hends _) 0 _ rfl rfl
      · exact hcomplete _ (hgoes _ _) (hends _) 1 _ rfl rfl
      · exact hcomplete _ (hgoes _ _) (hends _) 0 _ rfl rfl
      · exact hcomplete _ (hgoes _ _) (hends _) 1 _ rfl rfl
  refine ⟨hist, hperm, hordered, hshared, ?_⟩
  have hops := hperm.filterMap (opOf twoCalls)
  have hcalm : ∀ op ∈ hist.filterMap (opOf twoCalls), Calm op := by
    intro op hop
    have hmem : op ∈ [Op.ensure (steady 0), .web plainWrite (markEdit true), .ensure (steady 0),
        .web plainWrite (markEdit false)] := hops.mem_iff.mp hop
    simp only [List.mem_cons, List.not_mem_nil, or_false] at hmem
    rcases hmem with rfl | rfl | rfl | rfl
    · trivial
    · exact ⟨rfl, rfl, rfl⟩
    · trivial
    · exact ⟨rfl, rfl, rfl⟩
  have hlength : ((hist.filterMap (opOf twoCalls)).filterMap savedEdit).length = 2 :=
    (hops.filterMap savedEdit).length_eq
  have hnames : CarriedTree.NamesFree canonCore.reserved := fun _ _ _ _ => rfl
  obtain ⟨last, refs, hrun, -⟩ := @run_calm canonCore plainLibrary hnames _ hcalm _ _ _
    markedRefs_ready (by rw [hlength]; decide)
  rw [hshared, hrun, Option.map_some, currentVersion_saved, hlength]
  rfl

end Setfork.GuardedCalls
