/- DroppedCalls
   digest: A push that is dropped while git takes it in: the guard is free, the thread goes on, and
   an edit that has been aligned before buries the pushed commit. -/
import Setfork.ConcurrentWriters
import Setfork.GuardedCalls
import Setfork.Healing

set_option autoImplicit false
set_option relaxedAutoImplicit false

namespace Setfork.DroppedCalls

open Setfork.Foundation
open Setfork.Foundation.OrderedLocks (Instr Ordered Alone heldAfter worksOf)
open Setfork.Rows
open Setfork.Repository
open Setfork.History
open Setfork.Alignment
open Setfork.WebVersion
open Setfork.Push
open Setfork.Service
open Setfork.Healing (Agree sync_of_agree agree_of_tagged firstCommit markedList markedRefs
  markedRefs_main markedRefs_agree markEdit)
open Setfork.TagRuns (Beside ensureRepo_of_agree)
open Setfork.RepoGuard
open Setfork.GuardedCalls

section States

variable {core : Core} {lib : GitLibrary} {refs : Refs} {s : ListState} {d : Commit}

theorem receiveMove_moved (f : PushFaults) (env : HookEnv) (commands : List RefCommand)
    (place : Writers.Place)
    (hmoved : (received lib f.applied env refs commands).lookup mainRef = some (.commit d)) :
    ∃ pushed, (Writers.receiveMove lib f env commands ⟨.repo refs, some s⟩ place).1 =
        ⟨.repo pushed, some s⟩ ∧
      pushed.lookup mainRef = some (.commit d) ∧ Beside refs pushed := by
  have hbeside : Beside refs (received lib f.applied env refs commands) :=
    ⟨fun _ href => Received.lookup_received_of_tag f.applied env refs commands href,
      Received.main_received f.applied env refs commands⟩
  cases hanswered : f.answered with
  | false =>
    refine ⟨received lib f.applied env refs commands, ?_, hmoved, hbeside⟩
    simp [Writers.receiveMove, hanswered]
  | true =>
    refine ⟨(takeMagicPushes f.magic env.actor refs
      (received lib f.applied env refs commands)).1, ?_, ?_, TagRuns.beside_received ..⟩
    · simp [Writers.receiveMove, hanswered]
    · rw [Received.lookup_takeMagicPushes_main]
      exact hmoved

/-- Nothing fails in a write. -/
def steadyWrite (now : Int) : WebFaults :=
  ⟨steady now, true, true, now, ⟨true, fun _ => true⟩, .done⟩

theorem write_over_pushed {pushed : Refs} {edit : WebEdit} {now : Int} {c : Commit}
    (hagree : Agree refs s) (hroom : s.currentVersion < 2147483647)
    (hnew : ∀ ref, (tagVersion ref).isSome = true → refs.lookup ref ≠ some (.commit d))
    (hmain : pushed.lookup mainRef = some (.commit d)) (hbeside : Beside refs pushed)
    (hedit : Acceptable core pushed s edit now (some d) c) :
    ∃ written c, writeVersion core (steadyWrite now) pushed s edit =
        ⟨.repo written, some (editedList s edit now), .ok (s.currentVersion + 1)⟩ ∧
      written.lookup mainRef = some (.commit c) ∧ c.parents = [d] ∧
      (∀ ref, (tagVersion ref).isSome = true → written.lookup ref ≠ some (.commit d)) ∧
      Agree written (editedList s edit now) := by
  rcases writeVersion_cases core (steadyWrite now) pushed s edit with
    ⟨-, hnone⟩ | ⟨parent, made, hmade, -, -, ⟨htag, -⟩ | ⟨-, hdisk, hlist, hok⟩⟩
  · cases hnone _ _ hedit rfl
  · cases htag
  · have hparent : parent = some d := by
      have hsame := hmade.main.symm.trans hmain
      cases parent with
      | none => cases hsame
      | some p => rw [Target.commit.inj (Option.some.inj hsame)]
    subst hparent
    have hparents : made.parents = [d] := by
      obtain ⟨t, -, rfl⟩ := Option.map_eq_some_iff.mp hmade.commit
      rfl
    have hparentOf : made.IsParent d := by
      rw [Commit.IsParent, hparents]
      exact List.mem_singleton_self d
    have hne : made ≠ d := Commit.ne_of_isParent_reaches .refl hparentOf
    refine ⟨(pushed.insert mainRef (.commit made)).insert
      (tagRef (versionTag (s.currentVersion + 1))) (.commit made), made, ?_, ?_, hparents,
      fun ref href => ?_, ?_⟩
    · rcases hwrite : writeVersion core (steadyWrite now) pushed s edit with ⟨disk, list, outcome⟩
      rw [hwrite] at hdisk hlist hok
      rw [show disk = _ from hdisk, show list = _ from hlist, show outcome = _ from hok]
      rfl
    · rw [AList.lookup_insert_ne (tagRef_ne_mainRef _).symm, AList.lookup_insert]
    · by_cases htag : ref = tagRef (versionTag (s.currentVersion + 1))
      · rw [htag, AList.lookup_insert]
        exact fun heq => hne (Target.commit.inj (Option.some.inj heq))
      · have hmainRef : ref ≠ mainRef := by
          rintro rfl
          rw [tagVersion_mainRef] at href
          cases href
        rw [AList.lookup_insert_ne htag, AList.lookup_insert_ne hmainRef, hbeside.tags ref href]
        exact hnew ref href
    · have hmax : maxTagIn (pushed.insert mainRef (.commit made)) = maxTagIn refs := by
        rw [maxTagIn_insert_main, ConcurrentWriters.maxTagIn_of_beside hbeside]
      have hborn := hagree.born
      have hhighest := hagree.highest
      exact agree_of_tagged hroom (by omega) (AList.lookup_insert _) (by rw [hmax]; omega)
        ⟨rfl, _, rfl, rfl⟩ hagree.rows

end States

section Schedule

variable {π : Type} (procs : π → Process) (core : Core) (lib : GitLibrary)

/-- A push of a list. -/
def pushCall (p : π) (id : Uuid) (g : SyncFaults) (f : PushFaults) (env : HookEnv)
    (commands : List RefCommand) : Call core lib π :=
  Call.ofSections core lib p [⟨id, .ensure g, trivial⟩, ⟨id, .push f env commands, trivial⟩]

/-- An edit of a list. -/
def editCall (p : π) (id : Uuid) (g : SyncFaults) (f : WebFaults) (edit : WebEdit) :
    Call core lib π :=
  Call.ofSections core lib p [⟨id, .ensure g, trivial⟩, ⟨id, .web f edit, trivial⟩]

/-- What a call does to make its repository sure, and to get the guard of its work. -/
def untilGuarded (p : π) (id : Uuid) (g : SyncFaults) : Script π Writers.Move :=
  Job.script procs p (.guarded id (deeds core lib (.ensure g))) ++ repoGuard procs p id

theorem script_push (p : π) (id : Uuid) (g : SyncFaults) (f : PushFaults) (env : HookEnv)
    (commands : List RefCommand) :
    callScript procs p (pushCall core lib p id g f env commands).jobs =
      untilGuarded procs core lib p id g ++
        (.work ⟨id, Writers.receiveMove lib f env commands,
          some (Writers.receiveMove lib f env commands)⟩ ::
        (Deed.script p id (.transaction (Writers.projectMove core f.first f.second) none) ++
          dropGuard procs p id)) := by
  simp [callScript, pushCall, Call.ofSections, untilGuarded, Job.script, deeds, Deed.script]

theorem script_edit (p : π) (id : Uuid) (g : SyncFaults) (f : WebFaults) (edit : WebEdit) :
    callScript procs p (editCall core lib p id g f edit).jobs =
      (untilGuarded procs core lib p id g ++
        [.take (.conn p), .free (.conn p), .work ⟨id, Writers.alignMove core f.sync,
          some (Writers.alignMove core f.sync)⟩]) ++
      (Deed.script p id (.transaction (Writers.writeMove core f edit)
          (some (Writers.writeMove core { f with tail := .failed } edit))) ++
        dropGuard procs p id) := by
  simp [callScript, editCall, Call.ofSections, untilGuarded, Job.script, deeds, Deed.script]

variable {procs} {core} {lib} [DecidableEq π]

theorem inOrder_sections {p : π} (hserves : (procs p).serves = true) (sections : List Section) :
    InOrder (fun _ => false) []
      (callScript procs p (Call.ofSections core lib p sections).jobs) := by
  refine Ordered.flatMap fun job hjob => ?_
  obtain ⟨s, -, rfl⟩ := List.mem_map.mp hjob
  exact inOrder_guarded procs hserves rfl _

theorem heldAfter_untilGuarded {p : π} (hserves : (procs p).serves = true) (id : Uuid)
    (g : SyncFaults) :
    heldAfter [] (untilGuarded procs core lib p id g) = guardHeld p id := by
  have hpool : lockPool procs p = .lockConn p := if_pos hserves
  simp [untilGuarded, Job.script, repoGuard, dropGuard, deeds, Deed.script, Writers.workMoves,
    hpool, heldAfter, guardHeld]

theorem run_part {ι : Type} [DecidableEq ι] {act : ι → Work Writers.Move → Shared ι → Shared ι}
    {a : ι} {st : State ι π Writers.Move (Shared ι)} {held : List (Resource π)}
    {script rest : Script π Writers.Move} (h : Alone a st)
    (hordered : InOrder (fun _ => false) held (script ++ rest))
    (hagent : st.agents a = ⟨held, script ++ rest⟩) :
    ∃ holders, (∀ r, holders r = List.replicate ((heldAfter held script).count r) a) ∧
      RepoGuard.run procs act (List.replicate script.length (.go a)) st =
        ⟨holders, Function.update st.agents a ⟨heldAfter held script, rest⟩,
          (worksOf script).foldl (fun s w => act a w s) st.shared⟩ :=
  h.run (capacity_pos procs) hordered hagent

end Schedule

section Buried

variable {π : Type} [DecidableEq π] {procs : π → Process} {core : Core} {lib : GitLibrary}
  {p q : π} {id : Uuid} {g h : SyncFaults} {f : PushFaults} {env : HookEnv}
  {commands : List RefCommand} {w : WebFaults} {edit : WebEdit}

/-- A push and an edit. -/
def rivals (push edit : Call core lib π) : Bool → Call core lib π
  | true => push
  | false => edit

theorem act_unchanged {ι : Type} [DecidableEq ι] {a : ι} {m : Writers.Move} {late : Option Writers.Move}
    {lists : Uuid → Service.State} {places : ι → Writers.Place} {place : Writers.Place}
    (hmove : m (lists id) (places a) = (lists id, place)) :
    act a ⟨id, m, late⟩ (lists, places) = (lists, Function.update places a place) := by
  simp only [act, hmove, Function.update_eq_self]

omit [DecidableEq π] in
theorem works_untilGuarded (p : π) (id : Uuid) (g : SyncFaults) :
    worksOf (untilGuarded procs core lib p id g) =
      [⟨id, fun st _ => (step core lib (.ensure g) st, .returned none),
        some fun st _ => (step core lib (.ensure g) st, .returned none)⟩] := by
  simp [untilGuarded, Job.script, repoGuard, dropGuard, deeds, Deed.script, Writers.workMoves,
    worksOf]

theorem push_dropped (hserves : (procs p).serves = true) {lists : Uuid → Service.State}
    {other : Call core lib π} {refs : Refs} {s : ListState}
    (hlist : lists id = ⟨.repo refs, some s⟩) (hagree : Agree refs s) :
    ∃ ops places, after (rivals (pushCall core lib p id g f env commands) other) lists procs ops =
      ⟨fun _ => [], Function.update
        (initial (rivals (pushCall core lib p id g f env commands) other) lists procs).agents true
        ⟨[], [.work ⟨id, Writers.receiveMove lib f env commands, none⟩]⟩, (lists, places)⟩ := by
  set calls := rivals (pushCall core lib p id g f env commands) other with hcalls
  set m := Writers.receiveMove lib f env commands with hm
  have hscript := script_push procs core lib p id g f env commands
  set untilEnd : Script π Writers.Move := Deed.script p id
    (.transaction (Writers.projectMove core f.first f.second) none) ++ dropGuard procs p id
    with huntilEnd
  have hordered : InOrder (fun _ => false) []
      (untilGuarded procs core lib p id g ++ (.work ⟨id, m, some m⟩ :: untilEnd)) := by
    rw [← hscript]
    exact inOrder_sections hserves _
  have hagent : (initial calls lists procs).agents true =
      ⟨[], untilGuarded procs core lib p id g ++ (.work ⟨id, m, some m⟩ :: untilEnd)⟩ := by
    rw [← hscript]
    rfl
  obtain ⟨holders, hholders, hrun⟩ := @run_part π procs _ Bool _ act true (initial calls lists procs)
    _ _ _ (OrderedLocks.alone_of_idle rfl fun _ => rfl) hordered hagent
  rw [heldAfter_untilGuarded hserves] at hholders hrun
  -- the guard is given back, and the thread is left
  set dropped : State Bool π Writers.Move (Shared Bool) :=
    OrderedLocks.step (capacity procs) act abandon (.giveUp true .working)
      (RepoGuard.run procs act (List.replicate (untilGuarded procs core lib p id g).length (.go true))
        (initial calls lists procs)) with hdropped
  have hrest : dropped.agents true = ⟨guardHeld p id,
      [.free (.mutex p id), .free (.key (advisoryKey id)), .free (.lockConn p)] ++
        [.work ⟨id, m, none⟩]⟩ := by
    rw [hdropped, hrun]
    simp only [OrderedLocks.step, OrderedLocks.giveUp, Function.update_self]
    rfl
  have hordered' : InOrder (fun _ => false) (guardHeld p id)
      ([.free (.mutex p id), .free (.key (advisoryKey id)), .free (.lockConn p)] ++
        [.work ⟨id, m, none⟩]) := by
    have hend := inOrder_abandon .working (guardHeld p id) _ (by
      have hmiddle := hordered.rest_of_append
      rwa [heldAfter_untilGuarded hserves] at hmiddle)
    exact hend
  have halone : Alone true dropped := by
    intro r
    rw [hrest, hdropped, hrun]
    exact hholders r
  obtain ⟨holders', hholders', hrun'⟩ :=
    @run_part π procs _ Bool _ act true dropped _ _ _ halone hordered' hrest
  have hfree : heldAfter (guardHeld p id) ([.free (.mutex p id), .free (.key (advisoryKey id)),
      .free (.lockConn p)] : Script π Writers.Move) = [] := by
    simp [heldAfter, guardHeld]
  rw [hfree] at hholders' hrun'
  obtain ⟨place, hensure⟩ : ∃ place, (worksOf (untilGuarded procs core lib p id g)).foldl
      (fun s w => act true w s) (lists, fun _ => .called) =
      (lists, Function.update (fun _ => .called) true place) := by
    refine ⟨.returned none, ?_⟩
    rw [works_untilGuarded]
    refine act_unchanged ?_
    simp only [step]
    rw [hlist, ensureRepo_of_agree hagree]
  refine ⟨List.replicate (untilGuarded procs core lib p id g).length (.go true) ++
    (.giveUp true .working :: List.replicate 3 (.go true)),
    Function.update (fun _ => .called) true place, ?_⟩
  rw [after, RepoGuard.run, OrderedLocks.run, Runs.run_append, Runs.run_cons]
  refine hrun'.trans ?_
  rw [hdropped, hrun]
  simp only [OrderedLocks.step, OrderedLocks.giveUp, Function.update_idem, worksOf, List.foldl_nil]
  rw [show holders' = fun _ => [] from funext hholders']
  exact congrArg (OrderedLocks.Sys.mk _ _) hensure

theorem heldAfter_aligned (hserves : (procs q).serves = true) :
    heldAfter [] (untilGuarded procs core lib q id h ++
      [.take (.conn q), .free (.conn q), .work ⟨id, Writers.alignMove core w.sync,
        some (Writers.alignMove core w.sync)⟩]) = guardHeld q id := by
  rw [OrderedLocks.heldAfter_append, heldAfter_untilGuarded hserves]
  simp [heldAfter]

def editEnd (procs : π → Process) (core : Core) (q : π) (id : Uuid) (w : WebFaults) (edit : WebEdit) :
    Script π Writers.Move :=
  Deed.script q id (.transaction (Writers.writeMove core w edit)
    (some (Writers.writeMove core { w with tail := .failed } edit))) ++ dropGuard procs q id

theorem inOrder_editEnd (lib : GitLibrary) (h : SyncFaults) (hserves : (procs q).serves = true) :
    InOrder (fun _ => false) (guardHeld q id) (editEnd procs core q id w edit ++ []) := by
  have hordered : InOrder (fun _ => false) []
      (callScript procs q (editCall core lib q id h w edit).jobs) := inOrder_sections hserves _
  rw [script_edit] at hordered
  have hend := hordered.rest_of_append
  rwa [heldAfter_aligned hserves, ← List.append_nil (Deed.script .. ++ _)] at hend

theorem edit_aligned (hserves : (procs q).serves = true) {st : State Bool π Writers.Move (Shared Bool)}
    {refs : Refs} {s : ListState} (hlist : st.shared.1 id = ⟨.repo refs, some s⟩)
    (hagree : Agree refs s) (hread : w.sync.readCurrent = true) (hfree : ∀ r, st.holders r = [])
    (hagent : st.agents false = ⟨[], callScript procs q (editCall core lib q id h w edit).jobs⟩) :
    ∃ ops holders places, (∀ r, holders r = List.replicate ((guardHeld q id).count r) false) ∧
      RepoGuard.run procs act ops st = ⟨holders, Function.update st.agents false
        ⟨guardHeld q id, editEnd procs core q id w edit ++ []⟩,
        (st.shared.1, Function.update places false (.aligned (.ok .inSync)))⟩ := by
  rw [List.append_nil]
  have hscript := script_edit procs core lib q id h w edit
  rw [hscript] at hagent
  have hordered : InOrder (fun _ => false) []
      (callScript procs q (editCall core lib q id h w edit).jobs) := inOrder_sections hserves _
  rw [hscript] at hordered
  obtain ⟨holders, hholders, hrun⟩ := @run_part π procs _ Bool _ act false st _ _ _
    (OrderedLocks.alone_of_idle (by rw [hagent]) hfree) hordered hagent
  rw [heldAfter_aligned hserves] at hholders hrun
  refine ⟨_, holders, Function.update st.shared.2 false (.returned none), hholders, hrun.trans ?_⟩
  rw [OrderedLocks.worksOf_append, works_untilGuarded]
  have hensure : act false ⟨id, fun st _ => (step core lib (.ensure h) st, .returned none),
      some fun st _ => (step core lib (.ensure h) st, .returned none)⟩ st.shared =
      (st.shared.1, Function.update st.shared.2 false (.returned none)) := by
    refine act_unchanged ?_
    simp only [step]
    rw [hlist, ensureRepo_of_agree hagree]
  have halign : ∀ places, act false ⟨id, Writers.alignMove core w.sync,
      some (Writers.alignMove core w.sync)⟩ (st.shared.1, places) =
      (st.shared.1, Function.update places false (.aligned (.ok .inSync))) := by
    intro places
    refine act_unchanged ?_
    simp only [Writers.alignMove, hlist, sync_of_agree core w.sync hagree, hread, if_true]
  refine congrArg (OrderedLocks.Sys.mk _ _) ?_
  simp only [List.cons_append, List.nil_append, worksOf, List.foldl_cons, List.foldl_nil]
  rw [hensure, halign]

theorem act_write {lists : Uuid → Service.State} {places : Bool → Writers.Place} {pushed written : Refs}
    {s : ListState} {now : Int} {c : Commit} (late : Option Writers.Move)
    (hlist : lists id = ⟨.repo pushed, some s⟩) (hplace : places false = .aligned (.ok .inSync))
    (hwrite : writeVersion core (steadyWrite now) pushed s edit =
      ⟨.repo written, some (editedList s edit now), .ok (s.currentVersion + 1)⟩)
    (hmain : written.lookup mainRef = some (.commit c)) :
    act false ⟨id, Writers.writeMove core (steadyWrite now) edit, late⟩ (lists, places) =
      (Function.update lists id ⟨.repo written, some (editedList s edit now)⟩,
        Function.update places false (.returned (some ⟨s.currentVersion + 1, c⟩))) := by
  have haligned : Writers.writeAligned core (steadyWrite now) edit ⟨.repo pushed, some s⟩
      (.ok .inSync) = ⟨.repo written, some (editedList s edit now), .ok (s.currentVersion + 1)⟩ :=
    hwrite
  have hmade : Writers.madeAt (s.currentVersion + 1) ⟨.repo written, some (editedList s edit now)⟩ =
      some ⟨s.currentVersion + 1, c⟩ := by
    simp only [Writers.madeAt, Refs.commitAt_eq_some.mpr hmain, Option.map_some]
  simp only [act, Writers.writeMove, hlist, hplace, haligned]
  exact congrArg (fun made => (_, Function.update places false (.returned made))) hmade

/-- The guard holds nobody back whose thread outlives it. A push is dropped while git takes it in;
an edit that has found its repository aligned is written over the pushed commit, and says nothing of
it: no version has the commit, its tip is not the tip of main, and every alignment finds the list in
order. -/
theorem dropped_push_is_buried {lists : Uuid → Service.State} {refs : Refs} {s : ListState}
    {d c : Commit} {now : Int} (hp : (procs p).serves = true) (hq : (procs q).serves = true)
    (hlist : lists id = ⟨.repo refs, some s⟩) (hagree : Agree refs s)
    (hroom : s.currentVersion < 2147483647)
    (hmoved : (received lib f.applied env refs commands).lookup mainRef = some (.commit d))
    (hnew : ∀ ref, (tagVersion ref).isSome = true → refs.lookup ref ≠ some (.commit d))
    (hedit : Acceptable core (refs.insert mainRef (.commit d)) s edit now (some d) c) :
    ∃ ops st written c, after (rivals (pushCall core lib p id g f env commands)
        (editCall core lib q id h (steadyWrite now) edit)) lists procs ops = st ∧
      (∀ a, (st.agents a).rest = []) ∧
      st.shared.1 = Function.update lists id ⟨.repo written, some (editedList s edit now)⟩ ∧
      st.shared.2 false = .returned (some ⟨s.currentVersion + 1, c⟩) ∧
      written.lookup mainRef = some (.commit c) ∧ c.parents = [d] ∧
      (∀ ref, (tagVersion ref).isSome = true → written.lookup ref ≠ some (.commit d)) ∧
      ∀ faults : SyncFaults, syncRepoWithDb core faults (.repo written)
        (some (editedList s edit now)) = ⟨.repo written, some (editedList s edit now),
          if faults.readCurrent then .ok .inSync else .error .database, false⟩ := by
  set calls := rivals (pushCall core lib p id g f env commands)
    (editCall core lib q id h (steadyWrite now) edit) with hcalls
  obtain ⟨first, places, hfirst⟩ := @push_dropped π _ procs core lib p id g f env commands hp lists
    (editCall core lib q id h (steadyWrite now) edit) refs s hlist hagree
  rw [← hcalls] at hfirst
  set dropped := after calls lists procs first with hdropped
  obtain ⟨second, holders, places', hholders, hsecond⟩ :=
    @edit_aligned π _ procs core lib q id h (steadyWrite now) edit hq dropped refs s
      (by rw [hfirst]; exact hlist) hagree rfl (fun r => by rw [hfirst])
      (by rw [hfirst]; rfl)
  -- the thread of the push comes to its end between the alignment and the write
  obtain ⟨pushed, hreceived, hmain, hbeside⟩ := @receiveMove_moved lib refs s d f env commands
    (Function.update places' false (.aligned (.ok .inSync)) true) hmoved
  set aligned := RepoGuard.run procs act second dropped with haligned
  have hagent : aligned.agents true =
      ⟨[], [.work ⟨id, Writers.receiveMove lib f env commands, none⟩]⟩ := by
    rw [hsecond, hfirst]
    rfl
  set received' := OrderedLocks.go (capacity procs) act true aligned with hreceived'
  have hthread : received' = ⟨aligned.holders, Function.update aligned.agents true ⟨[], []⟩,
      act true ⟨id, Writers.receiveMove lib f env commands, none⟩ aligned.shared⟩ := by
    rw [hreceived']
    unfold OrderedLocks.go
    rw [hagent]
  obtain ⟨written, made, hwrite, htip, hparents, htags, hagree'⟩ :=
    write_over_pushed hagree hroom hnew hmain hbeside
      ⟨hedit.expected, hedit.free, hedit.files, hmain, hedit.commit, hedit.format⟩
  have hordered := @inOrder_editEnd π _ procs core q id (steadyWrite now) edit lib h hq
  have hready : received'.agents false =
      ⟨guardHeld q id, editEnd procs core q id (steadyWrite now) edit ++ []⟩ := by
    rw [hthread, hsecond]
    rfl
  have halone : Alone false received' := by
    intro r
    rw [hready, hthread, hsecond]
    exact hholders r
  obtain ⟨holders', -, hthird⟩ :=
    @run_part π procs _ Bool _ act false received' _ _ _ halone hordered hready
  have hend : heldAfter (guardHeld q id) (editEnd procs core q id (steadyWrite now) edit) = [] :=
    hordered.rest_of_append
  have hshared : (worksOf (editEnd procs core q id (steadyWrite now) edit)).foldl
      (fun s w => act false w s) received'.shared =
      (Function.update lists id ⟨.repo written, some (editedList s edit now)⟩,
        Function.update received'.shared.2 false (.returned (some ⟨s.currentVersion + 1, made⟩))) := by
    have hnow : received'.shared = (Function.update lists id ⟨.repo pushed, some s⟩,
        received'.shared.2) := by
      refine Prod.ext ?_ rfl
      rw [hthread, hsecond, hfirst]
      simp only [act, hlist]
      exact congrArg (Function.update lists id) hreceived
    have hplace : received'.shared.2 false = .aligned (.ok .inSync) := by
      rw [hthread, hsecond]
      rfl
    rw [hnow]
    refine (act_write _ (Function.update_self ..) hplace hwrite htip).trans ?_
    rw [Function.update_idem]
  rw [hend, hshared] at hthird
  have hall : after calls lists procs (first ++ (second ++ (.go true :: List.replicate
      (editEnd procs core q id (steadyWrite now) edit).length (.go false)))) =
      RepoGuard.run procs act (List.replicate
        (editEnd procs core q id (steadyWrite now) edit).length (.go false)) received' := by
    rw [after, RepoGuard.run, OrderedLocks.run, Runs.run_append, Runs.run_append, Runs.run_cons]
    rfl
  refine ⟨_, _, written, made, hall.trans hthird, fun a => ?_, rfl, rfl, htip, hparents, htags,
    fun faults => sync_of_agree core faults hagree'⟩
  cases a with
  | false => simp only [Function.update_self]
  | true =>
    rw [hthread]
    rfl

end Buried

def buriedCommit : Commit :=
  .mk (Received.listTree (editData markedList (markEdit false) 0)) [firstCommit] ⟨[], [], 0⟩

theorem buriedCommit_received : (received plainLibrary (fun _ => true) Received.ownerEnv markedRefs
    [Received.overMain firstCommit buriedCommit]).lookup mainRef = some (.commit buriedCommit) := by
  rw [buriedCommit, Received.received_listTree plainLibrary markedRefs_main]
  exact AList.lookup_insert _

theorem buriedCommit_new (ref : Text) (href : (tagVersion ref).isSome = true) :
    markedRefs.lookup ref ≠ some (.commit buriedCommit) := by
  have hne : firstCommit ≠ buriedCommit := fun heq =>
    Commit.ne_of_isParent_reaches .refl (show buriedCommit.IsParent firstCommit from
      List.mem_singleton_self _) heq.symm
  have hmain : ref ≠ mainRef := by
    rintro rfl
    rw [tagVersion_mainRef] at href
    cases href
  intro hlookup
  by_cases htag : ref = tagRef (versionTag 1)
  · rw [markedRefs, htag, AList.lookup_insert] at hlookup
    exact hne (Target.commit.inj (Option.some.inj hlookup))
  · rw [markedRefs, AList.lookup_insert_ne htag, AList.lookup_insert_ne hmain] at hlookup
    cases hlookup

theorem markEdit_acceptable : ∃ c, Acceptable canonCore
    (markedRefs.insert mainRef (.commit buriedCommit)) markedList (markEdit true) 0
      (some buriedCommit) c := by
  have hnames : CarriedTree.NamesFree canonCore.reserved := fun _ _ _ _ => rfl
  have hformat := (mainViolation_eq_none_iff _).mp
    (Received.listTree_violation (editData markedList (markEdit false) 0))
  obtain ⟨t, hcommit, hformat'⟩ := commitVersion_carried hnames (some buriedCommit)
    (fun p hp => Option.some.inj hp ▸ ⟨hformat.2.1, hformat.2.2⟩)
    (editData markedList (markEdit true) 0)
  refine ⟨_, nofun, fun v hv => ?_, nofun, AList.lookup_insert _, hcommit, hformat'⟩
  rw [List.mem_singleton.mp hv]
  decide

/-- The owner pushes, and the call is dropped; meanwhile the step is marked as dangerous. -/
theorem dropped_push_is_buried_marked :
    ∃ ops st written c, after (rivals
        (pushCall canonCore plainLibrary false (Uuid.repeated 0) (steady 0)
          ⟨true, fun _ => true, ⟨fun _ => true, fun _ => true⟩, (steady 0).projection,
            (steady 0).projection⟩ Received.ownerEnv
          [Received.overMain firstCommit buriedCommit])
        (editCall canonCore plainLibrary true (Uuid.repeated 0) (steady 0) (steadyWrite 0)
          (markEdit true)))
        (fun _ => ⟨.repo markedRefs, some markedList⟩) (fun _ => ⟨true, none, none⟩) ops = st ∧
      (∀ a, (st.agents a).rest = []) ∧
      st.shared.1 = Function.update (fun _ => ⟨.repo markedRefs, some markedList⟩) (Uuid.repeated 0)
        ⟨.repo written, some (editedList markedList (markEdit true) 0)⟩ ∧
      st.shared.2 false = .returned (some ⟨markedList.currentVersion + 1, c⟩) ∧
      written.lookup mainRef = some (.commit c) ∧ c.parents = [buriedCommit] ∧
      (∀ ref, (tagVersion ref).isSome = true → written.lookup ref ≠ some (.commit buriedCommit)) ∧
      ∀ faults : SyncFaults, syncRepoWithDb canonCore faults (.repo written)
        (some (editedList markedList (markEdit true) 0)) =
          ⟨.repo written, some (editedList markedList (markEdit true) 0),
            if faults.readCurrent then .ok .inSync else .error .database, false⟩ := by
  obtain ⟨c, hedit⟩ := markEdit_acceptable
  exact dropped_push_is_buried rfl rfl rfl markedRefs_agree (by decide) buriedCommit_received
    buriedCommit_new hedit

end Setfork.DroppedCalls
