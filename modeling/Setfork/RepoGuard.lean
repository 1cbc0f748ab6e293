/- RepoGuard
   digest: The lock of a repository over several processes: the mutex of the process, a connection,
   and the advisory lock; who excludes whom, and why nobody waits for ever. -/
import Setfork.Foundation.OrderedLocks
import Setfork.Numbering

set_option autoImplicit false
set_option relaxedAutoImplicit false

namespace Setfork.RepoGuard

open Setfork.Foundation
open Setfork.Foundation.OrderedLocks (Instr Agent Sys Op Ready Ordered Protected LastWork Tallied
  Sound Possible remaining)
open Setfork.Numbering (numberingKey)

/-- A variable that is unset or no number counts as its default, and so does zero. -/
def numberOr (default : Nat) (env : Option Nat) : Nat :=
  match env.getD default with
  | 0 => default
  | n => n

/-- A process: the server has a pool of its own for the locks, the tools of the operator do not. -/
structure Process where
  serves : Bool
  pgpoolMax : Option Nat
  lockPoolMax : Option Nat

/-- The lock of a list within its process, the connections of the two pools of a process, and the
advisory locks of the database. -/
inductive Resource (π : Type) where
  | mutex (p : π) (id : Uuid)
  | lockConn (p : π)
  | key (k : BitVec 64)
  | conn (p : π)
deriving DecidableEq

variable {π ι M S : Type} (procs : π → Process)

/-- How often a resource is there. -/
def capacity : Resource π → Nat
  | .mutex _ _ => 1
  | .key _ => 1
  | .lockConn p => numberOr 4 (procs p).lockPoolMax
  | .conn p => numberOr 10 (procs p).pgpoolMax

theorem numberOr_pos {default : Nat} (env : Option Nat) (h : 0 < default) :
    0 < numberOr default env := by
  unfold numberOr
  split
  · exact h
  · rename_i hne
    exact Nat.pos_of_ne_zero hne

theorem capacity_pos (r : Resource π) : 0 < capacity procs r := by
  cases r with
  | mutex p id => exact Nat.one_pos
  | key k => exact Nat.one_pos
  | lockConn p => exact numberOr_pos _ (by decide)
  | conn p => exact numberOr_pos _ (by decide)

/-- The key of a repository among the advisory locks: two of them may have the same. -/
def advisoryKey (id : Uuid) : BitVec 64 :=
  Numbering.fromLeBytes ((Numbering.bytesOf id.nibbles).take 8)

def lockPool (p : π) : Resource π := if (procs p).serves then .lockConn p else .conn p

/-- Work on a repository, and what of it goes on by itself when its call is dropped in the middle. -/
structure Work (M : Type) where
  id : Uuid
  move : M
  late : Option M

/-- What a call does under a guard: a query or a transaction with a connection of the pool, and work
on the repository, which can come in the middle of a transaction. The work of a transaction that is
rolled back can go on without it. -/
inductive Deed (M : Type) where
  | query
  | git (m : M)
  | transaction (m : M) (late : Option M)

/-- What a call does: a query, a transaction that gives out a number, and deeds under the guard of a
repository. -/
inductive Job (M : Type) where
  | query
  | numbered (id : Uuid)
  | guarded (id : Uuid) (deeds : List (Deed M))

abbrev Script (π M : Type) := List (Instr (Resource π) (Work M))

def Deed.script (p : π) (id : Uuid) : Deed M → Script π M
  | .query => [.take (.conn p), .free (.conn p)]
  | .git m => [.work ⟨id, m, some m⟩]
  | .transaction m late => [.take (.conn p), .work ⟨id, m, late⟩, .free (.conn p)]

def repoGuard (p : π) (id : Uuid) : Script π M :=
  [.take (.mutex p id), .take (lockPool procs p), .take (.key (advisoryKey id))]

/-- The fields of a guard in their order: the mutex is free before the transaction is rolled back. -/
def dropGuard (p : π) (id : Uuid) : Script π M :=
  [.free (.mutex p id), .free (.key (advisoryKey id)), .free (lockPool procs p)]

def Job.script (p : π) : Job M → Script π M
  | .query => [.take (.conn p), .free (.conn p)]
  | .numbered id => [.take (.conn p), .take (.key (numberingKey id)), .free (.key (numberingKey id)),
      .free (.conn p)]
  | .guarded id deeds =>
    repoGuard procs p id ++ (deeds.flatMap (Deed.script p id) ++ dropGuard procs p id)

def callScript (p : π) (jobs : List (Job M)) : Script π M := jobs.flatMap (Job.script procs p)

def isMutex : Resource π → Bool
  | .mutex _ _ => true
  | _ => false

/-- A wait for an advisory lock that the database goes on with when nobody wants the lock any more. -/
def pendingKey : Script π M → Script π M
  | .take (.key k) :: _ => [.take (.key k), .free (.key k)]
  | _ => []

def pendingWork : Script π M → Script π M
  | .work w :: _ => w.late.toList.map fun m => .work ⟨w.id, m, none⟩
  | _ => []

/-- How a call is dropped: between two steps, or while a thread works for it, which nobody stops. -/
inductive Drop where
  | idle
  | working

def Drop.outlives : Drop → Script π M → Script π M
  | .idle, _ => []
  | .working, rest => pendingWork rest

/-- A call that is dropped, or whose waiting has taken too long: the mutex is free at once, and the
connections when the database is done with them; what a thread has begun, it brings to its end. -/
def abandon (drop : Drop) (held : List (Resource π)) (rest : Script π M) : Script π M :=
  (held.filter isMutex).map .free ++ (pendingKey rest ++
    ((held.filter fun r => !isMutex r).map .free ++ drop.outlives rest))

/-- The calls at work: each has its process and its jobs. -/
abbrev State (ι π M S : Type) := Sys ι (Resource π) (Work M) S

section Steps

variable [DecidableEq ι] [DecidableEq π] (act : ι → Work M → S → S)

abbrev run (ops : List (Op ι Drop)) (st : State ι π M S) : State ι π M S :=
  OrderedLocks.run (capacity procs) act abandon ops st

def initial (calls : ι → π × List (Job M)) (start : S) : State ι π M S :=
  OrderedLocks.initial (fun a => callScript procs (calls a).1 (calls a).2) start

end Steps

/-- The call has the guard of the repository. -/
structure HasGuard (st : State ι π M S) (p : π) (id : Uuid) (a : ι) : Prop where
  mutex : .mutex p id ∈ (st.agents a).held
  connection : lockPool procs p ∈ (st.agents a).held
  lock : .key (advisoryKey id) ∈ (st.agents a).held

def guardOf (p : π) (id : Uuid) : List (Resource π) :=
  [.key (advisoryKey id), lockPool procs p, .mutex p id]

section Protection

variable [DecidableEq π] {procs} (guard : Work M → Resource π)

theorem protected_deeds (p : π) (id : Uuid) (hguard : ∀ m late, guard ⟨id, m, late⟩ ∈ guardOf procs p id)
    (deeds : List (Deed M)) {held : List (Resource π)} {rest : Script π M}
    (hheld : ∀ r ∈ guardOf procs p id, r ∈ held) (hrest : Protected guard held rest) :
    Protected guard held (deeds.flatMap (Deed.script p id) ++ rest) := by
  have hafter : ((.conn p : Resource π) :: held).erase (.conn p) = held := List.erase_cons_head ..
  induction deeds with
  | nil => exact hrest
  | cons deed deeds ih =>
    rw [List.flatMap_cons, List.append_assoc]
    cases deed with
    | query =>
      change Protected guard (((.conn p : Resource π) :: held).erase (.conn p)) _
      rw [hafter]
      exact ih
    | git m => exact ⟨hheld _ (hguard m (some m)), ih⟩
    | transaction m late =>
      refine ⟨List.mem_cons_of_mem _ (hheld _ (hguard m late)), ?_⟩
      change Protected guard (((.conn p : Resource π) :: held).erase (.conn p)) _
      rw [hafter]
      exact ih

theorem protected_callScript (p : π) (hguard : ∀ id m late, guard ⟨id, m, late⟩ ∈ guardOf procs p id)
    (jobs : List (Job M)) (held : List (Resource π)) :
    Protected guard held (callScript procs p jobs) := by
  induction jobs generalizing held with
  | nil => trivial
  | cons job jobs ih =>
    rw [callScript, List.flatMap_cons]
    cases job with
    | query => exact ih _
    | numbered id => exact ih _
    | guarded id deeds =>
      rw [Job.script, List.append_assoc, List.append_assoc]
      exact protected_deeds guard p id (hguard id) deeds
        (fun r hr => List.mem_append_left held hr) (ih _)

variable {guard}

theorem protected_abandon (held : List (Resource π)) (rest : Script π M) :
    Protected guard held (abandon .idle held rest) := by
  refine OrderedLocks.protected_of_idle fun w hw => ?_
  unfold abandon pendingKey Drop.outlives at hw
  split at hw <;> simp at hw

omit [DecidableEq π] in
theorem lastWork_abandon (drop : Drop) (held : List (Resource π)) (rest : Script π M) :
    LastWork (abandon drop held rest) := by
  have hfrees : ∀ order : List (Resource π), ∀ w : Work M, .work w ∉ order.map Instr.free := by
    intro order w hw
    simp at hw
  refine .append (hfrees _) (.append (fun w hw => ?_) (.append (hfrees _) ?_))
  · unfold pendingKey at hw
    split at hw <;> simp at hw
  · intro w more hsuffix
    cases drop with
    | idle => exact absurd (List.suffix_nil.mp hsuffix) (List.cons_ne_nil _ _)
    | working =>
      have hlength : (pendingWork rest).length ≤ 1 := by
        unfold pendingWork
        split
        · rename_i w _
          cases w.late <;> simp
        · exact Nat.zero_le 1
      have hle := hsuffix.length_le.trans hlength
      rw [List.length_cons] at hle
      exact List.eq_nil_of_length_eq_zero (by omega)

end Protection

/-- The next thing the call does is work on the repository. -/
def AtWork (st : State ι π M S) (a : ι) (id : Uuid) : Prop :=
  ∃ m late more, (st.agents a).rest = .work ⟨id, m, late⟩ :: more

section Exclusion

variable [DecidableEq ι] [DecidableEq π] (act : ι → Work M → S → S)
  (calls : ι → π × List (Job M)) (start : S) (ops : List (Op ι Drop))

theorem guarded_or_last (a : ι) :
    (∀ guard : Work M → Resource π, (∀ id m late, guard ⟨id, m, late⟩ ∈ guardOf procs (calls a).1 id) →
      Protected guard ((run procs act ops (initial procs calls start)).agents a).held
        ((run procs act ops (initial procs calls start)).agents a).rest) ∨
    .giveUp a .working ∈ ops ∧
      LastWork ((run procs act ops (initial procs calls start)).agents a).rest := by
  induction ops using List.reverseRecOn with
  | nil => exact Or.inl fun guard hguard => protected_callScript guard _ hguard _ _
  | append_singleton ops op ih =>
    rw [run, OrderedLocks.run, Runs.run_append]
    rcases ih with hguarded | ⟨hgiven, hlast⟩
    · by_cases hop : op = .giveUp a .working
      · refine Or.inr ⟨by rw [hop]; simp, ?_⟩
        rw [hop]
        rw [Runs.run_cons, Runs.run_nil, OrderedLocks.step, OrderedLocks.giveUp]
        dsimp only
        rw [Function.update_self]
        exact lastWork_abandon _ _ _
      · refine Or.inl fun guard hguard => OrderedLocks.inherited_step
          (OrderedLocks.inherited_protected guard) op (fun how held rest heq _ => ?_)
          (hguarded guard hguard)
        cases how with
        | idle => exact protected_abandon held rest
        | working => exact absurd heq hop
    · exact Or.inr ⟨List.mem_append_left _ hgiven, OrderedLocks.inherited_step
        OrderedLocks.inherited_lastWork op (fun how held rest _ _ => lastWork_abandon how held rest)
        hlast⟩

theorem guard_of_atWork {a : ι} {id : Uuid}
    (h : AtWork (run procs act ops (initial procs calls start)) a id) :
    HasGuard procs (run procs act ops (initial procs calls start)) (calls a).1 id a ∨
      .giveUp a .working ∈ ops ∧
        ∃ w, ((run procs act ops (initial procs calls start)).agents a).rest = [.work w] := by
  have hsplit := guarded_or_last procs act calls start ops a
  generalize run procs act ops (initial procs calls start) = st at h hsplit ⊢
  obtain ⟨m, late, more, hrest⟩ := h
  rcases hsplit with hguarded | ⟨hgiven, hlast⟩
  · rw [hrest] at hguarded
    have hmutex := hguarded (fun w => .mutex (calls a).1 w.id) fun _ _ _ =>
      List.mem_cons_of_mem _ (List.mem_cons_of_mem _ List.mem_cons_self)
    have hconnection := hguarded (fun _ => lockPool procs (calls a).1) fun _ _ _ =>
      List.mem_cons_of_mem _ List.mem_cons_self
    have hlock := hguarded (fun w => .key (advisoryKey w.id)) fun _ _ _ => List.mem_cons_self
    exact Or.inl ⟨hmutex.1, hconnection.1, hlock.1⟩
  · rw [hrest] at hlast ⊢
    rw [hlast _ more List.suffix_rfl]
    exact Or.inr ⟨hgiven, _, rfl⟩

end Exclusion

section Ranks

variable [DecidableEq π] {numbers : BitVec 64 → Bool}

/-- The order in which the server takes its resources; the locks of the numbers come last. -/
def rank (numbers : BitVec 64 → Bool) : Resource π → Nat
  | .mutex _ _ => 0
  | .lockConn _ => 1
  | .key k => if numbers k then 4 else 2
  | .conn _ => 3

omit [DecidableEq π] in
theorem rank_lt (numbers : BitVec 64 → Bool) (r : Resource π) : rank numbers r < 5 := by
  cases r <;> simp only [rank] <;> (try split) <;> omega

abbrev InOrder (numbers : BitVec 64 → Bool) (held : List (Resource π)) (script : Script π M) : Prop :=
  Ordered (rank numbers) held script

theorem inOrder_query (p : π) : InOrder (M := M) numbers [] [.take (.conn p), .free (.conn p)] := by
  refine ⟨fun q hq => (List.not_mem_nil hq).elim, List.mem_cons_self, ?_⟩
  simp [Ordered]

theorem inOrder_numbered (p : π) {id : Uuid} (h : numbers (numberingKey id) = true) :
    InOrder (M := M) numbers [] [.take (.conn p), .take (.key (numberingKey id)),
      .free (.key (numberingKey id)), .free (.conn p)] := by
  refine ⟨fun q hq => (List.not_mem_nil hq).elim, fun q hq => ?_, List.mem_cons_self, ?_⟩
  · rw [List.mem_singleton.mp hq]
    simp only [rank, h, if_true]
    omega
  · simp [Ordered]

def guardHeld (p : π) (id : Uuid) : List (Resource π) :=
  [.key (advisoryKey id), .lockConn p, .mutex p id]

theorem inOrder_deed (p : π) {id : Uuid} (h : numbers (advisoryKey id) = false) (deed : Deed M)
    {rest : Script π M} (hrest : InOrder numbers (guardHeld p id) rest) :
    InOrder numbers (guardHeld p id) (deed.script p id ++ rest) := by
  have hbelow : ∀ q ∈ guardHeld p id, rank numbers q < rank numbers (.conn p) := by
    intro q hq
    simp only [guardHeld, List.mem_cons, List.not_mem_nil, or_false] at hq
    rcases hq with rfl | rfl | rfl <;> simp [rank, h]
  have hafter : ((.conn p : Resource π) :: guardHeld p id).erase (.conn p) = guardHeld p id :=
    List.erase_cons_head ..
  cases deed with
  | query =>
    refine ⟨hbelow, List.mem_cons_self, ?_⟩
    rw [hafter]
    exact hrest
  | git m => exact hrest
  | transaction m late =>
    refine ⟨hbelow, List.mem_cons_self, ?_⟩
    rw [hafter]
    exact hrest

theorem inOrder_deeds (p : π) {id : Uuid} (h : numbers (advisoryKey id) = false)
    (deeds : List (Deed M)) {rest : Script π M} (hrest : InOrder numbers (guardHeld p id) rest) :
    InOrder numbers (guardHeld p id) (deeds.flatMap (Deed.script p id) ++ rest) := by
  induction deeds with
  | nil => exact hrest
  | cons deed deeds ih =>
    rw [List.flatMap_cons, List.append_assoc]
    exact inOrder_deed p h deed ih

theorem inOrder_guarded {p : π} (hserves : (procs p).serves = true) {id : Uuid}
    (h : numbers (advisoryKey id) = false) (deeds : List (Deed M)) :
    InOrder numbers [] (Job.script procs p (.guarded id deeds)) := by
  have hpool : lockPool procs p = .lockConn p := if_pos hserves
  have hdrop : InOrder (M := M) numbers (guardHeld p id) (dropGuard procs p id) := by
    rw [dropGuard, hpool]
    exact @OrderedLocks.ordered_frees _ _ _ (rank numbers) [.mutex p id,
      .key (advisoryKey id), .lockConn p] (guardHeld p id)
      ((List.Perm.swap ..).trans (List.Perm.cons _ (List.Perm.swap ..)))
  rw [Job.script, repoGuard, hpool]
  refine ⟨fun q hq => (List.not_mem_nil hq).elim, fun q hq => ?_, fun q hq => ?_,
    inOrder_deeds p h deeds hdrop⟩
  · rw [List.mem_singleton.mp hq]
    exact Nat.zero_lt_one
  · simp only [List.mem_cons, List.not_mem_nil, or_false] at hq
    rcases hq with rfl | rfl <;> simp [rank, h]

theorem inOrder_outlives (drop : Drop) (rest : Script π M) :
    InOrder numbers [] (drop.outlives rest) := by
  cases drop with
  | idle => exact rfl
  | working =>
    rcases rest with _ | ⟨r | r | ⟨id, m, _ | late⟩, more⟩ <;> exact rfl

theorem inOrder_abandon (drop : Drop) (held : List (Resource π)) (rest : Script π M)
    (h : InOrder numbers held rest) : InOrder numbers held (abandon drop held rest) := by
  have hsplit : ((held.filter isMutex) ++ (held.filter fun r => !isMutex r)).Perm held :=
    List.filter_append_perm isMutex held
  refine OrderedLocks.ordered_frees_append (fun held' hperm => ?_) hsplit
  have hkept : InOrder numbers held'
      ((held.filter fun r => !isMutex r).map .free ++ drop.outlives rest) := by
    refine @OrderedLocks.ordered_frees_append _ _ _ (rank numbers) _ [] _ (fun given hgiven => ?_) _
      (by rwa [List.append_nil])
    rw [← hgiven.nil_eq]
    exact inOrder_outlives drop rest
  unfold pendingKey
  split
  · rename_i k _
    refine ⟨fun q hq => h.1 q (List.mem_of_mem_filter (hperm.mem_iff.mpr hq)), List.mem_cons_self, ?_⟩
    rw [List.erase_cons_head]
    exact hkept
  · exact hkept

end Ranks

/-- In servers, with the locks of the numbers apart from those of the repositories: whatever has
happened, and whatever was dropped, somebody can go on as long as anybody has anything to do, no
schedule of possible steps is longer than what is left to do, and one of them ends everything. -/
theorem guards_never_deadlock [DecidableEq ι] [Fintype ι] [DecidableEq π]
    (act : ι → Work M → S → S) (calls : ι → π × List (Job M)) (start : S)
    (hserves : ∀ a, (procs (calls a).1).serves = true)
    (hapart : ∀ a b id id' deeds, .guarded id deeds ∈ (calls a).2 → .numbered id' ∈ (calls b).2 →
      advisoryKey id ≠ numberingKey id') (ops : List (Op ι Drop)) :
    ((∃ a, ((run procs act ops (initial procs calls start)).agents a).rest ≠ []) →
      ∃ a, Ready (capacity procs) a (run procs act ops (initial procs calls start))) ∧
    (∀ order, Possible (capacity procs) act order (run procs act ops (initial procs calls start)) →
      order.length ≤ remaining (run procs act ops (initial procs calls start))) ∧
    ∃ order, Possible (capacity procs) act order (run procs act ops (initial procs calls start)) ∧
      ∀ a, ((run procs act (ops ++ order.map .go) (initial procs calls start)).agents a).rest = [] := by
  classical
  set numbers : BitVec 64 → Bool := fun k => decide (∃ b id', .numbered id' ∈ (calls b).2 ∧
    k = numberingKey id') with hnumbers
  have hscript : ∀ a, InOrder numbers [] (callScript procs (calls a).1 (calls a).2) := by
    intro a
    refine OrderedLocks.Ordered.flatMap fun job hjob => ?_
    cases job with
    | query => exact inOrder_query _
    | numbered id =>
      exact inOrder_numbered _ (decide_eq_true ⟨a, id, hjob, rfl⟩)
    | guarded id deeds =>
      refine inOrder_guarded procs (hserves a) (decide_eq_false ?_) deeds
      rintro ⟨b, id', hnumbered, hkey⟩
      exact hapart a b id id' deeds hjob hnumbered hkey
  have hsound : Sound (capacity procs) (rank numbers)
      (run procs act ops (initial procs calls start)) :=
    OrderedLocks.sound_run inOrder_abandon ops (OrderedLocks.sound_initial start hscript)
  refine ⟨fun ⟨a, ha⟩ => hsound.exists_ready (capacity_pos procs) (rank_lt numbers) ha,
    fun order hpossible => ?_, ?_⟩
  · have hlength := @Possible.length_add _ _ _ _ _ _ _ (capacity procs) act abandon _ _ _ hpossible
    omega
  · obtain ⟨order, hpossible, hend⟩ := hsound.exists_end inOrder_abandon (capacity_pos procs)
      (rank_lt numbers)
    refine ⟨order, hpossible, ?_⟩
    rw [run, OrderedLocks.run, Runs.run_append]
    exact hend

def twoServers (p : Bool) : Bool × List (Job Unit) :=
  (p, [.query, .guarded (Uuid.repeated 0) [.git (), .transaction () none],
    .numbered (Uuid.repeated 1)])

theorem guards_never_deadlock_twoServers :
    let now := run (fun _ => ⟨true, none, none⟩) (fun _ _ => id)
      [.go true, .go true, .go true, .go true, .go true, .giveUp true .working, .go false]
      (initial (fun _ => ⟨true, none, none⟩) twoServers ())
    ((∃ a, (now.agents a).rest ≠ []) → ∃ a, Ready (capacity fun _ => ⟨true, none, none⟩) a now) ∧
    (∀ order, Possible (capacity fun _ => ⟨true, none, none⟩) (fun _ _ => id) order now →
      order.length ≤ remaining now) ∧
    ∃ order, Possible (capacity fun _ => ⟨true, none, none⟩) (fun _ _ => id) order now ∧
      ∀ a, ((run (fun _ => ⟨true, none, none⟩) (fun _ _ => id)
        ([.go true, .go true, .go true, .go true, .go true, .giveUp true .working, .go false] ++ order.map .go)
        (initial (fun _ => ⟨true, none, none⟩) twoServers ())).agents a).rest = [] :=
  guards_never_deadlock (fun _ => ⟨true, none, none⟩) (fun _ _ => id) twoServers ()
    (fun _ => rfl) (fun a b id id' deeds hguarded hnumbered => by
      simp [twoServers] at hguarded hnumbered
      obtain ⟨rfl, -⟩ := hguarded
      subst hnumbered
      decide) _

section SharedPool

variable [DecidableEq π] (p : π)

/-- Some of the calls have their guard and want a connection; the others have not begun, and nothing
they need for their guard is taken but connections. -/
structure Waiting {n : Nat} (ids : Fin n → Uuid) (deeds : Fin n → List (Deed M))
    (done : List (Fin n)) (st : State (Fin n) π M S) : Prop where
  waits : ∀ a ∈ done, HasGuard procs st p (ids a) a ∧
    ∃ rest, (st.agents a).rest = .take (.conn p) :: rest
  idle : ∀ a, a ∉ done →
    st.agents a = ⟨[], callScript procs p [.guarded (ids a) (.query :: deeds a)]⟩
  conns : (st.holders (.conn p)).length = done.length
  mutexes : ∀ a, a ∉ done → st.holders (.mutex p (ids a)) = []
  keys : ∀ a, a ∉ done → st.holders (.key (advisoryKey (ids a))) = []

theorem waiting_next {n : Nat} {ids : Fin n → Uuid} {deeds : Fin n → List (Deed M)}
    (hshared : (procs p).serves = false)
    (hkeys : ∀ a b, advisoryKey (ids a) = advisoryKey (ids b) → a = b)
    (act : Fin n → Work M → S → S) {done : List (Fin n)} {st : State (Fin n) π M S}
    (h : Waiting procs p ids deeds done st) {a : Fin n} (ha : a ∉ done)
    (hroom : done.length < capacity procs (.conn p)) :
    Waiting procs p ids deeds (a :: done) (run procs act [.go a, .go a, .go a] st) := by
  have hpool : lockPool procs p = .conn p := if_neg (by rw [hshared]; exact Bool.false_ne_true)
  have hscript : ∃ rest, callScript procs p [.guarded (ids a) (.query :: deeds a)] =
      .take (.mutex p (ids a)) :: .take (.conn p) :: .take (.key (advisoryKey (ids a))) ::
        .take (.conn p) :: rest := by
    refine ⟨.free (.conn p) :: ((deeds a).flatMap (Deed.script p (ids a)) ++
      dropGuard procs p (ids a)), ?_⟩
    simp only [callScript, Job.script, repoGuard, hpool, List.flatMap_cons, List.flatMap_nil,
      Deed.script, List.cons_append, List.nil_append, List.append_nil]
  have hstart := h.idle a ha
  obtain ⟨rest, hscript⟩ := hscript
  rw [hscript] at hstart
  -- the mutex, a connection, and the advisory lock
  have hfirst := @OrderedLocks.go_take _ _ _ _ _ _ (capacity procs) act a st _ _ _ hstart
    (by rw [h.mutexes a ha]; exact Nat.one_pos)
  have hsecond := @OrderedLocks.go_take _ _ _ _ _ _ (capacity procs) act a
    (OrderedLocks.go (capacity procs) act a st) _ _ _ (by rw [hfirst]; exact Function.update_self ..)
    (by rw [hfirst]; simpa [h.conns] using hroom)
  have hthird := @OrderedLocks.go_take _ _ _ _ _ _ (capacity procs) act a
    (OrderedLocks.go (capacity procs) act a (OrderedLocks.go (capacity procs) act a st)) _ _ _
    (by rw [hsecond]; exact Function.update_self ..)
    (by rw [hsecond, hfirst]; simp [h.keys a ha, capacity])
  have hrun : run procs act [.go a, .go a, .go a] st = OrderedLocks.go (capacity procs) act a
      (OrderedLocks.go (capacity procs) act a (OrderedLocks.go (capacity procs) act a st)) := rfl
  rw [hrun, hthird, hsecond, hfirst]
  have hne : ∀ b, b ∉ a :: done → b ≠ a ∧ b ∉ done := fun b hb =>
    ⟨fun heq => hb (heq ▸ List.mem_cons_self), fun hmem => hb (List.mem_cons_of_mem _ hmem)⟩
  refine ⟨fun b hb => ?_, fun b hb => ?_, ?_, fun b hb => ?_, fun b hb => ?_⟩
  · by_cases hba : b = a
    · subst hba
      exact ⟨⟨by simp, by simp [hpool], by simp⟩, rest, by simp⟩
    · obtain ⟨hguard, hwaits⟩ := h.waits b ((List.mem_cons.mp hb).resolve_left hba)
      simp only [Function.update_of_ne hba]
      refine ⟨⟨?_, ?_, ?_⟩, hwaits⟩
      · simpa [Function.update_of_ne hba] using hguard.mutex
      · simpa [Function.update_of_ne hba] using hguard.connection
      · simpa [Function.update_of_ne hba] using hguard.lock
  · obtain ⟨hba, hidle⟩ := hne b hb
    simp only [Function.update_of_ne hba]
    exact h.idle b hidle
  · simp [h.conns]
  · obtain ⟨hba, hidle⟩ := hne b hb
    have hother : ids b ≠ ids a := fun heq => hba (hkeys b a (congrArg advisoryKey heq))
    simp [hother, h.mutexes b hidle]
  · obtain ⟨hba, hidle⟩ := hne b hb
    have hother : advisoryKey (ids b) ≠ advisoryKey (ids a) := fun heq => hba (hkeys b a heq)
    simp [hother, h.keys b hidle]

theorem waiting_all {n : Nat} {ids : Fin n → Uuid} {deeds : Fin n → List (Deed M)}
    (hshared : (procs p).serves = false)
    (hkeys : ∀ a b, advisoryKey (ids a) = advisoryKey (ids b) → a = b)
    (act : Fin n → Work M → S → S) (order : List (Fin n)) :
    ∀ {done : List (Fin n)} {st : State (Fin n) π M S}, Waiting procs p ids deeds done st →
      (order.reverse ++ done).Nodup → order.length + done.length ≤ capacity procs (.conn p) →
      Waiting procs p ids deeds (order.reverse ++ done)
        (run procs act ((order.flatMap fun a => [a, a, a]).map .go) st) := by
  induction order with
  | nil => exact fun h _ _ => h
  | cons a order ih =>
    intro done st h hnodup hlength
    rw [List.reverse_cons, List.append_assoc, List.singleton_append] at hnodup ⊢
    rw [List.length_cons] at hlength
    have ha : a ∉ done := (List.nodup_cons.mp (List.nodup_append.mp hnodup).2.1).1
    have hnext := waiting_next procs p hshared hkeys act h ha (by omega)
    rw [List.flatMap_cons, List.map_append, run, OrderedLocks.run, Runs.run_append]
    exact ih hnext hnodup (by rw [List.length_cons]; omega)

end SharedPool

/-- Without a pool for the locks, as many calls as there are connections, each for a repository of
its own, can come to stand still: all of them have their guards, none has the connection it wants,
and nothing goes on until one of them is given up. With one connection, one call is enough. -/
theorem shared_pool_deadlocks [DecidableEq π] (p : π) (hshared : (procs p).serves = false)
    (ids : Fin (capacity procs (.conn p)) → Uuid)
    (hkeys : ∀ a b, advisoryKey (ids a) = advisoryKey (ids b) → a = b)
    (deeds : Fin (capacity procs (.conn p)) → List (Deed M))
    (act : Fin (capacity procs (.conn p)) → Work M → S → S) (start : S) :
    ∃ order : List (Fin (capacity procs (.conn p))), ∃ st,
      run procs act (order.map .go)
        (initial procs (fun a => (p, [.guarded (ids a) (.query :: deeds a)])) start) = st ∧
      (∀ a, HasGuard procs st p (ids a) a ∧ ∃ rest, (st.agents a).rest = .take (.conn p) :: rest) ∧
      ∀ more : List (Fin (capacity procs (.conn p))), run procs act (more.map .go) st = st := by
  set calls : Fin (capacity procs (.conn p)) → π × List (Job M) :=
    fun a => (p, [.guarded (ids a) (.query :: deeds a)]) with hcalls
  have hstart : Waiting procs p ids deeds [] (initial procs calls start) :=
    ⟨fun a ha => (List.not_mem_nil ha).elim, fun _ _ => rfl, rfl, fun _ _ => rfl, fun _ _ => rfl⟩
  set everyone := List.finRange (capacity procs (.conn p)) with heveryone
  have hall := waiting_all procs p hshared hkeys act everyone hstart
    (by rw [List.append_nil, List.nodup_reverse]; exact List.nodup_finRange _)
    (by rw [heveryone, List.length_finRange]; exact Nat.le_refl _)
  rw [List.append_nil] at hall
  have hwaits : ∀ a, a ∈ everyone.reverse := fun a => List.mem_reverse.mpr (List.mem_finRange a)
  refine ⟨everyone.flatMap fun a => [a, a, a], _, rfl, fun a => hall.waits a (hwaits a),
    fun more => ?_⟩
  · have hstuck : ∀ a, OrderedLocks.go (capacity procs) act a (run procs act
        ((everyone.flatMap fun a => [a, a, a]).map .go) (initial procs calls start)) =
        run procs act ((everyone.flatMap fun a => [a, a, a]).map .go) (initial procs calls start) := by
      intro a
      obtain ⟨-, rest, hrest⟩ := hall.waits a (hwaits a)
      refine OrderedLocks.go_eq_self hrest ?_
      rw [hall.conns, List.length_reverse, heveryone, List.length_finRange]
    induction more with
    | nil => rfl
    | cons a more ih =>
      rw [List.map_cons, run, OrderedLocks.run, Runs.run_cons]
      simp only [OrderedLocks.step]
      rw [hstuck a]
      exact ih

theorem shared_pool_deadlocks_two :
    ∃ order : List (Fin (capacity (fun _ : Unit => ⟨false, some 2, none⟩) (.conn ()))), ∃ st,
      run (fun _ : Unit => ⟨false, some 2, none⟩) (fun _ _ => id) (order.map .go)
        (initial (fun _ => ⟨false, some 2, none⟩)
          (fun a => ((), [.guarded (Uuid.repeated a.val) [(.query : Deed Unit)]])) ()) = st ∧
      (∀ a, HasGuard (fun _ : Unit => ⟨false, some 2, none⟩) st () (Uuid.repeated a.val) a ∧
        ∃ rest, (st.agents a).rest = .take (.conn ()) :: rest) ∧
      ∀ more : List (Fin (capacity (fun _ : Unit => ⟨false, some 2, none⟩) (.conn ()))),
        run (fun _ : Unit => ⟨false, some 2, none⟩) (fun _ _ => id) (more.map .go) st = st :=
  shared_pool_deadlocks (fun _ => ⟨false, some 2, none⟩) () rfl (fun a => Uuid.repeated a.val)
    (by decide) (fun _ => []) (fun _ _ => id) ()

end Setfork.RepoGuard
