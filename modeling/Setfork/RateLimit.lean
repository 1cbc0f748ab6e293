/- RateLimit
   digest: Requests to the core under a limit for every method over the last sixty seconds. -/
import Mathlib.Data.List.AList
import Mathlib.Data.List.DropRight
import Setfork.Foundation.SlidingWindow
import Setfork.Foundation.Text

set_option autoImplicit false
set_option relaxedAutoImplicit false

namespace Setfork.RateLimit

open Setfork.Foundation
open Setfork.Foundation.SlidingWindow

/-- Sixty seconds, in nanoseconds. -/
def window : Nat := 60000000000

/-- Methods that change git, materialise a bundle, reach a forge or fill the database. -/
def heavy : List Text :=
  ["ReceivePack", "CreateBundle", "MergeBranch", "MergeResolved", "MirrorPush", "CreateBranch",
    "DeleteBranch", "Create", "AddVersion"].map String.toList

/-- The budgets for a minute and the authorization the channel expects. -/
structure Limits where
  rpm : UInt32
  rpmHeavy : UInt32
  expectedAuth : Option Text

/-- A request as it arrives: its path, its authorization and its time. -/
structure Call where
  path : Text
  auth : Option Text
  time : Nat

abbrev Windows := AList (fun _ : Text => List Nat)

def unlimitedPath (path : Text) : Bool :=
  "/grpc.health".toList.isPrefixOf path || "/grpc.reflection".toList.isPrefixOf path

/-- The last segment of a path. -/
def methodOf (path : Text) : Text := path.rtakeWhile (· != '/')

section Limited

variable (limits : Limits)

def authorized (auth : Option Text) : Bool :=
  limits.expectedAuth.all (fun expected => auth == some expected)

def limitOf (method : Text) : UInt32 :=
  if heavy.contains method then limits.rpmHeavy else limits.rpm

/-- Whether a request passes, and the windows after it. -/
def allow (windows : Windows) (call : Call) : Bool × Windows :=
  if unlimitedPath call.path then (true, windows)
  else if !authorized limits call.auth then (true, windows)
  else
    let method := methodOf call.path
    let limit := limitOf limits method
    if limit = 0 then (true, windows)
    else
      -- an entry is made for a method that is new
      let entry := (windows.lookup method).getD []
      let q := entry.dropWhile (fun t => window < call.time - t)
      if limit ≤ q.length.toUInt32 then (false, windows.insert method q)
      else (true, windows.insert method (q ++ [call.time]))

/-- The answers to a sequence of requests, with the windows after it. -/
def serve : Windows → List Call → List (Call × Bool) × Windows
  | windows, [] => ([], windows)
  | windows, call :: calls =>
    let one := allow limits windows call
    let rest := serve one.2 calls
    ((call, one.1) :: rest.1, rest.2)

/-- A request that counts: it is authorized, its path is limited, and its method has a limit. -/
def counted (call : Call) : Bool :=
  !unlimitedPath call.path && authorized limits call.auth &&
    decide (limitOf limits (methodOf call.path) ≠ 0)

/-- The times at which authorized requests for a method on limited paths were let through. -/
def admitted (method : Text) (log : List (Call × Bool)) : List Nat :=
  (log.filter (fun e => counted limits e.1 && methodOf e.1.path == method && e.2)).map
    (fun e => e.1.time)

end Limited

/-- How far a time reaches. -/
def reach (t : Nat) : Nat := t + window

theorem monotone_reach : Monotone reach := fun _ _ h => Nat.add_le_add_right h window

section Step

variable {limits : Limits} {windows : Windows} {call : Call}

theorem allow_uncounted (h : counted limits call = false) :
    allow limits windows call = (true, windows) := by
  have hzero : ¬ unlimitedPath call.path = true → ¬ (!authorized limits call.auth) = true →
      limitOf limits (methodOf call.path) = 0 := by
    intro hpath hauth
    rw [Bool.not_eq_true, Bool.not_eq_false'] at hauth
    simpa [counted, hpath, hauth] using h
  unfold allow
  dsimp only
  split_ifs with hpath hauth hlimit
  · rfl
  · rfl
  · rfl
  · exact absurd (hzero hpath hauth) hlimit
  · exact absurd (hzero hpath hauth) hlimit

def queue (windows : Windows) (method : Text) : List Nat := (windows.lookup method).getD []

private theorem dropWhile_eq_prune (now : Nat) (q : List Nat) :
    q.dropWhile (fun t => window < now - t) = prune reach now q := by
  have hstale : (fun t => decide (window < now - t)) = fun t => decide (reach t < now) := by
    funext t
    rw [decide_eq_decide, reach]
    omega
  rw [hstale, prune]

private theorem allow_eq (h : counted limits call = true) {q : List Nat}
    (hq : prune reach call.time (queue windows (methodOf call.path)) = q) :
    allow limits windows call =
      if limitOf limits (methodOf call.path) ≤ q.length.toUInt32 then
        (false, windows.insert (methodOf call.path) q)
      else (true, windows.insert (methodOf call.path) (q ++ [call.time])) := by
  simp only [counted, Bool.and_eq_true, Bool.not_eq_true', decide_eq_true_eq] at h
  obtain ⟨⟨hpath, hauth⟩, hlimit⟩ := h
  unfold allow
  dsimp only
  rw [if_neg (by simp [hpath]), if_neg (by simp [hauth]), if_neg hlimit, dropWhile_eq_prune, ← hq,
    queue]

/-- The window of a method follows the times that were admitted. -/
def Follows (limits : Limits) (now : Nat) (log : List (Call × Bool)) (windows : Windows)
    (method : Text) : Prop :=
  Tracks reach (limitOf limits method).toNat now (admitted limits method log)
    (queue windows method)

theorem allow_counted {log : List (Call × Bool)} (h : counted limits call = true)
    (hfollows : Follows limits call.time log windows (methodOf call.path)) :
    allow limits windows call =
      if recent reach call.time (admitted limits (methodOf call.path) log) =
          (limitOf limits (methodOf call.path)).toNat then
        (false, windows.insert (methodOf call.path) (queue windows (methodOf call.path)))
      else (true, windows.insert (methodOf call.path)
        (prune reach call.time (queue windows (methodOf call.path)) ++ [call.time])) := by
  have hrecent := hfollows.recent_le monotone_reach
  have hfull : limitOf limits (methodOf call.path) ≤
      (prune reach call.time (queue windows (methodOf call.path))).length.toUInt32 ↔
      recent reach call.time (admitted limits (methodOf call.path) log) =
        (limitOf limits (methodOf call.path)).toNat := by
    -- the length is within the limit, so that 32 bits hold it
    have hsmall := (limitOf limits (methodOf call.path)).toNat_lt
    rw [hfollows.length_prune monotone_reach, UInt32.le_iff_toNat_le, Nat.toUInt32_eq,
      UInt32.toNat_ofNat', Nat.mod_eq_of_lt (by omega)]
    omega
  rw [allow_eq h rfl]
  by_cases hrefused : recent reach call.time (admitted limits (methodOf call.path) log) =
      (limitOf limits (methodOf call.path)).toNat
  · rw [if_pos (hfull.mpr hrefused), if_pos hrefused, hfollows.prune_of_full monotone_reach hrefused]
  · rw [if_neg fun hle => hrefused (hfull.mp hle), if_neg hrefused]

end Step

section Serve

variable {limits : Limits} {windows : Windows}

theorem serve_append (windows : Windows) (calls more : List Call) :
    serve limits windows (calls ++ more) =
      ((serve limits windows calls).1 ++ (serve limits (serve limits windows calls).2 more).1,
        (serve limits (serve limits windows calls).2 more).2) := by
  induction calls generalizing windows with
  | nil => rfl
  | cons call calls ih => simp only [List.cons_append, serve, ih]

theorem admitted_append (method : Text) (log more : List (Call × Bool)) :
    admitted limits method (log ++ more) =
      admitted limits method log ++ admitted limits method more := by
  rw [admitted, List.filter_append, List.map_append]
  rfl

private theorem queue_insert (method other : Text) (q : List Nat) :
    queue (windows.insert method q) other = if other = method then q else queue windows other := by
  unfold queue
  by_cases h : other = method
  · rw [if_pos h, h, AList.lookup_insert, Option.getD_some]
  · rw [if_neg h, AList.lookup_insert_ne h]

theorem follows_step {now : Nat} {log : List (Call × Bool)} {call : Call} (hnow : now ≤ call.time)
    (h : ∀ method, Follows limits now log windows method) (method : Text) :
    Follows limits call.time (log ++ [(call, (allow limits windows call).1)])
      (allow limits windows call).2 method := by
  have hlater : ∀ method, Follows limits call.time log windows method :=
    fun method => (h method).wait hnow
  have hmine := hlater (methodOf call.path)
  have hothers := hlater method
  unfold Follows at hothers ⊢
  rw [admitted_append]
  cases hcounted : counted limits call with
  | false =>
    have hnone : admitted limits method [(call, true)] = [] := by simp [admitted, hcounted]
    rw [allow_uncounted hcounted, hnone, List.append_nil]
    exact hothers
  | true =>
    rw [allow_counted hcounted hmine]
    split_ifs with hfull
    · have hnone : admitted limits method [(call, false)] = [] := by simp [admitted]
      dsimp only
      rw [hnone, List.append_nil, queue_insert]
      split_ifs with hmethod
      · rw [hmethod]
        exact hmine
      · exact hothers
    · dsimp only
      rw [queue_insert]
      by_cases hmethod : method = methodOf call.path
      · subst hmethod
        have hone : admitted limits (methodOf call.path) [(call, true)] = [call.time] := by
          simp [admitted, hcounted]
        have hbelow := lt_of_le_of_ne (hmine.recent_le monotone_reach) hfull
        rw [if_pos rfl, hone]
        exact hmine.accept monotone_reach hbelow
      · have hnone : admitted limits method [(call, true)] = [] := by
          simp [admitted, Ne.symm hmethod]
        rw [if_neg hmethod, hnone, List.append_nil]
        exact hothers

theorem follows_serve {calls : List Call} (hsorted : calls.Pairwise (fun a b => a.time ≤ b.time))
    {now : Nat} (hnow : ∀ call ∈ calls, call.time ≤ now) (method : Text) :
    Follows limits now (serve limits ∅ calls).1 (serve limits ∅ calls).2 method := by
  induction calls using List.reverseRecOn generalizing now method with
  | nil => exact Tracks.nil _ now
  | append_singleton calls call ih =>
    obtain ⟨hbefore, -, hlast⟩ := List.pairwise_append.mp hsorted
    have hcalls := ih hbefore fun c hc => hlast c hc call (List.mem_singleton.mpr rfl)
    have hstep := follows_step (le_refl call.time) hcalls method
    rw [serve_append]
    exact hstep.wait (hnow call (List.mem_append_right _ (List.mem_singleton.mpr rfl)))

private theorem lookup_insert_queue {method : Text} (h : queue windows method ≠ []) (other : Text) :
    (windows.insert method (queue windows method)).lookup other = windows.lookup other := by
  by_cases hother : other = method
  · subst hother
    rw [AList.lookup_insert]
    unfold queue at h ⊢
    cases hlookup : windows.lookup other with
    | none => exact absurd (by rw [hlookup]; rfl) h
    | some q => rfl
  · exact AList.lookup_insert_ne hother

theorem allow_after {log : List (Call × Bool)} {call : Call}
    (h : Follows limits call.time log windows (methodOf call.path)) :
    ((allow limits windows call).1 = false ↔ counted limits call = true ∧
      recent reach call.time (admitted limits (methodOf call.path) log) =
        (limitOf limits (methodOf call.path)).toNat) ∧
    ((allow limits windows call).1 = false ∨ counted limits call = false →
      ∀ method, (allow limits windows call).2.lookup method = windows.lookup method) := by
  cases hcounted : counted limits call with
  | false =>
    rw [allow_uncounted hcounted]
    simp
  | true =>
    rw [allow_counted hcounted h]
    split_ifs with hfull
    · have hqueue : queue windows (methodOf call.path) ≠ [] := by
        have hlength := h.length_prune monotone_reach
        rw [h.prune_of_full monotone_reach hfull, hfull] at hlength
        have hlimit : limitOf limits (methodOf call.path) ≠ 0 := by
          simp only [counted, Bool.and_eq_true, decide_eq_true_eq] at hcounted
          exact hcounted.2
        intro hnil
        rw [hnil, List.length_nil] at hlength
        exact hlimit (UInt32.toNat_inj.mp hlength.symm)
      exact ⟨iff_of_true rfl ⟨rfl, hfull⟩, fun _ => lookup_insert_queue hqueue⟩
    · simp [hfull]

end Serve

private theorem exists_last {calls : List Call}
    (hsorted : calls.Pairwise (fun a b => a.time ≤ b.time)) :
    ∃ now, ∀ call ∈ calls, call.time ≤ now := by
  induction calls using List.reverseRecOn with
  | nil => exact ⟨0, fun _ hcall => absurd hcall List.not_mem_nil⟩
  | append_singleton calls last _ =>
    obtain ⟨-, -, hlast⟩ := List.pairwise_append.mp hsorted
    refine ⟨last.time, fun call hcall => ?_⟩
    rcases List.mem_append.mp hcall with hcall | hcall
    · exact hlast call hcall last (List.mem_singleton.mpr rfl)
    · rw [List.mem_singleton.mp hcall]

/-- Over every sequence of requests in their order of time no sixty seconds let through more
requests for a method than its limit, a request is refused exactly when its method used up the
limit in the sixty seconds before it, and requests that are refused or do not count leave the
windows as they are. -/
theorem rate_limit_exact (limits : Limits) (calls : List Call)
    (hsorted : calls.Pairwise (fun a b => a.time ≤ b.time)) :
    (∀ method start, within reach start (admitted limits method (serve limits ∅ calls).1) ≤
      (limitOf limits method).toNat) ∧
    ∀ before call after, calls = before ++ call :: after →
      ((allow limits (serve limits ∅ before).2 call).1 = false ↔ counted limits call = true ∧
        recent reach call.time (admitted limits (methodOf call.path) (serve limits ∅ before).1) =
          (limitOf limits (methodOf call.path)).toNat) ∧
      ((allow limits (serve limits ∅ before).2 call).1 = false ∨ counted limits call = false →
        ∀ method, (allow limits (serve limits ∅ before).2 call).2.lookup method =
          (serve limits ∅ before).2.lookup method) := by
  constructor
  · intro method start
    obtain ⟨now, hnow⟩ := exists_last hsorted
    exact (follows_serve hsorted hnow method).bounded start
  · intro before call after heq
    subst heq
    obtain ⟨hbefore, -, hlast⟩ := List.pairwise_append.mp hsorted
    have hnow : ∀ c ∈ before, c.time ≤ call.time :=
      fun c hc => hlast c hc call List.mem_cons_self
    exact allow_after (follows_serve hbefore hnow _)

/-- One request a minute for every method, from whoever asks. -/
def onePerMinute : Limits := ⟨1, 1, none⟩

def getList (time : Nat) : Call := ⟨"/setfork.domain.v1.ListRead/GetList".toList, none, time⟩

theorem rate_limit_exact_minute :
    (allow onePerMinute (serve onePerMinute ∅ [getList 0]).2 (getList window)).1 = false ∧
      (allow onePerMinute (serve onePerMinute ∅ [getList 0]).2 (getList (window + 1))).1 = true := by
  have hminute := rate_limit_exact onePerMinute [getList 0, getList window] (by decide)
  have hlater := rate_limit_exact onePerMinute [getList 0, getList (window + 1)] (by decide)
  constructor
  · rw [(hminute.2 [getList 0] (getList window) [] rfl).1]
    decide
  · rw [← Bool.not_eq_false, (hlater.2 [getList 0] (getList (window + 1)) [] rfl).1]
    decide

def healthCheck (time : Nat) : Call := ⟨"/grpc.health.v1.Health/Check".toList, none, time⟩

/-- Health checks pass over the limit: they are authorized, of one method, and all let through. -/
theorem health_over_limit :
    (limitOf onePerMinute "Check".toList).toNat = 1 ∧
      (serve onePerMinute ∅ [healthCheck 0, healthCheck 0]).1.countP (fun e =>
        authorized onePerMinute e.1.auth && methodOf e.1.path == "Check".toList && e.2 &&
          decide (e.1.time ≤ reach 0)) = 2 := by
  constructor
  · decide
  · rfl

end Setfork.RateLimit
