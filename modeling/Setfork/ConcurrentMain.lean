/- ConcurrentMain
   digest: Concurrent moves of main, in any order between their reads and the final
   compare-and-set. -/
import Setfork.Foundation.Interleave
import Setfork.Repository

set_option autoImplicit false
set_option relaxedAutoImplicit false

namespace Setfork.ConcurrentMain

open Setfork.Foundation
open Setfork.Foundation.Refs (Forward)
open Setfork.Authored
open Setfork.Repository

/-- A move of main: the new tip, and what main is expected to point at. -/
structure MainCall where
  newTip : Target
  expectedOld : Option Target

inductive Phase where
  | start
  | checked
  | matched
  | forward
  | done (result : Except MainUpdateError Unit)

def checkTree (ok : Bool) : Target → Except MainUpdateError Unit
  | .object _ _ => .error gitError
  | .commit c =>
    if !ok then .error gitError
    else
      match mainViolation c.tree with
      | some e => .error e
      | none => .ok ()

def checkForward (ok : Bool) (newTip : Target) : Option Target → Except MainUpdateError Unit
  | none => .ok ()
  | some old =>
    if newTip = old then .ok ()
    else
      match newTip, old with
      | .commit c, .commit a =>
        if !ok then .error gitError
        else if c.Reaches a then .ok () else .error .nonFastForward
      | _, _ => .error gitError

/-- The write of a reference against its expected value; no expected value means that the
reference must not exist. -/
def referenceMatching (ok : Bool) (main expected : Option Target) (newTip : Target) :
    Option Target × Except MainUpdateError Unit :=
  if !ok then (main, .error gitError)
  else if main = expected then (some newTip, .ok ())
  else (main, .error .stale)

/-- The next step of a call against the main of that moment; the flag says whether the git library
serves it. A main that cannot be read counts as missing. -/
def advance (call : MainCall) (ok : Bool) (main : Option Target) : Phase → Option Target × Phase
  | .start =>
    match checkTree ok call.newTip with
    | .error e => (main, .done (.error e))
    | .ok _ => (main, .checked)
  | .checked =>
    if (if ok then main else none) = call.expectedOld then (main, .matched)
    else (main, .done (.error .stale))
  | .matched =>
    match checkForward ok call.newTip call.expectedOld with
    | .error e => (main, .done (.error e))
    | .ok _ => (main, .forward)
  | .forward =>
    let written := referenceMatching ok main call.expectedOld call.newTip
    (written.1, .done written.2)
  | .done result => (main, .done result)

def alone (call : MainCall) (main : Option Target) : Option Target × Phase :=
  let tree := advance call true main .start
  let read := advance call true tree.1 tree.2
  let graph := advance call true read.1 read.2
  advance call true graph.1 graph.2

theorem alone_eq_updateMain (refs : Refs) (newTip : Commit) (expectedOld : Option Commit) :
    alone ⟨.commit newTip, expectedOld.map .commit⟩ (refs.lookup mainRef) =
      match updateMain refs true newTip expectedOld with
      | .ok moved => (moved.lookup mainRef, .done (.ok ()))
      | .error e => (refs.lookup mainRef, .done (.error e)) := by
  unfold alone updateMain
  cases hformat : mainViolation newTip.tree with
  | some e => simp [advance, checkTree, hformat]
  | none =>
    by_cases hold : refs.lookup mainRef = expectedOld.map .commit
    · cases expectedOld with
      | none =>
        have hnone : refs.lookup mainRef = none := hold
        simp [advance, checkTree, hformat, hnone, checkForward, referenceMatching]
      | some old =>
        have hsome : refs.lookup mainRef = some (.commit old) := hold
        by_cases hsame : newTip = old
        · subst hsame
          have hreach : newTip.Reaches newTip := .refl
          simp [advance, checkTree, hformat, hsome, checkForward, referenceMatching, hreach]
        · by_cases hreach : newTip.Reaches old
          · simp [advance, checkTree, hformat, hsome, checkForward, referenceMatching, hsame, hreach]
          · simp [advance, checkTree, hformat, hsome, checkForward, hsame, hreach]
    · simp [advance, checkTree, hformat, hold]

/-- Main is kept, or moves forward; it is created once. -/
def Grows (before after : Option Target) : Prop :=
  ∀ t, before = some t → ∃ u, after = some u ∧ Forward t u

theorem Grows.refl (main : Option Target) : Grows main main := fun t ht => ⟨t, ht, Or.inl rfl⟩

theorem Grows.trans {a b c : Option Target} (h : Grows a b) (h' : Grows b c) : Grows a c := by
  intro t ht
  obtain ⟨u, hu, htu⟩ := h t ht
  obtain ⟨v, hv, huv⟩ := h' u hu
  exact ⟨v, hv, htu.trans huv⟩

def ChecksPassed (call : MainCall) (phase : Phase) : Prop :=
  phase = .forward → ∀ old, call.expectedOld = some old → Forward old call.newTip

theorem forward_of_checkForward {ok : Bool} {newTip old : Target}
    (h : checkForward ok newTip (some old) = .ok ()) : Forward old newTip := by
  by_cases hsame : newTip = old
  · exact Or.inl hsame
  · unfold checkForward at h
    dsimp only at h
    rw [if_neg hsame] at h
    cases newTip with
    | object id tagged => cases h
    | commit c =>
      cases old with
      | object id tagged => cases h
      | commit a =>
        dsimp only at h
        split_ifs at h with hok hreach
        exact Or.inr ⟨a, c, rfl, rfl, hreach⟩

theorem advance_cases (call : MainCall) (ok : Bool) (main : Option Target) (phase : Phase) :
    ((advance call ok main phase).1 = main ∧
      ((advance call ok main phase).2 = .done (.ok ()) → phase = .done (.ok ()))) ∨
    (phase = .forward ∧ main = call.expectedOld ∧
      advance call ok main phase = (some call.newTip, .done (.ok ()))) := by
  cases phase with
  | start =>
    left
    rw [advance]
    cases checkTree ok call.newTip with
    | error e => exact ⟨rfl, nofun⟩
    | ok u => exact ⟨rfl, nofun⟩
  | checked =>
    left
    rw [advance]
    generalize (if ok then main else none) = current
    split_ifs
    · exact ⟨rfl, nofun⟩
    · exact ⟨rfl, nofun⟩
  | matched =>
    left
    rw [advance]
    cases checkForward ok call.newTip call.expectedOld with
    | error e => exact ⟨rfl, nofun⟩
    | ok u => exact ⟨rfl, nofun⟩
  | forward =>
    rw [advance, referenceMatching]
    split_ifs with hok hmain
    · exact Or.inl ⟨rfl, nofun⟩
    · exact Or.inr ⟨rfl, hmain, rfl⟩
    · exact Or.inl ⟨rfl, nofun⟩
  | done result => exact Or.inl ⟨rfl, id⟩

theorem checksPassed_advance (call : MainCall) (ok : Bool) (main : Option Target) (phase : Phase) :
    ChecksPassed call (advance call ok main phase).2 := by
  intro hforward old hold
  cases phase with
  | start =>
    rw [advance] at hforward
    cases hcheck : checkTree ok call.newTip <;> rw [hcheck] at hforward <;> cases hforward
  | checked =>
    rw [advance] at hforward
    split_ifs at hforward
  | matched =>
    rw [advance] at hforward
    cases hcheck : checkForward ok call.newTip call.expectedOld with
    | error e =>
      rw [hcheck] at hforward
      cases hforward
    | ok u =>
      rw [hold] at hcheck
      exact forward_of_checkForward hcheck
  | forward => cases hforward
  | done result => cases hforward

theorem grows_advance (call : MainCall) (ok : Bool) (main : Option Target) {phase : Phase}
    (h : ChecksPassed call phase) : Grows main (advance call ok main phase).1 := by
  rcases advance_cases call ok main phase with ⟨hsame, -⟩ | ⟨hphase, hmain, hdone⟩
  · rw [hsame]
    exact .refl main
  · rw [hdone]
    intro t ht
    rw [hmain] at ht
    exact ⟨call.newTip, rfl, h hphase t ht⟩

section Schedules

variable {ι : Type} [DecidableEq ι] (calls : ι → MainCall) (main : Option Target)
  (schedule : List (ι × Bool))

/-- Main and the phases of all calls after the first steps of a schedule; each step is one of a
call, and says whether the git library serves it. -/
def after (n : Nat) : Interleave.System ι (Option Target) Phase :=
  Interleave.run (fun a => advance (calls a)) (schedule.take n) ⟨main, fun _ => .start⟩

variable {calls main schedule}

theorem after_zero : after calls main schedule 0 = ⟨main, fun _ => .start⟩ := by
  rw [after, List.take_zero]
  rfl

theorem after_succ {k : Nat} (hk : k < schedule.length) : after calls main schedule (k + 1) =
    Interleave.act (fun a => advance (calls a)) schedule[k] (after calls main schedule k) :=
  Runs.run_take_succ _ schedule _ k hk

theorem after_step {k : Nat} (hk : k < schedule.length) :
    ((after calls main schedule (k + 1)).shared = (after calls main schedule k).shared ∧
      ∀ a, (after calls main schedule (k + 1)).places a = .done (.ok ()) →
        (after calls main schedule k).places a = .done (.ok ())) ∨
    ((after calls main schedule k).places schedule[k].1 = .forward ∧
      (after calls main schedule k).shared = (calls schedule[k].1).expectedOld ∧
      (after calls main schedule (k + 1)).shared = some (calls schedule[k].1).newTip ∧
      (after calls main schedule (k + 1)).places schedule[k].1 = .done (.ok ())) := by
  rw [after_succ hk]
  set sys := after calls main schedule k
  have hself := Interleave.act_place_self (fun a => advance (calls a)) schedule[k] sys
  have hother : ∀ a, a ≠ schedule[k].1 →
      (Interleave.act (fun a => advance (calls a)) schedule[k] sys).places a = sys.places a :=
    fun a ha => Interleave.act_place_of_ne (fun a => advance (calls a)) ha sys
  rcases advance_cases (calls schedule[k].1) schedule[k].2 sys.shared (sys.places schedule[k].1)
    with ⟨hsame, hquiet⟩ | ⟨hphase, hmain, hdone⟩
  · refine Or.inl ⟨hsame, fun a ha => ?_⟩
    by_cases heq : a = schedule[k].1
    · subst heq
      rw [hself] at ha
      exact hquiet ha
    · rwa [hother a heq] at ha
  · refine Or.inr ⟨hphase, hmain, ?_, ?_⟩
    · rw [Interleave.act_shared, hdone]
    · rw [hself, hdone]

theorem after_grows {i j : Nat} (hij : i ≤ j) (hj : j ≤ schedule.length) :
    Grows (after calls main schedule i).shared (after calls main schedule j).shared := by
  have hown : ∀ a e s p, ChecksPassed (calls a) p →
      ChecksPassed (calls a) (advance (calls a) e s p).2 ∧ Grows s (advance (calls a) e s p).1 :=
    fun a e s p hp => ⟨checksPassed_advance (calls a) e s p, grows_advance (calls a) e s hp⟩
  have hstart : ∀ a, ChecksPassed (calls a) .start := fun a h => nomatch h
  exact Interleave.run_shared (fun a => advance (calls a)) Grows.refl Grows.trans hown schedule
    hstart i j hij hj

theorem after_done {a : ι} {result : Except MainUpdateError Unit} {i j : Nat} (hij : i ≤ j)
    (hj : j ≤ schedule.length) (h : (after calls main schedule i).places a = .done result) :
    (after calls main schedule j).places a = .done result := by
  have hstep : ∀ (op : ι × Bool) (sys : Interleave.System ι (Option Target) Phase),
      sys.places a = .done result →
      (Interleave.act (fun a => advance (calls a)) op sys).places a = .done result := by
    intro op sys hdone
    by_cases heq : a = op.1
    · subst heq
      rw [Interleave.act_place_self, hdone]
      rfl
    · rw [Interleave.act_place_of_ne _ heq, hdone]
  exact Runs.run_stays (Interleave.act fun a => advance (calls a)) hstep schedule _ hij hj h

theorem after_place_of_ne {k : Nat} (hk : k < schedule.length) {a : ι} (ha : a ≠ schedule[k].1) :
    (after calls main schedule (k + 1)).places a = (after calls main schedule k).places a := by
  rw [after_succ hk]
  exact Interleave.act_place_of_ne (fun a => advance (calls a)) ha _

theorem exists_turn_success {a : ι} {n : Nat}
    (h : (after calls main schedule n).places a = .done (.ok ())) :
    ∃ k < n, (after calls main schedule k).places a ≠ .done (.ok ()) ∧
      (after calls main schedule (k + 1)).places a = .done (.ok ()) :=
  Runs.exists_turn (Interleave.act fun a => advance (calls a))
    (P := fun sys : Interleave.System ι (Option Target) Phase => sys.places a = .done (.ok ()))
    schedule ⟨main, fun _ => .start⟩ (fun h => nomatch h) h

/-- Whatever calls are interleaved in whatever order: main only grows; a call that succeeds has
replaced exactly what it expected by its new tip in one of its steps, and left main alone in the
others; a call that fails has not moved main. -/
theorem main_only_grows (calls : ι → MainCall) (main : Option Target)
    (schedule : List (ι × Bool)) :
    (∀ i j, i ≤ j → j ≤ schedule.length →
      Grows (after calls main schedule i).shared (after calls main schedule j).shared) ∧
    ∀ n ≤ schedule.length, ∀ a,
      ((after calls main schedule n).places a = .done (.ok ()) →
        ∃ k, ∃ hk : k < schedule.length, k < n ∧ schedule[k].1 = a ∧
          (after calls main schedule k).shared = (calls a).expectedOld ∧
          (after calls main schedule (k + 1)).shared = some (calls a).newTip ∧
          ∀ j, ∀ hj : j < schedule.length, j < n → schedule[j].1 = a → j ≠ k →
            (after calls main schedule (j + 1)).shared = (after calls main schedule j).shared) ∧
      ∀ e, (after calls main schedule n).places a = .done (.error e) →
        ∀ j, ∀ hj : j < schedule.length, j < n → schedule[j].1 = a →
          (after calls main schedule (j + 1)).shared = (after calls main schedule j).shared := by
  refine ⟨fun i j hij hj => after_grows hij hj, fun n hn a => ⟨fun hdone => ?_, ?_⟩⟩
  · have hturn : ∃ k < n, (after calls main schedule k).places a ≠ .done (.ok ()) ∧
        (after calls main schedule (k + 1)).places a = .done (.ok ()) :=
      exists_turn_success hdone
    obtain ⟨k, hkn, hbefore, hafter⟩ := hturn
    have hk : k < schedule.length := by omega
    rcases after_step hk with ⟨-, hquiet⟩ | ⟨hphase, hold, hnew, hsuccess⟩
    · exact absurd (hquiet a hafter) hbefore
    · have hown : schedule[k].1 = a := by
        by_contra hne
        rw [after_place_of_ne hk (Ne.symm hne)] at hafter
        exact hbefore hafter
      refine ⟨k, hk, hkn, hown, by rw [hold, hown], by rw [hnew, hown], ?_⟩
      intro j hj hjn hja hjk
      rcases after_step hj with ⟨hsame, -⟩ | ⟨hphase', -, -, hsuccess'⟩
      · exact hsame
      · rw [hja] at hphase' hsuccess'
        rw [hown] at hphase
        rcases Nat.lt_or_gt_of_ne hjk with hlt | hlt
        · have hstill := after_done (show j + 1 ≤ k by omega) (by omega) hsuccess'
          exact absurd hstill hbefore
        · have hstill := after_done (show k + 1 ≤ j by omega) (by omega) hafter
          rw [hstill] at hphase'
          cases hphase'
  · intro e hfailed j hj hjn hja
    rcases after_step hj with ⟨hsame, -⟩ | ⟨-, -, -, hsuccess⟩
    · exact hsame
    · rw [hja] at hsuccess
      have hstill := after_done (show j + 1 ≤ n by omega) hn hsuccess
      rw [hfailed] at hstill
      cases hstill

end Schedules

end Setfork.ConcurrentMain
