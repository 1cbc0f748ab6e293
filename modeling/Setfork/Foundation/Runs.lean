/- Foundation: runs
   digest: Runs of a step function, the states they pass through, and what every step has to keep. -/
import Mathlib.Data.List.Basic
import Mathlib.Data.Nat.Init

set_option autoImplicit false
set_option relaxedAutoImplicit false

namespace Setfork.Foundation.Runs

variable {State Op : Type} (step : Op → State → State)

/-- The state after a run. -/
def run (ops : List Op) (st : State) : State := ops.foldl (fun s op => step op s) st

@[simp] theorem run_nil (st : State) : run step [] st = st := rfl

@[simp] theorem run_cons (op : Op) (ops : List Op) (st : State) :
    run step (op :: ops) st = run step ops (step op st) := rfl

theorem run_append (ops more : List Op) (st : State) :
    run step (ops ++ more) st = run step more (run step ops st) := List.foldl_append

theorem run_take_succ (ops : List Op) (st : State) (i : Nat) (h : i < ops.length) :
    run step (ops.take (i + 1)) st = step ops[i] (run step (ops.take i) st) := by
  rw [List.take_succ_eq_append_getElem h, run_append]
  rfl

theorem run_invariant {Inv : State → Prop} (hstep : ∀ op st, Inv st → Inv (step op st))
    (ops : List Op) {st : State} (h : Inv st) : Inv (run step ops st) := by
  induction ops generalizing st with
  | nil => exact h
  | cons op ops ih => exact ih (hstep op st h)

/-- A transitive relation holds between any two states of a run when it holds along every step. -/
theorem run_related_iff {R : State → State → Prop} (hrefl : ∀ st, R st st)
    (htrans : ∀ {a b c}, R a b → R b c → R a c) (ops : List Op) (st : State) :
    (∀ i j, i ≤ j → j ≤ ops.length → R (run step (ops.take i) st) (run step (ops.take j) st)) ↔
      ∀ i (h : i < ops.length),
        R (run step (ops.take i) st) (step ops[i] (run step (ops.take i) st)) := by
  constructor
  · intro h i hi
    have hnext := h i (i + 1) (Nat.le_succ i) hi
    rwa [run_take_succ step ops st i hi] at hnext
  · intro h i j hij
    induction j, hij using Nat.le_induction with
    | base => exact fun _ => hrefl _
    | succ j hij ih =>
      intro hj
      apply htrans (ih (by omega))
      rw [run_take_succ step ops st j (by omega)]
      exact h j (by omega)

theorem run_stays {P : State → Prop} (hstep : ∀ op st, P st → P (step op st)) (ops : List Op)
    (st : State) {i j : Nat} (hij : i ≤ j) (hj : j ≤ ops.length)
    (h : P (run step (ops.take i) st)) : P (run step (ops.take j) st) := by
  have hrelated := (run_related_iff step (R := fun a b => P a → P b) (fun _ => id)
    (fun hab hbc ha => hbc (hab ha)) ops st).mpr fun i hi => hstep _ _
  exact hrelated i j hij hj h

/-- Where a property holds in a later state and not in the first one, some step brings it about. -/
theorem exists_turn {P : State → Prop} (ops : List Op) (st : State) {n : Nat} (hstart : ¬ P st)
    (h : P (run step (ops.take n) st)) :
    ∃ k < n, ¬ P (run step (ops.take k) st) ∧ P (run step (ops.take (k + 1)) st) := by
  induction n with
  | zero => exact absurd h hstart
  | succ n ih =>
    by_cases hn : P (run step (ops.take n) st)
    · obtain ⟨k, hk, hturn⟩ := ih hn
      exact ⟨k, Nat.lt_succ_of_lt hk, hturn⟩
    · exact ⟨n, Nat.lt_succ_self n, hn, h⟩

variable (passes : Op → State → List State)

/-- The states of a run, those inside of its steps included. -/
def trail : List Op → State → List State
  | [], st => [st]
  | op :: ops, st => st :: (passes op st ++ trail ops (step op st))

theorem mem_trail_self (ops : List Op) (st : State) : st ∈ trail step passes ops st := by
  cases ops with
  | nil => exact List.mem_singleton_self st
  | cons op ops => exact List.mem_cons_self

theorem forall_lt_cons {P : Op → State → Prop} (op : Op) (ops : List Op) (st : State) :
    (∀ i (h : i < (op :: ops).length),
      P (op :: ops)[i] (run step ((op :: ops).take i) st)) ↔
    P op st ∧ ∀ i (h : i < ops.length), P ops[i] (run step (ops.take i) (step op st)) := by
  constructor
  · intro h
    refine ⟨h 0 (Nat.succ_pos _), fun i hi => ?_⟩
    exact h (i + 1) (Nat.succ_lt_succ hi)
  · intro h i hi
    cases i with
    | zero => exact h.1
    | succ i => exact h.2 i (Nat.lt_of_succ_lt_succ hi)

theorem trail_all_iff {Inv Good : State → Prop} {Meets : Op → State → Prop}
    (hinv : ∀ op st, Inv st → Inv (step op st))
    (hgood : ∀ op st, Inv st → Good st →
      (((∀ s ∈ passes op st, Good s) ∧ Good (step op st)) ↔ Meets op st))
    (ops : List Op) {st : State} (hst : Inv st) (hstart : Good st) :
    (∀ s ∈ trail step passes ops st, Good s) ↔
      ∀ i (h : i < ops.length), Meets ops[i] (run step (ops.take i) st) := by
  induction ops generalizing st with
  | nil =>
    constructor
    · intro _ i hi
      exact absurd hi (Nat.not_lt_zero i)
    · intro _ s hs
      rw [List.mem_singleton.mp hs]
      exact hstart
  | cons op ops ih =>
    have hnext := hinv op st hst
    have hone := hgood op st hst hstart
    rw [forall_lt_cons step (P := Meets)]
    constructor
    · intro h
      have hpassed : ∀ s ∈ passes op st, Good s := fun s hs =>
        h s (List.mem_cons_of_mem st (List.mem_append_left _ hs))
      have hlater : ∀ s ∈ trail step passes ops (step op st), Good s := fun s hs =>
        h s (List.mem_cons_of_mem st (List.mem_append_right _ hs))
      have hleft := hlater _ (mem_trail_self step passes ops _)
      exact ⟨hone.mp ⟨hpassed, hleft⟩, (ih hnext hleft).mp hlater⟩
    · intro h
      obtain ⟨hpassed, hleft⟩ := hone.mpr h.1
      have hlater := (ih hnext hleft).mpr h.2
      intro s hs
      rcases List.mem_cons.mp hs with rfl | hs
      · exact hstart
      · rcases List.mem_append.mp hs with hs | hs
        · exact hpassed s hs
        · exact hlater s hs

theorem run_all_iff {Inv Good : State → Prop} {Meets : Op → State → Prop}
    (hinv : ∀ op st, Inv st → Inv (step op st))
    (hgood : ∀ op st, Inv st → Good st → (Good (step op st) ↔ Meets op st))
    (ops : List Op) {st : State} (hst : Inv st) (hstart : Good st) :
    (∀ i ≤ ops.length, Good (run step (ops.take i) st)) ↔
      ∀ i (h : i < ops.length), Meets ops[i] (run step (ops.take i) st) := by
  have hkept : ∀ i, Inv (run step (ops.take i) st) := fun i =>
    run_invariant step hinv (ops.take i) hst
  constructor
  · intro h i hi
    have hnext := h (i + 1) hi
    rw [run_take_succ step ops st i hi] at hnext
    exact (hgood _ _ (hkept i) (h i (Nat.le_of_lt hi))).mp hnext
  · intro h i hi
    induction i with
    | zero => exact hstart
    | succ i ih =>
      rw [run_take_succ step ops st i hi]
      exact (hgood _ _ (hkept i) (ih (Nat.le_of_lt hi))).mpr (h i hi)

theorem foldlM_isOk_iff {α σ ε : Type} {f : σ → α → Except ε σ} {Inv : σ → Prop} {Ok : α → Prop}
    (hstep : ∀ s a, Inv s → ((∃ s', f s a = .ok s') ↔ Ok a) ∧ ∀ s', f s a = .ok s' → Inv s')
    (xs : List α) {s : σ} (hs : Inv s) :
    ((∃ s', xs.foldlM f s = .ok s') ↔ ∀ a ∈ xs, Ok a) ∧
      ∀ s', xs.foldlM f s = .ok s' → Inv s' := by
  induction xs generalizing s with
  | nil =>
    have hpure : List.foldlM f s [] = Except.ok s := rfl
    rw [hpure]
    refine ⟨⟨fun _ a ha => absurd ha List.not_mem_nil, fun _ => ⟨s, rfl⟩⟩, fun s' h => ?_⟩
    rw [← Except.ok.inj h]
    exact hs
  | cons a xs ih =>
    obtain ⟨hok, hkept⟩ := hstep s a hs
    rw [List.foldlM_cons, List.forall_mem_cons]
    cases hfirst : f s a with
    | error e =>
      have hbad : ¬ Ok a := by
        intro ha
        obtain ⟨s', h⟩ := hok.mpr ha
        rw [hfirst] at h
        cases h
      refine ⟨⟨fun h => ?_, fun h => absurd h.1 hbad⟩, fun s' h => ?_⟩
      · obtain ⟨s', h⟩ := h
        cases h
      · cases h
    | ok next =>
      obtain ⟨hrest, hlast⟩ := ih (hkept next hfirst)
      have ha : Ok a := hok.mp ⟨next, hfirst⟩
      exact ⟨hrest.trans (and_iff_right ha).symm, hlast⟩

end Setfork.Foundation.Runs
