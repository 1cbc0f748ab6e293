/- Foundation: sliding windows
   digest: A queue of admitted times that forgets what is out of reach, against the whole history. -/
import Mathlib.Data.List.TakeWhile
import Mathlib.Order.Lattice
import Mathlib.Order.Monotone.Basic

set_option autoImplicit false
set_option relaxedAutoImplicit false

namespace Setfork.Foundation.SlidingWindow

variable {T : Type*} [LinearOrder T] (reach : T → T)

def prune (now : T) (q : List T) : List T := q.dropWhile (fun t => reach t < now)

/-- How many times lie in the window that starts at a time. -/
def within (a : T) (times : List T) : Nat := times.countP (fun t => a ≤ t ∧ t ≤ reach a)

/-- How many times still reach a time. -/
def recent (now : T) (times : List T) : Nat := times.countP (fun t => now ≤ reach t)

/-- The queue is the end of the admitted times, what is gone from it is out of reach, and no window
holds more than the limit. -/
structure Tracks (limit : Nat) (now : T) (admitted q : List T) : Prop where
  sorted : admitted.Pairwise (· ≤ ·)
  upTo : ∀ t ∈ admitted, t ≤ now
  queue : ∃ old, admitted = old ++ q ∧ ∀ t ∈ old, reach t < now
  short : q.length ≤ limit
  bounded : ∀ a, within reach a admitted ≤ limit

namespace Tracks

variable {reach} {limit : Nat} {now later : T} {admitted q : List T}

protected theorem nil (limit : Nat) (now : T) : Tracks reach limit now [] [] where
  sorted := List.Pairwise.nil
  upTo := fun _ ht => absurd ht List.not_mem_nil
  queue := ⟨[], rfl, fun _ ht => absurd ht List.not_mem_nil⟩
  short := Nat.zero_le limit
  bounded := fun _ => Nat.zero_le limit

theorem wait (h : Tracks reach limit now admitted q) (hlater : now ≤ later) :
    Tracks reach limit later admitted q where
  sorted := h.sorted
  upTo := fun t ht => (h.upTo t ht).trans hlater
  queue := by
    obtain ⟨old, hq, hold⟩ := h.queue
    exact ⟨old, hq, fun t ht => (hold t ht).trans_le hlater⟩
  short := h.short
  bounded := h.bounded

theorem sorted_queue (h : Tracks reach limit now admitted q) : q.Pairwise (· ≤ ·) := by
  obtain ⟨old, hq, -⟩ := h.queue
  have hsorted := h.sorted
  rw [hq] at hsorted
  exact hsorted.sublist (List.sublist_append_right old q)

end Tracks

variable {reach}

theorem prune_eq_filter (hreach : Monotone reach) (now : T) {q : List T}
    (hq : q.Pairwise (· ≤ ·)) : prune reach now q = q.filter (fun t => now ≤ reach t) := by
  induction q with
  | nil => rfl
  | cons t q ih =>
    obtain ⟨hhead, htail⟩ := List.pairwise_cons.mp hq
    by_cases hold : reach t < now
    · have hprune : prune reach now (t :: q) = prune reach now q :=
        List.dropWhile_cons_of_pos (decide_eq_true hold)
      rw [hprune, ih htail, List.filter_cons_of_neg (by simpa using hold)]
    · have hprune : prune reach now (t :: q) = t :: q :=
        List.dropWhile_cons_of_neg (by simpa using hold)
      have hall : ∀ u ∈ t :: q, decide (now ≤ reach u) = true := by
        intro u hu
        rw [decide_eq_true_eq]
        rcases List.mem_cons.mp hu with rfl | hu
        · exact not_lt.mp hold
        · exact (not_lt.mp hold).trans (hreach (hhead u hu))
      rw [hprune, List.filter_eq_self.mpr hall]

namespace Tracks

variable {limit : Nat} {now : T} {admitted q : List T}

/-- The pruned queue counts exactly the admitted times that still reach the time. -/
theorem length_prune (hreach : Monotone reach) (h : Tracks reach limit now admitted q) :
    (prune reach now q).length = recent reach now admitted := by
  obtain ⟨old, hq, hold⟩ := h.queue
  have hgone : old.countP (fun t => decide (now ≤ reach t)) = 0 := by
    rw [List.countP_eq_zero]
    intro t ht
    simpa using hold t ht
  rw [prune_eq_filter hreach now h.sorted_queue, recent, hq, List.countP_append, hgone,
    Nat.zero_add, List.countP_eq_length_filter]

theorem recent_le (hreach : Monotone reach) (h : Tracks reach limit now admitted q) :
    recent reach now admitted ≤ limit := by
  rw [← h.length_prune hreach]
  exact (List.dropWhile_sublist _).length_le.trans h.short

theorem prune_of_full (hreach : Monotone reach) (h : Tracks reach limit now admitted q)
    (hfull : recent reach now admitted = limit) : prune reach now q = q := by
  apply (List.dropWhile_sublist _).eq_of_length_le
  have hlength := h.length_prune hreach
  rw [hfull] at hlength
  exact h.short.trans hlength.ge

/-- One more time is admitted while the recent ones are below the limit. -/
theorem accept (hreach : Monotone reach) (h : Tracks reach limit now admitted q)
    (hbelow : recent reach now admitted < limit) :
    Tracks reach limit now (admitted ++ [now]) (prune reach now q ++ [now]) where
  sorted := by
    rw [List.pairwise_append]
    refine ⟨h.sorted, List.pairwise_singleton _ _, fun t ht u hu => ?_⟩
    rw [List.mem_singleton.mp hu]
    exact h.upTo t ht
  upTo := by
    intro t ht
    rcases List.mem_append.mp ht with ht | ht
    · exact h.upTo t ht
    · exact (List.mem_singleton.mp ht).le
  queue := by
    obtain ⟨old, hq, hold⟩ := h.queue
    refine ⟨old ++ q.takeWhile (fun t => reach t < now), ?_, fun t ht => ?_⟩
    · rw [hq, prune, List.append_assoc, List.append_assoc, ← List.append_assoc (q.takeWhile _),
        List.takeWhile_append_dropWhile]
    · rcases List.mem_append.mp ht with ht | ht
      · exact hold t ht
      · have hgone := List.mem_takeWhile_imp ht
        exact of_decide_eq_true hgone
  short := by
    rw [List.length_append, h.length_prune hreach]
    exact hbelow
  bounded := by
    intro a
    rw [within, List.countP_append, List.countP_singleton]
    by_cases hin : a ≤ now ∧ now ≤ reach a
    · -- whatever lies in the window of `a` still reaches the time that is admitted
      have hrecent : within reach a admitted ≤ recent reach now admitted := by
        apply List.countP_mono_left
        intro t ht hta
        rw [decide_eq_true_eq] at hta ⊢
        exact hin.2.trans (hreach hta.1)
      rw [if_pos (decide_eq_true hin)]
      exact Nat.lt_of_le_of_lt hrecent hbelow
    · rw [if_neg (by simpa using hin), Nat.add_zero]
      exact h.bounded a

end Tracks

end Setfork.Foundation.SlidingWindow
