/- Foundation: one lock
   digest: Agents whose critical sections take several moves under one lock, and an order in which
   the sections could have run whole. -/
import Mathlib.Data.List.Induction
import Setfork.Foundation.Interleave

set_option autoImplicit false
set_option relaxedAutoImplicit false

namespace Setfork.Foundation.Lock

open Setfork.Foundation.Interleave (System)

abbrev Move (Shared Place : Type) := Shared → Place → Shared × Place

variable {ι Shared Place : Type} [DecidableEq ι]

def whole (moves : List (Move Shared Place)) (s : Shared) (p : Place) : Shared × Place :=
  moves.foldl (fun sp move => move sp.1 sp.2) (s, p)

/-- One move of one agent. -/
def moved (op : ι × Move Shared Place) (sys : System ι Shared Place) : System ι Shared Place :=
  Interleave.act (fun _ move => move) op sys

/-- The agents with the lock: who holds it, and the moves the holder has left. -/
structure Locked (ι Shared Place : Type) where
  system : System ι Shared Place
  holder : Option (ι × List (Move Shared Place))

variable (sections : ι → Place → Option (List (Move Shared Place)))

/-- A step of an agent: it takes the lock when the lock is free, makes its next move, or lets the
lock go; an agent that has to wait does nothing. -/
def act (a : ι) (sys : Locked ι Shared Place) : Locked ι Shared Place :=
  match sys.holder with
  | none =>
    match sections a (sys.system.places a) with
    | none => sys
    | some moves => ⟨sys.system, some (a, moves)⟩
  | some (b, moves) =>
    if a = b then
      match moves with
      | [] => ⟨sys.system, none⟩
      | move :: rest => ⟨moved (b, move) sys.system, some (b, rest)⟩
    else sys

/-- The next section of an agent as one step. -/
def advance (a : ι) (_ : Unit) (s : Shared) (p : Place) : Shared × Place :=
  match sections a p with
  | none => (s, p)
  | some moves => whole moves s p

def serial (order : List ι) (start : System ι Shared Place) : System ι Shared Place :=
  Interleave.run (advance sections) (order.map fun a => (a, ())) start

/-- What a schedule has come to: the sections of an order are over, and the holder of the lock is
in the middle of its next one. -/
def InOrder (start : System ι Shared Place) (order : List ι) (sys : Locked ι Shared Place) : Prop :=
  match sys.holder with
  | none => sys.system = serial sections order start
  | some (b, left) => ∃ made,
      sections b ((serial sections order start).places b) = some (made ++ left) ∧
      sys.system = Runs.run moved (made.map fun move => (b, move)) (serial sections order start)

variable {sections}

theorem serial_append (order : List ι) (a : ι) (start : System ι Shared Place) :
    serial sections (order ++ [a]) start =
      Interleave.act (advance sections) (a, ()) (serial sections order start) := by
  rw [serial, List.map_append, Interleave.run, Runs.run_append]
  rfl

theorem run_moved (b : ι) (moves : List (Move Shared Place)) (sys : System ι Shared Place) :
    Runs.run moved (moves.map fun move => (b, move)) sys =
      ⟨(whole moves sys.shared (sys.places b)).1,
        Function.update sys.places b (whole moves sys.shared (sys.places b)).2⟩ := by
  induction moves generalizing sys with
  | nil => simp [whole, Function.update_eq_self]
  | cons move rest ih =>
    rw [List.map_cons, Runs.run_cons, ih, moved, Interleave.act_place_self]
    simp only [Interleave.act, Function.update_idem]
    rfl

theorem act_advance_of_section {b : ι} {moves : List (Move Shared Place)}
    {sys : System ι Shared Place} (h : sections b (sys.places b) = some moves) :
    Interleave.act (advance sections) (b, ()) sys =
      Runs.run moved (moves.map fun move => (b, move)) sys := by
  rw [run_moved]
  simp only [Interleave.act, advance, h]

theorem run_held (b : ι) (left : List (Move Shared Place)) (sys : System ι Shared Place) :
    Runs.run (act sections) (List.replicate (left.length + 1) b) ⟨sys, some (b, left)⟩ =
      ⟨Runs.run moved (left.map fun move => (b, move)) sys, none⟩ := by
  induction left generalizing sys with
  | nil =>
    rw [List.length_nil, List.replicate_succ, List.replicate_zero, Runs.run_cons, Runs.run_nil]
    simp only [act, if_true]
    rfl
  | cons move rest ih =>
    rw [List.length_cons, List.replicate_succ, Runs.run_cons, List.map_cons, Runs.run_cons, ← ih]
    simp only [act, if_true]

theorem run_section {b : ι} {moves : List (Move Shared Place)} {sys : System ι Shared Place}
    (h : sections b (sys.places b) = some moves) :
    Runs.run (act sections) (List.replicate (moves.length + 2) b) ⟨sys, none⟩ =
      ⟨Interleave.act (advance sections) (b, ()) sys, none⟩ := by
  rw [List.replicate_succ, Runs.run_cons, act_advance_of_section h,
    ← @run_held ι Shared Place _ sections b moves sys]
  simp only [act, h]

theorem inOrder_act {start : System ι Shared Place} {order : List ι} {sys : Locked ι Shared Place}
    (a : ι) (h : InOrder sections start order sys) :
    ∃ order', order'.length ≤ order.length + 1 ∧
      InOrder sections start order' (act sections a sys) := by
  obtain ⟨system, holder⟩ := sys
  cases holder with
  | none =>
    have hsystem : system = serial sections order start := h
    cases hsection : sections a (system.places a) with
    | none =>
      simp only [act, hsection]
      exact ⟨order, Nat.le_succ _, h⟩
    | some moves =>
      simp only [act, hsection]
      refine ⟨order, Nat.le_succ _, [], ?_, hsystem⟩
      rw [← hsystem]
      exact hsection
  | some held =>
    obtain ⟨b, left⟩ := held
    obtain ⟨made, hsection, hsystem⟩ := h
    by_cases hab : a = b
    · subst hab
      cases left with
      | nil =>
        rw [List.append_nil] at hsection
        refine ⟨order ++ [a], by simp, ?_⟩
        simp only [act, if_true]
        show system = serial sections (order ++ [a]) start
        rw [serial_append, act_advance_of_section hsection]
        exact hsystem
      | cons move rest =>
        simp only [act, if_true]
        refine ⟨order, Nat.le_succ _, made ++ [move], ?_, ?_⟩
        · rw [hsection, List.append_assoc]
          rfl
        · rw [List.map_append, Runs.run_append, ← show system = _ from hsystem]
          rfl
    · simp only [act, if_neg hab]
      exact ⟨order, Nat.le_succ _, made, hsection, hsystem⟩

theorem exists_order (sections : ι → Place → Option (List (Move Shared Place)))
    (start : System ι Shared Place) (schedule : List ι) :
    ∃ order, order.length ≤ schedule.length ∧
      InOrder sections start order (Runs.run (act sections) schedule ⟨start, none⟩) := by
  induction schedule using List.reverseRecOn with
  | nil => exact ⟨[], Nat.le_refl 0, rfl⟩
  | append_singleton schedule a ih =>
    obtain ⟨order, hlength, horder⟩ := ih
    obtain ⟨order', hlength', horder'⟩ := inOrder_act a horder
    refine ⟨order', ?_, ?_⟩
    · rw [List.length_append, List.length_singleton]
      omega
    · rw [Runs.run_append]
      exact horder'

/-- An agent that does not hold the lock stands where its own sections have left it. -/
theorem InOrder.place {start : System ι Shared Place} {order : List ι}
    {sys : Locked ι Shared Place} (h : InOrder sections start order sys) {a : ι}
    (ha : ∀ left, sys.holder ≠ some (a, left)) :
    sys.system.places a = (serial sections order start).places a := by
  obtain ⟨system, holder⟩ := sys
  cases holder with
  | none => exact congrArg (fun s => s.places a) (show system = _ from h)
  | some held =>
    obtain ⟨b, left⟩ := held
    obtain ⟨made, -, hsystem⟩ := h
    have hne : a ≠ b := by
      intro heq
      exact ha left (by rw [heq])
    rw [show system = _ from hsystem, run_moved]
    exact Function.update_of_ne hne ..

end Setfork.Foundation.Lock
