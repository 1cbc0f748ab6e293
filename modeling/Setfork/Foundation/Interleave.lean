/- Foundation: interleavings
   digest: Agents over one shared state, one atomic step of one agent at a time, in any order. -/
import Mathlib.Logic.Function.Basic
import Setfork.Foundation.Runs

set_option autoImplicit false
set_option relaxedAutoImplicit false

namespace Setfork.Foundation.Interleave

/-- The shared state, and where every agent stands. -/
structure System (ι Shared Place : Type) where
  shared : Shared
  places : ι → Place

variable {ι Shared Place Event : Type} [DecidableEq ι]
  (advance : ι → Event → Shared → Place → Shared × Place)

/-- One step of one agent; the others stay where they are. -/
def act (op : ι × Event) (sys : System ι Shared Place) : System ι Shared Place where
  shared := (advance op.1 op.2 sys.shared (sys.places op.1)).1
  places := Function.update sys.places op.1 (advance op.1 op.2 sys.shared (sys.places op.1)).2

@[simp] theorem act_shared (op : ι × Event) (sys : System ι Shared Place) :
    (act advance op sys).shared = (advance op.1 op.2 sys.shared (sys.places op.1)).1 := rfl

theorem act_place_self (op : ι × Event) (sys : System ι Shared Place) :
    (act advance op sys).places op.1 = (advance op.1 op.2 sys.shared (sys.places op.1)).2 :=
  Function.update_self ..

theorem act_place_of_ne {op : ι × Event} {a : ι} (h : a ≠ op.1) (sys : System ι Shared Place) :
    (act advance op sys).places a = sys.places a := Function.update_of_ne h ..

/-- The system after a schedule: who takes a step, and what the step meets. -/
abbrev run (ops : List (ι × Event)) (sys : System ι Shared Place) : System ι Shared Place :=
  Runs.run (act advance) ops sys

/-- What holds of the shared state, and of every agent beside it, in every run: a step keeps what
is shared and what is its agent's own, and leaves what is the others'. -/
theorem run_owned {Good : Shared → Prop} {Own : ι → Shared → Place → Prop}
    (hstep : ∀ a e s p, Good s → Own a s p →
      Good (advance a e s p).1 ∧ Own a (advance a e s p).1 (advance a e s p).2 ∧
        ∀ b q, b ≠ a → Own b s q → Own b (advance a e s p).1 q)
    (ops : List (ι × Event)) {sys : System ι Shared Place} (hshared : Good sys.shared)
    (hplaces : ∀ a, Own a sys.shared (sys.places a)) :
    Good (run advance ops sys).shared ∧
      ∀ a, Own a (run advance ops sys).shared ((run advance ops sys).places a) := by
  have hkeeps : ∀ op (sys : System ι Shared Place),
      (Good sys.shared ∧ ∀ a, Own a sys.shared (sys.places a)) →
        Good (act advance op sys).shared ∧
          ∀ a, Own a (act advance op sys).shared ((act advance op sys).places a) := by
    rintro op sys ⟨hgood, hown⟩
    obtain ⟨hkept, hself, hothers⟩ :=
      hstep op.1 op.2 sys.shared (sys.places op.1) hgood (hown op.1)
    refine ⟨hkept, fun a => ?_⟩
    by_cases ha : a = op.1
    · subst ha
      rw [act_place_self]
      exact hself
    · rw [act_place_of_ne advance ha]
      exact hothers a _ ha (hown a)
  exact Runs.run_invariant (act advance) hkeeps ops ⟨hshared, hplaces⟩

theorem run_places {Inv : ι → Shared → Place → Prop} {Guarantee : Shared → Shared → Prop}
    (hown : ∀ a e s p, Inv a s p →
      Inv a (advance a e s p).1 (advance a e s p).2 ∧ Guarantee s (advance a e s p).1)
    (hrely : ∀ a s s' p, Inv a s p → Guarantee s s' → Inv a s' p)
    (ops : List (ι × Event)) {sys : System ι Shared Place}
    (h : ∀ a, Inv a sys.shared (sys.places a)) :
    ∀ a, Inv a (run advance ops sys).shared ((run advance ops sys).places a) := by
  have hstep : ∀ op (sys : System ι Shared Place), (∀ a, Inv a sys.shared (sys.places a)) →
      ∀ a, Inv a (act advance op sys).shared ((act advance op sys).places a) := by
    intro op sys h a
    obtain ⟨hkept, hguarantee⟩ := hown op.1 op.2 sys.shared (sys.places op.1) (h op.1)
    by_cases ha : a = op.1
    · subst ha
      rw [act_place_self]
      exact hkept
    · rw [act_place_of_ne advance ha]
      exact hrely a _ _ _ (h a) hguarantee
  exact Runs.run_invariant (act advance) hstep ops h

theorem run_shared {Inv : ι → Place → Prop} {R : Shared → Shared → Prop} (hrefl : ∀ s, R s s)
    (htrans : ∀ {a b c}, R a b → R b c → R a c)
    (hown : ∀ a e s p, Inv a p → Inv a (advance a e s p).2 ∧ R s (advance a e s p).1)
    (ops : List (ι × Event)) {sys : System ι Shared Place} (h : ∀ a, Inv a (sys.places a)) :
    ∀ i j, i ≤ j → j ≤ ops.length →
      R (run advance (ops.take i) sys).shared (run advance (ops.take j) sys).shared := by
  have hinv : ∀ more a, Inv a ((run advance more sys).places a) := fun more =>
    run_places advance hown
      (fun _ _ _ _ hp _ => hp) more h
  rw [Runs.run_related_iff (act advance) (R := fun x y => R x.shared y.shared)
    (fun _ => hrefl _) htrans ops sys]
  intro i hi
  exact (hown _ _ _ _ (hinv (ops.take i) _)).2

end Setfork.Foundation.Interleave
