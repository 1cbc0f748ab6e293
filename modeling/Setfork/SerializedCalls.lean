/- SerializedCalls
   digest: Calls of one key in turn: a map of counted gates, and the clean-up of every call. -/
import Mathlib.Data.Finset.Card
import Setfork.Foundation.Interleave

set_option autoImplicit false
set_option relaxedAutoImplicit false

namespace Setfork.SerializedCalls

open Setfork.Foundation
open Setfork.Foundation.Interleave (System)

structure Gate where
  strong : Nat
  held : Bool

structure Shared (K : Type) where
  gates : K → Option Nat
  heap : Nat → Gate
  next : Nat

/-- Where a call stands. After its future is over it drops what it declared in reverse order: the
guard, the reference to the gate, and the cleaner of the map. -/
inductive Phase where
  | coming
  | declared
  | waiting (g : Nat)
  | executing (g : Nat)
  | releasing (g : Nat)
  | dropping (g : Nat)
  | cleaning
  | done

namespace Phase

def gate : Phase → Option Nat
  | waiting g | executing g | releasing g | dropping g => some g
  | _ => none

def guard : Phase → Option Nat
  | executing g | releasing g => some g
  | _ => none

def alive : Phase → Bool
  | coming | done => false
  | _ => true

theorem gate_of_guard {p : Phase} {g : Nat} (h : p.guard = some g) : p.gate = some g := by
  cases p <;> first | exact h | cases h

theorem alive_of_gate {p : Phase} {g : Nat} (h : p.gate = some g) : p.alive = true := by
  cases p <;> first | rfl | cases h

end Phase

section Model

variable {ι K : Type} [DecidableEq K] (key : ι → K)

/-- The next step of a call, which may be dropped where it waits: before it is polled for the first
time, in the queue of its gate, and in its future. -/
def advance (a : ι) (dropped : Bool) (s : Shared K) (p : Phase) : Shared K × Phase :=
  match p with
  | .coming => (s, if dropped then .done else .declared)
  | .declared =>
    match s.gates (key a) with
    | some g =>
      (⟨s.gates, Function.update s.heap g ⟨(s.heap g).strong + 1, (s.heap g).held⟩, s.next⟩,
        .waiting g)
    | none =>
      (⟨Function.update s.gates (key a) (some s.next), Function.update s.heap s.next ⟨2, false⟩,
        s.next + 1⟩, .waiting s.next)
  | .waiting g =>
    if dropped then (s, .dropping g)
    else if (s.heap g).held then (s, .waiting g)
    else (⟨s.gates, Function.update s.heap g ⟨(s.heap g).strong, true⟩, s.next⟩, .executing g)
  | .executing g => (s, .releasing g)
  | .releasing g =>
    (⟨s.gates, Function.update s.heap g ⟨(s.heap g).strong, false⟩, s.next⟩, .dropping g)
  | .dropping g =>
    (⟨s.gates, Function.update s.heap g ⟨(s.heap g).strong - 1, (s.heap g).held⟩, s.next⟩,
      .cleaning)
  | .cleaning =>
    match s.gates (key a) with
    | some g =>
      if (s.heap g).strong = 1 then
        (⟨Function.update s.gates (key a) none,
          Function.update s.heap g ⟨(s.heap g).strong - 1, (s.heap g).held⟩, s.next⟩, .done)
      else (s, .done)
    | none => (s, .done)
  | .done => (s, .done)

abbrev step [DecidableEq ι] (op : ι × Bool) (sys : System ι (Shared K) Phase) :
    System ι (Shared K) Phase :=
  Interleave.act (advance key) op sys

/-- No gate, and no call yet. -/
def initial : System ι (Shared K) Phase :=
  ⟨⟨fun _ => none, fun _ => ⟨0, false⟩, 0⟩, fun _ => .coming⟩

/-- At most one future for each key is executing. -/
def Exclusive (sys : System ι (Shared K) Phase) : Prop :=
  ∀ a b g g', sys.places a = .executing g → sys.places b = .executing g' → key a = key b → a = b

/-- The calls of a key that have a gate have the same one, which is that of the map. -/
def OneGate (sys : System ι (Shared K) Phase) : Prop :=
  ∀ a g, (sys.places a).gate = some g → sys.shared.gates (key a) = some g

/-- A key without a call that is alive has no entry in the map. -/
def NoLeak (sys : System ι (Shared K) Phase) : Prop :=
  ∀ k, (∀ a, key a = k → (sys.places a).alive = false) → sys.shared.gates k = none

structure Inv (sys : System ι (Shared K) Phase) : Prop where
  oneGate : OneGate key sys
  own : ∀ k k' g, sys.shared.gates k = some g → sys.shared.gates k' = some g → k = k'
  fresh : ∀ k g, sys.shared.gates k = some g → g < sys.shared.next
  counted : ∀ k g, sys.shared.gates k = some g → ∃ owners : Finset ι,
    (∀ a, a ∈ owners ↔ (sys.places a).gate = some g) ∧
      (sys.shared.heap g).strong = owners.card + 1
  held : ∀ a g, (sys.places a).guard = some g → (sys.shared.heap g).held = true
  alone : ∀ a b g, (sys.places a).guard = some g → (sys.places b).guard = some g → a = b
  noLeak : NoLeak key sys

end Model

section Steps

variable {ι K : Type} [DecidableEq K] {key : ι → K}

/-- The steps of a call for `k`, by what they do to the map and the gates. -/
inductive Moved (k : K) (s : Shared K) (p : Phase) : Shared K → Phase → Prop
  | rests (q : Phase) : q.gate = p.gate → q.guard = p.guard → (p.alive = true → q.alive = true) →
      Moved k s p s q
  | joins (g : Nat) : p = .declared → s.gates k = some g →
      Moved k s p ⟨s.gates, Function.update s.heap g ⟨(s.heap g).strong + 1, (s.heap g).held⟩,
        s.next⟩ (.waiting g)
  | opens : p = .declared → s.gates k = none →
      Moved k s p ⟨Function.update s.gates k (some s.next),
        Function.update s.heap s.next ⟨2, false⟩, s.next + 1⟩ (.waiting s.next)
  | enters (g : Nat) : p = .waiting g → (s.heap g).held = false →
      Moved k s p ⟨s.gates, Function.update s.heap g ⟨(s.heap g).strong, true⟩, s.next⟩
        (.executing g)
  | releases (g : Nat) : p = .releasing g →
      Moved k s p ⟨s.gates, Function.update s.heap g ⟨(s.heap g).strong, false⟩, s.next⟩
        (.dropping g)
  | drops (g : Nat) : p = .dropping g →
      Moved k s p ⟨s.gates, Function.update s.heap g ⟨(s.heap g).strong - 1, (s.heap g).held⟩,
        s.next⟩ .cleaning
  | removes (g : Nat) : p = .cleaning → s.gates k = some g → (s.heap g).strong = 1 →
      Moved k s p ⟨Function.update s.gates k none,
        Function.update s.heap g ⟨(s.heap g).strong - 1, (s.heap g).held⟩, s.next⟩ .done
  | goes : p = .cleaning → (∀ g, s.gates k = some g → (s.heap g).strong ≠ 1) →
      Moved k s p s .done

theorem moved_advance (a : ι) (dropped : Bool) (s : Shared K) (p : Phase) :
    Moved (key a) s p (advance key a dropped s p).1 (advance key a dropped s p).2 := by
  cases p with
  | coming =>
    cases dropped with
    | true => exact .rests .done rfl rfl fun h => h
    | false => exact .rests .declared rfl rfl fun _ => rfl
  | declared =>
    cases hgate : s.gates (key a) with
    | none =>
      simp only [advance, hgate]
      exact .opens rfl hgate
    | some g =>
      simp only [advance, hgate]
      exact .joins g rfl hgate
  | waiting g =>
    cases dropped with
    | true => exact .rests (.dropping g) rfl rfl fun _ => rfl
    | false =>
      cases hheld : (s.heap g).held with
      | true =>
        simp only [advance, hheld, Bool.false_eq_true, if_false, if_true]
        exact .rests (.waiting g) rfl rfl fun h => h
      | false =>
        simp only [advance, hheld, Bool.false_eq_true, if_false]
        exact .enters g rfl hheld
  | executing g => exact .rests (.releasing g) rfl rfl fun _ => rfl
  | releasing g => exact .releases g rfl
  | dropping g => exact .drops g rfl
  | cleaning =>
    cases hgate : s.gates (key a) with
    | none =>
      simp only [advance, hgate]
      refine .goes rfl fun g hg => ?_
      rw [hgate] at hg
      cases hg
    | some g =>
      by_cases hlast : (s.heap g).strong = 1
      · simp only [advance, hgate, if_pos hlast]
        exact .removes g rfl hgate hlast
      · simp only [advance, hgate, if_neg hlast]
        refine .goes rfl fun g' hg' => ?_
        rw [hgate] at hg'
        rwa [← Option.some.inj hg']
  | done => exact .rests .done rfl rfl fun h => h

variable {k : K} {s s' : Shared K} {p p' : Phase}

theorem Moved.gates_other (h : Moved k s p s' p') {j : K} (hj : j ≠ k) :
    s'.gates j = s.gates j := by
  cases h with
  | opens | removes => exact Function.update_of_ne hj _ s.gates
  | rests | joins | enters | releases | drops | goes => rfl

theorem Moved.gates_kept (h : Moved k s p s' p') {j : K} {g : Nat} (hg : s.gates j = some g) :
    s'.gates j = some g ∨ (s.heap g).strong = 1 := by
  by_cases hj : j = k
  · subst hj
    cases h with
    | rests | joins | enters | releases | drops | goes => exact Or.inl hg
    | opens _ hnone =>
      rw [hnone] at hg
      cases hg
    | removes g' _ hgate hlast =>
      rw [hgate] at hg
      obtain rfl := Option.some.inj hg
      exact Or.inr hlast
  · rw [h.gates_other hj]
    exact Or.inl hg

theorem Moved.gates_from (h : Moved k s p s' p') {j : K} {g : Nat} (hg : s'.gates j = some g) :
    s.gates j = some g ∨ (j = k ∧ g = s.next ∧ s'.next = s.next + 1 ∧ (s'.heap g).strong = 2 ∧
      p' = .waiting g) := by
  cases h with
  | rests | joins | enters | releases | drops | goes => exact Or.inl hg
  | opens =>
    by_cases hj : j = k
    · subst hj
      simp only [Function.update_self] at hg
      obtain rfl := Option.some.inj hg
      exact Or.inr ⟨rfl, rfl, rfl, by simp only [Function.update_self], rfl⟩
    · simp only [Function.update_of_ne hj] at hg
      exact Or.inl hg
  | removes =>
    by_cases hj : j = k
    · subst hj
      simp only [Function.update_self] at hg
      cases hg
    · simp only [Function.update_of_ne hj] at hg
      exact Or.inl hg

theorem Moved.next_le (h : Moved k s p s' p') : s.next ≤ s'.next := by
  cases h with
  | opens => exact Nat.le_succ s.next
  | rests | joins | enters | releases | drops | removes | goes => exact Nat.le_refl s.next

theorem Moved.gate_from (h : Moved k s p s' p') {g : Nat} (hg : p'.gate = some g) :
    p.gate = some g ∨ s'.gates k = some g := by
  cases h with
  | rests q hgate =>
    rw [hgate] at hg
    exact Or.inl hg
  | joins g' _ hmap =>
    obtain rfl := Option.some.inj hg
    exact Or.inr hmap
  | opens =>
    obtain rfl := Option.some.inj hg
    exact Or.inr (Function.update_self ..)
  | enters g' hp | releases g' hp =>
    rw [hp]
    exact Or.inl hg
  | drops | removes | goes => cases hg

theorem Moved.strong (h : Moved k s p s' p') {j : K} {g : Nat} (hlt : g < s.next)
    (hown : s.gates k = some g → j = k) (hg : s'.gates j = some g) :
    ((p'.gate = some g ↔ p.gate = some g) ∧ (s'.heap g).strong = (s.heap g).strong) ∨
    (p.gate ≠ some g ∧ p'.gate = some g ∧ (s'.heap g).strong = (s.heap g).strong + 1) ∨
    (p.gate = some g ∧ p'.gate ≠ some g ∧ (s'.heap g).strong = (s.heap g).strong - 1) := by
  have hput : ∀ (g' : Nat) (held : Bool),
      (Function.update s.heap g' ⟨(s.heap g').strong, held⟩ g).strong = (s.heap g).strong := by
    intro g' held
    by_cases hgg : g = g'
    · subst hgg
      rw [Function.update_self]
    · rw [Function.update_of_ne hgg]
  cases h with
  | rests q hgate => exact Or.inl ⟨by rw [hgate], rfl⟩
  | joins g' hp =>
    rw [hp]
    by_cases hgg : g = g'
    · subst hgg
      simp only [Function.update_self]
      exact Or.inr (Or.inl ⟨fun hnone => (by cases hnone), rfl, trivial⟩)
    · simp only [Function.update_of_ne hgg]
      refine Or.inl ⟨iff_of_false (fun heq => ?_) (fun hnone => by cases hnone), trivial⟩
      exact hgg (Option.some.inj heq).symm
  | opens hp =>
    have hne : g ≠ s.next := by omega
    rw [hp]
    simp only [Function.update_of_ne hne]
    refine Or.inl ⟨iff_of_false (fun heq => ?_) (fun hnone => by cases hnone), trivial⟩
    exact hne (Option.some.inj heq).symm
  | enters g' hp | releases g' hp =>
    rw [hp]
    exact Or.inl ⟨Iff.rfl, hput g' _⟩
  | drops g' hp =>
    rw [hp]
    by_cases hgg : g = g'
    · subst hgg
      simp only [Function.update_self]
      exact Or.inr (Or.inr ⟨rfl, fun hnone => (by cases hnone), trivial⟩)
    · simp only [Function.update_of_ne hgg]
      refine Or.inl ⟨iff_of_false (fun hnone => by cases hnone) (fun heq => ?_), trivial⟩
      exact hgg (Option.some.inj heq).symm
  | removes g' hp hgate =>
    by_cases hj : j = k
    · subst hj
      simp only [Function.update_self] at hg
      cases hg
    · have hgg : g ≠ g' := by
        rintro rfl
        exact hj (hown hgate)
      rw [hp]
      simp only [Function.update_of_ne hgg]
      exact Or.inl ⟨Iff.rfl, trivial⟩
  | goes hp =>
    rw [hp]
    exact Or.inl ⟨Iff.rfl, rfl⟩

theorem Moved.held_kept (h : Moved k s p s' p') {g : Nat} (hg : g < s.next)
    (hheld : (s.heap g).held = true) : (s'.heap g).held = true ∨ p.guard = some g := by
  have hput : ∀ (h : Nat) (gate : Gate), gate.held = (s.heap h).held →
      (Function.update s.heap h gate g).held = true := by
    intro h gate hgate
    by_cases hgh : g = h
    · subst hgh
      rw [Function.update_self, hgate]
      exact hheld
    · rw [Function.update_of_ne hgh]
      exact hheld
  cases h with
  | rests | goes => exact Or.inl hheld
  | joins g' | drops g' | removes g' => exact Or.inl (hput g' _ rfl)
  | opens =>
    have hne : g ≠ s.next := by omega
    simp only [Function.update_of_ne hne]
    exact Or.inl hheld
  | enters g' _ hfree =>
    by_cases hgg : g = g'
    · subst hgg
      simp only [Function.update_self]
      exact Or.inl trivial
    · simp only [Function.update_of_ne hgg]
      exact Or.inl hheld
  | releases g' hp =>
    by_cases hgg : g = g'
    · subst hgg
      rw [hp]
      exact Or.inr rfl
    · simp only [Function.update_of_ne hgg]
      exact Or.inl hheld

theorem Moved.guard_from (h : Moved k s p s' p') {g : Nat} (hg : p'.guard = some g) :
    (p.guard = some g ∧ s' = s) ∨ ((s.heap g).held = false ∧ (s'.heap g).held = true) := by
  cases h with
  | rests q _ hguard =>
    rw [hguard] at hg
    exact Or.inl ⟨hg, rfl⟩
  | enters g' hp hfree =>
    obtain rfl := Option.some.inj hg
    simp only [Function.update_self]
    exact Or.inr ⟨hfree, trivial⟩
  | joins | opens | releases | drops | removes | goes => cases hg

end Steps

section Runs

variable {ι K : Type} [DecidableEq ι] [DecidableEq K] {key : ι → K}
  {sys : System ι (Shared K) Phase} {op : ι × Bool}

private theorem moved_step (key : ι → K) (op : ι × Bool) (sys : System ι (Shared K) Phase) :
    Moved (key op.1) sys.shared (sys.places op.1) (step key op sys).shared
      ((step key op sys).places op.1) := by
  rw [Interleave.act_place_self]
  exact moved_advance op.1 op.2 sys.shared (sys.places op.1)

private theorem place_of_ne {a : ι} (ha : a ≠ op.1) : (step key op sys).places a = sys.places a :=
  Interleave.act_place_of_ne (advance key) ha sys

omit [DecidableEq ι] [DecidableEq K] in
private theorem strong_ne_one (h : Inv key sys) {a : ι} {g : Nat}
    (ha : (sys.places a).gate = some g) : (sys.shared.heap g).strong ≠ 1 := by
  obtain ⟨owners, howners, hstrong⟩ := h.counted (key a) g (h.oneGate a g ha)
  have hpos : 0 < owners.card := Finset.card_pos.mpr ⟨a, (howners a).mpr ha⟩
  omega

private theorem oneGate_step (h : Inv key sys) : OneGate key (step key op sys) := by
  have hmoved := moved_step key op sys
  have hold : ∀ a g, (sys.places a).gate = some g →
      (step key op sys).shared.gates (key a) = some g := by
    intro a g ha
    rcases hmoved.gates_kept (h.oneGate a g ha) with hkept | hlast
    · exact hkept
    · exact absurd hlast (strong_ne_one h ha)
  intro a g ha
  by_cases haop : a = op.1
  · subst haop
    rcases hmoved.gate_from ha with hbefore | hmap
    · exact hold op.1 g hbefore
    · exact hmap
  · rw [place_of_ne haop] at ha
    exact hold a g ha

private theorem fresh_step (h : Inv key sys) (k : K) (g : Nat)
    (hg : (step key op sys).shared.gates k = some g) : g < (step key op sys).shared.next := by
  have hmoved := moved_step key op sys
  rcases hmoved.gates_from hg with hbefore | ⟨-, rfl, hnext, -⟩
  · exact Nat.lt_of_lt_of_le (h.fresh k g hbefore) hmoved.next_le
  · rw [hnext]
    exact Nat.lt_succ_self _

private theorem own_step (h : Inv key sys) (k k' : K) (g : Nat)
    (hk : (step key op sys).shared.gates k = some g)
    (hk' : (step key op sys).shared.gates k' = some g) : k = k' := by
  have hmoved := moved_step key op sys
  rcases hmoved.gates_from hk with hbefore | ⟨hkey, hnew, -⟩
  · rcases hmoved.gates_from hk' with hbefore' | ⟨-, hnew', -⟩
    · exact h.own k k' g hbefore hbefore'
    · have hlt := h.fresh k g hbefore
      omega
  · rcases hmoved.gates_from hk' with hbefore' | ⟨hkey', -, -⟩
    · have hlt := h.fresh k' g hbefore'
      omega
    · rw [hkey, hkey']

private theorem held_step (h : Inv key sys) (a : ι) (g : Nat)
    (ha : ((step key op sys).places a).guard = some g) :
    ((step key op sys).shared.heap g).held = true := by
  have hmoved := moved_step key op sys
  by_cases haop : a = op.1
  · subst haop
    rcases hmoved.guard_from ha with ⟨hbefore, hsame⟩ | ⟨-, hheld⟩
    · rw [hsame]
      exact h.held op.1 g hbefore
    · exact hheld
  · rw [place_of_ne haop] at ha
    have hmap := h.oneGate a g (Phase.gate_of_guard ha)
    rcases hmoved.held_kept (h.fresh _ g hmap) (h.held a g ha) with hheld | hguard
    · exact hheld
    · exact absurd (h.alone a op.1 g ha hguard) haop

private theorem alone_step (h : Inv key sys) (a b : ι) (g : Nat)
    (ha : ((step key op sys).places a).guard = some g)
    (hb : ((step key op sys).places b).guard = some g) : a = b := by
  have hmoved := moved_step key op sys
  -- whoever takes a gate in the step finds it free, so nobody held it before
  have hother : ∀ c, c ≠ op.1 → (sys.places c).guard = some g →
      ((step key op sys).places op.1).guard = some g → c = op.1 := by
    intro c _ hc hop
    rcases hmoved.guard_from hop with ⟨hbefore, -⟩ | ⟨hfree, -⟩
    · exact h.alone c op.1 g hc hbefore
    · have hheld := h.held c g hc
      rw [hfree] at hheld
      cases hheld
  by_cases haop : a = op.1
  · by_cases hbop : b = op.1
    · rw [haop, hbop]
    · rw [place_of_ne hbop] at hb
      rw [haop] at ha ⊢
      exact (hother b hbop hb ha).symm
  · rw [place_of_ne haop] at ha
    by_cases hbop : b = op.1
    · rw [hbop] at hb ⊢
      exact hother a haop ha hb
    · rw [place_of_ne hbop] at hb
      exact h.alone a b g ha hb

private theorem counted_step (h : Inv key sys) (k : K) (g : Nat)
    (hg : (step key op sys).shared.gates k = some g) : ∃ owners : Finset ι,
      (∀ a, a ∈ owners ↔ ((step key op sys).places a).gate = some g) ∧
        ((step key op sys).shared.heap g).strong = owners.card + 1 := by
  have hmoved := moved_step key op sys
  rcases hmoved.gates_from hg with hbefore | ⟨rfl, hnew, -, hstrong, hwaiting⟩
  · obtain ⟨owners, howners, hstrong⟩ := h.counted k g hbefore
    have hown : sys.shared.gates (key op.1) = some g → k = key op.1 := h.own k (key op.1) g hbefore
    rcases hmoved.strong (h.fresh k g hbefore) hown hg with
      ⟨hsame, hcount⟩ | ⟨hnot, hjoined, hcount⟩ | ⟨hhad, hdropped, hcount⟩
    · refine ⟨owners, fun a => ?_, by rw [hcount, hstrong]⟩
      by_cases haop : a = op.1
      · rw [haop, howners, hsame]
      · rw [place_of_ne haop, howners]
    · have hfresh : op.1 ∉ owners := fun hmem => hnot ((howners op.1).mp hmem)
      refine ⟨insert op.1 owners, fun a => ?_, ?_⟩
      · rw [Finset.mem_insert]
        by_cases haop : a = op.1
        · rw [haop]
          exact iff_of_true (Or.inl rfl) hjoined
        · rw [place_of_ne haop, or_iff_right haop, howners]
      · rw [hcount, hstrong, Finset.card_insert_of_notMem hfresh]
    · have hmem : op.1 ∈ owners := (howners op.1).mpr hhad
      refine ⟨owners.erase op.1, fun a => ?_, ?_⟩
      · rw [Finset.mem_erase]
        by_cases haop : a = op.1
        · rw [haop]
          exact iff_of_false (fun herased => herased.1 rfl) hdropped
        · rw [place_of_ne haop, and_iff_right haop, howners]
      · have hpos : 0 < owners.card := Finset.card_pos.mpr ⟨op.1, hmem⟩
        rw [hcount, hstrong, Finset.card_erase_of_mem hmem]
        omega
  · -- a new gate belongs to the call that opened it
    have hnobody : ∀ a, (sys.places a).gate ≠ some g := by
      intro a ha
      have hlt := h.fresh _ g (h.oneGate a g ha)
      omega
    refine ⟨{op.1}, fun a => ?_, ?_⟩
    · rw [Finset.mem_singleton]
      by_cases haop : a = op.1
      · rw [haop, hwaiting]
        exact iff_of_true rfl rfl
      · rw [place_of_ne haop]
        exact iff_of_false haop (hnobody a)
    · rw [Finset.card_singleton, hstrong]

private theorem noLeak_step (h : Inv key sys) : NoLeak key (step key op sys) := by
  intro k hk
  have hmoved := moved_step key op sys
  have hothers : ∀ a, a ≠ op.1 → key a = k → (sys.places a).alive = false := by
    intro a ha hkey
    have hnow := hk a hkey
    rwa [place_of_ne ha] at hnow
  by_cases hkey : k = key op.1
  · subst hkey
    have hdead := hk op.1 rfl
    have hbefore : (sys.places op.1).alive = false → sys.shared.gates (key op.1) = none := by
      intro hop
      apply h.noLeak
      intro a ha
      by_cases haop : a = op.1
      · rw [haop, hop]
      · exact hothers a haop ha
    have hlast : ∀ g, sys.shared.gates (key op.1) = some g →
        (sys.places op.1).gate = none → (sys.shared.heap g).strong = 1 := by
      intro g hg hop
      obtain ⟨owners, howners, hstrong⟩ := h.counted _ g hg
      have hempty : owners = ∅ := by
        rw [Finset.eq_empty_iff_forall_notMem]
        intro a ha
        have hgate := (howners a).mp ha
        have hsame := h.own _ _ g (h.oneGate a g hgate) hg
        by_cases haop : a = op.1
        · rw [haop, hop] at hgate
          cases hgate
        · have hnot := hothers a haop hsame
          rw [Phase.alive_of_gate hgate] at hnot
          cases hnot
      rw [hstrong, hempty, Finset.card_empty]
    generalize (step key op sys).places op.1 = p' at hmoved hdead
    generalize (step key op sys).shared = s' at hmoved ⊢
    cases hmoved with
    | rests q _ _ halive =>
      apply hbefore
      cases hop : (sys.places op.1).alive with
      | true =>
        rw [halive hop] at hdead
        cases hdead
      | false => rfl
    | joins | opens | enters | releases | drops => cases hdead
    | removes => exact Function.update_self ..
    | goes hp hmore =>
      cases hgate : sys.shared.gates (key op.1) with
      | none => rfl
      | some g => exact absurd (hlast g hgate (by rw [hp]; rfl)) (hmore g hgate)
  · rw [hmoved.gates_other hkey]
    apply h.noLeak
    intro a ha
    refine hothers a (fun haop => ?_) ha
    exact hkey (haop ▸ ha).symm

theorem inv_step (op : ι × Bool) (sys : System ι (Shared K) Phase) (h : Inv key sys) :
    Inv key (step key op sys) :=
  ⟨oneGate_step h, own_step h, fresh_step h, counted_step h, held_step h, alone_step h,
    noLeak_step h⟩

omit [DecidableEq ι] [DecidableEq K] in
theorem inv_initial : Inv key (initial : System ι (Shared K) Phase) := by
  constructor
  · intro a g ha
    cases ha
  · intro k k' g hk
    cases hk
  · intro k g hk
    cases hk
  · intro k g hk
    cases hk
  · intro a g ha
    cases ha
  · intro a b g ha
    cases ha
  · exact fun k _ => rfl

omit [DecidableEq ι] [DecidableEq K] in
theorem Inv.exclusive (h : Inv key sys) : Exclusive key sys := by
  intro a b g g' ha hb hkey
  have hga := h.oneGate a g (by rw [ha]; rfl)
  have hgb := h.oneGate b g' (by rw [hb]; rfl)
  rw [hkey, hgb] at hga
  obtain rfl := Option.some.inj hga
  exact h.alone a b g' (by rw [ha]; rfl) (by rw [hb]; rfl)

/-- After any steps of any calls, dropped wherever they wait or not: the futures of a key never
overlap, its calls have one gate, and the map has no entry once all of them are over. -/
theorem serialized_calls (key : ι → K) (ops : List (ι × Bool)) :
    Exclusive key (Runs.run (step key) ops initial) ∧
      OneGate key (Runs.run (step key) ops initial) ∧
      NoLeak key (Runs.run (step key) ops initial) := by
  have h := Runs.run_invariant (step key) inv_step ops inv_initial
  exact ⟨h.exclusive, h.oneGate, h.noLeak⟩

end Runs

end Setfork.SerializedCalls
