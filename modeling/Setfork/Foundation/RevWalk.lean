/- Foundation: revision walks
   digest: What one commit brings over another, its counts when history is joined, and walks over it. -/
import Mathlib.Data.Finset.Card
import Setfork.Foundation.Git

set_option autoImplicit false
set_option relaxedAutoImplicit false

namespace Setfork.Foundation.RevWalk

variable {a a' b b' c : Commit} {t : Tree} {stamp : Stamp}

/-- The commits of `a` that `b` does not have. -/
def brought (a b : Commit) : Finset Commit := a.history.toFinset.filter (fun c => ¬ b.Reaches c)

def aheadBehind (a b : Commit) : ℕ × ℕ := ((brought a b).card, (brought b a).card)

@[simp] theorem mem_brought : c ∈ brought a b ↔ a.Reaches c ∧ ¬ b.Reaches c := by
  rw [brought, Finset.mem_filter, List.mem_toFinset, Commit.mem_history]

theorem brought_eq_empty_iff : brought a b = ∅ ↔ b.Reaches a := by
  rw [Finset.eq_empty_iff_forall_notMem]
  constructor
  · intro h
    by_contra hreach
    exact h a (mem_brought.mpr ⟨.refl, hreach⟩)
  · intro h c hc
    obtain ⟨hac, hbc⟩ := mem_brought.mp hc
    exact hbc (h.trans hac)

theorem card_brought_eq_zero : (brought a b).card = 0 ↔ b.Reaches a := by
  rw [Finset.card_eq_zero, brought_eq_empty_iff]

@[simp] theorem brought_self : brought a a = ∅ := brought_eq_empty_iff.mpr .refl

theorem brought_subset (ha : a'.Reaches a) (hb : b.Reaches b') : brought a b ⊆ brought a' b' := by
  intro c hc
  obtain ⟨hac, hbc⟩ := mem_brought.mp hc
  exact mem_brought.mpr ⟨ha.trans hac, fun h => hbc (hb.trans h)⟩

theorem reaches_child : (Commit.mk t [a] stamp).Reaches c ↔ c = .mk t [a] stamp ∨ a.Reaches c := by
  rw [Commit.reaches_iff_parents]
  simp [Commit.parents]

theorem reaches_merge :
    (Commit.mk t [a, b] stamp).Reaches c ↔ c = .mk t [a, b] stamp ∨ a.Reaches c ∨ b.Reaches c := by
  rw [Commit.reaches_iff_parents]
  simp [Commit.parents]

theorem not_reaches_child {d : Commit} (h : d.IsParent a) : ¬ a.Reaches d :=
  fun hback => Commit.ne_of_isParent_reaches hback h rfl

theorem brought_child_of_reached (h : b.Reaches (.mk t [a] stamp)) :
    brought (.mk t [a] stamp) b = ∅ ∧ (brought b (.mk t [a] stamp)).card + 1 = (brought b a).card := by
  refine ⟨brought_eq_empty_iff.mpr h, ?_⟩
  have hparent : (Commit.mk t [a] stamp).IsParent a := List.mem_singleton_self a
  have hmem : Commit.mk t [a] stamp ∈ brought b a := mem_brought.mpr ⟨h, not_reaches_child hparent⟩
  have hrest : brought b (.mk t [a] stamp) = (brought b a).erase (.mk t [a] stamp) := by
    ext c
    rw [Finset.mem_erase, mem_brought, mem_brought, reaches_child]
    tauto
  rw [hrest, Finset.card_erase_add_one hmem]

theorem brought_child_of_new (h : ¬ b.Reaches (.mk t [a] stamp)) :
    (brought (.mk t [a] stamp) b).card = (brought a b).card + 1 ∧
      brought b (.mk t [a] stamp) = brought b a := by
  have hparent : (Commit.mk t [a] stamp).IsParent a := List.mem_singleton_self a
  constructor
  · have hnot : Commit.mk t [a] stamp ∉ brought a b :=
      fun hmem => not_reaches_child hparent (mem_brought.mp hmem).1
    have hmore : brought (.mk t [a] stamp) b = insert (.mk t [a] stamp) (brought a b) := by
      ext c
      rw [Finset.mem_insert, mem_brought, mem_brought, reaches_child]
      constructor
      · rintro ⟨rfl | hc, hbc⟩
        · exact Or.inl rfl
        · exact Or.inr ⟨hc, hbc⟩
      · rintro (rfl | ⟨hc, hbc⟩)
        · exact ⟨Or.inl rfl, h⟩
        · exact ⟨Or.inr hc, hbc⟩
    rw [hmore, Finset.card_insert_of_notMem hnot]
  · ext c
    rw [mem_brought, mem_brought, reaches_child]
    constructor
    · rintro ⟨hbc, hnot⟩
      exact ⟨hbc, fun hc => hnot (Or.inr hc)⟩
    · rintro ⟨hbc, hnot⟩
      refine ⟨hbc, ?_⟩
      rintro (rfl | hc)
      · exact h hbc
      · exact hnot hc

theorem aheadBehind_merge_left :
    aheadBehind (.mk t [a, b] stamp) b = ((brought a b).card + 1, 0) := by
  have hparent : (Commit.mk t [a, b] stamp).IsParent b := by simp [Commit.IsParent, Commit.parents]
  have hnot : Commit.mk t [a, b] stamp ∉ brought a b := by
    intro hmem
    have hleft : (Commit.mk t [a, b] stamp).IsParent a := by simp [Commit.IsParent, Commit.parents]
    exact not_reaches_child hleft (mem_brought.mp hmem).1
  have hmore : brought (.mk t [a, b] stamp) b = insert (.mk t [a, b] stamp) (brought a b) := by
    ext c
    rw [Finset.mem_insert, mem_brought, mem_brought, reaches_merge]
    constructor
    · rintro ⟨rfl | hc | hc, hbc⟩
      · exact Or.inl rfl
      · exact Or.inr ⟨hc, hbc⟩
      · exact absurd hc hbc
    · rintro (rfl | ⟨hc, hbc⟩)
      · exact ⟨Or.inl rfl, not_reaches_child hparent⟩
      · exact ⟨Or.inr (Or.inl hc), hbc⟩
  have hnone : brought b (.mk t [a, b] stamp) = ∅ := brought_eq_empty_iff.mpr (.single hparent)
  rw [aheadBehind, hmore, Finset.card_insert_of_notMem hnot, hnone, Finset.card_empty]

/-- A walk over the history of a commit, without the history of one that is hidden. -/
structure Walker where
  walk : Commit → Option Commit → List Commit
  nodup : ∀ head hidden, (walk head hidden).Nodup
  mem_walk : ∀ head hidden c,
    c ∈ walk head hidden ↔ head.Reaches c ∧ ∀ h ∈ hidden, ¬ h.Reaches c

namespace Walker

variable (w : Walker)

theorem toFinset_walk : (w.walk a (some b)).toFinset = brought a b := by
  ext c
  rw [List.mem_toFinset, w.mem_walk, mem_brought]
  simp

theorem length_walk : (w.walk a (some b)).length = (brought a b).card := by
  rw [← w.toFinset_walk, List.toFinset_card_of_nodup (w.nodup a (some b))]

def plain : Walker where
  walk := fun head hidden =>
    head.history.dedup.filter (fun c => decide (∀ h ∈ hidden, ¬ h.Reaches c))
  nodup := fun head _ => (List.nodup_dedup head.history).filter _
  mem_walk := fun head hidden c => by
    rw [List.mem_filter, List.mem_dedup, Commit.mem_history, decide_eq_true_eq]

end Walker

end Setfork.Foundation.RevWalk
