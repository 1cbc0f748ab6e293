/- Foundation: portions
   digest: A list cut into portions up to a size by one pass over its indices. -/
import Mathlib.Algebra.BigOperators.Group.List.Basic
import Mathlib.Algebra.GroupWithZero.Nat

set_option autoImplicit false
set_option relaxedAutoImplicit false

namespace Setfork.Foundation.Portions

variable {α : Type} (size : α → Nat) (limit : Nat)

structure Cut (α : Type) where
  out : List (List α)
  start : Nat
  size : Nat

/-- One item: it closes the open portion when that one is not empty and has no room for it. -/
def step (xs : List α) (cut : Cut α) (item : α × Nat) : Cut α :=
  let n := size item.1
  let cut :=
    if cut.start < item.2 ∧ limit < cut.size + n then
      ⟨cut.out ++ [(xs.drop cut.start).take (item.2 - cut.start)], item.2, 0⟩
    else cut
  { cut with size := cut.size + n }

def portions (xs : List α) : List (List α) :=
  let cut := xs.zipIdx.foldl (step size limit xs) ⟨[], 0, 0⟩
  if cut.start < xs.length then cut.out ++ [xs.drop cut.start] else cut.out

/-- A portion that is not empty and within the limit, unless it is one item. -/
def Fits (portion : List α) : Prop :=
  portion ≠ [] ∧ ((portion.map size).sum ≤ limit ∨ ∃ x, portion = [x])

structure Keeps (done : List α) (cut : Cut α) (opened : List α) : Prop where
  items : done = cut.out.flatten ++ opened
  start : cut.start = cut.out.flatten.length
  weight : cut.size = (opened.map size).sum
  fits : ∀ portion ∈ cut.out, Fits size limit portion
  opened : opened = [] ∧ done = [] ∨ Fits size limit opened

variable {size} {limit}

theorem keeps_step {done rest opened : List α} {cut : Cut α} (h : Keeps size limit done cut opened)
    (x : α) : ∃ next, Keeps size limit (done ++ [x])
      (step size limit (done ++ x :: rest) cut (x, done.length)) next := by
  have hlength : done.length = cut.out.flatten.length + opened.length := by
    rw [h.items, List.length_append]
  have hslice : ((done ++ x :: rest).drop cut.start).take (done.length - cut.start) = opened := by
    have hopened : done.length - cut.start = opened.length := by
      rw [h.start, hlength]
      omega
    rw [hopened, h.start, h.items, List.append_assoc, List.drop_left, List.take_left]
  have hstart : cut.start < done.length ↔ opened ≠ [] := by
    rw [h.start, hlength, ← List.length_pos_iff]
    omega
  unfold step
  dsimp only
  rw [hslice]
  by_cases hcut : cut.start < done.length ∧ limit < cut.size + size x
  · -- the open portion is closed and the item opens the next one
    rw [if_pos hcut]
    have hfits : Fits size limit opened := by
      rcases h.opened with ⟨hnil, -⟩ | hfits
      · exact absurd hnil (hstart.mp hcut.1)
      · exact hfits
    refine ⟨[x], ?_, ?_, ?_, ?_, Or.inr ⟨List.cons_ne_nil x [], Or.inr ⟨x, rfl⟩⟩⟩
    · simp [h.items]
    · simp [hlength]
    · simp
    · intro portion hportion
      rcases List.mem_append.mp hportion with hportion | hportion
      · exact h.fits portion hportion
      · rw [List.mem_singleton.mp hportion]
        exact hfits
  · rw [if_neg hcut]
    refine ⟨opened ++ [x], ?_, h.start, ?_, h.fits, Or.inr ⟨by simp, ?_⟩⟩
    · rw [h.items, List.append_assoc]
    · simp [h.weight]
    · by_cases hempty : opened = []
      · exact Or.inr ⟨x, by rw [hempty, List.nil_append]⟩
      · left
        have hroom : ¬ limit < cut.size + size x := fun hover => hcut ⟨hstart.mpr hempty, hover⟩
        rw [List.map_append, List.sum_append, ← h.weight]
        simpa using Nat.le_of_not_lt hroom

theorem keeps_pass {done opened : List α} {cut : Cut α} (h : Keeps size limit done cut opened)
    (rest : List α) : ∃ last, Keeps size limit (done ++ rest)
      ((rest.zipIdx done.length).foldl (step size limit (done ++ rest)) cut) last := by
  induction rest generalizing done cut opened with
  | nil =>
    rw [List.append_nil]
    exact ⟨opened, h⟩
  | cons x rest ih =>
    obtain ⟨next, hnext⟩ := @keeps_step _ size limit done rest opened cut h x
    obtain ⟨last, hlast⟩ := ih hnext
    rw [List.append_assoc, List.singleton_append, List.length_append, List.length_singleton] at hlast
    exact ⟨last, hlast⟩

variable (size) (limit)

theorem portions_spec (xs : List α) :
    (portions size limit xs).flatten = xs ∧ ∀ p ∈ portions size limit xs, Fits size limit p := by
  have hstart : Keeps size limit [] ⟨[], 0, 0⟩ [] :=
    ⟨rfl, rfl, rfl, fun _ hportion => absurd hportion List.not_mem_nil, Or.inl ⟨rfl, rfl⟩⟩
  obtain ⟨last, hlast⟩ := keeps_pass hstart xs
  rw [List.nil_append, List.length_nil] at hlast
  unfold portions
  dsimp only
  generalize xs.zipIdx.foldl (step size limit xs) ⟨[], 0, 0⟩ = cut at hlast
  have hdrop : xs.drop cut.start = last := by rw [hlast.start, hlast.items, List.drop_left]
  have hopen : cut.start < xs.length ↔ last ≠ [] := by
    rw [← hdrop, ne_eq, List.drop_eq_nil_iff, Nat.not_le]
  split_ifs with hmore
  · refine ⟨?_, fun p hp => ?_⟩
    · rw [hdrop, List.flatten_append, List.flatten_singleton]
      exact hlast.items.symm
    · rcases List.mem_append.mp hp with hp | hp
      · exact hlast.fits p hp
      · rw [List.mem_singleton.mp hp, hdrop]
        rcases hlast.opened with ⟨hnil, -⟩ | hfits
        · exact absurd hnil (hopen.mp hmore)
        · exact hfits
  · have hnil : last = [] := by
      by_contra hne
      exact hmore (hopen.mpr hne)
    refine ⟨?_, hlast.fits⟩
    rw [hlast.items, hnil, List.append_nil]

theorem portions_eq_nil_iff {xs : List α} : portions size limit xs = [] ↔ xs = [] := by
  constructor
  · intro h
    rw [← (portions_spec size limit xs).1, h]
    rfl
  · intro h
    rw [h]
    rfl

end Setfork.Foundation.Portions
