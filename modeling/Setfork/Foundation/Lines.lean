/- Foundation: lines
   digest: Lists joined by a separator and split at it, and runs of the separator cut to a limit. -/
import Mathlib.Data.List.Chain
import Mathlib.Data.List.Infix
import Mathlib.Data.List.Induction

set_option autoImplicit false
set_option relaxedAutoImplicit false

namespace Setfork.Foundation.Lines

variable {α : Type} (sep : α)

theorem join_append {a b : List (List α)} (ha : a ≠ []) (hb : b ≠ []) :
    [sep].intercalate (a ++ b) = [sep].intercalate a ++ sep :: [sep].intercalate b := by
  induction a with
  | nil => exact absurd rfl ha
  | cons l a ih =>
    cases a with
    | nil =>
      rw [List.singleton_append, List.intercalate_cons_of_ne_nil hb, List.intercalate_singleton]
      simp
    | cons m a =>
      have hrest := ih (List.cons_ne_nil m a)
      rw [List.cons_append, List.cons_append, List.intercalate_cons_cons, ← List.cons_append, hrest,
        List.intercalate_cons_cons]
      simp

theorem infix_join {l : List α} {ls : List (List α)} (h : l ∈ ls) :
    l <:+: [sep].intercalate ls := by
  induction ls with
  | nil => cases h
  | cons m ls ih =>
    rcases List.mem_cons.mp h with rfl | h
    · cases ls with
      | nil => exact ⟨[], [], by simp⟩
      | cons m' ls => exact ⟨[], sep :: [sep].intercalate (m' :: ls), by simp⟩
    · obtain ⟨before, after, heq⟩ := ih h
      have hne : ls ≠ [] := List.ne_nil_of_mem h
      refine ⟨m ++ sep :: before, after, ?_⟩
      rw [List.intercalate_cons_of_ne_nil hne, ← heq]
      simp

variable [DecidableEq α]

theorem not_mem_of_mem_splitOn {xs l : List α} (h : l ∈ xs.splitOn sep) : sep ∉ l := by
  induction xs generalizing l with
  | nil =>
    rw [List.splitOn_nil, List.mem_singleton] at h
    rw [h]
    exact List.not_mem_nil
  | cons x xs ih =>
    rw [List.splitOn_cons_eq_if_modifyHead] at h
    by_cases hx : x = sep
    · rw [if_pos (beq_iff_eq.mpr hx)] at h
      rcases List.mem_cons.mp h with rfl | h
      · exact List.not_mem_nil
      · exact ih h
    · rw [if_neg (by simpa using hx)] at h
      cases hpieces : xs.splitOn sep with
      | nil => exact absurd hpieces (List.splitOn_ne_nil sep xs)
      | cons m ms =>
        rw [hpieces, List.modifyHead_cons] at h
        rcases List.mem_cons.mp h with rfl | h
        · intro hmem
          rcases List.mem_cons.mp hmem with hsep | hmem
          · exact hx hsep.symm
          · exact ih (hpieces ▸ List.mem_cons_self) hmem
        · exact ih (hpieces ▸ List.mem_cons_of_mem m h)

/-- Every run of separators is cut to a limit, given how many of the run in progress are written. -/
def capRuns (limit written : Nat) : List α → List α
  | [] => []
  | c :: t =>
    if c = sep then
      if written < limit then c :: capRuns limit (written + 1) t else capRuns limit written t
    else c :: capRuns limit 0 t

variable {sep} {limit : Nat}

theorem capRuns_cons_of_ne {c : α} (h : c ≠ sep) (written : Nat) (t : List α) :
    capRuns sep limit written (c :: t) = c :: capRuns sep limit 0 t := by
  rw [capRuns, if_neg h]

theorem capRuns_append (a : List α) (written : Nat) : ∃ written', ∀ t,
    capRuns sep limit written (a ++ t) =
      capRuns sep limit written a ++ capRuns sep limit written' t := by
  induction a generalizing written with
  | nil => exact ⟨written, fun t => rfl⟩
  | cons c a ih =>
    by_cases hc : c = sep
    · by_cases hlimit : written < limit
      · obtain ⟨written', h⟩ := ih (written + 1)
        refine ⟨written', fun t => ?_⟩
        simp only [List.cons_append, capRuns, if_pos hc, if_pos hlimit, h t]
      · obtain ⟨written', h⟩ := ih written
        refine ⟨written', fun t => ?_⟩
        simp only [List.cons_append, capRuns, if_pos hc, if_neg hlimit, h t]
    · obtain ⟨written', h⟩ := ih 0
      refine ⟨written', fun t => ?_⟩
      simp only [List.cons_append, capRuns, if_neg hc, h t]

theorem capRuns_line {l : List α} (hl : l ≠ []) (hsep : sep ∉ l) (written : Nat) (t : List α) :
    capRuns sep limit written (l ++ t) = l ++ capRuns sep limit 0 t := by
  induction l generalizing written with
  | nil => exact absurd rfl hl
  | cons c l ih =>
    rw [List.mem_cons, not_or] at hsep
    rw [List.cons_append, capRuns_cons_of_ne (Ne.symm hsep.1)]
    cases l with
    | nil => rfl
    | cons d l =>
      rw [ih (List.cons_ne_nil d l) hsep.2]
      rfl

theorem capRuns_lines (hlimit : 0 < limit) {ls : List (List α)} (hls : ls ≠ [])
    (hlines : ∀ l ∈ ls, l ≠ [] ∧ sep ∉ l) (written : Nat) (t : List α) :
    capRuns sep limit written ([sep].intercalate ls ++ t) =
      [sep].intercalate ls ++ capRuns sep limit 0 t := by
  induction ls generalizing written with
  | nil => exact absurd rfl hls
  | cons l ls ih =>
    obtain ⟨⟨hl, hsep⟩, hrest⟩ := List.forall_mem_cons.mp hlines
    cases ls with
    | nil =>
      rw [List.intercalate_singleton]
      exact capRuns_line hl hsep written t
    | cons m ls =>
      rw [List.intercalate_cons_cons, List.append_assoc, List.append_assoc,
        capRuns_line hl hsep, List.append_assoc, List.append_assoc, List.singleton_append, capRuns,
        if_pos rfl, if_pos hlimit, ih (List.cons_ne_nil m ls) hrest]
      rfl

theorem capRuns_concat_sep (hlimit : 0 < limit) (a : List α) :
    ∃ front, capRuns sep limit 0 (a ++ [sep]) = front ++ [sep] := by
  have hlast : ∀ written, capRuns sep limit written [sep] = [sep] ∨
      capRuns sep limit written [sep] = [] := by
    intro written
    by_cases h : written < limit
    · exact Or.inl (by simp [capRuns, h])
    · exact Or.inr (by simp [capRuns, h])
  induction a using List.reverseRecOn with
  | nil => exact ⟨[], by simp [capRuns, hlimit]⟩
  | append_singleton a c ih =>
    by_cases hc : c = sep
    · subst hc
      obtain ⟨front, hfront⟩ := ih
      obtain ⟨written, h⟩ := @capRuns_append _ c _ limit (a ++ [c]) 0
      rw [h, hfront]
      rcases hlast written with heq | heq
      · exact ⟨front ++ [c], by rw [heq]⟩
      · exact ⟨front, by rw [heq, List.append_nil]⟩
    · obtain ⟨written, h⟩ := @capRuns_append _ sep _ limit a 0
      refine ⟨capRuns sep limit 0 a ++ [c], ?_⟩
      rw [List.append_assoc, h, List.singleton_append, capRuns_cons_of_ne hc]
      simp [capRuns, hlimit]

theorem not_pair_infix_iff {α : Type} {x y : α} {l : List α} :
    ¬ [x, y] <:+: l ↔ l.IsChain (fun a b => ¬ (a = x ∧ b = y)) := by
  rw [List.isChain_iff_forall_rel_of_append_cons_cons]
  constructor
  · intro h a b front back hl hpair
    obtain ⟨rfl, rfl⟩ := hpair
    exact h ⟨front, back, by rw [hl]; simp⟩
  · intro h hinfix
    obtain ⟨front, back, hl⟩ := hinfix
    have hsplit : l = front ++ x :: y :: back := by rw [← hl]; simp
    exact h hsplit ⟨rfl, rfl⟩

theorem pair_infix_append {α : Type} {x y : α} {front back : List α} :
    [x, y] <:+: front ++ back ↔
      [x, y] <:+: front ∨ [x, y] <:+: back ∨ (front.getLast? = some x ∧ back.head? = some y) := by
  rw [← not_iff_not, not_pair_infix_iff, List.isChain_append, ← not_pair_infix_iff,
    ← not_pair_infix_iff, not_or, not_or]
  apply and_congr_right
  intro _
  apply and_congr_right
  intro _
  constructor
  · intro h hmeet
    exact h x hmeet.1 y hmeet.2 ⟨rfl, rfl⟩
  · intro h a ha b hb hpair
    obtain ⟨rfl, rfl⟩ := hpair
    exact h ⟨ha, hb⟩

end Setfork.Foundation.Lines
