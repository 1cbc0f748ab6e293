/- Foundation: first occurrences
   digest: Keeping the first item of each key, seen keys carried along, and what is kept. -/
import Mathlib.Data.List.Nodup

set_option autoImplicit false
set_option relaxedAutoImplicit false

namespace Setfork.Foundation

variable {α β : Type} [DecidableEq β] (key : α → β)

def firstSeen (seen : List β) : List α → List α
  | [] => []
  | x :: xs =>
    if key x ∈ seen then firstSeen seen xs else x :: firstSeen (key x :: seen) xs

def seenAfter (seen : List β) : List α → List β
  | [] => seen
  | x :: xs => if key x ∈ seen then seenAfter seen xs else seenAfter (key x :: seen) xs

theorem mem_seenAfter {seen : List β} {xs : List α} {k : β} :
    k ∈ seenAfter key seen xs ↔ k ∈ seen ∨ k ∈ xs.map key := by
  induction xs generalizing seen with
  | nil => simp [seenAfter]
  | cons x xs ih =>
    unfold seenAfter
    split_ifs with hx
    · rw [ih, List.map_cons, List.mem_cons]
      constructor
      · exact fun h => h.imp id Or.inr
      · rintro (h | rfl | h)
        · exact Or.inl h
        · exact Or.inl hx
        · exact Or.inr h
    · rw [ih, List.map_cons, List.mem_cons, List.mem_cons]
      tauto

theorem firstSeen_append (seen : List β) (xs ys : List α) :
    firstSeen key seen (xs ++ ys) =
      firstSeen key seen xs ++ firstSeen key (seenAfter key seen xs) ys := by
  induction xs generalizing seen with
  | nil => rfl
  | cons x xs ih =>
    simp only [List.cons_append, firstSeen, seenAfter]
    split_ifs with hx
    · exact ih seen
    · rw [ih, List.cons_append]

theorem mem_firstSeen {seen : List β} {xs : List α} {x : α} :
    x ∈ firstSeen key seen xs ↔
      ∃ before after, xs = before ++ x :: after ∧ key x ∉ seen ∧ key x ∉ before.map key := by
  induction xs generalizing seen with
  | nil => simp [firstSeen]
  | cons y ys ih =>
    have hsplit (P : List α → Prop) :
        (∃ before after, y :: ys = before ++ x :: after ∧ P before) ↔
          (y = x ∧ P []) ∨ ∃ before after, ys = before ++ x :: after ∧ P (y :: before) := by
      constructor
      · rintro ⟨before, after, heq, hP⟩
        cases before with
        | nil =>
          rw [List.nil_append] at heq
          exact Or.inl ⟨(List.cons.inj heq).1, hP⟩
        | cons z before =>
          rw [List.cons_append] at heq
          obtain ⟨rfl, htail⟩ := List.cons.inj heq
          exact Or.inr ⟨before, after, htail, hP⟩
      · rintro (⟨rfl, hP⟩ | ⟨before, after, rfl, hP⟩)
        · exact ⟨[], ys, rfl, hP⟩
        · exact ⟨y :: before, after, rfl, hP⟩
    rw [hsplit, firstSeen]
    split_ifs with hy
    · rw [ih]
      constructor
      · rintro ⟨before, after, heq, hseen, hnew⟩
        refine Or.inr ⟨before, after, heq, hseen, ?_⟩
        rw [List.map_cons, List.mem_cons, not_or]
        exact ⟨fun h => hseen (h ▸ hy), hnew⟩
      · rintro (⟨rfl, hseen, -⟩ | ⟨before, after, heq, hseen, hnew⟩)
        · exact absurd hy hseen
        · exact ⟨before, after, heq, hseen, fun h => hnew (List.mem_cons_of_mem _ h)⟩
    · rw [List.mem_cons, ih]
      constructor
      · rintro (rfl | ⟨before, after, heq, hseen, hnew⟩)
        · exact Or.inl ⟨rfl, hy, List.not_mem_nil⟩
        · rw [List.mem_cons, not_or] at hseen
          refine Or.inr ⟨before, after, heq, hseen.2, ?_⟩
          rw [List.map_cons, List.mem_cons, not_or]
          exact ⟨hseen.1, hnew⟩
      · rintro (⟨rfl, -, -⟩ | ⟨before, after, heq, hseen, hnew⟩)
        · exact Or.inl rfl
        · rw [List.map_cons, List.mem_cons, not_or] at hnew
          refine Or.inr ⟨before, after, heq, ?_, hnew.2⟩
          rw [List.mem_cons, not_or]
          exact ⟨hnew.1, hseen⟩

theorem mem_map_firstSeen {seen : List β} {xs : List α} {k : β} :
    k ∈ (firstSeen key seen xs).map key ↔ k ∈ xs.map key ∧ k ∉ seen := by
  induction xs generalizing seen with
  | nil => simp [firstSeen]
  | cons x xs ih =>
    rw [firstSeen]
    split_ifs with hx
    · rw [ih, List.map_cons, List.mem_cons]
      constructor
      · exact fun h => ⟨Or.inr h.1, h.2⟩
      · rintro ⟨rfl | h, hseen⟩
        · exact absurd hx hseen
        · exact ⟨h, hseen⟩
    · rw [List.map_cons, List.mem_cons, ih, List.map_cons, List.mem_cons, List.mem_cons, not_or]
      by_cases hk : k = key x
      · simp [hk, hx]
      · simp [hk]

theorem nodup_map_firstSeen (seen : List β) (xs : List α) :
    ((firstSeen key seen xs).map key).Nodup := by
  induction xs generalizing seen with
  | nil => exact List.nodup_nil
  | cons x xs ih =>
    rw [firstSeen]
    split_ifs with hx
    · exact ih seen
    · rw [List.map_cons, List.nodup_cons]
      refine ⟨fun h => ?_, ih _⟩
      exact ((mem_map_firstSeen key).mp h).2 List.mem_cons_self

private theorem mem_firstSeen_seen {seen : List β} {xs : List α} {x : α} :
    x ∈ firstSeen key seen xs ↔ key x ∉ seen ∧ x ∈ firstSeen key [] xs := by
  simp only [mem_firstSeen, List.not_mem_nil, not_false_eq_true, true_and]
  constructor
  · rintro ⟨before, after, heq, hseen, hnew⟩
    exact ⟨hseen, before, after, heq, hnew⟩
  · rintro ⟨hseen, before, after, heq, hnew⟩
    exact ⟨before, after, heq, hseen, hnew⟩

theorem firstSeen_map {γ : Type} (g : γ → α) (seen : List β) (xs : List γ) :
    firstSeen key seen (xs.map g) = (firstSeen (fun x => key (g x)) seen xs).map g := by
  induction xs generalizing seen with
  | nil => rfl
  | cons x xs ih =>
    simp only [List.map_cons, firstSeen]
    split_ifs with hx
    · exact ih seen
    · rw [ih, List.map_cons]

theorem mem_firstSeen_filter {p : β → Bool} (xs : List α) {x : α} :
    x ∈ firstSeen key [] (xs.filter (fun y => p (key y))) ↔
      p (key x) = true ∧ x ∈ firstSeen key [] xs := by
  induction xs with
  | nil => simp [firstSeen]
  | cons y ys ih =>
    have hone : firstSeen key [] (y :: ys) = y :: firstSeen key [key y] ys := by simp [firstSeen]
    have hrest : x ∈ firstSeen key [key y] ys ↔ key x ≠ key y ∧ x ∈ firstSeen key [] ys := by
      rw [mem_firstSeen_seen, List.mem_singleton]
    cases hp : p (key y) with
    | true =>
      have hkept : firstSeen key [] ((y :: ys).filter (fun z => p (key z))) =
          y :: firstSeen key [key y] (ys.filter (fun z => p (key z))) := by
        simp [hp, firstSeen]
      rw [hkept, hone, List.mem_cons, List.mem_cons, mem_firstSeen_seen, ih, hrest,
        List.mem_singleton]
      by_cases hx : x = y
      · simp [hx, hp]
      · simp only [hx, false_or]
        tauto
    | false =>
      have hdropped : (y :: ys).filter (fun z => p (key z)) = ys.filter (fun z => p (key z)) := by
        simp [hp]
      rw [hdropped, ih, hone, List.mem_cons, hrest]
      refine and_congr_right fun hx => ?_
      have hkey : key x ≠ key y := by
        intro h
        rw [h, hp] at hx
        cases hx
      have hne : x ≠ y := fun h => hkey (congrArg key h)
      simp [hne, hkey]

theorem mem_firstSeen_flatMap {γ : Type} (f : γ → List α) {seen : List β} {cs : List γ} {x : α} :
    x ∈ firstSeen key seen (cs.flatMap f) ↔
      ∃ earlier c later, cs = earlier ++ c :: later ∧ key x ∉ seen ∧
        (∀ d ∈ earlier, key x ∉ (f d).map key) ∧ x ∈ firstSeen key [] (f c) := by
  induction cs generalizing seen with
  | nil => simp [firstSeen]
  | cons c cs ih =>
    rw [List.flatMap_cons, firstSeen_append, List.mem_append, ih, mem_firstSeen_seen]
    constructor
    · rintro (⟨hseen, hx⟩ | ⟨earlier, d, later, rfl, hafter, hnone, hx⟩)
      · exact ⟨[], c, cs, rfl, hseen, by simp, hx⟩
      · rw [mem_seenAfter, not_or] at hafter
        refine ⟨c :: earlier, d, later, rfl, hafter.1, ?_, hx⟩
        exact List.forall_mem_cons.mpr ⟨hafter.2, hnone⟩
    · rintro ⟨earlier, d, later, heq, hseen, hnone, hx⟩
      cases earlier with
      | nil =>
        rw [List.nil_append] at heq
        obtain ⟨rfl, rfl⟩ := List.cons.inj heq
        exact Or.inl ⟨hseen, hx⟩
      | cons e earlier =>
        rw [List.cons_append] at heq
        obtain ⟨rfl, rfl⟩ := List.cons.inj heq
        obtain ⟨hfirst, hrest⟩ := List.forall_mem_cons.mp hnone
        refine Or.inr ⟨earlier, d, later, rfl, ?_, hrest, hx⟩
        rw [mem_seenAfter, not_or]
        exact ⟨hseen, hfirst⟩

end Setfork.Foundation
