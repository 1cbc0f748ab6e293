/- Foundation: search
   digest: The first place of a pattern, the replacement of all its places, and texts of which parts
   are masked. -/
import Mathlib.Data.List.Infix

set_option autoImplicit false
set_option relaxedAutoImplicit false

namespace Setfork.Foundation.Search

variable {α : Type} [DecidableEq α]

omit [DecidableEq α] in
theorem append_eq_around {xs ys front back : List α} {x : α} (h : xs ++ ys = front ++ x :: back) :
    (∃ gap, xs = front ++ x :: gap ∧ back = gap ++ ys) ∨
      ∃ gap, front = xs ++ gap ∧ ys = gap ++ x :: back := by
  rcases List.append_eq_append_iff.mp h with hlater | ⟨gap, hxs, hback⟩
  · exact Or.inr hlater
  · cases gap with
    | nil =>
      right
      refine ⟨[], ?_, hback.symm⟩
      rw [hxs, List.append_nil, List.append_nil]
    | cons y gap =>
      obtain ⟨rfl, hrest⟩ := List.cons.inj hback
      exact Or.inl ⟨gap, hxs, hrest⟩

/-- What stands before and after the first place of a pattern. -/
def splitFirst (pat : List α) : List α → Option (List α × List α)
  | [] => if pat.isEmpty then some ([], []) else none
  | x :: xs =>
    if pat.isPrefixOf (x :: xs) then some ([], (x :: xs).drop pat.length)
    else (splitFirst pat xs).map (fun parts => (x :: parts.1, parts.2))

def OnlyLast (pat front : List α) : Prop :=
  ∀ before after, front ++ pat = before ++ pat ++ after → after = []

omit [DecidableEq α] in
theorem OnlyLast.tail {pat front : List α} {x : α} (h : OnlyLast pat (x :: front)) :
    OnlyLast pat front := by
  intro before after heq
  apply h (x :: before) after
  rw [List.cons_append, heq]
  rfl

omit [DecidableEq α] in
theorem OnlyLast.not_start {pat front back : List α} {x : α} (h : OnlyLast pat (x :: front)) :
    ¬ pat <+: x :: front ++ pat ++ back := by
  intro hstart
  have hshort : pat <+: x :: front ++ pat :=
    List.prefix_of_prefix_length_le hstart (List.prefix_append _ back)
      (by simp only [List.length_append]; omega)
  obtain ⟨after, hafter⟩ := hshort
  have hnil := h [] after (by rw [List.nil_append]; exact hafter.symm)
  have hlength := congrArg List.length hafter
  rw [hnil, List.append_nil, List.length_append, List.length_cons] at hlength
  omega

theorem splitFirst_some {pat xs before after : List α} (h : splitFirst pat xs = some (before, after)) :
    xs = before ++ pat ++ after ∧ OnlyLast pat before := by
  have hfirst : OnlyLast pat [] := by
    intro front back heq
    have hlength := congrArg List.length heq
    simp only [List.length_append, List.length_nil] at hlength
    exact List.length_eq_zero_iff.mp (by omega)
  induction xs generalizing before with
  | nil =>
    unfold splitFirst at h
    split_ifs at h with hempty
    obtain ⟨rfl, rfl⟩ := Prod.mk.inj (Option.some.inj h)
    rw [List.isEmpty_iff.mp hempty]
    exact ⟨rfl, by rwa [List.isEmpty_iff.mp hempty] at hfirst⟩
  | cons x xs ih =>
    unfold splitFirst at h
    split_ifs at h with hstart
    · obtain ⟨rfl, rfl⟩ := Prod.mk.inj (Option.some.inj h)
      obtain ⟨rest, hrest⟩ := List.isPrefixOf_iff_prefix.mp hstart
      refine ⟨?_, hfirst⟩
      rw [← hrest, List.drop_left, List.nil_append]
    · obtain ⟨⟨front, back⟩, hparts, heq⟩ := Option.map_eq_some_iff.mp h
      obtain ⟨rfl, rfl⟩ := Prod.mk.inj heq
      obtain ⟨rfl, honly⟩ := ih hparts
      refine ⟨rfl, fun before' after' heq' => ?_⟩
      cases before' with
      | nil =>
        exfalso
        apply hstart
        rw [List.isPrefixOf_iff_prefix]
        refine ⟨after' ++ back, ?_⟩
        rw [← List.append_assoc, ← List.nil_append pat, ← heq']
        simp
      | cons y before' =>
        rw [List.cons_append, List.cons_append, List.cons_append] at heq'
        exact honly before' after' (List.cons.inj heq').2

theorem splitFirst_none {pat xs : List α} : splitFirst pat xs = none ↔ ¬ pat <:+: xs := by
  induction xs with
  | nil =>
    unfold splitFirst
    cases pat <;> simp
  | cons x xs ih =>
    unfold splitFirst
    rw [List.infix_cons_iff, not_or, ← List.isPrefixOf_iff_prefix]
    split_ifs with hstart
    · simp [hstart]
    · simp [hstart, ih]

inductive Masked (mask : List α) : List α → List α → Prop where
  | nil : Masked mask [] []
  | keep {xs ys : List α} (x : α) : Masked mask xs ys → Masked mask (x :: xs) (x :: ys)
  | hide {xs ys : List α} (gone : List α) : Masked mask xs ys → Masked mask (gone ++ xs) (mask ++ ys)

section Masked

omit [DecidableEq α]

variable {mask pat : List α}

protected theorem Masked.refl (xs : List α) : Masked mask xs xs := by
  induction xs with
  | nil => exact .nil
  | cons x xs ih => exact .keep x ih

protected theorem Masked.append {xs ys more less : List α} (h : Masked mask xs ys)
    (hmore : Masked mask more less) : Masked mask (xs ++ more) (ys ++ less) := by
  induction h with
  | nil => exact hmore
  | keep x _ ih => exact .keep x ih
  | hide gone _ ih =>
    rw [List.append_assoc, List.append_assoc]
    exact .hide gone ih

theorem infix_of_infix_mask (hpat : pat ≠ []) (hmask : ∀ x ∈ pat, x ∉ mask) {ys : List α}
    (h : pat <:+: mask ++ ys) : pat <:+: ys := by
  induction mask with
  | nil => exact h
  | cons m mask ih =>
    have hless : ∀ x ∈ pat, x ∉ mask := fun x hx hm => hmask x hx (List.mem_cons_of_mem m hm)
    rcases List.infix_cons_iff.mp h with hstart | hlater
    · obtain ⟨p, pat, rfl⟩ := List.exists_cons_of_ne_nil hpat
      have hhead : p = m := (List.cons_prefix_cons.mp hstart).1
      exact absurd (hhead ▸ List.mem_cons_self) (hmask p List.mem_cons_self)
    · exact ih hless hlater

theorem Masked.starts {xs ys : List α} (h : Masked mask xs ys) (hne : mask ≠ [])
    (hmask : ∀ x ∈ pat, x ∉ mask) (hstart : pat <+: ys) : pat <+: xs := by
  induction h generalizing pat with
  | nil => exact hstart
  | keep x _ ih =>
    cases pat with
    | nil => exact List.nil_prefix
    | cons p pat =>
      obtain ⟨rfl, hrest⟩ := List.cons_prefix_cons.mp hstart
      have hless : ∀ y ∈ pat, y ∉ mask := fun y hy => hmask y (List.mem_cons_of_mem p hy)
      exact List.cons_prefix_cons.mpr ⟨rfl, ih hless hrest⟩
  | hide gone _ _ =>
    cases pat with
    | nil => exact List.nil_prefix
    | cons p pat =>
      obtain ⟨m, mask, rfl⟩ := List.exists_cons_of_ne_nil hne
      have hhead : p = m := (List.cons_prefix_cons.mp hstart).1
      exact absurd (hhead ▸ List.mem_cons_self) (hmask p List.mem_cons_self)

theorem Masked.occurs {xs ys : List α} (h : Masked mask xs ys) (hne : mask ≠ []) (hpat : pat ≠ [])
    (hmask : ∀ x ∈ pat, x ∉ mask) (hin : pat <:+: ys) : pat <:+: xs := by
  induction h with
  | nil => exact hin
  | keep x hrest ih =>
    rcases List.infix_cons_iff.mp hin with hstart | hlater
    · exact ((hrest.keep x).starts hne hmask hstart).isInfix
    · exact (ih hlater).trans (List.suffix_cons x _).isInfix
  | hide gone _ ih =>
    exact (ih (infix_of_infix_mask hpat hmask hin)).trans (List.suffix_append gone _).isInfix

end Masked

/-- All places of a pattern that is not empty, from the left, none inside another; so many items
are skipped first. -/
def replaceFrom (pat mask : List α) : Nat → List α → List α
  | _, [] => []
  | n + 1, _ :: xs => replaceFrom pat mask n xs
  | 0, x :: xs =>
    if pat.isPrefixOf (x :: xs) then mask ++ replaceFrom pat mask (pat.length - 1) xs
    else x :: replaceFrom pat mask 0 xs

def replaceAll (pat mask xs : List α) : List α := replaceFrom pat mask 0 xs

section Replace

variable {mask pat : List α}

theorem masked_replaceFrom (hpat : pat ≠ []) (n : Nat) (xs : List α) :
    Masked mask (xs.drop n) (replaceFrom pat mask n xs) := by
  induction xs generalizing n with
  | nil =>
    rw [List.drop_nil]
    cases n <;> exact .nil
  | cons x xs ih =>
    cases n with
    | succ n => exact ih n
    | zero =>
      unfold replaceFrom
      split_ifs with hstart
      · obtain ⟨rest, hrest⟩ := List.isPrefixOf_iff_prefix.mp hstart
        obtain ⟨p, pat, rfl⟩ := List.exists_cons_of_ne_nil hpat
        rw [List.cons_append] at hrest
        obtain ⟨rfl, rfl⟩ := List.cons.inj hrest
        have hrest := ih pat.length
        rw [List.drop_left] at hrest
        exact .hide (p :: pat) hrest
      · exact .keep x (ih 0)

theorem not_infix_replaceFrom (hpat : pat ≠ []) (hne : mask ≠ []) (hmask : ∀ x ∈ pat, x ∉ mask)
    (n : Nat) (xs : List α) : ¬ pat <:+: replaceFrom pat mask n xs := by
  induction xs generalizing n with
  | nil =>
    have hnil : replaceFrom pat mask n [] = [] := by cases n <;> rfl
    rw [hnil, List.infix_nil]
    exact hpat
  | cons x xs ih =>
    cases n with
    | succ n => exact ih n
    | zero =>
      unfold replaceFrom
      split_ifs with hstart
      · exact fun hin => ih _ (infix_of_infix_mask hpat hmask hin)
      · intro hin
        rcases List.infix_cons_iff.mp hin with hfirst | hlater
        · have hmasked : Masked mask (x :: xs) (x :: replaceFrom pat mask 0 xs) :=
            .keep x (masked_replaceFrom hpat 0 xs)
          exact hstart (List.isPrefixOf_iff_prefix.mpr (hmasked.starts hne hmask hfirst))
        · exact ih 0 hlater

end Replace

end Setfork.Foundation.Search
