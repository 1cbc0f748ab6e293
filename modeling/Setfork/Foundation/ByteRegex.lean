/- Foundation: regular expressions over bytes
   digest: Words, classes and repetitions as regular expressions, with the languages they denote. -/
import Mathlib.Computability.RegularExpressions
import Setfork.Foundation.Text

set_option autoImplicit false
set_option relaxedAutoImplicit false

namespace Setfork.Foundation.ByteRegex

open RegularExpression

variable {α : Type*}

def word (w : List α) : RegularExpression α := (w.map char).prod

def oneOf (xs : List α) : RegularExpression α := (xs.map char).sum

def many1 (r : RegularExpression α) : RegularExpression α := r * r.star

theorem mem_word (v w : List α) : v ∈ (word w).matches' ↔ v = w := by
  induction w generalizing v with
  | nil => exact Iff.rfl
  | cons a w ih =>
    rw [word, List.map_cons, List.prod_cons, matches'_mul, Language.mem_mul]
    constructor
    · rintro ⟨x, hx, y, hy, rfl⟩
      have hxa : x = [a] := hx
      rw [hxa, (ih y).mp hy]
      rfl
    · rintro rfl
      exact ⟨[a], rfl, w, (ih w).mpr rfl, rfl⟩

theorem mem_sum (v : List α) (rs : List (RegularExpression α)) :
    v ∈ rs.sum.matches' ↔ ∃ r ∈ rs, v ∈ r.matches' := by
  induction rs with
  | nil =>
    simp only [List.not_mem_nil, false_and, exists_false, iff_false]
    exact id
  | cons r rs ih =>
    rw [List.sum_cons, matches'_add, Language.mem_add, ih]
    simp

theorem mem_oneOf (v : List α) (xs : List α) :
    v ∈ (oneOf xs).matches' ↔ ∃ a ∈ xs, v = [a] := by
  rw [oneOf, mem_sum]
  simp only [List.mem_map]
  constructor
  · rintro ⟨-, ⟨a, ha, rfl⟩, hv⟩
    exact ⟨a, ha, hv⟩
  · rintro ⟨a, ha, rfl⟩
    exact ⟨char a, ⟨a, ha, rfl⟩, rfl⟩

private theorem mem_star_oneOf (v : List α) (xs : List α) :
    v ∈ (oneOf xs).star.matches' ↔ ∀ a ∈ v, a ∈ xs := by
  rw [matches'_star, Language.mem_kstar]
  constructor
  · rintro ⟨parts, rfl, hparts⟩ a ha
    obtain ⟨part, hpart, hap⟩ := List.mem_flatten.mp ha
    obtain ⟨b, hb, rfl⟩ := (mem_oneOf part xs).mp (hparts part hpart)
    rwa [List.mem_singleton.mp hap]
  · intro h
    refine ⟨v.map (fun a => [a]), ?_, ?_⟩
    · induction v with
      | nil => rfl
      | cons a v ih =>
        have hv : v = (v.map (fun a => [a])).flatten := ih fun b hb => h b (List.mem_cons_of_mem a hb)
        rw [List.map_cons, List.flatten_cons, ← hv]
        rfl
    · intro part hpart
      obtain ⟨a, ha, rfl⟩ := List.mem_map.mp hpart
      exact (mem_oneOf _ _).mpr ⟨a, h a ha, rfl⟩

theorem mem_many1_oneOf (v : List α) (xs : List α) :
    v ∈ (many1 (oneOf xs)).matches' ↔ v ≠ [] ∧ ∀ a ∈ v, a ∈ xs := by
  rw [many1, matches'_mul, Language.mem_mul]
  constructor
  · rintro ⟨x, hx, y, hy, rfl⟩
    obtain ⟨a, ha, rfl⟩ := (mem_oneOf x xs).mp hx
    have hys := (mem_star_oneOf y xs).mp hy
    refine ⟨by simp, ?_⟩
    intro b hb
    rcases List.mem_cons.mp hb with rfl | hb
    · exact ha
    · exact hys b hb
  · rintro ⟨hne, hmem⟩
    cases v with
    | nil => exact absurd rfl hne
    | cons a v =>
      have ha := hmem a List.mem_cons_self
      have hv : ∀ b ∈ v, b ∈ xs := fun b hb => hmem b (List.mem_cons_of_mem a hb)
      exact ⟨[a], (mem_oneOf _ _).mpr ⟨a, ha, rfl⟩, v, (mem_star_oneOf v xs).mpr hv, rfl⟩

def allBytes : List UInt8 := (List.range 256).map UInt8.ofNat

theorem mem_allBytes (b : UInt8) : b ∈ allBytes := by
  have hlt : b.toNat < 256 := b.toNat_lt
  exact List.mem_map.mpr ⟨b.toNat, List.mem_range.mpr hlt, UInt8.ofNat_toNat⟩

def noneOf (b : UInt8) : RegularExpression UInt8 := oneOf (allBytes.filter (· ≠ b))

theorem mem_many1_noneOf (v : Bytes) (b : UInt8) :
    v ∈ (many1 (noneOf b)).matches' ↔ v ≠ [] ∧ b ∉ v := by
  rw [noneOf, mem_many1_oneOf]
  refine and_congr_right fun _ => ⟨fun h hb => ?_, fun h a ha => ?_⟩
  · have hmem := h b hb
    simp at hmem
  · have hab : a ≠ b := fun heq => h (heq ▸ ha)
    exact List.mem_filter.mpr ⟨mem_allBytes a, by simpa using hab⟩

def lit (s : Text) : RegularExpression UInt8 := word (utf8 s)

theorem mem_lit (v : Bytes) (s : Text) : v ∈ (lit s).matches' ↔ v = utf8 s := mem_word v (utf8 s)

end Setfork.Foundation.ByteRegex
