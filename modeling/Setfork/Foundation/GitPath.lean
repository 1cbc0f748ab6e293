/- Foundation: printed git paths
   digest: Names and leaf paths of git trees, C-style quoting of paths, and splitting into lines. -/
import Setfork.Foundation.Text

set_option autoImplicit false
set_option relaxedAutoImplicit false

namespace Setfork.Foundation

/-- An entry name of a git tree: one path component. -/
structure Name where
  bytes : Bytes
  ne_nil : bytes ≠ []
  noSlash : 47 ∉ bytes
  noNul : 0 ∉ bytes
deriving DecidableEq

theorem Name.bytes_injective : Function.Injective Name.bytes := by
  rintro ⟨a, _, _, _⟩ ⟨b, _, _, _⟩ h
  simpa using h

/-- A path from the root of a tree to a file or submodule. -/
structure LeafPath where
  dirs : List Name
  name : Name
deriving DecidableEq

namespace LeafPath

def dirBytes (p : LeafPath) : Bytes := p.dirs.flatMap (fun d => d.bytes ++ [47])

def bytes (p : LeafPath) : Bytes := p.dirBytes ++ p.name.bytes

end LeafPath

private theorem split_slash {a b x y : Bytes} (ha : 47 ∉ a) (hb : 47 ∉ b)
    (h : a ++ 47 :: x = b ++ 47 :: y) : a = b ∧ x = y := by
  induction a generalizing b with
  | nil =>
    cases b with
    | nil => exact ⟨rfl, (List.cons.inj h).2⟩
    | cons c b => exact absurd (List.mem_cons.mpr (Or.inl (List.cons.inj h).1)) hb
  | cons c a ih =>
    cases b with
    | nil => exact absurd (List.mem_cons.mpr (Or.inl (List.cons.inj h).1.symm)) ha
    | cons d b =>
      obtain ⟨rfl, htail⟩ := List.cons.inj h
      obtain ⟨rfl, hxy⟩ := ih (fun hm => ha (List.mem_cons_of_mem c hm))
        (fun hm => hb (List.mem_cons_of_mem c hm)) htail
      exact ⟨rfl, hxy⟩

theorem LeafPath.bytes_noSlash {p : LeafPath} {b : Bytes} (hb : 47 ∉ b) :
    p.bytes = b ↔ p.dirs = [] ∧ p.name.bytes = b := by
  obtain ⟨dirs, name⟩ := p
  constructor
  · intro h
    cases dirs with
    | nil => exact ⟨rfl, h⟩
    | cons d ds =>
      refine absurd ?_ hb
      rw [← h]
      simp [LeafPath.bytes, LeafPath.dirBytes]
  · rintro ⟨rfl, h⟩
    exact h

theorem LeafPath.bytes_oneSlash {p : LeafPath} {d n : Bytes} (hd : 47 ∉ d) (hn : 47 ∉ n) :
    p.bytes = d ++ 47 :: n ↔ (∃ e, p.dirs = [e] ∧ e.bytes = d) ∧ p.name.bytes = n := by
  obtain ⟨dirs, name⟩ := p
  constructor
  · intro h
    cases dirs with
    | nil =>
      refine absurd ?_ name.noSlash
      rw [show name.bytes = d ++ 47 :: n from h]
      simp
    | cons e es =>
      have hsplit : e.bytes ++ 47 :: (es.flatMap (fun d => d.bytes ++ [47]) ++ name.bytes) =
          d ++ 47 :: n := by
        rw [← h]
        simp [LeafPath.bytes, LeafPath.dirBytes]
      obtain ⟨hed, hrest⟩ := split_slash e.noSlash hd hsplit
      have htail := (LeafPath.bytes_noSlash (p := ⟨es, name⟩) hn).mp hrest
      exact ⟨⟨e, by rw [show es = [] from htail.1], hed⟩, htail.2⟩
  · rintro ⟨⟨e, hdirs, rfl⟩, rfl⟩
    simp only at hdirs
    subst hdirs
    simp [LeafPath.bytes, LeafPath.dirBytes]

/-- Bytes that make git print a path in quotes even with `core.quotePath=false`. -/
def mustQuote (b : UInt8) : Bool := b < 0x20 || b == 0x22 || b == 0x5c || b == 0x7f

def quoteEscape (b : UInt8) : Bytes :=
  match b with
  | 7 => [97]
  | 8 => [98]
  | 9 => [116]
  | 10 => [110]
  | 11 => [118]
  | 12 => [102]
  | 13 => [114]
  | 0x22 => [0x22]
  | 0x5c => [0x5c]
  | _ => [48 + b / 64, 48 + b / 8 % 8, 48 + b % 8]

def printPath (p : Bytes) : Bytes :=
  if p.any mustQuote then
    0x22 :: p.flatMap (fun b => if mustQuote b then 0x5c :: quoteEscape b else [b]) ++ [0x22]
  else p

set_option maxRecDepth 4000 in
private theorem newline_not_mem_quoteEscape (b : UInt8) : 10 ∉ quoteEscape b := by
  have hall : ∀ n : Fin 256, 10 ∉ quoteEscape (UInt8.ofNat n.val) := by decide
  have hb := hall ⟨b.toNat, b.toNat_lt⟩
  rwa [UInt8.ofNat_toNat] at hb

theorem newline_not_mem_printPath (p : Bytes) : 10 ∉ printPath p := by
  unfold printPath
  split_ifs with h
  · intro hmem
    simp only [List.cons_append, List.mem_cons, List.mem_append, List.mem_flatMap,
      List.not_mem_nil, or_false] at hmem
    rcases hmem with hmem | ⟨b, -, hmem⟩ | hmem
    · exact absurd hmem (by decide)
    · split_ifs at hmem with hb
      · rcases List.mem_cons.mp hmem with hslash | hescape
        · exact absurd hslash (by decide)
        · exact newline_not_mem_quoteEscape b hescape
      · obtain rfl := List.mem_singleton.mp hmem
        exact hb (by decide)
    · exact absurd hmem (by decide)
  · intro hmem
    exact h (List.any_eq_true.mpr ⟨10, hmem, by decide⟩)

/-- The lines of an output; a line break ends a line. -/
def lines : Bytes → List Bytes
  | [] => []
  | b :: rest =>
    if b = 10 then [] :: lines rest
    else
      match lines rest with
      | [] => [[b]]
      | l :: ls => (b :: l) :: ls

def unlines (ls : List Bytes) : Bytes := ls.flatMap (fun l => l ++ [10])

private theorem lines_append (l rest : Bytes) (hl : 10 ∉ l) :
    lines (l ++ 10 :: rest) = l :: lines rest := by
  induction l with
  | nil => simp [lines]
  | cons b l ih =>
    have hb : b ≠ 10 := fun h => hl (h ▸ List.mem_cons_self)
    rw [List.cons_append, lines, if_neg hb, ih fun h => hl (List.mem_cons_of_mem b h)]

theorem lines_unlines {ls : List Bytes} (hls : ∀ l ∈ ls, 10 ∉ l) : lines (unlines ls) = ls := by
  induction ls with
  | nil => rfl
  | cons l ls ih =>
    have hrest : lines (unlines ls) = ls := ih fun m hm => hls m (List.mem_cons_of_mem l hm)
    have hcons : unlines (l :: ls) = l ++ 10 :: unlines ls := by simp [unlines]
    rw [hcons, lines_append l _ (hls l List.mem_cons_self), hrest]

end Setfork.Foundation
