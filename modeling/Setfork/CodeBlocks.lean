/- CodeBlocks
   digest: The code block of a command stands in the README as it was made, and no line of the
   command closes it. -/
import Setfork.CanonReadme
import Setfork.Foundation.Lines

set_option autoImplicit false
set_option relaxedAutoImplicit false

namespace Setfork.CodeBlocks

open Setfork.Foundation
open Setfork.Foundation.Lines
open Setfork.Foundation.Json (printInt)
open Setfork.Serialize
open Setfork.Readme
open Setfork.CanonReadme (bareStep nestedVersion)

theorem replaceTriple_length_le (t : Text) : (replaceTriple t).length ≤ t.length := by
  induction t using replaceTriple.induct with
  | case1 t ih =>
    simp only [replaceTriple, List.length_cons]
    omega
  | case2 c t _ ih =>
    rw [replaceTriple]
    · simp only [List.length_cons]
      omega
    · assumption
  | case3 => exact Nat.le_refl 0

theorem replaceTriple_length_lt {t : Text} (h : hasTriple t = true) :
    (replaceTriple t).length < t.length := by
  induction t using replaceTriple.induct with
  | case1 t ih =>
    have hle := replaceTriple_length_le t
    simp only [replaceTriple, List.length_cons]
    omega
  | case2 c t hne ih =>
    rw [hasTriple] at h
    · rw [replaceTriple]
      · have hlt := ih h
        simp only [List.length_cons]
        omega
      · assumption
    · assumption
  | case3 => cases h

theorem capRuns_replaceTriple (t : Text) (written : Nat) (hwritten : written ≤ 2) :
    capRuns '\n' 2 written (replaceTriple t) = capRuns '\n' 2 written t := by
  induction t using replaceTriple.induct generalizing written with
  | case1 t ih =>
    have hcases : written = 0 ∨ written = 1 ∨ written = 2 := by omega
    rcases hcases with rfl | rfl | rfl
    all_goals simp [replaceTriple, capRuns, ih]
  | case2 c t hne ih =>
    rw [replaceTriple]
    · by_cases hc : c = '\n'
      · by_cases hlimit : written < 2
        · simp only [capRuns, if_pos hc, if_pos hlimit, ih (written + 1) (by omega)]
        · simp only [capRuns, if_pos hc, if_neg hlimit, ih written hwritten]
      · simp only [capRuns, if_neg hc, ih 0 (by omega)]
    · assumption
  | case3 => rfl

theorem hasTriple_tail {c : Char} {t : Text} (h : hasTriple (c :: t) = false) :
    hasTriple t = false := by
  rw [hasTriple.eq_def] at h
  split at h
  · cases h
  · next heq =>
    obtain ⟨-, rfl⟩ := List.cons.inj heq
    exact h
  · next heq => cases heq

theorem capRuns_of_calm (t : Text) (written : Nat) (hwritten : written ≤ 2)
    (h : hasTriple (List.replicate written '\n' ++ t) = false) :
    capRuns '\n' 2 written t = t := by
  induction t generalizing written with
  | nil => rfl
  | cons c t ih =>
    by_cases hc : c = '\n'
    · subst hc
      have hlimit : written < 2 := by
        by_contra htwo
        obtain rfl : written = 2 := by omega
        cases h
      rw [capRuns, if_pos rfl, if_pos hlimit, ih (written + 1) (by omega)]
      rwa [List.replicate_succ', List.append_assoc]
    · have hdrop : ∀ k, hasTriple (List.replicate k '\n' ++ c :: t) = false →
          hasTriple t = false := by
        intro k hk
        induction k with
        | zero => exact hasTriple_tail hk
        | succ k ihk => exact ihk (hasTriple_tail hk)
      rw [capRuns_cons_of_ne hc, ih 0 (Nat.zero_le 2) (hdrop written h)]

theorem collapseBreaks_eq {fuel : Nat} {t : Text} (h : t.length ≤ fuel) :
    collapseBreaks fuel t = capRuns '\n' 2 0 t := by
  induction fuel generalizing t with
  | zero =>
    obtain rfl := List.length_eq_zero_iff.mp (Nat.le_zero.mp h)
    rfl
  | succ fuel ih =>
    cases htriple : hasTriple t with
    | true =>
      have hlt := replaceTriple_length_lt htriple
      rw [collapseBreaks, if_pos htriple, ih (by omega),
        capRuns_replaceTriple t 0 (Nat.zero_le 2)]
    | false =>
      rw [collapseBreaks, htriple, capRuns_of_calm t 0 (Nat.zero_le 2) htriple]
      rfl

/-- The text of the lines of a README without runs of empty lines. -/
def collapsed (t : Text) : Text := collapseBreaks t.length t

theorem collapsed_eq (t : Text) : collapsed t = capRuns '\n' 2 0 t :=
  collapseBreaks_eq (Nat.le_refl _)

theorem collapsed_around {before after : Text} {block : List Text} (hblock : block ≠ [])
    (hlines : ∀ l ∈ block, l ≠ [] ∧ '\n' ∉ l) :
    collapsed (before ++ joinLines block ++ after) =
      collapsed before ++ joinLines block ++ collapsed after := by
  simp only [collapsed_eq]
  obtain ⟨written, h⟩ := @capRuns_append _ '\n' _ 2 before 0
  rw [List.append_assoc, h, joinLines, capRuns_lines (by omega) hblock hlines, ← List.append_assoc]

def fenceOf (code : Text) : Text :=
  List.replicate (max (longestRun 0 0 (normalizeBreaks code)) 2 + 1) backtick

/-- The lines of a command, all of them behind the indent. -/
def commandLines (code indent : Text) : List Text :=
  ((normalizeBreaks code).splitOn '\n').map (indent ++ ·)

theorem codeBlock_eq (code indent lang : Text) :
    codeBlock code indent lang = (indent ++ fenceOf code ++ lang) ::
      (commandLines code indent ++ [indent ++ fenceOf code]) := rfl

theorem fenceOf_length (code : Text) :
    (fenceOf code).length = max (longestRun 0 0 (normalizeBreaks code)) 2 + 1 :=
  List.length_replicate

theorem break_not_mem_fence (code : Text) : '\n' ∉ fenceOf code := by
  intro h
  have hchar : '\n' = backtick := List.eq_of_mem_replicate h
  exact absurd hchar (by decide)

theorem codeBlock_lines {code indent lang : Text} (hindent : indent ≠ [])
    (hbreak : '\n' ∉ indent) (hlang : '\n' ∉ lang) :
    ∀ l ∈ codeBlock code indent lang, l ≠ [] ∧ '\n' ∉ l := by
  have hfence := break_not_mem_fence code
  have hne : ∀ t : Text, indent ++ t ≠ [] := fun t h => hindent (List.append_eq_nil_iff.mp h).1
  intro l hl
  rw [codeBlock_eq, List.mem_cons, List.mem_append, List.mem_singleton] at hl
  rcases hl with rfl | hl | rfl
  · refine ⟨by rw [List.append_assoc]; exact hne _, ?_⟩
    simp [hbreak, hfence, hlang]
  · obtain ⟨piece, hpiece, rfl⟩ := List.mem_map.mp hl
    refine ⟨hne piece, ?_⟩
    simp [hbreak, not_mem_of_mem_splitOn '\n' hpiece]
  · refine ⟨hne _, ?_⟩
    simp [hbreak, hfence]

theorem le_longestRun (run longest : Nat) (t : Text) : longest ≤ longestRun run longest t := by
  induction t generalizing run longest with
  | nil => exact Nat.le_refl longest
  | cons c t ih =>
    rw [longestRun]
    split_ifs
    · exact Nat.le_trans (Nat.le_max_left _ _) (ih _ _)
    · exact ih _ _

theorem longestRun_replicate (n run longest : Nat) (t : Text) (hrun : run ≤ longest) :
    run + n ≤ longestRun run longest (List.replicate n backtick ++ t) := by
  induction n generalizing run longest with
  | zero => exact Nat.le_trans hrun (le_longestRun _ _ _)
  | succ n ih =>
    rw [List.replicate_succ, List.cons_append, longestRun, if_pos rfl]
    have hrest := ih (run + 1) (max longest (run + 1)) (Nat.le_max_right _ _)
    omega

theorem longestRun_infix {n : Nat} {t : Text} (h : List.replicate n backtick <:+: t) :
    n ≤ longestRun 0 0 t := by
  obtain ⟨before, after, rfl⟩ := h
  have hgeneral : ∀ run longest, run ≤ longest →
      n ≤ longestRun run longest (before ++ (List.replicate n backtick ++ after)) := by
    induction before with
    | nil =>
      intro run longest hrun
      have hrest := longestRun_replicate n run longest after hrun
      rw [List.nil_append]
      omega
    | cons c before ih =>
      intro run longest hrun
      rw [List.cons_append, longestRun]
      split_ifs
      · exact ih _ _ (Nat.le_max_right _ _)
      · exact ih _ _ (Nat.zero_le _)
  rw [List.append_assoc]
  exact hgeneral 0 0 (Nat.le_refl 0)

/-- After its indent a line has backticks only, and not fewer than the fence. -/
def closesFence (fence : Nat) (line : Text) : Bool :=
  let rest := line.dropWhile (· == ' ')
  rest.all (· == backtick) && decide (fence ≤ rest.length)

theorem dropWhile_indent {indent : Text} (h : ∀ c ∈ indent, c = ' ') (t : Text) :
    (indent ++ t).dropWhile (· == ' ') = t.dropWhile (· == ' ') := by
  rw [List.dropWhile_append_of_pos]
  intro c hc
  rw [h c hc]
  rfl

theorem commandLines_stay_open {code indent : Text} (hindent : ∀ c ∈ indent, c = ' ') :
    ∀ l ∈ commandLines code indent, closesFence (fenceOf code).length l = false := by
  intro l hl
  obtain ⟨piece, hpiece, rfl⟩ := List.mem_map.mp hl
  by_contra hcloses
  rw [Bool.not_eq_false, closesFence, dropWhile_indent hindent, Bool.and_eq_true,
    decide_eq_true_iff, List.all_eq_true] at hcloses
  obtain ⟨hticks, hlength⟩ := hcloses
  have hrest : piece.dropWhile (· == ' ') =
      List.replicate (piece.dropWhile (· == ' ')).length backtick :=
    List.eq_replicate_iff.mpr ⟨rfl, fun c hc => by simpa using hticks c hc⟩
  have hinfix : piece.dropWhile (· == ' ') <:+: normalizeBreaks code := by
    have hpart := (List.dropWhile_suffix (· == ' ')).isInfix.trans (infix_join '\n' hpiece)
    rwa [List.intercalate_splitOn] at hpart
  rw [hrest] at hinfix
  have hbound := longestRun_infix hinfix
  rw [fenceOf_length] at hlength
  omega

theorem closing_line {code indent : Text} (hindent : ∀ c ∈ indent, c = ' ') :
    closesFence (fenceOf code).length (indent ++ fenceOf code) = true := by
  have hfence : (fenceOf code).dropWhile (· == ' ') = fenceOf code := by
    rw [fenceOf, List.replicate_succ, List.dropWhile_cons_of_neg]
    decide
  rw [closesFence, dropWhile_indent hindent, hfence, Bool.and_eq_true, decide_eq_true_iff]
  refine ⟨?_, Nat.le_refl _⟩
  rw [List.all_eq_true]
  intro c hc
  rw [List.eq_of_mem_replicate hc]
  rfl

/-- The lines above the first step. -/
def headLines (v : VersionData) : List Text :=
  let kind := if v.ordered then "Ordered list".toList else "Unordered set".toList
  let stepCount := (v.steps.filter isStepBlock).length
  ["# ".toList ++ v.title, []] ++
    (if v.desc.isEmpty then [] else [v.desc, []]) ++
    (if v.tags.isEmpty then []
     else [List.intercalate [' '] (v.tags.map (fun t => [backtick] ++ t ++ [backtick])), []]) ++
    ["> ".toList ++ kind ++ " · v".toList ++ printInt v.version ++ " · ".toList ++
      printInt (stepCount : Nat) ++ " items".toList, []]

theorem readmeLines_eq (v : VersionData) :
    readmeLines v = headLines v ++ bodyLines v.ordered [] 0 v.steps ++ footer := rfl

def markerOf (ordered : Bool) (number : Nat) : Text :=
  if ordered then printInt (number + 1 : Nat) ++ ['.'] else ['-']

/-- What belongs to an item is indented by its marker. -/
def itemIndent (ordered : Bool) (number : Nat) : Text :=
  List.replicate ((markerOf ordered number).length + 1) ' '

theorem bodyLines_split (ordered : Bool) (a b : List SerStep) {s : SerStep}
    (hstep : isStepBlock s = true) (section_ : Text) (number : Nat) :
    ∃ heading below, bodyLines ordered section_ number (a ++ s :: b) =
      bodyLines ordered section_ number a ++ heading ++
        stepLines (markerOf ordered (number + (a.filter isStepBlock).length)) s ++ below := by
  induction a generalizing section_ number with
  | nil =>
    simp only [List.nil_append, bodyLines, hstep, Bool.not_true, Bool.false_eq_true, if_false,
      List.filter_nil, List.length_nil, Nat.add_zero]
    exact ⟨_, _, rfl⟩
  | cons t a ih =>
    rw [List.cons_append, bodyLines, bodyLines, List.filter_cons]
    cases ht : isStepBlock t with
    | false =>
      obtain ⟨heading, below, h⟩ := ih section_ number
      refine ⟨heading, below, ?_⟩
      simp only [Bool.not_false, if_true, Bool.false_eq_true, if_false, h, List.append_assoc]
    | true =>
      obtain ⟨heading, below, h⟩ := ih
        (if !t.section_.isEmpty && t.section_ != section_ then t.section_ else section_)
        (number + 1)
      refine ⟨heading, below, ?_⟩
      simp only [Bool.not_true, Bool.false_eq_true, if_false, if_true, h, List.length_cons,
        List.append_assoc]
      rw [show number + 1 + (a.filter isStepBlock).length =
        number + ((a.filter isStepBlock).length + 1) by omega]

theorem stepLines_split (marker : Text) {s : SerStep} (hcommand : s.command ≠ []) :
    ∃ above below, stepLines marker s = above ++ [] ::
      codeBlock s.command (List.replicate (marker.length + 1) ' ') "sh".toList ++ below := by
  have hempty : s.command.isEmpty = false := List.isEmpty_eq_false_iff.mpr hcommand
  rw [stepLines, hempty]
  simp only [Bool.false_eq_true, if_false, List.append_assoc]
  exact ⟨_, _, (List.append_assoc ..).symm⟩

theorem headLines_append_ne_nil (v : VersionData) (rest : List Text) :
    headLines v ++ rest ≠ [] := fun h => List.cons_ne_nil _ _ (List.append_eq_nil_iff.mp h).1

theorem footer_ne_nil : footer ≠ [] := List.cons_ne_nil _ _

theorem footer_last : ∃ front, joinLines footer = front ++ ['.'] :=
  List.getLast?_eq_some_iff.mp (by decide +kernel)

theorem readme_eq (v : VersionData) : readme v = collapsed (joinLines (readmeLines v)) ++ ['\n'] := by
  obtain ⟨front, hfront⟩ := footer_last
  have hlines : joinLines (readmeLines v) =
      joinLines (headLines v ++ bodyLines v.ordered [] 0 v.steps) ++ '\n' :: (front ++ ['.']) := by
    rw [readmeLines_eq, ← hfront]
    exact join_append '\n' (headLines_append_ne_nil v _) footer_ne_nil
  obtain ⟨written, h⟩ := @capRuns_append _ '\n' _ 2
    (joinLines (headLines v ++ bodyLines v.ordered [] 0 v.steps) ++ '\n' :: front) 0
  have hlast : collapsed (joinLines (readmeLines v)) =
      capRuns '\n' 2 0 (joinLines (headLines v ++ bodyLines v.ordered [] 0 v.steps) ++
        '\n' :: front) ++ ['.'] := by
    rw [collapsed_eq, hlines, ← List.cons_append, ← List.append_assoc, h,
      capRuns_cons_of_ne (by decide)]
    rfl
  show (collapsed (joinLines (readmeLines v))).rdropWhile isWhitespace ++ ['\n'] = _
  rw [hlast, List.rdropWhile_concat_neg _ _ _ (by decide)]

theorem readme_around {v : VersionData} {before after block : List Text} (hbefore : before ≠ [])
    (hafter : after ≠ []) (hblock : block ≠ []) (hlines : ∀ l ∈ block, l ≠ [] ∧ '\n' ∉ l)
    (heq : readmeLines v = before ++ block ++ after) :
    readme v = collapsed (joinLines before ++ ['\n']) ++ joinLines block ++
        collapsed ('\n' :: joinLines after) ++ ['\n'] ∧
      ∃ above below, (readme v).splitOn '\n' = above ++ block ++ below ∧
        joinLines above ++ ['\n'] = collapsed (joinLines before ++ ['\n']) := by
  have hjoined : joinLines (readmeLines v) =
      joinLines before ++ ['\n'] ++ joinLines block ++ '\n' :: joinLines after := by
    rw [heq, joinLines, join_append '\n' (by simp [hbefore]) hafter,
      join_append '\n' hbefore hblock]
    simp [joinLines]
  have htext : readme v = collapsed (joinLines before ++ ['\n']) ++ joinLines block ++
      collapsed ('\n' :: joinLines after) ++ ['\n'] := by
    rw [readme_eq, hjoined, collapsed_around hblock hlines]
  refine ⟨htext, ?_⟩
  obtain ⟨front, hfront⟩ := @capRuns_concat_sep _ '\n' _ 2 (by omega) (joinLines before)
  rw [← collapsed_eq] at hfront
  have hbelow : collapsed ('\n' :: joinLines after) = '\n' :: capRuns '\n' 2 1 (joinLines after) := by
    rw [collapsed_eq]
    rfl
  refine ⟨front.splitOn '\n', (capRuns '\n' 2 1 (joinLines after) ++ ['\n']).splitOn '\n', ?_, ?_⟩
  · rw [htext, hfront, hbelow, List.append_assoc, List.append_assoc, List.append_assoc,
      List.singleton_append, List.splitOn_append_cons_self, List.cons_append,
      List.splitOn_append_cons_self, joinLines,
      List.splitOn_intercalate '\n' (fun l hl => (hlines l hl).2) hblock, List.append_assoc]
  · rw [hfront, joinLines, List.intercalate_splitOn]

def fencedStep : SerStep :=
  { bareStep with command := "cat".toList ++ '\n' :: List.replicate 3 backtick }

def fencedVersion : VersionData := { nestedVersion 0 with steps := [fencedStep] }

end Setfork.CodeBlocks
