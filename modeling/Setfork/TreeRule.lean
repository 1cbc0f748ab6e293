/- TreeRule
   digest: The path rule of a list tree at both doors: the core predicate and the hook allowlist. -/
import Setfork.Foundation.ByteRegex
import Setfork.Foundation.GitPath

set_option autoImplicit false
set_option relaxedAutoImplicit false

namespace Setfork.TreeRule

open Setfork.Foundation
open Setfork.Foundation.ByteRegex

def stripPrefix (s t : Text) : Option Text :=
  if s.isPrefixOf t then some (t.drop s.length) else none

def stripSuffix (s t : Text) : Option Text :=
  if s.isSuffixOf t then some (t.take (t.length - s.length)) else none

/-- Directories of files that come with a push and are kept as they are. -/
def authoredDirs : List Text := ["scripts", "references", "assets"].map String.toList

def rootFiles : List Text := ["README.md", "list.json", ".gitattributes"].map String.toList

/-- Exactly one name under an authored directory. -/
def authoredPath (path : Text) : Bool :=
  authoredDirs.any (fun dir =>
    ((stripPrefix dir path).bind (stripPrefix ['/'])).any (fun name =>
      !name.isEmpty && !name.contains '/' && name != ".".toList && name != "..".toList))

/-- The admitted leaf paths of a tree; `steps/*.md` is a legacy exception. -/
def treePathAllowed (path : Text) : Bool :=
  rootFiles.contains path || authoredPath path ||
    ((stripPrefix "steps/".toList path).bind (stripSuffix ".md".toList)).any (fun stem =>
      !stem.isEmpty && !stem.contains '/')

def nonUtf8 : Text := "<non-utf8>".toList

/-- The path under which the tree walk of the core sees a leaf. A directory that is not UTF-8
ends the walk with an error. -/
def doorPath (p : LeafPath) : Option Text :=
  (fromUtf8 p.dirBytes).map (· ++ (fromUtf8 p.name.bytes).getD nonUtf8)

/-- The verdict of the core on one leaf. -/
def leafAllowed (p : LeafPath) : Bool := (doorPath p).any treePathAllowed

def anyOf (ss : List Text) : RegularExpression UInt8 := (ss.map lit).sum

/-- `^(README\.md|list\.json|\.gitattributes|steps/[^/]+\.md|(scripts|references|assets)/[^/]+)$` -/
def allowlist : RegularExpression UInt8 :=
  anyOf rootFiles +
    (lit "steps/".toList * many1 (noneOf 47) * lit ".md".toList +
      anyOf authoredDirs * lit ['/'] * many1 (noneOf 47))

def lsTreeNames (paths : List LeafPath) : Bytes := unlines (paths.map (fun p => printPath p.bytes))

/-- The lines that `grep -v -E` leaves over. -/
def hookBad (paths : List LeafPath) : List Bytes :=
  (lines (lsTreeNames paths)).filter (fun l => !decide (l ∈ allowlist.matches'))

/-- The verdict of the hook on one leaf. -/
def hookAllows (p : LeafPath) : Prop := printPath p.bytes ∈ allowlist.matches'

instance (p : LeafPath) : Decidable (hookAllows p) :=
  inferInstanceAs (Decidable (printPath p.bytes ∈ allowlist.matches'))

/-- The hook passes a tree exactly when it passes each of its leaves. -/
theorem hookBad_eq_nil_iff (paths : List LeafPath) :
    hookBad paths = [] ↔ ∀ p ∈ paths, hookAllows p := by
  have hlines : lines (lsTreeNames paths) = paths.map (fun p => printPath p.bytes) := by
    refine lines_unlines fun l hl => ?_
    obtain ⟨p, -, rfl⟩ := List.mem_map.mp hl
    exact newline_not_mem_printPath p.bytes
  rw [hookBad, hlines, List.filter_eq_nil_iff]
  simp [hookAllows]

theorem slash_mem_utf8 (t : Text) : 47 ∈ utf8 t ↔ '/' ∈ t :=
  mem_utf8_ascii (c := '/') (by decide) t

theorem mem_anyOf (w : Bytes) (ss : List Text) :
    w ∈ (anyOf ss).matches' ↔ ∃ s ∈ ss, w = utf8 s := by
  rw [anyOf, mem_sum]
  simp only [List.mem_map]
  constructor
  · rintro ⟨-, ⟨s, hs, rfl⟩, hw⟩
    exact ⟨s, hs, (mem_lit w s).mp hw⟩
  · rintro ⟨s, hs, hw⟩
    exact ⟨lit s, ⟨s, hs, rfl⟩, (mem_lit w s).mpr hw⟩

theorem mem_allowlist (w : Bytes) : w ∈ allowlist.matches' ↔
    (∃ s ∈ rootFiles, w = utf8 s) ∨
    (∃ n, n ≠ [] ∧ 47 ∉ n ∧ w = utf8 "steps".toList ++ 47 :: (n ++ utf8 ".md".toList)) ∨
    ∃ d ∈ authoredDirs, ∃ n, n ≠ [] ∧ 47 ∉ n ∧ w = utf8 d ++ 47 :: n := by
  simp only [allowlist, RegularExpression.matches'_add, RegularExpression.matches'_mul,
    Language.mem_add, Language.mem_mul, mem_anyOf, mem_lit, mem_many1_noneOf]
  refine or_congr_right (or_congr ?_ ?_)
  · constructor
    · rintro ⟨-, ⟨-, rfl, n, ⟨hne, hn⟩, rfl⟩, -, rfl, rfl⟩
      exact ⟨n, hne, hn, by rw [List.append_assoc]; rfl⟩
    · rintro ⟨n, hne, hn, rfl⟩
      exact ⟨_, ⟨_, rfl, n, ⟨hne, hn⟩, rfl⟩, _, rfl, by rw [List.append_assoc]; rfl⟩
  · constructor
    · rintro ⟨-, ⟨-, ⟨d, hd, rfl⟩, -, rfl, rfl⟩, n, ⟨hne, hn⟩, rfl⟩
      exact ⟨d, hd, n, hne, hn, by rw [List.append_assoc]; rfl⟩
    · rintro ⟨d, hd, n, hne, hn, rfl⟩
      exact ⟨_, ⟨_, ⟨d, hd, rfl⟩, _, rfl, rfl⟩, n, ⟨hne, hn⟩, by rw [List.append_assoc]; rfl⟩

theorem stripPrefix_eq_some {s t r : Text} : stripPrefix s t = some r ↔ t = s ++ r := by
  unfold stripPrefix
  constructor
  · intro h
    split_ifs at h with hp
    obtain ⟨u, rfl⟩ := List.isPrefixOf_iff_prefix.mp hp
    rw [← Option.some.inj h, List.drop_left]
  · rintro rfl
    rw [if_pos (List.isPrefixOf_iff_prefix.mpr (List.prefix_append s r)), List.drop_left]

theorem stripSuffix_eq_some {s t r : Text} : stripSuffix s t = some r ↔ t = r ++ s := by
  unfold stripSuffix
  constructor
  · intro h
    split_ifs at h with hp
    obtain ⟨u, rfl⟩ := List.isSuffixOf_iff_suffix.mp hp
    rw [← Option.some.inj h, List.length_append, Nat.add_sub_cancel, List.take_left]
  · rintro rfl
    rw [if_pos (List.isSuffixOf_iff_suffix.mpr (List.suffix_append r s)), List.length_append,
      Nat.add_sub_cancel, List.take_left]

theorem authoredPath_iff (t : Text) : authoredPath t = true ↔
    ∃ d ∈ authoredDirs, ∃ n, n ≠ [] ∧ '/' ∉ n ∧ n ≠ ".".toList ∧ n ≠ "..".toList ∧
      t = d ++ '/' :: n := by
  simp only [authoredPath, List.any_eq_true, Option.any_eq_true, Option.bind_eq_some_iff,
    stripPrefix_eq_some, Bool.and_eq_true, Bool.not_eq_true', bne_iff_ne,
    List.isEmpty_eq_false_iff, List.contains_eq_mem, decide_eq_false_iff_not]
  refine exists_congr fun d => and_congr_right fun _ => ?_
  constructor
  · rintro ⟨n, ⟨-, rfl, rfl⟩, ⟨⟨hne, hn⟩, hdot⟩, hdots⟩
    exact ⟨n, hne, hn, hdot, hdots, rfl⟩
  · rintro ⟨n, hne, hn, hdot, hdots, rfl⟩
    exact ⟨n, ⟨_, rfl, rfl⟩, ⟨⟨hne, hn⟩, hdot⟩, hdots⟩

theorem treePathAllowed_iff (t : Text) : treePathAllowed t = true ↔
    t ∈ rootFiles ∨
    (∃ stem, stem ≠ [] ∧ '/' ∉ stem ∧ t = "steps".toList ++ '/' :: (stem ++ ".md".toList)) ∨
    ∃ d ∈ authoredDirs, ∃ n, n ≠ [] ∧ '/' ∉ n ∧ n ≠ ".".toList ∧ n ≠ "..".toList ∧
      t = d ++ '/' :: n := by
  have hsteps : ((stripPrefix "steps/".toList t).bind (stripSuffix ".md".toList)).any (fun stem =>
      !stem.isEmpty && !stem.contains '/') = true ↔
      ∃ stem, stem ≠ [] ∧ '/' ∉ stem ∧ t = "steps".toList ++ '/' :: (stem ++ ".md".toList) := by
    simp only [Option.any_eq_true, Option.bind_eq_some_iff, stripPrefix_eq_some,
      stripSuffix_eq_some, Bool.and_eq_true, Bool.not_eq_true', List.isEmpty_eq_false_iff,
      List.contains_eq_mem, decide_eq_false_iff_not]
    constructor
    · rintro ⟨stem, ⟨-, rfl, rfl⟩, hne, hstem⟩
      exact ⟨stem, hne, hstem, rfl⟩
    · rintro ⟨stem, hne, hstem, rfl⟩
      exact ⟨stem, ⟨_, rfl, rfl⟩, hne, hstem⟩
  rw [treePathAllowed, Bool.or_eq_true, Bool.or_eq_true, hsteps, authoredPath_iff,
    List.contains_eq_mem, decide_eq_true_iff]
  exact or_assoc.trans (or_congr_right or_comm)

def InDir (p : LeafPath) (d : Text) : Prop := ∃ e, p.dirs = [e] ∧ e.bytes = utf8 d

def IsRootFile (p : LeafPath) : Prop := p.dirs = [] ∧ ∃ s ∈ rootFiles, p.name.bytes = utf8 s

def MdName (n : Name) : Prop := ∃ stem, stem ≠ [] ∧ n.bytes = stem ++ utf8 ".md".toList

def DotName (n : Name) : Prop := n.bytes = utf8 ".".toList ∨ n.bytes = utf8 "..".toList

def Quoted (n : Name) : Prop := n.bytes.any mustQuote = true

private theorem rootFiles_noSlash : ∀ s ∈ rootFiles, 47 ∉ utf8 s := by decide

private theorem rootFiles_plain : ∀ s ∈ rootFiles, (utf8 s).any mustQuote = false := by decide

theorem authoredDirs_noSlash : ∀ d ∈ authoredDirs, 47 ∉ utf8 d := by decide

private theorem authoredDirs_plain : ∀ d ∈ authoredDirs, (utf8 d).any mustQuote = false := by decide

private theorem md_noSlash : 47 ∉ utf8 ".md".toList := by decide

private theorem quoted_not_mem (w : Bytes) : 0x22 :: w ∉ allowlist.matches' := by
  have hhead : ∀ s ∈ rootFiles ++ authoredDirs ++ ["steps".toList],
      (utf8 s).head? ≠ some 0x22 ∧ utf8 s ≠ [] := by decide
  have hstart : ∀ s ∈ rootFiles ++ authoredDirs ++ ["steps".toList], ∀ r,
      0x22 :: w ≠ utf8 s ++ r := by
    intro s hs r heq
    obtain ⟨hne, hnil⟩ := hhead s hs
    have h := congrArg List.head? heq
    rw [List.head?_append_of_ne_nil _ hnil] at h
    exact hne h.symm
  rw [mem_allowlist]
  rintro (⟨s, hs, heq⟩ | ⟨n, -, -, heq⟩ | ⟨d, hd, n, -, -, heq⟩)
  · exact hstart s (by simp [hs]) [] (by rw [heq, List.append_nil])
  · exact hstart _ (by simp) _ heq
  · exact hstart d (by simp [hd]) _ heq

private theorem any_quote_dir {p : LeafPath} {d : Text} (hp : InDir p d)
    (hd : (utf8 d).any mustQuote = false) : p.bytes.any mustQuote = p.name.bytes.any mustQuote := by
  obtain ⟨e, hdirs, he⟩ := hp
  have hslash : mustQuote 47 = false := by decide
  simp [LeafPath.bytes, LeafPath.dirBytes, hdirs, he, hd, hslash]

private theorem any_quote_root {p : LeafPath} (hp : p.dirs = []) :
    p.bytes.any mustQuote = p.name.bytes.any mustQuote := by
  simp [LeafPath.bytes, LeafPath.dirBytes, hp]

private theorem md_name_noSlash {n : Bytes} (hn : 47 ∉ n) : 47 ∉ n ++ utf8 ".md".toList := by
  intro h
  rcases List.mem_append.mp h with h | h
  · exact hn h
  · exact md_noSlash h

theorem hookAllows_iff (p : LeafPath) : hookAllows p ↔
    IsRootFile p ∨ (InDir p "steps".toList ∧ MdName p.name ∧ ¬ Quoted p.name) ∨
      ∃ d ∈ authoredDirs, InDir p d ∧ ¬ Quoted p.name := by
  have hprint : hookAllows p ↔ p.bytes.any mustQuote = false ∧ p.bytes ∈ allowlist.matches' := by
    unfold hookAllows printPath
    cases hq : p.bytes.any mustQuote with
    | false => simp
    | true => simpa using quoted_not_mem _
  rw [hprint, mem_allowlist]
  constructor
  · rintro ⟨hplain, ⟨s, hs, hw⟩ | ⟨n, hne, hn, hw⟩ | ⟨d, hd, n, -, hn, hw⟩⟩
    · obtain ⟨hdirs, hname⟩ := (LeafPath.bytes_noSlash (rootFiles_noSlash s hs)).mp hw
      exact Or.inl ⟨hdirs, s, hs, hname⟩
    · obtain ⟨hdir, hname⟩ :=
        (LeafPath.bytes_oneSlash (by decide) (md_name_noSlash hn)).mp hw
      refine Or.inr (Or.inl ⟨hdir, ⟨n, hne, hname⟩, ?_⟩)
      rw [any_quote_dir hdir (by decide)] at hplain
      simp [Quoted, hplain]
    · obtain ⟨hdir, hname⟩ := (LeafPath.bytes_oneSlash (authoredDirs_noSlash d hd) hn).mp hw
      refine Or.inr (Or.inr ⟨d, hd, hdir, ?_⟩)
      rw [any_quote_dir hdir (authoredDirs_plain d hd)] at hplain
      simp [Quoted, hplain]
  · rintro (⟨hdirs, s, hs, hname⟩ | ⟨hdir, ⟨n, hne, hname⟩, hplain⟩ | ⟨d, hd, hdir, hplain⟩)
    · refine ⟨?_, Or.inl ⟨s, hs, ?_⟩⟩
      · rw [any_quote_root hdirs, hname, rootFiles_plain s hs]
      · exact (LeafPath.bytes_noSlash (rootFiles_noSlash s hs)).mpr ⟨hdirs, hname⟩
    · have hn : 47 ∉ n := fun h => p.name.noSlash (by rw [hname]; exact List.mem_append_left _ h)
      refine ⟨?_, Or.inr (Or.inl ⟨n, hne, hn, ?_⟩)⟩
      · rw [any_quote_dir hdir (by decide)]
        simpa [Quoted] using hplain
      · exact (LeafPath.bytes_oneSlash (by decide) (md_name_noSlash hn)).mpr ⟨hdir, hname⟩
    · refine ⟨?_, Or.inr (Or.inr ⟨d, hd, p.name.bytes, p.name.ne_nil, p.name.noSlash, ?_⟩)⟩
      · rw [any_quote_dir hdir (authoredDirs_plain d hd)]
        simpa [Quoted] using hplain
      · exact (LeafPath.bytes_oneSlash (authoredDirs_noSlash d hd) p.name.noSlash).mpr ⟨hdir, rfl⟩

/-- The name the core works with: the entry's own, or the stand-in for a name outside UTF-8. -/
def shownName (n : Name) : Name :=
  if (fromUtf8 n.bytes).isSome then n else ⟨utf8 nonUtf8, by decide, by decide, by decide⟩

private theorem utf8_doorPath {p : LeafPath} {t : Text} (h : doorPath p = some t) :
    (⟨p.dirs, shownName p.name⟩ : LeafPath).bytes = utf8 t := by
  simp only [doorPath, Option.map_eq_some_iff] at h
  obtain ⟨dirs, hdirs, rfl⟩ := h
  rw [utf8_append, utf8_of_fromUtf8 hdirs]
  cases hname : fromUtf8 p.name.bytes with
  | none => simp [LeafPath.bytes, LeafPath.dirBytes, shownName, hname]
  | some n => simp [LeafPath.bytes, LeafPath.dirBytes, shownName, hname, utf8_of_fromUtf8 hname]

private theorem shownName_eq {n : Name} {t : Text} (ht : t ≠ nonUtf8)
    (h : (shownName n).bytes = utf8 t) : n.bytes = utf8 t := by
  unfold shownName at h
  split_ifs at h
  · exact h
  · exact absurd (utf8_injective h).symm ht

private theorem doorPath_of_dirs {p : LeafPath} {d n : Text} (hd : p.dirBytes = utf8 d)
    (hn : p.name.bytes = utf8 n) : doorPath p = some (d ++ n) := by
  simp [doorPath, hd, hn, fromUtf8_utf8]

private theorem dirBytes_of_inDir {p : LeafPath} {d : Text} (hp : InDir p d) :
    p.dirBytes = utf8 (d ++ ['/']) := by
  obtain ⟨e, hdirs, he⟩ := hp
  rw [LeafPath.dirBytes, hdirs, utf8_append, ← he]
  simp only [List.flatMap_cons, List.flatMap_nil, List.append_nil]
  rfl

def Utf8Name (n : Name) : Prop := (fromUtf8 n.bytes).isSome = true

theorem utf8_slash (d n : Text) : utf8 (d ++ '/' :: n) = utf8 d ++ 47 :: utf8 n := by
  rw [utf8_append, utf8_cons]
  rfl

private theorem utf8_ne_nil {t : Text} (ht : t ≠ []) : utf8 t ≠ [] :=
  fun h => ht (utf8_injective h)

private theorem nonUtf8_not_md (stem : Text) : stem ++ ".md".toList ≠ nonUtf8 := by
  intro h
  have hlast := congrArg List.getLast? h
  rw [List.getLast?_append_of_ne_nil _ (by decide)] at hlast
  exact absurd hlast (by decide)

private theorem allowed_of_leafAllowed {p : LeafPath} (h : leafAllowed p = true) :
    IsRootFile p ∨ (InDir p "steps".toList ∧ MdName p.name ∧ Utf8Name p.name) ∨
      ∃ d ∈ authoredDirs, InDir p d ∧ ¬ DotName p.name := by
  rw [leafAllowed, Option.any_eq_true] at h
  obtain ⟨t, hdoor, ht⟩ := h
  have hbytes := utf8_doorPath hdoor
  rcases (treePathAllowed_iff t).mp ht with hroot | ⟨stem, hne, hstem, rfl⟩ |
    ⟨d, hd, n, hne, hn, hdot, hdots, rfl⟩
  · have hshown := (LeafPath.bytes_noSlash (rootFiles_noSlash t hroot)).mp hbytes
    have hstand : t ≠ nonUtf8 := fun heq => absurd (heq ▸ hroot) (by decide)
    exact Or.inl ⟨hshown.1, t, hroot, shownName_eq hstand hshown.2⟩
  · rw [utf8_slash] at hbytes
    have hmd : 47 ∉ utf8 (stem ++ ".md".toList) := by
      rw [slash_mem_utf8]
      simpa using hstem
    obtain ⟨hdir, hname⟩ := (LeafPath.bytes_oneSlash (by decide) hmd).mp hbytes
    have hbase := shownName_eq (nonUtf8_not_md stem) hname
    refine Or.inr (Or.inl ⟨hdir, ⟨utf8 stem, utf8_ne_nil hne, ?_⟩, ?_⟩)
    · rw [hbase, utf8_append]
    · rw [Utf8Name, hbase, fromUtf8_utf8]
      rfl
  · rw [utf8_slash] at hbytes
    have hslash : 47 ∉ utf8 n := by rwa [slash_mem_utf8]
    obtain ⟨hdir, hname⟩ := (LeafPath.bytes_oneSlash (authoredDirs_noSlash d hd) hslash).mp hbytes
    refine Or.inr (Or.inr ⟨d, hd, hdir, ?_⟩)
    have hdotname (s : Text) (hs : p.name.bytes = utf8 s) : n = s := by
      have hvalid : (fromUtf8 p.name.bytes).isSome = true := by
        rw [hs, fromUtf8_utf8]
        rfl
      have hkept : shownName p.name = p.name := if_pos hvalid
      rw [hkept, hs] at hname
      exact (utf8_injective hname).symm
    rintro (hs | hs)
    · exact hdot (hdotname _ hs)
    · exact hdots (hdotname _ hs)

private theorem leafAllowed_of_authored {p : LeafPath} {d : Text} (hd : d ∈ authoredDirs)
    (hdir : InDir p d) (hdot : ¬ DotName p.name) : leafAllowed p = true := by
  have hdirs := dirBytes_of_inDir hdir
  rw [leafAllowed, Option.any_eq_true]
  cases hname : fromUtf8 p.name.bytes with
  | some n =>
    have hn := utf8_of_fromUtf8 hname
    refine ⟨_, doorPath_of_dirs hdirs hn.symm, (treePathAllowed_iff _).mpr ?_⟩
    refine Or.inr (Or.inr ⟨d, hd, n, ?_, ?_, ?_, ?_, by simp⟩)
    · rintro rfl
      exact p.name.ne_nil hn.symm
    · rw [← slash_mem_utf8, hn]
      exact p.name.noSlash
    · rintro rfl
      exact hdot (Or.inl hn.symm)
    · rintro rfl
      exact hdot (Or.inr hn.symm)
  | none =>
    have hdoor : doorPath p = some ((d ++ ['/']) ++ nonUtf8) := by
      simp [doorPath, hdirs, fromUtf8_utf8, hname]
    refine ⟨_, hdoor, (treePathAllowed_iff _).mpr ?_⟩
    exact Or.inr (Or.inr ⟨d, hd, nonUtf8, by decide, by decide, by decide, by decide, by simp⟩)

theorem leafAllowed_iff (p : LeafPath) : leafAllowed p = true ↔
    IsRootFile p ∨ (InDir p "steps".toList ∧ MdName p.name ∧ Utf8Name p.name) ∨
      ∃ d ∈ authoredDirs, InDir p d ∧ ¬ DotName p.name := by
  refine ⟨allowed_of_leafAllowed, ?_⟩
  rintro (⟨hdirs, s, hs, hname⟩ | ⟨hdir, ⟨stem, hne, hname⟩, hutf⟩ | ⟨d, hd, hdir, hdot⟩)
  · have hdoor : doorPath p = some ([] ++ s) :=
      doorPath_of_dirs (by simp [LeafPath.dirBytes, hdirs]) hname
    rw [leafAllowed, Option.any_eq_true]
    exact ⟨_, hdoor, (treePathAllowed_iff _).mpr (Or.inl hs)⟩
  · obtain ⟨n, hn⟩ := Option.isSome_iff_exists.mp hutf
    have hbytes := utf8_of_fromUtf8 hn
    rw [hname] at hbytes
    obtain ⟨u, rfl, hu⟩ := utf8_suffix (by decide) hbytes
    have hdoor := doorPath_of_dirs (dirBytes_of_inDir hdir) (utf8_of_fromUtf8 hn).symm
    rw [leafAllowed, Option.any_eq_true]
    refine ⟨_, hdoor, (treePathAllowed_iff _).mpr (Or.inr (Or.inl ⟨u, ?_, ?_, by simp⟩))⟩
    · rintro rfl
      exact hne hu.symm
    · rw [← slash_mem_utf8, hu]
      intro hslash
      exact p.name.noSlash (by rw [hname]; exact List.mem_append_left _ hslash)
  · exact leafAllowed_of_authored hd hdir hdot

/-- The leaf lies where a list keeps its files, whatever its name is made of. -/
def Placed (p : LeafPath) : Prop :=
  IsRootFile p ∨ (InDir p "steps".toList ∧ MdName p.name) ∨ ∃ d ∈ authoredDirs, InDir p d

/-- A name that the core does not take in its place: a step outside UTF-8, or a dot name. -/
def Stray (p : LeafPath) : Prop :=
  (InDir p "steps".toList ∧ ¬ Utf8Name p.name) ∨ ∃ d ∈ authoredDirs, InDir p d ∧ DotName p.name

theorem placed_of_hookAllows {p : LeafPath} (h : hookAllows p) : Placed p := by
  rcases (hookAllows_iff p).mp h with hroot | ⟨hdir, hmd, -⟩ | ⟨d, hd, hdir, -⟩
  · exact Or.inl hroot
  · exact Or.inr (Or.inl ⟨hdir, hmd⟩)
  · exact Or.inr (Or.inr ⟨d, hd, hdir⟩)

private theorem inDir_unique {p : LeafPath} {d e : Text} (hd : InDir p d) (he : InDir p e) :
    d = e := by
  obtain ⟨a, ha, had⟩ := hd
  obtain ⟨b, hb, hbe⟩ := he
  have hab : a = b := (List.cons.inj (ha.symm.trans hb)).1
  exact utf8_injective (by rw [← had, ← hbe, hab])

private theorem root_not_inDir {p : LeafPath} {d : Text} (h : IsRootFile p) : ¬ InDir p d := by
  rintro ⟨e, he, -⟩
  rw [h.1] at he
  exact List.cons_ne_nil _ _ he.symm

/-- The core passes a leaf that is in its place and has a name that is fit for it. -/
theorem leafAllowed_iff_placed (p : LeafPath) : leafAllowed p = true ↔ Placed p ∧ ¬ Stray p := by
  have hsteps : "steps".toList ∉ authoredDirs := by decide
  rw [leafAllowed_iff]
  constructor
  · rintro (hroot | ⟨hdir, hmd, hutf⟩ | ⟨d, hd, hdir, hdot⟩)
    · refine ⟨Or.inl hroot, ?_⟩
      rintro (⟨hdir, -⟩ | ⟨d, -, hdir, -⟩)
      · exact root_not_inDir hroot hdir
      · exact root_not_inDir hroot hdir
    · refine ⟨Or.inr (Or.inl ⟨hdir, hmd⟩), ?_⟩
      rintro (⟨-, hnot⟩ | ⟨d, hd, hother, -⟩)
      · exact hnot hutf
      · exact hsteps (inDir_unique hdir hother ▸ hd)
    · refine ⟨Or.inr (Or.inr ⟨d, hd, hdir⟩), ?_⟩
      rintro (⟨hother, -⟩ | ⟨e, -, -, hname⟩)
      · exact hsteps (inDir_unique hdir hother ▸ hd)
      · exact hdot hname
  · rintro ⟨hroot | ⟨hdir, hmd⟩ | ⟨d, hd, hdir⟩, hfit⟩
    · exact Or.inl hroot
    · refine Or.inr (Or.inl ⟨hdir, hmd, ?_⟩)
      by_contra hnot
      exact hfit (Or.inl ⟨hdir, hnot⟩)
    · exact Or.inr (Or.inr ⟨d, hd, hdir, fun hdot => hfit (Or.inr ⟨d, hd, hdir, hdot⟩)⟩)

/-- The leaves the doors disagree on: an authored name that git prints in quotes or that is a
dot name, and a step name that is either printed in quotes or outside UTF-8, but not both. -/
def Diverges (p : LeafPath) : Prop :=
  (∃ d ∈ authoredDirs, InDir p d ∧ (Quoted p.name ∨ DotName p.name)) ∨
    (InDir p "steps".toList ∧ MdName p.name ∧ (Quoted p.name ↔ Utf8Name p.name))

private theorem dot_not_quoted {n : Name} (h : DotName n) : ¬ Quoted n := by
  rcases h with h | h <;>
  · rw [Quoted, h]
    decide

theorem hookAllows_authored_iff {p : LeafPath} {d : Text} (hd : d ∈ authoredDirs)
    (hdir : InDir p d) : hookAllows p ↔ ¬ Quoted p.name := by
  rw [hookAllows_iff]
  constructor
  · rintro (hroot | ⟨hsteps, -, -⟩ | ⟨-, -, -, hplain⟩)
    · exact absurd hdir (root_not_inDir hroot)
    · exact absurd (inDir_unique hdir hsteps ▸ hd) (by decide)
    · exact hplain
  · intro hplain
    exact Or.inr (Or.inr ⟨d, hd, hdir, hplain⟩)

theorem doors_agree_iff (p : LeafPath) : (hookAllows p ↔ leafAllowed p = true) ↔ ¬ Diverges p := by
  rw [hookAllows_iff, leafAllowed_iff]
  by_cases hroot : IsRootFile p
  · have hno : ¬ Diverges p := by
      rintro (⟨d, -, hdir, -⟩ | ⟨hdir, -, -⟩) <;> exact root_not_inDir hroot hdir
    simp [hroot, hno]
  by_cases hsteps : InDir p "steps".toList
  · have hauth : ∀ d ∈ authoredDirs, ¬ InDir p d := by
      intro d hd hdir
      exact absurd (inDir_unique hdir hsteps ▸ hd) (by decide)
    have hauthored (P : Prop) : ¬ ∃ d ∈ authoredDirs, InDir p d ∧ P := by
      rintro ⟨d, hd, hdir, -⟩
      exact hauth d hd hdir
    simp only [Diverges, hroot, hsteps, hauthored, false_or, or_false, true_and]
    tauto
  · by_cases hauth : ∃ d ∈ authoredDirs, InDir p d
    · obtain ⟨d, hd, hdir⟩ := hauth
      have hex (P : Prop) : (∃ d ∈ authoredDirs, InDir p d ∧ P) ↔ P :=
        ⟨fun ⟨_, _, _, h⟩ => h, fun h => ⟨d, hd, hdir, h⟩⟩
      have hdots : DotName p.name → ¬ Quoted p.name := dot_not_quoted
      simp only [Diverges, hroot, hsteps, hex, false_or, or_false, false_and]
      tauto
    · have hex (P : Prop) : ¬ ∃ d ∈ authoredDirs, InDir p d ∧ P := by
        rintro ⟨d, hd, hdir, -⟩
        exact hauth ⟨d, hd, hdir⟩
      simp only [Diverges, hroot, hsteps, hex, or_false, false_and, not_false_eq_true]

end Setfork.TreeRule
