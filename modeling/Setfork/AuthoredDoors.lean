/- AuthoredDoors
   digest: The limits of the hook and of the core on authored files, and where they part. -/
import Mathlib.Algebra.BigOperators.Group.List.Basic
import Mathlib.Algebra.Order.BigOperators.Group.List
import Mathlib.Algebra.Order.Group.Nat
import Setfork.Authored

set_option autoImplicit false
set_option relaxedAutoImplicit false

namespace Setfork.AuthoredDoors

open Setfork.Foundation
open Setfork.TreeRule
open Setfork.Authored

def asLeaf : Entry → Option Leaf
  | .leaf l => some l
  | .dir _ => none

def hostDirs (t : Tree) : Entries := t.entries.filter (fun e => isAuthoredName e.1)

def askedDirs (t : Tree) : Entries :=
  authoredDirs.filterMap (fun d => t.entries.find? (fun e => e.1.bytes = utf8 d))

/-- The leaves directly under a directory, with the bytes of the directory. -/
def dirItems (e : Name × Entry) : List (Bytes × Name × Leaf) :=
  (e.2.asDir.getD []).filterMap (fun f => (asLeaf f.2).map (fun l => (e.1.bytes ++ [47], f.1, l)))

private theorem head_of_mem_leavesAt {e : Entry} {n : Name} {x : LeafPath × Leaf}
    (hx : x ∈ e.leavesAt [] n) : (x.1.dirs ++ [x.1.name]).head? = some n := by
  rcases Entry.prefix_of_mem_leavesAt e [] n x hx with ⟨l, -, rfl⟩ | ⟨rest, hrest⟩
  · rfl
  · rw [hrest]
    rfl

theorem lsTreeAuthored_eq (t : Tree) :
    lsTreeAuthored t = (hostDirs t).flatMap (fun e => e.2.leavesAt [] e.1) := by
  unfold lsTreeAuthored Tree.leaves hostDirs
  induction t.entries with
  | nil => rfl
  | cons e es ih =>
    obtain ⟨n, e⟩ := e
    have hkeep : (e.leavesAt [] n).filter (fun x =>
        (x.1.dirs ++ [x.1.name]).head?.any isAuthoredName) =
        if isAuthoredName n then e.leavesAt [] n else [] := by
      split_ifs with hn
      · refine List.filter_eq_self.mpr fun x hx => ?_
        rw [head_of_mem_leavesAt hx]
        exact hn
      · refine List.filter_eq_nil_iff.mpr fun x hx => ?_
        rw [head_of_mem_leavesAt hx]
        exact hn
    rw [Entry.leavesIn, List.filter_append, ih, hkeep]
    by_cases hn : isAuthoredName n = true <;> simp [hn]

private theorem authoredDirs_nodup : authoredDirs.Nodup := by decide

theorem askedDirs_perm (t : Tree) : (hostDirs t).Perm (askedDirs t) := by
  have hentries : t.entries.Nodup := List.Nodup.of_map _ t.nodup
  refine (List.perm_ext_iff_of_nodup (hentries.filter _) ?_).mpr ?_
  · refine authoredDirs_nodup.filterMap fun d d' e hd hd' => ?_
    have h := (t.find_name_iff _ e).mp hd
    have h' := (t.find_name_iff _ e).mp hd'
    exact utf8_injective (h.2.symm.trans h'.2)
  · intro e
    simp only [askedDirs, List.mem_filter, List.mem_filterMap, Tree.find_name_iff,
      isAuthoredName, List.contains_eq_mem, List.mem_map, decide_eq_true_eq]
    constructor
    · rintro ⟨he, d, hd, hbytes⟩
      exact ⟨d, hd, he, hbytes.symm⟩
    · rintro ⟨d, hd, he, hbytes⟩
      exact ⟨he, d, hd, hbytes.symm⟩

/-- The leaf of an entry the core counts, under the bytes of its directory. -/
def entryItem (x : Text × Name × Entry) : Option (Bytes × Name × Leaf) :=
  (asLeaf x.2.2).map (fun l => (utf8 x.1 ++ [47], x.2.1, l))

theorem authoredEntries_items (t : Tree) :
    (authoredEntries t).filterMap entryItem = (askedDirs t).flatMap dirItems := by
  unfold authoredEntries askedDirs
  induction authoredDirs with
  | nil => rfl
  | cons d ds ih =>
    rw [List.flatMap_cons, List.filterMap_append, ih, List.filterMap_cons, Foundation.Tree.get]
    cases hfind : t.entries.find? (fun e => e.1.bytes = utf8 d) with
    | none => simp
    | some e =>
      have hbytes := ((t.find_name_iff _ e).mp hfind).2
      simp only [Option.map_some, Option.bind_some, List.flatMap_cons, dirItems,
        List.filterMap_map]
      congr 2
      funext f
      simp [entryItem, hbytes]

/-- All leaves of the tree pass the path rule of the hook. -/
def PathsPass (t : Tree) : Prop := hookBad t.paths = []

theorem placed_of_pathsPass {t : Tree} (ht : PathsPass t) : ∀ p ∈ t.paths, Placed p :=
  fun p hp => placed_of_hookAllows ((hookBad_eq_nil_iff t.paths).mp ht p hp)

private theorem leaf_path {t : Tree} (ht : ∀ p ∈ t.paths, Placed p) {x : LeafPath × Leaf}
    (hx : x ∈ t.leaves) : Placed x.1 := ht x.1 (List.mem_map_of_mem hx)

private theorem length_dirs_le {p : LeafPath} (hp : Placed p) : p.dirs.length ≤ 1 := by
  rcases hp with h | ⟨⟨e, he, -⟩, -⟩ | ⟨d, -, e, he, -⟩
  · rw [h.1]
    exact Nat.zero_le 1
  · rw [he]
    exact le_refl 1
  · rw [he]
    exact le_refl 1

private theorem leavesAt_subset {t : Tree} {e : Name × Entry} (he : e ∈ t.entries)
    {x : LeafPath × Leaf} (hx : x ∈ e.2.leavesAt [] e.1) : x ∈ t.leaves :=
  Entry.mem_leavesIn.mpr ⟨e, he, hx⟩

private theorem authored_not_root {n : Name} (hn : isAuthoredName n = true) :
    ∀ s ∈ rootFiles, n.bytes ≠ utf8 s := by
  have hdisjoint : ∀ d ∈ authoredDirs, ∀ s ∈ rootFiles, utf8 d ≠ utf8 s := by decide
  intro s hs h
  simp only [isAuthoredName, List.contains_eq_mem, List.mem_map, decide_eq_true_eq] at hn
  obtain ⟨d, hd, hbytes⟩ := hn
  exact hdisjoint d hd s hs (hbytes.trans h)

theorem leavesAt_host {t : Tree} (ht : ∀ p ∈ t.paths, Placed p) {e : Name × Entry} (he : e ∈ hostDirs t) :
    (e.2.leavesAt [] e.1).map (fun x => (x.1.dirBytes, x.1.name, x.2)) = dirItems e := by
  obtain ⟨hmem, hname⟩ := List.mem_filter.mp he
  obtain ⟨n, entry⟩ := e
  cases entry with
  | leaf l =>
    have hplaced : Placed ⟨[], n⟩ := by
      refine leaf_path ht (x := (⟨[], n⟩, l)) (leavesAt_subset hmem ?_)
      exact List.mem_singleton_self _
    exfalso
    rcases hplaced with ⟨-, s, hs, hbytes⟩ | ⟨⟨f, hf, -⟩, -⟩ | ⟨d, -, f, hf, -⟩
    · exact authored_not_root hname s hs hbytes
    · exact List.cons_ne_nil _ _ hf.symm
    · exact List.cons_ne_nil _ _ hf.symm
  | dir es =>
    have hdeep : ∀ f ∈ es, ∀ x ∈ f.2.leavesAt [n] f.1, x.1.dirs.length ≤ 1 := by
      intro f hf x hx
      refine length_dirs_le (leaf_path ht (leavesAt_subset hmem ?_))
      exact Entry.mem_leavesIn.mpr ⟨f, hf, hx⟩
    simp only [Entry.leavesAt, List.nil_append, dirItems, Entry.asDir, Option.getD_some]
    clear he hmem hname
    induction es with
    | nil => rfl
    | cons f es ih =>
      have hrest := ih fun g hg => hdeep g (List.mem_cons_of_mem f hg)
      have hhead := hdeep f List.mem_cons_self
      obtain ⟨m, sub⟩ := f
      rw [Entry.leavesIn, List.map_append, hrest]
      cases sub with
      | leaf l => simp [Entry.leavesAt, asLeaf, LeafPath.dirBytes]
      | dir fs =>
        have hnone : (Entry.dir fs).leavesAt [n] m = [] := by
          refine List.eq_nil_iff_forall_not_mem.mpr fun x hx => ?_
          have hlen := hhead x hx
          rcases Entry.prefix_of_mem_leavesAt _ _ _ x hx with ⟨l, hl, -⟩ | ⟨rest, hdirs⟩
          · cases hl
          · rw [hdirs] at hlen
            simp at hlen
        simp [hnone, asLeaf]

theorem listing_perm {t : Tree} (ht : ∀ p ∈ t.paths, Placed p) :
    ((lsTreeAuthored t).map (fun x => (x.1.dirBytes, x.1.name, x.2))).Perm
      ((authoredEntries t).filterMap entryItem) := by
  have hlisting : (lsTreeAuthored t).map (fun x => (x.1.dirBytes, x.1.name, x.2)) =
      (hostDirs t).flatMap dirItems := by
    rw [lsTreeAuthored_eq, List.map_flatMap]
    exact List.flatMap_congr fun e he => leavesAt_host ht he
  rw [hlisting, authoredEntries_items]
  exact (askedDirs_perm t).flatMap_right dirItems

def shownLength (p : LeafPath) : Nat := p.dirBytes.length + (utf8 (shownText p.name)).length

def countedBytes (t : Tree) : Nat :=
  ((lsTreeAuthored t).map (fun x => leafSize x.2 + shownLength x.1)).sum

def HasSubdirectory (t : Tree) : Prop :=
  ∃ d ∈ authoredDirs, ∃ es, t.get d = some (.dir es) ∧ ∃ f ∈ es, f.2.isDir = true

/-- The trees on which the limits of the two doors part: all limits of the hook hold, and either
the paths take the total over the limit or an authored directory holds a leafless one. -/
def LimitsPart (t : Tree) : Prop :=
  WithinLimits t ∧ (authoredMaxBytes < countedBytes t ∨ HasSubdirectory t)

private theorem hasSubdirectory_iff (t : Tree) :
    HasSubdirectory t ↔ ∃ x ∈ authoredEntries t, x.2.2.isDir = true := by
  simp only [HasSubdirectory, authoredEntries, List.mem_flatMap, List.mem_map]
  constructor
  · rintro ⟨d, hd, es, hget, f, hf, hdir⟩
    exact ⟨(d, f.1, f.2), ⟨d, hd, f, by simpa [hget, Entry.asDir] using hf, rfl⟩, hdir⟩
  · rintro ⟨-, ⟨d, hd, f, hf, rfl⟩, hdir⟩
    cases hget : t.get d with
    | none => simp [hget] at hf
    | some e =>
      cases e with
      | leaf l => simp [hget, Entry.asDir] at hf
      | dir es => exact ⟨d, hd, es, hget, f, by simpa [hget, Entry.asDir] using hf, hdir⟩

private theorem plain_items {xs : List (Text × Name × Entry)}
    (hsub : ∀ x ∈ xs, x.2.2.isDir = false) :
    (xs.filterMap entryItem).length = xs.length ∧
    ((∀ y ∈ xs.filterMap entryItem, isRegular y.2.2 = true ∧ 0 ∉ leafObject y.2.2) ↔
      ∀ x ∈ xs, PlainEntry x.2.2) ∧
    ((∀ x ∈ xs, PlainEntry x.2.2) →
      ((xs.filterMap entryItem).map
        (fun y => leafSize y.2.2 + (y.1.length + (utf8 (shownText y.2.1)).length))).sum =
        (xs.map entryWeight).sum) := by
  induction xs with
  | nil => simp
  | cons x xs ih =>
    obtain ⟨hlen, hplain, hsum⟩ := ih fun y hy => hsub y (List.mem_cons_of_mem x hy)
    have hx := hsub x List.mem_cons_self
    obtain ⟨d, n, e⟩ := x
    cases e with
    | dir es => simp [Entry.isDir] at hx
    | leaf l =>
      have hitem : entryItem (d, n, .leaf l) = some (utf8 d ++ [47], n, l) := rfl
      have hhead : (isRegular l = true ∧ 0 ∉ leafObject l) ↔ PlainEntry (.leaf l) := by
        cases l <;> simp [isRegular, leafObject, PlainEntry]
      rw [List.filterMap_cons_some hitem]
      refine ⟨by simp [hlen], ?_, ?_⟩
      · simp only [List.forall_mem_cons, hhead, hplain]
      · intro hall
        have hrest := hsum fun y hy => hall y (List.mem_cons_of_mem _ hy)
        obtain ⟨ex, content, hl, -⟩ := hall _ List.mem_cons_self
        simp only [Entry.leaf.injEq] at hl
        subst hl
        have hslash : (String.utf8EncodeChar '/').length = 1 := by decide
        rw [List.map_cons, List.sum_cons, hrest, List.map_cons, List.sum_cons]
        simp only [entryWeight, leafSize, authoredEntryPath, utf8_append, utf8_cons,
          List.length_append, List.length_cons, List.length_nil, hslash]
        omega

theorem authoredViolation_iff_withinLimits {t : Tree} (ht : ∀ p ∈ t.paths, Placed p) :
    authoredViolation t = none ↔
      WithinLimits t ∧ countedBytes t ≤ authoredMaxBytes ∧ ¬ HasSubdirectory t := by
  have hperm := listing_perm ht
  have hlen : (lsTreeAuthored t).length = ((authoredEntries t).filterMap entryItem).length := by
    simpa using hperm.length_eq
  have hmem : (∀ x ∈ lsTreeAuthored t, isRegular x.2 = true ∧ 0 ∉ leafObject x.2) ↔
      ∀ y ∈ (authoredEntries t).filterMap entryItem,
        isRegular y.2.2 = true ∧ 0 ∉ leafObject y.2.2 := by
    simp only [← hperm.mem_iff, List.mem_map, forall_exists_index, and_imp,
      forall_apply_eq_imp_iff₂]
  have hbytes : countedBytes t = (((authoredEntries t).filterMap entryItem).map
      (fun y => leafSize y.2.2 + (y.1.length + (utf8 (shownText y.2.1)).length))).sum := by
    rw [← (hperm.map _).sum_eq, List.map_map]
    rfl
  rw [authoredViolation_eq_none_iff]
  by_cases hsub : HasSubdirectory t
  · refine ⟨fun h => ?_, fun h => absurd hsub h.2.2⟩
    obtain ⟨x, hx, hdir⟩ := (hasSubdirectory_iff t).mp hsub
    obtain ⟨ex, content, he, -⟩ := h.1 x hx
    rw [he] at hdir
    cases hdir
  · have hflat : ∀ x ∈ authoredEntries t, x.2.2.isDir = false := by
      intro x hx
      by_contra hdir
      exact hsub ((hasSubdirectory_iff t).mpr ⟨x, hx, by simpa using hdir⟩)
    obtain ⟨hcount, hplain, hsum⟩ := plain_items hflat
    have hle : ((lsTreeAuthored t).map (fun x => leafSize x.2)).sum ≤ countedBytes t :=
      List.sum_le_sum fun x _ => Nat.le_add_right _ _
    constructor
    · rintro ⟨hall, hfiles, hweight⟩
      have hboth := hmem.mpr (hplain.mpr hall)
      have hcounted : countedBytes t ≤ authoredMaxBytes := by rw [hbytes, hsum hall]; exact hweight
      exact ⟨⟨fun x hx => (hboth x hx).1, fun x hx => (hboth x hx).2, by omega, by omega⟩,
        hcounted, hsub⟩
    · rintro ⟨hlimits, hcounted, -⟩
      have hall := hplain.mp (hmem.mp fun x hx => ⟨hlimits.regular x hx, hlimits.text x hx⟩)
      refine ⟨hall, ?_, ?_⟩
      · rw [← hcount, ← hlen]
        exact hlimits.files
      · rw [← hsum hall, ← hbytes]
        exact hcounted

/-- In any push, after any commits the hook let pass, the limits of the two doors agree on a
commit with admitted paths exactly when it is not one of the trees on which they part. -/
theorem limits_agree_iff (before : List Tree) (seen : List Bytes) (t : Tree)
    (hbefore : hookLimitsRun before = .ok seen) (hpaths : PathsPass t) :
    ((∃ seen', hookLimits seen t = .ok seen') ↔ authoredViolation t = none) ↔ ¬ LimitsPart t := by
  have hseen : NulFree seen := nulFree_foldlM (by simp [NulFree]) hbefore
  rw [(hookLimits_spec hseen t).1,
    authoredViolation_iff_withinLimits (placed_of_pathsPass hpaths), LimitsPart]
  constructor
  · rintro hagree ⟨hlimits, hpart⟩
    obtain ⟨-, hcounted, hsub⟩ := hagree.mp hlimits
    rcases hpart with hlarge | hdir
    · omega
    · exact hsub hdir
  · intro hpart
    refine ⟨fun hlimits => ⟨hlimits, ?_, ?_⟩, fun h => h.1⟩
    · by_contra hlarge
      exact hpart ⟨hlimits, Or.inl (by omega)⟩
    · intro hdir
      exact hpart ⟨hlimits, Or.inr hdir⟩

def listJsonName : Name := ⟨utf8 "list.json".toList, by decide, by decide, by decide⟩

def gitattributesName : Name := ⟨utf8 ".gitattributes".toList, by decide, by decide, by decide⟩

def scriptsName : Name := ⟨utf8 "scripts".toList, by decide, by decide, by decide⟩

def scriptName : Name := ⟨utf8 "run.sh".toList, by decide, by decide, by decide⟩

/-- A list tree with one script of this content. -/
def scriptTree (content : Bytes) : Tree where
  entries := [(listJsonName, .leaf (.file false (utf8 "[]".toList))),
    (scriptsName, .dir [(scriptName, .leaf (.file false content))])]
  wellFormed := rfl

theorem scriptTree_paths (content : Bytes) :
    (scriptTree content).paths = [⟨[], listJsonName⟩, ⟨[scriptsName], scriptName⟩] := rfl

theorem scriptTree_get (content : Bytes) : (scriptTree content).get "list.json".toList =
    some (.leaf (.file false (utf8 "[]".toList))) := by
  rw [Tree.get_eq_some_iff]
  exact ⟨listJsonName, rfl, List.mem_cons_self⟩

set_option maxRecDepth 4000 in
theorem scriptTree_pathsPass (content : Bytes) : PathsPass (scriptTree content) := by
  rw [PathsPass, scriptTree_paths]
  decide +kernel

private theorem scriptTree_listing (content : Bytes) : lsTreeAuthored (scriptTree content) =
    [(⟨[scriptsName], scriptName⟩, .file false content)] := rfl

def assetsName : Name := ⟨utf8 "assets".toList, by decide, by decide, by decide⟩

def notesName : Name := ⟨utf8 "a.md".toList, by decide, by decide, by decide⟩

def helperName : Name := ⟨utf8 "b.sh".toList, by decide, by decide, by decide⟩

def severalTree : Tree where
  entries := [(assetsName, .dir [(notesName, .leaf (.file false (utf8 "how to".toList)))]),
    (listJsonName, .leaf (.file false (utf8 "[]".toList))),
    (scriptsName, .dir [(helperName, .leaf (.file false (utf8 "echo old".toList))),
      (scriptName, .leaf (.file true (utf8 "echo new".toList)))])]
  wellFormed := rfl

set_option maxRecDepth 4000 in
theorem severalTree_pathsPass : PathsPass severalTree := by
  rw [PathsPass, show severalTree.paths = [⟨[assetsName], notesName⟩, ⟨[], listJsonName⟩,
    ⟨[scriptsName], helperName⟩, ⟨[scriptsName], scriptName⟩] from rfl]
  decide +kernel

theorem limits_agree_second_commit :
    ((∃ seen', hookLimits [utf8 "echo old".toList] severalTree = .ok seen') ↔
      authoredViolation severalTree = none) ↔ ¬ LimitsPart severalTree :=
  limits_agree_iff [scriptTree (utf8 "echo old".toList)] [utf8 "echo old".toList] severalTree
    (by decide +kernel) severalTree_pathsPass

theorem scriptTree_withinLimits {content : Bytes} (hlength : content.length ≤ authoredMaxBytes)
    (htext : 0 ∉ content) : WithinLimits (scriptTree content) := by
  refine ⟨?_, ?_, ?_, ?_⟩ <;> rw [scriptTree_listing]
  · simp [isRegular]
  · simpa [leafObject] using htext
  · simp [authoredMaxFiles]
  · simpa [leafSize] using hlength

theorem scriptTree_countedBytes (content : Bytes) :
    countedBytes (scriptTree content) = content.length + 14 := by
  have hpath : shownLength ⟨[scriptsName], scriptName⟩ = 14 := by decide
  rw [countedBytes, scriptTree_listing]
  simp [leafSize, hpath]

private theorem limits_part_of_length {content : Bytes} (hlength : content.length = authoredMaxBytes)
    (htext : 0 ∉ content) :
    ¬ ((∃ seen', hookLimits [] (scriptTree content) = .ok seen') ↔
        authoredViolation (scriptTree content) = none) := by
  have hlimits := scriptTree_withinLimits (le_of_eq hlength) htext
  have hplaced := placed_of_pathsPass (scriptTree_pathsPass content)
  have hcounted := scriptTree_countedBytes content
  have hrefuse : ¬ authoredViolation (scriptTree content) = none := by
    rw [authoredViolation_iff_withinLimits hplaced]
    rintro ⟨-, hbytes, -⟩
    omega
  refine fun h => hrefuse (h.mp ?_)
  exact (hookLimits_spec (by simp [NulFree]) _).1.mpr hlimits

/-- A script of exactly the limit passes the hook and not the core. -/
theorem limits_part_mebibyte_script :
    PathsPass (scriptTree (List.replicate authoredMaxBytes 35)) ∧
      ¬ ((∃ seen', hookLimits [] (scriptTree (List.replicate authoredMaxBytes 35)) = .ok seen') ↔
        authoredViolation (scriptTree (List.replicate authoredMaxBytes 35)) = none) := by
  refine ⟨scriptTree_pathsPass _, limits_part_of_length List.length_replicate fun h => ?_⟩
  exact absurd (List.eq_of_mem_replicate h) (by decide)

end Setfork.AuthoredDoors
