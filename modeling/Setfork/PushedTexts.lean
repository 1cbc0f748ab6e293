/- PushedTexts
   digest: The texts a push brings, blob by blob, and what the walk over its commits finds. -/
import Setfork.AuthoredDoors
import Setfork.Foundation.FirstSeen

set_option autoImplicit false
set_option relaxedAutoImplicit false

namespace Setfork.PushedTexts

open Setfork.Foundation
open Setfork.TreeRule
open Setfork.AuthoredDoors (listJsonName scriptsName scriptName gitattributesName assetsName)

def fileSpecs : List Text := ["list.json", "README.md"].map String.toList

def dirSpecs : List Text := ["steps", "scripts", "references", "assets"].map String.toList

def namedBy (specs : List Text) (n : Name) : Bool := (specs.map utf8).contains n.bytes

def listedBlob (dirs : List Name) (e : Name × Entry) : Option (Text × Bytes) :=
  match e.2 with
  | .leaf l => l.blob.map (fun b => (fromUtf8Lossy (⟨dirs, e.1⟩ : LeafPath).bytes, b))
  | .dir _ => none

/-- The blobs under the searched paths, in tree order; directories are listed one level deep. -/
def treeBlobs (t : Tree) : List (Text × Bytes) :=
  t.entries.flatMap (fun e =>
    match e.2 with
    | .leaf _ => if namedBy fileSpecs e.1 then (listedBlob [] e).toList else []
    | .dir entries => if namedBy dirSpecs e.1 then entries.filterMap (listedBlob [e.1]) else [])

def inherited (c : Commit) : List Bytes :=
  c.parents.flatMap (fun p => (treeBlobs p.tree).map Prod.snd)

/-- The content of a path at the tip; of two equal paths the later one counts. -/
def tipBlob (tip : Tree) (path : Text) : Option Bytes :=
  ((treeBlobs tip).reverse.find? (fun x => x.1 = path)).map Prod.snd

section Walk

variable (shortId : Commit → Text)

/-- How an entry is called: by its path, with the commit when the tip holds something else. -/
def label (tip : Tree) (c : Commit) (path : Text) (oid : Bytes) : Text :=
  if tipBlob tip path = some oid then path else path ++ '@' :: shortId c

def bringBlobs (c : Commit) (seen : List Bytes) : List (Text × Bytes) →
    List Bytes × List (Commit × Text × Bytes)
  | [] => (seen, [])
  | (path, oid) :: rest =>
    if (inherited c).contains oid || seen.contains oid then bringBlobs c seen rest
    else
      let (seen', out) := bringBlobs c (oid :: seen) rest
      (seen', (c, path, oid) :: out)

def walk (seen : List Bytes) : List Commit → List (Commit × Text × Bytes)
  | [] => []
  | c :: cs =>
    let (seen', out) := bringBlobs c seen (treeBlobs c.tree)
    out ++ walk seen' cs

def pushedBlobs (tip : Commit) (commits : List Commit) : List (Text × Bytes) :=
  (walk [] commits).map (fun x => (label shortId tip.tree x.1 x.2.1 x.2.2, x.2.2))

/-- What a push brings into the repository for the first time. No commit, no texts; `revList`
lists what is reachable from the commit and not from `main`. -/
def pushedTexts (revList : Commit → Option Commit → List Commit) (main : Option Commit) :
    Option Commit → List (Text × Text)
  | none => []
  | some commit =>
    (pushedBlobs shortId commit (revList commit main)).map (fun x => (x.1, fromUtf8Lossy x.2))

end Walk

/-- Reachable from the pushed commit and not from `main`. -/
def IsNew (main : Option Commit) (tip c : Commit) : Prop :=
  Commit.Reaches tip c ∧ ∀ m ∈ main, ¬ Commit.Reaches m c

/-- A listing of exactly the new commits, each once, in any order. -/
structure ListsNew (main : Option Commit) (tip : Commit) (commits : List Commit) : Prop where
  nodup : commits.Nodup
  mem_iff : ∀ c, c ∈ commits ↔ IsNew main tip c

theorem listsNew_child {m tip : Commit} (hparents : tip.parents = [m])
    (hacyclic : ¬ Commit.Reaches m tip) : ListsNew (some m) tip [tip] := by
  refine ⟨List.nodup_singleton tip, fun c => ?_⟩
  have hreach : Commit.Reaches tip c ↔ c = tip ∨ Commit.Reaches m c := by
    rw [Commit.reaches_iff_parents, hparents]
    simp
  rw [List.mem_singleton, IsNew, hreach]
  constructor
  · rintro rfl
    exact ⟨Or.inl rfl, fun _ hm => Option.some.inj hm ▸ hacyclic⟩
  · rintro ⟨h, hmain⟩
    exact h.resolve_right (hmain m rfl)

def broughtBy (c : Commit) : List (Commit × Text × Bytes) :=
  ((treeBlobs c.tree).filter (fun x => !(inherited c).contains x.2)).map (fun x => (c, x.1, x.2))

def oidOf (x : Commit × Text × Bytes) : Bytes := x.2.2

private theorem bringBlobs_eq (c : Commit) (seen : List Bytes) (xs : List (Text × Bytes)) :
    bringBlobs c seen xs =
      (seenAfter oidOf seen
        ((xs.filter (fun x => !(inherited c).contains x.2)).map (fun x => (c, x.1, x.2))),
       firstSeen oidOf seen
        ((xs.filter (fun x => !(inherited c).contains x.2)).map (fun x => (c, x.1, x.2)))) := by
  induction xs generalizing seen with
  | nil => rfl
  | cons x xs ih =>
    obtain ⟨path, oid⟩ := x
    have hkey : oidOf (c, path, oid) = oid := rfl
    by_cases hinh : oid ∈ inherited c
    · simp [bringBlobs, hinh, ih]
    · by_cases hseen : oid ∈ seen
      · simp [bringBlobs, hinh, hseen, ih, firstSeen, seenAfter, hkey]
      · simp [bringBlobs, hinh, hseen, ih, firstSeen, seenAfter, hkey]

theorem walk_eq (seen : List Bytes) (commits : List Commit) :
    walk seen commits = firstSeen oidOf seen (commits.flatMap broughtBy) := by
  induction commits generalizing seen with
  | nil => rfl
  | cons c cs ih =>
    rw [walk, bringBlobs_eq, List.flatMap_cons, firstSeen_append, ← ih]
    rfl

theorem mem_broughtBy {c d : Commit} {path : Text} {oid : Bytes} :
    (d, path, oid) ∈ broughtBy c ↔ d = c ∧ (path, oid) ∈ treeBlobs c.tree ∧ oid ∉ inherited c := by
  simp only [broughtBy, List.mem_map, List.mem_filter, Bool.not_eq_true', List.contains_eq_mem,
    decide_eq_false_iff_not, Prod.mk.injEq, Prod.exists]
  constructor
  · rintro ⟨p, o, ⟨hmem, hinh⟩, rfl, rfl, rfl⟩
    exact ⟨rfl, hmem, hinh⟩
  · rintro ⟨rfl, hmem, hinh⟩
    exact ⟨path, oid, ⟨hmem, hinh⟩, rfl, rfl, rfl⟩

theorem mem_inherited {c : Commit} {oid : Bytes} :
    oid ∈ inherited c ↔ ∃ p ∈ c.parents, ∃ path, (path, oid) ∈ treeBlobs p.tree := by
  simp [inherited]

/-- A commit brings a blob: it holds it at a searched path, and no parent does. -/
def Brings (c : Commit) (oid : Bytes) : Prop :=
  (∃ path, (path, oid) ∈ treeBlobs c.tree) ∧ oid ∉ inherited c

/-- The blob is first brought, in the order of the walk, by this commit, and there this path is
the first one that holds it. -/
def FirstBrought (commits : List Commit) (c : Commit) (path : Text) (oid : Bytes) : Prop :=
  (∃ earlier later, commits = earlier ++ c :: later ∧ ∀ d ∈ earlier, ¬ Brings d oid) ∧
    oid ∉ inherited c ∧
    ∃ before after, treeBlobs c.tree = before ++ (path, oid) :: after ∧ oid ∉ before.map Prod.snd

private theorem mem_map_broughtBy {c : Commit} {oid : Bytes} :
    oid ∈ (broughtBy c).map oidOf ↔ Brings c oid := by
  rw [List.mem_map]
  constructor
  · rintro ⟨⟨d, path, o⟩, hmem, rfl⟩
    obtain ⟨-, htree, hinh⟩ := mem_broughtBy.mp hmem
    exact ⟨⟨path, htree⟩, hinh⟩
  · rintro ⟨⟨path, htree⟩, hinh⟩
    exact ⟨(c, path, oid), mem_broughtBy.mpr ⟨rfl, htree, hinh⟩, rfl⟩

private theorem mem_first_broughtBy {c d : Commit} {path : Text} {oid : Bytes} :
    (d, path, oid) ∈ firstSeen oidOf [] (broughtBy c) ↔
      d = c ∧ oid ∉ inherited c ∧
        ∃ before after, treeBlobs c.tree = before ++ (path, oid) :: after ∧
          oid ∉ before.map Prod.snd := by
  have hfirst : (path, oid) ∈ firstSeen (Prod.snd : Text × Bytes → Bytes) []
      ((treeBlobs c.tree).filter (fun x => !(inherited c).contains x.2)) ↔
      oid ∉ inherited c ∧ ∃ before after, treeBlobs c.tree = before ++ (path, oid) :: after ∧
        oid ∉ before.map Prod.snd := by
    have hfilter := mem_firstSeen_filter (Prod.snd : Text × Bytes → Bytes)
      (p := fun o => !(inherited c).contains o) (treeBlobs c.tree) (x := (path, oid))
    rw [hfilter, mem_firstSeen, List.contains_eq_mem]
    simp only [Bool.not_eq_true', decide_eq_false_iff_not, List.not_mem_nil, not_false_eq_true,
      true_and]
  rw [← hfirst, broughtBy, firstSeen_map, List.mem_map]
  constructor
  · rintro ⟨⟨p, o⟩, h, heq⟩
    obtain ⟨rfl, rfl, rfl⟩ : c = d ∧ p = path ∧ o = oid := by simpa using heq
    exact ⟨rfl, h⟩
  · rintro ⟨rfl, h⟩
    exact ⟨(path, oid), h, rfl⟩

theorem mem_walk {commits : List Commit} {c : Commit} {path : Text} {oid : Bytes} :
    (c, path, oid) ∈ walk [] commits ↔ FirstBrought commits c path oid := by
  rw [walk_eq, mem_firstSeen_flatMap]
  constructor
  · rintro ⟨earlier, d, later, heq, -, hnone, hfirst⟩
    obtain ⟨rfl, hinh, hsplit⟩ := mem_first_broughtBy.mp hfirst
    refine ⟨⟨earlier, later, heq, ?_⟩, hinh, hsplit⟩
    intro e he hbrings
    exact hnone e he (mem_map_broughtBy.mpr hbrings)
  · rintro ⟨⟨earlier, later, heq, hnone⟩, hinh, hsplit⟩
    refine ⟨earlier, c, later, heq, List.not_mem_nil, ?_, ?_⟩
    · intro e he hmem
      exact hnone e he (mem_map_broughtBy.mp hmem)
    · exact mem_first_broughtBy.mpr ⟨rfl, hinh, hsplit⟩

/-- The listing shows a leaf at this path: a file at the root or right below a directory. -/
def searched (p : LeafPath) : Bool :=
  match p.dirs with
  | [] => namedBy fileSpecs p.name
  | [d] => namedBy dirSpecs d
  | _ => false

def listed (x : LeafPath × Leaf) : Option (Text × Bytes) :=
  if searched x.1 then x.2.blob.map (fun b => (fromUtf8Lossy x.1.bytes, b)) else none

private theorem filterMap_one {α β : Type} (f : α → Option β) (x : α) :
    [x].filterMap f = (f x).toList := by
  cases h : f x <;> simp [h]

private theorem filterMap_leavesAt (e : Name × Entry) (d : Name) :
    (e.2.leavesAt [d] e.1).filterMap listed =
      if namedBy dirSpecs d then (listedBlob [d] e).toList else [] := by
  obtain ⟨n, entry⟩ := e
  cases entry with
  | leaf l =>
    have hone : (Entry.leaf l).leavesAt [d] n = [(⟨[d], n⟩, l)] := rfl
    rw [hone, filterMap_one]
    have hlisted : listed (⟨[d], n⟩, l) = if namedBy dirSpecs d then listedBlob [d] (n, .leaf l)
        else none := rfl
    rw [hlisted]
    split_ifs
    · cases listedBlob [d] (n, .leaf l) <;> rfl
    · rfl
  | dir es =>
    have hnone : ((Entry.dir es).leavesAt [d] n).filterMap listed = [] := by
      rw [List.filterMap_eq_nil_iff]
      intro x hx
      obtain ⟨rest, hdirs⟩ := Entry.prefix_of_mem_leavesIn es [d, n] x hx
      have hdeep : searched x.1 = false := by
        rw [searched, hdirs]
        rfl
      rw [listed, hdeep]
      rfl
    rw [hnone]
    split_ifs <;> rfl

private theorem leavesIn_eq (dirs : List Name) (es : Entries) :
    Entry.leavesIn dirs es = es.flatMap (fun e => e.2.leavesAt dirs e.1) := by
  induction es with
  | nil => rfl
  | cons e es ih =>
    obtain ⟨n, e⟩ := e
    rw [Entry.leavesIn, ih, List.flatMap_cons]

theorem treeBlobs_eq (t : Tree) : treeBlobs t = t.leaves.filterMap listed := by
  rw [treeBlobs, Tree.leaves, leavesIn_eq, List.filterMap_flatMap]
  refine List.flatMap_congr fun e _ => ?_
  obtain ⟨n, entry⟩ := e
  cases entry with
  | leaf l =>
    have hone : (Entry.leaf l).leavesAt [] n = [(⟨[], n⟩, l)] := rfl
    have hlisted : listed (⟨[], n⟩, l) = if namedBy fileSpecs n then listedBlob [] (n, .leaf l)
        else none := rfl
    simp only [hone, filterMap_one, hlisted]
    split_ifs
    · cases listedBlob [] (n, .leaf l) <;> rfl
    · rfl
  | dir es =>
    have hbelow : (Entry.dir es).leavesAt [] n = es.flatMap (fun e => e.2.leavesAt [n] e.1) :=
      leavesIn_eq [n] es
    simp only [hbelow, List.filterMap_flatMap, filterMap_leavesAt]
    split_ifs
    · rw [List.filterMap_eq_flatMap_toList]
    · exact (List.flatMap_eq_nil_iff.mpr fun _ _ => rfl).symm

theorem listed_eq_some_iff {x : LeafPath × Leaf} {path : Text} {oid : Bytes} :
    listed x = some (path, oid) ↔
      searched x.1 = true ∧ x.2.blob = some oid ∧ fromUtf8Lossy x.1.bytes = path := by
  unfold listed
  split_ifs with h
  · simp [h, and_comm]
  · simp [h]

def Holds (c : Commit) (oid : Bytes) : Prop :=
  ∃ x ∈ c.tree.leaves, searched x.1 = true ∧ x.2.blob = some oid

theorem holds_iff {c : Commit} {oid : Bytes} :
    Holds c oid ↔ ∃ path, (path, oid) ∈ treeBlobs c.tree := by
  rw [treeBlobs_eq]
  constructor
  · rintro ⟨x, hx, hsearched, hblob⟩
    exact ⟨_, List.mem_filterMap.mpr ⟨x, hx, listed_eq_some_iff.mpr ⟨hsearched, hblob, rfl⟩⟩⟩
  · rintro ⟨path, hpath⟩
    obtain ⟨x, hx, hlisted⟩ := List.mem_filterMap.mp hpath
    obtain ⟨hsearched, hblob, -⟩ := listed_eq_some_iff.mp hlisted
    exact ⟨x, hx, hsearched, hblob⟩

theorem mem_inherited_iff {c : Commit} {oid : Bytes} :
    oid ∈ inherited c ↔ ∃ q ∈ c.parents, Holds q oid := by
  simp only [mem_inherited, holds_iff]

/-- In the order of the commits, and in the order of its tree, a commit is the first to have a blob at
this path: none of its parents has the blob, a commit before it has the blob only from a parent, and
no file before it in the tree has it. -/
structure MetFirst (commits : List Commit) (d : Commit) (p : LeafPath) (oid : Bytes) : Prop where
  parents : ∀ q ∈ d.parents, ¬ Holds q oid
  commits : ∃ before after, commits = before ++ d :: after ∧
    ∀ e ∈ before, Holds e oid → ∃ q ∈ e.parents, Holds q oid
  files : ∃ before l after, d.tree.leaves = before ++ (p, l) :: after ∧ l.blob = some oid ∧
    ∀ x ∈ before, searched x.1 = true → x.2.blob ≠ some oid

private theorem split_filterMap {xs : List (LeafPath × Leaf)} {path : Text} {oid : Bytes} :
    (∃ before after, xs.filterMap listed = before ++ (path, oid) :: after ∧
        oid ∉ before.map Prod.snd) ↔
      ∃ p, searched p = true ∧ fromUtf8Lossy p.bytes = path ∧
        ∃ before l after, xs = before ++ (p, l) :: after ∧ l.blob = some oid ∧
          ∀ x ∈ before, searched x.1 = true → x.2.blob ≠ some oid := by
  constructor
  · rintro ⟨before, after, heq, hfresh⟩
    obtain ⟨ys, zs, rfl, hbefore, hafter⟩ := List.filterMap_eq_append_iff.mp heq
    obtain ⟨us, x, vs, rfl, hus, hx, -⟩ := List.filterMap_eq_cons_iff.mp hafter
    obtain ⟨hsearched, hblob, hpath⟩ := listed_eq_some_iff.mp hx
    refine ⟨x.1, hsearched, hpath, ys ++ us, x.2, vs, by simp, hblob, ?_⟩
    intro y hy hys hyblob
    have hlisted := listed_eq_some_iff.mpr ⟨hys, hyblob, rfl⟩
    rcases List.mem_append.mp hy with hy | hy
    · apply hfresh
      rw [← hbefore]
      exact List.mem_map_of_mem (List.mem_filterMap.mpr ⟨y, hy, hlisted⟩)
    · rw [hus y hy] at hlisted
      cases hlisted
  · rintro ⟨p, hsearched, rfl, before, l, after, rfl, hblob, hfresh⟩
    have hx := @listed_eq_some_iff (p, l) _ oid |>.mpr ⟨hsearched, hblob, rfl⟩
    refine ⟨before.filterMap listed, after.filterMap listed, ?_, ?_⟩
    · rw [List.filterMap_append, List.filterMap_cons_some hx]
    · intro hmem
      obtain ⟨⟨path, o⟩, hpath, rfl⟩ := List.mem_map.mp hmem
      obtain ⟨y, hy, hlisted⟩ := List.mem_filterMap.mp hpath
      obtain ⟨hys, hyblob, -⟩ := listed_eq_some_iff.mp hlisted
      exact hfresh y hy hys hyblob

theorem firstBrought_iff {commits : List Commit} {d : Commit} {path : Text} {oid : Bytes} :
    FirstBrought commits d path oid ↔
      ∃ p, searched p = true ∧ fromUtf8Lossy p.bytes = path ∧ MetFirst commits d p oid := by
  have hbrings (e : Commit) : ¬ Brings e oid ↔ (Holds e oid → ∃ q ∈ e.parents, Holds q oid) := by
    rw [Brings, ← holds_iff, mem_inherited_iff, not_and_not_right]
  have hparents : oid ∉ inherited d ↔ ∀ q ∈ d.parents, ¬ Holds q oid := by
    rw [mem_inherited_iff]
    push Not
    rfl
  simp only [FirstBrought, hbrings, hparents, treeBlobs_eq, split_filterMap]
  constructor
  · rintro ⟨hcommits, hinh, p, hsearched, hpath, hfiles⟩
    exact ⟨p, hsearched, hpath, hinh, hcommits, hfiles⟩
  · rintro ⟨p, hsearched, hpath, hmet⟩
    exact ⟨hmet.commits, hmet.parents, p, hsearched, hpath, hmet.files⟩

/-- A push brings a script: a new commit holds the blob under `scripts/`, and none of its parents
holds that blob at that path. -/
structure BringsScript (main : Option Commit) (tip c : Commit) (p : LeafPath) (oid : Bytes) :
    Prop where
  isNew : IsNew main tip c
  holds : ∃ l, (p, l) ∈ c.tree.leaves ∧ l.blob = some oid
  dir : ∃ d rest, p.dirs = d :: rest ∧ d.bytes = utf8 "scripts".toList
  fresh : ∀ q ∈ c.parents, ∀ l, (p, l) ∈ q.tree.leaves → l.blob ≠ some oid

private theorem namedBy_iff {specs : List Text} {n : Name} :
    namedBy specs n = true ↔ ∃ s ∈ specs, n.bytes = utf8 s := by
  simp [namedBy, eq_comm]

theorem BringsScript.searched_iff {main : Option Commit} {tip c : Commit} {p : LeafPath} {oid : Bytes}
    (h : BringsScript main tip c p oid) : searched p = true ↔ p.dirs.length = 1 := by
  obtain ⟨d, rest, hdirs, hname⟩ := h.dir
  have hspec : namedBy dirSpecs d = true := namedBy_iff.mpr ⟨_, by decide, hname⟩
  cases rest with
  | nil => simp [searched, hdirs, hspec]
  | cons e rest => simp [searched, hdirs]

section Labels

variable (shortId : Commit → Text)

def Names (main : Option Commit) (tip : Commit) (p : LeafPath) (text : Text) : Prop :=
  text = fromUtf8Lossy p.bytes ∨
    ∃ d, IsNew main tip d ∧ text = fromUtf8Lossy p.bytes ++ '@' :: shortId d

/-- The texts hold the content of a blob under a label that names the path. -/
def Judged (texts : List (Text × Text)) (main : Option Commit) (tip : Commit) (p : LeafPath)
    (oid : Bytes) : Prop :=
  ∃ e ∈ texts, Names shortId main tip p e.1 ∧ e.2 = fromUtf8Lossy oid

def TipHolds (tip : Commit) (path : Text) (oid : Bytes) : Prop :=
  ∃ before x after, tip.tree.leaves = before ++ x :: after ∧
    (searched x.1 = true ∧ fromUtf8Lossy x.1.bytes = path ∧ x.2.blob = some oid) ∧
    ∀ y ∈ after, searched y.1 = true → fromUtf8Lossy y.1.bytes = path → y.2.blob = none

theorem tipBlob_eq_some_iff {tip : Commit} {path : Text} {oid : Bytes} :
    tipBlob tip.tree path = some oid ↔ TipHolds tip path oid := by
  have hfind : tipBlob tip.tree path = some oid ↔ ∃ before after,
      treeBlobs tip.tree = before ++ (path, oid) :: after ∧ ∀ x ∈ after, x.1 ≠ path := by
    rw [tipBlob, Option.map_eq_some_iff]
    constructor
    · rintro ⟨x, hx, rfl⟩
      obtain ⟨hpath, as, bs, heq, hlast⟩ := List.find?_eq_some_iff_append.mp hx
      obtain rfl : x.1 = path := of_decide_eq_true hpath
      refine ⟨bs.reverse, as.reverse, ?_, fun y hy => ?_⟩
      · rw [← List.reverse_reverse (treeBlobs tip.tree), heq]
        simp
      · simpa using hlast y (List.mem_reverse.mp hy)
    · rintro ⟨before, after, heq, hlast⟩
      refine ⟨(path, oid), List.find?_eq_some_iff_append.mpr ⟨by simp, after.reverse,
        before.reverse, by simp [heq], fun y hy => ?_⟩, rfl⟩
      simpa using hlast y (List.mem_reverse.mp hy)
  rw [hfind, treeBlobs_eq]
  constructor
  · rintro ⟨before, after, heq, hlast⟩
    obtain ⟨ys, zs, hleaves, -, hzs⟩ := List.filterMap_eq_append_iff.mp heq
    obtain ⟨us, x, vs, rfl, -, hx, rfl⟩ := List.filterMap_eq_cons_iff.mp hzs
    obtain ⟨hsearched, hblob, hpath⟩ := listed_eq_some_iff.mp hx
    refine ⟨ys ++ us, x, vs, by rw [hleaves]; simp, ⟨hsearched, hpath, hblob⟩, ?_⟩
    intro y hy hys hsame
    rw [Option.eq_none_iff_forall_ne_some]
    intro o ho
    exact hlast _ (List.mem_filterMap.mpr ⟨y, hy, listed_eq_some_iff.mpr ⟨hys, ho, rfl⟩⟩) hsame
  · rintro ⟨before, x, after, heq, ⟨hsearched, hpath, hblob⟩, hlast⟩
    have hx := listed_eq_some_iff.mpr ⟨hsearched, hblob, hpath⟩
    refine ⟨before.filterMap listed, after.filterMap listed, ?_, ?_⟩
    · rw [heq, List.filterMap_append, List.filterMap_cons_some hx]
    · rintro ⟨path', o⟩ hmem rfl
      obtain ⟨y, hy, hlisted⟩ := List.mem_filterMap.mp hmem
      obtain ⟨hys, hyblob, hypath⟩ := listed_eq_some_iff.mp hlisted
      rw [hlast y hy hys hypath] at hyblob
      cases hyblob

/-- By the path alone where the tip has the blob there, else by path and commit. -/
def CalledBy (tip d : Commit) (path : Text) (oid : Bytes) (name : Text) : Prop :=
  TipHolds tip path oid ∧ name = path ∨ ¬ TipHolds tip path oid ∧ name = path ++ '@' :: shortId d

theorem calledBy_iff {tip d : Commit} {path : Text} {oid : Bytes} {name : Text} :
    CalledBy shortId tip d path oid name ↔ label shortId tip.tree d path oid = name := by
  rw [CalledBy, ← tipBlob_eq_some_iff, label]
  split_ifs with h
  · simp [h, eq_comm]
  · simp [h, eq_comm]

theorem mem_pushedTexts {revList : Commit → Option Commit → List Commit} {main : Option Commit}
    {tip : Commit} {e : Text × Text} :
    e ∈ pushedTexts shortId revList main (some tip) ↔
      ∃ d path oid, FirstBrought (revList tip main) d path oid ∧
        e = (label shortId tip.tree d path oid, fromUtf8Lossy oid) := by
  simp only [pushedTexts, pushedBlobs, List.map_map, List.mem_map, Prod.exists, mem_walk,
    Function.comp_apply]
  constructor
  · rintro ⟨d, path, oid, hfirst, rfl⟩
    exact ⟨d, path, oid, hfirst, rfl⟩
  · rintro ⟨d, path, oid, hfirst, rfl⟩
    exact ⟨d, path, oid, hfirst, rfl⟩

/-- Another file of the push that has the same text and is called like this script. -/
def CalledAlike (main : Option Commit) (tip : Commit) (commits : List Commit) (p : LeafPath)
    (oid : Bytes) : Prop :=
  ∃ d q other name, (q, other) ≠ (p, oid) ∧ searched q = true ∧ MetFirst commits d q other ∧
    fromUtf8Lossy other = fromUtf8Lossy oid ∧
    CalledBy shortId tip d (fromUtf8Lossy q.bytes) other name ∧ Names shortId main tip p name

/-- A script that a push brings is judged as that script exactly when it lies right below `scripts/`
and the push meets its blob there first, before it meets it in another commit or at another path and
without a parent that has it anywhere; or when another file is called like it by chance. -/
theorem script_judged_iff {revList : Commit → Option Commit → List Commit} {main : Option Commit}
    {tip : Commit} (hlist : ListsNew main tip (revList tip main)) :
    ∀ c p oid, BringsScript main tip c p oid →
      (Judged shortId (pushedTexts shortId revList main (some tip)) main tip p oid ↔
        (p.dirs.length = 1 ∧ ∃ d, MetFirst (revList tip main) d p oid) ∨
          CalledAlike shortId main tip (revList tip main) p oid) := by
  intro c p oid hscript
  constructor
  · rintro ⟨e, he, hname, htext⟩
    obtain ⟨d, path, other, hfirst, rfl⟩ := (mem_pushedTexts shortId).mp he
    obtain ⟨q, hsearched, rfl, hmet⟩ := firstBrought_iff.mp hfirst
    by_cases hsame : (q, other) = (p, oid)
    · obtain ⟨rfl, rfl⟩ := Prod.mk.inj hsame
      exact Or.inl ⟨hscript.searched_iff.mp hsearched, d, hmet⟩
    · exact Or.inr ⟨d, q, other, _, hsame, hsearched, hmet, htext, (calledBy_iff shortId).mpr rfl,
        hname⟩
  · rintro (⟨hdirect, d, hmet⟩ | ⟨d, q, other, name, -, hsearched, hmet, htext, hcalled, hname⟩)
    · have hfirst := firstBrought_iff.mpr ⟨p, hscript.searched_iff.mpr hdirect, rfl, hmet⟩
      refine ⟨_, (mem_pushedTexts shortId).mpr ⟨d, _, oid, hfirst, rfl⟩, ?_, rfl⟩
      have hnew : IsNew main tip d := by
        obtain ⟨before, after, heq, -⟩ := hmet.commits
        rw [← hlist.mem_iff, heq]
        exact List.mem_append_right _ List.mem_cons_self
      rcases (calledBy_iff shortId).mpr (Eq.refl (label shortId tip.tree d
        (fromUtf8Lossy p.bytes) oid)) with ⟨-, hpath⟩ | ⟨-, hpath⟩
      · exact Or.inl hpath
      · exact Or.inr ⟨d, hnew, hpath⟩
    · have hfirst := firstBrought_iff.mpr ⟨q, hsearched, rfl, hmet⟩
      refine ⟨_, (mem_pushedTexts shortId).mpr ⟨d, _, other, hfirst, rfl⟩, ?_, htext⟩
      rwa [(calledBy_iff shortId).mp hcalled]

end Labels

theorem leaf_of_mem_treeBlobs {t : Tree} {path : Text} {oid : Bytes}
    (h : (path, oid) ∈ treeBlobs t) : ∃ p l, (p, l) ∈ t.leaves ∧ l.blob = some oid := by
  have hlisted {dirs : List Name} {e : Name × Entry}
      (he : listedBlob dirs e = some (path, oid)) : ∃ l, e.2 = .leaf l ∧ l.blob = some oid := by
    obtain ⟨n, entry⟩ := e
    cases entry with
    | dir es => simp [listedBlob] at he
    | leaf l =>
      simp only [listedBlob, Option.map_eq_some_iff, Prod.mk.injEq] at he
      obtain ⟨b, hb, -, rfl⟩ := he
      exact ⟨l, rfl, hb⟩
  obtain ⟨⟨n, entry⟩, he, hmem⟩ := List.mem_flatMap.mp h
  cases entry with
  | leaf k =>
    simp only at hmem
    split_ifs at hmem
    · obtain ⟨l, hl, hblob⟩ := hlisted (Option.mem_toList.mp hmem)
      refine ⟨⟨[], n⟩, l, Tree.mem_leaves_root.mpr ?_, hblob⟩
      rwa [← hl]
    · cases hmem
  | dir es =>
    simp only at hmem
    split_ifs at hmem
    · obtain ⟨⟨m, f⟩, hf, hlist⟩ := List.mem_filterMap.mp hmem
      obtain ⟨l, rfl, hblob⟩ := hlisted hlist
      exact ⟨⟨[n], m⟩, l, Tree.mem_leaves_dir.mpr ⟨es, he, hf⟩, hblob⟩
    · cases hmem

def IsGitattributes (p : LeafPath) : Prop :=
  p.dirs = [] ∧ p.name.bytes = utf8 ".gitattributes".toList

private theorem rootFiles_searched :
    ∀ s ∈ rootFiles, s = ".gitattributes".toList ∨ s ∈ fileSpecs := by decide

private theorem authoredDirs_searched : ∀ d ∈ authoredDirs, d ∈ dirSpecs := by decide

theorem mem_treeBlobs_of_allowed {t : Tree} {p : LeafPath} {l : Leaf} {oid : Bytes}
    (hrule : leafAllowed p = true) (hleaf : (p, l) ∈ t.leaves) (hblob : l.blob = some oid)
    (hother : ¬ IsGitattributes p) : ∃ path, (path, oid) ∈ treeBlobs t := by
  have hdir {d : Text} (hd : d ∈ dirSpecs) (hp : InDir p d) :
      ∃ path, (path, oid) ∈ treeBlobs t := by
    obtain ⟨dirs, n⟩ := p
    obtain ⟨e, rfl, he⟩ := hp
    obtain ⟨es, hes, hn⟩ := Tree.mem_leaves_dir.mp hleaf
    have hlisted : listedBlob [e] (n, .leaf l) =
        some (fromUtf8Lossy (⟨[e], n⟩ : LeafPath).bytes, oid) := by simp [listedBlob, hblob]
    have hspec : namedBy dirSpecs e = true := namedBy_iff.mpr ⟨d, hd, he⟩
    refine ⟨fromUtf8Lossy (⟨[e], n⟩ : LeafPath).bytes,
      List.mem_flatMap.mpr ⟨(e, .dir es), hes, ?_⟩⟩
    simp only [hspec, if_true]
    exact List.mem_filterMap.mpr ⟨(n, .leaf l), hn, hlisted⟩
  rcases (leafAllowed_iff p).mp hrule with ⟨hroot, s, hs, hname⟩ | ⟨hsteps, -⟩ | ⟨d, hd, hp, -⟩
  · have hspec : s ∈ fileSpecs := by
      refine (rootFiles_searched s hs).resolve_left ?_
      rintro rfl
      exact hother ⟨hroot, hname⟩
    obtain ⟨dirs, n⟩ := p
    obtain rfl : dirs = [] := hroot
    have hlisted : listedBlob [] (n, .leaf l) =
        some (fromUtf8Lossy (⟨[], n⟩ : LeafPath).bytes, oid) := by simp [listedBlob, hblob]
    have hnamed : namedBy fileSpecs n = true := namedBy_iff.mpr ⟨s, hspec, hname⟩
    refine ⟨fromUtf8Lossy (⟨[], n⟩ : LeafPath).bytes,
      List.mem_flatMap.mpr ⟨(n, .leaf l), Tree.mem_leaves_root.mp hleaf, ?_⟩⟩
    simp only [hnamed, if_true]
    exact Option.mem_toList.mpr hlisted
  · exact hdir (by decide) hsteps
  · exact hdir (authoredDirs_searched d hd) hp

/-- The content of some leaf of a commit that `main` reaches. -/
def OnMain (main : Option Commit) (oid : Bytes) : Prop :=
  ∃ m ∈ main, ∃ c, Commit.Reaches m c ∧ ∃ p l, (p, l) ∈ c.tree.leaves ∧ l.blob = some oid

theorem onMain_or_brought {main : Option Commit} {tip : Commit} {oid : Bytes} (c : Commit) :
    IsNew main tip c → (∃ path, (path, oid) ∈ treeBlobs c.tree) →
      OnMain main oid ∨ ∃ d, IsNew main tip d ∧ Brings d oid := by
  induction c using Commit.induction with
  | step c ih =>
    intro hnew hsearched
    by_cases hinh : oid ∈ inherited c
    · obtain ⟨q, hq, path, hpath⟩ := mem_inherited.mp hinh
      by_cases hmain : ∃ m ∈ main, Commit.Reaches m q
      · obtain ⟨m, hm, hreach⟩ := hmain
        exact Or.inl ⟨m, hm, q, hreach, leaf_of_mem_treeBlobs hpath⟩
      · have hparent : Commit.Reaches tip q := hnew.1.tail hq
        have hqnew : IsNew main tip q := ⟨hparent, fun m hm hr => hmain ⟨m, hm, hr⟩⟩
        exact ih q hq hqnew ⟨path, hpath⟩
    · exact Or.inr ⟨c, hnew, hsearched, hinh⟩

section Cover

variable (shortId : Commit → Text)

/-- The blob is among the texts of the push, once. -/
def AppearsOnce (revList : Commit → Option Commit → List Commit) (main : Option Commit)
    (tip : Commit) (oid : Bytes) : Prop :=
  ((pushedBlobs shortId tip (revList tip main)).map Prod.snd).count oid = 1 ∧
    fromUtf8Lossy oid ∈ (pushedTexts shortId revList main (some tip)).map Prod.snd

private theorem pushedBlobs_oids (tip : Commit) (commits : List Commit) :
    (pushedBlobs shortId tip commits).map Prod.snd = (walk [] commits).map oidOf := by
  rw [pushedBlobs, List.map_map]
  rfl

theorem appearsOnce_iff {revList : Commit → Option Commit → List Commit} {main : Option Commit}
    {tip : Commit} {oid : Bytes} :
    AppearsOnce shortId revList main tip oid ↔ ∃ c ∈ revList tip main, Brings c oid := by
  have hmem : oid ∈ (walk [] (revList tip main)).map oidOf ↔
      ∃ c ∈ revList tip main, Brings c oid := by
    rw [walk_eq, mem_map_firstSeen, List.map_flatMap, List.mem_flatMap]
    simp only [List.not_mem_nil, not_false_eq_true, and_true, mem_map_broughtBy]
  have hnodup : ((walk [] (revList tip main)).map oidOf).Nodup := by
    rw [walk_eq]
    exact nodup_map_firstSeen oidOf [] _
  rw [AppearsOnce, pushedBlobs_oids, ← hmem]
  constructor
  · rintro ⟨hcount, -⟩
    exact List.count_pos_iff.mp (by omega)
  · intro h
    refine ⟨List.count_eq_one_of_mem hnodup h, ?_⟩
    rw [← pushedBlobs_oids shortId tip] at h
    obtain ⟨x, hx, rfl⟩ := List.mem_map.mp h
    refine List.mem_map.mpr ⟨(x.1, fromUtf8Lossy x.2), ?_, rfl⟩
    exact List.mem_map.mpr ⟨x, hx, rfl⟩

/-- In a push whose new commits keep the path rule, a blob of a new commit is covered, by `main` or
by one text of the push, exactly unless it is the content of `.gitattributes` that is neither on
`main` nor at a searched path of another new commit. -/
theorem blob_covered_iff {revList : Commit → Option Commit → List Commit} {main : Option Commit}
    {tip : Commit} (hlist : ListsNew main tip (revList tip main))
    (hrule : ∀ c, IsNew main tip c → ∀ p ∈ c.tree.paths, leafAllowed p = true)
    {c : Commit} {p : LeafPath} {l : Leaf} {oid : Bytes} (hnew : IsNew main tip c)
    (hleaf : (p, l) ∈ c.tree.leaves) (hblob : l.blob = some oid) :
    (OnMain main oid ∨ AppearsOnce shortId revList main tip oid) ↔
      (IsGitattributes p → OnMain main oid ∨
        ∃ d, IsNew main tip d ∧ ∃ path, (path, oid) ∈ treeBlobs d.tree) := by
  have hsearched : (∃ d, IsNew main tip d ∧ ∃ path, (path, oid) ∈ treeBlobs d.tree) →
      OnMain main oid ∨ AppearsOnce shortId revList main tip oid := by
    rintro ⟨d, hd, hpath⟩
    refine (onMain_or_brought d hd hpath).imp id ?_
    rintro ⟨e, he, hbrings⟩
    exact (appearsOnce_iff shortId).mpr ⟨e, (hlist.mem_iff e).mpr he, hbrings⟩
  constructor
  · rintro (hmain | honce) -
    · exact Or.inl hmain
    · obtain ⟨d, hd, hpath, -⟩ := (appearsOnce_iff shortId).mp honce
      exact Or.inr ⟨d, (hlist.mem_iff d).mp hd, hpath⟩
  · intro h
    by_cases hgit : IsGitattributes p
    · exact (h hgit).elim Or.inl hsearched
    · have hallowed : leafAllowed p = true := hrule c hnew p (List.mem_map_of_mem hleaf)
      exact hsearched ⟨c, hnew, mem_treeBlobs_of_allowed hallowed hleaf hblob hgit⟩

end Cover

def wipeDisk : Bytes := utf8 "rm -rf /".toList

def assetAndScript (asset : Bytes) (script : Option Bytes) : Tree where
  entries := [(assetsName, .dir [(scriptName, .leaf (.file false asset))]),
    (listJsonName, .leaf (.file false (utf8 "[]".toList)))] ++
    script.toList.map (fun b => (scriptsName, .dir [(scriptName, .leaf (.file false b))]))
  wellFormed := by cases script <;> rfl

def release : Stamp := ⟨"v1".toList, "SetFork".toList, 0⟩

/-- The version on `main`: an asset and no script. -/
def assetCommit (asset : Bytes) : Commit := .mk (assetAndScript asset none) [] release

/-- A push of one commit that adds a script. -/
def scriptCommit (asset script : Bytes) : Commit :=
  .mk (assetAndScript asset (some script)) [assetCommit asset] ⟨"script".toList, "u".toList, 1⟩

def scriptPath : LeafPath := ⟨[scriptsName], scriptName⟩

def sampleId (_ : Commit) : Text := "0badcafe".toList

def sampleRevList (tip : Commit) (_ : Option Commit) : List Commit := [tip]

private theorem scriptCommit_listsNew (asset script : Bytes) :
    ListsNew (some (assetCommit asset)) (scriptCommit asset script)
      (sampleRevList (scriptCommit asset script) (some (assetCommit asset))) := by
  refine listsNew_child rfl fun h => ?_
  rw [Commit.reaches_iff_parents] at h
  rcases h with h | ⟨p, hp, -⟩
  · exact absurd (congrArg Commit.parents h) (List.cons_ne_nil _ _)
  · cases hp

private theorem scriptCommit_brings (asset script : Bytes) :
    BringsScript (some (assetCommit asset)) (scriptCommit asset script)
      (scriptCommit asset script) scriptPath script := by
  refine ⟨?_, ⟨.file false script, ?_, rfl⟩, ⟨scriptsName, [], rfl, rfl⟩, ?_⟩
  · have hmem := (scriptCommit_listsNew asset script).mem_iff (scriptCommit asset script)
    exact hmem.mp (List.mem_singleton_self _)
  · change _ ∈ [_, _, _]
    simp [scriptPath]
  · intro q hq l hl
    obtain rfl := List.mem_singleton.mp hq
    have hleaves : (assetCommit asset).tree.leaves =
      [(⟨[assetsName], scriptName⟩, .file false asset),
        (⟨[], listJsonName⟩, .file false (utf8 "[]".toList))] := rfl
    rw [hleaves] at hl
    have hdirs : scriptPath.dirs ≠ [assetsName] ∧ scriptPath.dirs ≠ [] := by decide
    rcases List.mem_cons.mp hl with h | h
    · exact absurd (congrArg (fun x => x.1.dirs) h) hdirs.1
    · exact absurd (congrArg (fun x => x.1.dirs) (List.mem_singleton.mp h)) hdirs.2

theorem script_judged_new_bytes :
    Judged sampleId (pushedTexts sampleId sampleRevList (some (assetCommit []))
      (some (scriptCommit [] wipeDisk))) (some (assetCommit [])) (scriptCommit [] wipeDisk)
      scriptPath wipeDisk := by
  have hbrings := scriptCommit_brings [] wipeDisk
  refine (script_judged_iff sampleId (scriptCommit_listsNew [] wipeDisk) _ _ _ hbrings).mpr
    (Or.inl ⟨rfl, scriptCommit [] wipeDisk, ?_⟩)
  refine ⟨List.forall_mem_singleton.mpr ?_, ⟨[], [], rfl, nofun⟩, ?_⟩
  · unfold Holds
    decide
  · exact ⟨[(⟨[assetsName], scriptName⟩, .file false []),
      (⟨[], listJsonName⟩, .file false (utf8 "[]".toList))], .file false wipeDisk, [], rfl, rfl,
      by decide⟩

/-- A destructive script whose bytes lie on `main` as an asset: nothing is judged. -/
theorem script_unjudged_copy :
    BringsScript (some (assetCommit wipeDisk)) (scriptCommit wipeDisk wipeDisk)
      (scriptCommit wipeDisk wipeDisk) scriptPath wipeDisk ∧
    ¬ Judged sampleId (pushedTexts sampleId sampleRevList (some (assetCommit wipeDisk))
        (some (scriptCommit wipeDisk wipeDisk))) (some (assetCommit wipeDisk))
        (scriptCommit wipeDisk wipeDisk) scriptPath wipeDisk := by
  refine ⟨scriptCommit_brings wipeDisk wipeDisk, ?_⟩
  rintro ⟨e, he, -⟩
  have hnone : pushedTexts sampleId sampleRevList (some (assetCommit wipeDisk))
      (some (scriptCommit wipeDisk wipeDisk)) = [] := by decide
  rw [hnone] at he
  cases he

/-- `list.json` and a service file of this content. -/
def serviceCommit (content : Bytes) : Commit :=
  .mk ⟨[(gitattributesName, .leaf (.file false content)),
    (listJsonName, .leaf (.file false (utf8 "[]".toList)))], rfl⟩ [] release

def servicePath : LeafPath := ⟨[], gitattributesName⟩

private theorem serviceCommit_listsNew (content : Bytes) :
    ListsNew none (serviceCommit content) (sampleRevList (serviceCommit content) none) := by
  refine ⟨List.nodup_singleton _, fun c => ?_⟩
  rw [sampleRevList, List.mem_singleton, IsNew, Commit.reaches_iff_parents]
  constructor
  · rintro rfl
    exact ⟨Or.inl rfl, nofun⟩
  · rintro ⟨h | ⟨p, hp, -⟩, -⟩
    · exact h
    · cases hp

private theorem serviceCommit_rule (content : Bytes) : ∀ c, IsNew none (serviceCommit content) c →
    ∀ p ∈ c.tree.paths, leafAllowed p = true := by
  intro c hc
  rw [← (serviceCommit_listsNew content).mem_iff, sampleRevList, List.mem_singleton] at hc
  have hpaths : (serviceCommit content).tree.paths = [servicePath, ⟨[], listJsonName⟩] := rfl
  have hall : ∀ p ∈ [servicePath, ⟨[], listJsonName⟩], leafAllowed p = true := by decide
  rw [hc, hpaths]
  exact hall

private theorem serviceCommit_leaf (content : Bytes) :
    (servicePath, .file false content) ∈ (serviceCommit content).tree.leaves :=
  Tree.mem_leaves_root.mpr List.mem_cons_self

def leakedKey : Bytes := utf8 "AKIA".toList

/-- A service file with the bytes of `list.json` is covered by the text of the latter. -/
theorem blob_covered_shared_bytes :
    OnMain none (utf8 "[]".toList) ∨
      AppearsOnce sampleId sampleRevList none (serviceCommit (utf8 "[]".toList))
        (utf8 "[]".toList) := by
  have hnew : IsNew none (serviceCommit (utf8 "[]".toList)) (serviceCommit (utf8 "[]".toList)) :=
    ⟨.refl, nofun⟩
  have hleaf := serviceCommit_leaf (utf8 "[]".toList)
  refine (blob_covered_iff sampleId (serviceCommit_listsNew _) (serviceCommit_rule _) hnew hleaf
    rfl).mpr fun _ => Or.inr ?_
  exact ⟨_, hnew, "list.json".toList, by decide⟩

/-- A key in the service file alone is neither on `main` nor among the texts. -/
theorem blob_uncovered_service_file :
    leafAllowed servicePath = true ∧
      (servicePath, .file false leakedKey) ∈ (serviceCommit leakedKey).tree.leaves ∧
      ¬ (OnMain none leakedKey ∨
        AppearsOnce sampleId sampleRevList none (serviceCommit leakedKey) leakedKey) := by
  refine ⟨by decide, serviceCommit_leaf leakedKey, ?_⟩
  rintro (⟨m, hm, -⟩ | ⟨hcount, -⟩)
  · cases hm
  · have hzero : ((pushedBlobs sampleId (serviceCommit leakedKey)
        (sampleRevList (serviceCommit leakedKey) none)).map Prod.snd).count leakedKey = 0 := by
      decide
    omega

end Setfork.PushedTexts
