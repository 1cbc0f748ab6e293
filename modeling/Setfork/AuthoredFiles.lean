/- AuthoredFiles
   digest: The authored files that a commit gives out, and the leaves they are taken from. -/
import Setfork.CarriedTree

set_option autoImplicit false
set_option relaxedAutoImplicit false

namespace Setfork.AuthoredFiles

open Setfork.Foundation
open Setfork.TreeRule
open Setfork.Authored
open Setfork.AuthoredDoors
open Setfork.Repository (mainViolation mainViolation_eq_none_iff)

structure AuthoredFile where
  path : Text
  content : Bytes
  executable : Bool
deriving DecidableEq

section Reading

-- What the repository has under the identity of a commit: the root directory of its tree.
variable (commits : Bytes → Option Entries)

/-- A subtree is a tree, and so is a submodule whose commit the repository happens to have. -/
def peelToTree : Entry → Option Entries
  | .dir entries => some entries
  | .leaf (.gitlink commit) => commits commit
  | .leaf _ => none

/-- A regular file under a readable name; anything else is passed over. -/
def fileOfEntry (dir : Text) (e : Name × Entry) : Option AuthoredFile :=
  match e.2 with
  | .leaf (.file executable content) =>
    (fromUtf8 e.1.bytes).map fun name => ⟨dir ++ '/' :: name, content, executable⟩
  | _ => none

/-- The authored files of a tree, directory by directory, one level deep. -/
def authoredFiles (t : Tree) : List AuthoredFile :=
  authoredDirs.flatMap fun dir =>
    (((t.get dir).bind (peelToTree commits)).getD []).filterMap (fileOfEntry dir)

/-- No authored directory is a submodule whose commit the repository has. -/
def Unlinked (t : Tree) : Prop :=
  ∀ d ∈ authoredDirs, ∀ commit, t.get d = some (.leaf (.gitlink commit)) → commits commit = none

variable {commits}

theorem fileOfEntry_file {dir name : Text} {e : Name × Entry} {executable : Bool} {content : Bytes}
    (hname : e.1.bytes = utf8 name) (hleaf : e.2 = .leaf (.file executable content)) :
    fileOfEntry dir e = some ⟨dir ++ '/' :: name, content, executable⟩ := by
  simp only [fileOfEntry, hleaf, hname, fromUtf8_utf8, Option.map_some]

theorem fileOfEntry_eq_some {dir : Text} {e : Name × Entry} {a : AuthoredFile}
    (h : fileOfEntry dir e = some a) : ∃ name, e.1.bytes = utf8 name ∧
      a.path = dir ++ '/' :: name ∧ e.2 = .leaf (.file a.executable a.content) := by
  obtain ⟨n, entry⟩ := e
  match entry with
  | .leaf (.file executable content) =>
    obtain ⟨name, hname, rfl⟩ := Option.map_eq_some_iff.mp h
    exact ⟨name, (utf8_of_fromUtf8 hname).symm, rfl, rfl⟩
  | .leaf (.symlink target) => cases h
  | .leaf (.gitlink commit) => cases h
  | .dir entries => cases h

theorem peel_of_unlinked {t : Tree} (h : Unlinked commits t) {d : Text} (hd : d ∈ authoredDirs) :
    (t.get d).bind (peelToTree commits) = (t.get d).bind Entry.asDir := by
  cases hget : t.get d with
  | none => rfl
  | some e =>
    match e with
    | .dir entries => rfl
    | .leaf (.file executable content) => rfl
    | .leaf (.symlink target) => rfl
    | .leaf (.gitlink commit) => exact h d hd commit hget

theorem authoredFiles_eq {t : Tree} (h : Unlinked commits t) :
    authoredFiles commits t = (authoredEntries t).filterMap fun x => fileOfEntry x.1 x.2 := by
  rw [authoredFiles, authoredEntries, List.filterMap_flatMap]
  refine List.flatMap_congr fun d hd => ?_
  rw [peel_of_unlinked h hd, List.filterMap_map]
  rfl

theorem unlinked_of_accepted {t : Tree} (h : mainViolation t = none) : Unlinked commits t := by
  intro d hd commit hget
  have hforeign := ((mainViolation_eq_none_iff t).mp h).2.1
  obtain ⟨n, hn, hmem⟩ := (Tree.get_eq_some_iff t d _).mp hget
  have hpath : (⟨[], n⟩ : LeafPath) ∈ t.paths :=
    List.mem_map_of_mem (Tree.mem_leaves_root.mpr hmem)
  have hallowed := (firstForeignPath_eq_none_iff t).mp hforeign _ hpath
  have hdisjoint : ∀ d ∈ authoredDirs, ∀ s ∈ rootFiles, utf8 d ≠ utf8 s := by decide
  rcases (leafAllowed_iff _).mp hallowed with ⟨-, s, hs, hbytes⟩ | ⟨⟨e, he, -⟩, -⟩ |
    ⟨c, -, ⟨e, he, -⟩, -⟩
  · exact absurd (hn.symm.trans hbytes) (hdisjoint d hd s hs)
  · exact absurd he.symm (List.cons_ne_nil _ _)
  · exact absurd he.symm (List.cons_ne_nil _ _)

end Reading

/-- The leaves below the authored directories. -/
def authoredLeaves (t : Tree) : List (LeafPath × Leaf) :=
  t.leaves.filter fun x => x.1.dirs.head?.any isAuthoredName

section Leaves

variable {t : Tree}

theorem placed_of_accepted (h : mainViolation t = none) : ∀ p ∈ t.paths, Placed p := by
  intro p hp
  have hforeign := ((mainViolation_eq_none_iff t).mp h).2.1
  exact ((leafAllowed_iff_placed p).mp ((firstForeignPath_eq_none_iff t).mp hforeign p hp)).1

theorem plain_of_accepted (h : mainViolation t = none) :
    ∀ x ∈ authoredEntries t, PlainEntry x.2.2 :=
  ((authoredViolation_eq_none_iff t).mp ((mainViolation_eq_none_iff t).mp h).2.2).1

theorem authoredLeaves_eq (h : ∀ p ∈ t.paths, Placed p) : authoredLeaves t = lsTreeAuthored t := by
  refine List.filter_congr fun x hx => ?_
  have hdisjoint : ∀ d ∈ authoredDirs, ∀ s ∈ rootFiles, utf8 d ≠ utf8 s := by decide
  cases hdirs : x.1.dirs with
  | cons d ds => rfl
  | nil =>
    have hroot : isAuthoredName x.1.name = false := by
      rcases h x.1 (List.mem_map_of_mem hx) with ⟨-, s, hs, hbytes⟩ | ⟨⟨e, he, -⟩, -⟩ |
        ⟨d, -, e, he, -⟩
      · by_contra hname
        rw [Bool.not_eq_false, isAuthoredName, List.contains_eq_mem, decide_eq_true_iff,
          List.mem_map] at hname
        obtain ⟨d, hd, heq⟩ := hname
        exact hdisjoint d hd s hs (heq.trans hbytes)
      · rw [hdirs] at he
        cases he
      · rw [hdirs] at he
        cases he
    simp [hroot]

/-- The path and the content of a file that is given out. -/
def fileItem (a : AuthoredFile) : Bytes × Bytes := (utf8 a.path, a.content)

/-- The path and the content of a leaf. -/
def leafItem (x : LeafPath × Leaf) : Bytes × Bytes := (x.1.bytes, leafObject x.2)

theorem leafItems_perm (h : mainViolation t = none) :
    ((authoredLeaves t).map leafItem).Perm
      (((authoredEntries t).filterMap entryItem).map fun x =>
        (x.1 ++ x.2.1.bytes, leafObject x.2.2)) := by
  rw [authoredLeaves_eq (placed_of_accepted h)]
  have hperm := (listing_perm (placed_of_accepted h)).map fun x : Bytes × Name × Leaf =>
    (x.1 ++ x.2.1.bytes, leafObject x.2.2)
  rw [List.map_map] at hperm
  exact hperm

theorem fileItems_eq {xs : List (Text × Name × Entry)} (hplain : ∀ x ∈ xs, PlainEntry x.2.2)
    (hnames : ∀ x ∈ xs, Utf8Name x.2.1) :
    (xs.filterMap fun x => fileOfEntry x.1 x.2).map fileItem =
      (xs.filterMap entryItem).map fun x => (x.1 ++ x.2.1.bytes, leafObject x.2.2) := by
  induction xs with
  | nil => rfl
  | cons x xs ih =>
    obtain ⟨executable, content, hleaf, -⟩ := hplain x List.mem_cons_self
    obtain ⟨name, hname⟩ := Option.isSome_iff_exists.mp (hnames x List.mem_cons_self)
    have hbytes := utf8_of_fromUtf8 hname
    have hfile : fileOfEntry x.1 x.2 = some ⟨x.1 ++ '/' :: name, content, executable⟩ :=
      fileOfEntry_file hbytes.symm hleaf
    have hitem : entryItem x = some (utf8 x.1 ++ [47], x.2.1, .file executable content) := by
      rw [entryItem, hleaf]
      rfl
    have hrest := ih (fun y hy => hplain y (List.mem_cons_of_mem x hy))
      fun y hy => hnames y (List.mem_cons_of_mem x hy)
    simp only [List.filterMap_cons, hfile, hitem, List.map_cons, hrest, fileItem, utf8_slash,
      hbytes, leafObject, List.append_assoc, List.singleton_append]

theorem exists_leaf_of_entry (h : mainViolation t = none) {x : Text × Name × Entry}
    (hx : x ∈ authoredEntries t) : ∃ y ∈ authoredLeaves t, y.1.name = x.2.1 := by
  obtain ⟨executable, content, hleaf, -⟩ := plain_of_accepted h x hx
  have hitem : entryItem x = some (utf8 x.1 ++ [47], x.2.1, .file executable content) := by
    rw [entryItem, hleaf]
    rfl
  have hlisted := (listing_perm (placed_of_accepted h)).mem_iff.mpr
    (List.mem_filterMap.mpr ⟨x, hx, hitem⟩)
  obtain ⟨y, hy, heq⟩ := List.mem_map.mp hlisted
  rw [← authoredLeaves_eq (placed_of_accepted h)] at hy
  exact ⟨y, hy, congrArg (fun z => z.2.1) heq⟩

theorem utf8Name_of_item {commits : Bytes → Option Entries} (h : mainViolation t = none)
    {a : AuthoredFile} (ha : a ∈ authoredFiles commits t) {p : LeafPath}
    (hp : p.bytes = utf8 a.path) : Utf8Name p.name := by
  rw [authoredFiles_eq (unlinked_of_accepted h)] at ha
  obtain ⟨x, hx, hfile⟩ := List.mem_filterMap.mp ha
  obtain ⟨name, hname, hpath, -⟩ := fileOfEntry_eq_some hfile
  obtain ⟨d, hd, hentry⟩ := List.mem_flatMap.mp hx
  obtain ⟨e, -, rfl⟩ := List.mem_map.mp hentry
  rw [hpath, utf8_slash] at hp
  have hslash : 47 ∉ utf8 name := hname ▸ e.1.noSlash
  have hparts := (LeafPath.bytes_oneSlash (authoredDirs_noSlash d hd) hslash).mp hp
  rw [Utf8Name, hparts.2, fromUtf8_utf8]
  rfl

/-- Of a tree that main takes, one file is given out for every leaf below the authored directories,
with the bytes of the leaf, and nothing else, exactly when all their names are readable. -/
theorem authored_files_cover_iff (commits : Bytes → Option Entries) (h : mainViolation t = none) :
    ((authoredFiles commits t).map fileItem).Perm ((authoredLeaves t).map leafItem) ↔
      ∀ x ∈ authoredLeaves t, Utf8Name x.1.name := by
  constructor
  · intro hperm x hx
    have hitem := hperm.mem_iff.mpr (List.mem_map_of_mem hx)
    obtain ⟨a, ha, heq⟩ := List.mem_map.mp hitem
    exact utf8Name_of_item h ha (congrArg Prod.fst heq).symm
  · intro hnames
    have hentries : ∀ x ∈ authoredEntries t, Utf8Name x.2.1 := by
      intro x hx
      obtain ⟨y, hy, hname⟩ := exists_leaf_of_entry h hx
      rw [← hname]
      exact hnames y hy
    rw [authoredFiles_eq (unlinked_of_accepted h), fileItems_eq (plain_of_accepted h) hentries]
    exact (leafItems_perm h).symm

end Leaves

def oddName : Name := ⟨[0xff], by decide, by decide, by decide⟩

/-- A list with one empty script under this name. -/
def namedScriptTree (n : Name) : Tree where
  entries := [(listJsonName, .leaf (.file false [])),
    (scriptsName, .dir [(n, .leaf (.file false []))])]
  wellFormed := by
    simp [Entry.wellFormed, Entry.entriesWellFormed, listJsonName, scriptsName, utf8]
    decide

theorem readable_files_given_out :
    mainViolation severalTree = none ∧
      ((authoredFiles (fun _ => none) severalTree).map fileItem).Perm
        ((authoredLeaves severalTree).map leafItem) := by
  have haccepted : mainViolation severalTree = none := by decide +kernel
  have hreadable : ∀ s : Text, (fromUtf8 (utf8 s)).isSome = true := by
    intro s
    rw [fromUtf8_utf8]
    rfl
  refine ⟨haccepted, (authored_files_cover_iff _ haccepted).mpr ?_⟩
  rw [show authoredLeaves severalTree =
    [(⟨[assetsName], notesName⟩, .file false (utf8 "how to".toList)),
      (⟨[scriptsName], helperName⟩, .file false (utf8 "echo old".toList)),
      (⟨[scriptsName], scriptName⟩, .file true (utf8 "echo new".toList))] from rfl]
  simp only [List.forall_mem_cons, List.not_mem_nil, false_implies, implies_true, and_true]
  exact ⟨hreadable "a.md".toList, hreadable "b.sh".toList, hreadable "run.sh".toList⟩

/-- A script under a name that is no text is taken in, and not given out. -/
theorem odd_script_not_given_out :
    mainViolation (namedScriptTree oddName) = none ∧
      ¬ ((authoredFiles (fun _ => none) (namedScriptTree oddName)).map fileItem).Perm
        ((authoredLeaves (namedScriptTree oddName)).map leafItem) := by
  have hfiles : authoredFiles (fun _ => none) (namedScriptTree oddName) = [] := by decide
  have hleaves : authoredLeaves (namedScriptTree oddName) =
      [(⟨[scriptsName], oddName⟩, .file false [])] := rfl
  refine ⟨by decide, fun hperm => ?_⟩
  have hlength := hperm.length_eq
  rw [hfiles, hleaves] at hlength
  cases hlength

end Setfork.AuthoredFiles
