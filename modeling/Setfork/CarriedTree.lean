/- CarriedTree
   digest: A version tree that carries authored files over keeps the format of its parent. -/
import Setfork.PathDoors
import Setfork.Repository

set_option autoImplicit false
set_option relaxedAutoImplicit false

namespace Setfork.CarriedTree

open Setfork.Foundation
open Setfork.Serialize
open Setfork.Readme (versionFiles)
open Setfork.TreeRule
open Setfork.Authored
open Setfork.VersionTree
open Setfork.PathDoors (mem_paths_of_built versionFiles_root)
open Setfork.Repository

variable {reserved : Name → Bool} {schemaUrl : Text} {v : VersionData} {parent : Option Tree}
  {t : Tree}

private theorem authored_not_generated : ∀ d ∈ authoredDirs, ∀ s ∈ rootFiles, utf8 d ≠ utf8 s := by
  decide

private theorem versionFiles_names : ((versionFiles schemaUrl v).map Prod.fst).Nodup := by
  simp [versionFiles]

theorem get_generated {source : AuthoredSource}
    (h : buildTree reserved (versionFiles schemaUrl v) parent source = some t) {f : Text × Text}
    (hf : f ∈ versionFiles schemaUrl v) : t.get f.1 = some (.leaf (.file false (utf8 f.2))) := by
  obtain ⟨hentries, hnames, -⟩ := buildTree_entries h
  obtain ⟨e, he, hname⟩ := hnames f hf
  rw [Tree.get_eq_some_iff]
  refine ⟨e.1, hname, ?_⟩
  rcases hentries e he with ⟨g, hg, hgname, hleaf⟩ | ⟨d, hd, -, -, hdname, -⟩
  · have hsame : g.1 = f.1 := utf8_injective (hgname.symm.trans hname)
    have hgf : g = f := List.inj_on_of_nodup_map versionFiles_names hg hf hsame
    rw [← hgf, ← hleaf]
    exact he
  · exact absurd (hdname.symm.trans hname)
      (authored_not_generated d hd f.1 (versionFiles_root schemaUrl v f hf))

/-- The authored directories of a built tree are the ones it was built with. -/
theorem asDir_built {source : AuthoredSource}
    (h : buildTree reserved (versionFiles schemaUrl v) parent source = some t)
    {d : Text} (hd : d ∈ authoredDirs) {o : Option Entries}
    (hsub : authoredSub reserved parent source d = some o) : (t.get d).bind Entry.asDir = o := by
  obtain ⟨hentries, -, hdirs⟩ := buildTree_entries h
  have hget : ∀ e ∈ t.entries, e.1.bytes = utf8 d → ∃ s, o = some s ∧ e.2 = .dir s := by
    intro e he hname
    rcases hentries e he with ⟨f, hf, hfname, -⟩ | ⟨d', hd', s, hs, hdname, hdir⟩
    · exact absurd (hname.symm.trans hfname)
        (authored_not_generated d hd f.1 (versionFiles_root schemaUrl v f hf))
    · obtain rfl : d' = d := utf8_injective (hdname.symm.trans hname)
      exact ⟨s, Option.some.inj (hsub.symm.trans hs), hdir⟩
  cases o with
  | none =>
    have habsent : t.get d = none := by
      by_contra hsome
      obtain ⟨e, he⟩ := Option.ne_none_iff_exists'.mp hsome
      obtain ⟨n, hn, hmem⟩ := (Tree.get_eq_some_iff t d e).mp he
      obtain ⟨s, hs, -⟩ := hget _ hmem hn
      cases hs
    rw [habsent]
    rfl
  | some s =>
    obtain ⟨e, he, hname⟩ := hdirs d hd s hsub
    obtain ⟨s', hs', hdir⟩ := hget e he hname
    have htree : t.get d = some (.dir s) := by
      rw [Tree.get_eq_some_iff, Option.some.inj hs', ← hdir]
      exact ⟨e.1, hname, he⟩
    rw [htree]
    rfl

theorem authoredEntries_built {source : AuthoredSource}
    (h : buildTree reserved (versionFiles schemaUrl v) parent source = some t) :
    authoredEntries t = authoredDirs.flatMap (fun d =>
      (((authoredSub reserved parent source d).bind id).getD []).map (fun e => (d, e.1, e.2))) := by
  refine List.flatMap_congr fun d hd => ?_
  obtain ⟨o, ho⟩ := Option.isSome_iff_exists.mp (buildTree_sub_isSome h d hd)
  rw [asDir_built h hd ho, ho]
  rfl

theorem mem_paths_built {source : AuthoredSource}
    (h : buildTree reserved (versionFiles schemaUrl v) parent source = some t) {p : LeafPath}
    (hp : p ∈ t.paths) : IsRootFile p ∨ ∃ d ∈ authoredDirs, ∃ s,
      authoredSub reserved parent source d = some (some s) ∧ ∃ n : Name, n.bytes = utf8 d ∧
        ∃ x ∈ (Entry.dir s).leavesAt [] n, x.1 = p := by
  rcases mem_paths_of_built h hp with ⟨hdirs, f, hf, hname⟩ | hdir
  · exact Or.inl ⟨hdirs, f.1, versionFiles_root schemaUrl v f hf, hname⟩
  · exact Or.inr hdir

theorem authoredEntries_carried
    (h : buildTree reserved (versionFiles schemaUrl v) parent .carry = some t) :
    authoredEntries t = (parent.map authoredEntries).getD [] := by
  rw [authoredEntries_built h]
  cases parent with
  | none => rfl
  | some p => rfl

theorem mem_paths_carried
    (h : buildTree reserved (versionFiles schemaUrl v) parent .carry = some t) {p : LeafPath}
    (hp : p ∈ t.paths) : IsRootFile p ∨ ∃ q, parent = some q ∧ p ∈ q.paths := by
  rcases mem_paths_built h hp with hroot | ⟨d, hd, s, hs, n, hn, x, hx, rfl⟩
  · exact Or.inl hroot
  · right
    obtain ⟨entry, hget, hasDir⟩ := Option.bind_eq_some_iff.mp (Option.some.inj hs)
    obtain ⟨q, rfl, hq⟩ := Option.bind_eq_some_iff.mp hget
    obtain ⟨m, hm, hmem⟩ := (Tree.get_eq_some_iff q d entry).mp hq
    have hentry : entry = .dir s := by
      cases entry with
      | leaf l => cases hasDir
      | dir es => exact congrArg Entry.dir (Option.some.inj hasDir)
    obtain rfl : n = m := Name.bytes_injective (hn.trans hm.symm)
    rw [← hentry] at hx
    exact ⟨q, rfl, List.mem_map_of_mem (Entry.mem_leavesIn.mpr ⟨(n, entry), hmem, hx⟩)⟩

theorem inFormat_built {source : AuthoredSource}
    (h : buildTree reserved (versionFiles schemaUrl v) parent source = some t)
    (hpaths : ∀ p ∈ t.paths, leafAllowed p = true) (hauthored : authoredViolation t = none) :
    mainViolation t = none := by
  have hmem : ("list.json".toList, listJson schemaUrl v) ∈ versionFiles schemaUrl v := by
    simp [versionFiles]
  rw [mainViolation_eq_none_iff]
  refine ⟨?_, (firstForeignPath_eq_none_iff t).mpr hpaths, hauthored⟩
  rw [get_generated h hmem]
  rfl

/-- A tree that carries the files of a parent in the format is in the format. -/
theorem inFormat_carried
    (h : buildTree reserved (versionFiles schemaUrl v) parent .carry = some t)
    (hparent : ∀ p, parent = some p → firstForeignPath p = none ∧ authoredViolation p = none) :
    mainViolation t = none := by
  apply inFormat_built h
  · intro p hp
    rcases mem_paths_carried h hp with hroot | ⟨q, hq, hpq⟩
    · exact (leafAllowed_iff p).mpr (Or.inl hroot)
    · exact (firstForeignPath_eq_none_iff q).mp (hparent q hq).1 p hpq
  · have hentries := authoredEntries_carried h
    cases parent with
    | none =>
      rw [authoredViolation, hentries]
      rfl
    | some p =>
      have hsame : authoredEntries t = authoredEntries p := hentries
      rw [authoredViolation, hsame]
      exact (hparent p rfl).2

theorem inFormat_plainScript
    (h : buildTree (fun _ => false) (versionFiles schemaUrl v) none
      (.replace PathDoors.plainScript) = some t) : mainViolation t = none := by
  have hentries := authoredEntries_built h
  have hsub : ∀ d ∈ authoredDirs, ∀ s,
      authoredSub (fun _ => false) none (.replace PathDoors.plainScript) d = some (some s) →
        d = "scripts".toList ∧ s = [(AuthoredDoors.scriptName, .leaf (.file false []))] := by
    intro d hd s hs
    simp only [authoredDirs, List.map_cons, List.map_nil, List.mem_cons, List.not_mem_nil,
      or_false] at hd
    rcases hd with rfl | rfl | rfl
    · exact ⟨rfl, (Option.some.inj (Option.some.inj hs)).symm⟩
    · cases hs
    · cases hs
  apply inFormat_built h
  · intro p hp
    rcases mem_paths_built h hp with hroot | ⟨d, hd, s, hs, n, hn, x, hx, rfl⟩
    · exact (leafAllowed_iff p).mpr (Or.inl hroot)
    · obtain ⟨rfl, rfl⟩ := hsub d hd s hs
      obtain rfl : n = AuthoredDoors.scriptsName := Name.bytes_injective hn
      obtain rfl := List.mem_singleton.mp hx
      decide
  · rw [authoredViolation, hentries]
    decide

/-- The git library takes the names of the format. -/
def NamesFree (reserved : Name → Bool) : Prop :=
  ∀ s ∈ rootFiles ++ authoredDirs, ∀ n : Name, n.bytes = utf8 s → reserved n = false

theorem writable_of_free (hfree : NamesFree reserved) :
    ∀ s ∈ rootFiles ++ authoredDirs, TreeBuilder.Writable reserved s := by
  have hall : ∀ s ∈ rootFiles ++ authoredDirs, (Name.ofBytes (utf8 s)).isSome = true := by decide
  intro s hs
  obtain ⟨n, hn⟩ := Option.isSome_iff_exists.mp (hall s hs)
  have hbytes := Name.ofBytes_eq_some.mp hn
  exact ⟨n, hbytes, hfree s hs n hbytes⟩

/-- A tree that carries the files of its parent over can always be built. -/
theorem buildTree_carried (hfree : NamesFree reserved) (schemaUrl : Text) (v : VersionData)
    (parent : Option Tree) :
    ∃ t, buildTree reserved (versionFiles schemaUrl v) parent .carry = some t := by
  have hwritable := writable_of_free hfree
  refine buildTree_of_writable (fun f hf => hwritable _ ?_) fun d hd => ⟨_, rfl, fun s hs => ?_⟩
  · exact List.mem_append_left _ (versionFiles_root schemaUrl v f hf)
  · refine ⟨hwritable d (List.mem_append_right _ hd), ?_⟩
    obtain ⟨entry, hget, hasDir⟩ := Option.bind_eq_some_iff.mp hs
    obtain ⟨p, -, hp⟩ := Option.bind_eq_some_iff.mp hget
    obtain ⟨n, -, hmem⟩ := (Tree.get_eq_some_iff p d entry).mp hp
    have hwell := p.entry_wellFormed hmem
    cases entry with
    | leaf l => cases hasDir
    | dir es =>
      obtain rfl : es = s := Option.some.inj hasDir
      exact hwell

end Setfork.CarriedTree
