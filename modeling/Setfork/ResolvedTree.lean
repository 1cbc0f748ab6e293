/- ResolvedTree
   digest: The tree of a hand-resolved merge: the canon settled on, over the files of main. -/
import Setfork.PlacedFiles
import Setfork.ResolvedMerges

set_option autoImplicit false
set_option relaxedAutoImplicit false

namespace Setfork.ResolvedTree

open Setfork.Foundation
open Setfork.Project (RawList readmeFromCanon)
open Setfork.Readme (gitattributes)
open Setfork.Authored
open Setfork.Repository
open Setfork.Branches
open Setfork.History (canonCore)
open Setfork.PlacedFiles (canonTree_eq_some)
open Setfork.TreeRule (authoredDirs)
open Setfork.ResolvedMerges

def decidedNames : List Text := ["list.json", "README.md", ".gitattributes", "steps"].map String.toList

def Holds (es : Entries) (name : Text) (e : Entry) : Prop := ∃ n, n.bytes = utf8 name ∧ (n, e) ∈ es

theorem get_iff_holds {t : Tree} {name : Text} {e : Entry} :
    t.get name = some e ↔ Holds t.entries name e := Tree.get_eq_some_iff t name e

section Canon

variable {reserved : Name → Bool} {fromSlice : Bytes → Option RawList} {listJson : Bytes}
  {t u : Tree}

theorem holds_put {es fs : Entries} {name : Text} {entry : Entry}
    (h : TreeBuilder.put reserved es name entry = some fs) (other : Text) (e : Entry) :
    Holds fs other e ↔ (other = name ∧ e = entry) ∨ (other ≠ name ∧ Holds es other e) := by
  obtain ⟨n, hn, rfl⟩ := TreeBuilder.put_eq_some h
  have hname : ∀ m : Name, m.bytes = utf8 other → (m = n ↔ other = name) := by
    intro m hm
    constructor
    · rintro rfl
      exact utf8_injective (hm.symm.trans hn)
    · rintro rfl
      have hbytes : m.bytes = n.bytes := hm.trans hn.symm
      cases m
      cases n
      simpa using hbytes
  constructor
  · rintro ⟨m, hm, hmem⟩
    rcases TreeBuilder.mem_insert.mp hmem with heq | ⟨hmem, hne⟩
    · obtain ⟨rfl, rfl⟩ := Prod.mk.inj heq
      exact Or.inl ⟨(hname m hm).mp rfl, rfl⟩
    · exact Or.inr ⟨fun heq => hne ((hname m hm).mpr heq), m, hm, hmem⟩
  · rintro (⟨rfl, rfl⟩ | ⟨hne, m, hm, hmem⟩)
    · exact ⟨n, hn, TreeBuilder.mem_insert.mpr (Or.inl rfl)⟩
    · refine ⟨m, hm, TreeBuilder.mem_insert.mpr (Or.inr ⟨hmem, fun heq => ?_⟩)⟩
      exact hne ((hname m hm).mp heq)

private theorem holds_withoutSteps {gs : Entries} (other : Text) (e : Entry) :
    Holds (gs.filter (fun x => x.1.bytes ≠ utf8 "steps".toList)) other e ↔
      other ≠ "steps".toList ∧ Holds gs other e := by
  constructor
  · rintro ⟨m, hm, hmem⟩
    obtain ⟨hgs, hsteps⟩ := List.mem_filter.mp hmem
    refine ⟨?_, m, hm, hgs⟩
    rintro rfl
    exact of_decide_eq_true hsteps hm
  · rintro ⟨hne, m, hm, hmem⟩
    refine ⟨m, hm, List.mem_filter.mpr ⟨hmem, decide_eq_true fun hsteps => hne ?_⟩⟩
    exact utf8_injective (hm.symm.trans hsteps)

private theorem some_of_put {es fs : Entries} {name other : Text} {entry : Entry}
    {o : Option Entry} (h : TreeBuilder.put reserved es name entry = some fs)
    (ho : ∀ e, Holds es other e ↔ o = some e) (e : Entry) :
    Holds fs other e ↔ (if other = name then some entry else o) = some e := by
  rw [holds_put h, ho]
  by_cases hname : other = name
  · simp [hname, eq_comm]
  · simp [hname]

/-- What a canon over a tree has under each name: the last change of the name decides. -/
theorem canonTree_get (h : canonTree reserved fromSlice listJson t = some u) (name : Text) :
    u.get name =
      if name = "steps".toList then none
      else if name = ".gitattributes".toList then some (.leaf (.file false (utf8 gitattributes)))
      else
        match readmeFromCanon fromSlice listJson with
        | none =>
          if name = "list.json".toList then some (.leaf (.file false listJson)) else t.get name
        | some text =>
          if name = "README.md".toList then some (.leaf (.file false (utf8 text)))
          else if name = "list.json".toList then some (.leaf (.file false listJson))
          else t.get name := by
  obtain ⟨es, fs, gs, hes, hfs, hgs, hu⟩ := canonTree_eq_some h
  have hcanon := some_of_put hes fun e => (@get_iff_holds t name e).symm
  ext e
  rw [get_iff_holds, hu, holds_withoutSteps]
  by_cases hsteps : name = "steps".toList
  · rw [if_pos hsteps]
    exact iff_of_false (fun hne => hne.1 hsteps) (fun hnone => by cases hnone)
  rw [if_neg hsteps, and_iff_right hsteps]
  rcases hfs with ⟨hnone, rfl⟩ | ⟨text, hsome, hput⟩
  · rw [hnone]
    exact some_of_put hgs hcanon e
  · rw [hsome]
    exact some_of_put hgs (some_of_put hput hcanon) e

theorem canonTree_get_other (h : canonTree reserved fromSlice listJson t = some u) {name : Text}
    (hname : name ∉ decidedNames) : u.get name = t.get name := by
  simp only [decidedNames, List.map_cons, List.map_nil, List.mem_cons, List.not_mem_nil, or_false,
    not_or] at hname
  obtain ⟨hlist, hreadme, hattributes, hsteps⟩ := hname
  rw [canonTree_get h, if_neg hsteps, if_neg hattributes]
  cases readmeFromCanon fromSlice listJson with
  | none => exact if_neg hlist
  | some text => exact (if_neg hreadme).trans (if_neg hlist)

end Canon

/-- What a resolution makes of main: the canon that was settled on with its README and attributes,
nothing of the old form, and every other entry as it stood in main. -/
structure OverMain (fromSlice : Bytes → Option RawList) (listJson : Bytes) (ours merged : Tree) :
    Prop where
  canon : merged.get "list.json".toList = some (.leaf (.file false listJson))
  readme : merged.get "README.md".toList =
    match readmeFromCanon fromSlice listJson with
    | none => ours.get "README.md".toList
    | some text => some (.leaf (.file false (utf8 text)))
  attributes : merged.get ".gitattributes".toList =
    some (.leaf (.file false (utf8 gitattributes)))
  steps : merged.get "steps".toList = none
  others : ∀ name, name ∉ decidedNames → merged.get name = ours.get name

theorem overMain_canonTree {reserved : Name → Bool} {fromSlice : Bytes → Option RawList}
    {listJson : Bytes} {t u : Tree} (h : canonTree reserved fromSlice listJson t = some u) :
    OverMain fromSlice listJson t u := by
  constructor
  · rw [canonTree_get h, if_neg (by decide), if_neg (by decide)]
    cases readmeFromCanon fromSlice listJson with
    | none => exact if_pos rfl
    | some text => exact (if_neg (by decide)).trans (if_pos rfl)
  · rw [canonTree_get h, if_neg (by decide), if_neg (by decide)]
    cases readmeFromCanon fromSlice listJson with
    | none => exact if_neg (by decide)
    | some text => exact if_pos rfl
  · rw [canonTree_get h, if_neg (by decide), if_pos rfl]
  · rw [canonTree_get h, if_pos rfl]
  · exact fun name hname => canonTree_get_other h hname

theorem authoredDirs_not_decided : ∀ d ∈ authoredDirs, d ∉ decidedNames := by decide

/-- A hand-resolved merge, squashed or not, is the canon that was settled on over the tree of main:
the files of the author are the ones main had, whatever the branch did to them. -/
theorem resolution_keeps_files_of_main {reserved : Name → Bool}
    {fromSlice : Bytes → Option RawList} {written squash : Bool} {refs changed : Refs}
    {branch : Text} {listJson : Bytes} {stamp : Stamp}
    (h : mergeResolved reserved fromSlice written refs branch listJson squash stamp =
      .ok changed) :
    ∃ ours theirs merged, refs.lookup mainRef = some (.commit ours) ∧
      refs.lookup (branchRef branch) = some (.commit theirs) ∧
      changed = refs.insert mainRef
        (.commit (.mk merged (if squash then [ours] else [ours, theirs]) stamp)) ∧
      OverMain fromSlice listJson ours.tree merged ∧
      ∀ d ∈ authoredDirs, merged.get d = ours.tree.get d := by
  obtain ⟨ours, theirs, t, parents, hbranch, hmain, htree, hparents, -, hchanged⟩ :=
    mergeResolved_eq_ok h
  have hover := overMain_canonTree htree
  refine ⟨ours, theirs, t, hmain, hbranch, ?_, hover, fun d hd => ?_⟩
  · rw [hchanged, hparents]
  · exact hover.others d (authoredDirs_not_decided d hd)

/-- The branch brings a script; main has gone on without one. -/
def scriptCommit : Commit :=
  .mk (AuthoredDoors.scriptTree (utf8 "ls".toList)) [baseCommit] ⟨[], [], 1⟩

def scriptRefs : Refs :=
  AList.insert (branchRef "a".toList) (.commit scriptCommit)
    (AList.insert mainRef (.commit (sideCommit 2)) ∅)

theorem scripts_of_sides : baseCommit.tree.get "scripts".toList = none ∧
    (sideCommit 2).tree.get "scripts".toList = none ∧
    (scriptCommit.tree.get "scripts".toList).isSome = true := by
  refine ⟨rfl, rfl, rfl⟩

theorem script_resolvable : Resolvable canonCore oneResolution "a".toList scriptRefs := by
  have hmain : scriptRefs.lookup mainRef = some (.commit (sideCommit 2)) := by
    rw [scriptRefs, AList.lookup_insert_ne (by decide), AList.lookup_insert]
  have hbranch : scriptRefs.lookup (branchRef "a".toList) = some (.commit scriptCommit) :=
    AList.lookup_insert _
  have hdifferent : sideCommit 2 ≠ scriptCommit := by
    intro heq
    have hstamp := congrArg Commit.stamp heq
    exact absurd hstamp (by decide)
  obtain ⟨text, htext⟩ := oneResolution_readme
  exact ⟨by decide, rfl, sideCommit 2, scriptCommit, _, hmain, hbranch, hdifferent,
    canonTree_listTree _ oneStep htext, showcase_violation _ _ _⟩

theorem resolution_keeps_files_of_main_script :
    ∃ changed, oneResolution.merge canonCore "a".toList scriptRefs = .ok changed ∧
      ∃ ours theirs merged, scriptRefs.lookup mainRef = some (.commit ours) ∧
        scriptRefs.lookup (branchRef "a".toList) = some (.commit theirs) ∧
        changed = scriptRefs.insert mainRef (.commit (.mk merged
          (if oneResolution.squash then [ours] else [ours, theirs]) oneResolution.stamp)) ∧
        OverMain canonCore.parser.fromSlice oneResolution.listJson ours.tree merged ∧
        ∀ d ∈ authoredDirs, merged.get d = ours.tree.get d := by
  obtain ⟨changed, hmerge⟩ := merge_succeeds_iff.mpr script_resolvable
  exact ⟨changed, hmerge, resolution_keeps_files_of_main hmerge⟩

/-- The branch is merged, and its script is not in main. -/
theorem resolution_drops_the_script : ∃ changed merged,
    oneResolution.merge canonCore "a".toList scriptRefs = .ok changed ∧
    changed.lookup mainRef = some (.commit merged) ∧ merged.IsParent scriptCommit ∧
    (sideCommit 2).IsParent baseCommit ∧ scriptCommit.IsParent baseCommit ∧
    (sideCommit 2).tree.get "scripts".toList = baseCommit.tree.get "scripts".toList ∧
    scriptCommit.tree.get "scripts".toList ≠ baseCommit.tree.get "scripts".toList ∧
    merged.tree.get "scripts".toList ≠ scriptCommit.tree.get "scripts".toList := by
  obtain ⟨changed, hmerge⟩ := merge_succeeds_iff.mpr script_resolvable
  obtain ⟨ours, theirs, t, parents, hbranch, hmain, htree, hparents, -, hchanged⟩ :=
    mergeResolved_eq_ok hmerge
  obtain ⟨hbase, hside, hscript⟩ := scripts_of_sides
  have hours : ours = sideCommit 2 := by
    rw [scriptRefs, AList.lookup_insert_ne (by decide), AList.lookup_insert] at hmain
    exact (Target.commit.inj (Option.some.inj hmain)).symm
  have htheirs : theirs = scriptCommit := by
    rw [scriptRefs, AList.lookup_insert] at hbranch
    exact (Target.commit.inj (Option.some.inj hbranch)).symm
  have hnone : t.get "scripts".toList = none := by
    rw [canonTree_get_other htree (by decide), hours, hside]
  have hpresent : scriptCommit.tree.get "scripts".toList ≠ none := by
    intro hnone
    rw [hnone] at hscript
    cases hscript
  refine ⟨changed, .mk t parents oneResolution.stamp, hmerge, ?_, ?_, List.mem_singleton_self _,
    List.mem_singleton_self _, hside.trans hbase.symm, ?_, ?_⟩
  · rw [hchanged, AList.lookup_insert]
  · rw [hparents, ← htheirs]
    exact List.mem_cons_of_mem ours (List.mem_singleton_self theirs)
  · rw [hbase]
    exact hpresent
  · rw [Commit.tree, hnone]
    exact hpresent.symm

end Setfork.ResolvedTree
