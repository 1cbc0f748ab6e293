/- LostRepository
   digest: A repository that is gone comes back from the database commit for commit exactly when
   every version shows the columns that the list has now and brought no files of its own. -/
import Setfork.LostTags
import Setfork.RefRuns

set_option autoImplicit false
set_option relaxedAutoImplicit false

namespace Setfork.LostRepository

open Setfork.Foundation
open Setfork.Serialize
open Setfork.Rows
open Setfork.CanonMirror
open Setfork.Readme
open Setfork.TreeRule
open Setfork.Authored
open Setfork.VersionTree
open Setfork.CarriedTree
open Setfork.Repository
open Setfork.History
open Setfork.Alignment
open Setfork.WebVersion
open Setfork.Service
open Setfork.LostTags
open Setfork.RefRuns (held)
open Setfork.Writers (commitWebVersion_number)
open Setfork.ConcurrentWriters (sync_of_healthy)

/-- No file came to this tree beside its canon. -/
def Bare (t : Tree) : Prop := ∀ d ∈ authoredDirs, (t.get d).bind Entry.asDir = none

section Trees

variable {reserved : Name → Bool} {schemaUrl : Text} {v w : VersionData} {parent : Option Tree}
  {source : AuthoredSource} {t : Tree}

theorem carrySub_of_bare (h : ∀ p ∈ parent, Bare p) {d : Text} (hd : d ∈ authoredDirs) :
    authoredSub reserved parent .carry d = some none := by
  cases parent with
  | none => rfl
  | some p => exact congrArg some (h p rfl d hd)

theorem bare_iff (h : buildTree reserved (versionFiles schemaUrl v) parent source = some t) :
    Bare t ↔ ∀ d ∈ authoredDirs, authoredSub reserved parent source d = some none := by
  have hread : ∀ d ∈ authoredDirs,
      authoredSub reserved parent source d = some ((t.get d).bind Entry.asDir) := by
    intro d hd
    obtain ⟨o, ho⟩ := Option.isSome_iff_exists.mp (buildTree_sub_isSome h d hd)
    rw [ho, asDir_built h hd ho]
  constructor
  · intro hbare d hd
    rw [hread d hd, hbare d hd]
  · intro hnone d hd
    exact Option.some.inj ((hread d hd).symm.trans (hnone d hd))

private theorem foldlM_of_none {sub : Text → Option (Option Entries)} {dirs : List Text}
    (h : ∀ d ∈ dirs, sub d = some none) (es : Entries) :
    dirs.foldlM (putDir reserved sub) es = some es := by
  induction dirs with
  | nil => rfl
  | cons d dirs ih =>
    rw [List.foldlM_cons, putDir, h d List.mem_cons_self]
    exact ih fun c hc => h c (List.mem_cons_of_mem d hc)

theorem buildTree_of_none (h : ∀ d ∈ authoredDirs, authoredSub reserved parent source d = some none)
    (files : List (Text × Text)) : buildTree reserved files parent source =
      (TreeBuilder.putAll reserved Prod.fst
        (fun f : Text × Text => .leaf (.file false (utf8 f.2))) [] files).bind Tree.ofEntries := by
  unfold buildTree
  cases TreeBuilder.putAll reserved Prod.fst
    (fun f : Text × Text => Entry.leaf (.file false (utf8 f.2))) [] files with
  | none => rfl
  | some root => rw [Option.bind_some, Option.bind_some, foldlM_of_none h, Option.bind_some]

theorem built_again_iff {other : Option Tree}
    (h : buildTree reserved (versionFiles schemaUrl v) parent source = some t)
    (hother : ∀ p ∈ other, Bare p) :
    buildTree reserved (versionFiles schemaUrl w) other .carry = some t ↔ SameCanon v w ∧ Bare t := by
  have hcarry := fun d hd => @carrySub_of_bare reserved other hother d hd
  constructor
  · intro hagain
    have hv : ("list.json".toList, listJson schemaUrl v) ∈ versionFiles schemaUrl v := by
      simp [versionFiles]
    have hw : ("list.json".toList, listJson schemaUrl w) ∈ versionFiles schemaUrl w := by
      simp [versionFiles]
    have hget : t.get "list.json".toList = some (.leaf (.file false (utf8 (listJson schemaUrl v)))) :=
      get_generated h hv
    rw [show t.get "list.json".toList = _ from get_generated hagain hw] at hget
    have hbytes : utf8 (listJson schemaUrl w) = utf8 (listJson schemaUrl v) := by simpa using hget
    exact ⟨listJson_eq_iff.mp (utf8_injective hbytes.symm), (bare_iff hagain).mpr hcarry⟩
  · rintro ⟨hsame, hbare⟩
    rw [buildTree_of_none hcarry, ← versionFiles_of_sameCanon hsame,
      ← buildTree_of_none ((bare_iff h).mp hbare), h]

end Trees

/-- Every commit was made over the one before, from what its version was written with. -/
inductive Made (core : Core) : Option Commit → List WrittenVersion → Prop
  | nil (parent : Option Commit) : Made core parent []
  | cons {parent : Option Commit} {w : WrittenVersion} {ws : List WrittenVersion}
      (authored : AuthoredSource)
      (hcommit : commitVersion core parent w.data authored = some w.commit)
      (hrest : Made core (some w.commit) ws) : Made core parent (w :: ws)

section Commits

variable {core : Core} {refs : Refs} {s : ListState} {history : List WrittenVersion}
  {parent : Option Commit} {w : WrittenVersion}

theorem Made.append (h : Made core parent history) {authored : AuthoredSource}
    (hcommit : commitVersion core ((history.getLast?.map WrittenVersion.commit).or parent) w.data
      authored = some w.commit) : Made core parent (history ++ [w]) := by
  induction h with
  | nil parent => exact .cons authored hcommit (.nil _)
  | @cons parent v ws before hmade hrest ih =>
    refine .cons before hmade (ih ?_)
    rw [← hcommit]
    congr 1
    cases ws with
    | nil => rfl
    | cons u us =>
      rw [List.getLast?_cons_cons]
      obtain ⟨last, hlast⟩ := Option.isSome_iff_exists.mp
        (List.getLast?_isSome.mpr (List.cons_ne_nil u us))
      rw [hlast]
      rfl

theorem commit_of_created {f : WriteFaults} {v : VersionData} {authored : AuthoredSource} {c : Commit}
    (hinit : initWithVersion core f v authored = (refs, .ok (some c))) :
    commitVersion core none v authored = some c := by
  rcases appendVersionWith_cases core f ∅ v authored with
    ⟨parent, d, -, hmain, hcommit, -, -, happend⟩ | ⟨⟨e, he⟩, -⟩
  · rw [initWithVersion, happend] at hinit
    split_ifs at hinit
    · obtain ⟨-, hd⟩ := Prod.mk.inj hinit
      obtain rfl : d = c := Option.some.inj (Except.ok.inj hd)
      cases parent with
      | none => exact hcommit
      | some p => cases hmain
    · cases (Prod.mk.inj hinit).2
  · rw [initWithVersion, he] at hinit
    cases (Prod.mk.inj hinit).2

theorem made_of_written (h : Written core refs s history)
    (hfits : s.currentVersion ≤ 2147483647) : Made core none history := by
  induction h with
  | unborn => exact .nil none
  | created f column m note createdAt rows authored hinit =>
    exact .cons authored (commit_of_created hinit) (.nil _)
  | columns h hcurrent hrows ih => exact ih (hcurrent ▸ hfits)
  | @edited refs after s s' history n c f edit h hwrite hmain ih =>
    obtain ⟨last, hlast, hle, -⟩ := commitWebVersion_number f (.repo refs) s edit
    rw [hwrite] at hlast
    obtain rfl := Option.some.inj hlast
    have hledger := ledger_of_written h (hle.trans hfits)
    obtain ⟨hdisk, hlist⟩ := sync_of_healthy f.sync (hledger.healthy (hle.trans hfits))
    obtain ⟨parent, d, haccept, rfl, rfl, rfl⟩ := committed_of_ok hdisk hlist hwrite
    rw [AList.lookup_insert_ne (tagRef_ne_mainRef _).symm, AList.lookup_insert] at hmain
    obtain rfl : d = c := Target.commit.inj (Option.some.inj hmain)
    have hparent : (history.getLast?.map WrittenVersion.commit).or none = parent := by
      have hsame := hledger.main.symm.trans haccept.main
      cases hlast : history.getLast? with
      | none =>
        rw [hlast] at hsame
        cases parent with
        | none => rfl
        | some p => cases hsame
      | some top =>
        rw [hlast] at hsame
        cases parent with
        | none => cases hsame
        | some p => exact congrArg some (Target.commit.inj (Option.some.inj hsame))
    exact (ih (hle.trans hfits)).append (hparent ▸ haccept.commit)

theorem commit_again_iff {other : AuthoredSource}
    (hcommit : commitVersion core parent w.data other = some w.commit)
    (hparent : ∀ p ∈ parent, Bare p.tree) :
    commitVersion core parent (loadVersionData s w.record) .carry = some w.commit ↔
      Recognisable s w ∧ Bare w.commit.tree := by
  obtain ⟨t, htree, hc⟩ := Option.map_eq_some_iff.mp hcommit
  have hbare : ∀ p ∈ parent.map Commit.tree, Bare p := by
    intro p hp
    obtain ⟨c, hmem, rfl⟩ := Option.map_eq_some_iff.mp hp
    exact hparent c hmem
  have hbuilt := @built_again_iff core.reserved core.schemaUrl w.data (loadVersionData s w.record)
    (parent.map Commit.tree) other t (parent.map Commit.tree) htree hbare
  rw [← hc, commitVersion, Option.map_eq_some_iff, ← sameCanon_reloaded_iff]
  refine Iff.trans ?_ hbuilt
  constructor
  · rintro ⟨t', ht', heq⟩
    rwa [(Commit.mk.inj heq).1] at ht'
  · intro ht'
    exact ⟨t, ht', rfl⟩

theorem commitAll_again_iff (h : Made core parent history) (hparent : ∀ p ∈ parent, Bare p.tree) :
    commitAll core .carry parent (history.map fun w => loadVersionData s w.record) =
        some (history.map fun w => (w.version, w.commit)) ↔
      ∀ w ∈ history, Recognisable s w ∧ Bare w.commit.tree := by
  induction h with
  | nil parent => simp [commitAll]
  | @cons parent w ws authored hcommit hrest ih =>
    have hfirst := @commit_again_iff core s parent w authored hcommit hparent
    rw [List.forall_mem_cons, ← hfirst, List.map_cons, List.map_cons, commitAll]
    constructor
    · intro hall
      obtain ⟨c, hc, hlater⟩ := Option.bind_eq_some_iff.mp hall
      obtain ⟨made, hmade, heq⟩ := Option.map_eq_some_iff.mp hlater
      obtain ⟨hhead, rfl⟩ := List.cons.inj heq
      obtain rfl : c = w.commit := (Prod.mk.inj hhead).2
      refine ⟨hc, (ih ?_).mp hmade⟩
      rintro _ ⟨⟩
      exact (hfirst.mp hc).2
    · rintro ⟨hc, hall⟩
      have hmade := (ih (by rintro _ ⟨⟩; exact (hfirst.mp hc).2)).mpr hall
      rw [hc, Option.bind_some, hmade]
      rfl

end Commits

/-- Main and the version tags are as they were, and no other name is left. -/
def AsItWas (refs after : Refs) : Prop :=
  ∀ ref, after.lookup ref =
    if ref = mainRef ∨ (tagVersion ref).isSome = true then refs.lookup ref else none

/-- What the next call finds in the place of a repository that is gone. -/
def rebuilt (core : Core) (now : Int) (s : ListState) : Refs :=
  held (ensureRepo core (steady now) ⟨.absent, some s⟩).disk

section Rebuilding

variable {core : Core} {refs : Refs} {s : ListState} {history : List WrittenVersion}

theorem rebuilt_of_nothing (hrows : s.versions = []) (now : Int) : rebuilt core now s = ∅ := by
  have hread : (steady now).readRows = true := rfl
  have hload : loadBundleData s = [] := by rw [loadBundleData, hrows]; rfl
  simp only [rebuilt, ensureRepo, hread, hload]
  rfl

theorem rebuilt_eq (h : Ledger core refs s history) (hne : history ≠ []) (now : Int) :
    rebuilt core now s = (buildHistory core ⟨true, fun _ => true⟩ ∅
      (history.map fun w => loadVersionData s w.record) none .carry).1 := by
  have hsome : (history.map fun w => loadVersionData s w.record).isEmpty = false := by
    simpa using hne
  have hread : (steady now).readRows = true := rfl
  have hload : loadBundleData s = history.map fun w => loadVersionData s w.record := by
    have hcurrent := h.current
    have hmissing := @missingVersions_of_ledger core refs s history h 0 0 (by omega) (Or.inl rfl)
    rw [List.drop_zero] at hmissing
    rw [← hmissing, missingVersions, List.filter_eq_self.mpr]
    intro v hv
    obtain ⟨r, hr, rfl⟩ := mem_loadBundleData.mp hv
    rw [h.records] at hr
    obtain ⟨w, hw, rfl⟩ := List.mem_map.mp hr
    have hnumber := (h.number_of_mem hw).1
    have hversion : (loadVersionData s w.record).version = w.version := rfl
    rw [decide_eq_true_eq, hversion]
    omega
  simp only [rebuilt, ensureRepo, hread, hload, hsome, Bool.not_true, Bool.false_eq_true, if_false]
  rfl

theorem tagVersion_of_ledger (h : Ledger core refs s history) (hfits : s.currentVersion ≤ 2147483647)
    {w : WrittenVersion} (hw : w ∈ history) : (tagVersion w.ref).isSome = true := by
  have hnumber := h.number_of_mem hw
  have hcurrent := h.current
  obtain ⟨n, hn⟩ := Int.eq_ofNat_of_zero_le (show 0 ≤ w.version by omega)
  rw [WrittenVersion.ref, hn, tagVersion_of_fits (by omega)]
  rfl

theorem asItWas_of_made (h : Ledger core refs s history) (hfits : s.currentVersion ≤ 2147483647)
    {last : WrittenVersion} (hlast : history.getLast? = some last) :
    AsItWas refs (Refs.setAll (AList.insert mainRef (.commit last.commit) ∅)
      (versionMoves (history.map fun w => (w.version, w.commit)))) := by
  have hmoves : versionMoves (history.map fun w => (w.version, w.commit)) =
      history.map fun w => (w.ref, w.commit) := by
    rw [versionMoves, List.map_map]
    rfl
  intro ref
  rw [hmoves]
  by_cases hmem : ref ∈ (history.map fun w => (w.ref, w.commit)).map Prod.fst
  · obtain ⟨c, hc, hlookup⟩ := Refs.lookup_setAll_of_mem hmem
      (AList.insert mainRef (.commit last.commit) ∅)
    obtain ⟨w, hw, heq⟩ := List.mem_map.mp hc
    obtain ⟨rfl, rfl⟩ := Prod.mk.inj heq
    rw [hlookup, if_pos (Or.inr (tagVersion_of_ledger h hfits hw)), h.tags w hw]
  · rw [Refs.lookup_setAll_of_notMem hmem]
    by_cases hmain : ref = mainRef
    · rw [hmain, AList.lookup_insert, if_pos (Or.inl rfl), h.main, hlast]
      rfl
    · rw [AList.lookup_insert_ne hmain]
      split_ifs with hread
      · symm
        rw [AList.lookup_empty, AList.lookup_eq_none]
        intro href
        obtain ⟨w, hw, rfl⟩ := h.named ref href (hread.resolve_left hmain)
        rw [List.map_map] at hmem
        exact hmem (List.mem_map.mpr ⟨w, hw, rfl⟩)
      · rfl

theorem made_of_asItWas (h : Ledger core refs s history) (hfits : s.currentVersion ≤ 2147483647)
    {start : Refs} {made : List (Int × Commit)}
    (hversions : made.map Prod.fst = history.map WrittenVersion.version)
    (hsame : AsItWas refs (start.setAll (versionMoves made))) :
    made = history.map fun w => (w.version, w.commit) := by
  have hlength : made.length = history.length := by
    simpa using congrArg List.length hversions
  have hnumber : ∀ i (hi : i < made.length),
      made[i].1 = s.currentVersion - history.length + i + 1 := by
    intro i hi
    have hbound : i < history.length := hlength ▸ hi
    have hentry := List.getElem_of_eq hversions (show i < (made.map Prod.fst).length by simpa using hi)
    rw [List.getElem_map, List.getElem_map, h.numbers i hbound] at hentry
    exact hentry
  apply List.ext_getElem (by simpa using hlength)
  intro i hi hbound
  rw [List.length_map] at hbound
  rw [List.getElem_map]
  have hversion := h.numbers i hbound
  have hw := List.getElem_mem hbound
  have href : history[i].ref ∈ (versionMoves made).map Prod.fst := by
    rw [versionMoves, List.map_map]
    refine List.mem_map.mpr ⟨made[i], List.getElem_mem hi, ?_⟩
    rw [WrittenVersion.ref, hversion, ← hnumber i hi]
    rfl
  obtain ⟨c, hc, hlookup⟩ := Refs.lookup_setAll_of_mem href start
  obtain ⟨m, hm, heq⟩ := List.mem_map.mp hc
  obtain ⟨hname, rfl⟩ := Prod.mk.inj heq
  have hown := hsame history[i].ref
  rw [hlookup, if_pos (Or.inr (tagVersion_of_ledger h hfits hw)), h.tags _ hw] at hown
  have hcommit := Target.commit.inj (Option.some.inj hown)
  have hplace : m.1 = history[i].version := versionTag_injective (tagRef_injective hname)
  -- the numbers of the versions are distinct, so this is the commit at this place
  obtain ⟨j, hj, rfl⟩ := List.getElem_of_mem hm
  have hj' := hnumber j hj
  obtain rfl : j = i := by omega
  exact Prod.ext hplace hcommit

/-- A repository that is gone is built again as it was exactly when every version still shows the
columns of the list and has no files beside its canon. -/
theorem rebuilt_as_it_was_iff (h : Written core refs s history)
    (hfits : s.currentVersion ≤ 2147483647) (now : Int) :
    AsItWas refs (rebuilt core now s) ↔
      ∀ w ∈ history, Recognisable s w ∧ Bare w.commit.tree := by
  have hledger := ledger_of_written h hfits
  have hmade := made_of_written h hfits
  by_cases hne : history = []
  · subst hne
    refine iff_of_true (fun ref => ?_) fun w hw => absurd hw List.not_mem_nil
    rw [rebuilt_of_nothing hledger.records now]
    split_ifs with hname
    · symm
      rcases hname with rfl | hread
      · exact hledger.main
      · rw [AList.lookup_empty, AList.lookup_eq_none]
        intro href
        obtain ⟨w, hw, -⟩ := hledger.named ref href hread
        cases hw
    · rfl
  obtain ⟨last, hlast⟩ := Option.isSome_iff_exists.mp (List.getLast?_isSome.mpr hne)
  rw [rebuilt_eq hledger hne now, ← commitAll_again_iff hmade (by rintro _ ⟨⟩)]
  constructor
  · intro hsame
    have hmain := hsame mainRef
    rw [if_pos (Or.inl rfl), hledger.main, hlast] at hmain
    rcases buildHistory_cases core ⟨true, fun _ => true⟩ ∅
        (history.map fun w => loadVersionData s w.record) none .carry with
      hstay | ⟨made, tip, hall, -, -, -, hmoved⟩
    · rw [hstay] at hmain
      cases hmain
    · have hversions : made.map Prod.fst = history.map WrittenVersion.version := by
        rw [(commitAll_spec hall).1, List.map_map]
        rfl
      rw [hmoved, List.takeWhile_eq_self_iff.mpr fun _ _ => rfl] at hsame
      rw [hall, made_of_asItWas hledger hfits hversions hsame]
  · intro hall
    have htip : (history.map fun w => (w.version, w.commit)).getLast?.map Prod.snd =
        some last.commit := by
      rw [List.getLast?_map, hlast]
      rfl
    have hmoved : updateMain ∅ true last.commit none =
        .ok (AList.insert mainRef (.commit last.commit) ∅) :=
      updateMain_eq_ok_iff.mpr ⟨hledger.format last (List.mem_of_getLast? hlast), rfl,
        by rintro _ ⟨⟩, rfl, rfl⟩
    rw [buildHistory_of_moved hall htip hmoved, List.takeWhile_eq_self_iff.mpr fun _ _ => rfl]
    exact asItWas_of_made hledger hfits hlast

theorem bare_of_carried {parent : Option Commit} {v : VersionData} {c : Commit}
    (hparent : ∀ p ∈ parent, Bare p.tree) (h : commitVersion core parent v .carry = some c) :
    Bare c.tree := by
  obtain ⟨t, htree, rfl⟩ := Option.map_eq_some_iff.mp h
  have hbare : ∀ p ∈ parent.map Commit.tree, Bare p := by
    intro p hp
    obtain ⟨c, hmem, rfl⟩ := Option.map_eq_some_iff.mp hp
    exact hparent c hmem
  exact (bare_iff htree).mpr fun d hd => carrySub_of_bare hbare hd

end Rebuilding

def guideRows : List StepRow :=
  [Healing.markedRow true,
    imageRow (.obj [("ref".toList, .str "a.png".toList), ("caption".toList, .str "scheme".toList)])]

def sameAgain : WebEdit where
  note := "second".toList
  rows := guideRows
  patch := ⟨none, none, none, none⟩
  expectedVersion := none
  authored := none

def savedGuide : ListState := editedList (createList id plainMeta [] 0 guideRows) sameAgain 0

private theorem guideRows_stable : ∀ r ∈ guideRows, RowStable id r := by
  intro r hr
  rcases List.mem_cons.mp hr with rfl | hr
  · exact ⟨rfl, rfl, rfl, rfl, fun h => (by cases h), rfl, rfl, fun h => (by cases h)⟩
  · obtain rfl := List.mem_singleton.mp hr
    refine ⟨rfl, rfl, rfl, rfl, fun h => (by cases h), rfl, rfl, fun _ => ⟨?_, fun _ _ => rfl⟩⟩
    exact (Json.reorder_eq_self_iff jsonbRank _).mp rfl

/-- A list that was created with steps and saved once more under its title gets its repository
back. -/
theorem rebuilt_as_it_was_saved : ∃ refs history, Written canonCore refs savedGuide history ∧
    history.length = 2 ∧ AsItWas refs (rebuilt canonCore 0 savedGuide) := by
  have hnames : NamesFree canonCore.reserved := fun _ _ _ _ => rfl
  obtain ⟨first, c, hinit, -⟩ :=
    initWithVersion_carried hnames (createVersionData plainMeta [] 0 guideRows)
  have hfirst : Written canonCore first (createList id plainMeta [] 0 guideRows) _ :=
    .created ⟨true, fun _ => true⟩ id plainMeta [] 0 guideRows .carry hinit
  obtain ⟨refs, d, hsecond, hcommit⟩ := exists_edited hfirst (List.cons_ne_nil _ _) hnames (by decide)
    sameAgain rfl rfl
  refine ⟨refs, _, hsecond, rfl, ?_⟩
  apply (rebuilt_as_it_was_iff hsecond (by decide) 0).mpr
  have hborn : Bare c.tree := bare_of_carried (by rintro _ ⟨⟩) (commit_of_created hinit)
  have htitle : loc plainMeta.title = loc savedGuide.title.value := by decide
  intro w hw
  rcases List.mem_cons.mp hw with rfl | hw
  · exact ⟨⟨htitle, rfl, rfl, rfl, rfl, rfl, guideRows_stable⟩, hborn⟩
  · obtain rfl := List.mem_singleton.mp hw
    refine ⟨⟨?_, rfl, rfl, rfl, rfl, rfl, guideRows_stable⟩, bare_of_carried ?_ hcommit⟩
    · have hagain : loc (patchedMeta (createList id plainMeta [] 0 guideRows) sameAgain.patch).title =
          loc savedGuide.title.value := by decide
      exact hagain
    · rintro _ ⟨⟩
      exact hborn

end Setfork.LostRepository
