/- LostTags
   digest: Version tags that were lost come back to their own commits exactly when the columns of
   the list are still the ones those versions were written with. -/
import Setfork.CarriedTree
import Setfork.ConcurrentWriters
import Setfork.Convergence

set_option autoImplicit false
set_option relaxedAutoImplicit false

namespace Setfork.LostTags

open Setfork.Foundation
open Setfork.Serialize
open Setfork.Rows
open Setfork.CanonMirror
open Setfork.Readme
open Setfork.TreeRule
open Setfork.Authored
open Setfork.VersionTree
open Setfork.CarriedTree
open Setfork.Repository
open Setfork.History
open Setfork.Alignment
open Setfork.WebVersion
open Setfork.Healing (Agree Ready plainWrite)
open Setfork.Writers (commitWebVersion_synced commitWebVersion_number)
open Setfork.ConcurrentWriters (Healthy maxTagIn_of_untagged sync_of_healthy)

theorem blockType_of_sameStep {s t : SerStep} (h : SameStep s t) (hblock : isStepBlock s = false) :
    s.blockType = t.blockType := by
  have hother : isStepBlock t = false := h.isStep ▸ hblock
  have hname := h.blockType hblock
  cases hs : s.blockType with
  | none => simp [isStepBlock, hs] at hblock
  | some x =>
    cases ht : t.blockType with
    | none => simp [isStepBlock, ht] at hother
    | some y =>
      rw [hs, ht] at hname
      exact congrArg some hname

theorem blockLines_of_sameStep {s t : SerStep} (h : SameStep s t) (hblock : isStepBlock s = false) :
    blockLines s = blockLines t := by
  simp only [blockLines, blockType_of_sameStep h hblock, h.content hblock, h.refs]

theorem stepLines_of_sameStep {s t : SerStep} (h : SameStep s t) (marker : Text) :
    stepLines marker s = stepLines marker t := by
  simp only [stepLines, h.level, h.title, h.desc, h.command, h.why, h.subtasks, h.refs]

theorem bodyLines_of_sameSteps {steps others : List SerStep}
    (h : List.Forall₂ SameStep steps others) (ordered : Bool) (section_ : Text) (number : Nat) :
    bodyLines ordered section_ number steps = bodyLines ordered section_ number others := by
  induction h generalizing section_ number with
  | nil => rfl
  | @cons s t steps others hst _ ih =>
    cases hblock : isStepBlock s with
    | false =>
      have hother : isStepBlock t = false := hst.isStep ▸ hblock
      simp only [bodyLines, hblock, hother, Bool.not_false, if_true]
      rw [blockLines_of_sameStep hst hblock, ih]
    | true =>
      have hother : isStepBlock t = true := hst.isStep ▸ hblock
      simp only [bodyLines, hblock, hother, Bool.not_true, Bool.false_eq_true, if_false, hst.section_]
      rw [stepLines_of_sameStep hst, ih]

theorem stepCount_of_sameSteps {steps others : List SerStep}
    (h : List.Forall₂ SameStep steps others) :
    (steps.filter isStepBlock).length = (others.filter isStepBlock).length := by
  induction h with
  | nil => rfl
  | @cons s t steps others hst _ ih =>
    rw [List.filter_cons, List.filter_cons, hst.isStep]
    split_ifs
    · rw [List.length_cons, List.length_cons, ih]
    · exact ih

theorem readme_of_sameCanon {v w : VersionData} (h : SameCanon v w) : readme v = readme w := by
  have hlines : readmeLines v = readmeLines w := by
    simp only [readmeLines, h.title, h.desc, h.tags, h.ordered, h.version,
      stepCount_of_sameSteps h.steps, bodyLines_of_sameSteps h.steps]
  rw [readme, readme, hlines]

theorem versionFiles_of_sameCanon {schemaUrl : Text} {v w : VersionData} (h : SameCanon v w) :
    versionFiles schemaUrl v = versionFiles schemaUrl w := by
  rw [versionFiles, versionFiles, readme_of_sameCanon h, listJson_eq_iff.mpr h]

private theorem foldlM_putDir_congr {reserved : Name → Bool}
    {sub sub' : Text → Option (Option Entries)} {dirs : List Text} (h : ∀ d ∈ dirs, sub d = sub' d)
    (es : Entries) : dirs.foldlM (putDir reserved sub) es = dirs.foldlM (putDir reserved sub') es := by
  induction dirs generalizing es with
  | nil => rfl
  | cons d dirs ih =>
    have hput : putDir reserved sub es d = putDir reserved sub' es d := by
      rw [putDir, putDir, h d List.mem_cons_self]
    rw [List.foldlM_cons, List.foldlM_cons, hput]
    congr 1
    funext mid
    exact ih (fun c hc => h c (List.mem_cons_of_mem d hc)) mid

theorem rebuilt_iff {reserved : Name → Bool} {schemaUrl : Text} {v w : VersionData}
    {parent : Option Tree} {source : AuthoredSource} {t : Tree}
    (h : buildTree reserved (versionFiles schemaUrl v) parent source = some t) :
    buildTree reserved (versionFiles schemaUrl w) (some t) .carry = some t ↔ SameCanon v w := by
  constructor
  · intro hagain
    have hv : ("list.json".toList, listJson schemaUrl v) ∈ versionFiles schemaUrl v := by
      simp [versionFiles]
    have hw : ("list.json".toList, listJson schemaUrl w) ∈ versionFiles schemaUrl w := by
      simp [versionFiles]
    have hget : t.get "list.json".toList = some (.leaf (.file false (utf8 (listJson schemaUrl v)))) :=
      get_generated h hv
    rw [show t.get "list.json".toList = _ from get_generated hagain hw] at hget
    have hbytes : utf8 (listJson schemaUrl w) = utf8 (listJson schemaUrl v) := by simpa using hget
    exact listJson_eq_iff.mp (utf8_injective hbytes.symm)
  · intro hsame
    have hsub : ∀ d ∈ authoredDirs,
        authoredSub reserved (some t) .carry d = authoredSub reserved parent source d := by
      intro d hd
      obtain ⟨o, ho⟩ := Option.isSome_iff_exists.mp (buildTree_sub_isSome h d hd)
      rw [ho]
      exact congrArg some (asDir_built h hd ho)
    rw [← versionFiles_of_sameCanon hsame]
    conv_rhs => rw [← h]
    simp only [buildTree, foldlM_putDir_congr hsub]

structure WrittenVersion where
  version : Int
  columns : ListMeta
  note : Text
  createdAt : Int
  rows : List StepRow
  commit : Commit

namespace WrittenVersion

def data (w : WrittenVersion) : VersionData :=
  webVersionData w.columns w.version w.note w.createdAt w.rows

def record (w : WrittenVersion) : VersionRecord :=
  ⟨w.version, w.note, w.createdAt, insertStepRows w.rows⟩

def ref (w : WrittenVersion) : Text := tagRef (versionTag w.version)

theorem ref_inj {w v : WrittenVersion} : w.ref = v.ref ↔ w.version = v.version :=
  (tagRef_injective.comp versionTag_injective).eq_iff

theorem ref_ne_main (w : WrittenVersion) : w.ref ≠ mainRef := tagRef_ne_mainRef _

end WrittenVersion

/-- A list whose versions are web writes, one after another: it starts without versions or with the
version of its birth, and its columns may change in between. -/
inductive Written (core : Core) : Refs → ListState → List WrittenVersion → Prop
  | unborn {refs : Refs} {s : ListState} (hstart : 0 ≤ s.currentVersion ∧ s.currentVersion ≤ 1)
      (hrows : s.versions = []) (hmain : refs.lookup mainRef = none)
      (htags : ∀ ref ∈ refs, tagVersion ref = none) : Written core refs s []
  | created {refs : Refs} {c : Commit} (f : WriteFaults) (column : Json.Number → Json.Number)
      (m : ListMeta) (note : Text) (createdAt : Int) (rows : List StepRow) (authored : AuthoredSource)
      (hinit : initWithVersion core f (createVersionData m note createdAt rows) authored =
        (refs, .ok (some c))) :
      Written core refs (createList column m note createdAt rows)
        [⟨1, { m with kind := none }, note, createdAt, rows, c⟩]
  | columns {refs : Refs} {s s' : ListState} {history : List WrittenVersion}
      (h : Written core refs s history) (hcurrent : s'.currentVersion = s.currentVersion)
      (hrows : s'.versions = s.versions) : Written core refs s' history
  | edited {refs after : Refs} {s s' : ListState} {history : List WrittenVersion} {n : Int}
      {c : Commit} (f : WebFaults) (edit : WebEdit) (h : Written core refs s history)
      (hwrite : commitWebVersion core f (.repo refs) (some s) edit = ⟨.repo after, some s', .ok n⟩)
      (hmain : after.lookup mainRef = some (.commit c)) :
      Written core after s' (history ++
        [⟨n, patchedMeta s edit.patch, edit.note, f.createdAt, edit.rows, c⟩])

structure Ledger (core : Core) (refs : Refs) (s : ListState) (history : List WrittenVersion) :
    Prop where
  current : (history.length : Int) ≤ s.currentVersion ∧ s.currentVersion ≤ history.length + 1
  records : s.versions = history.map WrittenVersion.record
  numbers : ∀ i (hi : i < history.length),
    history[i].version = s.currentVersion - history.length + i + 1
  chain : history.IsChain (fun old new => new.commit.parents.head? = some old.commit)
  built : ∀ w ∈ history, ∃ parent authored,
    buildTree core.reserved (versionFiles core.schemaUrl w.data) parent authored =
      some w.commit.tree
  format : ∀ w ∈ history, mainViolation w.commit.tree = none
  main : refs.lookup mainRef = history.getLast?.map (fun w => .commit w.commit)
  tags : ∀ w ∈ history, refs.lookup w.ref = some (.commit w.commit)
  named : ∀ ref ∈ refs, (tagVersion ref).isSome = true → ∃ w ∈ history, ref = w.ref

section Ledger

variable {core : Core} {refs : Refs} {s : ListState} {history : List WrittenVersion}

theorem Ledger.number_of_mem (h : Ledger core refs s history) {w : WrittenVersion}
    (hw : w ∈ history) : s.currentVersion - history.length < w.version ∧
      w.version ≤ s.currentVersion := by
  obtain ⟨i, hi, rfl⟩ := List.getElem_of_mem hw
  have hnumber := h.numbers i hi
  omega

theorem maxTagIn_of_named {n : Nat} (hfits : n ≤ 2147483647)
    (hnamed : ∀ ref ∈ refs, (tagVersion ref).isSome = true → ∃ w ∈ history, ref = w.ref)
    (hle : ∀ w ∈ history, w.version ≤ n) (htop : ∃ w ∈ history, w.version = n ∧ w.ref ∈ refs) :
    maxTagIn refs = n := by
  obtain ⟨top, -, hn, hmem⟩ := htop
  apply maxTagIn_unique
  · intro ref href k hk
    obtain ⟨w, hw, rfl⟩ := hnamed ref href (by rw [hk]; rfl)
    have hversion := tagVersion_versionTag hk
    have hbound := hle w hw
    omega
  · refine ⟨top.ref, hmem, ?_⟩
    rw [WrittenVersion.ref, hn]
    exact tagVersion_of_fits hfits

theorem Ledger.append (h : Ledger core refs s history) {s' : ListState} {w : WrittenVersion}
    {parent : Option Commit} {authored : AuthoredSource}
    (hcurrent : s'.currentVersion = s.currentVersion + 1)
    (hrows : s'.versions = s.versions ++ [w.record]) (hversion : w.version = s.currentVersion + 1)
    (hmain : refs.lookup mainRef = parent.map .commit)
    (hcommit : commitVersion core parent w.data authored = some w.commit)
    (hformat : mainViolation w.commit.tree = none) :
    Ledger core ((refs.insert mainRef (.commit w.commit)).insert w.ref (.commit w.commit)) s'
      (history ++ [w]) := by
  have hbefore := h.current
  obtain ⟨t, htree, hc⟩ := Option.map_eq_some_iff.mp hcommit
  have hparents : w.commit.parents = parent.toList := by rw [← hc]; rfl
  have hparent : parent = history.getLast?.map WrittenVersion.commit := by
    have hboth := hmain.symm.trans h.main
    cases hlast : history.getLast? with
    | none =>
      rw [hlast] at hboth
      exact Option.map_eq_none_iff.mp hboth
    | some last =>
      rw [hlast] at hboth
      obtain ⟨p, hp, heq⟩ := Option.map_eq_some_iff.mp hboth
      rw [hp, Target.commit.inj heq]
      rfl
  have hother : ∀ v ∈ history, v.ref ≠ w.ref := by
    intro v hv heq
    have hbound := (h.number_of_mem hv).2
    rw [WrittenVersion.ref_inj] at heq
    omega
  refine ⟨?_, ?_, ?_, ?_, ?_, ?_, ?_, ?_, ?_⟩
  · rw [hcurrent, List.length_append, List.length_singleton]
    omega
  · rw [hrows, h.records]
    simp
  · intro i hi
    rcases Nat.lt_or_ge i history.length with hold | hnew
    · rw [List.getElem_append_left hold, h.numbers i hold, hcurrent, List.length_append,
        List.length_singleton]
      omega
    · have hlast : i = history.length := by
        simp only [List.length_append, List.length_singleton] at hi
        omega
      subst hlast
      rw [List.getElem_append_right le_rfl, hcurrent, List.length_append, List.length_singleton]
      simp only [Nat.sub_self, List.getElem_cons_zero]
      omega
  · apply List.IsChain.append h.chain (List.isChain_singleton w)
    intro last hlast new hnew
    obtain rfl : w = new := Option.some.inj hnew
    rw [hparents, hparent, Option.mem_def.mp hlast]
    rfl
  · intro v hv
    rcases List.mem_append.mp hv with hv | hv
    · exact h.built v hv
    · rw [List.mem_singleton.mp hv, ← hc]
      exact ⟨_, _, htree⟩
  · intro v hv
    rcases List.mem_append.mp hv with hv | hv
    · exact h.format v hv
    · rw [List.mem_singleton.mp hv]
      exact hformat
  · rw [AList.lookup_insert_ne w.ref_ne_main.symm, AList.lookup_insert]
    simp
  · intro v hv
    rcases List.mem_append.mp hv with hv | hv
    · rw [AList.lookup_insert_ne (hother v hv), AList.lookup_insert_ne v.ref_ne_main]
      exact h.tags v hv
    · rw [List.mem_singleton.mp hv]
      exact AList.lookup_insert _
  · intro ref href hread
    rcases (AList.mem_insert _).mp href with rfl | href
    · exact ⟨w, List.mem_append_right _ (List.mem_singleton_self w), rfl⟩
    · rcases (AList.mem_insert _).mp href with rfl | href
      · rw [tagVersion_mainRef] at hread
        cases hread
      · obtain ⟨v, hv, heq⟩ := h.named ref href hread
        exact ⟨v, List.mem_append_left _ hv, heq⟩

theorem Ledger.highest (h : Ledger core refs s history) (hfits : s.currentVersion ≤ 2147483647)
    (hne : history ≠ []) : (maxTagIn refs : Int) = s.currentVersion := by
  have hlength : 0 < history.length := List.length_pos_iff.mpr hne
  have hcurrent := h.current
  obtain ⟨n, hn⟩ := Int.eq_ofNat_of_zero_le (show 0 ≤ s.currentVersion by omega)
  have hmax : maxTagIn refs = n := by
    apply maxTagIn_of_named (by omega) h.named (fun w hw => hn ▸ (h.number_of_mem hw).2)
    have hbound : history.length - 1 < history.length := by omega
    have hlast := h.numbers (history.length - 1) hbound
    have hmem := List.getElem_mem hbound
    refine ⟨history[history.length - 1], hmem, by omega, ?_⟩
    rw [← AList.lookup_isSome, h.tags _ hmem]
    rfl
  rw [hmax, hn]

/-- The last version has main and the tag of the current version. -/
theorem Ledger.tip (h : Ledger core refs s history) {last : WrittenVersion}
    (hlast : history.getLast? = some last) : refs.lookup mainRef = some (.commit last.commit) ∧
      refs.lookup (tagRef (versionTag s.currentVersion)) = some (.commit last.commit) ∧
      0 < s.currentVersion := by
  obtain ⟨front, rfl⟩ := List.getLast?_eq_some_iff.mp hlast
  have hcurrent := h.current
  have hnumber := h.numbers front.length (by simp)
  have hversion : last.version = s.currentVersion := by
    simp only [List.getElem_append_right le_rfl, Nat.sub_self, List.getElem_cons_zero,
      List.length_append, List.length_singleton] at hnumber
    omega
  refine ⟨?_, ?_, ?_⟩
  · rw [h.main, hlast]
    rfl
  · rw [← hversion]
    exact h.tags last (List.mem_append_right _ (List.mem_singleton_self last))
  · rw [List.length_append, List.length_singleton] at hcurrent
    omega

theorem Ledger.rows (h : Ledger core refs s history) :
    ∀ r ∈ s.versions, r.version ≤ s.currentVersion := by
  intro r hr
  rw [h.records] at hr
  obtain ⟨w, hw, rfl⟩ := List.mem_map.mp hr
  exact (h.number_of_mem hw).2

theorem Ledger.agree (h : Ledger core refs s history) (hfits : s.currentVersion ≤ 2147483647)
    {last : WrittenVersion} (hlast : history.getLast? = some last) : Agree refs s := by
  obtain ⟨hmain, htag, hborn⟩ := h.tip hlast
  have hne := List.ne_nil_of_mem (List.mem_of_getLast? hlast)
  exact ⟨hborn, h.highest hfits hne, ⟨last.commit, hmain, htag⟩, h.rows⟩

theorem Ledger.healthy (h : Ledger core refs s history) (hfits : s.currentVersion ≤ 2147483647) :
    Healthy core (history.getLast?.map WrittenVersion.commit) refs s := by
  cases hlast : history.getLast? with
  | none =>
    obtain rfl : history = [] := List.getLast?_eq_none_iff.mp hlast
    refine ⟨h.current.1, h.records, fun ref href => ?_⟩
    by_contra hread
    obtain ⟨w, hw, -⟩ := h.named ref href (Option.isSome_iff_ne_none.mpr hread)
    cases hw
  | some last =>
    obtain ⟨hmain, htag, hborn⟩ := h.tip hlast
    have hne := List.ne_nil_of_mem (List.mem_of_getLast? hlast)
    exact ⟨hborn, h.rows, h.highest hfits hne, htag, last.commit, hmain, .refl, Or.inl rfl⟩

theorem committed_of_ok {f : WebFaults} {edit : WebEdit} {after : Refs} {s' : ListState} {n : Int}
    (hdisk : (syncRepoWithDb core f.sync (.repo refs) (some s)).disk = .repo refs)
    (hlist : (syncRepoWithDb core f.sync (.repo refs) (some s)).list = some s)
    (hwrite : commitWebVersion core f (.repo refs) (some s) edit = ⟨.repo after, some s', .ok n⟩) :
    ∃ parent c, Acceptable core refs s edit f.createdAt parent c ∧ n = s.currentVersion + 1 ∧
      s' = editedList s edit f.createdAt ∧
      after = (refs.insert mainRef (.commit c)).insert
        (tagRef (versionTag (s.currentVersion + 1))) (.commit c) := by
  rcases commitWebVersion_synced core f edit hdisk hlist with ⟨e, he⟩ | hwritten
  · rw [he] at hwrite
    cases congrArg WebWrite.outcome hwrite
  · rw [hwritten] at hwrite
    rcases writeVersion_cases core f refs s edit with
      ⟨⟨e, he⟩, -⟩ | ⟨parent, c, haccept, -, -, hmoved⟩
    · rw [he] at hwrite
      cases congrArg WebWrite.outcome hwrite
    · rw [hwrite] at hmoved
      rcases hmoved with ⟨-, -, -, herror⟩ | ⟨-, hrefs, hrows, hok⟩
      · cases herror
      · cases htail : f.tail with
        | done =>
          rw [htail] at hrows hok
          exact ⟨parent, c, haccept, Except.ok.inj hok, Option.some.inj hrows, Disk.repo.inj hrefs⟩
        | failed =>
          rw [htail] at hok
          cases hok
        | lost =>
          rw [htail] at hok
          cases hok

theorem ledger_of_nothing (hstart : 0 ≤ s.currentVersion ∧ s.currentVersion ≤ 1)
    (hrows : s.versions = []) (hmain : refs.lookup mainRef = none) (htags : ∀ ref ∈ refs, tagVersion ref = none) :
    Ledger core refs s [] := by
  refine ⟨by simpa using hstart, hrows, ?_, List.IsChain.nil, ?_, ?_, hmain, ?_, ?_⟩
  · exact fun i hi => absurd hi (Nat.not_lt_zero i)
  · exact fun w hw => absurd hw List.not_mem_nil
  · exact fun w hw => absurd hw List.not_mem_nil
  · exact fun w hw => absurd hw List.not_mem_nil
  · intro ref href hread
    rw [htags ref href] at hread
    cases hread

theorem ledger_of_created {f : WriteFaults} {column : Json.Number → Json.Number} {m : ListMeta} {note : Text} {createdAt : Int}
    {rows : List StepRow} {authored : AuthoredSource} {c : Commit}
    (hinit : initWithVersion core f (createVersionData m note createdAt rows) authored =
      (refs, .ok (some c))) :
    Ledger core refs (createList column m note createdAt rows)
      [⟨1, { m with kind := none }, note, createdAt, rows, c⟩] := by
  have hempty : Ledger core ∅
      { createList column m note createdAt rows with currentVersion := 0, versions := [] } [] :=
    ledger_of_nothing ⟨le_rfl, Int.one_nonneg⟩ rfl rfl fun ref href => absurd href (AList.notMem_empty ref)
  rcases appendVersionWith_cases core f ∅ (createVersionData m note createdAt rows) authored with
    ⟨parent, d, -, hmain, hcommit, hformat, -, happend⟩ | ⟨⟨e, he⟩, -⟩
  · rw [initWithVersion, happend] at hinit
    split_ifs at hinit
    · obtain ⟨rfl, hd⟩ := Prod.mk.inj hinit
      obtain rfl : d = c := Option.some.inj (Except.ok.inj hd)
      exact @Ledger.append core ∅ _ [] hempty (createList column m note createdAt rows)
        ⟨1, { m with kind := none }, note, createdAt, rows, d⟩ parent authored rfl rfl rfl hmain
        hcommit hformat
    · cases (Prod.mk.inj hinit).2
  · rw [initWithVersion, he] at hinit
    cases (Prod.mk.inj hinit).2

theorem ledger_of_written (h : Written core refs s history)
    (hfits : s.currentVersion ≤ 2147483647) : Ledger core refs s history := by
  induction h with
  | unborn hstart hrows hmain htags =>
    exact ledger_of_nothing hstart hrows hmain htags
  | created f column m note createdAt rows authored hinit => exact ledger_of_created hinit
  | columns h hcurrent hrows ih =>
    have hledger := ih (hcurrent ▸ hfits)
    exact { hledger with
      current := hcurrent ▸ hledger.current
      numbers := hcurrent ▸ hledger.numbers
      records := hrows.trans hledger.records }
  | @edited refs after s s' history n c f edit h hwrite hmain ih =>
    obtain ⟨last, hlast, hle, -⟩ := commitWebVersion_number f (.repo refs) s edit
    rw [hwrite] at hlast
    obtain rfl := Option.some.inj hlast
    have hledger := ih (hle.trans hfits)
    obtain ⟨hdisk, hlist⟩ := sync_of_healthy f.sync (hledger.healthy (hle.trans hfits))
    obtain ⟨parent, d, haccept, rfl, rfl, rfl⟩ := committed_of_ok hdisk hlist hwrite
    rw [AList.lookup_insert_ne (tagRef_ne_mainRef _).symm, AList.lookup_insert] at hmain
    obtain rfl : d = c := Target.commit.inj (Option.some.inj hmain)
    exact @Ledger.append core refs s history hledger (editedList s edit f.createdAt)
      ⟨s.currentVersion + 1, patchedMeta s edit.patch, edit.note, f.createdAt, edit.rows, d⟩ parent
      edit.source rfl rfl rfl haccept.main haccept.commit haccept.format

end Ledger

def dropTags (refs : Refs) (current : Int) : Nat → Refs
  | 0 => refs
  | k + 1 => (dropTags refs current k).erase (tagRef (versionTag (current - k)))

theorem lookup_dropTags_of_lost (refs : Refs) (current : Int) {k i : Nat} (hi : i < k) :
    (dropTags refs current k).lookup (tagRef (versionTag (current - i))) = none := by
  induction k with
  | zero => exact absurd hi (Nat.not_lt_zero i)
  | succ k ih =>
    rw [dropTags]
    by_cases hlast : i = k
    · rw [hlast, AList.lookup_erase]
    · rw [AList.lookup_erase_ne]
      · exact ih (by omega)
      · intro heq
        have hnumber := versionTag_injective (tagRef_injective heq)
        omega

theorem lookup_dropTags_of_kept (refs : Refs) (current : Int) {k : Nat} {ref : Text}
    (h : ∀ i < k, ref ≠ tagRef (versionTag (current - i))) :
    (dropTags refs current k).lookup ref = refs.lookup ref := by
  induction k with
  | zero => rfl
  | succ k ih =>
    rw [dropTags, AList.lookup_erase_ne (h k (Nat.lt_succ_self k))]
    exact ih fun i hi => h i (Nat.lt_succ_of_lt hi)

/-- After the loss of the last tags an alignment leaves the references as they were before: every
tag on its own commit, main in its place, and no new commit. -/
def Restored (core : Core) (now : Int) (refs : Refs) (s : ListState) (k : Nat) : Prop :=
  ∃ after, (syncRepoWithDb core (steady now) (.repo (dropTags refs s.currentVersion k))
      (some s)).disk = .repo after ∧ ∀ ref, after.lookup ref = refs.lookup ref

/-- The columns of the list are what the version shows, and its rows do not depend on the order of
members. -/
structure Recognisable (s : ListState) (w : WrittenVersion) : Prop where
  title : loc w.columns.title = loc s.title.value
  desc : loc w.columns.desc = loc s.desc.value
  tags : w.columns.tags = s.tags
  ordered : w.columns.ordered = s.ordered
  kind : w.columns.kind.filter isValidKind = s.listKind.filter isValidKind
  skillHeader : w.columns.skillHeader.bind skillHeaderValid = s.skillHeader.bind skillHeaderValid
  rows : ∀ r ∈ w.rows, RowStable s.column r

theorem sameCanon_reloaded_iff (s : ListState) (w : WrittenVersion) :
    SameCanon w.data (loadVersionData s w.record) ↔ Recognisable s w := by
  have hsteps : List.Forall₂ SameStep w.data.steps (loadVersionData s w.record).steps ↔
      ∀ r ∈ w.rows, RowStable s.column r := by
    rw [← sameSteps_iff, loadVersionData, WrittenVersion.record, orderedSteps_insertStepRows]
    rfl
  constructor
  · intro h
    have hheader := h.skillHeader
    simp only [WrittenVersion.data, webVersionData, loadVersionData, bind_skillHeaderValid_idem]
      at hheader
    exact ⟨h.title, h.desc, h.tags, h.ordered, h.kind, hheader, hsteps.mp h.steps⟩
  · intro h
    refine ⟨h.title, h.desc, h.tags, h.ordered, h.kind, ?_, rfl, hsteps.mpr h.rows⟩
    simp only [WrittenVersion.data, webVersionData, loadVersionData, bind_skillHeaderValid_idem]
    exact h.skillHeader

section Loss

variable {core : Core} {refs : Refs} {s : ListState} {history : List WrittenVersion}

theorem tailFrom_written {ws : List WrittenVersion} {found : List Commit}
    (hchain : ws.IsChain (fun new old => new.commit.parents.head? = some old.commit))
    (hbuilt : ∀ w ∈ ws, ∃ parent authored,
      buildTree core.reserved (versionFiles core.schemaUrl w.data) parent authored =
        some w.commit.tree) :
    tailFrom core (ws.head?.map WrittenVersion.commit)
        (ws.map (fun w => loadVersionData s w.record)) = some (some found) ↔
      (∀ w ∈ ws, Recognisable s w) ∧ found = ws.map WrittenVersion.commit := by
  induction ws generalizing found with
  | nil =>
    simp only [List.map_nil, tailFrom, Option.some.injEq, List.not_mem_nil, false_implies,
      implies_true, true_and]
    exact eq_comm
  | cons w ws ih =>
    obtain ⟨parent, authored, htree⟩ := hbuilt w List.mem_cons_self
    have hsame : buildTree core.reserved
        (versionFiles core.schemaUrl (loadVersionData s w.record)) (some w.commit.tree) .carry =
          some w.commit.tree ↔ Recognisable s w :=
      (rebuilt_iff htree).trans (sameCanon_reloaded_iff s w)
    have hrest := fun cs =>
      @ih cs hchain.tail fun v hv => hbuilt v (List.mem_cons_of_mem w hv)
    have hnext : tailFrom core w.commit.parents.head? (ws.map (fun w => loadVersionData s w.record)) =
        tailFrom core (ws.head?.map WrittenVersion.commit)
          (ws.map (fun w => loadVersionData s w.record)) := by
      cases ws with
      | nil => simp [tailFrom]
      | cons v ws =>
        rw [show w.commit.parents.head? = some v.commit from
          (List.isChain_cons_cons.mp hchain).1]
        rfl
    simp only [List.head?_cons, Option.map_some, List.map_cons, tailFrom, hnext]
    constructor
    · intro h
      obtain ⟨expected, hexpected, hif⟩ := Option.bind_eq_some_iff.mp h
      split_ifs at hif with heq
      · obtain ⟨later, hlater, hfound⟩ := Option.map_eq_some_iff.mp hif
        obtain ⟨cs, rfl, rfl⟩ := Option.map_eq_some_iff.mp hfound
        obtain ⟨hall, rfl⟩ := (hrest cs).mp hlater
        rw [← heq] at hexpected
        exact ⟨List.forall_mem_cons.mpr ⟨hsame.mp hexpected, hall⟩, rfl⟩
      · cases Option.some.inj hif
    · rintro ⟨hall, rfl⟩
      obtain ⟨hw, hws⟩ := List.forall_mem_cons.mp hall
      rw [hsame.mpr hw, Option.bind_some, if_pos rfl, (hrest _).mpr ⟨hws, rfl⟩]
      rfl

theorem missingVersions_of_ledger (h : Ledger core refs s history) {have_ j : Nat}
    (hup : (have_ : Int) ≤ s.currentVersion - history.length + j)
    (hlow : j = 0 ∨ s.currentVersion - history.length + j ≤ (have_ : Int)) :
    missingVersions s have_ = (history.drop j).map (fun w => loadVersionData s w.record) := by
  have hsorted : (history.map WrittenVersion.record).Pairwise versionLe := by
    rw [List.pairwise_iff_getElem]
    intro i j hi hj hij
    have hlower := h.numbers i (by simpa using hi)
    have hupper := h.numbers j (by simpa using hj)
    simp only [List.getElem_map, versionLe, WrittenVersion.record]
    omega
  have hload : loadBundleData s = history.map (fun w => loadVersionData s w.record) := by
    rw [loadBundleData, h.records, List.Pairwise.insertionSort_eq hsorted, List.map_map]
    rfl
  have hversion : ∀ i (hi : i < history.length),
      (loadVersionData s (history[i].record)).version = s.currentVersion - history.length + i + 1 :=
    h.numbers
  rw [missingVersions, hload, List.filter_map]
  set missed : WrittenVersion → Bool :=
    (fun v : VersionData => decide ((have_ : Int) < v.version)) ∘ fun w => loadVersionData s w.record
  have hkept : (history.take j).filter missed = [] := by
    rw [List.filter_eq_nil_iff]
    intro w hw
    obtain ⟨i, hi, rfl⟩ := List.getElem_of_mem hw
    rw [List.length_take] at hi
    have hnumber := hversion i (by omega)
    simp only [missed, List.getElem_take, Function.comp_apply, decide_eq_true_eq]
    omega
  have hlost : (history.drop j).filter missed = history.drop j := by
    rw [List.filter_eq_self]
    intro w hw
    obtain ⟨i, hi, rfl⟩ := List.getElem_of_mem hw
    rw [List.length_drop] at hi
    have hnumber := hversion (j + i) (by omega)
    simp only [missed, List.getElem_drop, Function.comp_apply, decide_eq_true_eq]
    omega
  have hsplit : history.filter missed =
      (history.take j).filter missed ++ (history.drop j).filter missed := by
    rw [← List.filter_append, List.take_append_drop]
  rw [hsplit, hkept, hlost, List.nil_append]

theorem mem_lost_iff (h : Ledger core refs s history) {k : Nat} (hk : k ≤ history.length)
    {w : WrittenVersion} (hw : w ∈ history) :
    w ∈ history.drop (history.length - k) ↔ s.currentVersion - k < w.version := by
  have hcurrent := h.current
  constructor
  · intro hlost
    obtain ⟨i, hi, rfl⟩ := List.getElem_of_mem hlost
    rw [List.length_drop] at hi
    have hnumber := h.numbers (history.length - k + i) (by omega)
    rw [List.getElem_drop]
    omega
  · intro hversion
    obtain ⟨i, hi, rfl⟩ := List.getElem_of_mem hw
    have hnumber := h.numbers i hi
    rw [List.mem_iff_getElem]
    refine ⟨i - (history.length - k), ?_, ?_⟩
    · rw [List.length_drop]
      omega
    · rw [List.getElem_drop]
      congr 1
      omega

theorem exists_lost_ref (h : Ledger core refs s history) {k i : Nat} (hk : k ≤ history.length)
    (hi : i < k) : ∃ w ∈ history.drop (history.length - k),
      w.ref = tagRef (versionTag (s.currentVersion - i)) := by
  have hcurrent := h.current
  have hbound : history.length - 1 - i < history.length := by omega
  have hnumber := h.numbers _ hbound
  have hmem := List.getElem_mem hbound
  have hversion : history[history.length - 1 - i].version = s.currentVersion - i := by omega
  refine ⟨_, (mem_lost_iff h hk hmem).mpr (by omega), ?_⟩
  rw [WrittenVersion.ref, hversion]

theorem lookup_main_dropTags (refs : Refs) (current : Int) (k : Nat) :
    (dropTags refs current k).lookup mainRef = refs.lookup mainRef :=
  lookup_dropTags_of_kept refs current fun _ _ => (tagRef_ne_mainRef _).symm

theorem lookup_dropped_ref (h : Ledger core refs s history) {k : Nat} {w : WrittenVersion}
    (hw : w ∈ history) (hversion : s.currentVersion - k < w.version) :
    (dropTags refs s.currentVersion k).lookup w.ref = none := by
  have hbound := h.number_of_mem hw
  obtain ⟨i, hi⟩ := Int.eq_ofNat_of_zero_le (show 0 ≤ s.currentVersion - w.version by omega)
  have hsame : w.version = s.currentVersion - i := by omega
  rw [WrittenVersion.ref, hsame]
  exact lookup_dropTags_of_lost refs s.currentVersion (by omega)

theorem named_dropTags (h : Ledger core refs s history) {k : Nat} (hk : k ≤ history.length)
    {ref : Text} (href : ref ∈ dropTags refs s.currentVersion k)
    (hread : (tagVersion ref).isSome = true) :
    ∃ w ∈ history.take (history.length - k), ref = w.ref := by
  have hmem : ref ∈ refs := by
    by_contra hnot
    have hnone : refs.lookup ref = none := AList.lookup_eq_none.mpr hnot
    have hkept : ∀ i < k, ref ≠ tagRef (versionTag (s.currentVersion - i)) := by
      rintro i hi rfl
      obtain ⟨w, hw, heq⟩ := exists_lost_ref h hk hi
      rw [← heq, h.tags w (List.mem_of_mem_drop hw)] at hnone
      cases hnone
    rw [← AList.lookup_isSome, lookup_dropTags_of_kept refs s.currentVersion hkept, hnone] at href
    cases href
  obtain ⟨w, hw, rfl⟩ := h.named ref hmem hread
  refine ⟨w, ?_, rfl⟩
  rcases List.mem_append.mp
    ((List.take_append_drop (history.length - k) history).symm ▸ hw) with hkept | hgone
  · exact hkept
  · rw [← AList.lookup_isSome, lookup_dropped_ref h hw ((mem_lost_iff h hk hw).mp hgone)] at href
    cases href

theorem maxTagIn_dropTags (h : Ledger core refs s history) (hfits : s.currentVersion ≤ 2147483647)
    {k : Nat} (hk : k ≤ history.length) :
    (maxTagIn (dropTags refs s.currentVersion k) : Int) ≤ s.currentVersion - k ∧
      (history.length - k = 0 ∨
        s.currentVersion - k ≤ (maxTagIn (dropTags refs s.currentVersion k) : Int)) := by
  have hcurrent := h.current
  rcases Nat.eq_zero_or_pos (history.length - k) with hall | hsome
  · have huntagged : maxTagIn (dropTags refs s.currentVersion k) = 0 := by
      apply maxTagIn_of_untagged
      intro ref href
      by_contra hread
      obtain ⟨w, hw, -⟩ := named_dropTags h hk href (Option.isSome_iff_ne_none.mpr hread)
      rw [hall] at hw
      cases hw
    rw [huntagged]
    exact ⟨by omega, Or.inl hall⟩
  obtain ⟨n, hn⟩ := Int.eq_ofNat_of_zero_le (show 0 ≤ s.currentVersion - k by omega)
  suffices hmax : maxTagIn (dropTags refs s.currentVersion k) = n by
    rw [hmax]
    exact ⟨by omega, Or.inr (by omega)⟩
  apply @maxTagIn_of_named _ (history.take (history.length - k)) _ (by omega)
  · exact fun ref href hread => named_dropTags h hk href hread
  · intro w hw
    obtain ⟨i, hi, rfl⟩ := List.getElem_of_mem hw
    rw [List.length_take] at hi
    have hnumber := h.numbers i (by omega)
    rw [List.getElem_take]
    omega
  · have hbound : history.length - k - 1 < history.length := by omega
    have hnumber := h.numbers _ hbound
    refine ⟨history[history.length - k - 1], ?_, by omega, ?_⟩
    · rw [List.mem_iff_getElem]
      refine ⟨history.length - k - 1, ?_, List.getElem_take⟩
      rw [List.length_take]
      omega
    · rw [← AList.lookup_isSome, lookup_dropTags_of_kept]
      · rw [h.tags _ (List.getElem_mem hbound)]
        rfl
      · intro i hi heq
        have hsame := versionTag_injective (tagRef_injective heq)
        omega

theorem sync_dropTags (h : Ledger core refs s history) (hfits : s.currentVersion ≤ 2147483647)
    (now : Int) {k : Nat} (hk : k ≤ history.length) (hlost : 0 < k) :
    (syncRepoWithDb core (steady now) (.repo (dropTags refs s.currentVersion k)) (some s)).disk =
      .repo (appendMissingVersions core ⟨true, fun _ => true⟩ (dropTags refs s.currentVersion k)
        ((history.drop (history.length - k)).map (fun w => loadVersionData s w.record))).1 := by
  have hcurrent := h.current
  obtain ⟨hup, hlow⟩ := maxTagIn_dropTags h hfits hk
  have hmain : ((dropTags refs s.currentVersion k).lookup mainRef).isSome = true := by
    rw [lookup_main_dropTags, h.main, Option.isSome_map, List.getLast?_isSome]
    exact List.ne_nil_of_length_pos (by omega)
  set have_ := maxTagIn (dropTags refs s.currentVersion k) with hmax
  have hbehind : (have_ : Int) < s.currentVersion := by omega
  have hmissing := @missingVersions_of_ledger core refs s history h have_ (history.length - k)
    (by omega) (by omega)
  have hsome : (missingVersions s have_).isEmpty = false := by
    rw [hmissing, List.isEmpty_eq_false_iff, ne_eq, List.map_eq_nil_iff, List.drop_eq_nil_iff]
    omega
  have haligned : alignByCounters core (steady now) (dropTags refs s.currentVersion k) s have_ =
      catchUp core (steady now) (dropTags refs s.currentVersion k) s have_ := by
    rw [alignByCounters, if_neg hbehind.ne, if_pos hbehind]
  have hcatch : (catchUp core (steady now) (dropTags refs s.currentVersion k) s have_).refs =
      (appendMissingVersions core (steady now).history (dropTags refs s.currentVersion k)
        (missingVersions s have_)).1 := by
    have hread : (steady now).readRows = true := rfl
    simp only [catchUp, hread, hsome, Bool.not_true, Bool.false_eq_true, if_false]
    split
    · rename_i appended o heq
      rw [heq]
    · rename_i appended e heq
      rw [heq]
  have hsynced : syncRepoWithDb core (steady now) (.repo (dropTags refs s.currentVersion k))
      (some s) = (catchUp core (steady now) (dropTags refs s.currentVersion k) s have_).synced := by
    have hread : (steady now).readCurrent = true := rfl
    simp only [syncRepoWithDb, hread, hmain, ← hmax, haligned, Bool.not_true, Bool.false_eq_true,
      if_false, if_true]
  rw [hsynced, Aligned.synced, hcatch, hmissing]
  rfl

theorem tailCommits_of_ledger (h : Ledger core refs s history) {m : Nat} (hm : m < history.length)
    {last : WrittenVersion} (hlast : history.getLast? = some last) {found : List Commit} :
    tailCommits core last.commit ((history.drop m).map (fun w => loadVersionData s w.record)) =
        some (some found) ↔
      (∀ w ∈ history.drop m, Recognisable s w) ∧
        found = (history.drop m).map WrittenVersion.commit := by
  have hchain : (history.drop m).reverse.IsChain
      (fun new old => new.commit.parents.head? = some old.commit) :=
    List.isChain_reverse.mpr (h.chain.drop m)
  have hbuilt : ∀ w ∈ (history.drop m).reverse, ∃ parent authored,
      buildTree core.reserved (versionFiles core.schemaUrl w.data) parent authored =
        some w.commit.tree :=
    fun w hw => h.built w (List.mem_of_mem_drop (List.mem_reverse.mp hw))
  have hhead : (history.drop m).reverse.head?.map WrittenVersion.commit = some last.commit := by
    rw [List.head?_reverse, List.getLast?_drop, if_neg (by omega), hlast]
    rfl
  have htail := fun cs => @tailFrom_written core s (history.drop m).reverse cs hchain hbuilt
  rw [hhead] at htail
  rw [tailCommits, ← List.map_reverse]
  constructor
  · intro hfound
    obtain ⟨o, ho, hreversed⟩ := Option.map_eq_some_iff.mp hfound
    obtain ⟨cs, rfl, rfl⟩ := Option.map_eq_some_iff.mp hreversed
    obtain ⟨hall, rfl⟩ := (htail cs).mp ho
    refine ⟨fun w hw => hall w (List.mem_reverse.mpr hw), ?_⟩
    rw [← List.map_reverse, List.reverse_reverse]
  · rintro ⟨hall, rfl⟩
    rw [(htail _).mpr ⟨fun w hw => hall w (List.mem_reverse.mp hw), rfl⟩, Option.map_some,
      Option.map_some, ← List.map_reverse, List.reverse_reverse]

theorem appendMissingVersions_over {tip : Commit} {versions : List VersionData}
    (hmain : refs.lookup mainRef = some (.commit tip)) (hne : versions ≠ []) :
    (appendMissingVersions core ⟨true, fun _ => true⟩ refs versions).1 =
      match tailCommits core tip versions with
      | none => refs
      | some none => (buildHistory core ⟨true, fun _ => true⟩ refs versions (some tip) .carry).1
      | some (some found) =>
        refs.setAll (versionMoves ((versions.map VersionData.version).zip found)) := by
  have hcommit : mainCommit refs = .ok (some tip) := by simp [mainCommit, hmain]
  have hempty : versions.isEmpty = false := by simpa using hne
  simp only [appendMissingVersions, hempty, hcommit, Bool.false_eq_true, if_false]
  cases tailCommits core tip versions with
  | none => rfl
  | some found =>
    cases found with
    | none => rfl
    | some found =>
      have hwhole : ((versions.map VersionData.version).zip found).takeWhile (fun _ => true) =
          (versions.map VersionData.version).zip found :=
        List.takeWhile_eq_self_iff.mpr fun _ _ => rfl
      simp only [tagAll_eq, hwhole]

theorem main_dropTags (h : Ledger core refs s history) (hpos : 0 < history.length) (k : Nat) :
    ∃ last, history.getLast? = some last ∧
      (dropTags refs s.currentVersion k).lookup mainRef = some (.commit last.commit) := by
  obtain ⟨last, hlast⟩ := Option.isSome_iff_exists.mp
    (List.getLast?_isSome.mpr (List.ne_nil_of_length_pos hpos))
  refine ⟨last, hlast, ?_⟩
  rw [lookup_main_dropTags, h.main, hlast]
  rfl

theorem restored_of_recognisable (h : Ledger core refs s history)
    (hfits : s.currentVersion ≤ 2147483647) (now : Int) {k : Nat} (hk : k ≤ history.length)
    (hlost : 0 < k) (hall : ∀ w ∈ history.drop (history.length - k), Recognisable s w) :
    Restored core now refs s k := by
  set lost := history.drop (history.length - k) with hdrop
  have hne : lost ≠ [] := by
    rw [hdrop, ne_eq, List.drop_eq_nil_iff]
    omega
  obtain ⟨last, hlast, hmain⟩ := main_dropTags h (hlost.trans_le hk) k
  have htail := (tailCommits_of_ledger h (show history.length - k < history.length by omega)
    hlast).mpr ⟨hall, rfl⟩
  have hafter := @appendMissingVersions_over core _ _ (lost.map fun w => loadVersionData s w.record)
    hmain (by simpa using hne)
  rw [← hdrop] at htail
  simp only [htail] at hafter
  have hmoves : versionMoves (((lost.map fun w => loadVersionData s w.record).map
      VersionData.version).zip (lost.map WrittenVersion.commit)) =
        lost.map (fun w => (w.ref, w.commit)) := by
    rw [List.map_map, List.zip_map', versionMoves, List.map_map]
    rfl
  rw [hmoves] at hafter
  refine ⟨_, sync_dropTags h hfits now hk hlost, fun ref => ?_⟩
  rw [← hdrop, hafter]
  by_cases hmem : ref ∈ (lost.map (fun w => (w.ref, w.commit))).map Prod.fst
  · obtain ⟨c, hc, hlookup⟩ := Refs.lookup_setAll_of_mem hmem (dropTags refs s.currentVersion k)
    obtain ⟨w, hw, heq⟩ := List.mem_map.mp hc
    obtain ⟨rfl, rfl⟩ := Prod.mk.inj heq
    rw [hlookup, h.tags w (List.mem_of_mem_drop hw)]
  · rw [Refs.lookup_setAll_of_notMem hmem]
    apply lookup_dropTags_of_kept
    rintro i hi rfl
    obtain ⟨w, hw, heq⟩ := exists_lost_ref h hk hi
    rw [List.map_map] at hmem
    exact hmem (List.mem_map.mpr ⟨w, hw, heq⟩)

theorem recognisable_of_restored (h : Ledger core refs s history)
    (hfits : s.currentVersion ≤ 2147483647) (now : Int) {k : Nat} (hk : k ≤ history.length)
    (hlost : 0 < k) (hrestored : Restored core now refs s k) :
    ∀ w ∈ history.drop (history.length - k), Recognisable s w := by
  set lost := history.drop (history.length - k) with hdrop
  have hne : lost ≠ [] := by
    rw [hdrop, ne_eq, List.drop_eq_nil_iff]
    omega
  obtain ⟨last, hlast, hmain⟩ := main_dropTags h (hlost.trans_le hk) k
  have hafter := @appendMissingVersions_over core _ _ (lost.map fun w => loadVersionData s w.record)
    hmain (by simpa using hne)
  obtain ⟨after, hdisk, hsame⟩ := hrestored
  rw [sync_dropTags h hfits now hk hlost, ← hdrop, hafter] at hdisk
  obtain rfl := Disk.repo.inj hdisk
  -- the tag of the current version is among the lost ones
  have hunchanged : (dropTags refs s.currentVersion k).lookup
      (tagRef (versionTag (s.currentVersion - (0 : Nat)))) ≠
        refs.lookup (tagRef (versionTag (s.currentVersion - (0 : Nat)))) := by
    obtain ⟨w, hw, heq⟩ := exists_lost_ref h hk hlost
    rw [lookup_dropTags_of_lost refs s.currentVersion hlost, ← heq,
      h.tags w (List.mem_of_mem_drop hw)]
    exact (Option.some_ne_none _).symm
  cases htail : tailCommits core last.commit (lost.map fun w => loadVersionData s w.record) with
  | none =>
    simp only [htail] at hsame
    exact absurd (hsame _) hunchanged
  | some found =>
    cases found with
    | none =>
      simp only [htail] at hsame
      rcases buildHistory_cases core ⟨true, fun _ => true⟩ (dropTags refs s.currentVersion k)
          (lost.map fun w => loadVersionData s w.record) (some last.commit) .carry with
        hstay | ⟨made, tip, hmade, htip, -, -, hmoved⟩
      · rw [hstay] at hsame
        exact absurd (hsame _) hunchanged
      · have hnew := hsame mainRef
        rw [hmoved, lookup_main_versionMoves, AList.lookup_insert, h.main, hlast] at hnew
        obtain ⟨m, hm, rfl⟩ := Option.map_eq_some_iff.mp htip
        have hother := (reaches_of_commitAll hmade (List.mem_of_getLast? hm) rfl).2
        exact absurd (Target.commit.inj (Option.some.inj hnew)) hother
    | some found =>
      exact ((tailCommits_of_ledger h (show history.length - k < history.length by omega)
        hlast).mp htail).1

/-- The tags of the last versions come back to their own commits, with no commit made and main in
its place, exactly when each of these versions still shows the columns of the list. -/
theorem lost_tags_restored_iff (h : Written core refs s history)
    (hfits : s.currentVersion ≤ 2147483647) (now : Int) (k : Nat) (hk : k < s.currentVersion) :
    Restored core now refs s k ↔
      ∀ w ∈ history, s.currentVersion - k < w.version → Recognisable s w := by
  have hledger := ledger_of_written h hfits
  have hcurrent := hledger.current
  have hbound : k ≤ history.length := by omega
  rcases Nat.eq_zero_or_pos k with rfl | hlost
  · apply iff_of_true
    · exact ⟨refs, (sync_of_healthy (steady now) (hledger.healthy hfits)).1, fun _ => rfl⟩
    · intro w hw hversion
      have hlast := (hledger.number_of_mem hw).2
      omega
  · have hwhole : (∀ w ∈ history, s.currentVersion - k < w.version → Recognisable s w) ↔
        ∀ w ∈ history.drop (history.length - k), Recognisable s w := by
      constructor
      · intro hall w hw
        have hmem := List.mem_of_mem_drop hw
        exact hall w hmem ((mem_lost_iff hledger hbound hmem).mp hw)
      · exact fun hall w hw hversion => hall w ((mem_lost_iff hledger hbound hw).mpr hversion)
    rw [hwhole]
    exact ⟨recognisable_of_restored hledger hfits now hbound hlost,
      restored_of_recognisable hledger hfits now hbound hlost⟩

end Loss

theorem exists_edited {core : Core} {refs : Refs} {s : ListState} {history : List WrittenVersion}
    (h : Written core refs s history) (hne : history ≠ []) (hnames : NamesFree core.reserved)
    (hfits : s.currentVersion < 2147483647) (edit : WebEdit) (hcarry : edit.authored = none)
    (hexpected : edit.expectedVersion = none) :
    ∃ after c, Written core after (editedList s edit 0) (history ++
        [⟨s.currentVersion + 1, patchedMeta s edit.patch, edit.note, 0, edit.rows, c⟩]) ∧
      commitVersion core (history.getLast?.map WrittenVersion.commit) (editData s edit 0) .carry =
        some c := by
  have hledger := ledger_of_written h hfits.le
  obtain ⟨last, hlast⟩ := Option.isSome_iff_exists.mp (List.getLast?_isSome.mpr hne)
  have hready : Ready last.commit refs s := ⟨hledger.agree hfits.le hlast, (hledger.tip hlast).1,
    ((mainViolation_eq_none_iff _).mp (hledger.format last (List.mem_of_getLast? hlast))).2⟩
  obtain ⟨c, hcommit, hwrite, hafter⟩ := hready.written hnames hfits hcarry fun e he =>
    absurd (hexpected.symm.trans he) (Option.some_ne_none e).symm
  exact ⟨_, c, .edited plainWrite edit h hwrite hafter.main, by rw [hlast]; exact hcommit⟩

theorem exists_created {core : Core} (hnames : NamesFree core.reserved) (m : ListMeta) :
    ∃ refs c, Written core refs (createList id m [] 0 [])
      [⟨1, { m with kind := none }, [], 0, [], c⟩] := by
  obtain ⟨refs, c, hinit, -⟩ := initWithVersion_carried hnames (createVersionData m [] 0 [])
  exact ⟨refs, c, .created ⟨true, fun _ => true⟩ id m [] 0 [] .carry hinit⟩

def renameTo (title : Option Json.Value) : WebEdit where
  note := []
  rows := []
  patch := ⟨title, none, none, none⟩
  expectedVersion := none
  authored := none

def twiceSaved : ListState := editedList (createList id plainMeta [] 0 []) (renameTo none) 0

def renamedList : ListState := editedList twiceSaved (renameTo (some (locVal "Valkey".toList))) 0

private theorem exists_twiceSaved : ∃ refs c d, Written canonCore refs twiceSaved
    [⟨1, plainMeta, [], 0, [], c⟩,
      ⟨2, patchedMeta (createList id plainMeta [] 0 []) (renameTo none).patch, [], 0, [], d⟩] := by
  have hnames : NamesFree canonCore.reserved := fun _ _ _ _ => rfl
  obtain ⟨first, c, hfirst⟩ := exists_created hnames plainMeta
  obtain ⟨refs, d, hsecond, -⟩ := exists_edited hfirst (List.cons_ne_nil _ _) hnames (by decide)
    (renameTo none) rfl rfl
  exact ⟨refs, c, d, hsecond⟩

theorem lost_tag_restored_unrenamed : ∃ refs history, Written canonCore refs twiceSaved history ∧
    twiceSaved.currentVersion = 2 ∧ Restored canonCore 0 refs twiceSaved 1 := by
  obtain ⟨refs, c, d, hwritten⟩ := exists_twiceSaved
  refine ⟨refs, _, hwritten, rfl, ?_⟩
  apply (lost_tags_restored_iff hwritten (by decide) 0 1 (by decide)).mpr
  intro w hw hversion
  rcases List.mem_cons.mp hw with rfl | hw
  · exact absurd (show (2 : Int) - 1 < 1 from hversion) (by decide)
  · obtain rfl := List.mem_singleton.mp hw
    have htitle : loc (patchedMeta (createList id plainMeta [] 0 []) (renameTo none).patch).title =
        loc twiceSaved.title.value := by decide
    have hdesc : loc (patchedMeta (createList id plainMeta [] 0 []) (renameTo none).patch).desc =
        loc twiceSaved.desc.value := by decide
    exact ⟨htitle, hdesc, rfl, rfl, rfl, rfl, fun r hr => absurd hr List.not_mem_nil⟩

/-- A list that was renamed with its last version: the version before it is not recognised, and the
tags do not come back to their commits. -/
theorem lost_tags_after_rename : ∃ refs history, Written canonCore refs renamedList history ∧
    renamedList.currentVersion = 3 ∧ ¬ Restored canonCore 0 refs renamedList 2 := by
  have hnames : NamesFree canonCore.reserved := fun _ _ _ _ => rfl
  obtain ⟨before, c, d, hbefore⟩ := exists_twiceSaved
  obtain ⟨refs, e, hwritten, -⟩ := exists_edited hbefore (List.cons_ne_nil _ _) hnames (by decide)
    (renameTo (some (locVal "Valkey".toList))) rfl rfl
  refine ⟨refs, _, hwritten, rfl, fun hrestored => ?_⟩
  have hledger := ledger_of_written hwritten (by decide)
  have hall := recognisable_of_restored hledger (by decide) 0 (by simp) Nat.zero_lt_two hrestored
  have hsecond := hall ⟨2, patchedMeta (createList id plainMeta [] 0 []) (renameTo none).patch, [], 0,
    [], d⟩ List.mem_cons_self
  have htitle : loc (patchedMeta (createList id plainMeta [] 0 []) (renameTo none).patch).title ≠
      loc renamedList.title.value := by decide
  exact htitle hsecond.title

end Setfork.LostTags
