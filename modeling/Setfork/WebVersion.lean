/- WebVersion
   digest: One edit of a list as one commit and one version row, and what it leaves when it stops. -/
import Setfork.Alignment
import Setfork.CarriedTree

set_option autoImplicit false
set_option relaxedAutoImplicit false

namespace Setfork.WebVersion

open Setfork.Foundation
open Setfork.Foundation.Json
open Setfork.Serialize
open Setfork.Rows
open Setfork.CanonMirror
open Setfork.Project (notBlank)
open Setfork.Authored
open Setfork.VersionTree
open Setfork.Repository
open Setfork.History
open Setfork.Alignment

structure MetaPatch where
  title : Option Value
  desc : Option Value
  tags : Option (List Text)
  ordered : Option Bool

/-- Some translation of a locale map is not blank. -/
def hasText (v : Value) : Bool :=
  match v with
  | .obj fields => fields.any (fun f => (f.2.asStr.map notBlank).getD false)
  | _ => false

/-- The columns with the patch over them. -/
def patchedMeta (s : ListState) (patch : MetaPatch) : ListMeta where
  title := (patch.title.filter hasText).getD s.title.value
  desc := patch.desc.getD s.desc.value
  tags := (patch.tags.map (List.take 20)).getD s.tags
  ordered := patch.ordered.getD s.ordered
  kind := s.listKind
  skillHeader := s.skillHeader

structure WebEdit where
  note : Text
  rows : List StepRow
  patch : MetaPatch
  expectedVersion : Option Int
  authored : Option (List AuthoredInput)

def WebEdit.source (edit : WebEdit) : AuthoredSource :=
  match edit.authored with
  | none => .carry
  | some files => .replace files

def editData (s : ListState) (edit : WebEdit) (createdAt : Int) : VersionData :=
  webVersionData (patchedMeta s edit.patch) (s.currentVersion + 1) edit.note createdAt edit.rows

/-- The rows an edit leaves. -/
def editedList (s : ListState) (edit : WebEdit) (createdAt : Int) : ListState :=
  saveVersion (s.currentVersion + 1) edit.note createdAt edit.rows
    (saveMeta (patchedMeta s edit.patch) s)

inductive WebVersionError where
  | notFound
  | versionConflict (expected current : Int)
  | outOfSync (highest current : Int)
  | database
  | git (e : MainUpdateError)
  | authored (e : MainUpdateError)
  | projectionLost (version : Int)
deriving DecidableEq

def aboutFiles : MainUpdateError → Bool
  | .foreignPath _ => true
  | .authoredNotFile _ => true
  | .authoredBinary _ => true
  | .authoredTooMany _ => true
  | .authoredTooLarge _ => true
  | .authoredDuplicate _ => true
  | .authoredExecutable _ => true
  | _ => false

def gitRefusal (edit : WebEdit) (e : MainUpdateError) : WebVersionError :=
  if aboutFiles e && edit.authored.isSome then .authored e else .git e

/-- What the steps of a write meet: its alignment, the reading of the row, the patch with the
insertion of the version, the references, and the tail of the transaction. -/
structure WebFaults where
  sync : SyncFaults
  readRow : Bool
  inserted : Bool
  createdAt : Int
  history : WriteFaults
  tail : DbWrite

structure WebWrite where
  disk : Disk
  list : Option ListState
  outcome : Except WebVersionError Int

variable (core : Core)

def writeVersion (f : WebFaults) (refs : Refs) (s : ListState) (edit : WebEdit) : WebWrite :=
  if edit.expectedVersion.any (fun e => e ≠ s.currentVersion) then
    ⟨.repo refs, some s,
      .error (.versionConflict (edit.expectedVersion.getD s.currentVersion) s.currentVersion)⟩
  else if !f.inserted || s.versions.any (fun v => v.version = s.currentVersion + 1) then
    ⟨.repo refs, some s, .error .database⟩
  else
    match appendVersionWith core f.history refs (editData s edit f.createdAt) edit.source with
    | (written, .error e) => ⟨.repo written, some s, .error (gitRefusal edit e)⟩
    | (written, .ok none) => ⟨.repo written, some s, .error (.git gitError)⟩
    | (written, .ok (some _)) =>
      match f.tail with
      | .done =>
        ⟨.repo written, some (editedList s edit f.createdAt), .ok (s.currentVersion + 1)⟩
      | .failed => ⟨.repo written, some s, .error (.projectionLost (s.currentVersion + 1))⟩
      | .lost =>
        ⟨.repo written, some (editedList s edit f.createdAt),
          .error (.projectionLost (s.currentVersion + 1))⟩

/-- One edit: the alignment first, then the commit, then the rows. -/
def commitWebVersion (f : WebFaults) (disk : Disk) (list : Option ListState) (edit : WebEdit) :
    WebWrite :=
  let synced := syncRepoWithDb core f.sync disk list
  match synced.outcome with
  | .ok (.conflict highest current) =>
    ⟨synced.disk, synced.list, .error (.outOfSync highest current)⟩
  | .error .rowNotFound => ⟨synced.disk, synced.list, .error .notFound⟩
  | .error _ => ⟨synced.disk, synced.list, .error .database⟩
  | .ok _ =>
    if !f.readRow then ⟨synced.disk, synced.list, .error .database⟩
    else
      match synced.list, synced.disk with
      | none, _ => ⟨synced.disk, none, .error .notFound⟩
      | some s, .repo refs => writeVersion core f refs s edit
      | some s, _ => ⟨synced.disk, some s, .error (.git gitError)⟩

/-- The commit of an edit over the tip of main, when it is acceptable. -/
structure Acceptable (refs : Refs) (s : ListState) (edit : WebEdit) (createdAt : Int)
    (parent : Option Commit) (c : Commit) : Prop where
  expected : ∀ e, edit.expectedVersion = some e → e = s.currentVersion
  free : ∀ v ∈ s.versions, v.version ≠ s.currentVersion + 1
  files : ∀ files, edit.authored = some files → authoredInputViolation files = none
  main : refs.lookup mainRef = parent.map .commit
  commit : commitVersion core parent (editData s edit createdAt) edit.source = some c
  format : mainViolation c.tree = none

variable {core}

theorem commitVersion_parents {parent : Option Commit} {v : VersionData} {authored : AuthoredSource}
    {c : Commit} (h : commitVersion core parent v authored = some c) :
    ∀ p, parent = some p → c.Reaches p ∧ c ≠ p := by
  intro p hp
  obtain ⟨t, -, rfl⟩ := Option.map_eq_some_iff.mp h
  have hparent : (Commit.mk t parent.toList ⟨Readme.commitMessage v, authorName, v.ts⟩).IsParent p := by
    change p ∈ parent.toList
    rw [hp]
    exact List.mem_singleton_self p
  exact ⟨.single hparent, Commit.ne_of_isParent_reaches .refl hparent⟩

/-- A version that carries the files of a parent in the format can be committed over it. -/
theorem commitVersion_carried (hnames : CarriedTree.NamesFree core.reserved)
    (parent : Option Commit) (hparent : ∀ p, parent = some p →
      firstForeignPath p.tree = none ∧ authoredViolation p.tree = none) (v : VersionData) :
    ∃ t, commitVersion core parent v .carry =
      some (.mk t parent.toList ⟨Readme.commitMessage v, authorName, v.ts⟩) ∧
      mainViolation t = none := by
  obtain ⟨t, ht⟩ :=
    CarriedTree.buildTree_carried hnames core.schemaUrl v (parent.map Commit.tree)
  refine ⟨t, by rw [commitVersion, ht, Option.map_some], ?_⟩
  apply CarriedTree.inFormat_carried ht
  intro p hp
  obtain ⟨q, hq, rfl⟩ := Option.map_eq_some_iff.mp hp
  exact hparent q hq

private theorem buildHistory_single {f : WriteFaults} {refs : Refs} {v : VersionData}
    {parent : Option Commit} {authored : AuthoredSource} {c : Commit}
    (hcommit : commitVersion core parent v authored = some c)
    (hformat : mainViolation c.tree = none) (hmain : refs.lookup mainRef = parent.map .commit)
    (hwritten : f.written = true) :
    buildHistory core f refs [v] parent authored =
      if f.tagged v.version then
        ((refs.insert mainRef (.commit c)).insert (tagRef (versionTag v.version)) (.commit c),
          .ok (some c))
      else (refs.insert mainRef (.commit c), .error gitError) := by
  have hmade : commitAll core authored parent [v] = some [(v.version, c)] := by
    simp [commitAll, hcommit]
  have hmoved : updateMain refs f.written c parent = .ok (refs.insert mainRef (.commit c)) :=
    updateMain_eq_ok_iff.mpr ⟨hformat, hmain,
      fun p hp => (commitVersion_parents hcommit p hp).1, hwritten, rfl⟩
  rw [buildHistory_of_moved hmade rfl hmoved]
  cases htag : f.tagged v.version with
  | true => simp [htag, versionMoves]
  | false => simp [htag, versionMoves]

private theorem buildHistory_refused {f : WriteFaults} {refs : Refs} {v : VersionData}
    {parent : Option Commit} {authored : AuthoredSource}
    (h : ∀ c, commitVersion core parent v authored = some c → mainViolation c.tree = none →
      f.written = false) :
    ∃ e, buildHistory core f refs [v] parent authored = (refs, .error e) := by
  cases hcommit : commitVersion core parent v authored with
  | none => exact ⟨gitError, by simp [buildHistory, commitAll, hcommit]⟩
  | some c =>
    have hne : some c ≠ parent := by
      intro heq
      exact (commitVersion_parents hcommit c heq.symm).2 rfl
    have hrefused : ∃ e, updateMain refs f.written c parent = .error e := by
      cases hmoved : updateMain refs f.written c parent with
      | error e => exact ⟨e, rfl⟩
      | ok moved =>
        obtain ⟨hformat, -, -, hwritten, -⟩ := updateMain_eq_ok_iff.mp hmoved
        rw [h c hcommit hformat] at hwritten
        cases hwritten
    obtain ⟨e, he⟩ := hrefused
    exact ⟨e, by simp [buildHistory, commitAll, hcommit, hne, he]⟩

/-- An append puts one commit on main and tags it, or leaves the references as they were. -/
theorem appendVersionWith_cases (core : Core) (f : WriteFaults) (refs : Refs) (v : VersionData)
    (authored : AuthoredSource) :
    (∃ parent c, (∀ files, authored = .replace files → authoredInputViolation files = none) ∧
      refs.lookup mainRef = parent.map .commit ∧ commitVersion core parent v authored = some c ∧
      mainViolation c.tree = none ∧ f.written = true ∧
      appendVersionWith core f refs v authored =
        if f.tagged v.version then
          ((refs.insert mainRef (.commit c)).insert (tagRef (versionTag v.version)) (.commit c),
            .ok (some c))
        else (refs.insert mainRef (.commit c), .error gitError)) ∨
    (∃ e, appendVersionWith core f refs v authored = (refs, .error e)) ∧
      ∀ parent c, (∀ files, authored = .replace files → authoredInputViolation files = none) →
        refs.lookup mainRef = parent.map .commit → commitVersion core parent v authored = some c →
        mainViolation c.tree = none → f.written = false := by
  by_cases hfiles : ∀ files, authored = .replace files → authoredInputViolation files = none
  · have hbuild : ∀ parent : Option Commit, refs.lookup mainRef = parent.map .commit →
        appendVersionWith core f refs v authored = buildHistory core f refs [v] parent authored := by
      intro parent hmain
      have hparent : mainCommit refs = .ok parent := by
        cases parent <;> simp [mainCommit, hmain]
      cases authored with
      | carry => simp [appendVersionWith, hparent]
      | replace files => simp [appendVersionWith, hparent, hfiles files rfl]
    by_cases hmain : ∃ parent : Option Commit, refs.lookup mainRef = parent.map .commit
    · obtain ⟨parent, hmain⟩ := hmain
      have hunique : ∀ parent' : Option Commit, refs.lookup mainRef = parent'.map .commit →
          parent' = parent := by
        intro parent' h
        rw [hmain] at h
        exact (Option.map_injective (fun _ _ => Target.commit.inj) h).symm
      by_cases h : ∀ c, commitVersion core parent v authored = some c →
          mainViolation c.tree = none → f.written = false
      · right
        obtain ⟨e, he⟩ := buildHistory_refused h
        refine ⟨⟨e, (hbuild parent hmain).trans he⟩, fun parent' c _ hmain' hcommit hformat => ?_⟩
        rw [hunique parent' hmain'] at hcommit
        exact h c hcommit hformat
      · left
        push Not at h
        obtain ⟨c, hcommit, hformat, hwritten⟩ := h
        have hwritten : f.written = true := by simpa using hwritten
        exact ⟨parent, c, hfiles, hmain, hcommit, hformat, hwritten, (hbuild parent hmain).trans
          (buildHistory_single hcommit hformat hmain hwritten)⟩
    · right
      refine ⟨⟨gitError, ?_⟩, fun parent c _ h => absurd ⟨parent, h⟩ hmain⟩
      have hobject : mainCommit refs = .error gitError := by
        unfold mainCommit
        cases hlookup : refs.lookup mainRef with
        | none => exact absurd ⟨none, hlookup⟩ hmain
        | some t =>
          cases t with
          | commit c => exact absurd ⟨some c, hlookup⟩ hmain
          | object id => rfl
      cases authored with
      | carry => simp [appendVersionWith, hobject]
      | replace files => simp [appendVersionWith, hobject, hfiles files rfl]
  · right
    refine ⟨?_, fun parent c h => absurd h hfiles⟩
    push Not at hfiles
    obtain ⟨files, rfl, hrefused⟩ := hfiles
    obtain ⟨e, he⟩ := Option.ne_none_iff_exists'.mp hrefused
    exact ⟨e, by simp [appendVersionWith, he]⟩

/-- A list can be born with a version that brings no files of its own. -/
theorem initWithVersion_carried (hnames : CarriedTree.NamesFree core.reserved) (v : VersionData) :
    ∃ refs c, initWithVersion core ⟨true, fun _ => true⟩ v .carry = (refs, .ok (some c)) ∧
      refs.lookup mainRef = some (.commit c) := by
  obtain ⟨t, hcommit, hformat⟩ := commitVersion_carried hnames none (fun p hp => nomatch hp) v
  rcases appendVersionWith_cases core ⟨true, fun _ => true⟩ ∅ v .carry with
    ⟨parent, c, -, -, -, -, -, happend⟩ | ⟨-, hnone⟩
  · rw [if_pos rfl] at happend
    refine ⟨_, c, happend, ?_⟩
    rw [AList.lookup_insert_ne (tagRef_ne_mainRef _).symm, AList.lookup_insert]
  · have hrefused := hnone none _ (fun files hfiles => nomatch hfiles) rfl hcommit hformat
    cases hrefused

/-- A write is refused and changes nothing, or moves main to an acceptable commit; the rows follow
only after the tag. -/
theorem writeVersion_cases (core : Core) (f : WebFaults) (refs : Refs) (s : ListState)
    (edit : WebEdit) :
    ((∃ e, writeVersion core f refs s edit = ⟨.repo refs, some s, .error e⟩) ∧
      ∀ parent c, Acceptable core refs s edit f.createdAt parent c → f.inserted = true →
        f.history.written = false) ∨
    ∃ parent c, Acceptable core refs s edit f.createdAt parent c ∧ f.inserted = true ∧
      f.history.written = true ∧
      ((f.history.tagged (s.currentVersion + 1) = false ∧
        (writeVersion core f refs s edit).disk = .repo (refs.insert mainRef (.commit c)) ∧
        (writeVersion core f refs s edit).list = some s ∧
        (writeVersion core f refs s edit).outcome = .error (.git gitError)) ∨
      (f.history.tagged (s.currentVersion + 1) = true ∧
        (writeVersion core f refs s edit).disk = .repo ((refs.insert mainRef (.commit c)).insert
          (tagRef (versionTag (s.currentVersion + 1))) (.commit c)) ∧
        (writeVersion core f refs s edit).list =
          some (if f.tail = .failed then s else editedList s edit f.createdAt) ∧
        (writeVersion core f refs s edit).outcome =
          if f.tail = .done then .ok (s.currentVersion + 1)
          else .error (.projectionLost (s.currentVersion + 1)))) := by
  have hconflict : edit.expectedVersion.any (fun e => e ≠ s.currentVersion) = false ↔
      ∀ e, edit.expectedVersion = some e → e = s.currentVersion := by
    cases edit.expectedVersion <;> simp
  have hrefused : (!f.inserted || s.versions.any (fun v => v.version = s.currentVersion + 1)) =
      false ↔ f.inserted = true ∧ ∀ v ∈ s.versions, v.version ≠ s.currentVersion + 1 := by
    simp
  cases hexpected : edit.expectedVersion.any (fun e => e ≠ s.currentVersion) with
  | true =>
    refine Or.inl ⟨⟨_, by rw [writeVersion, if_pos hexpected]⟩, fun parent c haccept _ => ?_⟩
    rw [hconflict.mpr haccept.expected] at hexpected
    cases hexpected
  | false =>
    cases hinserted : (!f.inserted ||
        s.versions.any (fun v => v.version = s.currentVersion + 1)) with
    | true =>
      refine Or.inl ⟨⟨_, by rw [writeVersion, if_neg (by rw [hexpected]; exact Bool.false_ne_true),
        if_pos hinserted]⟩, fun parent c haccept hin => ?_⟩
      rw [hrefused.mpr ⟨hin, haccept.free⟩] at hinserted
      cases hinserted
    | false =>
      obtain ⟨hin, hfree⟩ := hrefused.mp hinserted
      have hsource : (∀ files, edit.source = .replace files → authoredInputViolation files = none) ↔
          ∀ files, edit.authored = some files → authoredInputViolation files = none := by
        cases h : edit.authored <;> simp [WebEdit.source, h]
      have hwrite : ∀ r, appendVersionWith core f.history refs (editData s edit f.createdAt)
          edit.source = r → writeVersion core f refs s edit =
            match r with
            | (written, .error e) => ⟨.repo written, some s, .error (gitRefusal edit e)⟩
            | (written, .ok none) => ⟨.repo written, some s, .error (.git gitError)⟩
            | (written, .ok (some _)) =>
              match f.tail with
              | .done =>
                ⟨.repo written, some (editedList s edit f.createdAt), .ok (s.currentVersion + 1)⟩
              | .failed => ⟨.repo written, some s, .error (.projectionLost (s.currentVersion + 1))⟩
              | .lost =>
                ⟨.repo written, some (editedList s edit f.createdAt),
                  .error (.projectionLost (s.currentVersion + 1))⟩ := by
        intro r hr
        rw [← hr, writeVersion, if_neg (by rw [hexpected]; exact Bool.false_ne_true),
          if_neg (by rw [hinserted]; exact Bool.false_ne_true)]
      rcases appendVersionWith_cases core f.history refs (editData s edit f.createdAt) edit.source
        with ⟨parent, c, hfiles, hmain, hcommit, hformat, hwritten, happend⟩ | ⟨⟨e, he⟩, hnone⟩
      · refine Or.inr ⟨parent, c, ⟨hconflict.mp hexpected, hfree, hsource.mp hfiles, hmain, hcommit,
          hformat⟩, hin, hwritten, ?_⟩
        rw [hwrite _ happend]
        cases htag : f.history.tagged (editData s edit f.createdAt).version with
        | false => exact Or.inl ⟨htag, rfl, rfl, rfl⟩
        | true =>
          refine Or.inr ⟨htag, ?_⟩
          cases f.tail with
          | done => exact ⟨rfl, rfl, rfl⟩
          | failed => exact ⟨rfl, rfl, rfl⟩
          | lost => exact ⟨rfl, rfl, rfl⟩
      · refine Or.inl ⟨⟨_, hwrite _ he⟩, fun parent c haccept _ => ?_⟩
        exact hnone parent c (hsource.mpr haccept.files) haccept.main haccept.commit haccept.format

end Setfork.WebVersion
