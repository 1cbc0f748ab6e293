/- Healing
   digest: A write that stops half way, the alignment that follows it, and the edits whose canon
   comes back from git. -/
import Setfork.CarriedTree
import Setfork.Reproject
import Setfork.WebVersion

set_option autoImplicit false
set_option relaxedAutoImplicit false

namespace Setfork.Healing

open Setfork.Foundation
open Setfork.Foundation.Json
open Setfork.Serialize
open Setfork.Rows
open Setfork.CanonMirror
open Setfork.Readme (versionFiles)
open Setfork.Project
open Setfork.Carryover
open Setfork.Reproject
open Setfork.Repository
open Setfork.History
open Setfork.Alignment
open Setfork.WebVersion

def resolvedRow (keep : List (Uuid × CarryOver)) (r : StepRow) : CarryOver :=
  (r.blockId.bind (lastMark keep)).getD CarryOver.default

/-- A row whose canon is projected to the same canon, where `turn` is what becomes of a number that is
read and kept in a column. -/
structure RowReturns (turn : Number → Number) (keep : List (Uuid × CarryOver)) (r : StepRow) :
    Prop where
  kept : isStepType r.blockType = true → notBlank (loc r.title) = true
  content : isStepType r.blockType = false → Ordered jsonbRank r.content ∧
    depth r.content ≤ 124 ∧ ∀ x ∈ numbersIn r.content, turn x = x
  title : Trimmed (loc r.title)
  desc : Trimmed (loc r.desc)
  command : Trimmed r.command
  imageKey : shownKey r.imageKey = none → shownKey (resolvedRow keep r).imageKey = none
  needsHuman : r.needsHuman = false → (resolvedRow keep r).needsHuman = false
  needsHumanAsk : r.needsHuman = true → Trimmed (loc r.needsHumanAsk)
  danger : r.danger = false → (resolvedRow keep r).danger = false
  why : Trimmed (loc r.why)
  section_ : Trimmed (loc r.section_)
  subtasks : ∀ x ∈ keptTexts loc r.subtasks, x ≠ [] ∧ Trimmed x
  refs : ∀ x ∈ refsFromJson r.refs, keepsRef x.label x.url = true ∧ storedRef x.label x.url = x

/-- An edit whose canon is projected to the same canon by this reader of numbers. -/
structure EditReturns (read : Number → Number) (s : ListState) (edit : WebEdit) : Prop where
  title : if notBlank (loc (patchedMeta s edit.patch).title) then
      Trimmed (loc (patchedMeta s edit.patch).title)
    else loc s.title.value = loc (patchedMeta s edit.patch).title
  desc : Trimmed (loc (patchedMeta s edit.patch).desc)
  tags : (patchedMeta s edit.patch).tags.length ≤ 20
  rows : ∀ r ∈ edit.rows, RowReturns (s.column ∘ read) (currentMarks s) r

private theorem resolved_row (keep : List (Uuid × CarryOver)) (n : Int) (r : StepRow) :
    resolved keep (serStepFromRow n r) = resolvedRow keep r := by
  cases h : r.blockId with
  | none => simp [resolved, resolvedRow, serStepFromRow, h]
  | some id =>
    simp [resolved, resolvedRow, serStepFromRow, h, Option.filter, notBlank_toString,
      Uuid.parseStr_toString]

private theorem rowReturns_iff (turn : Number → Number) (keep : List (Uuid × CarryOver)) (n : Int)
    (r : StepRow) : RowReturns turn keep r ↔ StepReproduced turn keep (serStepFromRow n r) ∧
      (isStepBlock (serStepFromRow n r) = false → depth (serStepFromRow n r).content ≤ 124) := by
  have hcontent : isStepType r.blockType = false → (serStepFromRow n r).content = r.content := by
    intro h
    simp [serStepFromRow, h]
  have hask : (r.needsHuman = true → ∀ a ∈ (serStepFromRow n r).needsHumanAsk,
      a ≠ [] ∧ Trimmed a) ↔ (r.needsHuman = true → Trimmed (loc r.needsHumanAsk)) := by
    refine imp_congr_right fun h => ?_
    by_cases hempty : loc r.needsHumanAsk = []
    · simp [serStepFromRow, presentText, hempty, trimmed_nil]
    · simp [serStepFromRow, presentText, hempty, h]
  constructor
  · intro h
    refine ⟨⟨?_, ?_, ?_, h.title, h.desc, h.command, ?_, ?_, ?_, hask.mpr h.needsHumanAsk, ?_, h.why,
      h.section_, h.subtasks, h.refs⟩, ?_⟩
    · rw [kept, isStepBlock_row]
      cases hblock : isStepType r.blockType with
      | false => rfl
      | true => exact h.kept hblock
    · intro b hb
      obtain ⟨u, -, rfl⟩ := Option.map_eq_some_iff.mp hb
      exact ⟨u, rfl⟩
    · rw [isStepBlock_row]
      intro hblock
      rw [hcontent hblock]
      exact ⟨(h.content hblock).1, (h.content hblock).2.2⟩
    · rw [resolved_row]
      exact h.imageKey
    · exact congrArg Level.asStr (Level.parse_asStr r.level)
    · rw [resolved_row]
      exact h.needsHuman
    · rw [resolved_row]
      exact h.danger
    · rw [isStepBlock_row]
      intro hblock
      rw [hcontent hblock]
      exact (h.content hblock).2.1
  · intro hboth
    obtain ⟨h, hdepth⟩ := hboth
    have hordered := h.content
    have himage := h.imageKey
    have hhuman := h.needsHuman
    have hdanger := h.danger
    have hkept := h.kept
    rw [isStepBlock_row] at hordered hdepth
    rw [resolved_row] at himage hhuman hdanger
    rw [kept, isStepBlock_row] at hkept
    refine ⟨?_, ?_, h.title, h.desc, h.command, himage, hhuman, hask.mp h.needsHumanAsk, hdanger,
      h.why, h.section_, h.subtasks, h.refs⟩
    · intro hblock
      rw [hblock] at hkept
      exact hkept
    · intro hblock
      have hsame := hcontent hblock
      rw [hsame] at hordered hdepth
      exact ⟨(hordered hblock).1, hdepth hblock, (hordered hblock).2⟩

theorem editReturns_iff (read : Number → Number) (s : ListState) (edit : WebEdit) (createdAt : Int) :
    EditReturns read s edit ↔ Shallow (editData s edit createdAt) ∧
      Reproduces read s (editData s edit createdAt) := by
  have hsteps : ∀ i (hi : i < (editData s edit createdAt).steps.length),
      ∃ (hr : i < edit.rows.length),
        (editData s edit createdAt).steps[i] = serStepFromRow (i + 1) edit.rows[i] := by
    intro i hi
    have hr : i < edit.rows.length := by simpa [editData, webVersionData, numbered] using hi
    exact ⟨hr, by simp [editData, webVersionData, numbered]⟩
  have hrows : (∀ r ∈ edit.rows, RowReturns (s.column ∘ read) (currentMarks s) r) ↔
      ∀ t ∈ (editData s edit createdAt).steps, StepReproduced (s.column ∘ read) (currentMarks s) t ∧
        (isStepBlock t = false → depth t.content ≤ 124) := by
    constructor
    · intro h t ht
      obtain ⟨i, hi, rfl⟩ := List.getElem_of_mem ht
      obtain ⟨hr, heq⟩ := hsteps i hi
      rw [heq]
      exact (rowReturns_iff _ _ _ _).mp (h _ (List.getElem_mem hr))
    · intro h r hr
      obtain ⟨i, hi, rfl⟩ := List.getElem_of_mem hr
      have hlen : i < (editData s edit createdAt).steps.length := by
        simpa [editData, webVersionData, numbered] using hi
      obtain ⟨_, heq⟩ := hsteps i hlen
      have ht := h _ (List.getElem_mem hlen)
      rw [heq] at ht
      exact (rowReturns_iff _ _ _ _).mpr ht
  constructor
  · intro h
    have hall := hrows.mp h.rows
    refine ⟨fun t ht => (hall t ht).2, h.title, h.desc, h.tags, ?_, ?_, ?_, ?_,
      fun t ht => (hall t ht).1⟩
    · intro k hk
      exact (Option.filter_eq_some_iff.mp hk).2
    · intro hk
      exact hk
    · intro hheader
      have hidem := bind_skillHeaderValid_idem s.skillHeader
      rwa [← hidem]
    · intro i hi
      obtain ⟨_, heq⟩ := hsteps i hi
      rw [heq]
      rfl
  · intro hboth
    obtain ⟨hshallow, h⟩ := hboth
    exact ⟨h.title, h.desc, h.tags, hrows.mpr fun t ht => ⟨h.steps t ht, hshallow t ht⟩⟩

/-- Repository and database agree: the highest version tag is the current version, and it stands on
the tip of main. -/
structure Agree (refs : Refs) (s : ListState) : Prop where
  born : 0 < s.currentVersion
  highest : (maxTagIn refs : Int) = s.currentVersion
  tip : ∃ p, refs.lookup mainRef = some (.commit p) ∧
    refs.lookup (tagRef (versionTag s.currentVersion)) = some (.commit p)
  rows : ∀ r ∈ s.versions, r.version ≤ s.currentVersion

/-- An alignment changes nothing where repository and database agree, whatever fails in it. -/
theorem sync_of_agree (core : Core) (f : SyncFaults) {refs : Refs} {s : ListState}
    (h : Agree refs s) : syncRepoWithDb core f (.repo refs) (some s) =
      ⟨.repo refs, some s, if f.readCurrent then .ok .inSync else .error .database, false⟩ := by
  obtain ⟨p, hmain, htag⟩ := h.tip
  have htip : tagOnTip refs s.currentVersion = true := by
    simp [tagOnTip, hmain, htag]
  have haligned : alignByCounters core f refs s (maxTagIn refs) = ⟨refs, s, .ok .inSync, false⟩ := by
    rw [alignByCounters, if_pos h.highest, htip]
    simp
  cases hcurrent : f.readCurrent with
  | false => simp [syncRepoWithDb, hcurrent]
  | true => simp [syncRepoWithDb, hcurrent, hmain, haligned, Aligned.synced]

theorem commitWebVersion_of_agree (core : Core) (f : WebFaults) {refs : Refs} {s : ListState}
    (h : Agree refs s) (edit : WebEdit) : commitWebVersion core f (.repo refs) (some s) edit =
      if f.sync.readCurrent = true ∧ f.readRow = true then writeVersion core f refs s edit
      else ⟨.repo refs, some s, .error .database⟩ := by
  rw [commitWebVersion, sync_of_agree core f.sync h]
  cases f.sync.readCurrent with
  | false => simp
  | true =>
    cases f.readRow with
    | false => simp
    | true => simp

theorem readTip_of_commitVersion {core : Core} {refs : Refs} {parent : Option Commit}
    {v : VersionData} {authored : VersionTree.AuthoredSource} {c : Commit}
    (hcommit : commitVersion core parent v authored = some c)
    (hmain : refs.lookup mainRef = some (.commit c)) :
    c.tree.get "list.json".toList = some (.leaf (.file false (utf8 (listJson core.schemaUrl v)))) ∧
    readTip core refs = some (c, utf8 (listJson core.schemaUrl v), core.subject c.stamp) := by
  obtain ⟨t, ht, rfl⟩ := Option.map_eq_some_iff.mp hcommit
  have hmem : ("list.json".toList, listJson core.schemaUrl v) ∈ versionFiles core.schemaUrl v := by
    simp [versionFiles]
  have hget := CarriedTree.get_generated ht hmem
  refine ⟨hget, ?_⟩
  rw [readTip, Refs.commitAt_eq_some.mpr hmain, Option.bind_some]
  simp only [Commit.tree, hget, Leaf.blob, Option.map_some]

theorem projectPushedCommit_unread {core : Core} {f : ProjectionFaults} {refs : Refs}
    {s : ListState} {tip : Commit} {bytes : Bytes} {subject : Text}
    (hread : readTip core refs = some (tip, bytes, subject))
    (hparse : core.parser.fromSlice bytes = none) :
    projectPushedCommit core f refs s = ⟨refs, s, .ok none, false⟩ := by
  simp [projectPushedCommit, hread, hparse]

theorem projectPushedCommit_steady {core : Core} {refs : Refs} {s : ListState} {tip : Commit}
    {bytes : Bytes} {subject : Text} {raw : RawList} {steps : List RawStep} (now : Int)
    (hread : readTip core refs = some (tip, bytes, subject))
    (hparse : core.parser.fromSlice bytes = some raw) (hsteps : raw.steps = some steps)
    (hfree : FreeNumber s (s.currentVersion + 1)) :
    projectPushedCommit core (steady now).projection refs s =
      ⟨refs.insert (tagRef (versionTag (s.currentVersion + 1))) (.commit tip),
        projectedList s raw steps (projectionNote subject) now,
        .ok (some (s.currentVersion + 1)), false⟩ := by
  have hadd := addVersion_of_free hfree (projectionNote subject) now (parseSteps steps)
  simp only [projectPushedCommit, hread, hparse, hsteps, steady, hadd]
  rfl

/-- What an alignment must leave after a write: the versions from before it, one more with the
committed canon if main has moved, and the tag of the current version on the tip of main. -/
structure Restored (core : Core) (refs : Refs) (s : ListState) (written after : Refs)
    (healed : ListState) : Prop where
  main : after.lookup mainRef = written.lookup mainRef
  tip : ∃ c, after.lookup mainRef = some (.commit c) ∧
    after.lookup (tagRef (versionTag healed.currentVersion)) = some (.commit c)
  same : written.lookup mainRef = refs.lookup mainRef → healed = s
  next : ∀ c, written.lookup mainRef = some (.commit c) →
    written.lookup mainRef ≠ refs.lookup mainRef → NextVersion s healed ∧
      ∃ v, currentData healed = some v ∧ c.tree.get "list.json".toList =
        some (.leaf (.file false (utf8 (listJson core.schemaUrl v))))

/-- The next alignment restores the list, and no later one changes anything. -/
def Heals (core : Core) (now : Int) (refs : Refs) (s : ListState) (w : WebWrite) : Prop :=
  ∃ written after healed, w.disk = .repo written ∧
    (syncRepoWithDb core (steady now) w.disk w.list).disk = .repo after ∧
    (syncRepoWithDb core (steady now) w.disk w.list).list = some healed ∧
    Restored core refs s written after healed ∧
    ∀ f, (syncRepoWithDb core f (.repo after) (some healed)).disk = .repo after ∧
      (syncRepoWithDb core f (.repo after) (some healed)).list = some healed

theorem next_of_heals {core : Core} {now : Int} {refs written : Refs} {s healed : ListState}
    {w : WebWrite} {c : Commit} {text : Text} (h : Heals core now refs s w)
    (hdisk : w.disk = .repo written)
    (hlist : (syncRepoWithDb core (steady now) w.disk w.list).list = some healed)
    (hmain : written.lookup mainRef = some (.commit c))
    (hmoved : written.lookup mainRef ≠ refs.lookup mainRef)
    (hcanon : c.tree.get "list.json".toList = some (.leaf (.file false (utf8 text)))) :
    NextVersion s healed ∧
      ∃ v, currentData healed = some v ∧ text = listJson core.schemaUrl v := by
  obtain ⟨written', after, healed', hwritten, -, hhealed, hrestored, -⟩ := h
  obtain rfl := Disk.repo.inj (hdisk.symm.trans hwritten)
  obtain rfl := Option.some.inj (hlist.symm.trans hhealed)
  obtain ⟨hnext, v, hv, hfile⟩ := hrestored.next c hmain hmoved
  rw [hcanon] at hfile
  exact ⟨hnext, v, hv, utf8_injective (Leaf.file.inj (Entry.leaf.inj (Option.some.inj hfile))).2⟩

theorem settled_of_agree (core : Core) {after : Refs} {healed : ListState} (h : Agree after healed)
    (f : SyncFaults) : (syncRepoWithDb core f (.repo after) (some healed)).disk = .repo after ∧
      (syncRepoWithDb core f (.repo after) (some healed)).list = some healed := by
  rw [sync_of_agree core f h]
  exact ⟨rfl, rfl⟩

theorem heals_of_unchanged (core : Core) (now : Int) {refs : Refs} {s : ListState}
    (h : Agree refs s) (e : WebVersionError) :
    Heals core now refs s ⟨.repo refs, some s, .error e⟩ := by
  obtain ⟨hdisk, hlist⟩ := settled_of_agree core h (steady now)
  obtain ⟨p, hmain, htag⟩ := h.tip
  refine ⟨refs, refs, s, rfl, hdisk, hlist, ⟨rfl, ⟨p, hmain, htag⟩, fun _ => rfl, ?_⟩,
    settled_of_agree core h⟩
  intro c _ hne
  exact absurd rfl hne

/-- The references with main on a commit and the tag of the next version there. -/
theorem agree_of_tagged {written : Refs} {s healed : ListState} {c : Commit}
    (hroom : s.currentVersion < 2147483647) (hborn : 0 ≤ s.currentVersion)
    (hmain : written.lookup mainRef = some (.commit c))
    (hup : (maxTagIn written : Int) ≤ s.currentVersion + 1) (hnext : NextVersion s healed)
    (hrows : ∀ r ∈ s.versions, r.version ≤ s.currentVersion) :
    Agree (written.insert (tagRef (versionTag (s.currentVersion + 1))) (.commit c)) healed := by
  obtain ⟨hcurrent, v, hv, hversions⟩ := hnext
  obtain ⟨n, hn⟩ := Int.eq_ofNat_of_zero_le (show 0 ≤ s.currentVersion + 1 by omega)
  have hmax := @maxTagIn_insert_next written n (by omega) (by omega) (.commit c)
  refine ⟨by omega, ?_, ⟨c, ?_, ?_⟩, ?_⟩
  · rw [hn, hmax, hcurrent]
    exact hn.symm
  · rw [AList.lookup_insert_ne (tagRef_ne_mainRef _).symm]
    exact hmain
  · rw [hcurrent, AList.lookup_insert]
  · intro r hr
    rw [hversions] at hr
    rcases List.mem_append.mp hr with hr | hr
    · have hle := hrows r hr
      omega
    · rw [List.mem_singleton.mp hr]
      omega

def plainWrite : WebFaults := ⟨steady 0, true, true, 0, ⟨true, fun _ => true⟩, .done⟩

/-- Repository and database agree on a tip whose files can be carried over. -/
structure Ready (tip : Commit) (refs : Refs) (s : ListState) : Prop where
  agree : Agree refs s
  main : refs.lookup mainRef = some (.commit tip)
  format : Authored.firstForeignPath tip.tree = none ∧ Authored.authoredViolation tip.tree = none

/-- A write without faults that carries its files over becomes the next version. -/
theorem Ready.written {core : Core} (hnames : CarriedTree.NamesFree core.reserved) {tip : Commit}
    {refs : Refs} {s : ListState} (h : Ready tip refs s) (hroom : s.currentVersion < 2147483647)
    {edit : WebEdit} (hcarry : edit.authored = none)
    (hexpected : ∀ e, edit.expectedVersion = some e → e = s.currentVersion) :
    ∃ c, commitVersion core (some tip) (editData s edit 0) .carry = some c ∧
      commitWebVersion core plainWrite (.repo refs) (some s) edit =
        ⟨.repo ((refs.insert mainRef (.commit c)).insert
          (tagRef (versionTag (s.currentVersion + 1))) (.commit c)),
          some (editedList s edit 0), .ok (s.currentVersion + 1)⟩ ∧
      Ready c ((refs.insert mainRef (.commit c)).insert
        (tagRef (versionTag (s.currentVersion + 1))) (.commit c)) (editedList s edit 0) := by
  obtain ⟨t, hcommit, hformat⟩ := commitVersion_carried hnames (some tip)
    (fun p hp => Option.some.inj hp ▸ h.format) (editData s edit 0)
  set c : Commit := .mk t [tip] ⟨Readme.commitMessage (editData s edit 0), authorName,
    (editData s edit 0).ts⟩ with hc
  have hsource : edit.source = .carry := by rw [WebEdit.source, hcarry]
  have haccept : Acceptable core refs s edit 0 (some tip) c := by
    refine ⟨hexpected, fun v hv => ?_, fun files hfiles => ?_, h.main, hsource ▸ hcommit, hformat⟩
    · have hrow := h.agree.rows v hv
      omega
    · rw [hcarry] at hfiles
      cases hfiles
  have hwrite := commitWebVersion_of_agree core plainWrite h.agree edit
  rw [if_pos ⟨rfl, rfl⟩] at hwrite
  have hmain : (refs.insert mainRef (.commit c)).lookup mainRef = some (.commit c) :=
    AList.lookup_insert refs
  have hup : (maxTagIn (refs.insert mainRef (.commit c)) : Int) ≤ s.currentVersion + 1 := by
    have hhighest := h.agree.highest
    rw [maxTagIn_insert_main]
    omega
  have hafter := agree_of_tagged hroom h.agree.born.le hmain hup
    (show NextVersion s (editedList s edit 0) from ⟨rfl, _, rfl, rfl⟩) h.agree.rows
  refine ⟨c, hcommit, ?_, hafter, ?_, ((mainViolation_eq_none_iff _).mp hformat).2⟩
  · rcases writeVersion_cases core plainWrite refs s edit with
      ⟨-, hnone⟩ | ⟨parent, d, hmade, -, -, ⟨htagged, -⟩ | ⟨-, hdisk, hlist, hout⟩⟩
    · exact absurd (hnone _ _ haccept rfl) Bool.noConfusion
    · cases htagged
    · obtain rfl : parent = some tip := Option.map_injective (fun _ _ => Target.commit.inj)
        (hmade.main.symm.trans h.main)
      have hsame := hmade.commit
      rw [hsource] at hsame
      obtain rfl : c = d := Option.some.inj (hcommit.symm.trans hsame)
      rw [hwrite]
      generalize writeVersion core plainWrite refs s edit = w at hdisk hlist hout
      obtain ⟨disk, list, outcome⟩ := w
      obtain rfl := hdisk
      obtain rfl := hlist
      obtain rfl := hout
      rfl
  · exact (AList.lookup_insert_ne (tagRef_ne_mainRef _).symm).trans hmain

theorem editData_maps {s : ListState} {edit : WebEdit} (createdAt : Int)
    (hborn : 0 < s.currentVersion) (hroom : s.currentVersion < 2147483647)
    (hcount : edit.rows.length ≤ 2147483647) (hrows : ∀ r ∈ edit.rows, UniqueKeys r.content)
    (hheader : ∀ h ∈ s.skillHeader, UniqueKeys h) : VersionMaps (editData s edit createdAt) := by
  constructor
  · intro t ht
    obtain ⟨i, hi, rfl⟩ := List.mem_mapIdx.mp ht
    have hrow := hrows _ (List.getElem_mem hi)
    simp only [serStepFromRow]
    split_ifs
    · trivial
    · exact hrow
  · intro h hh
    obtain ⟨w, hw, hvalid⟩ := Option.bind_eq_some_iff.mp hh
    exact uniqueKeys_skillHeaderValid (hheader w hw) hvalid
  · refine ⟨?_, fits_numbered (fun _ _ => rfl) hcount⟩
    change fitsInt32 (s.currentVersion + 1) = true
    rw [fitsInt32, Bool.and_eq_true, decide_eq_true_eq, decide_eq_true_eq]
    omega

theorem sync_of_ahead (core : Core) (now : Int) {written : Refs} {s : ListState} {c : Commit}
    (hborn : 0 < s.currentVersion) (hmain : written.lookup mainRef = some (.commit c))
    (hahead : (maxTagIn written : Int) = s.currentVersion ∧
        tagOnTip written s.currentVersion = false ∨
      (maxTagIn written : Int) = s.currentVersion + 1 ∧
        tagOnTip written (s.currentVersion + 1) = true) :
    ∃ o, syncRepoWithDb core (steady now) (.repo written) (some s) =
      (projectedOr (projectPushedCommit core (steady now).projection written s) o).synced := by
  have haligned : syncRepoWithDb core (steady now) (.repo written) (some s) =
      (alignByCounters core (steady now) written s (maxTagIn written)).synced := by
    simp [syncRepoWithDb, hmain, steady]
  rw [haligned]
  rcases hahead with ⟨hmax, htip⟩ | ⟨hmax, htip⟩
  · refine ⟨.tipNotVersioned s.currentVersion, ?_⟩
    rw [alignByCounters, if_pos hmax, if_pos ⟨hborn, htip⟩]
  · refine ⟨.conflict (maxTagIn written) s.currentVersion, ?_⟩
    rw [alignByCounters, if_neg (by omega), if_neg (by omega), if_pos ⟨hmax, by rwa [hmax]⟩]

theorem heals_uncommitted_iff (core : Core) (now : Int) {refs written : Refs} {s : ListState}
    {edit : WebEdit} {createdAt : Int} {parent : Option Commit} {c : Commit}
    (hagree : Agree refs s) (hroom : s.currentVersion < 2147483647)
    (hcount : edit.rows.length ≤ 2147483647) (hrows : ∀ r ∈ edit.rows, UniqueKeys r.content)
    (hheader : ∀ h ∈ s.skillHeader, UniqueKeys h)
    (haccept : Acceptable core refs s edit createdAt parent c)
    (hmain : written.lookup mainRef = some (.commit c))
    (hmoved : written.lookup mainRef ≠ refs.lookup mainRef)
    (hahead : (maxTagIn written : Int) = s.currentVersion ∧
        tagOnTip written s.currentVersion = false ∨
      (maxTagIn written : Int) = s.currentVersion + 1 ∧
        tagOnTip written (s.currentVersion + 1) = true)
    (w : WebWrite) (hdisk : w.disk = .repo written) (hlist : w.list = some s) :
    Heals core now refs s w ↔ EditReturns core.parser.read s edit := by
  set v := editData s edit createdAt with hv
  obtain ⟨hcanon, hread⟩ := readTip_of_commitVersion haccept.commit hmain
  obtain ⟨hparse, hdeep⟩ :=
    core.parser.fromSlice_listJson (editData_maps createdAt hagree.born hroom hcount hrows hheader)
  obtain ⟨o, hsync⟩ := sync_of_ahead core now hagree.born hmain hahead
  have hnumber : ({ v with version := s.currentVersion + 1 } : VersionData) = v := rfl
  rw [editReturns_iff core.parser.read s edit createdAt]
  by_cases hshallow : Shallow v
  · have hproject := projectPushedCommit_steady now hread (hparse hshallow) rfl haccept.free
    have hdata := currentData_projectedList haccept.free (rawOfCanon (changeNumbers core.parser.read v))
      ((changeNumbers core.parser.read v).steps.map rawOfStep)
      (projectionNote (core.subject c.stamp)) now
    have hsame := sameCanon_projected_iff core.parser.read s v
      (projectionNote (core.subject c.stamp)) now
    rw [hnumber] at hsame
    rw [hproject] at hsync
    constructor
    · intro h
      have hhealed := congrArg Synced.list hsync
      rw [← hdisk, ← hlist] at hhealed
      obtain ⟨-, v', hv', hprint⟩ := next_of_heals h hdisk hhealed hmain hmoved hcanon
      obtain rfl := Option.some.inj (hdata.symm.trans hv')
      exact ⟨hshallow, hsame.mp (listJson_eq_iff.mp hprint)⟩
    · intro h
      rw [Heals, hdisk, hlist, hsync]
      have hprint := @listJson_eq_iff core.schemaUrl _ _ |>.mpr (hsame.mpr h.2)
      have hnext : NextVersion s (projectedList s (rawOfCanon (changeNumbers core.parser.read v))
          ((changeNumbers core.parser.read v).steps.map rawOfStep)
          (projectionNote (core.subject c.stamp)) now) := ⟨rfl, _, rfl, rfl⟩
      have hup : (maxTagIn written : Int) ≤ s.currentVersion + 1 := by
        rcases hahead with ⟨hmax, -⟩ | ⟨hmax, -⟩ <;> omega
      have hafter := agree_of_tagged hroom hagree.born.le hmain hup hnext hagree.rows
      refine ⟨written, _, _, rfl, rfl, rfl, ⟨?_, ?_, fun h => absurd h hmoved, ?_⟩,
        settled_of_agree core hafter⟩
      · exact AList.lookup_insert_ne (tagRef_ne_mainRef _).symm
      · exact ⟨c, (AList.lookup_insert_ne (tagRef_ne_mainRef _).symm).trans hmain,
          AList.lookup_insert written⟩
      · intro c' hc' _
        obtain rfl := Refs.commit_unique hmain hc'
        refine ⟨hnext, _, hdata, ?_⟩
        rw [hcanon, ← hprint]
  · have hproject := projectPushedCommit_unread (f := (steady now).projection) (s := s) hread
      (hdeep hshallow)
    rw [hproject] at hsync
    constructor
    · intro h
      have hhealed := congrArg Synced.list hsync
      rw [← hdisk, ← hlist] at hhealed
      obtain ⟨⟨hcurrent, -⟩, -⟩ := next_of_heals h hdisk hhealed hmain hmoved hcanon
      have hsame : s.currentVersion = s.currentVersion + 1 := hcurrent
      omega
    · intro h
      exact absurd h.1 hshallow

theorem heals_committed_iff (core : Core) (now : Int) {refs written : Refs} {s : ListState}
    {edit : WebEdit} {createdAt : Int} {parent : Option Commit} {c : Commit}
    (haccept : Acceptable core refs s edit createdAt parent c)
    (hmain : written.lookup mainRef = some (.commit c))
    (hmoved : written.lookup mainRef ≠ refs.lookup mainRef)
    (hafter : Agree written (editedList s edit createdAt))
    (w : WebWrite) (hdisk : w.disk = .repo written)
    (hlist : w.list = some (editedList s edit createdAt)) :
    Heals core now refs s w ↔ OrderStable s.column (patchedMeta s edit.patch) edit.rows := by
  obtain ⟨hcanon, -⟩ := readTip_of_commitVersion haccept.commit hmain
  have hweb := web_canon_iff core.schemaUrl s (patchedMeta s edit.patch) (s.currentVersion + 1)
    edit.note createdAt edit.rows haccept.free
  rw [← hweb]
  have hsync := sync_of_agree core (steady now) hafter
  constructor
  · intro h
    have hhealed : (syncRepoWithDb core (steady now) w.disk w.list).list =
        some (editedList s edit createdAt) := by
      rw [hdisk, hlist, hsync]
    exact (next_of_heals h hdisk hhealed hmain hmoved hcanon).2
  · intro h
    rw [Heals, hdisk, hlist, hsync]
    obtain ⟨v', hv', hprint⟩ := h
    obtain ⟨p, hp, htag⟩ := hafter.tip
    refine ⟨written, written, _, rfl, rfl, rfl, ⟨rfl, ⟨p, hp, htag⟩, fun h => absurd h hmoved, ?_⟩,
      settled_of_agree core hafter⟩
    intro c' hc' _
    obtain rfl := Refs.commit_unique hmain hc'
    refine ⟨⟨rfl, _, rfl, rfl⟩, v', hv', ?_⟩
    rw [hcanon, ← hprint]
    rfl

/-- The write gets as far as moving main. -/
structure ReachesMain (core : Core) (f : WebFaults) (refs : Refs) (s : ListState)
    (edit : WebEdit) : Prop where
  current : f.sync.readCurrent = true
  row : f.readRow = true
  inserted : f.inserted = true
  written : f.history.written = true
  accepted : ∃ parent c, Acceptable core refs s edit f.createdAt parent c

/-- The write gets as far as committing its rows. -/
def RowsCommitted (f : WebFaults) (s : ListState) : Prop :=
  f.history.tagged (s.currentVersion + 1) = true ∧ f.tail ≠ .failed

instance (f : WebFaults) (s : ListState) : Decidable (RowsCommitted f s) :=
  inferInstanceAs (Decidable (_ ∧ _))

theorem heals_of_stopped (core : Core) (f : WebFaults) (now : Int) {refs : Refs} {s : ListState}
    {edit : WebEdit} (hagree : Agree refs s) (h : ¬ ReachesMain core f refs s edit) :
    Heals core now refs s (commitWebVersion core f (.repo refs) (some s) edit) := by
  rw [commitWebVersion_of_agree core f hagree]
  split_ifs with hread
  · rcases writeVersion_cases core f refs s edit with ⟨⟨e, he⟩, -⟩ | hmoved
    · rw [he]
      exact heals_of_unchanged core now hagree e
    · obtain ⟨parent, c, haccept, hinserted, hwritten, -⟩ := hmoved
      exact absurd ⟨hread.1, hread.2, hinserted, hwritten, parent, c, haccept⟩ h
  · exact heals_of_unchanged core now hagree _

theorem heals_reached_iff (core : Core) (f : WebFaults) (now : Int) {refs : Refs}
    {s : ListState} {edit : WebEdit} (hagree : Agree refs s)
    (hroom : s.currentVersion < 2147483647) (hcount : edit.rows.length ≤ 2147483647)
    (hrows : ∀ r ∈ edit.rows, UniqueKeys r.content)
    (hheader : ∀ h ∈ s.skillHeader, UniqueKeys h) (hreach : ReachesMain core f refs s edit) :
    Heals core now refs s (commitWebVersion core f (.repo refs) (some s) edit) ↔
      if RowsCommitted f s then OrderStable s.column (patchedMeta s edit.patch) edit.rows
      else EditReturns core.parser.read s edit := by
  rw [commitWebVersion_of_agree core f hagree, if_pos ⟨hreach.current, hreach.row⟩]
  obtain ⟨p, hp, htagp⟩ := hagree.tip
  have hmoves : ∀ parent c, Acceptable core refs s edit f.createdAt parent c → p ≠ c := by
    intro parent c haccept heq
    obtain rfl : parent = some p := Option.map_injective (fun _ _ => Target.commit.inj)
      (haccept.main.symm.trans hp)
    exact (commitVersion_parents haccept.commit p rfl).2 heq.symm
  rcases writeVersion_cases core f refs s edit with ⟨-, hnone⟩ | hmoved
  · obtain ⟨parent, c, haccept⟩ := hreach.accepted
    have hwritten := hnone parent c haccept hreach.inserted
    rw [hreach.written] at hwritten
    cases hwritten
  obtain ⟨parent, c, haccept, -, -, hwrite⟩ := hmoved
  have hne := hmoves parent c haccept
  have htarget : some (Target.commit c) ≠ refs.lookup mainRef := by
    rw [hp]
    intro heq
    exact hne (Target.commit.inj (Option.some.inj heq)).symm
  have hmax : maxTagIn (refs.insert mainRef (.commit c)) = maxTagIn refs :=
    maxTagIn_insert_main refs _
  have hmain : (refs.insert mainRef (.commit c)).lookup mainRef = some (.commit c) :=
    AList.lookup_insert refs
  rcases hwrite with ⟨htag, hdisk, hlist, -⟩ | ⟨htag, hdisk, hlist, -⟩
  · have hopen : ¬ RowsCommitted f s := by
      intro h
      rw [h.1] at htag
      cases htag
    rw [if_neg hopen]
    apply heals_uncommitted_iff core now hagree hroom hcount hrows hheader haccept hmain
      (by rw [hmain]; exact htarget) _ _ hdisk hlist
    refine Or.inl ⟨by rw [hmax]; exact hagree.highest, ?_⟩
    have hold : (refs.insert mainRef (.commit c)).lookup (tagRef (versionTag s.currentVersion)) =
        some (.commit p) := (AList.lookup_insert_ne (tagRef_ne_mainRef _)).trans htagp
    simp [tagOnTip, hold, hmain, hne]
  · have hmain' : ((refs.insert mainRef (.commit c)).insert
        (tagRef (versionTag (s.currentVersion + 1))) (.commit c)).lookup mainRef =
        some (.commit c) := (AList.lookup_insert_ne (tagRef_ne_mainRef _).symm).trans hmain
    have hup : (maxTagIn (refs.insert mainRef (.commit c)) : Int) ≤ s.currentVersion + 1 := by
      have hhighest := hagree.highest
      rw [hmax]
      omega
    have hafter : Agree ((refs.insert mainRef (.commit c)).insert
        (tagRef (versionTag (s.currentVersion + 1))) (.commit c)) (editedList s edit f.createdAt) :=
      agree_of_tagged hroom hagree.born.le hmain hup ⟨rfl, _, rfl, rfl⟩ hagree.rows
    by_cases htail : f.tail = .failed
    · have hopen : ¬ RowsCommitted f s := fun h => h.2 htail
      rw [if_neg hopen]
      rw [if_pos htail] at hlist
      apply heals_uncommitted_iff core now hagree hroom hcount hrows hheader haccept hmain'
        (by rw [hmain']; exact htarget) _ _ hdisk hlist
      refine Or.inr ⟨hafter.highest, ?_⟩
      simp [tagOnTip, hmain']
    · rw [if_pos ⟨htag, htail⟩]
      rw [if_neg htail] at hlist
      exact heals_committed_iff core now haccept hmain' (by rw [hmain']; exact htarget) hafter _
        hdisk hlist

def markedId : Uuid := .repeated 1

def markedRow (danger : Bool) : StepRow where
  blockType := "step".toList
  content := .obj []
  blockId := some markedId
  title := locVal "Restart".toList
  desc := .obj []
  command := []
  imageKey := none
  level := .required
  why := .obj []
  section_ := .obj []
  subtasks := .arr []
  refs := .arr []
  needsHuman := false
  needsHumanAsk := .obj []
  danger := danger

/-- A list with one dangerous step. -/
def markedList : ListState := createList id plainMeta "initial".toList 0 [markedRow true]

def firstCommit : Commit := .mk .empty [] ⟨[], [], 0⟩

/-- Its repository: main and the tag of the first version on one commit. -/
def markedRefs : Refs := AList.insert (tagRef (versionTag 1)) (.commit firstCommit)
  (AList.insert mainRef (.commit firstCommit) ∅)

/-- The same step, dangerous or not, as the next version. -/
def markEdit (danger : Bool) : WebEdit where
  note := []
  rows := [markedRow danger]
  patch := ⟨none, none, none, none⟩
  expectedVersion := none
  authored := none

/-- A write whose transaction is lost after the tag. -/
def lostTail : WebFaults := ⟨steady 0, true, true, 0, ⟨true, fun _ => true⟩, .failed⟩

theorem markedRefs_main : markedRefs.lookup mainRef = some (.commit firstCommit) := by
  rw [markedRefs, AList.lookup_insert_ne (tagRef_ne_mainRef _).symm, AList.lookup_insert]

theorem markedRefs_agree : Agree markedRefs markedList := by
  have hzero : maxTagIn (AList.insert mainRef (.commit firstCommit) (∅ : Refs)) = 0 := by
    rw [maxTagIn_insert_main]
    rfl
  have hmax : maxTagIn markedRefs = 1 :=
    maxTagIn_insert_next (n := 1) (by omega) (by omega) _
  refine ⟨Int.one_pos, by rw [hmax]; rfl, ⟨firstCommit, markedRefs_main, AList.lookup_insert _⟩, ?_⟩
  intro r hr
  rw [List.mem_singleton.mp hr]
  exact le_refl 1

theorem markedRefs_ready : Ready firstCommit markedRefs markedList :=
  ⟨markedRefs_agree, markedRefs_main, rfl, rfl⟩

private theorem markEdit_content (danger : Bool) :
    ∀ r ∈ (markEdit danger).rows, UniqueKeys r.content := by
  intro r hr
  rw [List.mem_singleton.mp hr]
  trivial

private theorem markedList_header : ∀ h ∈ markedList.skillHeader, UniqueKeys h := by
  intro h hh
  cases hh

theorem markEdit_reaches (danger : Bool) :
    ReachesMain canonCore lostTail markedRefs markedList (markEdit danger) := by
  have hnames : CarriedTree.NamesFree canonCore.reserved := fun _ _ _ _ => rfl
  obtain ⟨t, hcommit, hformat⟩ := commitVersion_carried hnames (some firstCommit)
    (fun p hp => Option.some.inj hp ▸ ⟨rfl, rfl⟩) (editData markedList (markEdit danger) 0)
  have hfree : ∀ v ∈ markedList.versions, v.version ≠ markedList.currentVersion + 1 := by
    intro v hv
    rw [List.mem_singleton.mp hv]
    decide
  exact ⟨rfl, rfl, rfl, rfl, some firstCommit, _, nofun, hfree, nofun, markedRefs_main, hcommit,
    hformat⟩

end Setfork.Healing
