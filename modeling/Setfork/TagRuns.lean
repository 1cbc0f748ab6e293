/- TagRuns
   digest: Version tags over whole runs of the core, and the projections that move one. -/
import Setfork.Healing
import Setfork.PushBack
import Setfork.Received
import Setfork.SoundStates

set_option autoImplicit false
set_option relaxedAutoImplicit false

namespace Setfork.TagRuns

open Setfork.Foundation
open Setfork.Serialize
open Setfork.Rows
open Setfork.Authored
open Setfork.VersionTree
open Setfork.Repository
open Setfork.History
open Setfork.Alignment
open Setfork.AppendOnly
open Setfork.WebVersion
open Setfork.PushBack (pushedCanon twin single_read)
open Setfork.Healing
open Setfork.Push
open Setfork.Received
open Setfork.Branches
open Setfork.Service
open Setfork.SoundStates

/-- The references were changed beside the version tags, and main is still there if it was. -/
structure Beside (before after : Refs) : Prop where
  tags : ∀ ref, (tagVersion ref).isSome = true → after.lookup ref = before.lookup ref
  main : mainRef ∈ before → mainRef ∈ after

namespace Beside

variable {before middle after refs : Refs}

protected theorem refl (refs : Refs) : Beside refs refs := ⟨fun _ _ => rfl, id⟩

protected theorem trans (h : Beside before middle) (h' : Beside middle after) :
    Beside before after where
  tags := fun ref href => (h'.tags ref href).trans (h.tags ref href)
  main := fun hmain => h'.main (h.main hmain)

theorem insert {name : Text} (hname : tagVersion name = none) (t : Target) :
    Beside refs (refs.insert name t) where
  tags := by
    intro ref href
    apply AList.lookup_insert_ne
    intro heq
    rw [heq, hname] at href
    cases href
  main := fun hmain => (AList.mem_insert refs).mpr (Or.inr hmain)

theorem erase {name : Text} (hname : tagVersion name = none) (hmain : name ≠ mainRef) :
    Beside refs (refs.erase name) where
  tags := by
    intro ref href
    apply AList.lookup_erase_ne
    intro heq
    rw [heq, hname] at href
    cases href
  main := fun h => AList.mem_erase.mpr ⟨hmain.symm, h⟩

theorem tagsKept (h : Beside before after) : TagsKept before after :=
  fun ref href _ ht => (h.tags ref href).trans ht

theorem tagged (h : Beside before after) (hafter : ∃ ref ∈ after, (tagVersion ref).isSome = true) :
    ∃ ref ∈ before, (tagVersion ref).isSome = true := by
  obtain ⟨ref, href, hsome⟩ := hafter
  refine ⟨ref, ?_, hsome⟩
  rw [← AList.lookup_isSome, ← h.tags ref hsome, AList.lookup_isSome]
  exact href

end Beside

section Beside

variable {lib : GitLibrary} {reserved : Name → Bool} {fromSlice : Bytes → Option Project.RawList}
  {written squash : Bool} {refs changed : Refs} {name : Text} {stamp : Stamp}

theorem branchRef_ne_main (h : name ≠ mainName) : branchRef name ≠ mainRef :=
  fun heq => h (branchRef_injective heq)

theorem beside_createBranch {origin : Text} (h : createBranch written refs name origin = .ok changed) :
    Beside refs changed := by
  obtain ⟨base, c, -, -, rfl⟩ := createBranch_eq_ok h
  exact .insert (tagVersion_branchRef name) _

theorem beside_deleteBranch (h : deleteBranch written refs name = .ok changed) :
    Beside refs changed := by
  obtain ⟨hname, rfl⟩ := deleteBranch_eq_ok h
  exact .erase (tagVersion_branchRef name) (branchRef_ne_main hname)

theorem beside_commitToBranch {listJson : Bytes} {expectedTip : Option Commit}
    (h : commitToBranch reserved fromSlice written refs name listJson expectedTip stamp =
      .ok changed) : Beside refs changed := by
  obtain ⟨-, rfl | ⟨tip, t, -, -, rfl⟩⟩ := commitToBranch_eq_ok h
  · exact .refl _
  · exact .insert (tagVersion_branchRef name) _

theorem beside_updateBranch (h : updateBranch lib written refs name stamp = .ok changed) :
    Beside refs changed := by
  obtain ⟨-, theirs, ours, -, -, rfl | ⟨t, -, rfl⟩⟩ := updateBranch_eq_ok h
  · exact .insert (tagVersion_branchRef name) _
  · exact .insert (tagVersion_branchRef name) _

theorem beside_createTag {version : Int} (h : createTag written refs name version = .ok changed) :
    Beside refs changed := by
  obtain ⟨hname, t, -, rfl⟩ := createTag_eq_ok h
  exact .insert ((tagVersion_tagRef name).trans hname) t

theorem beside_mergeBranch (h : mergeBranch lib written refs name squash stamp = .ok changed) :
    Beside refs changed := by
  obtain ⟨ours, theirs, newTip, -, -, -, -, -, -, rfl⟩ := mergeBranch_eq_ok h
  exact .insert tagVersion_mainRef _

theorem beside_mergeResolved {listJson : Bytes}
    (h : mergeResolved reserved fromSlice written refs name listJson squash stamp = .ok changed) :
    Beside refs changed := by
  obtain ⟨ours, theirs, t, parents, -, -, -, -, -, rfl⟩ := mergeResolved_eq_ok h
  exact .insert tagVersion_mainRef _

/-- A push and its magic references stay beside the version tags. -/
theorem beside_received (applied : Text → Bool) (f : MagicFaults) (env : HookEnv)
    (refs : Refs) (commands : List RefCommand) :
    Beside refs (takeMagicPushes f env.actor refs
      (received lib applied env refs commands)).1 := by
  have hpushed : Beside refs (received lib applied env refs commands) :=
    ⟨fun _ href => lookup_received_of_tag applied env refs commands href,
      main_received applied env refs commands⟩
  apply hpushed.trans
  refine ⟨fun ref href => lookup_takeMagicPushes_tag f env.actor _ _ href, fun hmain => ?_⟩
  rw [← AList.lookup_isSome, lookup_takeMagicPushes_main, AList.lookup_isSome]
  exact hmain

end Beside

private theorem sound_of_beside {refs changed : Refs} {list : Option ListState}
    (hst : Sound ⟨.repo refs, list⟩) (h : Beside refs changed) : Sound ⟨.repo changed, list⟩ where
  born := by
    intro refs' hrefs htag
    obtain rfl := Disk.repo.inj hrefs
    exact h.main (hst.born refs rfl (h.tagged htag))
  rows := hst.rows

theorem onRefs_spec {change : Refs → Except BranchRefusal Refs}
    (hchange : ∀ refs changed, change refs = .ok changed → Beside refs changed) {st : State}
    (hst : Sound st) : TagsStay st (onRefs change st) ∧ Sound (onRefs change st) := by
  obtain ⟨disk, list⟩ := st
  cases disk with
  | absent => exact ⟨.refl _, hst⟩
  | unreadable => exact ⟨.refl _, hst⟩
  | repo refs =>
    cases hdone : change refs with
    | error e =>
      simp only [onRefs, hdone]
      exact ⟨.refl _, hst⟩
    | ok changed =>
      simp only [onRefs, hdone]
      have hbeside := hchange refs changed hdone
      exact ⟨tagsStay_repo.mpr hbeside.tagsKept, sound_of_beside hst hbeside⟩

def Taken (refs : Refs) (version : Int) : Prop :=
  (tagVersion (tagRef (versionTag version))).isSome = true ∧ tagOnTip refs version = false

theorem tagsKept_withTag_iff {refs : Refs} {tip : Commit}
    (hmain : refs.lookup mainRef = some (.commit tip)) (number : Option Int) :
    TagsKept refs (withTag refs number tip) ↔ ∀ n, number = some n → ¬ Taken refs n := by
  cases number with
  | none =>
    constructor
    · intro _ n hn
      cases hn
    · intro _
      exact .refl refs
  | some n =>
    have htip : tagOnTip refs n = true ↔
        ∀ t, refs.lookup (tagRef (versionTag n)) = some t → t = .commit tip := by
      unfold tagOnTip
      rw [hmain]
      cases refs.lookup (tagRef (versionTag n)) <;> simp
    constructor
    · intro h m hm htaken
      obtain rfl := Option.some.inj hm
      obtain ⟨hsome, hoff⟩ := htaken
      have hon : tagOnTip refs n = true := by
        rw [htip]
        intro t ht
        have hafter := h _ hsome t ht
        rw [withTag, AList.lookup_insert] at hafter
        exact (Option.some.inj hafter).symm
      rw [hon] at hoff
      cases hoff
    · intro h ref href t ht
      by_cases heq : ref = tagRef (versionTag n)
      · subst heq
        have hon : tagOnTip refs n = true := by
          by_contra hoff
          exact h n rfl ⟨href, by simpa using hoff⟩
        rw [withTag, AList.lookup_insert, htip.mp hon t ht]
      · rw [withTag, AList.lookup_insert_ne heq]
        exact ht

theorem sound_withTag {refs : Refs} {tip : Commit} {s : ListState}
    (hmain : refs.lookup mainRef = some (.commit tip)) (number : Option Int) (hrows : RowsUpTo s) :
    Sound ⟨.repo (withTag refs number tip), some s⟩ where
  born := by
    intro refs' hrefs _
    obtain rfl := Disk.repo.inj hrefs
    have hmem : mainRef ∈ refs := by
      rw [← AList.lookup_isSome, hmain]
      rfl
    cases number with
    | none => exact hmem
    | some n => exact (AList.mem_insert refs).mpr (Or.inr hmem)
  rows := by
    intro s' hs
    rw [← Option.some.inj hs]
    exact hrows

/-- A projection is about to move a version tag: the canon at the tip of main makes a version,
and the tag of the number it gets stands on another commit. -/
def MovesTag (core : Core) (refs : Refs) (number : Option Int) : Prop :=
  CanonReads core refs ∧ ∃ n, number = some n ∧ Taken refs n

private theorem tagsKept_withTag_iff_not_moves {core : Core} {refs : Refs} {tip : Commit}
    (hreads : CanonReads core refs) (hmain : refs.lookup mainRef = some (.commit tip))
    (number : Option Int) :
    TagsKept refs (withTag refs number tip) ↔ ¬ MovesTag core refs number := by
  rw [tagsKept_withTag_iff hmain]
  constructor
  · intro h hmoves
    obtain ⟨-, n, hn, htaken⟩ := hmoves
    exact h n hn htaken
  · intro h n hn htaken
    exact h ⟨hreads, n, hn, htaken⟩

theorem projectPushedCommit_spec {core : Core} (f : ProjectionFaults) {refs : Refs}
    {s : ListState} (hst : Sound ⟨.repo refs, some s⟩) :
    (TagsKept refs (projectPushedCommit core f refs s).refs ↔
      ¬ MovesTag core refs (taggedOnce f s.currentVersion)) ∧
    Sound ⟨.repo (projectPushedCommit core f refs s).refs,
      some (projectPushedCommit core f refs s).list⟩ := by
  have hrows := hst.rows s rfl
  by_cases hreads : CanonReads core refs
  · obtain ⟨tip, bytes, subject, raw, hread, -⟩ := id hreads
    have hmain := main_of_readTip hread
    obtain ⟨next, hnext, hcases⟩ := projectPushedCommit_of_reads f hreads hmain hrows
    have hrefs : (projectPushedCommit core f refs s).refs =
          withTag refs (taggedOnce f s.currentVersion) tip ∧
        RowsUpTo (projectPushedCommit core f refs s).list := by
      rcases hcases with ⟨_, patched, hpatched, honce⟩ | ⟨hstop, honce⟩ | ⟨hstop, honce⟩
      · rw [honce]
        exact ⟨rfl, hrows.next hpatched⟩
      · rw [honce]
        exact ⟨by simp [taggedOnce, hstop, withTag], hrows⟩
      · rw [honce]
        exact ⟨by simp [taggedOnce, hstop, withTag], hrows.next hnext⟩
    rw [hrefs.1]
    exact ⟨tagsKept_withTag_iff_not_moves hreads hmain _, sound_withTag hmain _ hrefs.2⟩
  · rw [projectPushedCommit_of_not_reads f hreads]
    exact ⟨iff_of_true (.refl refs) fun h => hreads h.1, hst⟩

theorem projectMainOrLog_spec {core : Core} (first second : ProjectionFaults) {before refs : Refs}
    {s : ListState} (hbeside : Beside before refs)
    (hst : Sound ⟨.repo refs, some s⟩) :
    (TagsKept before (projectMainOrLog core first second refs s).1 ↔
      ¬ MovesTag core refs (taggedNumber first second s.currentVersion)) ∧
    Sound ⟨.repo (projectMainOrLog core first second refs s).1,
      some (projectMainOrLog core first second refs s).2.1⟩ := by
  have hkept : ∀ after, TagsKept before after ↔ TagsKept refs after := by
    intro after
    constructor
    · intro h ref href t ht
      rw [hbeside.tags ref href] at ht
      exact h ref href t ht
    · exact fun h => hbeside.tagsKept.trans h
  rcases projectMainOrLog_refs first second (hst.rows s rfl) with
    ⟨hunread, hsame⟩ | ⟨tip, hreads, hmain, hrefs, hrows⟩
  · rw [hsame]
    exact ⟨iff_of_true hbeside.tagsKept fun h => hunread h.1, hst⟩
  · rw [hrefs, hkept]
    exact ⟨tagsKept_withTag_iff_not_moves hreads hmain _, sound_withTag hmain _ hrows⟩

section Calls

variable (core : Core) {st : State}

theorem align_spec (f : SyncFaults) (hst : Sound st) :
    TagsStay st ⟨(syncRepoWithDb core f st.disk st.list).disk,
      (syncRepoWithDb core f st.disk st.list).list⟩ ∧
    Sound ⟨(syncRepoWithDb core f st.disk st.list).disk,
      (syncRepoWithDb core f st.disk st.list).list⟩ := by
  have hsync := sync_settles core f hst
  exact ⟨hsync.tags, hsync.sound⟩

theorem ensureRepo_spec (f : SyncFaults) (hst : Sound st) :
    TagsStay st (ensureRepo core f st) ∧ Sound (ensureRepo core f st) := by
  obtain ⟨disk, list⟩ := st
  have haligned := align_spec core f hst
  cases disk with
  | unreadable => exact haligned
  | repo refs => exact haligned
  | absent =>
    have hstay : ∀ after, TagsStay ⟨.absent, list⟩ after := fun after refs h => nomatch h
    refine ⟨hstay _, ?_⟩
    cases list with
    | none => exact hst
    | some s =>
      unfold ensureRepo
      dsimp only
      split_ifs with hread hempty
      · exact hst
      · refine ⟨fun refs hrefs h => ?_, hst.rows⟩
        obtain rfl := Disk.repo.inj hrefs
        obtain ⟨ref, href, -⟩ := h
        exact absurd href (AList.notMem_empty ref)
      · exact (sound_built core (hst.rows s rfl) f.history).1

theorem ensureRepo_blind (refs : Refs) (list : Option ListState) {f : SyncFaults}
    (h : f.readCurrent = false) :
    ensureRepo core f ⟨.repo refs, list⟩ = ⟨.repo refs, list⟩ := by
  simp [ensureRepo, syncRepoWithDb, h]

theorem writeVersion_spec (f : WebFaults) {refs : Refs} {s : ListState} (edit : WebEdit)
    (hst : Sound ⟨.repo refs, some s⟩) (hup : TagsUpTo refs s.currentVersion) :
    TagsStay ⟨.repo refs, some s⟩
      ⟨(writeVersion core f refs s edit).disk, (writeVersion core f refs s edit).list⟩ ∧
    Sound ⟨(writeVersion core f refs s edit).disk, (writeVersion core f refs s edit).list⟩ := by
  rcases writeVersion_cases core f refs s edit with ⟨⟨e, he⟩, -⟩ | hmoved
  · rw [he]
    exact ⟨.refl _, hst⟩
  · obtain ⟨parent, c, haccept, -, -, hwrite⟩ := hmoved
    have hmain : Beside refs (refs.insert mainRef (.commit c)) := .insert tagVersion_mainRef _
    have hsound := sound_of_beside hst hmain
    rcases hwrite with ⟨-, hdisk, hlist, -⟩ | ⟨-, hdisk, hlist, -⟩
    · rw [hdisk, hlist]
      exact ⟨tagsStay_repo.mpr hmain.tagsKept, hsound⟩
    · have hfresh := (fresh_of_tagsUpTo hup (show s.currentVersion < s.currentVersion + 1 by
        omega)).insert_main (.commit c)
      have htag : Kept (refs.insert mainRef (.commit c)) ((refs.insert mainRef (.commit c)).insert
          (tagRef (versionTag (s.currentVersion + 1))) (.commit c)) :=
        kept_insert_tag fun href hsome => absurd href (hfresh hsome)
      rw [hdisk, hlist]
      refine ⟨tagsStay_repo.mpr (hmain.tagsKept.trans (tagsKept_of_kept htag)), ?_⟩
      refine ⟨fun refs' hrefs _ => ?_, fun s' hs => ?_⟩
      · obtain rfl := Disk.repo.inj hrefs
        apply htag.names
        exact (AList.mem_insert refs).mpr (Or.inl rfl)
      · rw [← Option.some.inj hs]
        split_ifs
        · exact hst.rows s rfl
        · exact (hst.rows s rfl).next ⟨rfl, _, rfl, rfl⟩

theorem web_spec (f : WebFaults) (edit : WebEdit) (hst : Sound st) :
    TagsStay st ⟨(commitWebVersion core f st.disk st.list edit).disk,
      (commitWebVersion core f st.disk st.list edit).list⟩ ∧
    Sound ⟨(commitWebVersion core f st.disk st.list edit).disk,
      (commitWebVersion core f st.disk st.list edit).list⟩ := by
  have hsync := sync_settles core f.sync hst
  unfold commitWebVersion
  dsimp only
  generalize syncRepoWithDb core f.sync st.disk st.list = synced at hsync
  have hstop : TagsStay st ⟨synced.disk, synced.list⟩ ∧ Sound ⟨synced.disk, synced.list⟩ :=
    ⟨hsync.tags, hsync.sound⟩
  split
  · exact hstop
  · exact hstop
  · exact hstop
  · rename_i o hconflict hok
    split_ifs
    · exact hstop
    · split
      · rename_i hlist
        rw [hlist] at hstop
        exact hstop
      · rename_i s refs hlist hdisk
        have hup := hsync.upTo o refs s hok
          (fun highest current heq => hconflict highest current heq) hdisk hlist
        rw [hlist, hdisk] at hstop
        obtain ⟨hstay, hsound⟩ := writeVersion_spec core f edit hstop.2 hup
        exact ⟨hstop.1.trans hstay, hsound⟩
      · rename_i s hlist _
        rw [hlist] at hstop
        exact hstop

end Calls

def MergeRetags (core : Core) (first second : ProjectionFaults)
    (merged : Refs → Except BranchRefusal Refs) (st : State) : Prop :=
  ∃ refs s moved, st.disk = .repo refs ∧ st.list = some s ∧ merged refs = .ok moved ∧
    MovesTag core moved (taggedNumber first second s.currentVersion)

def PushRetags (core : Core) (lib : GitLibrary) (f : PushFaults) (env : HookEnv)
    (commands : List RefCommand) (st : State) : Prop :=
  ∃ refs s, st.disk = .repo refs ∧ st.list = some s ∧ f.answered = true ∧
    (takeMagicPushes f.magic env.actor refs
      (received lib f.applied env refs commands)).2.2 = true ∧
    ((received lib f.applied env refs commands).lookup mainRef).isSome ∧
    (received lib f.applied env refs commands).lookup mainRef ≠ refs.lookup mainRef ∧
    MovesTag core
      (takeMagicPushes f.magic env.actor refs (received lib f.applied env refs commands)).1
      (taggedNumber f.first f.second s.currentVersion)

/-- An operation that moves a version tag. -/
def Retags (core : Core) (lib : GitLibrary) (st : State) : Op → Prop
  | .push f env commands => PushRetags core lib f env commands st
  | .reproject f => ∃ refs s, st.disk = .repo refs ∧ st.list = some s ∧
      MovesTag core refs (taggedOnce f s.currentVersion)
  | .mergeBranch written first second name squash stamp =>
    MergeRetags core first second (fun refs => mergeBranch lib written refs name squash stamp) st
  | .mergeResolved written first second branch listJson squash stamp =>
    MergeRetags core first second (fun refs => mergeResolved core.reserved core.parser.fromSlice
      written refs branch listJson squash stamp) st
  | _ => False

section Steps

variable (core : Core) (lib : GitLibrary) {st : State}

private theorem not_mergeRetags {core : Core} {first second : ProjectionFaults}
    {merged : Refs → Except BranchRefusal Refs} {st : State}
    (h : ∀ refs, st.disk ≠ .repo refs) : ¬ MergeRetags core first second merged st := by
  intro hretags
  obtain ⟨refs, _, _, hrefs, -⟩ := hretags
  exact h refs hrefs

theorem afterMerge_spec (first second : ProjectionFaults)
    {merged : Refs → Except BranchRefusal Refs}
    (hmerged : ∀ refs moved, merged refs = .ok moved → Beside refs moved) (hst : Sound st) :
    (TagsStay st (afterMerge core first second merged st) ↔
      ¬ MergeRetags core first second merged st) ∧
    Sound (afterMerge core first second merged st) := by
  obtain ⟨disk, list⟩ := st
  cases disk with
  | absent => exact ⟨iff_of_true (.refl _) (not_mergeRetags nofun), hst⟩
  | unreadable => exact ⟨iff_of_true (.refl _) (not_mergeRetags nofun), hst⟩
  | repo refs =>
    cases hdone : merged refs with
    | error e =>
      simp only [afterMerge, hdone]
      refine ⟨iff_of_true (.refl _) fun h => ?_, hst⟩
      obtain ⟨refs', s, moved, hrefs, -, hmoved, -⟩ := h
      obtain rfl := Disk.repo.inj hrefs
      rw [hdone] at hmoved
      cases hmoved
    | ok moved =>
      have hbeside := hmerged refs moved hdone
      have hsound := sound_of_beside hst hbeside
      cases list with
      | none =>
        simp only [afterMerge, hdone]
        refine ⟨iff_of_true (tagsStay_repo.mpr hbeside.tagsKept) fun h => ?_, hsound⟩
        obtain ⟨_, s, _, -, hs, -⟩ := h
        cases hs
      | some s =>
        simp only [afterMerge, hdone]
        obtain ⟨hkept, hafter⟩ := projectMainOrLog_spec first second hbeside hsound
        rw [tagsStay_repo, hkept]
        refine ⟨not_congr ⟨fun h => ⟨refs, s, moved, rfl, rfl, hdone, h⟩, fun h => ?_⟩, hafter⟩
        obtain ⟨refs', s', moved', hrefs, hs, hmoved, hmoves⟩ := h
        obtain rfl := Disk.repo.inj hrefs
        obtain rfl := Option.some.inj hs
        obtain rfl := Except.ok.inj (hdone.symm.trans hmoved)
        exact hmoves

theorem reprojectTip_spec (f : ProjectionFaults) (hst : Sound st) :
    (TagsStay st (reprojectTip core f st) ↔ ¬ Retags core lib st (.reproject f)) ∧
    Sound (reprojectTip core f st) := by
  obtain ⟨disk, list⟩ := st
  by_cases hboth : ∃ refs s, disk = .repo refs ∧ list = some s
  · obtain ⟨refs, s, rfl, rfl⟩ := hboth
    have hretags : Retags core lib ⟨.repo refs, some s⟩ (.reproject f) ↔
        MovesTag core refs (taggedOnce f s.currentVersion) := by
      constructor
      · intro h
        obtain ⟨refs', s', hrefs, hs, hmoves⟩ := h
        obtain rfl := Disk.repo.inj hrefs
        obtain rfl := Option.some.inj hs
        exact hmoves
      · exact fun h => ⟨refs, s, rfl, rfl, h⟩
    rw [hretags]
    show (TagsStay _ ⟨.repo (projectPushedCommit core f refs s).refs, _⟩ ↔ _) ∧ Sound ⟨_, _⟩
    rw [tagsStay_repo]
    exact projectPushedCommit_spec f hst
  · have hsame : reprojectTip core f ⟨disk, list⟩ = ⟨disk, list⟩ := by
      unfold reprojectTip
      dsimp only
      split
      · rename_i refs s
        exact absurd ⟨refs, s, rfl, rfl⟩ hboth
      · rfl
    rw [hsame]
    refine ⟨iff_of_true (.refl _) fun h => ?_, hst⟩
    obtain ⟨refs, s, hrefs, hs, -⟩ := h
    exact hboth ⟨refs, s, hrefs, hs⟩

theorem push_spec (f : PushFaults) (env : HookEnv) (commands : List RefCommand) (hst : Sound st) :
    (TagsStay st (step core lib (.push f env commands) st) ↔
      ¬ PushRetags core lib f env commands st) ∧
    Sound (step core lib (.push f env commands) st) := by
  obtain ⟨disk, list⟩ := st
  cases disk with
  | absent =>
    refine ⟨iff_of_true (.refl _) fun h => ?_, hst⟩
    obtain ⟨_, _, h, -⟩ := h
    cases h
  | unreadable =>
    refine ⟨iff_of_true (.refl _) fun h => ?_, hst⟩
    obtain ⟨_, _, h, -⟩ := h
    cases h
  | repo refs =>
    have hpushed : Beside refs (received lib f.applied env refs commands) :=
      ⟨fun _ href => lookup_received_of_tag f.applied env refs commands href,
        main_received f.applied env refs commands⟩
    have htaken : Beside refs (takeMagicPushes f.magic env.actor refs
        (received lib f.applied env refs commands)).1 :=
      beside_received f.applied f.magic env refs commands
    have hquiet : ∀ after list', Beside refs after → list' = list →
        ¬ PushRetags core lib f env commands ⟨.repo refs, list⟩ →
        (TagsStay ⟨.repo refs, list⟩ ⟨.repo after, list'⟩ ↔
          ¬ PushRetags core lib f env commands ⟨.repo refs, list⟩) ∧
        Sound ⟨.repo after, list'⟩ := by
      intro after list' hbeside hlist hnot
      rw [hlist]
      exact ⟨iff_of_true (tagsStay_repo.mpr hbeside.tagsKept) hnot, sound_of_beside hst hbeside⟩
    simp only [step, receivePack]
    split_ifs with hanswered htakenAll hmoved
    · refine hquiet _ _ hpushed rfl fun h => ?_
      obtain ⟨_, _, -, -, hans, -⟩ := h
      simp [hans] at hanswered
    · refine hquiet _ _ htaken rfl fun h => ?_
      obtain ⟨_, _, hrefs, -, -, hall, -⟩ := h
      obtain rfl := Disk.repo.inj hrefs
      simp [hall] at htakenAll
    · cases list with
      | none =>
        refine hquiet _ _ htaken rfl fun h => ?_
        obtain ⟨_, _, -, hs, -⟩ := h
        cases hs
      | some s =>
        obtain ⟨hkept, hafter⟩ := projectMainOrLog_spec f.first f.second htaken
          (sound_of_beside hst htaken)
        refine ⟨?_, hafter⟩
        rw [tagsStay_repo, hkept]
        refine not_congr ⟨fun h => ?_, fun h => ?_⟩
        · exact ⟨refs, s, rfl, rfl, by simpa using hanswered, by simpa using htakenAll, hmoved.1,
            hmoved.2, h⟩
        · obtain ⟨refs', s', hrefs, hs, -, -, -, -, hmoves⟩ := h
          obtain rfl := Disk.repo.inj hrefs
          obtain rfl := Option.some.inj hs
          exact hmoves
    · refine hquiet _ _ htaken rfl fun h => ?_
      obtain ⟨_, _, hrefs, -, -, -, hthere, hdiffers, -⟩ := h
      obtain rfl := Disk.repo.inj hrefs
      exact hmoved ⟨hthere, hdiffers⟩

theorem step_spec (op : Op) (hst : Sound st) :
    (TagsStay st (step core lib op st) ↔ ¬ Retags core lib st op) ∧
    Sound (step core lib op st) := by
  have hquiet : ∀ {after : State}, TagsStay st after ∧ Sound after → ¬ Retags core lib st op →
      (TagsStay st after ↔ ¬ Retags core lib st op) ∧ Sound after :=
    fun h hnot => ⟨iff_of_true h.1 hnot, h.2⟩
  cases op with
  | ensure f => exact hquiet (ensureRepo_spec core f hst) id
  | align f => exact hquiet (align_spec core f hst) id
  | web f edit => exact hquiet (web_spec core f edit hst) id
  | push f env commands => exact push_spec core lib f env commands hst
  | reproject f => exact reprojectTip_spec core lib f hst
  | createBranch written name origin =>
    exact hquiet (onRefs_spec (fun _ _ h => beside_createBranch h) hst) id
  | deleteBranch written name =>
    exact hquiet (onRefs_spec (fun _ _ h => beside_deleteBranch h) hst) id
  | commitToBranch written branch listJson expectedTip stamp =>
    exact hquiet (onRefs_spec (fun _ _ h => beside_commitToBranch h) hst) id
  | updateBranch written name stamp =>
    exact hquiet (onRefs_spec (fun _ _ h => beside_updateBranch h) hst) id
  | mergeBranch written first second name squash stamp =>
    exact afterMerge_spec core first second (fun _ _ h => beside_mergeBranch h) hst
  | mergeResolved written first second branch listJson squash stamp =>
    exact afterMerge_spec core first second (fun _ _ h => beside_mergeResolved h) hst
  | createTag written name version =>
    exact hquiet (onRefs_spec (fun _ _ h => beside_createTag h) hst) id

end Steps

theorem sound_run (core : Core) (lib : GitLibrary) (ops : List Op) {start : State}
    (hstart : Sound start) : Sound (run core lib ops start) := by
  have hkept : ∀ op st, Sound st → Sound (step core lib op st) :=
    fun op _ h => (step_spec core lib op h).2
  exact Runs.run_invariant (step core lib) hkept ops hstart

/-- In every run from a sound state the version tags stay between any two states exactly when no
operation has a projection that moves one. -/
theorem version_tags_stay_iff (core : Core) (lib : GitLibrary) (ops : List Op) {start : State}
    (hstart : Sound start) :
    (∀ i j, i ≤ j → j ≤ ops.length →
      TagsStay (run core lib (ops.take i) start) (run core lib (ops.take j) start)) ↔
    ∀ i (h : i < ops.length), ¬ Retags core lib (run core lib (ops.take i) start) ops[i] := by
  have hsound : ∀ more, Sound (run core lib more start) := fun more =>
    sound_run core lib more hstart
  rw [Runs.run_related_iff (step core lib) TagsStay.refl TagsStay.trans ops start]
  apply forall_congr'
  intro i
  apply forall_congr'
  intro hi
  exact (step_spec core lib ops[i] (hsound (ops.take i))).1

private theorem marked_sound : Sound ⟨.repo markedRefs, some markedList⟩ := by
  refine ⟨fun refs hrefs _ => ?_, fun s hs => ?_⟩
  · obtain rfl := Disk.repo.inj hrefs
    obtain ⟨p, hp, -⟩ := markedRefs_agree.tip
    exact mem_main_of_lookup hp
  · rw [← Option.some.inj hs]
    exact markedRefs_agree.rows

theorem version_tags_stay_lost_write : Sound ⟨.repo markedRefs, some markedList⟩ ∧
    ((∀ i j, i ≤ j → j ≤ [Op.web lostTail (markEdit false)].length → TagsStay
      (run canonCore plainLibrary ([Op.web lostTail (markEdit false)].take i)
        ⟨.repo markedRefs, some markedList⟩)
      (run canonCore plainLibrary ([Op.web lostTail (markEdit false)].take j)
        ⟨.repo markedRefs, some markedList⟩)) ↔
    ∀ i (h : i < [Op.web lostTail (markEdit false)].length), ¬ Retags canonCore plainLibrary
      (run canonCore plainLibrary ([Op.web lostTail (markEdit false)].take i)
        ⟨.repo markedRefs, some markedList⟩) [Op.web lostTail (markEdit false)][i]) :=
  ⟨marked_sound, version_tags_stay_iff canonCore plainLibrary _ marked_sound⟩

noncomputable def lostCommit : Option Commit :=
  commitVersion canonCore (some firstCommit) (editData markedList (markEdit false) 0) .carry

noncomputable def pushedCommit : Commit :=
  .mk (listTree (pushedCanon [twin 1 true])) lostCommit.toList ⟨[], [], 0⟩

def calmPush : PushFaults :=
  ⟨true, fun _ => true, ⟨fun _ => true, fun _ => true⟩, (steady 0).projection, (steady 0).projection⟩

/-- A write that loses its rows after the tag, an alignment that cannot read the database, and a
push. -/
noncomputable def lostRun : List Op :=
  [.web lostTail (markEdit false), .ensure { steady 0 with readCurrent := false },
    .push calmPush ownerEnv [⟨lostCommit.map .commit, some (.commit pushedCommit), mainRef⟩]]

private theorem lost_write : ∃ c refs, lostCommit = some c ∧
    refs.lookup mainRef = some (.commit c) ∧
    refs.lookup (tagRef (versionTag 2)) = some (.commit c) ∧
    run canonCore plainLibrary (lostRun.take 2) ⟨.repo markedRefs, some markedList⟩ =
      ⟨.repo refs, some markedList⟩ := by
  have hreach := markEdit_reaches false
  have hwrite := commitWebVersion_of_agree canonCore lostTail markedRefs_agree (markEdit false)
  rw [if_pos ⟨hreach.current, hreach.row⟩] at hwrite
  rcases writeVersion_cases canonCore lostTail markedRefs markedList (markEdit false) with
    ⟨-, hnone⟩ | hmoved
  · obtain ⟨parent, c, haccept⟩ := hreach.accepted
    exact absurd (hnone parent c haccept rfl) (by decide)
  obtain ⟨parent, c, haccept, -, -, ⟨htag, -⟩ | ⟨-, hdisk, hlist, -⟩⟩ := hmoved
  · cases htag
  obtain rfl : parent = some firstCommit := Option.map_injective (fun _ _ => Target.commit.inj)
    (haccept.main.symm.trans markedRefs_main)
  refine ⟨c, (markedRefs.insert mainRef (.commit c)).insert (tagRef (versionTag 2)) (.commit c),
    haccept.commit, ?_, AList.lookup_insert _, ?_⟩
  · exact (AList.lookup_insert_ne (tagRef_ne_mainRef _).symm).trans (AList.lookup_insert markedRefs)
  · have hcurrent : markedList.currentVersion + 1 = 2 := by decide
    have htail : lostTail.tail = .failed := rfl
    rw [hcurrent] at hdisk
    rw [if_pos htail] at hlist
    have hweb : step canonCore plainLibrary (.web lostTail (markEdit false))
        ⟨.repo markedRefs, some markedList⟩ = ⟨.repo ((markedRefs.insert mainRef (.commit c)).insert
          (tagRef (versionTag 2)) (.commit c)), some markedList⟩ := by
      simp only [step, hwrite, hdisk, hlist]
    have htake : lostRun.take 2 =
        [.web lostTail (markEdit false), .ensure { steady 0 with readCurrent := false }] := rfl
    rw [htake, run, Runs.run_cons, Runs.run_cons, Runs.run_nil, hweb, step]
    exact ensureRepo_blind canonCore _ _ rfl

theorem ensureRepo_of_agree {core : Core} {refs : Refs} {s : ListState} (hagree : Agree refs s)
    (g : SyncFaults) : ensureRepo core g ⟨.repo refs, some s⟩ = ⟨.repo refs, some s⟩ := by
  simp only [ensureRepo, sync_of_agree core g hagree]

def Calm : Op → Prop
  | .ensure _ => True
  | .align _ => True
  | .web f edit => f = plainWrite ∧ edit.authored = none ∧ edit.expectedVersion = none
  | _ => False

def savedEdit : Op → Option WebEdit
  | .web _ edit => some edit
  | _ => none

/-- Realignments find nothing to do, and the edits become as many versions, one after another. -/
theorem run_calm {core : Core} {lib : GitLibrary} (hnames : CarriedTree.NamesFree core.reserved)
    {ops : List Op} (hcalm : ∀ op ∈ ops, Calm op) {tip : Commit} {refs : Refs} {s : ListState}
    (h : Ready tip refs s)
    (hroom : s.currentVersion + (ops.filterMap savedEdit).length ≤ 2147483647) :
    ∃ last after, run core lib ops ⟨.repo refs, some s⟩ =
        ⟨.repo after, some ((ops.filterMap savedEdit).foldl (fun s e => editedList s e 0) s)⟩ ∧
      Ready last after ((ops.filterMap savedEdit).foldl (fun s e => editedList s e 0) s) := by
  induction ops generalizing tip refs s with
  | nil => exact ⟨tip, refs, rfl, h⟩
  | cons op ops ih =>
    obtain ⟨hop, hrest⟩ := List.forall_mem_cons.mp hcalm
    cases op with
    | ensure f =>
      obtain ⟨last, after, hrun, hlast⟩ := ih hrest h hroom
      refine ⟨last, after, ?_, hlast⟩
      rw [run, Runs.run_cons, step, ensureRepo_of_agree h.agree]
      exact hrun
    | align f =>
      obtain ⟨last, after, hrun, hlast⟩ := ih hrest h hroom
      refine ⟨last, after, ?_, hlast⟩
      rw [run, Runs.run_cons, step, sync_of_agree core f h.agree]
      exact hrun
    | web f edit =>
      obtain ⟨rfl, hauthored, hexpected⟩ := hop
      change s.currentVersion + ((edit :: ops.filterMap savedEdit).length : Int) ≤ _ at hroom
      rw [List.length_cons] at hroom
      obtain ⟨c, -, hwrite, hready⟩ := h.written hnames (by omega) hauthored fun e he =>
        absurd (hexpected.symm.trans he) (Option.some_ne_none e).symm
      have hnext : (editedList s edit 0).currentVersion = s.currentVersion + 1 := rfl
      obtain ⟨last, after, hrun, hlast⟩ := ih hrest hready (by omega)
      refine ⟨last, after, ?_, hlast⟩
      rw [run, Runs.run_cons]
      simp only [step, hwrite]
      exact hrun
    | _ => exact hop.elim

/-- Edits that carry the files over become as many versions, one after another. -/
theorem run_saved {core : Core} {lib : GitLibrary} (hnames : CarriedTree.NamesFree core.reserved)
    {edits : List WebEdit} (hcarry : ∀ e ∈ edits, e.authored = none ∧ e.expectedVersion = none)
    {tip : Commit} {refs : Refs} {s : ListState} (h : Ready tip refs s)
    (hroom : s.currentVersion + edits.length ≤ 2147483647) :
    ∃ last after, run core lib (edits.map (.web plainWrite)) ⟨.repo refs, some s⟩ =
        ⟨.repo after, some (edits.foldl (fun s e => editedList s e 0) s)⟩ ∧
      Ready last after (edits.foldl (fun s e => editedList s e 0) s) := by
  have hsame : (edits.map (Op.web plainWrite)).filterMap savedEdit = edits := by
    rw [List.filterMap_map]
    exact List.filterMap_some
  have hcalm : ∀ op ∈ edits.map (Op.web plainWrite), Calm op := by
    intro op hop
    obtain ⟨e, he, rfl⟩ := List.mem_map.mp hop
    exact ⟨rfl, hcarry e he⟩
  have hrun := @run_calm core lib hnames _ hcalm tip refs s h (by rwa [hsame])
  rwa [hsame] at hrun

theorem currentVersion_saved (edits : List WebEdit) (s : ListState) :
    (edits.foldl (fun s e => editedList s e 0) s).currentVersion = s.currentVersion + edits.length := by
  induction edits generalizing s with
  | nil => simp
  | cons e edits ih =>
    rw [List.foldl_cons, ih, List.length_cons]
    change s.currentVersion + 1 + _ = _
    omega

/-- The second version moves from the commit of the lost write to the commit that was pushed. -/
theorem lost_write_tag_moves : Sound ⟨.repo markedRefs, some markedList⟩ ∧
    ¬ ∀ i j, i ≤ j → j ≤ lostRun.length → TagsStay
      (run canonCore plainLibrary (lostRun.take i) ⟨.repo markedRefs, some markedList⟩)
      (run canonCore plainLibrary (lostRun.take j) ⟨.repo markedRefs, some markedList⟩) := by
  refine ⟨marked_sound, fun h => ?_⟩
  obtain ⟨c, refs, hc, hmain, htag, hrun⟩ := lost_write
  have hbefore : Sound ⟨.repo refs, some markedList⟩ := by
    rw [← hrun]
    exact sound_run canonCore plainLibrary _ marked_sound
  have hstay := h 2 3 (by omega) (le_refl 3)
  have hlast : run canonCore plainLibrary (lostRun.take 3) ⟨.repo markedRefs, some markedList⟩ =
      step canonCore plainLibrary (.push calmPush ownerEnv [overMain c pushedCommit])
        ⟨.repo refs, some markedList⟩ := by
    have hlength : 2 < lostRun.length := by
      rw [lostRun]
      simp
    have hpush : lostRun[2] = .push calmPush ownerEnv [overMain c pushedCommit] := by
      simp only [lostRun, hc]
      rfl
    rw [run, Runs.run_take_succ _ lostRun _ 2 hlength, hpush]
    exact congrArg _ hrun
  rw [hrun, hlast] at hstay
  have hpushed : pushedCommit = .mk (listTree (pushedCanon [twin 1 true])) [c] ⟨[], [], 0⟩ := by
    rw [pushedCommit, hc]
    rfl
  have hgot : received plainLibrary (fun _ => true) ownerEnv refs [overMain c pushedCommit] =
      refs.insert mainRef (.commit pushedCommit) := by
    rw [hpushed]
    exact received_listTree plainLibrary hmain _ _
  have hparent : pushedCommit.IsParent c := by
    rw [hpushed]
    exact List.mem_singleton_self c
  have hne : c ≠ pushedCommit := (Commit.ne_of_isParent_reaches .refl hparent).symm
  have hafter : (refs.insert mainRef (.commit pushedCommit)).lookup mainRef =
      some (.commit pushedCommit) := AList.lookup_insert refs
  have hreads : CanonReads canonCore (refs.insert mainRef (.commit pushedCommit)) := by
    have hget : pushedCommit.tree.get "list.json".toList =
        some (.leaf (.file false (utf8 (listJson [] (pushedCanon [twin 1 true]))))) := by
      rw [hpushed]
      exact listTree_get _
    exact canonReads_of_get hafter hget single_read rfl
  refine ((push_spec canonCore plainLibrary calmPush ownerEnv [overMain c pushedCommit]
    hbefore).1.mp hstay) ⟨refs, markedList, rfl, rfl, rfl, ?_, ?_, ?_, ?_⟩
  · rfl
  · rw [show calmPush.applied = fun _ => true from rfl, hgot, hafter]
    rfl
  · rw [show calmPush.applied = fun _ => true from rfl, hgot, hafter, hmain]
    intro heq
    exact hne (Target.commit.inj (Option.some.inj heq)).symm
  · rw [show calmPush.applied = fun _ => true from rfl, hgot]
    refine ⟨hreads, 2, rfl, by decide, ?_⟩
    have htag' : (refs.insert mainRef (.commit pushedCommit)).lookup (tagRef (versionTag 2)) =
        some (.commit c) := (AList.lookup_insert_ne (tagRef_ne_mainRef _)).trans htag
    show tagOnTip (refs.insert mainRef (.commit pushedCommit)) 2 = false
    simp [tagOnTip, htag', hafter, hne]

end Setfork.TagRuns
