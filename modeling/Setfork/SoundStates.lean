/- SoundStates
   digest: States in which version tags stand under main and rows under the current version, and
   what an alignment leaves of them. -/
import Setfork.AppendOnly
import Setfork.Received
import Setfork.Service

set_option autoImplicit false
set_option relaxedAutoImplicit false

namespace Setfork.SoundStates

open Setfork.Foundation
open Setfork.Foundation.Refs (setAll)
open Setfork.Serialize
open Setfork.Rows
open Setfork.Authored
open Setfork.VersionTree
open Setfork.Repository
open Setfork.History
open Setfork.Alignment
open Setfork.AppendOnly
open Setfork.Received
open Setfork.Service

def TagsKept (before after : Refs) : Prop :=
  ∀ ref, (tagVersion ref).isSome = true → ∀ t, before.lookup ref = some t →
    after.lookup ref = some t

theorem TagsKept.refl (refs : Refs) : TagsKept refs refs := fun _ _ _ h => h

theorem TagsKept.trans {before middle after : Refs} (h : TagsKept before middle)
    (h' : TagsKept middle after) : TagsKept before after :=
  fun ref href t ht => h' ref href t (h ref href t ht)

theorem tagsKept_of_kept {before after : Refs} (h : Kept before after) : TagsKept before after := by
  intro ref href t ht
  have hmem : ref ∈ before := by
    rw [← AList.lookup_isSome, ht]
    rfl
  rw [h.stays ref hmem href, ht]

/-- A repository with a version tag has its main, and no row is above the current version. -/
structure Sound (st : State) : Prop where
  born : ∀ refs, st.disk = .repo refs → (∃ ref ∈ refs, (tagVersion ref).isSome = true) →
    mainRef ∈ refs
  rows : ∀ s, st.list = some s → RowsUpTo s

/-- The version tags of a repository stay. -/
def TagsStay (before after : State) : Prop :=
  ∀ refs, before.disk = .repo refs → ∃ refs', after.disk = .repo refs' ∧ TagsKept refs refs'

theorem TagsStay.refl (st : State) : TagsStay st st := fun refs h => ⟨refs, h, .refl refs⟩

theorem TagsStay.trans {a b c : State} (h : TagsStay a b) (h' : TagsStay b c) : TagsStay a c := by
  intro refs hrefs
  obtain ⟨middle, hmiddle, hkept⟩ := h refs hrefs
  obtain ⟨after, hafter, hkept'⟩ := h' middle hmiddle
  exact ⟨after, hafter, hkept.trans hkept'⟩

theorem tagsStay_repo {refs changed : Refs} {list list' : Option ListState} :
    TagsStay ⟨.repo refs, list⟩ ⟨.repo changed, list'⟩ ↔ TagsKept refs changed := by
  constructor
  · intro h
    obtain ⟨after, hafter, hkept⟩ := h refs rfl
    rw [Disk.repo.inj hafter]
    exact hkept
  · intro h refs' hrefs
    obtain rfl := Disk.repo.inj hrefs
    exact ⟨changed, rfl, h⟩

def SameOrMain (before after : Refs) : Prop := after = before ∨ mainRef ∈ after

theorem SameOrMain.tagged {before after : Refs} (h : SameOrMain before after)
    (hborn : (∃ ref ∈ before, (tagVersion ref).isSome = true) → mainRef ∈ before)
    (hafter : ∃ ref ∈ after, (tagVersion ref).isSome = true) : mainRef ∈ after := by
  rcases h with rfl | hmain
  · exact hborn hafter
  · exact hmain

theorem mem_main_of_lookup {refs : Refs} {t : Target} (h : refs.lookup mainRef = some t) :
    mainRef ∈ refs := by
  rw [← AList.lookup_isSome, h]
  rfl

section Writers

variable (core : Core) {refs : Refs} {versions : List VersionData} {n : Int}

theorem sameOrMain_buildHistory (f : WriteFaults) (refs : Refs) (versions : List VersionData)
    (parent : Option Commit) (authored : AuthoredSource) :
    SameOrMain refs (buildHistory core f refs versions parent authored).1 := by
  rcases buildHistory_cases core f refs versions parent authored with hsame | hmoved
  · exact Or.inl hsame
  · obtain ⟨made, tip, -, -, -, -, heq⟩ := hmoved
    right
    rw [heq]
    apply Refs.mem_setAll
    exact (AList.mem_insert refs).mpr (Or.inl rfl)

theorem tagsUpTo_buildHistory (f : WriteFaults) (parent : Option Commit)
    (authored : AuthoredSource) (hup : TagsUpTo refs n) (hversions : ∀ v ∈ versions, v.version ≤ n) :
    TagsUpTo (buildHistory core f refs versions parent authored).1 n := by
  rcases buildHistory_cases core f refs versions parent authored with hsame | hmoved
  · rw [hsame]
    exact hup
  · obtain ⟨made, tip, hmade, -, -, -, heq⟩ := hmoved
    rw [heq]
    apply (hup.insert_main _).versionMoves
    intro m hm
    have hmem : m.1 ∈ versions.map VersionData.version := by
      rw [← (commitAll_spec hmade).1]
      exact List.mem_map_of_mem (List.takeWhile_subset _ hm)
    obtain ⟨v, hv, heq⟩ := List.mem_map.mp hmem
    rw [← heq]
    exact hversions v hv

theorem appendMissingVersions_spec (f : WriteFaults) (hup : TagsUpTo refs n)
    (hversions : ∀ v ∈ versions, v.version ≤ n) :
    SameOrMain refs (appendMissingVersions core f refs versions).1 ∧
      TagsUpTo (appendMissingVersions core f refs versions).1 n := by
  unfold appendMissingVersions
  split_ifs
  · exact ⟨Or.inl rfl, hup⟩
  split
  · exact ⟨Or.inl rfl, hup⟩
  · exact ⟨sameOrMain_buildHistory core f refs versions none .carry,
      tagsUpTo_buildHistory core f none .carry hup hversions⟩
  · rename_i tip hmain
    split
    · exact ⟨Or.inl rfl, hup⟩
    · exact ⟨sameOrMain_buildHistory core f refs versions (some tip) .carry,
        tagsUpTo_buildHistory core f (some tip) .carry hup hversions⟩
    · rename_i found _
      dsimp only
      rw [tagAll_eq]
      constructor
      · right
        apply Refs.mem_setAll
        unfold mainCommit at hmain
        cases hlookup : refs.lookup mainRef with
        | none =>
          rw [hlookup] at hmain
          cases hmain
        | some t => exact mem_main_of_lookup hlookup
      · apply hup.versionMoves
        intro m hm
        have hnumber : m.1 ∈ versions.map VersionData.version :=
          (List.of_mem_zip (List.takeWhile_subset _ hm)).1
        obtain ⟨v, hv, heq⟩ := List.mem_map.mp hnumber
        rw [← heq]
        exact hversions v hv

end Writers

/-- What an alignment leaves of a sound state: its tags, a sound state, and, unless it reports a
conflict or fails, no version tag above the current version. -/
structure Settles (refs : Refs) (a : Aligned SyncOutcome) : Prop where
  tags : TagsKept refs a.refs
  sound : Sound ⟨.repo a.refs, some a.list⟩
  upTo : ∀ o, a.outcome = .ok o → (∀ highest current, o ≠ .conflict highest current) →
    TagsUpTo a.refs a.list.currentVersion

section Alignment

variable (core : Core) {refs : Refs} {s : ListState}

theorem sound_of_sameOrMain {after : Refs} {list : ListState}
    (hst : Sound ⟨.repo refs, some s⟩) (h : SameOrMain refs after) (hrows : RowsUpTo list) :
    Sound ⟨.repo after, some list⟩ where
  born := by
    intro refs' hrefs
    obtain rfl := Disk.repo.inj hrefs
    exact h.tagged (hst.born refs rfl)
  rows := by
    intro s' hs
    obtain rfl := Option.some.inj hs
    exact hrows

theorem settles_unchanged {outcome : Except SyncError SyncOutcome} {rebuilt : Bool}
    (hst : Sound ⟨.repo refs, some s⟩)
    (hup : ∀ o, outcome = .ok o → (∀ highest current, o ≠ .conflict highest current) →
      TagsUpTo refs s.currentVersion) : Settles refs ⟨refs, s, outcome, rebuilt⟩ :=
  ⟨.refl refs, hst, hup⟩

theorem settles_projected (f : ProjectionFaults) {nothing : SyncOutcome}
    (hst : Sound ⟨.repo refs, some s⟩) (hup : TagsUpTo refs (s.currentVersion + 1))
    (hnothing : (∃ highest current, nothing = .conflict highest current) ∨
      TagsUpTo refs s.currentVersion)
    (hkept : Kept refs (projectPushedCommit core f refs s).refs) :
    Settles refs (projectedOr (projectPushedCommit core f refs s) nothing) := by
  have hrows := hst.rows s rfl
  refine ⟨tagsKept_of_kept hkept, ?_, ?_⟩
  · apply sound_of_sameOrMain hst
    · rcases (projectPushedCommit_cases core f refs s _ rfl).2 with
        ⟨hrefs, -⟩ | ⟨-, hrefs, -⟩ | ⟨-, -, tip, htip, -⟩
      · exact Or.inl hrefs
      · exact Or.inl hrefs
      · exact Or.inr (hkept.names _ (mem_main_of_lookup htip))
    · rcases (projectPushedCommit_cases core f refs s _ rfl).2 with
        ⟨-, hlist, -⟩ | ⟨hnext, -⟩ | ⟨hnext, -⟩
      · rw [projectedOr, hlist]
        exact hrows
      · exact hrows.next hnext
      · exact hrows.next hnext
  · intro o ho hconflict
    rcases (projectPushedCommit_cases core f refs s _ rfl).2 with
      ⟨hrefs, hlist, hout⟩ | ⟨-, -, hout⟩ | ⟨hnext, -, tip, -, hrefs⟩
    · rcases hout with hout | hout
      · have heq : nothing = o := by
          simpa [projectedOr, hout, Except.map] using ho
        rw [projectedOr, hrefs, hlist]
        rcases hnothing with ⟨highest, current, hc⟩ | hsame
        · exact absurd (heq.symm.trans hc) (hconflict highest current)
        · exact hsame
      · simp [projectedOr, hout, Except.map] at ho
    · simp [projectedOr, hout, Except.map] at ho
    · rw [projectedOr, hnext.1, hrefs]
      split_ifs
      · exact hup.insert_tag (le_refl _) _
      · exact hup

theorem settles_catchUp (f : SyncFaults) {highest : Nat} (hst : Sound ⟨.repo refs, some s⟩)
    (hup : TagsUpTo refs highest) (hbelow : (highest : Int) < s.currentVersion) :
    Settles refs (catchUp core f refs s highest) := by
  have hkept := tagsKept_of_kept (kept_catchUp core f s hup)
  have hcurrent := hup.mono hbelow.le
  obtain ⟨hlist, hcases⟩ := catchUp_cases core f refs s highest _ rfl
  rcases hcases with ⟨hrefs, -⟩ | ⟨-, hrefs, -⟩
  · refine ⟨hkept, ?_, fun o _ _ => ?_⟩
    · rw [hrefs, hlist]
      exact hst
    · rw [hrefs, hlist]
      exact hcurrent
  · have hmissing : ∀ v ∈ missingVersions s highest, v.version ≤ s.currentVersion := by
      intro v hv
      obtain ⟨r, hr, rfl⟩ := mem_loadBundleData.mp (List.mem_filter.mp hv).1
      exact hst.rows s rfl r hr
    obtain ⟨hmain, htags⟩ := appendMissingVersions_spec core f.history hcurrent hmissing
    rw [← hrefs] at hmain htags
    refine ⟨hkept, ?_, fun o _ _ => ?_⟩
    · rw [hlist]
      exact sound_of_sameOrMain hst hmain (hst.rows s rfl)
    · rw [hlist]
      exact htags

theorem settles_alignByCounters (f : SyncFaults) {highest : Nat}
    (hst : Sound ⟨.repo refs, some s⟩) (hup : TagsUpTo refs highest) :
    Settles refs (alignByCounters core f refs s highest) := by
  have hkept := kept_alignByCounters core f s hup
  rcases alignByCounters_cases core f refs s highest _ rfl with
    ⟨hsame, heq | ⟨-, heq⟩⟩ | ⟨hbelow, heq⟩ | ⟨-, heq | ⟨hnext, -, heq⟩⟩
  · rw [heq]
    exact settles_unchanged hst fun _ _ _ => hup.mono hsame.le
  · rw [heq] at hkept ⊢
    exact settles_projected core f.projection hst (hup.mono (by omega))
      (Or.inr (hup.mono hsame.le)) hkept
  · rw [heq]
    exact settles_catchUp core f hst hup hbelow
  · rw [heq]
    apply settles_unchanged hst
    intro o ho hconflict
    exact absurd (Except.ok.inj ho).symm (hconflict highest s.currentVersion)
  · rw [heq] at hkept ⊢
    exact settles_projected core f.projection hst (hup.mono hnext.le)
      (Or.inl ⟨highest, s.currentVersion, rfl⟩) hkept

theorem settles_bootstrap (f : SyncFaults) {other : Aligned SyncOutcome}
    (hst : Sound ⟨.repo refs, some s⟩) (hnone : ∀ ref ∈ refs, tagVersion ref = none)
    (hother : Settles refs other) : Settles refs (bootstrapOr core f refs s other) := by
  have hup : TagsUpTo refs s.currentVersion := by
    intro ref href k hk
    rw [hnone ref href] at hk
    cases hk
  have hkept := tagsKept_of_kept
    (kept_bootstrap core f s hnone (⟨refs, s, .error .database, false⟩) (.refl refs))
  rcases bootstrapOr_cases core f refs s other _ rfl with ⟨heq, -⟩ | ⟨heq, -⟩ | ⟨-, hlist, -, hrefs, -⟩
  · rw [heq]
    exact settles_unchanged hst nofun
  · rw [heq]
    exact hother
  · have hversions : ∀ v ∈ loadBundleData s, v.version ≤ s.currentVersion := by
      intro v hv
      obtain ⟨r, hr, rfl⟩ := mem_loadBundleData.mp hv
      exact hst.rows s rfl r hr
    have hbuilt := tagsUpTo_buildHistory core f.history none .carry hup hversions
    have hmain := sameOrMain_buildHistory core f.history refs (loadBundleData s) none .carry
    have hfresh := tagsKept_of_kept (@kept_buildHistory core f.history refs (loadBundleData s)
      none .carry fun v _ => fresh_of_no_tags hnone v.version)
    rw [← hrefs] at hbuilt hmain hfresh
    refine ⟨hfresh, ?_, fun o _ _ => ?_⟩
    · rw [hlist]
      exact sound_of_sameOrMain hst hmain (hst.rows s rfl)
    · rw [hlist]
      exact hbuilt

theorem settles_healMain (f : SyncFaults) (hst : Sound ⟨.repo refs, some s⟩)
    (hmain : refs.lookup mainRef = none) :
    Settles refs (healMain core f refs s (maxTagIn refs)) := by
  have hnone : ∀ ref ∈ refs, tagVersion ref = none := by
    intro ref href
    by_contra hsome
    have hmem := hst.born refs rfl ⟨ref, href, Option.isSome_iff_ne_none.mpr hsome⟩
    rw [← AList.lookup_isSome, hmain] at hmem
    cases hmem
  have hzero : maxTagIn refs = 0 := by
    rcases maxTagIn_eq refs with hzero | ⟨ref, href, hk⟩
    · exact hzero
    · rw [hnone ref href] at hk
      cases hk
  have haligned := settles_alignByCounters core f hst (tagsUpTo_maxTagIn refs)
  rcases healMain_cases core f refs s (maxTagIn refs) _ rfl _ rfl with
    ⟨e, hpos, -⟩ | ⟨c, hpos, -⟩ | ⟨-, heq⟩
  · omega
  · omega
  · rw [heq, if_pos hzero]
    exact settles_bootstrap core f hst hnone haligned

end Alignment

structure SyncSettles (disk : Disk) (list : Option ListState) (r : Synced) : Prop where
  tags : TagsStay ⟨disk, list⟩ ⟨r.disk, r.list⟩
  sound : Sound ⟨r.disk, r.list⟩
  upTo : ∀ o refs s, r.outcome = .ok o → (∀ highest current, o ≠ .conflict highest current) →
    r.disk = .repo refs → r.list = some s → TagsUpTo refs s.currentVersion

section Sync

variable (core : Core) (f : SyncFaults)

private theorem syncSettles_failed {disk : Disk} {list : Option ListState}
    (hst : Sound ⟨disk, list⟩) (e : SyncError) : SyncSettles disk list ⟨disk, list, .error e, false⟩ :=
  ⟨.refl _, hst, fun _ _ _ h => nomatch h⟩

private theorem syncSettles_synced {refs : Refs} {s : ListState} {a : Aligned SyncOutcome}
    (h : Settles refs a) : SyncSettles (.repo refs) (some s) a.synced where
  tags := tagsStay_repo.mpr h.tags
  sound := h.sound
  upTo := by
    intro o refs' s' ho hconflict hrefs hs
    obtain rfl := Disk.repo.inj hrefs
    obtain rfl := Option.some.inj hs
    exact h.upTo o ho hconflict

theorem sound_built {s : ListState} (hrows : RowsUpTo s) (w : WriteFaults) :
    Sound ⟨.repo (buildHistory core w ∅ (loadBundleData s) none .carry).1, some s⟩ ∧
      TagsUpTo (buildHistory core w ∅ (loadBundleData s) none .carry).1 s.currentVersion := by
  have hempty : Sound ⟨.repo ∅, some s⟩ := by
    refine ⟨fun refs hrefs h => ?_, fun s' hs => ?_⟩
    · obtain rfl := Disk.repo.inj hrefs
      obtain ⟨ref, href, -⟩ := h
      exact absurd href (AList.notMem_empty ref)
    · rw [← Option.some.inj hs]
      exact hrows
  refine ⟨sound_of_sameOrMain hempty (sameOrMain_buildHistory core w ∅ _ none .carry) hrows, ?_⟩
  apply tagsUpTo_buildHistory
  · intro ref href
    exact absurd href (AList.notMem_empty ref)
  · intro v hv
    obtain ⟨r, hr, rfl⟩ := mem_loadBundleData.mp hv
    exact hrows r hr

private theorem syncSettles_absent {s : ListState} (hst : Sound ⟨.absent, some s⟩)
    (hcurrent : f.readCurrent = true) :
    SyncSettles .absent (some s) (syncRepoWithDb core f .absent (some s)) := by
  obtain ⟨hbuilt, hup⟩ := sound_built core (hst.rows s rfl) f.history
  have hstay : ∀ after, TagsStay ⟨.absent, some s⟩ after := fun after refs h => by cases h
  simp only [syncRepoWithDb, hcurrent, bootstrapFromDb]
  cases f.readRows with
  | false => exact ⟨hstay _, hst, fun _ _ _ h => by cases h⟩
  | true =>
    cases hempty : (loadBundleData s).isEmpty with
    | true => exact ⟨hstay _, hst, fun _ _ _ _ _ h => by cases h⟩
    | false =>
      cases hbuild : buildHistory core f.history ∅ (loadBundleData s) none .carry with
      | mk built result =>
        rw [hbuild] at hbuilt hup
        cases result with
        | error e => exact ⟨hstay _, hbuilt, fun _ _ _ h => by cases h⟩
        | ok tip =>
          refine ⟨hstay _, hbuilt, fun o refs s' _ _ hrefs hs => ?_⟩
          obtain rfl := Disk.repo.inj hrefs
          obtain rfl := Option.some.inj hs
          exact hup

theorem sync_settles {disk : Disk} {list : Option ListState} (hst : Sound ⟨disk, list⟩) :
    SyncSettles disk list (syncRepoWithDb core f disk list) := by
  cases hcurrent : f.readCurrent with
  | false =>
    simp only [syncRepoWithDb, hcurrent]
    exact syncSettles_failed hst _
  | true =>
    cases list with
    | none =>
      simp only [syncRepoWithDb, hcurrent]
      exact syncSettles_failed hst _
    | some s =>
      cases disk with
      | absent => exact syncSettles_absent core f hst hcurrent
      | unreadable =>
        simp only [syncRepoWithDb, hcurrent]
        exact syncSettles_failed hst _
      | repo refs =>
        cases hmain : refs.lookup mainRef with
        | some t =>
          simp only [syncRepoWithDb, hcurrent, hmain]
          exact syncSettles_synced (settles_alignByCounters core f hst (tagsUpTo_maxTagIn refs))
        | none =>
          simp only [syncRepoWithDb, hcurrent, hmain]
          exact syncSettles_synced (settles_healMain core f hst hmain)

end Sync

end Setfork.SoundStates
