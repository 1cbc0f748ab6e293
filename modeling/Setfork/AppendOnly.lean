/- AppendOnly
   digest: An alignment only adds to the history of a list, unless its version tags count as none. -/
import Setfork.Alignment

set_option autoImplicit false
set_option relaxedAutoImplicit false

namespace Setfork.AppendOnly

open Setfork.Foundation
open Setfork.Foundation.Refs (setAll)
open Setfork.Serialize
open Setfork.Rows
open Setfork.CanonMirror (bornList)
open Setfork.VersionTree
open Setfork.Authored
open Setfork.Repository
open Setfork.History
open Setfork.Alignment

/-- Main moves forward only, no reference goes away, and version tags stay. -/
abbrev Kept (before after : Refs) : Prop :=
  Refs.Extends mainRef (fun ref => (tagVersion ref).isSome = true) before after

def TagsUpTo (refs : Refs) (n : Int) : Prop :=
  ∀ ref ∈ refs, ∀ k, tagVersion ref = some k → (k : Int) ≤ n

def Fresh (refs : Refs) (n : Int) : Prop :=
  (tagVersion (tagRef (versionTag n))).isSome = true → tagRef (versionTag n) ∉ refs

theorem tagsUpTo_maxTagIn (refs : Refs) : TagsUpTo refs (maxTagIn refs) := by
  intro ref href k hk
  have hle := le_maxTagIn href hk
  omega

theorem TagsUpTo.insert_main {refs : Refs} {n : Int} (h : TagsUpTo refs n) (t : Target) :
    TagsUpTo (refs.insert mainRef t) n := by
  intro ref href k hk
  rcases (AList.mem_insert refs).mp href with heq | href
  · rw [heq, tagVersion_mainRef] at hk
    cases hk
  · exact h ref href k hk

theorem TagsUpTo.insert_tag {refs : Refs} {m n : Int} (h : TagsUpTo refs n) (hm : m ≤ n)
    (t : Target) : TagsUpTo (refs.insert (tagRef (versionTag m)) t) n := by
  intro ref href k hk
  rcases (AList.mem_insert refs).mp href with heq | href
  · rw [heq] at hk
    have hsame := tagVersion_versionTag hk
    omega
  · exact h ref href k hk

theorem TagsUpTo.versionMoves {refs : Refs} {n : Int} (h : TagsUpTo refs n)
    {made : List (Int × Commit)} (hmade : ∀ m ∈ made, m.1 ≤ n) :
    TagsUpTo (setAll refs (versionMoves made)) n := by
  induction made generalizing refs with
  | nil => exact h
  | cons m made ih =>
    apply ih
    · exact h.insert_tag (hmade m List.mem_cons_self) _
    · exact fun m' hm' => hmade m' (List.mem_cons_of_mem m hm')

theorem TagsUpTo.mono {refs : Refs} {m n : Int} (h : TagsUpTo refs m) (hmn : m ≤ n) :
    TagsUpTo refs n := by
  intro ref href k hk
  have hle := h ref href k hk
  omega

theorem fresh_of_tagsUpTo {refs : Refs} {m n : Int} (hup : TagsUpTo refs m) (hn : m < n) :
    Fresh refs n := by
  intro hsome href
  obtain ⟨k, hk⟩ := Option.isSome_iff_exists.mp hsome
  have hle := hup _ href k hk
  have heq := tagVersion_versionTag hk
  omega

theorem fresh_of_no_tags {refs : Refs} (hnone : ∀ ref ∈ refs, tagVersion ref = none) (n : Int) :
    Fresh refs n := by
  intro hsome href
  rw [hnone _ href] at hsome
  cases hsome

private theorem mainRef_not_pinned : ¬ (tagVersion mainRef).isSome = true := by
  rw [tagVersion_mainRef]
  exact Bool.false_ne_true

theorem Fresh.insert_main {refs : Refs} {n : Int} (h : Fresh refs n) (t : Target) :
    Fresh (refs.insert mainRef t) n := by
  intro hsome href
  rcases (AList.mem_insert refs).mp href with heq | href
  · exact tagRef_ne_mainRef _ heq
  · exact h hsome href

theorem kept_insert_tag {refs : Refs} {n : Int} {t : Target}
    (h : tagRef (versionTag n) ∈ refs → (tagVersion (tagRef (versionTag n))).isSome = true →
      refs.lookup (tagRef (versionTag n)) = some t) :
    Kept refs (refs.insert (tagRef (versionTag n)) t) :=
  Refs.Extends.insert_name (tagRef_ne_mainRef _).symm h

theorem kept_versionMoves {refs : Refs} {made : List (Int × Commit)}
    (h : ∀ m ∈ made, Fresh refs m.1) : Kept refs (setAll refs (versionMoves made)) := by
  apply Refs.Extends.setAll
  intro move hmove
  obtain ⟨m, hm, rfl⟩ := List.mem_map.mp hmove
  exact ⟨tagRef_ne_mainRef _, h m hm⟩

theorem kept_buildHistory (core : Core) (f : WriteFaults) {refs : Refs}
    {versions : List VersionData} (parent : Option Commit) (authored : AuthoredSource)
    (h : ∀ v ∈ versions, Fresh refs v.version) :
    Kept refs (buildHistory core f refs versions parent authored).1 := by
  rcases buildHistory_cases core f refs versions parent authored with hsame | hmoved
  · rw [hsame]
    exact .refl refs
  · obtain ⟨made, tip, hmade, htip, -, hold, hrefs⟩ := hmoved
    have hversions := (commitAll_spec hmade).1
    have hmain : Kept refs (refs.insert mainRef (.commit tip)) := by
      apply Refs.Extends.insert_branch mainRef_not_pinned
      intro t ht
      rw [hold] at ht
      obtain ⟨p, hp, rfl⟩ := Option.map_eq_some_iff.mp ht
      obtain ⟨m, hm, rfl⟩ := Option.map_eq_some_iff.mp htip
      have hreach := (reaches_of_commitAll hmade (List.mem_of_getLast? hm) hp).1
      exact Or.inr ⟨p, m.2, rfl, rfl, hreach⟩
    rw [hrefs]
    refine hmain.trans (kept_versionMoves fun m hm => ?_)
    have hmem : m.1 ∈ versions.map VersionData.version := by
      rw [← hversions]
      exact List.mem_map_of_mem (List.takeWhile_subset _ hm)
    obtain ⟨v, hv, hnumber⟩ := List.mem_map.mp hmem
    rw [← hnumber]
    exact (h v hv).insert_main _

theorem kept_appendMissingVersions (core : Core) (f : WriteFaults) {refs : Refs}
    {versions : List VersionData} (h : ∀ v ∈ versions, Fresh refs v.version) :
    Kept refs (appendMissingVersions core f refs versions).1 := by
  unfold appendMissingVersions
  split_ifs
  · exact .refl refs
  split
  · exact .refl refs
  · exact kept_buildHistory core f none .carry h
  · split
    · exact .refl refs
    · exact kept_buildHistory core f _ .carry h
    · rename_i found _
      dsimp only
      rw [tagAll_eq]
      apply kept_versionMoves
      intro m hm
      have hmem := List.takeWhile_subset _ hm
      have hnumber : m.1 ∈ versions.map VersionData.version := (List.of_mem_zip hmem).1
      obtain ⟨v, hv, heq⟩ := List.mem_map.mp hnumber
      rw [← heq]
      exact h v hv

theorem kept_projectPushedCommit (core : Core) (f : ProjectionFaults) {refs : Refs}
    {s : ListState} (h : tagRef (versionTag (s.currentVersion + 1)) ∈ refs →
      (tagVersion (tagRef (versionTag (s.currentVersion + 1)))).isSome = true →
      ∀ t, refs.lookup mainRef = some t →
        refs.lookup (tagRef (versionTag (s.currentVersion + 1))) = some t) :
    Kept refs (projectPushedCommit core f refs s).refs := by
  rcases projectPushedCommit_refs core f refs s with hrefs | ⟨tip, htip, hrefs⟩
  · rw [hrefs]
    exact .refl refs
  · rw [hrefs]
    exact kept_insert_tag fun href hsome => h href hsome _ htip

theorem fresh_missingVersions {refs : Refs} {s : ListState} {highest : Nat}
    (hup : TagsUpTo refs highest) : ∀ v ∈ missingVersions s highest, Fresh refs v.version := by
  intro v hv
  have hlt := of_decide_eq_true (List.mem_filter.mp hv).2
  exact fresh_of_tagsUpTo hup hlt

theorem kept_catchUp (core : Core) (f : SyncFaults) {refs : Refs} (s : ListState) {highest : Nat}
    (hup : TagsUpTo refs highest) : Kept refs (catchUp core f refs s highest).refs := by
  rcases (catchUp_cases core f refs s highest _ rfl).2 with ⟨hrefs, -⟩ | ⟨-, hrefs, -⟩
  · rw [hrefs]
    exact .refl refs
  · rw [hrefs]
    exact kept_appendMissingVersions core f.history (fresh_missingVersions hup)

theorem lookup_of_tagOnTip {refs : Refs} {n : Int} (h : tagOnTip refs n = true)
    (href : tagRef (versionTag n) ∈ refs) {t : Target} (hmain : refs.lookup mainRef = some t) :
    refs.lookup (tagRef (versionTag n)) = some t := by
  obtain ⟨u, hu⟩ := Option.isSome_iff_exists.mp (AList.lookup_isSome.mpr href)
  simp only [tagOnTip, hu, hmain, decide_eq_true_eq] at h
  rw [hu, h]

theorem kept_alignByCounters (core : Core) (f : SyncFaults) {refs : Refs} (s : ListState)
    {highest : Nat} (hup : TagsUpTo refs highest) :
    Kept refs (alignByCounters core f refs s highest).refs := by
  rcases alignByCounters_cases core f refs s highest _ rfl with
    ⟨hsame, heq | ⟨-, heq⟩⟩ | ⟨-, heq⟩ | ⟨-, heq | ⟨hnext, htip, heq⟩⟩
  · rw [heq]
    exact .refl refs
  · rw [heq]
    apply kept_projectPushedCommit
    intro href hsome
    have hfresh := fresh_of_tagsUpTo hup (show (highest : Int) < s.currentVersion + 1 by omega)
    exact absurd href (hfresh hsome)
  · rw [heq]
    exact kept_catchUp core f s hup
  · rw [heq]
    exact .refl refs
  · rw [heq]
    apply kept_projectPushedCommit
    intro href _ t ht
    rw [← hnext] at href ⊢
    exact lookup_of_tagOnTip htip href ht

theorem rebuilt_alignByCounters (core : Core) (f : SyncFaults) {refs : Refs} {s : ListState}
    {highest : Nat} (h : (alignByCounters core f refs s highest).rebuilt = true) :
    refs.lookup mainRef = none ∧ (highest : Int) < s.currentVersion ∧
      ∃ r ∈ s.versions, (highest : Int) < r.version := by
  have hproject : ∀ o, (projectedOr (projectPushedCommit core f.projection refs s) o).rebuilt =
      false := fun _ => (projectPushedCommit_cases core f.projection refs s _ rfl).1
  rcases alignByCounters_cases core f refs s highest _ rfl with
    ⟨-, heq | ⟨-, heq⟩⟩ | ⟨hbelow, heq⟩ | ⟨-, heq | ⟨-, -, heq⟩⟩ <;> rw [heq] at h
  · cases h
  · rw [hproject] at h
    cases h
  · rcases (catchUp_cases core f refs s highest _ rfl).2 with ⟨-, hrebuilt, -⟩ | ⟨hsome, -, hrebuilt⟩
    · rw [hrebuilt] at h
      cases h
    · rw [hrebuilt] at h
      exact ⟨Option.isNone_iff_eq_none.mp h, hbelow, hsome⟩
  · cases h
  · rw [hproject] at h
    cases h

/-- The database would be built over version tags: there is no main, and the tags are all of
version zero, or the highest one is spelled in another way than the version it counts for. -/
def BuildsOverTags (refs : Refs) (s : ListState) : Prop :=
  refs.lookup mainRef = none ∧ (∃ ref ∈ refs, (tagVersion ref).isSome = true) ∧
    (maxTagIn refs = 0 ∧ s.versions ≠ [] ∨
    0 < maxTagIn refs ∧ refs.lookup (tagRef (versionTag (maxTagIn refs))) = none ∧
      (maxTagIn refs : Int) < s.currentVersion ∧
      ∃ r ∈ s.versions, (maxTagIn refs : Int) < r.version)

theorem kept_bootstrap (core : Core) (f : SyncFaults) {refs : Refs} (s : ListState)
    (hnone : ∀ ref ∈ refs, tagVersion ref = none) (other : Aligned SyncOutcome)
    (hother : Kept refs other.refs) : Kept refs (bootstrapOr core f refs s other).refs := by
  rcases bootstrapOr_cases core f refs s other _ rfl with ⟨heq, -⟩ | ⟨heq, -⟩ | ⟨-, -, -, heq, -⟩
  · rw [heq]
    exact .refl refs
  · rw [heq]
    exact hother
  · rw [heq]
    exact kept_buildHistory core f.history none .carry fun v _ => fresh_of_no_tags hnone v.version

theorem tags_none_of_max_zero {refs : Refs} {s : ListState} (hmain : refs.lookup mainRef = none)
    (hmax : maxTagIn refs = 0) (hrows : s.versions ≠ []) (h : ¬ BuildsOverTags refs s) :
    ∀ ref ∈ refs, tagVersion ref = none := by
  intro ref href
  by_contra hsome
  exact h ⟨hmain, ⟨ref, href, Option.isSome_iff_ne_none.mpr hsome⟩, Or.inl ⟨hmax, hrows⟩⟩

theorem kept_healMain (core : Core) (f : SyncFaults) {refs : Refs} {s : ListState}
    (hmain : refs.lookup mainRef = none) (h : ¬ BuildsOverTags refs s) :
    Kept refs (healMain core f refs s (maxTagIn refs)).refs := by
  have hup := tagsUpTo_maxTagIn refs
  have haligned := kept_alignByCounters core f s hup
  rcases healMain_cases core f refs s (maxTagIn refs) _ rfl _ rfl with
    ⟨e, -, -, heq⟩ | ⟨c, -, -, -, -, heq⟩ | ⟨-, heq⟩
  · rw [heq]
    exact .refl refs
  · rw [heq]
    have hrestored : Kept refs (refs.insert mainRef (.commit c)) := by
      apply Refs.Extends.insert_branch mainRef_not_pinned
      intro t ht
      rw [hmain] at ht
      cases ht
    exact hrestored.trans (kept_alignByCounters core f s (hup.insert_main _))
  · rw [heq]
    split_ifs with hmax
    · by_cases hrows : s.versions = []
      · rcases bootstrapOr_cases core f refs s _ _ rfl with ⟨hboot, -⟩ | ⟨hboot, -⟩ | ⟨hne, -⟩
        · rw [hboot]
          exact .refl refs
        · rw [hboot]
          exact haligned
        · exact absurd hrows hne
      · exact kept_bootstrap core f s (tags_none_of_max_zero hmain hmax hrows h) _ haligned
    · exact haligned

theorem rebuilt_healMain (core : Core) (f : SyncFaults) {refs : Refs} {s : ListState}
    (hmain : refs.lookup mainRef = none)
    (h : (healMain core f refs s (maxTagIn refs)).rebuilt = true) :
    (∀ ref ∈ refs, tagVersion ref = none) ∨ BuildsOverTags refs s := by
  by_contra hnot
  rw [not_or] at hnot
  obtain ⟨htags, hover⟩ := hnot
  have hex : ∃ ref ∈ refs, (tagVersion ref).isSome = true := by
    by_contra hnone
    refine htags fun ref href => ?_
    by_contra hsome
    exact hnone ⟨ref, href, Option.isSome_iff_ne_none.mpr hsome⟩
  rcases healMain_cases core f refs s (maxTagIn refs) _ rfl _ rfl with
    ⟨e, -, -, heq⟩ | ⟨c, -, -, -, -, heq⟩ | ⟨hfree, heq⟩ <;> rw [heq] at h
  · cases h
  · have hrestored := (rebuilt_alignByCounters core f h).1
    rw [AList.lookup_insert] at hrestored
    cases hrestored
  · have haligned : ∀ hr : (alignByCounters core f refs s (maxTagIn refs)).rebuilt = true, False := by
      intro hr
      obtain ⟨-, hbelow, hrow⟩ := rebuilt_alignByCounters core f hr
      rcases Nat.eq_zero_or_pos (maxTagIn refs) with hmax | hmax
      · obtain ⟨r, hr, -⟩ := hrow
        exact hover ⟨hmain, hex, Or.inl ⟨hmax, List.ne_nil_of_mem hr⟩⟩
      · have hmin : min (maxTagIn refs : Int) s.currentVersion = maxTagIn refs := by omega
        rw [hmin] at hfree
        exact hover ⟨hmain, hex, Or.inr ⟨hmax, hfree (by omega), hbelow, hrow⟩⟩
    split_ifs at h with hmax
    · rcases bootstrapOr_cases core f refs s _ _ rfl with ⟨hboot, -⟩ | ⟨hboot, -⟩ | ⟨hne, -⟩
      · rw [hboot] at h
        cases h
      · rw [hboot] at h
        exact haligned h
      · exact hover ⟨hmain, hex, Or.inl ⟨hmax, hne⟩⟩
    · exact haligned h

theorem rebuilt_of_buildsOverTags (core : Core) {f : SyncFaults} (hread : f.readRows = true)
    {refs : Refs} {s : ListState} (h : BuildsOverTags refs s) :
    (healMain core f refs s (maxTagIn refs)).rebuilt = true := by
  obtain ⟨hmain, -, hover⟩ := h
  have hfree : 0 < min (maxTagIn refs : Int) s.currentVersion →
      refs.lookup (tagRef (versionTag (min (maxTagIn refs : Int) s.currentVersion))) = none := by
    intro hpos
    rcases hover with ⟨hmax, -⟩ | ⟨-, hnone, hbelow, -⟩
    · omega
    · have hmin : min (maxTagIn refs : Int) s.currentVersion = maxTagIn refs := by omega
      rw [hmin]
      exact hnone
  rcases healMain_cases core f refs s (maxTagIn refs) _ rfl _ rfl with
    ⟨e, hpos, hne, -⟩ | ⟨c, hpos, htag, -⟩ | ⟨-, heq⟩
  · exact absurd (hfree hpos) hne
  · rw [hfree hpos] at htag
    cases htag
  · rw [heq]
    rcases hover with ⟨hmax, hrows⟩ | ⟨hpos, -, hbelow, r, hr, hlt⟩
    · rw [if_pos hmax]
      rcases bootstrapOr_cases core f refs s _ _ rfl with ⟨-, hfail⟩ | ⟨-, hnone⟩ | ⟨-, -, hbuilt, -⟩
      · rw [hread] at hfail
        cases hfail
      · exact absurd hnone hrows
      · exact hbuilt
    · rw [if_neg (by omega)]
      rcases alignByCounters_cases core f refs s (maxTagIn refs) _ rfl with
        ⟨hsame, -⟩ | ⟨-, heq⟩ | ⟨habove, -⟩
      · omega
      · rw [heq]
        rcases (catchUp_cases core f refs s (maxTagIn refs) _ rfl).2 with
          ⟨-, -, hnone⟩ | ⟨-, -, hrebuilt⟩
        · have hle := hnone hread r hr
          omega
        · rw [hrebuilt, hmain]
          rfl
      · omega

/-- Main stays or moves to a descendant, no reference goes away, and a version tag not above the
current version does not leave a commit of main. -/
structure HistoryKept (list : Option ListState) (before after : Refs) : Prop where
  main : ∀ t, before.lookup mainRef = some t →
    ∃ u, after.lookup mainRef = some u ∧ Refs.Forward t u
  names : ∀ ref ∈ before, ref ∈ after
  tags : ∀ s, list = some s → ∀ ref k c tip, tagVersion ref = some k →
    (k : Int) ≤ s.currentVersion → before.lookup ref = some (.commit c) →
    before.commitAt mainRef = some tip ∨ after.commitAt mainRef = some tip → tip.Reaches c →
    after.lookup ref = some (.commit c)

/-- A call keeps the history, and builds from the database only where there was no repository, or
one with neither main nor a version tag. -/
structure CallKept (disk : Disk) (list : Option ListState) (r : Synced) : Prop where
  history : ∀ refs, disk = .repo refs → ∃ after, r.disk = .repo after ∧ HistoryKept list refs after
  rebuilt : r.rebuilt = true → disk = .absent ∨ ∃ refs, disk = .repo refs ∧
    refs.lookup mainRef = none ∧ ∀ ref ∈ refs, tagVersion ref = none

theorem historyKept_of_kept {before after : Refs} (h : Kept before after)
    (list : Option ListState) : HistoryKept list before after where
  main := h.forward
  names := h.names
  tags := by
    intro s _ ref k c tip hk _ hlookup _ _
    have href : ref ∈ before := by
      rw [← AList.lookup_isSome, hlookup]
      rfl
    have hsome : (tagVersion ref).isSome = true := by
      rw [hk]
      rfl
    rw [h.stays ref href hsome, hlookup]

private theorem callKept_same (disk : Disk) (list : Option ListState)
    (outcome : Except SyncError SyncOutcome) : CallKept disk list ⟨disk, list, outcome, false⟩ where
  history := fun refs hdisk => ⟨refs, hdisk, historyKept_of_kept (.refl refs) list⟩
  rebuilt := nofun

private theorem callKept_synced {refs : Refs} (list : Option ListState) {a : Aligned SyncOutcome}
    (hkept : Kept refs a.refs) (hrebuilt : a.rebuilt = true →
      refs.lookup mainRef = none ∧ ∀ ref ∈ refs, tagVersion ref = none) :
    CallKept (.repo refs) list a.synced where
  history := by
    intro refs' hdisk
    obtain rfl := Disk.repo.inj hdisk
    exact ⟨a.refs, rfl, historyKept_of_kept hkept list⟩
  rebuilt := fun h => Or.inr ⟨refs, rfl, hrebuilt h⟩

private theorem callKept_absent (core : Core) (f : SyncFaults) (list : Option ListState) :
    CallKept .absent list (syncRepoWithDb core f .absent list) where
  history := nofun
  rebuilt := fun _ => Or.inl rfl

theorem not_callKept_of_buildsOverTags (core : Core) {refs : Refs} {s : ListState}
    (h : BuildsOverTags refs s) : ¬ CallKept (.repo refs) (some s)
      (syncRepoWithDb core (steady 0) (.repo refs) (some s)) := by
  intro hkept
  have hrebuilt : (syncRepoWithDb core (steady 0) (.repo refs) (some s)).rebuilt = true := by
    simp only [syncRepoWithDb, steady, h.1]
    exact rebuilt_of_buildsOverTags core rfl h
  rcases hkept.rebuilt hrebuilt with habsent | ⟨refs', hrepo, -, hnone⟩
  · cases habsent
  · obtain rfl := Disk.repo.inj hrepo
    obtain ⟨-, ⟨ref, href, hsome⟩, -⟩ := h
    rw [hnone ref href] at hsome
    cases hsome

/-- Every alignment, whatever fails in it, keeps the history exactly when it does not build the
database over version tags. -/
theorem sync_keeps_history_iff (core : Core) (disk : Disk) (list : Option ListState) :
    (∀ f, CallKept disk list (syncRepoWithDb core f disk list)) ↔
      ∀ refs s, disk = .repo refs → list = some s → ¬ BuildsOverTags refs s := by
  constructor
  · intro h refs s hdisk hlist hover
    subst hdisk hlist
    exact not_callKept_of_buildsOverTags core hover (h (steady 0))
  · intro h f
    cases hcurrent : f.readCurrent with
    | false =>
      simp only [syncRepoWithDb, hcurrent]
      exact callKept_same disk list _
    | true =>
      cases list with
      | none =>
        simp only [syncRepoWithDb, hcurrent]
        exact callKept_same disk none _
      | some s =>
        cases disk with
        | absent => exact callKept_absent core f (some s)
        | unreadable =>
          simp only [syncRepoWithDb, hcurrent]
          exact callKept_same .unreadable (some s) _
        | repo refs =>
          have hover := h refs s rfl rfl
          cases hmain : refs.lookup mainRef with
          | some t =>
            simp only [syncRepoWithDb, hcurrent, hmain]
            apply callKept_synced _ (kept_alignByCounters core f s (tagsUpTo_maxTagIn refs))
            intro hrebuilt
            have hnone := (rebuilt_alignByCounters core f hrebuilt).1
            rw [hmain] at hnone
            cases hnone
          | none =>
            simp only [syncRepoWithDb, hcurrent, hmain]
            apply callKept_synced _ (kept_healMain core f hmain hover)
            intro hrebuilt
            rcases rebuilt_healMain core f hmain hrebuilt with hnone | hover'
            · exact ⟨hmain, hnone⟩
            · exact absurd hover' hover

/-- A repository that has lost its main, with one tag of version zero. -/
def zeroTagged : Refs :=
  AList.insert (tagRef "v0".toList) (.commit (.mk .empty [] ⟨[], [], 0⟩)) ∅

/-- A list with a version is built anew next to the tag of version zero. -/
theorem sync_builds_next_to_zero_tag : ¬ CallKept (.repo zeroTagged) (some bornList)
    (syncRepoWithDb canonCore (steady 0) (.repo zeroTagged) (some bornList)) := by
  have hkey : zeroTagged.keys = [tagRef "v0".toList] := rfl
  have hzero : tagVersion (tagRef "v0".toList) = some 0 := by
    rw [tagVersion_tagRef]
    decide
  have hmem : tagRef "v0".toList ∈ zeroTagged := by
    rw [AList.mem_keys, hkey]
    exact List.mem_singleton_self _
  have hmain : zeroTagged.lookup mainRef = none := by
    rw [zeroTagged, AList.lookup_insert_ne (tagRef_ne_mainRef _).symm]
    rfl
  have hread : zeroTagged.keys.filterMap tagVersion = [0] := by
    rw [hkey, List.filterMap_cons_some hzero, List.filterMap_nil]
  have hmax : maxTagIn zeroTagged = 0 := by
    rw [maxTagIn, hread]
    rfl
  have hsome : (tagVersion (tagRef "v0".toList)).isSome = true := by
    rw [hzero]
    rfl
  have hrows : bornList.versions ≠ [] := List.cons_ne_nil _ _
  exact not_callKept_of_buildsOverTags canonCore ⟨hmain, ⟨_, hmem, hsome⟩, Or.inl ⟨hmax, hrows⟩⟩

end Setfork.AppendOnly
