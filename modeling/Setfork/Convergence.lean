/- Convergence
   digest: An alignment that succeeds is final, and its verdict holds unless the number of the
   current version comes from a tag spelled in another way. -/
import Setfork.AppendOnly
import Setfork.Healing

set_option autoImplicit false
set_option relaxedAutoImplicit false

namespace Setfork.Convergence

open Setfork.Foundation
open Setfork.Serialize
open Setfork.Rows
open Setfork.CanonMirror (bornList)
open Setfork.VersionTree
open Setfork.Repository
open Setfork.History
open Setfork.Alignment
open Setfork.AppendOnly
open Setfork.Healing (Agree sync_of_agree agree_of_tagged)

/-- The version rows are exactly those from one to the current version, and there is room for one
more number. -/
structure ExactRows (s : ListState) : Prop where
  rows : ∀ k, (∃ r ∈ s.versions, r.version = k) ↔ 1 ≤ k ∧ k ≤ s.currentVersion
  start : 0 ≤ s.currentVersion
  room : s.currentVersion < 2147483647

namespace ExactRows

variable {s : ListState}

theorem rows_le (h : ExactRows s) : ∀ r ∈ s.versions, r.version ≤ s.currentVersion :=
  fun r hr => ((h.rows r.version).mp ⟨r, hr, rfl⟩).2

theorem current_row (h : ExactRows s) (hborn : 0 < s.currentVersion) :
    ∃ r ∈ s.versions, r.version = s.currentVersion :=
  (h.rows s.currentVersion).mpr ⟨hborn, le_refl _⟩

theorem versions_nil (h : ExactRows s) (hunborn : s.currentVersion = 0) : s.versions = [] := by
  by_contra hne
  obtain ⟨r, hr⟩ := List.exists_mem_of_ne_nil _ hne
  have hbounds := (h.rows r.version).mp ⟨r, hr, rfl⟩
  omega

end ExactRows

def Ascending (versions : List VersionData) : Prop :=
  versions.Pairwise (fun v w => v.version ≤ w.version)

theorem ascending_loadBundleData (s : ListState) : Ascending (loadBundleData s) := by
  have htotal : Std.Total versionLe := ⟨fun a b => Int.le_total a.version b.version⟩
  have htrans : IsTrans VersionRecord versionLe := ⟨fun _ _ _ hab hbc => Int.le_trans hab hbc⟩
  exact List.pairwise_map.mpr (List.pairwise_insertionSort versionLe s.versions)

theorem ascending_missingVersions (s : ListState) (highest : Nat) :
    Ascending (missingVersions s highest) :=
  (ascending_loadBundleData s).sublist List.filter_sublist

theorem getLast_of_ascending {versions : List VersionData} {n : Int} (h : Ascending versions)
    (hle : ∀ v ∈ versions, v.version ≤ n) (hmem : ∃ v ∈ versions, v.version = n) :
    (versions.map VersionData.version).getLast? = some n := by
  obtain ⟨v, hv, hn⟩ := hmem
  have hne : versions ≠ [] := List.ne_nil_of_mem hv
  obtain ⟨front, last, rfl⟩ := List.eq_nil_or_concat versions |>.resolve_left hne
  rw [List.concat_eq_append] at *
  have hlast : last.version = n := by
    have hupper := hle last (List.mem_append_right _ (List.mem_singleton_self last))
    rcases List.mem_append.mp hv with hv | hv
    · have hlower := (List.pairwise_append.mp h).2.2 v hv last (List.mem_singleton_self last)
      omega
    · rw [← List.mem_singleton.mp hv]
      exact hn
  simp [hlast]

theorem missingVersions_last {s : ListState} (hexact : ExactRows s) {highest : Nat}
    (hbehind : (highest : Int) < s.currentVersion) :
    ((missingVersions s highest).map VersionData.version).getLast? = some s.currentVersion := by
  obtain ⟨r, hr, hcurrent⟩ := hexact.current_row (by omega)
  apply getLast_of_ascending (ascending_missingVersions s highest)
  · intro v hv
    obtain ⟨w, hw, rfl⟩ := mem_loadBundleData.mp (List.mem_filter.mp hv).1
    exact hexact.rows_le w hw
  · refine ⟨loadVersionData s r, List.mem_filter.mpr ⟨?_, ?_⟩, hcurrent⟩
    · exact mem_loadBundleData.mpr ⟨r, hr, rfl⟩
    · have hversion : (loadVersionData s r).version = s.currentVersion := hcurrent
      rw [hversion]
      exact decide_eq_true hbehind

theorem agree_of_versionTags {refs : Refs} {s : ListState} {made : List (Int × Commit)}
    {tip : Commit} (hexact : ExactRows s) (hborn : 0 < s.currentVersion)
    (hmain : refs.lookup mainRef = some (.commit tip)) (hup : TagsUpTo refs s.currentVersion)
    (hmade : ∀ m ∈ made, m.1 ≤ s.currentVersion)
    (hlast : made.getLast? = some (s.currentVersion, tip)) :
    Agree (refs.setAll (versionMoves made)) s := by
  obtain ⟨front, rfl⟩ := List.getLast?_eq_some_iff.mp hlast
  have hsplit : refs.setAll (versionMoves (front ++ [(s.currentVersion, tip)])) =
      (refs.setAll (versionMoves front)).insert (tagRef (versionTag s.currentVersion))
        (.commit tip) := by
    simp [versionMoves, Refs.setAll]
  have hmainFront : (refs.setAll (versionMoves front)).lookup mainRef = some (.commit tip) := by
    rw [lookup_main_versionMoves, hmain]
  have hupFront : TagsUpTo (refs.setAll (versionMoves front)) s.currentVersion :=
    hup.versionMoves fun m hm => hmade m (List.mem_append_left _ hm)
  have hmaxFront : (maxTagIn (refs.setAll (versionMoves front)) : Int) ≤ s.currentVersion := by
    rcases maxTagIn_eq (refs.setAll (versionMoves front)) with hzero | ⟨ref, href, hk⟩
    · omega
    · exact hupFront ref href _ hk
  obtain ⟨n, hn⟩ := Int.eq_ofNat_of_zero_le hexact.start
  have hroom := hexact.room
  have hmax := @maxTagIn_insert_next (refs.setAll (versionMoves front)) n (by omega) (by omega)
    (.commit tip)
  rw [hsplit]
  refine ⟨hborn, ?_, ⟨tip, ?_, AList.lookup_insert _⟩, hexact.rows_le⟩
  · rw [hn, hmax]
  · rw [AList.lookup_insert_ne (tagRef_ne_mainRef _).symm, hmainFront]

private theorem getLast_pair {made : List (Int × Commit)} {n : Int} {tip : Commit}
    (hfst : (made.map Prod.fst).getLast? = some n)
    (hsnd : made.getLast?.map Prod.snd = some tip) : made.getLast? = some (n, tip) := by
  rw [List.getLast?_map] at hfst
  obtain ⟨m, hm, rfl⟩ := Option.map_eq_some_iff.mp hsnd
  rw [hm] at hfst ⊢
  rw [← Option.some.inj hfst]

private theorem takeWhile_true (made : List (Int × Commit)) :
    made.takeWhile (fun _ => true) = made :=
  List.takeWhile_eq_self_iff.mpr fun _ _ => rfl

theorem buildHistory_ok {core : Core} {refs : Refs} {versions : List VersionData}
    {parent o : Option Commit} {authored : AuthoredSource} (hne : versions ≠ [])
    (h : (buildHistory core ⟨true, fun _ => true⟩ refs versions parent authored).2 = .ok o) :
    ∃ made tip, commitAll core authored parent versions = some made ∧
      made.getLast?.map Prod.snd = some tip ∧
      (buildHistory core ⟨true, fun _ => true⟩ refs versions parent authored).1 =
        Refs.setAll (refs.insert mainRef (.commit tip)) (versionMoves made) := by
  cases hmade : commitAll core authored parent versions with
  | none =>
    simp only [buildHistory, hmade] at h
    cases h
  | some made =>
    have hversions := (commitAll_spec hmade).1
    have hsome : made ≠ [] := by
      rintro rfl
      exact hne (List.map_eq_nil_iff.mp hversions.symm)
    obtain ⟨m, hm⟩ := Option.isSome_iff_exists.mp (List.getLast?_isSome.mpr hsome)
    have htip : made.getLast?.map Prod.snd = some m.2 := by
      rw [hm]
      rfl
    have hparent : some m.2 ≠ parent := by
      intro heq
      exact (reaches_of_commitAll hmade (List.mem_of_getLast? hm) heq.symm).2 rfl
    cases hmoved : updateMain refs true m.2 parent with
    | error e =>
      simp only [buildHistory, hmade, htip, Option.some_or, if_neg hparent, hmoved] at h
      cases h
    | ok moved =>
      obtain ⟨-, -, -, -, rfl⟩ := updateMain_eq_ok_iff.mp hmoved
      refine ⟨made, m.2, rfl, htip, ?_⟩
      rw [buildHistory_of_moved (f := ⟨true, fun _ => true⟩) hmade htip hmoved]
      dsimp only
      rw [takeWhile_true]

theorem agree_of_buildHistory {core : Core} {refs : Refs} {s : ListState}
    {versions : List VersionData} {parent o : Option Commit} (hexact : ExactRows s)
    (hborn : 0 < s.currentVersion) (hup : TagsUpTo refs s.currentVersion)
    (hle : ∀ v ∈ versions, v.version ≤ s.currentVersion)
    (hlast : (versions.map VersionData.version).getLast? = some s.currentVersion)
    (h : (buildHistory core ⟨true, fun _ => true⟩ refs versions parent .carry).2 = .ok o) :
    Agree (buildHistory core ⟨true, fun _ => true⟩ refs versions parent .carry).1 s := by
  have hne : versions ≠ [] := by
    rintro rfl
    cases hlast
  obtain ⟨made, tip, hmade, htip, hrefs⟩ := buildHistory_ok hne h
  have hversions := (commitAll_spec hmade).1
  rw [hrefs]
  apply agree_of_versionTags hexact hborn (AList.lookup_insert refs) (hup.insert_main _)
  · intro m hm
    have hmem : m.1 ∈ versions.map VersionData.version := by
      rw [← hversions]
      exact List.mem_map_of_mem hm
    obtain ⟨v, hv, heq⟩ := List.mem_map.mp hmem
    rw [← heq]
    exact hle v hv
  · apply getLast_pair _ htip
    rw [hversions, hlast]

private theorem zip_getLast {ns : List Int} {cs : List Commit} {n : Int} {c : Commit}
    (hn : ns.getLast? = some n) (hc : cs.getLast? = some c) (hlength : ns.length = cs.length) :
    (ns.zip cs).getLast? = some (n, c) := by
  obtain ⟨numbers, rfl⟩ := List.getLast?_eq_some_iff.mp hn
  obtain ⟨commits, rfl⟩ := List.getLast?_eq_some_iff.mp hc
  have hfront : numbers.length = commits.length := by simpa using hlength
  rw [List.zip_append hfront]
  simp

theorem tailFrom_spec {core : Core} {tip : Commit} {versions : List VersionData}
    {found : List Commit} (h : tailFrom core (some tip) versions = some (some found)) :
    found.length = versions.length ∧ (versions ≠ [] → found.head? = some tip) := by
  induction versions generalizing tip found with
  | nil =>
    obtain rfl : [] = found := Option.some.inj (Option.some.inj h)
    exact ⟨rfl, fun hne => absurd rfl hne⟩
  | cons v versions ih =>
    obtain ⟨expected, -, hrest⟩ := Option.bind_eq_some_iff.mp h
    split_ifs at hrest with hsame
    · obtain ⟨later, hlater, hfound⟩ := Option.map_eq_some_iff.mp hrest
      obtain ⟨cs, rfl, rfl⟩ := Option.map_eq_some_iff.mp hfound
      refine ⟨?_, fun _ => rfl⟩
      cases hparent : tip.parents.head? with
      | none =>
        rw [hparent] at hlater
        cases versions with
        | nil =>
          obtain rfl : [] = cs := Option.some.inj (Option.some.inj hlater)
          rfl
        | cons w versions => cases Option.some.inj hlater
      | some p =>
        rw [hparent] at hlater
        rw [List.length_cons, List.length_cons, (ih hlater).1]
    · cases Option.some.inj hrest

theorem agree_of_appendMissing {core : Core} {refs : Refs} {s : ListState}
    {versions : List VersionData} {o : Option Commit} (hexact : ExactRows s)
    (hborn : 0 < s.currentVersion) (hup : TagsUpTo refs s.currentVersion)
    (hle : ∀ v ∈ versions, v.version ≤ s.currentVersion)
    (hlast : (versions.map VersionData.version).getLast? = some s.currentVersion)
    (h : (appendMissingVersions core ⟨true, fun _ => true⟩ refs versions).2 = .ok o) :
    Agree (appendMissingVersions core ⟨true, fun _ => true⟩ refs versions).1 s := by
  have hne : versions ≠ [] := by
    rintro rfl
    cases hlast
  have hempty : versions.isEmpty = false := by simpa using hne
  cases hmain : mainCommit refs with
  | error e =>
    simp only [appendMissingVersions, hempty, hmain, Bool.false_eq_true, if_false] at h
    cases h
  | ok parent =>
    cases parent with
    | none =>
      simp only [appendMissingVersions, hempty, hmain, Bool.false_eq_true, if_false] at h ⊢
      exact agree_of_buildHistory hexact hborn hup hle hlast h
    | some tip =>
      cases htail : tailCommits core tip versions with
      | none =>
        simp only [appendMissingVersions, hempty, hmain, htail, Bool.false_eq_true, if_false] at h
        cases h
      | some found =>
        cases found with
        | none =>
          simp only [appendMissingVersions, hempty, hmain, htail, Bool.false_eq_true,
            if_false] at h ⊢
          exact agree_of_buildHistory hexact hborn hup hle hlast h
        | some found =>
          obtain ⟨tail, hfrom, hback⟩ := Option.map_eq_some_iff.mp htail
          obtain ⟨cs, rfl, rfl⟩ := Option.map_eq_some_iff.mp hback
          obtain ⟨hlength, hhead⟩ := tailFrom_spec hfrom
          have hzip : ((versions.map VersionData.version).zip cs.reverse).getLast? =
              some (s.currentVersion, tip) := zip_getLast hlast
            (by rw [List.getLast?_reverse, hhead (by simpa using hne)])
            (by simp [hlength])
          have htip : refs.lookup mainRef = some (.commit tip) := by
            unfold mainCommit at hmain
            cases hlookup : refs.lookup mainRef with
            | none =>
              rw [hlookup] at hmain
              cases Except.ok.inj hmain
            | some t =>
              rw [hlookup] at hmain
              cases t with
              | object id tagged => cases hmain
              | commit c => rw [Option.some.inj (Except.ok.inj hmain)]
          simp only [appendMissingVersions, hempty, hmain, htail, Bool.false_eq_true, if_false,
            tagAll_eq]
          rw [takeWhile_true]
          refine agree_of_versionTags hexact hborn htip hup ?_ hzip
          intro m hm
          obtain ⟨v, hv, heq⟩ := List.mem_map.mp (List.of_mem_zip hm).1
          rw [← heq]
          exact hle v hv

theorem projectPushedCommit_again {core : Core} {refs : Refs} {s : ListState} {now : Int}
    (h : (projectPushedCommit core (steady now).projection refs s).outcome = .ok none)
    (later : Int) : projectPushedCommit core (steady later).projection refs s =
      ⟨refs, s, .ok none, false⟩ := by
  cases hread : readTip core refs with
  | none => simp only [projectPushedCommit, hread]
  | some read =>
    obtain ⟨tip, bytes, subject⟩ := read
    cases hparse : core.parser.fromSlice bytes with
    | none => simp only [projectPushedCommit, hread, hparse]
    | some raw =>
      cases hsteps : raw.steps with
      | none => simp only [projectPushedCommit, hread, hparse, hsteps]
      | some steps =>
        exfalso
        simp only [projectPushedCommit, hread, hparse, hsteps, steady] at h
        cases hadd : Carryover.addVersion s (Project.projectionNote subject) now
            (Project.parseSteps steps) with
        | none =>
          rw [hadd] at h
          cases h
        | some added =>
          rw [hadd] at h
          cases Except.ok.inj h

theorem agree_of_projected {core : Core} {refs : Refs} {s : ListState} {now v : Int}
    (hexact : ExactRows s) (hup : (maxTagIn refs : Int) ≤ s.currentVersion + 1)
    (h : (projectPushedCommit core (steady now).projection refs s).outcome = .ok (some v)) :
    Agree (projectPushedCommit core (steady now).projection refs s).refs
      (projectPushedCommit core (steady now).projection refs s).list := by
  obtain ⟨-, hcases⟩ := projectPushedCommit_cases core (steady now).projection refs s _ rfl
  rcases hcases with ⟨-, -, hout | hout⟩ | ⟨-, -, hout⟩ | ⟨hnext, -, tip, htip, hrefs⟩
  · rw [hout] at h
    cases Except.ok.inj h
  · rw [hout] at h
    cases h
  · rw [hout] at h
    cases h
  · rw [hrefs]
    exact agree_of_tagged hexact.room hexact.start htip hup hnext hexact.rows_le

/-- The verdict that nothing can be done about the counters: they are equal, and nothing changed. -/
structure Unchanged (refs : Refs) (s : ListState) (a : Aligned SyncOutcome) (o : SyncOutcome) :
    Prop where
  sameRefs : a.refs = refs
  sameList : a.list = s
  counters : (maxTagIn refs : Int) = s.currentVersion
  verdict : o = .inSync ∨ o = .tipNotVersioned s.currentVersion
  tip : o = .inSync → 0 < s.currentVersion → tagOnTip refs s.currentVersion = true

theorem catchUp_settles {core : Core} {refs : Refs} {s : ListState} {now : Int} {o : SyncOutcome}
    (hexact : ExactRows s) (hbehind : (maxTagIn refs : Int) < s.currentVersion)
    (hok : (catchUp core (steady now) refs s (maxTagIn refs)).outcome = .ok o) :
    Agree (catchUp core (steady now) refs s (maxTagIn refs)).refs
      (catchUp core (steady now) refs s (maxTagIn refs)).list ∧ o ≠ .inSync := by
  have hlast := missingVersions_last hexact hbehind
  have hempty : (missingVersions s (maxTagIn refs)).isEmpty = false := by
    rw [List.isEmpty_eq_false_iff]
    intro hnil
    rw [hnil] at hlast
    cases hlast
  have hle : ∀ v ∈ missingVersions s (maxTagIn refs), v.version ≤ s.currentVersion := by
    intro v hv
    obtain ⟨w, hw, rfl⟩ := mem_loadBundleData.mp (List.mem_filter.mp hv).1
    exact hexact.rows_le w hw
  have hup : TagsUpTo refs s.currentVersion := (tagsUpTo_maxTagIn refs).mono hbehind.le
  have hread : (steady now).readRows = true := rfl
  simp only [catchUp, hread, hempty, Bool.not_true, Bool.false_eq_true, if_false] at hok ⊢
  cases happend : appendMissingVersions core (steady now).history refs
      (missingVersions s (maxTagIn refs)) with
  | mk appended result =>
    rw [happend] at hok
    cases result with
    | error e => cases hok
    | ok made =>
      have hagree := agree_of_appendMissing (o := made) hexact (by omega) hup hle
        hlast (congrArg Prod.snd happend)
      have hrefs : (appendMissingVersions core ⟨true, fun _ => true⟩ refs
          (missingVersions s (maxTagIn refs))).1 = appended := congrArg Prod.fst happend
      rw [hrefs] at hagree
      refine ⟨hagree, ?_⟩
      rw [← Except.ok.inj hok]
      exact fun h => by cases h

private theorem projectedOr_settles {core : Core} {refs : Refs} {s : ListState} {now : Int}
    {o nothing : SyncOutcome} (hexact : ExactRows s)
    (hup : (maxTagIn refs : Int) ≤ s.currentVersion + 1)
    (hout : (projectedOr (projectPushedCommit core (steady now).projection refs s)
      nothing).outcome = .ok o) :
    (Agree (projectPushedCommit core (steady now).projection refs s).refs
      (projectPushedCommit core (steady now).projection refs s).list ∧ o ≠ .inSync) ∨
    (projectPushedCommit core (steady now).projection refs s).outcome = .ok none ∧ o = nothing := by
  cases hresult : (projectPushedCommit core (steady now).projection refs s).outcome with
  | error e =>
    simp only [projectedOr, hresult] at hout
    cases hout
  | ok v =>
    simp only [projectedOr, hresult] at hout
    cases v with
    | none => exact Or.inr ⟨rfl, (Except.ok.inj hout).symm⟩
    | some v =>
      refine Or.inl ⟨agree_of_projected hexact hup hresult, ?_⟩
      rw [← Except.ok.inj hout]
      exact fun h => by cases h

theorem alignByCounters_settles {core : Core} {refs : Refs} {s : ListState} {now : Int}
    {o : SyncOutcome} (hexact : ExactRows s)
    (hok : (alignByCounters core (steady now) refs s (maxTagIn refs)).outcome = .ok o)
    (hgo : ∀ h c, o ≠ .conflict h c) :
    (Agree (alignByCounters core (steady now) refs s (maxTagIn refs)).refs
      (alignByCounters core (steady now) refs s (maxTagIn refs)).list ∧ o ≠ .inSync) ∨
    Unchanged refs s (alignByCounters core (steady now) refs s (maxTagIn refs)) o ∧
      ∀ later, alignByCounters core (steady later) refs s (maxTagIn refs) =
        alignByCounters core (steady now) refs s (maxTagIn refs) := by
  rcases lt_trichotomy (maxTagIn refs : Int) s.currentVersion with hbehind | hsame | hahead
  · have heq : alignByCounters core (steady now) refs s (maxTagIn refs) =
        catchUp core (steady now) refs s (maxTagIn refs) := by
      rw [alignByCounters, if_neg hbehind.ne, if_pos hbehind]
    rw [heq] at hok ⊢
    exact Or.inl (catchUp_settles hexact hbehind hok)
  · by_cases hoff : 0 < s.currentVersion ∧ tagOnTip refs s.currentVersion = false
    · have heq : ∀ t, alignByCounters core (steady t) refs s (maxTagIn refs) =
          projectedOr (projectPushedCommit core (steady t).projection refs s)
            (.tipNotVersioned s.currentVersion) := by
        intro t
        rw [alignByCounters, if_pos hsame, if_pos hoff]
      simp only [heq] at hok ⊢
      rcases projectedOr_settles hexact (by omega) hok with hagree | ⟨hnone, ho⟩
      · exact Or.inl hagree
      · have hagain := projectPushedCommit_again hnone
        right
        simp only [hagain]
        refine ⟨⟨rfl, rfl, hsame, Or.inr ho, fun hsync => ?_⟩, fun _ => trivial⟩
        rw [ho] at hsync
        cases hsync
    · have heq : ∀ t, alignByCounters core (steady t) refs s (maxTagIn refs) =
          ⟨refs, s, .ok .inSync, false⟩ := by
        intro t
        rw [alignByCounters, if_pos hsame, if_neg hoff]
      simp only [heq] at hok ⊢
      have ho := (Except.ok.inj hok).symm
      refine Or.inr ⟨⟨rfl, rfl, hsame, Or.inl ho, fun _ hborn => ?_⟩, fun _ => trivial⟩
      by_contra hfalse
      exact hoff ⟨hborn, by simpa using hfalse⟩
  · left
    have hnot : ¬ (maxTagIn refs : Int) < s.currentVersion := by omega
    by_cases htail : (maxTagIn refs : Int) = s.currentVersion + 1 ∧
        tagOnTip refs (maxTagIn refs) = true
    · have heq : alignByCounters core (steady now) refs s (maxTagIn refs) =
          projectedOr (projectPushedCommit core (steady now).projection refs s)
            (.conflict (maxTagIn refs) s.currentVersion) := by
        rw [alignByCounters, if_neg hahead.ne', if_neg hnot, if_pos htail]
      rw [heq] at hok ⊢
      rcases projectedOr_settles hexact (by omega) hok with hagree | ⟨-, ho⟩
      · exact hagree
      · exact absurd ho (hgo _ _)
    · have heq : alignByCounters core (steady now) refs s (maxTagIn refs) =
          ⟨refs, s, .ok (.conflict (maxTagIn refs) s.currentVersion), false⟩ := by
        rw [alignByCounters, if_neg hahead.ne', if_neg hnot, if_neg htail]
      rw [heq] at hok
      exact absurd (Except.ok.inj hok).symm (hgo _ _)

theorem bootstrap_settles {core : Core} {refs : Refs} {s : ListState} {now : Int}
    (hexact : ExactRows s) (hup : TagsUpTo refs s.currentVersion) :
    (s.versions = [] ∧ ∀ later, bootstrapFromDb core (steady later) refs s =
      ⟨refs, s, .ok none, false⟩) ∨
    (∃ e, (bootstrapFromDb core (steady now) refs s).outcome = .error e) ∨
    ∃ n, (bootstrapFromDb core (steady now) refs s).outcome = .ok (some (.bootstrapped n)) ∧
      (bootstrapFromDb core (steady now) refs s).list = s ∧
      Agree (bootstrapFromDb core (steady now) refs s).refs s := by
  have hread : ∀ t, (steady t).readRows = true := fun _ => rfl
  by_cases hrows : s.versions = []
  · left
    have hnone : loadBundleData s = [] := by
      by_contra hne
      exact loadBundleData_ne_nil.mp hne hrows
    refine ⟨hrows, fun later => ?_⟩
    simp [bootstrapFromDb, hread, hnone]
  · right
    have hsome := loadBundleData_ne_nil.mpr hrows
    have hempty : (loadBundleData s).isEmpty = false := by simpa using hsome
    have hborn : 0 < s.currentVersion := by
      by_contra hnot
      have hstart := hexact.start
      exact hrows (hexact.versions_nil (by omega))
    obtain ⟨r, hr, hcurrent⟩ := hexact.current_row hborn
    have hle : ∀ v ∈ loadBundleData s, v.version ≤ s.currentVersion := by
      intro v hv
      obtain ⟨w, hw, rfl⟩ := mem_loadBundleData.mp hv
      exact hexact.rows_le w hw
    have hlast := getLast_of_ascending (ascending_loadBundleData s) hle
      ⟨loadVersionData s r, mem_loadBundleData.mpr ⟨r, hr, rfl⟩, hcurrent⟩
    cases hbuilt : buildHistory core (steady now).history refs (loadBundleData s) none .carry with
    | mk built result =>
      cases result with
      | error e =>
        have heq : bootstrapFromDb core (steady now) refs s =
            ⟨built, s, .error (.git e), true⟩ := by
          simp only [bootstrapFromDb, hread, hempty, hbuilt, Bool.not_true, Bool.false_eq_true,
            if_false]
        rw [heq]
        exact Or.inl ⟨_, rfl⟩
      | ok o =>
        have heq : bootstrapFromDb core (steady now) refs s =
            ⟨built, s, .ok (some (.bootstrapped (loadBundleData s).length)), true⟩ := by
          simp only [bootstrapFromDb, hread, hempty, hbuilt, Bool.not_true, Bool.false_eq_true,
            if_false]
        have hagree := agree_of_buildHistory (o := o) hexact hborn hup hle hlast
          (congrArg Prod.snd hbuilt)
        have hrefs : (buildHistory core ⟨true, fun _ => true⟩ refs (loadBundleData s) none
            .carry).1 = built := congrArg Prod.fst hbuilt
        rw [hrefs] at hagree
        rw [heq]
        exact Or.inr ⟨_, rfl, rfl, hagree⟩

private theorem map_eq_ok {version : Int} {result : Except SyncError SyncOutcome} {o : SyncOutcome}
    (h : result.map (fun o => if o = .inSync then .mainRestored version else o) = .ok o) :
    ∃ verdict, result = .ok verdict ∧
      (if verdict = .inSync then .mainRestored version else verdict) = o := by
  cases result with
  | error e => cases h
  | ok verdict => exact ⟨verdict, rfl, Except.ok.inj h⟩

private theorem bootstrapOr_of_error (core : Core) (refs : Refs) (s : ListState) (now : Int)
    (other : Aligned SyncOutcome) {e : SyncError}
    (h : (bootstrapFromDb core (steady now) refs s).outcome = .error e) :
    (bootstrapOr core (steady now) refs s other).outcome = .error e := by
  unfold bootstrapOr
  split
  · rename_i heq
    rw [heq] at h
    cases h
  · rename_i heq
    rw [heq] at h
    rw [Except.error.inj h]
  · rename_i heq
    rw [heq] at h
    cases h

private theorem bootstrapOr_of_built (core : Core) (refs : Refs) (s : ListState) (now : Int)
    (other : Aligned SyncOutcome) {o : SyncOutcome}
    (h : (bootstrapFromDb core (steady now) refs s).outcome = .ok (some o)) :
    bootstrapOr core (steady now) refs s other =
      { bootstrapFromDb core (steady now) refs s with outcome := .ok o } := by
  unfold bootstrapOr
  split
  · rename_i heq
    rw [heq] at h ⊢
    rw [Option.some.inj (Except.ok.inj h)]
  · rename_i heq
    rw [heq] at h
    cases h
  · rename_i heq
    rw [heq] at h
    cases Except.ok.inj h

private theorem restored_settles {core : Core} {refs : Refs} {s : ListState} {now : Int}
    {o : SyncOutcome} {c : Commit} (hexact : ExactRows s)
    (hpos : 0 < min (maxTagIn refs : Int) s.currentVersion)
    (htag : refs.lookup (tagRef (versionTag (min (maxTagIn refs : Int) s.currentVersion))) =
      some (.commit c))
    {a : Aligned SyncOutcome}
    (ha : alignByCounters core (steady now) (refs.insert mainRef (.commit c)) s (maxTagIn refs) = a)
    (hok : a.outcome.map (fun o => if o = .inSync then
      .mainRestored (min (maxTagIn refs : Int) s.currentVersion) else o) = .ok o)
    (hgo : ∀ h c, o ≠ .conflict h c) : Agree a.refs a.list ∧ o ≠ .inSync := by
  subst ha
  have hmax := maxTagIn_insert_main refs (.commit c)
  obtain ⟨verdict, hverdict, ho⟩ := map_eq_ok hok
  have hgo' : ∀ h c, verdict ≠ .conflict h c := by
    rintro h c rfl
    exact hgo h c ho.symm
  have hsettled := alignByCounters_settles hexact (by rw [hmax]; exact hverdict) hgo'
  rw [hmax] at hsettled
  rcases hsettled with ⟨hagree, hne⟩ | ⟨hunchanged, -⟩
  · refine ⟨hagree, ?_⟩
    rw [← ho, if_neg hne]
    exact hne
  · have hcounters := hunchanged.counters
    rw [hmax] at hcounters
    have hversion : min (maxTagIn refs : Int) s.currentVersion = s.currentVersion := by omega
    rw [hversion] at hpos htag
    have hagree : Agree (refs.insert mainRef (.commit c)) s := by
      refine ⟨hpos, hunchanged.counters, ⟨c, AList.lookup_insert refs, ?_⟩, hexact.rows_le⟩
      rw [AList.lookup_insert_ne (tagRef_ne_mainRef _), htag]
    rw [hunchanged.sameRefs, hunchanged.sameList]
    refine ⟨hagree, ?_⟩
    rw [← ho]
    split_ifs with hsync
    · exact fun h => by cases h
    · exact hsync

theorem healMain_settles {core : Core} {refs : Refs} {s : ListState} {now : Int}
    {o : SyncOutcome} (hexact : ExactRows s)
    (hok : (healMain core (steady now) refs s (maxTagIn refs)).outcome = .ok o)
    (hgo : ∀ h c, o ≠ .conflict h c) :
    (Agree (healMain core (steady now) refs s (maxTagIn refs)).refs
      (healMain core (steady now) refs s (maxTagIn refs)).list ∧ o ≠ .inSync) ∨
    (Unchanged refs s (healMain core (steady now) refs s (maxTagIn refs)) o ∧
      (0 < s.currentVersion → refs.lookup (tagRef (versionTag s.currentVersion)) = none) ∧
      ∀ later, healMain core (steady later) refs s (maxTagIn refs) =
        healMain core (steady now) refs s (maxTagIn refs)) := by
  rcases healMain_cases core (steady now) refs s (maxTagIn refs) _ rfl _ rfl with
    ⟨e, -, -, heq⟩ | ⟨c, hpos, htag, -, -, heq⟩ | ⟨hfree, -⟩
  · rw [heq] at hok
    cases hok
  · rw [heq] at hok ⊢
    left
    dsimp only at hok ⊢
    exact restored_settles hexact hpos htag rfl hok hgo
  · have hthird : ∀ t, healMain core (steady t) refs s (maxTagIn refs) =
        if maxTagIn refs = 0 then bootstrapOr core (steady t) refs s
          (alignByCounters core (steady t) refs s (maxTagIn refs))
        else alignByCounters core (steady t) refs s (maxTagIn refs) := by
      intro t
      rcases healMain_cases core (steady t) refs s (maxTagIn refs) _ rfl _ rfl with
        ⟨e, hpos, htag, -⟩ | ⟨c, hpos, htag, -⟩ | ⟨-, heq⟩
      · exact absurd (hfree hpos) htag
      · rw [hfree hpos] at htag
        cases htag
      · exact heq
    by_cases hzero : maxTagIn refs = 0
    · simp only [hthird, if_pos hzero] at hok ⊢
      have hstart := hexact.start
      have hup : TagsUpTo refs s.currentVersion := (tagsUpTo_maxTagIn refs).mono (by omega)
      rcases @bootstrap_settles core _ s now hexact hup with
        ⟨hrows, hnone⟩ | ⟨e, herror⟩ | ⟨n, hbuilt, hlist, hagree⟩
      · have hother : ∀ t other, bootstrapOr core (steady t) refs s other = other := by
          intro t other
          simp only [bootstrapOr, hnone t]
        have hunborn : ¬ 0 < s.currentVersion := by
          intro hborn
          obtain ⟨r, hr, -⟩ := hexact.current_row hborn
          rw [hrows] at hr
          exact List.not_mem_nil hr
        simp only [hother] at hok ⊢
        rcases alignByCounters_settles hexact hok hgo with hagree | ⟨hunchanged, hagain⟩
        · exact Or.inl hagree
        · exact Or.inr ⟨hunchanged, fun h => absurd h hunborn, hagain⟩
      · have hout := bootstrapOr_of_error core refs s now
          (alignByCounters core (steady now) refs s (maxTagIn refs)) herror
        rw [hout] at hok
        cases hok
      · have hout := bootstrapOr_of_built core refs s now
          (alignByCounters core (steady now) refs s (maxTagIn refs)) hbuilt
        left
        rw [hout] at hok ⊢
        dsimp only
        rw [hlist]
        refine ⟨hagree, ?_⟩
        rw [← Except.ok.inj hok]
        exact fun h => by cases h
    · simp only [hthird, if_neg hzero] at hok ⊢
      rcases alignByCounters_settles hexact hok hgo with hagree | ⟨hunchanged, hagain⟩
      · exact Or.inl hagree
      · refine Or.inr ⟨hunchanged, fun hborn => ?_, hagain⟩
        have hcounters := hunchanged.counters
        have hversion : min (maxTagIn refs : Int) s.currentVersion = s.currentVersion := by omega
        rw [hversion] at hfree
        exact hfree hborn

/-- A call that succeeds without a conflict: the next one says so too and changes nothing. -/
def Converges (core : Core) (now later : Int) (disk : Disk) (s : ListState) : Prop :=
  ∀ o, (syncRepoWithDb core (steady now) disk (some s)).outcome = .ok o →
    (∀ h c, o ≠ .conflict h c) →
    let first := syncRepoWithDb core (steady now) disk (some s)
    let second := syncRepoWithDb core (steady later) first.disk first.list
    second.disk = first.disk ∧ second.list = first.list ∧
      (second.outcome = .ok .inSync ∨
        ∃ c, o = .tipNotVersioned c ∧ second.outcome = .ok (.tipNotVersioned c))

/-- The verdict of synchrony, with versions there, is true of main and of the current tag. -/
def Truthful (core : Core) (now : Int) (disk : Disk) (s : ListState) : Prop :=
  (syncRepoWithDb core (steady now) disk (some s)).outcome = .ok .inSync → 0 < s.currentVersion →
    ∃ refs t, (syncRepoWithDb core (steady now) disk (some s)).disk = .repo refs ∧
      refs.lookup mainRef = some t ∧ refs.lookup (tagRef (versionTag s.currentVersion)) = some t

/-- The number of the current version is there, but only under another spelling of its tag. -/
def Misspelled (disk : Disk) (s : ListState) : Prop :=
  ∃ refs, disk = .repo refs ∧ 0 < s.currentVersion ∧
    (maxTagIn refs : Int) = s.currentVersion ∧
    refs.lookup (tagRef (versionTag s.currentVersion)) = none

/-- A call that succeeds leaves an agreement, or what it found, and then every later call finds
the same. -/
theorem sync_settles (core : Core) {now : Int} {disk : Disk} {s : ListState} {o : SyncOutcome}
    (hexact : ExactRows s)
    (hok : (syncRepoWithDb core (steady now) disk (some s)).outcome = .ok o)
    (hgo : ∀ h c, o ≠ .conflict h c) :
    (∃ refs after, (syncRepoWithDb core (steady now) disk (some s)).disk = .repo refs ∧
      (syncRepoWithDb core (steady now) disk (some s)).list = some after ∧ Agree refs after ∧
      o ≠ .inSync) ∨
    ((syncRepoWithDb core (steady now) disk (some s)).disk = disk ∧
      (syncRepoWithDb core (steady now) disk (some s)).list = some s ∧
      (o = .inSync ∨ o = .tipNotVersioned s.currentVersion) ∧
      (o = .inSync → 0 < s.currentVersion → ∃ refs, disk = .repo refs ∧
        (maxTagIn refs : Int) = s.currentVersion ∧ tagOnTip refs s.currentVersion = true ∧
        (refs.lookup mainRef = none →
          refs.lookup (tagRef (versionTag s.currentVersion)) = none)) ∧
      ∀ later, syncRepoWithDb core (steady later) disk (some s) =
        syncRepoWithDb core (steady now) disk (some s)) := by
  have hcurrent : ∀ t, (steady t).readCurrent = true := fun _ => rfl
  have hstart := hexact.start
  cases disk with
  | unreadable =>
    simp only [syncRepoWithDb, hcurrent] at hok
    cases hok
  | absent =>
    have hup : TagsUpTo ∅ s.currentVersion := fun ref href => absurd href (AList.notMem_empty ref)
    rcases @bootstrap_settles core _ s now hexact hup with
      ⟨hrows, hnone⟩ | ⟨e, herror⟩ | ⟨n, hbuilt, -, hagree⟩
    · right
      simp only [syncRepoWithDb, hcurrent, hnone] at hok ⊢
      refine ⟨rfl, rfl, Or.inl (Except.ok.inj hok).symm, fun _ hborn => ?_, fun _ => trivial⟩
      obtain ⟨r, hr, -⟩ := hexact.current_row hborn
      rw [hrows] at hr
      exact absurd hr List.not_mem_nil
    · cases hboot : bootstrapFromDb core (steady now) ∅ s with
      | mk built list outcome rebuilt =>
        rw [hboot] at herror
        obtain rfl : outcome = .error e := herror
        simp [syncRepoWithDb, hcurrent, hboot] at hok
    · cases hboot : bootstrapFromDb core (steady now) ∅ s with
      | mk built list outcome rebuilt =>
        rw [hboot] at hbuilt hagree
        obtain rfl : outcome = .ok (some (.bootstrapped n)) := hbuilt
        simp only [syncRepoWithDb, hcurrent, hboot] at hok ⊢
        refine Or.inl ⟨built, s, rfl, rfl, hagree, ?_⟩
        rw [← Except.ok.inj hok]
        exact fun h => by cases h
  | repo refs =>
    cases hmain : refs.lookup mainRef with
    | some t =>
      have heq : ∀ time, syncRepoWithDb core (steady time) (.repo refs) (some s) =
          (alignByCounters core (steady time) refs s (maxTagIn refs)).synced := by
        intro time
        simp [syncRepoWithDb, hcurrent, hmain]
      simp only [heq] at hok ⊢
      rcases alignByCounters_settles hexact hok hgo with ⟨hagree, hne⟩ | ⟨hunchanged, hagain⟩
      · exact Or.inl ⟨_, _, rfl, rfl, hagree, hne⟩
      · refine Or.inr ⟨?_, ?_, hunchanged.verdict, ?_, fun later => by rw [hagain later]⟩
        · exact congrArg Disk.repo hunchanged.sameRefs
        · exact congrArg some hunchanged.sameList
        · intro hsync hborn
          refine ⟨refs, rfl, hunchanged.counters, hunchanged.tip hsync hborn, fun hnone => ?_⟩
          rw [hmain] at hnone
          cases hnone
    | none =>
      have heq : ∀ time, syncRepoWithDb core (steady time) (.repo refs) (some s) =
          (healMain core (steady time) refs s (maxTagIn refs)).synced := by
        intro time
        simp [syncRepoWithDb, hcurrent, hmain]
      simp only [heq] at hok ⊢
      rcases healMain_settles hexact hok hgo with ⟨hagree, hne⟩ | ⟨hunchanged, htag, hagain⟩
      · exact Or.inl ⟨_, _, rfl, rfl, hagree, hne⟩
      · refine Or.inr ⟨?_, ?_, hunchanged.verdict, ?_, fun later => by rw [hagain later]⟩
        · exact congrArg Disk.repo hunchanged.sameRefs
        · exact congrArg some hunchanged.sameList
        · intro hsync hborn
          exact ⟨refs, rfl, hunchanged.counters, hunchanged.tip hsync hborn, fun _ => htag hborn⟩

theorem converges (core : Core) (now later : Int) (disk : Disk) {s : ListState}
    (hexact : ExactRows s) : Converges core now later disk s := by
  intro o hok hgo
  rcases sync_settles core hexact hok hgo with
    ⟨refs, after, hdisk, hlist, hagree, -⟩ | ⟨hdisk, hlist, hverdict, -, hagain⟩
  · have hsecond := sync_of_agree core (steady later) hagree
    simp only [hdisk, hlist, hsecond]
    exact ⟨trivial, trivial, Or.inl rfl⟩
  · have hsecond := hagain later
    have houtcome := congrArg Synced.outcome hsecond
    simp only [hdisk, hlist]
    refine ⟨?_, ?_, ?_⟩
    · rw [hsecond, hdisk]
    · rw [hsecond, hlist]
    · rw [houtcome, hok]
      exact hverdict.imp (fun h => by rw [h]) fun h => ⟨s.currentVersion, h, by rw [h]⟩

theorem truthful_of_spelled (core : Core) (now : Int) {disk : Disk} {s : ListState}
    (hexact : ExactRows s) (h : ¬ Misspelled disk s) : Truthful core now disk s := by
  intro hok hborn
  rcases sync_settles core hexact hok (fun _ _ => nofun) with
    ⟨refs, after, -, -, -, hne⟩ | ⟨hdisk, -, -, hsync, -⟩
  · exact absurd rfl hne
  · obtain ⟨refs, rfl, hsame, htip, hmain⟩ := hsync rfl hborn
    rw [hdisk]
    cases htag : refs.lookup (tagRef (versionTag s.currentVersion)) with
    | none => exact absurd ⟨refs, rfl, hborn, hsame, htag⟩ h
    | some tag =>
      cases hlookup : refs.lookup mainRef with
      | none =>
        rw [hmain hlookup] at htag
        cases htag
      | some tip =>
        have heq : tag = tip := by simpa [tagOnTip, htag, hlookup] using htip
        exact ⟨refs, tip, rfl, hlookup, by rw [htag, heq]⟩

theorem inSync_of_misspelled (core : Core) (now : Int) {refs : Refs} {s : ListState}
    (hborn : 0 < s.currentVersion) (hsame : (maxTagIn refs : Int) = s.currentVersion)
    (hnone : refs.lookup (tagRef (versionTag s.currentVersion)) = none) :
    syncRepoWithDb core (steady now) (.repo refs) (some s) =
      ⟨.repo refs, some s, .ok .inSync, false⟩ := by
  have hcurrent : (steady now).readCurrent = true := rfl
  have htip : tagOnTip refs s.currentVersion = true := by simp [tagOnTip, hnone]
  have haligned : alignByCounters core (steady now) refs s (maxTagIn refs) =
      ⟨refs, s, .ok .inSync, false⟩ := by
    rw [alignByCounters, if_pos hsame, htip]
    simp
  cases hmain : refs.lookup mainRef with
  | some t => simp [syncRepoWithDb, hcurrent, hmain, haligned, Aligned.synced]
  | none =>
    have hversion : min (maxTagIn refs : Int) s.currentVersion = s.currentVersion := by omega
    have hzero : maxTagIn refs ≠ 0 := by omega
    have hhealed : healMain core (steady now) refs s (maxTagIn refs) =
        ⟨refs, s, .ok .inSync, false⟩ := by
      rcases healMain_cases core (steady now) refs s (maxTagIn refs) _ hversion.symm _ rfl with
        ⟨e, -, htag, -⟩ | ⟨c, -, htag, -⟩ | ⟨-, heq⟩
      · exact absurd hnone htag
      · rw [hnone] at htag
        cases htag
      · rw [heq, if_neg hzero, haligned]
    simp [syncRepoWithDb, hcurrent, hmain, hhealed, Aligned.synced]

/-- Where the rows are exactly the versions up to the current one, an alignment that succeeds is
final and true, unless the number of the current version is there only under another spelling. -/
theorem sync_converges_iff (core : Core) (now later : Int) (disk : Disk) (s : ListState)
    (hexact : ExactRows s) :
    Converges core now later disk s ∧ Truthful core now disk s ↔ ¬ Misspelled disk s := by
  constructor
  · rintro ⟨-, htruthful⟩ ⟨refs, rfl, hborn, hsame, hnone⟩
    have hsync := inSync_of_misspelled core now hborn hsame hnone
    obtain ⟨after, t, hdisk, -, htag⟩ := htruthful (by rw [hsync]) hborn
    rw [hsync] at hdisk
    obtain rfl : refs = after := Disk.repo.inj hdisk
    rw [hnone] at htag
    cases htag
  · exact fun h => ⟨converges core now later disk hexact, truthful_of_spelled core now hexact h⟩

theorem exactRows_bornList : ExactRows bornList := by
  refine ⟨fun k => ?_, by decide, by decide⟩
  have hone : ∀ r ∈ bornList.versions, r.version = 1 := by decide
  constructor
  · rintro ⟨r, hr, rfl⟩
    rw [hone r hr]
    decide
  · rintro ⟨hlower, hupper⟩
    obtain rfl : k = 1 := le_antisymm hupper hlower
    exact ⟨_, List.mem_cons_self, rfl⟩

theorem sync_converges_unborn :
    Converges canonCore 0 1 .absent bornList ∧ Truthful canonCore 0 .absent bornList := by
  apply (sync_converges_iff canonCore 0 1 .absent bornList exactRows_bornList).mpr
  rintro ⟨refs, hdisk, -⟩
  cases hdisk

/-- The tag of the first version, spelled with a leading zero, and no main. -/
def zeroSpelled : Refs :=
  AList.insert (tagRef "v01".toList) (.commit (.mk .empty [] ⟨[], [], 0⟩)) ∅

/-- The only tag is a spelling of the current version: all is said to be in sync without a main. -/
theorem inSync_beside_zero_spelling : ExactRows bornList ∧
    ¬ (Converges canonCore 0 1 (.repo zeroSpelled) bornList ∧
      Truthful canonCore 0 (.repo zeroSpelled) bornList) := by
  have hkey : zeroSpelled.keys = [tagRef "v01".toList] := rfl
  have hone : tagVersion (tagRef "v01".toList) = some 1 := by
    rw [tagVersion_tagRef]
    decide
  have hmax : maxTagIn zeroSpelled = 1 := by
    rw [maxTagIn, hkey, List.filterMap_cons_some hone, List.filterMap_nil]
    rfl
  have hnone : zeroSpelled.lookup (tagRef (versionTag bornList.currentVersion)) = none := by
    rw [zeroSpelled, AList.lookup_insert_ne]
    · rfl
    · decide
  refine ⟨exactRows_bornList, fun h => ?_⟩
  have hsync := inSync_of_misspelled canonCore 0 (by decide) (by rw [hmax]; rfl) hnone
  obtain ⟨refs, t, hdisk, hmain, -⟩ := h.2 (by rw [hsync]) (by decide)
  rw [hsync] at hdisk
  obtain rfl : zeroSpelled = refs := Disk.repo.inj hdisk
  rw [zeroSpelled, AList.lookup_insert_ne (tagRef_ne_mainRef _).symm] at hmain
  cases hmain

end Setfork.Convergence
