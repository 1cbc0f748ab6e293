/- MagicPushes
   digest: Pushes with magic references: the branches they report, and the main they may leave behind. -/
import Setfork.PushedVersions
import Setfork.RefNames
import Setfork.ResolvedMerges

set_option autoImplicit false
set_option relaxedAutoImplicit false

namespace Setfork.MagicPushes

open Setfork.Foundation
open Setfork.TreeRule (stripPrefix stripPrefix_eq_some)
open Setfork.Authored
open Setfork.Repository
open Setfork.History
open Setfork.Alignment
open Setfork.Push
open Setfork.Received
open Setfork.Branches
open Setfork.Project (RawList)
open Setfork.Healing (markedRefs markedRefs_main markedList firstCommit)
open Setfork.PushedVersions (pushedOver pushedRefs)
open Setfork.ResolvedMerges (SnapshotReader BranchSnapshotData branchSnapshot getMergeState)

section Taken

variable {f : MagicFaults} {actor : Text} {before : Refs}

def Takable (f : MagicFaults) (before : Refs) (name : Text) (tip : Target) : Prop :=
  f.deleted name = true ∧ (before.lookup name = some tip ∨ f.moved name = true)

theorem stripPrefix_isMagic {name : Text} (h : isMagic name = true) :
    ∃ base, stripPrefix magicPrefix name = some base :=
  ⟨_, if_pos h⟩

theorem branchRef_not_magic (branch : Text) : isMagic (branchRef branch) = false := by
  rw [isMagic, ← Bool.not_eq_true, List.isPrefixOf_iff_prefix]
  intro h
  have hstart : "refs/heads/".toList <+: branchRef branch := List.prefix_append _ _
  exact absurd (List.prefix_of_prefix_length_le h hstart (by decide)) (by decide)

theorem not_branch_of_magic {name : Text} (h : isMagic name = true) (branch : Text) :
    name ≠ branchRef branch := by
  rintro rfl
  rw [branchRef_not_magic] at h
  cases h

private theorem lookup_moved_other {name other : Text} (h : other ≠ name)
    (hmagic : isMagic other = true) (branch : Text) (tip : Target) (refs : Refs) :
    ((refs.insert (branchRef branch) tip).erase name).lookup other = refs.lookup other := by
  rw [AList.lookup_erase_ne h, AList.lookup_insert_ne (not_branch_of_magic hmagic branch)]

theorem takeNames_absent {name : Text} {refs : Refs} (htip : refs.lookup name = none)
    (names : List Text) :
    takeNames f actor before (name :: names) refs = takeNames f actor before names refs := by
  cases h : stripPrefix magicPrefix name <;> simp [takeNames, h, htip]

theorem takeNames_stale {name base : Text} {tip : Target} {refs : Refs}
    (hbase : stripPrefix magicPrefix name = some base) (htip : refs.lookup name = some tip)
    (hstale : before.lookup name = some tip) (hdeleted : f.deleted name = true)
    (names : List Text) :
    takeNames f actor before (name :: names) refs =
      takeNames f actor before names (refs.erase name) := by
  simp [takeNames, hbase, htip, hstale, hdeleted]

theorem takeNames_moved {name base : Text} {tip : Target} {refs : Refs}
    (hbase : stripPrefix magicPrefix name = some base) (htip : refs.lookup name = some tip)
    (hfresh : before.lookup name ≠ some tip) (hmoved : f.moved name = true)
    (hdeleted : f.deleted name = true) (names : List Text) :
    takeNames f actor before (name :: names) refs =
      let taken := takeNames f actor before names
        ((refs.insert (branchRef (authorBranch actor base)) tip).erase name)
      (taken.1, ⟨base, authorBranch actor base, tip⟩ :: taken.2.1, taken.2.2) := by
  simp [takeNames, hbase, htip, hfresh, hmoved, hdeleted]

theorem takeNames_stuck {name base : Text} {tip : Target} {refs : Refs}
    (hbase : stripPrefix magicPrefix name = some base) (htip : refs.lookup name = some tip)
    (hstuck : ¬ Takable f before name tip) (names : List Text) :
    (takeNames f actor before (name :: names) refs).2 = ([], false) := by
  by_cases hstale : before.lookup name = some tip
  · have hdeleted : f.deleted name = false := by
      by_contra h
      exact hstuck ⟨by simpa using h, Or.inl hstale⟩
    simp [takeNames, hbase, htip, hstale, hdeleted]
  · cases hmoved : f.moved name with
    | false => simp [takeNames, hbase, htip, hstale, hmoved]
    | true =>
      have hdeleted : f.deleted name = false := by
        by_contra h
        exact hstuck ⟨by simpa using h, Or.inr hmoved⟩
      simp [takeNames, hbase, htip, hstale, hmoved, hdeleted]

theorem takeNames_taken_iff {names : List Text} (hnames : ∀ name ∈ names, isMagic name = true)
    (hnodup : names.Nodup) (refs : Refs) :
    (takeNames f actor before names refs).2.2 = true ↔
      ∀ name ∈ names, ∀ tip, refs.lookup name = some tip → Takable f before name tip := by
  induction names generalizing refs with
  | nil => simp [takeNames]
  | cons name names ih =>
    obtain ⟨hfresh, hrest⟩ := List.nodup_cons.mp hnodup
    have hmagic := fun n hn => hnames n (List.mem_cons_of_mem name hn)
    obtain ⟨base, hbase⟩ := stripPrefix_isMagic (hnames name List.mem_cons_self)
    have hother : ∀ n ∈ names, n ≠ name := fun n hn heq => hfresh (heq ▸ hn)
    rw [List.forall_mem_cons]
    cases htip : refs.lookup name with
    | none =>
      rw [takeNames_absent htip, ih hmagic hrest]
      simp
    | some tip =>
      have hself : (∀ t, some tip = some t → Takable f before name t) ↔
          Takable f before name tip := by simp
      rw [hself]
      by_cases htaken : Takable f before name tip
      · rw [and_iff_right htaken]
        by_cases hstale : before.lookup name = some tip
        · rw [takeNames_stale hbase htip hstale htaken.1, ih hmagic hrest]
          refine forall₂_congr fun n hn => ?_
          rw [AList.lookup_erase_ne (hother n hn)]
        · rw [takeNames_moved hbase htip hstale (htaken.2.resolve_left hstale) htaken.1]
          dsimp only
          rw [ih hmagic hrest]
          refine forall₂_congr fun n hn => ?_
          rw [lookup_moved_other (hother n hn) (hmagic n hn)]
      · rw [takeNames_stuck hbase htip htaken]
        simp [htaken]

theorem takeNames_branch (names : List Text) (refs : Refs) :
    ∀ m ∈ (takeNames f actor before names refs).2.1, m.branch = authorBranch actor m.base := by
  induction names generalizing refs with
  | nil =>
    intro m hm
    cases hm
  | cons name names ih =>
    intro m hm
    unfold takeNames at hm
    split at hm
    · split_ifs at hm
      · exact ih _ m hm
      · cases hm
      · cases hm
      · cases hm
      · rcases List.mem_cons.mp hm with rfl | hm
        · rfl
        · exact ih _ m hm
    · exact ih _ m hm

theorem takeMagicPushes_taken_iff (refs : Refs) :
    (takeMagicPushes f actor before refs).2.2 = true ↔ actor = [] ∨
      ∀ name, isMagic name = true → ∀ tip, refs.lookup name = some tip →
        Takable f before name tip := by
  unfold takeMagicPushes
  by_cases hactor : actor = []
  · simp [hactor]
  · have hfull : actor.isEmpty = false := by simpa using hactor
    rw [hfull, if_neg (by simp), takeNames_taken_iff
      (fun name hname => (List.mem_filter.mp hname).2) (refs.keys_nodup.filter _)]
    simp only [hactor, false_or, List.mem_filter]
    constructor
    · intro h name hmagic tip htip
      exact h name ⟨AList.mem_keys.mp (AList.lookup_isSome.mp (by rw [htip]; rfl)), hmagic⟩ tip htip
    · intro h name hname tip htip
      exact h name hname.2 tip htip

end Taken

/-- The report of a magic reference, where the push has created or moved it. -/
def reportOf (actor : Text) (before refs : Refs) (name : Text) : Option MagicPush :=
  (stripPrefix magicPrefix name).bind fun base => (refs.lookup name).bind fun tip =>
    if before.lookup name = some tip then none else some ⟨base, authorBranch actor base, tip⟩

structure Taken (actor : Text) (before refs : Refs) (names : List Text) (out : Refs)
    (pushes : List MagicPush) : Prop where
  reported : pushes = names.filterMap (reportOf actor before refs)
  gone : ∀ name ∈ names, out.lookup name = none
  moved : ∀ m ∈ pushes, out.lookup (branchRef m.branch) = some m.tip
  frame : ∀ ref ∉ names, (∀ m ∈ pushes, ref ≠ branchRef m.branch) →
    out.lookup ref = refs.lookup ref

section Taken

variable {f : MagicFaults} {actor : Text} {before refs : Refs}

theorem reportOf_eq_some {name : Text} {m : MagicPush} :
    reportOf actor before refs name = some m ↔ stripPrefix magicPrefix name = some m.base ∧
      m.branch = authorBranch actor m.base ∧ refs.lookup name = some m.tip ∧
      before.lookup name ≠ some m.tip := by
  simp only [reportOf, Option.bind_eq_some_iff]
  constructor
  · rintro ⟨base, hbase, tip, htip, h⟩
    split_ifs at h with hstale
    obtain rfl := Option.some.inj h
    exact ⟨hbase, rfl, htip, hstale⟩
  · rintro ⟨hbase, hbranch, htip, hfresh⟩
    refine ⟨_, hbase, _, htip, ?_⟩
    rw [if_neg hfresh, ← hbranch]

theorem reportOf_congr {other : Refs} {name : Text} (h : other.lookup name = refs.lookup name) :
    reportOf actor before other name = reportOf actor before refs name := by
  simp only [reportOf, h]

theorem authorBranch_injective (actor : Text) : Function.Injective (authorBranch actor) :=
  fun _ _ h => List.append_cancel_left h

theorem name_of_branch {name other : Text} {m m' : MagicPush}
    (h : reportOf actor before refs name = some m)
    (h' : reportOf actor before refs other = some m')
    (hbranch : branchRef m.branch = branchRef m'.branch) : name = other := by
  obtain ⟨hbase, hm, -⟩ := reportOf_eq_some.mp h
  obtain ⟨hbase', hm', -⟩ := reportOf_eq_some.mp h'
  rw [hm, hm'] at hbranch
  have hsame := authorBranch_injective actor (branchRef_injective hbranch)
  rw [stripPrefix_eq_some.mp hbase, stripPrefix_eq_some.mp hbase', hsame]

private theorem Taken.cons_silent {name : Text} {names : List Text} {next out : Refs}
    {pushes : List MagicPush} (hfresh : name ∉ names) (hmagic : isMagic name = true)
    (h : Taken actor before next names out pushes) (hgone : next.lookup name = none)
    (hkept : ∀ ref, ref ≠ name → next.lookup ref = refs.lookup ref)
    (hsilent : reportOf actor before refs name = none) :
    Taken actor before refs (name :: names) out pushes where
  reported := by
    rw [List.filterMap_cons_none hsilent, h.reported]
    refine List.filterMap_congr fun n hn => reportOf_congr (hkept n ?_)
    exact fun heq => hfresh (heq ▸ hn)
  gone := by
    refine List.forall_mem_cons.mpr ⟨?_, h.gone⟩
    rw [h.frame name hfresh fun m _ => not_branch_of_magic hmagic m.branch]
    exact hgone
  moved := h.moved
  frame := by
    intro ref hout hbranch
    rw [List.mem_cons, not_or] at hout
    rw [h.frame ref hout.2 hbranch, hkept ref hout.1]

private theorem Taken.cons_moved {name : Text} {names : List Text} {out : Refs} {m : MagicPush}
    {pushes : List MagicPush} (hfresh : name ∉ names) (hmagic : ∀ n ∈ name :: names, isMagic n = true)
    (h : Taken actor before ((refs.insert (branchRef m.branch) m.tip).erase name) names out pushes)
    (hreport : reportOf actor before refs name = some m) :
    Taken actor before refs (name :: names) out (m :: pushes) := by
  have hself := hmagic name List.mem_cons_self
  have hkept : ∀ ref, ref ≠ name → ref ≠ branchRef m.branch →
      ((refs.insert (branchRef m.branch) m.tip).erase name).lookup ref = refs.lookup ref := by
    intro ref hname hbranch
    rw [AList.lookup_erase_ne hname, AList.lookup_insert_ne hbranch]
  have hreports : pushes = names.filterMap (reportOf actor before refs) := by
    rw [h.reported]
    refine List.filterMap_congr fun n hn => reportOf_congr (hkept n ?_ ?_)
    · exact fun heq => hfresh (heq ▸ hn)
    · exact not_branch_of_magic (hmagic n (List.mem_cons_of_mem name hn)) m.branch
  refine ⟨?_, ?_, ?_, ?_⟩
  · rw [List.filterMap_cons_some hreport, hreports]
  · refine List.forall_mem_cons.mpr ⟨?_, h.gone⟩
    rw [h.frame name hfresh fun m _ => not_branch_of_magic hself m.branch]
    exact AList.lookup_erase _ _
  · refine List.forall_mem_cons.mpr ⟨?_, h.moved⟩
    have hout : branchRef m.branch ∉ names := fun hmem =>
      not_branch_of_magic (hmagic _ (List.mem_cons_of_mem name hmem)) m.branch rfl
    rw [h.frame _ hout]
    · rw [AList.lookup_erase_ne (not_branch_of_magic hself m.branch).symm, AList.lookup_insert]
    · intro m' hm' hbranch
      rw [hreports] at hm'
      obtain ⟨n, hn, hreport'⟩ := List.mem_filterMap.mp hm'
      exact hfresh (name_of_branch hreport hreport' hbranch ▸ hn)
  · intro ref hout hbranch
    rw [List.mem_cons, not_or] at hout
    obtain ⟨hne, hrest⟩ := List.forall_mem_cons.mp hbranch
    rw [h.frame ref hout.2 hrest, hkept ref hout.1 hne]

theorem taken_of_takeNames {names : List Text} (hnames : ∀ name ∈ names, isMagic name = true)
    (hnodup : names.Nodup) (htaken : (takeNames f actor before names refs).2.2 = true) :
    Taken actor before refs names (takeNames f actor before names refs).1
      (takeNames f actor before names refs).2.1 := by
  induction names generalizing refs with
  | nil => exact ⟨rfl, by simp, by simp [takeNames], fun _ _ _ => rfl⟩
  | cons name names ih =>
    obtain ⟨hfresh, hrest⟩ := List.nodup_cons.mp hnodup
    obtain ⟨hself, hmagic⟩ := List.forall_mem_cons.mp hnames
    obtain ⟨base, hbase⟩ := stripPrefix_isMagic hself
    cases htip : refs.lookup name with
    | none =>
      have hsilent : reportOf actor before refs name = none := by simp [reportOf, htip]
      rw [takeNames_absent htip] at htaken ⊢
      exact (ih hmagic hrest htaken).cons_silent hfresh hself htip (fun _ _ => rfl) hsilent
    | some tip =>
      have hall := (takeNames_taken_iff hnames hnodup refs).mp htaken
      obtain ⟨hdeleted, hmoved⟩ := hall name List.mem_cons_self tip htip
      by_cases hstale : before.lookup name = some tip
      · have hsilent : reportOf actor before refs name = none := by
          simp [reportOf, hbase, htip, hstale]
        rw [takeNames_stale hbase htip hstale hdeleted] at htaken ⊢
        refine (ih hmagic hrest htaken).cons_silent hfresh hself (AList.lookup_erase _ _) ?_ hsilent
        exact fun ref hne => AList.lookup_erase_ne hne
      · have hreport : reportOf actor before refs name =
            some ⟨base, authorBranch actor base, tip⟩ := by
          simp [reportOf, hbase, htip, hstale]
        rw [takeNames_moved hbase htip hstale (hmoved.resolve_left hstale) hdeleted] at htaken ⊢
        exact (ih hmagic hrest htaken).cons_moved hfresh hnames hreport

end Taken

/-- A commit proposed to main. -/
def proposal (d : Commit) : RefCommand := ⟨none, some (.commit d), magicMain⟩

/-- The owner pushes under an identifier, and the content of every canon is fine. -/
def authorEnv : HookEnv := { ownerEnv with actor := "7f3a-01".toList }

theorem admitted_proposal {lib : GitLibrary} {env : HookEnv} {refs : Refs} {c d : Commit}
    (hactor : env.actor ≠ []) (hpush : Admitted lib env refs (overMain c d)) :
    Admitted lib env refs (proposal d) where
  name := by
    have hfull : env.actor.isEmpty = false := by simpa using hactor
    have htag : isReservedTag magicMain = false := by decide
    have hmain : ¬ magicMain = mainRef := by decide
    simp [nameRefusal, proposal, hfull, htag, hmain]
  canon := hpush.canon
  commits := hpush.commits
  content := fun t ht _ => hpush.content t ht rfl

theorem validBranch_of_slash {branch : Text} (h : '/' ∈ branch) : validBranch branch = false := by
  have hplain : branch.all (fun c => c.isAlphanum || c == '-' || c == '_' || c == '.') = false := by
    rw [List.all_eq_false]
    exact ⟨'/', h, by decide⟩
  simp [validBranch, hplain]

theorem validBranch_authorBranch (actor base : Text) :
    validBranch (authorBranch actor base) = false :=
  validBranch_of_slash (by simp [authorBranch])

/-- What a branch holds, for somebody who looks at it. -/
def getBranchSnapshot (reader : SnapshotReader) (refs : Refs) (branch : Text) :
    Except BranchRefusal (Option BranchSnapshotData) :=
  if !validBranch branch then .error .badName
  else .ok (branchSnapshot reader refs (branchRef branch))

/-- Every call that names a branch refuses this name. -/
structure Unaddressable (lib : GitLibrary) (reserved : Name → Bool)
    (fromSlice : Bytes → Option RawList) (branch : Text) : Prop where
  snapshot : ∀ reader refs, getBranchSnapshot reader refs branch = .error .badName
  mergeState : ∀ refs client, getMergeState refs branch client = { client with reading := .idle }
  origin : ∀ written refs name, createBranch written refs name branch = .error .badName
  delete : ∀ written refs, deleteBranch written refs branch = .error .badName
  commit : ∀ written refs listJson expectedTip stamp,
    commitToBranch reserved fromSlice written refs branch listJson expectedTip stamp =
      .error .badName
  update : ∀ written refs stamp, updateBranch lib written refs branch stamp = .error .badName
  merge : ∀ written refs squash stamp,
    mergeBranch lib written refs branch squash stamp = .error .badName
  resolve : ∀ written refs listJson squash stamp,
    mergeResolved reserved fromSlice written refs branch listJson squash stamp = .error .badName

theorem unaddressable_of_not_valid (lib : GitLibrary) (reserved : Name → Bool)
    (fromSlice : Bytes → Option RawList) {branch : Text} (hfull : branch ≠ [])
    (h : validBranch branch = false) : Unaddressable lib reserved fromSlice branch := by
  have hwritable : writableBranch branch = false := by simp [writableBranch, h]
  have hempty : branch.isEmpty = false := by simpa using hfull
  constructor
  · intro reader refs
    simp [getBranchSnapshot, h]
  · intro refs client
    simp [getMergeState, hwritable]
  · intro written refs name
    simp [createBranch, hempty, h]
  · intro written refs
    simp [deleteBranch, h]
  · intro written refs listJson expectedTip stamp
    simp [commitToBranch, hwritable]
  · intro written refs stamp
    simp [updateBranch, hwritable]
  · intro written refs squash stamp
    simp [mergeBranch, hwritable]
  · intro written refs listJson squash stamp
    simp [mergeResolved, hwritable]

/-- No branch that a push reports can be named in any call, whoever pushes whatever. -/
theorem reported_branch_unaddressable (lib : GitLibrary) (reserved : Name → Bool)
    (fromSlice : Bytes → Option RawList) (f : MagicFaults) (env : HookEnv) (applied : Text → Bool)
    (refs : Refs) (commands : List RefCommand) {m : MagicPush}
    (hm : m ∈ (takeMagicPushes f env.actor refs (received lib applied env refs commands)).2.1) :
    validBranch m.branch = false ∧ Unaddressable lib reserved fromSlice m.branch := by
  have hbranch : m.branch = authorBranch env.actor m.base := by
    unfold takeMagicPushes at hm
    split_ifs at hm
    · cases hm
    · exact takeNames_branch _ _ m hm
  have hvalid : validBranch m.branch = false := hbranch ▸ validBranch_authorBranch env.actor m.base
  refine ⟨hvalid, unaddressable_of_not_valid lib reserved fromSlice ?_ hvalid⟩
  rw [hbranch, authorBranch]
  exact List.cons_ne_nil _ _

theorem takeMagicPushes_reports {f : MagicFaults} {actor : Text} (hactor : actor ≠ [])
    {before refs : Refs} (htaken : (takeMagicPushes f actor before refs).2.2 = true) {tip : Target}
    (htip : refs.lookup magicMain = some tip) (hfresh : before.lookup magicMain ≠ some tip) :
    ⟨"main".toList, authorBranch actor "main".toList, tip⟩ ∈
      (takeMagicPushes f actor before refs).2.1 := by
  have hfull : actor.isEmpty = false := by simpa using hactor
  unfold takeMagicPushes at htaken ⊢
  rw [hfull, if_neg (by simp)] at htaken ⊢
  have hthere : magicMain ∈ refs.keys := by
    rw [← AList.mem_keys, ← AList.lookup_isSome, htip]
    rfl
  have hleft := taken_of_takeNames (fun name hname => (List.mem_filter.mp hname).2)
    (refs.keys_nodup.filter _) htaken
  have hbase : stripPrefix magicPrefix magicMain = some "main".toList := by decide
  rw [hleft.reported, List.mem_filterMap]
  exact ⟨magicMain, List.mem_filter.mpr ⟨hthere, by decide⟩,
    reportOf_eq_some.mpr ⟨hbase, rfl, htip, hfresh⟩⟩

section Author

variable (lib : GitLibrary) {refs : Refs} {c : Commit}

theorem admitted_pushedOver (hmain : refs.lookup mainRef = some (.commit c)) :
    Admitted lib authorEnv refs (overMain c (pushedOver c)) := by
  apply admitted_overMain rfl hmain rfl _ (listTree_admitted _ [c] _) rfl
  rw [hasCanon, Commit.tree, listTree_get]
  rfl

theorem proposal_reported (hmain : refs.lookup mainRef = some (.commit c))
    (hfree : refs.lookup magicMain = none) :
    (∃ seen, preReceive lib authorEnv refs [proposal (pushedOver c)] = .ok seen) ∧
    ⟨"main".toList, authorBranch authorEnv.actor "main".toList, .commit (pushedOver c)⟩ ∈
      (takeMagicPushes ⟨fun _ => true, fun _ => true⟩ authorEnv.actor refs
        (received lib (fun _ => true) authorEnv refs [proposal (pushedOver c)])).2.1 := by
  have hactor : authorEnv.actor ≠ [] := by decide
  have hpush := admitted_proposal hactor (admitted_pushedOver lib hmain)
  obtain ⟨seen, hpass⟩ := (preReceive_isOk_iff authorEnv refs [proposal (pushedOver c)]).mpr
    (by simpa using hpush)
  refine ⟨⟨seen, hpass⟩, ?_⟩
  have hafter : received lib (fun _ => true) authorEnv refs [proposal (pushedOver c)] =
      refs.insert magicMain (.commit (pushedOver c)) := by
    rw [received, hpass]
    simp [applyCommands, applyCommand, proposal, fitsBranch, hfree]
  rw [hafter]
  apply takeMagicPushes_reports hactor
  · exact takeMagicPushes_all (fun _ => rfl) (fun _ => rfl) _ _ _
  · exact AList.lookup_insert _
  · rw [hfree]
    exact fun h => by cases h

end Author

theorem markedRefs_no_magic : markedRefs.lookup magicMain = none := by
  rw [markedRefs, AList.lookup_insert_ne (by decide), AList.lookup_insert_ne (by decide)]
  rfl

theorem reported_branch_unaddressable_proposal :
    validBranch (authorBranch authorEnv.actor "main".toList) = false ∧
      Unaddressable plainLibrary (fun _ => false) (fun _ => none)
        (authorBranch authorEnv.actor "main".toList) :=
  reported_branch_unaddressable plainLibrary (fun _ => false) (fun _ => none)
    ⟨fun _ => true, fun _ => true⟩ authorEnv (fun _ => true) markedRefs
    [proposal (pushedOver firstCommit)]
    (proposal_reported plainLibrary markedRefs_main markedRefs_no_magic).2

/-- An author with a plain identifier makes a proposal that goes through, and merging the branch
it reports fails on the name. -/
theorem accepted_proposal_cannot_be_merged :
    (∃ seen, preReceive plainLibrary authorEnv markedRefs [proposal (pushedOver firstCommit)] =
      .ok seen) ∧
    authorEnv.actor.all (fun c => c.isAlphanum || c == '-') = true ∧
    ∃ m ∈ (takeMagicPushes ⟨fun _ => true, fun _ => true⟩ authorEnv.actor markedRefs
        (received plainLibrary (fun _ => true) authorEnv markedRefs
          [proposal (pushedOver firstCommit)])).2.1,
      validBranch m.branch = false ∧ ∀ refs squash stamp,
        mergeBranch plainLibrary true refs m.branch squash stamp = .error .badName := by
  obtain ⟨hpass, hreported⟩ := proposal_reported plainLibrary markedRefs_main markedRefs_no_magic
  have hvalid := validBranch_authorBranch authorEnv.actor "main".toList
  have hrefused := unaddressable_of_not_valid plainLibrary (fun _ => false) (fun _ => none)
    (List.cons_ne_nil _ _) hvalid
  exact ⟨hpass, by decide, _, hreported, hvalid, hrefused.merge true⟩

def receivePackWith (lib : GitLibrary) (project : Refs → Rows.ListState → Refs × Rows.ListState × Int)
    (f : PushFaults) (env : HookEnv) (commands : List RefCommand) (refs : Refs)
    (list : Option Rows.ListState) : Received :=
  let refusal :=
    match preReceive lib env refs commands with
    | .error e => some e
    | .ok _ => none
  let after := received lib f.applied env refs commands
  if !f.answered then ⟨after, list, refusal, 0, [], false⟩
  else
    let taken := takeMagicPushes f.magic env.actor refs after
    if !taken.2.2 then ⟨taken.1, list, refusal, 0, [], false⟩
    else if (after.lookup mainRef).isSome ∧ after.lookup mainRef ≠ refs.lookup mainRef then
      match list with
      | none => ⟨taken.1, none, refusal, 0, taken.2.1, true⟩
      | some s =>
        let projected := project taken.1 s
        ⟨projected.1, some projected.2.1, refusal, projected.2.2, taken.2.1, true⟩
    else ⟨taken.1, list, refusal, 0, taken.2.1, true⟩

theorem receivePack_eq_with (core : Core) (lib : GitLibrary) (f : PushFaults) (env : HookEnv)
    (commands : List RefCommand) (refs : Refs) (list : Option Rows.ListState) :
    receivePack core lib f env commands refs list =
      receivePackWith lib (projectMainOrLog core f.first f.second) f env commands refs list := rfl

section Moved

variable (lib : GitLibrary) (f : PushFaults) (env : HookEnv) (commands : List RefCommand)
  (refs : Refs)

/-- The pack has moved main. -/
def MovedMain : Prop :=
  ((received lib f.applied env refs commands).lookup mainRef).isSome = true ∧
    (received lib f.applied env refs commands).lookup mainRef ≠ refs.lookup mainRef

/-- The call goes on to the projection: what it leaves is whatever the projection makes of the
references it is given. -/
def GoesOnToProject : Prop :=
  ∀ (project : Refs → Rows.ListState → Refs × Rows.ListState × Int) (s : Rows.ListState),
    (receivePackWith lib project f env commands refs (some s)).list =
      some (project (pushedRefs lib f env commands refs) s).2.1

/-- The magic references that stand after the updates can be taken: the stale ones can be removed,
and the one that was pushed can be moved as well. -/
structure MagicGoes (magic : MagicFaults) (before after : Refs) : Prop where
  stale : ∀ name ∈ before, isMagic name = true → name ≠ magicMain → magic.deleted name = true
  pushed : ∀ tip, after.lookup magicMain = some tip → Takable magic before magicMain tip

variable {lib f env commands refs}

theorem lookup_received_of_magic {name : Text} (hmagic : isMagic name = true)
    (hother : name ≠ magicMain) :
    (received lib f.applied env refs commands).lookup name = refs.lookup name := by
  apply received_invariant (P := fun r => r.lookup name = refs.lookup name)
  · intro cmd _ hadmitted r h
    have hne : name ≠ cmd.ref := by
      rintro rfl
      have hname := hadmitted.name
      unfold nameRefusal at hname
      simp only [hmagic, Bool.true_and, bne_iff_ne, ne_eq, hother, not_false_eq_true, if_true] at hname
      split_ifs at hname
    rcases applyCommand_cases f.applied r cmd with hsame | ⟨-, herase⟩ | ⟨t, -, -, -, hinsert⟩
    · rw [hsame]
      exact h
    · rw [herase, AList.lookup_erase_ne hne]
      exact h
    · rw [hinsert, AList.lookup_insert_ne hne]
      exact h
  · rfl

theorem received_of_moved (h : MovedMain lib f env commands refs) :
    received lib f.applied env refs commands = applyCommands f.applied refs commands := by
  unfold received
  cases hpass : preReceive lib env refs commands with
  | ok seen => rfl
  | error e =>
    have hsame : received lib f.applied env refs commands = refs := by rw [received, hpass]
    exact absurd (by rw [hsame]) h.2

theorem magicGoes_iff (hmoved : MovedMain lib f env commands refs) :
    (∀ name, isMagic name = true → ∀ tip,
      (received lib f.applied env refs commands).lookup name = some tip →
        Takable f.magic refs name tip) ↔
    MagicGoes f.magic refs (applyCommands f.applied refs commands) := by
  rw [← received_of_moved hmoved]
  constructor
  · intro h
    refine ⟨fun name hname hmagic hother => ?_, fun tip htip => h magicMain (by decide) tip htip⟩
    obtain ⟨tip, htip⟩ := Option.isSome_iff_exists.mp (AList.lookup_isSome.mpr hname)
    exact (h name hmagic tip ((lookup_received_of_magic hmagic hother).trans htip)).1
  · intro h name hmagic tip htip
    by_cases hother : name = magicMain
    · subst hother
      exact h.pushed tip htip
    · rw [lookup_received_of_magic hmagic hother] at htip
      have hthere : name ∈ refs := AList.lookup_isSome.mp (by rw [htip]; rfl)
      exact ⟨h.stale name hthere hmagic hother, Or.inl htip⟩

private theorem not_goesOn (h : ∀ project s, (receivePackWith lib project f env commands refs
    (some s)).list = some s) : ¬ GoesOnToProject lib f env commands refs := by
  intro hgoes
  have htrace := hgoes
    (fun r s => (r, { s with currentVersion := s.currentVersion + 1 }, 0)) markedList
  rw [h] at htrace
  have hnumber := congrArg Rows.ListState.currentVersion (Option.some.inj htrace)
  dsimp only at hnumber
  omega

theorem goesOn_iff (hmoved : MovedMain lib f env commands refs) :
    GoesOnToProject lib f env commands refs ↔ f.answered = true ∧
      (takeMagicPushes f.magic env.actor refs
        (received lib f.applied env refs commands)).2.2 = true := by
  cases hanswered : f.answered with
  | false =>
    have hstops : ¬ GoesOnToProject lib f env commands refs :=
      not_goesOn fun project s => by simp [receivePackWith, hanswered]
    simp [hstops]
  | true =>
    cases htaken : (takeMagicPushes f.magic env.actor refs
        (received lib f.applied env refs commands)).2.2 with
    | false =>
      have hstops : ¬ GoesOnToProject lib f env commands refs :=
        not_goesOn fun project s => by simp [receivePackWith, hanswered, htaken]
      simp [hstops]
    | true =>
      have hgoes : GoesOnToProject lib f env commands refs := by
        intro project s
        simp only [receivePackWith, hanswered, htaken, Bool.not_true, Bool.false_eq_true, if_false,
          if_pos (show _ ∧ _ from hmoved)]
        rfl
      simp [hgoes]

/-- A push that moved main goes on to its projection exactly when git answered and the magic
references beside main could be taken. -/
theorem moved_main_projected_iff (lib : GitLibrary) (f : PushFaults) (env : HookEnv)
    (commands : List RefCommand) (refs : Refs) :
    (MovedMain lib f env commands refs → GoesOnToProject lib f env commands refs) ↔
      (MovedMain lib f env commands refs → f.answered = true ∧ (env.actor = [] ∨
        MagicGoes f.magic refs (applyCommands f.applied refs commands))) := by
  refine imp_congr_right fun hmoved => ?_
  rw [goesOn_iff hmoved, takeMagicPushes_taken_iff, magicGoes_iff hmoved]

end Moved

def inTheWay (a b : Text) : Bool := (a ++ ['/']).isPrefixOf b || (b ++ ['/']).isPrefixOf a

/-- A repository where everything works, as far as its references let a new one have its name. -/
def freeNames (actor : Text) (refs : Refs) : MagicFaults where
  moved := fun name => ((stripPrefix magicPrefix name).map fun base =>
    !refs.keys.any (inTheWay (branchRef (authorBranch actor base)))).getD true
  deleted := fun _ => true

/-- A repository with a branch that is called `u`. -/
def branchU : Refs := (markedRefs).insert (branchRef "u".toList) (.commit firstCommit)

theorem branchU_main : branchU.lookup mainRef = some (.commit firstCommit) := by
  rw [branchU, AList.lookup_insert_ne (by decide)]
  exact markedRefs_main

theorem branchU_no_magic : branchU.lookup magicMain = none := by
  rw [branchU, AList.lookup_insert_ne (by decide)]
  exact markedRefs_no_magic

/-- A push of main together with the proposal of the same commit. -/
def bothCommands : List RefCommand :=
  [overMain firstCommit (pushedOver firstCommit), proposal (pushedOver firstCommit)]

def nothingFails (actor : Text) (refs : Refs) : PushFaults where
  answered := true
  applied := fun _ => true
  magic := freeNames actor refs
  first := ⟨.done, .done, true, 0⟩
  second := ⟨.done, .done, true, 0⟩

theorem moved_main_projected_marked :
    (MovedMain plainLibrary (nothingFails authorEnv.actor markedRefs) authorEnv bothCommands
        markedRefs →
      GoesOnToProject plainLibrary (nothingFails authorEnv.actor markedRefs) authorEnv bothCommands
        markedRefs) ↔
    (MovedMain plainLibrary (nothingFails authorEnv.actor markedRefs) authorEnv bothCommands
        markedRefs →
      (nothingFails authorEnv.actor markedRefs).answered = true ∧ (authorEnv.actor = [] ∨
        MagicGoes (nothingFails authorEnv.actor markedRefs).magic markedRefs
          (applyCommands (fun _ => true) markedRefs bothCommands))) :=
  moved_main_projected_iff plainLibrary (nothingFails authorEnv.actor markedRefs) authorEnv
    bothCommands markedRefs

/-- The branch `u` keeps the branch of the author from being made, and the version is lost. -/
theorem branch_u_loses_the_version :
    createBranch true markedRefs "u".toList [] = .ok branchU ∧
    MovedMain plainLibrary (nothingFails authorEnv.actor branchU) authorEnv bothCommands branchU ∧
    ¬ GoesOnToProject plainLibrary (nothingFails authorEnv.actor branchU) authorEnv bothCommands
      branchU := by
  have hmain := branchU_main
  have hfree := branchU_no_magic
  have hpush := admitted_pushedOver plainLibrary hmain
  have hproposal := admitted_proposal (by decide) hpush
  obtain ⟨seen, hpass⟩ := (preReceive_isOk_iff authorEnv branchU bothCommands).mpr
    (by simpa [bothCommands] using ⟨hpush, hproposal⟩)
  have hafter : received plainLibrary (fun _ => true) authorEnv branchU bothCommands =
      (branchU.insert mainRef (.commit (pushedOver firstCommit))).insert magicMain
        (.commit (pushedOver firstCommit)) := by
    have hmagic : (branchU.insert mainRef (.commit (pushedOver firstCommit))).lookup magicMain =
        none := by
      rw [AList.lookup_insert_ne (by decide), hfree]
    rw [received, hpass]
    simp [applyCommands, applyCommand, bothCommands, overMain, proposal, fitsBranch, hmain, hmagic]
  have hmoved : MovedMain plainLibrary (nothingFails authorEnv.actor branchU) authorEnv bothCommands
      branchU := by
    have htip : (received plainLibrary (fun _ => true) authorEnv branchU bothCommands).lookup
        mainRef = some (.commit (pushedOver firstCommit)) := by
      rw [hafter, AList.lookup_insert_ne (by decide), AList.lookup_insert]
    have hchild : pushedOver firstCommit ≠ firstCommit :=
      Commit.ne_of_isParent_reaches .refl (List.mem_singleton_self firstCommit)
    refine ⟨by rw [nothingFails, htip]; rfl, ?_⟩
    rw [nothingFails, htip, hmain]
    intro heq
    exact hchild (Target.commit.inj (Option.some.inj heq))
  refine ⟨rfl, hmoved, ?_⟩
  rw [goesOn_iff hmoved, takeMagicPushes_taken_iff]
  rintro ⟨-, hactor | htaken⟩
  · exact absurd hactor (by decide)
  · have hblocked : (nothingFails authorEnv.actor branchU).magic.moved magicMain = false := by decide
    have hstuck := htaken magicMain (by decide) (.commit (pushedOver firstCommit)) (by
      rw [nothingFails, hafter, AList.lookup_insert])
    rcases hstuck.2 with hstale | hfits
    · rw [hfree] at hstale
      cases hstale
    · rw [hblocked] at hfits
      cases hfits

end Setfork.MagicPushes
