/- BranchViews
   digest: Branches as a reader sees them: their counts against main, their commits, their authors. -/
import Setfork.Foundation.RevWalk
import Setfork.RefRuns
import Setfork.VersionShas

set_option autoImplicit false
set_option relaxedAutoImplicit false

namespace Setfork.BranchViews

open Setfork.Foundation
open Setfork.Foundation.RevWalk
open Setfork.TreeRule (stripPrefix stripPrefix_eq_some)
open Setfork.Repository
open Setfork.History
open Setfork.Push
open Setfork.Branches
open Setfork.Service
open Setfork.RefRuns
open Setfork.Healing (Ready firstCommit markEdit markedList markedRefs markedRefs_ready plainWrite)
open Setfork.Alignment (steady)
open Setfork.TagRuns (Calm run_calm)

structure Branch where
  name : Text
  tip : Target
  isDefault : Bool
  ahead : ℕ
  behind : ℕ

def graphAheadBehind : Target → Target → ℕ × ℕ
  | .commit a, .commit b => aheadBehind a b
  | _, _ => (0, 0)

def branchOf (mainTip : Target) (name : Text) (tip : Target) : Branch :=
  let counts := if name = mainName then (0, 0) else graphAheadBehind tip mainTip
  ⟨name, tip, name == mainName, counts.1, counts.2⟩

/-- Local branches by their whole names, in the order in which git goes over them. -/
structure Heads (refs : Refs) where
  names : List Text
  perm : names.Perm (refs.keys.filter (fun ref => "refs/heads/".toList.isPrefixOf ref))

def branchAt (refs : Refs) (mainTip : Target) (ref : Text) : Option Branch :=
  match stripPrefix "refs/heads/".toList ref, refs.lookup ref with
  | some name, some tip => if name.isEmpty then none else some (branchOf mainTip name tip)
  | _, _ => none

def sortKey (b : Branch) : List ℕ :=
  (if b.isDefault then 0 else 1) :: (utf8 b.name).map UInt8.toNat

def branchLe (a b : Branch) : Prop := sortKey a ≤ sortKey b

instance : DecidableRel branchLe := fun a b => inferInstanceAs (Decidable (sortKey a ≤ sortKey b))

def listBranches (heads : ∀ refs, Heads refs) (refs : Refs) : Option (List Branch) :=
  (refs.lookup mainRef).map fun mainTip =>
    ((heads refs).names.filterMap (branchAt refs mainTip)).insertionSort branchLe

section Listing

variable {heads : ∀ refs, Heads refs} {refs : Refs} {mainTip : Target} {b : Branch}

theorem branchAt_eq_some {ref : Text} : branchAt refs mainTip ref = some b ↔
    ∃ name tip, ref = branchRef name ∧ name ≠ [] ∧ refs.lookup ref = some tip ∧
      b = branchOf mainTip name tip := by
  unfold branchAt
  constructor
  · intro h
    split at h
    · rename_i name tip hname htip
      split_ifs at h with hempty
      refine ⟨name, tip, stripPrefix_eq_some.mp hname, ?_, htip, (Option.some.inj h).symm⟩
      rintro rfl
      exact hempty rfl
    · cases h
  · rintro ⟨name, tip, rfl, hname, htip, rfl⟩
    have hstrip : stripPrefix "refs/heads/".toList (branchRef name) = some name :=
      stripPrefix_eq_some.mpr rfl
    rw [hstrip, htip]
    exact if_neg (by rwa [List.isEmpty_iff])

theorem mem_listed : b ∈ (heads refs).names.filterMap (branchAt refs mainTip) ↔
    ∃ name tip, name ≠ [] ∧ refs.lookup (branchRef name) = some tip ∧
      b = branchOf mainTip name tip := by
  rw [List.mem_filterMap]
  constructor
  · rintro ⟨ref, -, hb⟩
    obtain ⟨name, tip, rfl, hname, htip, heq⟩ := branchAt_eq_some.mp hb
    exact ⟨name, tip, hname, htip, heq⟩
  · rintro ⟨name, tip, hname, htip, heq⟩
    refine ⟨branchRef name, ?_, branchAt_eq_some.mpr ⟨name, tip, rfl, hname, htip, heq⟩⟩
    rw [(heads refs).perm.mem_iff, List.mem_filter, List.isPrefixOf_iff_prefix]
    refine ⟨AList.lookup_isSome.mp ?_, List.prefix_append _ name⟩
    rw [htip]
    rfl

theorem mem_listBranches (hmain : refs.lookup mainRef = some mainTip) {out : List Branch}
    (hout : listBranches heads refs = some out) :
    b ∈ out ↔ ∃ name tip, name ≠ [] ∧ refs.lookup (branchRef name) = some tip ∧
      b = branchOf mainTip name tip := by
  rw [listBranches, hmain, Option.map_some] at hout
  rw [← Option.some.inj hout, List.mem_insertionSort, mem_listed]

theorem listBranches_of_main (hmain : refs.lookup mainRef = some mainTip) :
    ∃ out, listBranches heads refs = some out := by
  rw [listBranches, hmain]
  exact ⟨_, rfl⟩

end Listing

/-- The listing shows the branch on this tip with these counts. -/
def Shown (heads : ∀ refs, Heads refs) (refs : Refs) (name : Text) (tip : Target)
    (counts : ℕ × ℕ) : Prop :=
  ∃ out, listBranches heads refs = some out ∧
    ∃ b ∈ out, b.name = name ∧ b.tip = tip ∧ (b.ahead, b.behind) = counts

section Counts

variable {heads : ∀ refs, Heads refs} {lib : GitLibrary} {refs changed : Refs} {name : Text}
  {theirs ours : Commit} {tip : Target} {counts : ℕ × ℕ} {written squash : Bool} {stamp : Stamp}

theorem writableBranch_ne_nil (h : writableBranch name = true) : name ≠ [] := by
  rintro rfl
  cases h

theorem shown_iff (hmain : refs.lookup mainRef = some (.commit ours)) (hname : name ≠ mainName)
    (hnonempty : name ≠ []) : Shown heads refs name tip counts ↔
      refs.lookup (branchRef name) = some tip ∧ counts = graphAheadBehind tip (.commit ours) := by
  obtain ⟨out, hout⟩ := @listBranches_of_main heads refs _ hmain
  constructor
  · rintro ⟨out', hout', b, hb, rfl, rfl, rfl⟩
    obtain ⟨name, tip, -, htip, rfl⟩ := (mem_listBranches hmain hout').mp hb
    simp only [branchOf] at hname ⊢
    rw [if_neg hname]
    exact ⟨htip, rfl⟩
  · rintro ⟨htip, rfl⟩
    refine ⟨out, hout, branchOf (.commit ours) name tip,
      (mem_listBranches hmain hout).mpr ⟨name, tip, hnonempty, htip, rfl⟩, rfl, rfl, ?_⟩
    simp only [branchOf]
    rw [if_neg hname]

private theorem insert_main_lookup (hname : name ≠ mainName) (c : Commit) :
    (refs.insert mainRef (.commit c)).lookup (branchRef name) = refs.lookup (branchRef name) :=
  AList.lookup_insert_ne (PlacedFiles.branchRef_ne_main hname)

theorem shown_of_main (hname : writableBranch name = true)
    (hbranch : refs.lookup (branchRef name) = some (.commit theirs)) (c : Commit) :
    Shown heads (refs.insert mainRef (.commit c)) name (.commit theirs) (aheadBehind theirs c) := by
  have hne := writableBranch_ne_main hname
  refine (shown_iff (AList.lookup_insert refs) hne (writableBranch_ne_nil hname)).mpr ⟨?_, rfl⟩
  rw [insert_main_lookup hne, hbranch]

theorem shown_of_branch (hname : writableBranch name = true)
    (hmain : refs.lookup mainRef = some (.commit ours)) (c : Commit) :
    Shown heads (refs.insert (branchRef name) (.commit c)) name (.commit c) (aheadBehind c ours) := by
  have hne := writableBranch_ne_main hname
  have hkept : (refs.insert (branchRef name) (.commit c)).lookup mainRef = some (.commit ours) := by
    rw [AList.lookup_insert_ne (PlacedFiles.branchRef_ne_main hne).symm, hmain]
  exact (shown_iff hkept hne (writableBranch_ne_nil hname)).mpr ⟨AList.lookup_insert refs, rfl⟩

theorem aheadBehind_merged {t : Tree} :
    aheadBehind theirs (.mk t [ours, theirs] stamp) = (0, (aheadBehind theirs ours).2 + 1) := by
  have hswap : aheadBehind theirs (.mk t [ours, theirs] stamp) =
      (aheadBehind (.mk t [ours, theirs] stamp) theirs).swap := rfl
  rw [hswap, aheadBehind_merge_left]
  rfl

theorem aheadBehind_child {t : Tree} :
    aheadBehind theirs (.mk t [ours] stamp) =
      if theirs.Reaches (.mk t [ours] stamp) then ((aheadBehind theirs ours).1 - 1, 0)
      else ((aheadBehind theirs ours).1, (aheadBehind theirs ours).2 + 1) := by
  unfold aheadBehind
  split_ifs with h
  · obtain ⟨hnone, hless⟩ := brought_child_of_reached h
    rw [hnone, ← hless, Finset.card_empty, Nat.add_sub_cancel]
  · obtain ⟨hmore, hsame⟩ := brought_child_of_new h
    rw [hmore, hsame]

private theorem moved_of_mergeCommit {parents : List Commit}
    (h : (match mergeCommit lib ours theirs parents stamp with
      | .error e => (.error e : Except BranchRefusal Refs)
      | .ok merged => moveMain written refs merged ours) = .ok changed) :
    ∃ t, moveMain written refs (.mk t parents stamp) ours = .ok changed := by
  unfold mergeCommit at h
  cases hmerge : lib.merge ours theirs with
  | none =>
    rw [hmerge] at h
    cases h
  | some t =>
    rw [hmerge] at h
    exact ⟨t, h⟩

theorem mergeBranch_moves (hname : writableBranch name = true)
    (hbranch : refs.lookup (branchRef name) = some (.commit theirs))
    (hmain : refs.lookup mainRef = some (.commit ours))
    (h : mergeBranch lib written refs name squash stamp = .ok changed) :
    ¬ ours.Reaches theirs ∧
      if squash then ∃ t, changed = refs.insert mainRef (.commit (.mk t [ours] stamp))
      else if theirs.Reaches ours then changed = refs.insert mainRef (.commit theirs)
      else ∃ t, changed = refs.insert mainRef (.commit (.mk t [ours, theirs] stamp)) := by
  simp only [mergeBranch, hname, Bool.not_true, Bool.false_eq_true, if_false,
    tipOf_eq_ok.mpr hbranch, tipOf_eq_ok.mpr hmain] at h
  by_cases hnothing : ours.Reaches theirs
  · rw [if_pos hnothing] at h
    cases h
  rw [if_neg hnothing] at h
  refine ⟨hnothing, ?_⟩
  split_ifs at h ⊢ with hsquash hforward
  · obtain ⟨t, hmoved⟩ := moved_of_mergeCommit h
    exact ⟨t, (moveMain_eq_ok hmoved).2.2.2⟩
  · exact (moveMain_eq_ok h).2.2.2
  · obtain ⟨t, hmoved⟩ := moved_of_mergeCommit h
    exact ⟨t, (moveMain_eq_ok hmoved).2.2.2⟩

private theorem moveMain_ne_nothing (c old : Commit) :
    moveMain written refs c old ≠ .error .nothingToMerge := by
  unfold moveMain
  split <;> nofun

private theorem mergeCommit_ne_nothing (parents : List Commit) :
    (match mergeCommit lib ours theirs parents stamp with
      | .error e => (.error e : Except BranchRefusal Refs)
      | .ok merged => moveMain written refs merged ours) ≠ .error .nothingToMerge := by
  unfold mergeCommit
  cases lib.merge ours theirs with
  | none => nofun
  | some t => exact moveMain_ne_nothing _ ours

/-- A merge is refused for want of anything to merge exactly when the branch is not ahead. -/
theorem mergeBranch_nothing_iff (hname : writableBranch name = true)
    (hbranch : refs.lookup (branchRef name) = some (.commit theirs))
    (hmain : refs.lookup mainRef = some (.commit ours)) :
    mergeBranch lib written refs name squash stamp = .error .nothingToMerge ↔
      ours.Reaches theirs := by
  simp only [mergeBranch, hname, Bool.not_true, Bool.false_eq_true, if_false,
    tipOf_eq_ok.mpr hbranch, tipOf_eq_ok.mpr hmain]
  constructor
  · intro h
    by_contra hnothing
    rw [if_neg hnothing] at h
    split_ifs at h
    · exact mergeCommit_ne_nothing _ h
    · exact moveMain_ne_nothing _ _ h
    · exact mergeCommit_ne_nothing _ h
  · intro h
    rw [if_pos h]

section Resolved

variable {reserved : Name → Bool} {fromSlice : Bytes → Option Project.RawList} {listJson : Bytes}

/-- A canon settled by hand is refused for want of anything to merge only over equal tips. -/
theorem mergeResolved_nothing_iff (hname : writableBranch name = true)
    (hbranch : refs.lookup (branchRef name) = some (.commit theirs))
    (hmain : refs.lookup mainRef = some (.commit ours)) :
    mergeResolved reserved fromSlice written refs name listJson squash stamp =
      .error .nothingToMerge ↔ ours = theirs := by
  simp only [mergeResolved, hname, if_true, commitResolved, tipOf_eq_ok.mpr hbranch,
    tipOf_eq_ok.mpr hmain]
  constructor
  · intro h
    by_contra hne
    rw [if_neg hne] at h
    cases htree : canonTree reserved fromSlice listJson ours.tree with
    | none =>
      rw [htree] at h
      cases h
    | some t =>
      rw [htree] at h
      exact moveMain_ne_nothing _ _ h
  · intro h
    rw [if_pos h]

theorem mergeResolved_moves (hbranch : refs.lookup (branchRef name) = some (.commit theirs))
    (hmain : refs.lookup mainRef = some (.commit ours))
    (h : mergeResolved reserved fromSlice written refs name listJson squash stamp = .ok changed) :
    ∃ t, changed = refs.insert mainRef
      (.commit (.mk t (if squash then [ours] else [ours, theirs]) stamp)) := by
  obtain ⟨ours', theirs', t, parents, hbranch', hmain', -, rfl, -, heq⟩ := mergeResolved_eq_ok h
  obtain rfl := Refs.commit_unique hmain hmain'
  obtain rfl := Refs.commit_unique hbranch hbranch'
  exact ⟨t, heq⟩

end Resolved

theorem updateBranch_nothing_iff (hname : writableBranch name = true)
    (hbranch : refs.lookup (branchRef name) = some (.commit theirs))
    (hmain : refs.lookup mainRef = some (.commit ours)) :
    updateBranch lib written refs name stamp = .error .nothingToMerge ↔ theirs.Reaches ours := by
  have hmove : ∀ c, moveRef written refs (branchRef name) c ≠ .error .nothingToMerge := by
    intro c
    unfold moveRef
    split_ifs <;> nofun
  simp only [updateBranch, hname, Bool.not_true, Bool.false_eq_true, if_false,
    tipOf_eq_ok.mpr hbranch, tipOf_eq_ok.mpr hmain, mergeCommit]
  constructor
  · intro h
    by_contra hnothing
    rw [if_neg hnothing] at h
    split_ifs at h
    · exact hmove _ h
    · cases hmerge : lib.merge theirs ours with
      | none =>
        rw [hmerge] at h
        cases h
      | some t =>
        rw [hmerge] at h
        exact hmove _ h
  · intro h
    rw [if_pos h]

theorem updateBranch_moves (hname : writableBranch name = true)
    (hbranch : refs.lookup (branchRef name) = some (.commit theirs))
    (hmain : refs.lookup mainRef = some (.commit ours))
    (h : updateBranch lib written refs name stamp = .ok changed) :
    if ours.Reaches theirs then changed = refs.insert (branchRef name) (.commit ours)
    else ∃ t, changed = refs.insert (branchRef name) (.commit (.mk t [theirs, ours] stamp)) := by
  simp only [updateBranch, hname, Bool.not_true, Bool.false_eq_true, if_false,
    tipOf_eq_ok.mpr hbranch, tipOf_eq_ok.mpr hmain, mergeCommit] at h
  by_cases hnothing : theirs.Reaches ours
  · rw [if_pos hnothing] at h
    cases h
  rw [if_neg hnothing] at h
  split_ifs at h ⊢ with hforward
  · exact moveRef_eq_ok h
  · cases hmerge : lib.merge theirs ours with
    | none =>
      rw [hmerge] at h
      cases h
    | some t =>
      rw [hmerge] at h
      exact ⟨t, moveRef_eq_ok h⟩

/-- The counts tell what merges do. Ahead is zero exactly when a merge has nothing to take, behind
when an update has nothing; only over equal tips a canon settled by hand is refused. A merge leaves
the branch with nothing ahead, and behind by one commit more unless it was a move of main to its tip;
a squash leaves it ahead as it was, and behind by one more, unless the branch has the squashed commit
already; an update leaves it with nothing behind. -/
theorem counts_tell_merges (heads : ∀ refs, Heads refs) (lib : GitLibrary) (reserved : Name → Bool)
    (fromSlice : Bytes → Option Project.RawList) {refs : Refs} {name : Text} {theirs ours : Commit}
    {ahead behind : ℕ} (hname : writableBranch name = true)
    (hmain : refs.lookup mainRef = some (.commit ours))
    (hshown : Shown heads refs name (.commit theirs) (ahead, behind)) (written : Bool)
    (stamp : Stamp) :
    (∀ squash, mergeBranch lib written refs name squash stamp = .error .nothingToMerge ↔ ahead = 0) ∧
    (updateBranch lib written refs name stamp = .error .nothingToMerge ↔ behind = 0) ∧
    (∀ listJson squash, mergeResolved reserved fromSlice written refs name listJson squash stamp =
      .error .nothingToMerge ↔ ahead = 0 ∧ behind = 0) ∧
    (∀ changed, mergeBranch lib written refs name false stamp = .ok changed →
      Shown heads changed name (.commit theirs) (0, if behind = 0 then 0 else behind + 1)) ∧
    (∀ listJson changed,
      mergeResolved reserved fromSlice written refs name listJson false stamp = .ok changed →
        Shown heads changed name (.commit theirs) (0, behind + 1)) ∧
    (∀ changed, (mergeBranch lib written refs name true stamp = .ok changed ∨ ∃ listJson,
        mergeResolved reserved fromSlice written refs name listJson true stamp = .ok changed) →
      ∃ squashed, changed.lookup mainRef = some (.commit squashed) ∧
        Shown heads changed name (.commit theirs)
          (if theirs.Reaches squashed then (ahead - 1, 0) else (ahead, behind + 1))) ∧
    ∀ changed, updateBranch lib written refs name stamp = .ok changed →
      ∃ tip, Shown heads changed name (.commit tip) (if ahead = 0 then 0 else ahead + 1, 0) := by
  obtain ⟨hbranch, hcounts⟩ := (shown_iff hmain (writableBranch_ne_main hname)
    (writableBranch_ne_nil hname)).mp hshown
  obtain ⟨rfl, rfl⟩ := Prod.mk.inj hcounts
  have hahead : (brought theirs ours).card = 0 ↔ ours.Reaches theirs := card_brought_eq_zero
  have hbehind : (brought ours theirs).card = 0 ↔ theirs.Reaches ours := card_brought_eq_zero
  refine ⟨fun squash => ?_, ?_, fun listJson squash => ?_, fun changed h => ?_,
    fun listJson changed h => ?_, fun changed h => ?_, fun changed h => ?_⟩
  · rw [mergeBranch_nothing_iff hname hbranch hmain, ← hahead]
  · rw [updateBranch_nothing_iff hname hbranch hmain, ← hbehind]
  · rw [mergeResolved_nothing_iff hname hbranch hmain, hahead, hbehind]
    constructor
    · rintro rfl
      exact ⟨.refl, .refl⟩
    · rintro ⟨hback, hforth⟩
      exact RefMoves.reaches_antisymm hback hforth
  · obtain ⟨-, hmoved⟩ := mergeBranch_moves hname hbranch hmain h
    simp only [Bool.false_eq_true, if_false, ← hbehind] at hmoved
    split_ifs at hmoved ⊢ with hzero
    · subst hmoved
      have hshown' := @shown_of_main heads refs name theirs hname hbranch theirs
      rwa [show aheadBehind theirs theirs = (0, 0) by simp [aheadBehind]] at hshown'
    · obtain ⟨t, rfl⟩ := hmoved
      have hshown' := @shown_of_main heads refs name theirs hname hbranch
        (.mk t [ours, theirs] stamp)
      rwa [aheadBehind_merged] at hshown'
  · obtain ⟨t, rfl⟩ := mergeResolved_moves hbranch hmain h
    have hshown' := @shown_of_main heads refs name theirs hname hbranch (.mk t [ours, theirs] stamp)
    rwa [aheadBehind_merged] at hshown'
  · have hsquashed : ∃ t, changed = refs.insert mainRef (.commit (.mk t [ours] stamp)) := by
      rcases h with h | ⟨listJson, h⟩
      · exact (mergeBranch_moves hname hbranch hmain h).2
      · exact mergeResolved_moves hbranch hmain h
    obtain ⟨t, rfl⟩ := hsquashed
    have hshown' := @shown_of_main heads refs name theirs hname hbranch (.mk t [ours] stamp)
    rw [aheadBehind_child] at hshown'
    exact ⟨_, AList.lookup_insert refs, hshown'⟩
  · have hmoved := updateBranch_moves hname hbranch hmain h
    simp only [← hahead] at hmoved
    split_ifs at hmoved ⊢ with hzero
    · subst hmoved
      have hshown' := @shown_of_branch heads refs name ours hname hmain ours
      rw [show aheadBehind ours ours = (0, 0) by simp [aheadBehind]] at hshown'
      exact ⟨ours, hshown'⟩
    · obtain ⟨t, rfl⟩ := hmoved
      have hshown' := @shown_of_branch heads refs name ours hname hmain (.mk t [theirs, ours] stamp)
      rw [aheadBehind_merge_left] at hshown'
      exact ⟨_, hshown'⟩

end Counts

private theorem branchRef_ne_tagRef (branch tag : Text) : branchRef branch ≠ tagRef tag := by
  intro h
  have hbranch : (branchRef branch)[5]? = some 'h' := List.getElem?_append_left (by decide)
  have htag : (tagRef tag)[5]? = some 't' := List.getElem?_append_left (by decide)
  rw [h, htag] at hbranch
  exact absurd hbranch (by decide)

/-- A branch that no operation of a run names keeps its tip, and main goes on without it: it is never
further ahead, and never less behind, than at any earlier moment. -/
theorem untouched_branch_lags (core : Core) (lib : GitLibrary) (heads : ∀ refs, Heads refs)
    (ops : List Op) {st : State} {name : Text} {tip : Target} {ours : Commit} {ahead behind : ℕ}
    (hname : name ≠ mainName) (hmain : (held st.disk).lookup mainRef = some (.commit ours))
    (hown : ∀ op ∈ ops, ¬ grownBy op (branchRef name) ∧ ¬ freedBy op (branchRef name))
    (hshown : Shown heads (held st.disk) name tip (ahead, behind)) :
    ∃ ahead' behind', Shown heads (held (run core lib ops st).disk) name tip (ahead', behind') ∧
      ahead' ≤ ahead ∧ behind ≤ behind' := by
  have hnonempty : name ≠ [] := by
    obtain ⟨out, hout, b, hb, rfl, -, -⟩ := hshown
    obtain ⟨name, tip, hnonempty, -, rfl⟩ := (mem_listBranches hmain hout).mp hb
    exact hnonempty
  obtain ⟨hbranch, hcounts⟩ := (shown_iff hmain hname hnonempty).mp hshown
  have hkept : (held (run core lib ops st).disk).lookup (branchRef name) = some tip := by
    rw [← hbranch]
    apply (grows_run core lib ops st).moves.lookup_eq (PlacedFiles.branchRef_ne_main hname)
    · rintro ⟨n, hn⟩
      exact branchRef_ne_tagRef name _ hn
    · rintro ⟨op, hop, h⟩
      exact (hown op hop).1 h
    · rintro ⟨op, hop, h⟩
      exact (hown op hop).2 h
  obtain ⟨later, hlater, honward⟩ := main_onward_run core lib ops hmain
  refine ⟨_, _, (shown_iff hlater hname hnonempty).mpr ⟨hkept, rfl⟩, ?_⟩
  cases tip with
  | object id tagged =>
    obtain ⟨rfl, rfl⟩ := Prod.mk.inj hcounts
    exact ⟨le_refl 0, le_refl 0⟩
  | commit theirs =>
    obtain ⟨rfl, rfl⟩ := Prod.mk.inj hcounts
    exact ⟨Finset.card_le_card (brought_subset .refl honward),
      Finset.card_le_card (brought_subset honward .refl)⟩

structure Signature where
  name : Option Text
  email : Option Text

/-- What git tells of a repository: walks, the commits that names of revisions lead to, printed ids,
and signatures. -/
structure Reader where
  walker : Walker
  revparse : Refs → Text → Option Commit
  ids : VersionShas.CommitIds
  author : Commit → Signature

structure CommitInfo where
  sha : Text
  message : Text
  authorName : Text
  authorEmail : Text
  atUnix : Int
  parents : ℕ

def authorEmail : Text := "git@setfork.com".toList

def eqIgnoreAsciiCase (a b : Text) : Bool := a.map Char.toLower == b.map Char.toLower

section Contribution

variable (reader : Reader)

def commitInfo (c : Commit) : CommitInfo where
  sha := reader.ids.print c
  message := c.stamp.message
  authorName := (reader.author c).name.getD []
  authorEmail := (reader.author c).email.getD []
  atUnix := c.stamp.time
  parents := c.parents.length

/-- The commits of a revision, without those of another one; what that is need not be there. -/
def commits (refs : Refs) (rev notIn : Text) (take : ℕ) : Option (List CommitInfo) :=
  (reader.revparse refs rev).map fun head =>
    let hidden := if notIn.isEmpty then none else reader.revparse refs notIn
    ((reader.walker.walk head hidden).take take).map (commitInfo reader)

def takeOf (limit : Int) : ℕ := if limit ≤ 0 then 100 else (min limit 500).toNat

/-- Whether the revision is there, and its commits; an empty name is refused. -/
def listCommits (refs : Refs) (rev notIn : Text) (limit : Int) : Option (Bool × List CommitInfo) :=
  if rev.isEmpty then none
  else
    let found := commits reader refs rev notIn (takeOf limit)
    some (found.isSome, found.getD [])

/-- The trailer for the author of a commit; the signature of the service is none. -/
def coauthorLine (c : Commit) : Option Text :=
  match (reader.author c).name, (reader.author c).email with
  | some name, some email =>
    let n := trim name
    let e := trim email
    if n.isEmpty || e.isEmpty || eqIgnoreAsciiCase e authorEmail then none
    else some ("Co-authored-by: ".toList ++ n ++ " <".toList ++ e ++ ">".toList)
  | _, _ => none

def addLine (seen : List Text) (c : Commit) : List Text :=
  match coauthorLine reader c with
  | some line => if line ∈ seen then seen else seen ++ [line]
  | none => seen

/-- The message of a squash: its title, and the authors of what it brings. -/
def withCoauthors (branchTip mainTip : Commit) (title : Text) : Text :=
  let seen := (reader.walker.walk branchTip (some mainTip)).foldl (addLine reader) []
  if seen.isEmpty then title else title ++ ['\n', '\n'] ++ ['\n'].intercalate seen

theorem nodup_addLine {seen : List Text} (h : seen.Nodup) (c : Commit) :
    (addLine reader seen c).Nodup := by
  unfold addLine
  split
  · split_ifs with hseen
    · exact h
    · refine List.nodup_append.mpr ⟨h, List.nodup_singleton _, fun a ha b hb heq => hseen ?_⟩
      rwa [← List.mem_singleton.mp hb, ← heq]
  · exact h

theorem mem_addLine {seen : List Text} {c : Commit} {line : Text} :
    line ∈ addLine reader seen c ↔ line ∈ seen ∨ coauthorLine reader c = some line := by
  unfold addLine
  cases h : coauthorLine reader c with
  | none => simp
  | some other =>
    dsimp only
    split_ifs with hseen
    · constructor
      · exact Or.inl
      · rintro (hline | heq)
        · exact hline
        · rwa [← Option.some.inj heq]
    · rw [List.mem_append, List.mem_singleton, Option.some_inj, eq_comm]

theorem foldl_addLine (cs : List Commit) {seen : List Text} (h : seen.Nodup) :
    (cs.foldl (addLine reader) seen).Nodup ∧ ∀ line, line ∈ cs.foldl (addLine reader) seen ↔
      line ∈ seen ∨ ∃ c ∈ cs, coauthorLine reader c = some line := by
  induction cs generalizing seen with
  | nil => exact ⟨h, fun line => by simp⟩
  | cons c cs ih =>
    obtain ⟨hnodup, hmem⟩ := ih (nodup_addLine reader h c)
    refine ⟨hnodup, fun line => ?_⟩
    rw [List.foldl_cons, hmem, mem_addLine, List.exists_mem_cons_iff, or_assoc]

/-- Three views of one branch agree. Where the names lead to the tips, the commits a reader is shown
are distinct commits of the branch that main does not have, as many as the branch is ahead unless
the limit cuts them; and a squash names the author of every such commit, each once and nobody else. -/
theorem contribution_agrees (heads : ∀ refs, Heads refs) {refs : Refs} {name rev base : Text}
    {theirs ours : Commit} {ahead behind : ℕ} (hname : writableBranch name = true)
    (hmain : refs.lookup mainRef = some (.commit ours))
    (hshown : Shown heads refs name (.commit theirs) (ahead, behind))
    (hrev : rev ≠ []) (hbase : base ≠ []) (htip : reader.revparse refs rev = some theirs)
    (hhidden : reader.revparse refs base = some ours) (limit : Int) (title : Text) :
    (∃ shown : List Commit,
      listCommits reader refs rev base limit = some (true, shown.map (commitInfo reader)) ∧
      shown.Nodup ∧ (∀ c ∈ shown, c ∈ brought theirs ours) ∧
      shown.length = min (takeOf limit) ahead ∧
      (ahead ≤ takeOf limit → ∀ c ∈ brought theirs ours, c ∈ shown)) ∧
    ∃ lines : List Text,
      withCoauthors reader theirs ours title =
        (if lines.isEmpty then title else title ++ ['\n', '\n'] ++ ['\n'].intercalate lines) ∧
      lines.Nodup ∧
      ∀ line, line ∈ lines ↔ ∃ c ∈ brought theirs ours, coauthorLine reader c = some line := by
  obtain ⟨-, hcounts⟩ := (shown_iff hmain (writableBranch_ne_main hname)
    (writableBranch_ne_nil hname)).mp hshown
  obtain ⟨rfl, rfl⟩ := Prod.mk.inj hcounts
  have hmem : ∀ c, c ∈ reader.walker.walk theirs (some ours) ↔ c ∈ brought theirs ours := by
    intro c
    rw [← reader.walker.toFinset_walk, List.mem_toFinset]
  have hlength := @Walker.length_walk theirs ours reader.walker
  constructor
  · refine ⟨(reader.walker.walk theirs (some ours)).take (takeOf limit), ?_, ?_, ?_, ?_, ?_⟩
    · rw [listCommits, if_neg (by rwa [List.isEmpty_iff]), commits, htip, hhidden,
        if_neg (by rwa [List.isEmpty_iff])]
      rfl
    · exact (reader.walker.nodup theirs (some ours)).sublist (List.take_sublist _ _)
    · intro c hc
      exact (hmem c).mp (List.mem_of_mem_take hc)
    · rw [List.length_take, hlength]
    · intro hfits c hc
      rw [List.take_of_length_le (by rwa [hlength])]
      exact (hmem c).mpr hc
  · obtain ⟨hnodup, hlines⟩ := foldl_addLine reader (reader.walker.walk theirs (some ours))
      List.nodup_nil
    refine ⟨_, rfl, hnodup, fun line => ?_⟩
    rw [hlines]
    simp only [List.not_mem_nil, false_or, hmem]

end Contribution

def draftName : Text := "draft".toList

def draftCommit : Commit := .mk firstCommit.tree [firstCommit] ⟨"a draft".toList, "mika".toList, 0⟩

def draftRefs : Refs := markedRefs.insert (branchRef draftName) (.commit draftCommit)

def asKept (refs : Refs) : Heads refs := ⟨_, .refl _⟩

def branchReader : Reader where
  walker := Walker.plain
  revparse := fun refs rev => refs.commitAt (branchRef rev)
  ids := VersionShas.twoIds
  author := fun _ => ⟨some "mika".toList, some "mika@example.org".toList⟩

theorem draftRefs_main : draftRefs.lookup mainRef = some (.commit firstCommit) := by decide

theorem draft_shown : Shown asKept draftRefs draftName (.commit draftCommit) (1, 0) := by
  refine (shown_iff draftRefs_main (by decide) (by decide)).mpr ⟨AList.lookup_insert _, ?_⟩
  have hparent : draftCommit.IsParent firstCommit := List.mem_singleton_self _
  obtain ⟨hahead, hbehind⟩ := brought_child_of_new (not_reaches_child hparent)
  rw [brought_self, Finset.card_empty] at hahead
  rw [brought_self] at hbehind
  exact Prod.ext hahead.symm (congrArg Finset.card hbehind).symm

theorem counts_tell_merges_draft :
    (∀ squash, mergeBranch plainLibrary true draftRefs draftName squash ⟨[], [], 1⟩ =
      .error .nothingToMerge ↔ 1 = 0) ∧
    (updateBranch plainLibrary true draftRefs draftName ⟨[], [], 1⟩ = .error .nothingToMerge ↔
      0 = 0) ∧
    (∀ listJson squash, mergeResolved (fun _ => false) (fun _ => none) true draftRefs draftName
      listJson squash ⟨[], [], 1⟩ = .error .nothingToMerge ↔ 1 = 0 ∧ 0 = 0) ∧
    (∀ changed, mergeBranch plainLibrary true draftRefs draftName false ⟨[], [], 1⟩ = .ok changed →
      Shown asKept changed draftName (.commit draftCommit) (0, if 0 = 0 then 0 else 0 + 1)) ∧
    (∀ listJson changed, mergeResolved (fun _ => false) (fun _ => none) true draftRefs draftName
      listJson false ⟨[], [], 1⟩ = .ok changed →
        Shown asKept changed draftName (.commit draftCommit) (0, 0 + 1)) ∧
    (∀ changed, (mergeBranch plainLibrary true draftRefs draftName true ⟨[], [], 1⟩ = .ok changed ∨
        ∃ listJson, mergeResolved (fun _ => false) (fun _ => none) true draftRefs draftName listJson
          true ⟨[], [], 1⟩ = .ok changed) →
      ∃ squashed, changed.lookup mainRef = some (.commit squashed) ∧
        Shown asKept changed draftName (.commit draftCommit)
          (if draftCommit.Reaches squashed then (1 - 1, 0) else (1, 0 + 1))) ∧
    ∀ changed, updateBranch plainLibrary true draftRefs draftName ⟨[], [], 1⟩ = .ok changed →
      ∃ tip, Shown asKept changed draftName (.commit tip) (if 1 = 0 then 0 else 1 + 1, 0) :=
  counts_tell_merges asKept plainLibrary (fun _ => false) (fun _ => none) (by decide) draftRefs_main
    draft_shown true ⟨[], [], 1⟩

theorem draftRefs_ready : Ready firstCommit draftRefs markedList :=
  ⟨⟨Int.one_pos, by decide +kernel, ⟨firstCommit, draftRefs_main, by decide +kernel⟩,
    markedRefs_ready.agree.rows⟩, draftRefs_main, rfl, rfl⟩

def lagOps : List Op :=
  [.ensure (steady 0), .web plainWrite (markEdit false), .ensure (steady 0),
    .web plainWrite (markEdit true)]

theorem untouched_branch_lags_saved :
    (run canonCore plainLibrary lagOps ⟨.repo draftRefs, some markedList⟩).list.map
        Rows.ListState.currentVersion = some 3 ∧
      ∃ ahead' behind', Shown asKept (held (run canonCore plainLibrary lagOps
          ⟨.repo draftRefs, some markedList⟩).disk) draftName (.commit draftCommit)
            (ahead', behind') ∧ ahead' ≤ 1 ∧ 0 ≤ behind' := by
  have hcalm : ∀ op ∈ lagOps, Calm op := by
    simp [lagOps, Calm, markEdit]
  obtain ⟨last, after, hrun, -⟩ := @run_calm canonCore plainLibrary (fun _ _ _ _ => rfl) _ hcalm _ _ _
    draftRefs_ready (by decide)
  refine ⟨?_, untouched_branch_lags canonCore plainLibrary asKept lagOps (by decide) draftRefs_main
    ?_ draft_shown⟩
  · rw [hrun]
    rfl
  · simp [lagOps, grownBy, freedBy]

theorem contribution_agrees_draft :
    (∃ shown : List Commit, listCommits branchReader draftRefs draftName mainName 0 =
        some (true, shown.map (commitInfo branchReader)) ∧
      shown.Nodup ∧ (∀ c ∈ shown, c ∈ brought draftCommit firstCommit) ∧
      shown.length = min (takeOf 0) 1 ∧
      (1 ≤ takeOf 0 → ∀ c ∈ brought draftCommit firstCommit, c ∈ shown)) ∧
    ∃ lines : List Text,
      withCoauthors branchReader draftCommit firstCommit [] =
        (if lines.isEmpty then [] else [] ++ ['\n', '\n'] ++ ['\n'].intercalate lines) ∧
      lines.Nodup ∧ ∀ line, line ∈ lines ↔
        ∃ c ∈ brought draftCommit firstCommit, coauthorLine branchReader c = some line :=
  contribution_agrees branchReader asKept (by decide) draftRefs_main draft_shown (by decide)
    (by decide) (Refs.commitAt_eq_some.mpr (AList.lookup_insert _))
    (Refs.commitAt_eq_some.mpr draftRefs_main) 0 []

end Setfork.BranchViews
