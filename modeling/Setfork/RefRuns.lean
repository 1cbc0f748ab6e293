/- RefRuns
   digest: What any run of operations can do to main, the version tags, the branches, and the rest
   of the references. -/
import Setfork.Foundation.RefMoves
import Setfork.PlacedFiles
import Setfork.VersionShas

set_option autoImplicit false
set_option relaxedAutoImplicit false

namespace Setfork.RefRuns

open Setfork.Foundation
open Setfork.Foundation.RefMoves (Move Onward Marked)
open Setfork.Serialize
open Setfork.Rows
open Setfork.Authored
open Setfork.VersionTree
open Setfork.Repository
open Setfork.History
open Setfork.Alignment
open Setfork.WebVersion
open Setfork.Push
open Setfork.Received
open Setfork.Branches
open Setfork.Service
open Setfork.PlacedFiles (reaches_of_tailFrom)
open Setfork.Healing (firstCommit markEdit markedList markedRefs markedRefs_ready plainWrite)
open Setfork.TagRuns (branchRef_ne_main run_saved)

/-- The name under which the core tags a version. -/
def IsLabel (ref : Text) : Prop := ∃ n, ref = tagRef (versionTag n)

/-- A reference that reads as the tag of a version. -/
def IsVersionRef (ref : Text) : Prop := (tagVersion ref).isSome = true

/-- The branches that an operation moves onward. -/
def grownBy : Op → Text → Prop
  | .createBranch _ name _, ref => ref = branchRef name
  | .commitToBranch _ branch _ _ _, ref => ref = branchRef branch
  | .updateBranch _ name _, ref => ref = branchRef name
  | _, _ => False

/-- The references that an operation changes in any way: a branch that is deleted, a release, and
for a push the names of its commands beside main and the version tags, the magic references, and
the branches of its author. -/
def freedBy : Op → Text → Prop
  | .deleteBranch _ name, ref => ref = branchRef name
  | .createTag _ name _, ref => ref = tagRef name ∧ versionOfTag name = none
  | .push _ env commands, ref =>
    ((∃ cmd ∈ commands, cmd.ref = ref) ∧ ref ≠ mainRef ∧ tagVersion ref = none) ∨
      isMagic ref = true ∨ ∃ base, ref = branchRef (authorBranch env.actor base)
  | _, _ => False

/-- Moves of the references in which these names may grow and these are free. -/
abbrev RefMoves (grown free : Text → Prop) : Refs → Refs → Prop :=
  RefMoves.Moves mainRef IsLabel grown free

/-- Every version tag stands on a commit of main's history. -/
abbrev TagsInMain (refs : Refs) : Prop := Marked mainRef IsVersionRef refs

/-- The references of a repository, none where there is no repository that opens. -/
def held : Disk → Refs
  | .repo refs => refs
  | _ => ∅

/-- A step of the service, as moves of the references; no repository goes away. -/
structure Grows (grown free : Text → Prop) (before after : Disk) : Prop where
  moves : RefMoves grown free (held before) (held after)
  opens : ∀ refs, before = .repo refs → ∃ refs', after = .repo refs'

namespace Grows

variable {grown free : Text → Prop} {a b c : Disk} {refs changed : Refs}

protected theorem refl (disk : Disk) : Grows grown free disk disk :=
  ⟨.refl, fun refs h => ⟨refs, h⟩⟩

protected theorem trans (h : Grows grown free a b) (h' : Grows grown free b c) :
    Grows grown free a c where
  moves := h.moves.trans h'.moves
  opens := by
    intro refs hrefs
    obtain ⟨middle, hmiddle⟩ := h.opens refs hrefs
    exact h'.opens middle hmiddle

theorem repo (h : RefMoves grown free refs changed) :
    Grows grown free (.repo refs) (.repo changed) := ⟨h, fun _ _ => ⟨changed, rfl⟩⟩

theorem born (h : RefMoves grown free ∅ changed) : Grows grown free .absent (.repo changed) :=
  ⟨h, fun _ _ => ⟨changed, rfl⟩⟩

end Grows

section Writers

variable (core : Core) {grown free : Text → Prop} {refs : Refs}

private theorem labels_of_made {tip : Commit} {made : List (Int × Commit)}
    (hreach : ∀ m ∈ made, tip.Reaches m.2) :
    ∀ move ∈ versionMoves made, IsLabel move.1 ∧ move.1 ≠ mainRef ∧ tip.Reaches move.2 := by
  intro move hmove
  obtain ⟨m, hm, rfl⟩ := List.mem_map.mp hmove
  exact ⟨⟨m.1, rfl⟩, tagRef_ne_mainRef _, hreach m hm⟩

theorem moves_buildHistory (f : WriteFaults) (versions : List VersionData) (parent : Option Commit)
    (authored : AuthoredSource) :
    RefMoves grown free refs (buildHistory core f refs versions parent authored).1 := by
  rcases buildHistory_cases core f refs versions parent authored with hsame | hmoved
  · rw [hsame]
  · obtain ⟨made, tip, hmade, htip, -, hold, hrefs⟩ := hmoved
    have hunder := (commitAll_spec hmade).2.2 tip htip
    have honward : Onward refs mainRef tip := by
      intro b hb
      rw [hold] at hb
      obtain ⟨p, hp, hpb⟩ := Option.map_eq_some_iff.mp hb
      obtain rfl := Target.commit.inj hpb
      obtain ⟨m, hm, rfl⟩ := Option.map_eq_some_iff.mp htip
      exact (reaches_of_commitAll hmade (List.mem_of_getLast? hm) hp).1
    rw [hrefs]
    refine .head (.trunk honward) (RefMoves.Moves.setAll (AList.lookup_insert refs) ?_)
    exact labels_of_made fun m hm => hunder m (List.takeWhile_subset _ hm)

theorem moves_appendMissingVersions (f : WriteFaults) (versions : List VersionData) :
    RefMoves grown free refs (appendMissingVersions core f refs versions).1 := by
  unfold appendMissingVersions
  split_ifs
  · exact .refl
  split
  · exact .refl
  · exact moves_buildHistory core f versions none .carry
  · rename_i tip hmain
    split
    · exact .refl
    · exact moves_buildHistory core f versions (some tip) .carry
    · rename_i found htail
      obtain ⟨cs, hcs, hfound⟩ := Option.map_eq_some_iff.mp htail
      obtain ⟨later, rfl, rfl⟩ := Option.map_eq_some_iff.mp hfound
      have htip : refs.lookup mainRef = some (.commit tip) := by
        unfold mainCommit at hmain
        split at hmain
        · cases hmain
        · rename_i c hc
          rw [hc, Option.some.inj (Except.ok.inj hmain)]
        · cases hmain
      dsimp only
      rw [tagAll_eq]
      refine RefMoves.Moves.setAll htip (labels_of_made fun m hm => ?_)
      have hmem := (List.of_mem_zip (List.takeWhile_subset _ hm)).2
      obtain ⟨t, ht, hreach⟩ := reaches_of_tailFrom hcs m.2 (List.mem_reverse.mp hmem)
      rw [Option.some.inj ht]
      exact hreach

theorem moves_project (f : ProjectionFaults) (s : ListState) :
    RefMoves grown free refs (projectPushedCommit core f refs s).refs := by
  rcases projectPushedCommit_refs core f refs s with hrefs | ⟨tip, htip, hrefs⟩
  · rw [hrefs]
  · rw [hrefs]
    exact .single (.label ⟨_, rfl⟩ (tagRef_ne_mainRef _) htip .refl)

theorem moves_projectMainOrLog (first second : ProjectionFaults) (s : ListState) :
    RefMoves grown free refs (projectMainOrLog core first second refs s).1 := by
  have honce : RefMoves grown free refs _ := moves_project core first s
  have htwice : RefMoves grown free refs _ :=
    honce.trans (moves_project core second (projectPushedCommit core first refs s).list)
  unfold projectMainOrLog
  dsimp only
  split
  · exact honce
  · split
    · exact htwice
    · exact htwice

theorem moves_align (f : SyncFaults) (s : ListState) (highest : Nat) :
    RefMoves grown free refs (alignByCounters core f refs s highest).refs := by
  rcases alignByCounters_refs core f refs s highest with hrefs | hrefs | hrefs
  · rw [hrefs]
  · rw [hrefs]
    exact moves_project core f.projection s
  · rw [hrefs]
    exact moves_appendMissingVersions core f.history _

theorem moves_healMain (f : SyncFaults) (s : ListState) (highest : Nat) :
    RefMoves grown free refs (healMain core f refs s highest).refs := by
  have haligned : RefMoves grown free refs _ := moves_align core f s highest
  rcases healMain_cases core f refs s highest _ rfl _ rfl with
    ⟨e, -, -, heq⟩ | ⟨c, -, -, -, hnone, heq⟩ | ⟨-, heq⟩
  · rw [heq]
  · have honward : Onward refs mainRef c := by
      intro b hb
      rw [hnone] at hb
      cases hb
    rw [heq]
    exact .head (.trunk honward) (moves_align core f s highest)
  · rw [heq]
    split_ifs
    · rcases bootstrapOr_cases core f refs s (alignByCounters core f refs s highest) _ rfl with
        ⟨hfailed, -⟩ | ⟨hother, -⟩ | ⟨-, -, -, hrefs, -⟩
      · rw [hfailed]
      · rw [hother]
        exact haligned
      · rw [hrefs]
        exact moves_buildHistory core f.history _ none .carry
    · exact haligned

theorem grows_sync (f : SyncFaults) (disk : Disk) (list : Option ListState) :
    Grows grown free disk (syncRepoWithDb core f disk list).disk := by
  cases hcurrent : f.readCurrent with
  | false =>
    simp only [syncRepoWithDb, hcurrent]
    exact .refl disk
  | true =>
    cases list with
    | none =>
      simp only [syncRepoWithDb, hcurrent]
      exact .refl disk
    | some s =>
      cases disk with
      | unreadable =>
        simp only [syncRepoWithDb, hcurrent]
        exact .refl _
      | repo refs =>
        cases hmain : refs.lookup mainRef with
        | some t =>
          simp only [syncRepoWithDb, hcurrent, hmain]
          exact .repo (moves_align core f s (maxTagIn refs))
        | none =>
          simp only [syncRepoWithDb, hcurrent, hmain]
          exact .repo (moves_healMain core f s (maxTagIn refs))
      | absent =>
        have hbuilt : RefMoves grown free ∅ (buildHistory core f.history ∅ (loadBundleData s) none
            .carry).1 := moves_buildHistory core f.history _ none .carry
        simp only [syncRepoWithDb, hcurrent, bootstrapFromDb]
        cases f.readRows with
        | false => exact .refl _
        | true =>
          cases hempty : (loadBundleData s).isEmpty with
          | true => exact .refl _
          | false =>
            cases hbuild : buildHistory core f.history ∅ (loadBundleData s) none .carry with
            | mk built result =>
              rw [hbuild] at hbuilt
              cases result with
              | error e => exact .born hbuilt
              | ok tip => exact .born hbuilt

theorem grows_ensure (f : SyncFaults) (st : State) :
    Grows grown free st.disk (ensureRepo core f st).disk := by
  obtain ⟨disk, list⟩ := st
  have haligned : Grows grown free disk _ := grows_sync core f disk list
  cases disk with
  | unreadable => exact haligned
  | repo refs => exact haligned
  | absent =>
    cases list with
    | none => exact .refl _
    | some s =>
      unfold ensureRepo
      dsimp only
      split_ifs
      · exact .refl _
      · exact .born .refl
      · exact .born (moves_buildHistory core f.history _ none .carry)

theorem grows_write (f : WebFaults) (s : ListState) (edit : WebEdit) :
    Grows grown free (.repo refs) (writeVersion core f refs s edit).disk := by
  rcases writeVersion_cases core f refs s edit with
    ⟨⟨e, he⟩, -⟩ | ⟨parent, c, haccept, -, -, hdone⟩
  · rw [he]
    exact .refl _
  · have honward : Onward refs mainRef c := by
      intro b hb
      rw [haccept.main] at hb
      obtain ⟨p, hp, hpb⟩ := Option.map_eq_some_iff.mp hb
      obtain rfl := Target.commit.inj hpb
      exact (commitVersion_parents haccept.commit p hp).1
    have hmain : RefMoves grown free refs (refs.insert mainRef (.commit c)) :=
      .single (.trunk honward)
    rcases hdone with ⟨-, hdisk, -⟩ | ⟨-, hdisk, -⟩
    · rw [hdisk]
      exact .repo hmain
    · rw [hdisk]
      exact .repo (hmain.tail
        (.label ⟨_, rfl⟩ (tagRef_ne_mainRef _) (AList.lookup_insert refs) .refl))

theorem grows_web (f : WebFaults) (disk : Disk) (list : Option ListState) (edit : WebEdit) :
    Grows grown free disk (commitWebVersion core f disk list edit).disk := by
  have hsync : Grows grown free disk _ := grows_sync core f.sync disk list
  unfold commitWebVersion
  dsimp only
  generalize syncRepoWithDb core f.sync disk list = synced at hsync
  split
  · exact hsync
  · exact hsync
  · exact hsync
  · split_ifs
    · exact hsync
    · split
      · exact hsync
      · rename_i s refs _ hdisk
        rw [hdisk] at hsync
        exact hsync.trans (grows_write core f s edit)
      · exact hsync

end Writers

section Branches

variable {lib : GitLibrary} {reserved : Name → Bool} {fromSlice : Bytes → Option Project.RawList}
  {written squash : Bool} {refs changed : Refs} {name : Text} {stamp : Stamp}
  {grown free : Text → Prop}

private theorem onward_of_lookup {ref : Text} {b c : Commit}
    (hb : refs.lookup ref = some (.commit b)) (hreach : c.Reaches b) : Onward refs ref c := by
  intro d hd
  rw [← Refs.commit_unique hb hd]
  exact hreach

private theorem moves_insert_branch {c : Commit} (hgrown : grown (branchRef name))
    (honward : Onward refs (branchRef name) c) :
    RefMoves grown free refs (refs.insert (branchRef name) (.commit c)) := by
  by_cases hmain : branchRef name = mainRef
  · rw [hmain] at honward ⊢
    exact .single (.trunk honward)
  · exact .single (.grow hgrown hmain honward)

theorem moves_createBranch {origin : Text} (hgrown : grown (branchRef name))
    (h : createBranch written refs name origin = .ok changed) : RefMoves grown free refs changed := by
  obtain ⟨base, c, -, hnew, rfl⟩ := createBranch_eq_ok h
  refine moves_insert_branch hgrown fun b hb => ?_
  rw [AList.lookup_eq_none.mpr hnew] at hb
  cases hb

theorem moves_deleteBranch (hfree : free (branchRef name))
    (h : deleteBranch written refs name = .ok changed) : RefMoves grown free refs changed := by
  obtain ⟨hname, rfl⟩ := deleteBranch_eq_ok h
  exact .single (.erase hfree (branchRef_ne_main hname))

theorem moves_commitToBranch {listJson : Bytes} {expectedTip : Option Commit}
    (hgrown : grown (branchRef name)) (h : commitToBranch reserved fromSlice written refs name
      listJson expectedTip stamp = .ok changed) : RefMoves grown free refs changed := by
  obtain ⟨-, rfl | ⟨tip, t, htip, -, rfl⟩⟩ := commitToBranch_eq_ok h
  · exact .refl
  · have hparent : (Commit.mk t [tip] stamp).IsParent tip := List.mem_singleton_self tip
    exact moves_insert_branch hgrown (onward_of_lookup htip (.single hparent))

theorem updateBranch_onward (h : updateBranch lib written refs name stamp = .ok changed) :
    ∃ c, Onward refs (branchRef name) c ∧ changed = refs.insert (branchRef name) (.commit c) := by
  unfold updateBranch at h
  split_ifs at h
  cases hbranch : tipOf refs (branchRef name) with
  | error e =>
    rw [hbranch] at h
    cases h
  | ok theirs =>
    cases hmain : tipOf refs mainRef with
    | error e =>
      rw [hbranch, hmain] at h
      cases h
    | ok ours =>
      have htheirs := tipOf_eq_ok.mp hbranch
      simp only [hbranch, hmain] at h
      split_ifs at h with hnothing hforward
      · exact ⟨ours, onward_of_lookup htheirs hforward, moveRef_eq_ok h⟩
      · cases hmerge : lib.merge theirs ours with
        | none =>
          simp only [mergeCommit, hmerge] at h
          cases h
        | some t =>
          simp only [mergeCommit, hmerge] at h
          have hparent : (Commit.mk t [theirs, ours] stamp).IsParent theirs :=
            List.mem_cons_self
          exact ⟨_, onward_of_lookup htheirs (.single hparent), moveRef_eq_ok h⟩

theorem moves_updateBranch (hgrown : grown (branchRef name))
    (h : updateBranch lib written refs name stamp = .ok changed) :
    RefMoves grown free refs changed := by
  obtain ⟨c, honward, rfl⟩ := updateBranch_onward h
  exact moves_insert_branch hgrown honward

theorem moves_mergeBranch (h : mergeBranch lib written refs name squash stamp = .ok changed) :
    RefMoves grown free refs changed := by
  obtain ⟨ours, theirs, newTip, -, hmain, -, -, hreach, -, rfl⟩ := mergeBranch_eq_ok h
  exact .single (.trunk (onward_of_lookup hmain hreach))

theorem moves_mergeResolved {listJson : Bytes}
    (h : mergeResolved reserved fromSlice written refs name listJson squash stamp = .ok changed) :
    RefMoves grown free refs changed := by
  obtain ⟨ours, theirs, t, parents, -, hmain, -, hparents, -, rfl⟩ := mergeResolved_eq_ok h
  have hparent : (Commit.mk t parents stamp).IsParent ours := by
    change ours ∈ parents
    rw [hparents]
    split_ifs <;> exact List.mem_cons_self
  exact .single (.trunk (onward_of_lookup hmain (.single hparent)))

theorem moves_createTag {version : Int} (hfree : versionOfTag name = none → free (tagRef name))
    (h : createTag written refs name version = .ok changed) : RefMoves grown free refs changed := by
  obtain ⟨hname, t, -, rfl⟩ := createTag_eq_ok h
  exact .single (.set (hfree hname) (tagRef_ne_mainRef name))

private theorem moves_applyCommand (applied : Text → Bool) {env : HookEnv} {before : Refs}
    {cmd : RefCommand} (hadmitted : Admitted lib env before cmd)
    (hfree : cmd.ref ≠ mainRef → free cmd.ref) :
    RefMoves grown free refs (applyCommand applied refs cmd) := by
  by_cases hmain : cmd.ref = mainRef
  · obtain ⟨t, ht, hforward⟩ := (nameRefusal_eq_none hadmitted.name).2 hmain
    rcases applyCommand_cases applied refs cmd with hsame | ⟨hnone, -⟩ | ⟨u, hu, hfits, hold, hinsert⟩
    · rw [hsame]
    · rw [hnone] at ht
      cases ht
    · obtain rfl := Option.some.inj (ht.symm.trans hu)
      rw [hmain] at hfits hinsert hold
      cases t with
      | object id tagged =>
        have hrefused : fitsBranch mainRef (some (.object id tagged)) = false := rfl
        rw [hrefused] at hfits
        cases hfits
      | commit c =>
        rw [hinsert]
        refine .single (.trunk fun b hb => ?_)
        exact of_decide_eq_true (hforward (.commit b) (hold.symm.trans hb))
  · rcases applyCommand_cases applied refs cmd with hsame | ⟨-, herase⟩ | ⟨u, -, -, -, hinsert⟩
    · rw [hsame]
    · rw [herase]
      exact .single (.erase (hfree hmain) hmain)
    · rw [hinsert]
      exact .single (.set (hfree hmain) hmain)

private theorem magic_ne_main {ref : Text} (h : isMagic ref = true) : ref ≠ mainRef := by
  rintro rfl
  exact absurd h (by decide)

theorem moves_push (core : Core) (f : PushFaults) (env : HookEnv) (commands : List RefCommand)
    (list : Option ListState)
    (hfree : ∀ ref, freedBy (.push f env commands) ref → free ref) :
    RefMoves grown free refs (receivePack core lib f env commands refs list).refs := by
  have hreceived : RefMoves grown free refs (received lib f.applied env refs commands) := by
    apply received_invariant (P := fun r => RefMoves grown free refs r)
    · intro cmd hcmd hadmitted r h
      refine h.trans (moves_applyCommand f.applied hadmitted fun hmain => ?_)
      exact hfree _ (Or.inl ⟨⟨cmd, hcmd, rfl⟩, hmain, (nameRefusal_eq_none hadmitted.name).1⟩)
    · exact .refl
  have htaken : RefMoves grown free refs (takeMagicPushes f.magic env.actor refs
      (received lib f.applied env refs commands)).1 := by
    apply takeMagicPushes_invariant (P := fun r => RefMoves grown free refs r)
    · intro r name hname h
      exact h.tail (.erase (hfree _ (Or.inr (Or.inl hname))) (magic_ne_main hname))
    · intro r name base t _ _ _ h
      exact h.tail (.set (hfree _ (Or.inr (Or.inr ⟨base, rfl⟩))) (authorBranch_ne_main _ base))
    · exact hreceived
  unfold receivePack
  dsimp only
  split_ifs
  · exact hreceived
  · exact htaken
  · cases list with
    | none => exact htaken
    | some s => exact htaken.trans (moves_projectMainOrLog core f.first f.second s)
  · exact htaken

end Branches

section Steps

variable (core : Core) (lib : GitLibrary) {grown free : Text → Prop} {st : State}

theorem grows_onRefs {change : Refs → Except BranchRefusal Refs}
    (hchange : ∀ refs changed, change refs = .ok changed → RefMoves grown free refs changed) :
    Grows grown free st.disk (onRefs change st).disk := by
  obtain ⟨disk, list⟩ := st
  cases disk with
  | absent => exact .refl _
  | unreadable => exact .refl _
  | repo refs =>
    cases hdone : change refs with
    | error e =>
      simp only [onRefs, hdone]
      exact .refl _
    | ok changed =>
      simp only [onRefs, hdone]
      exact .repo (hchange refs changed hdone)

theorem grows_afterMerge (first second : ProjectionFaults)
    {merged : Refs → Except BranchRefusal Refs}
    (hmerged : ∀ refs moved, merged refs = .ok moved → RefMoves grown free refs moved) :
    Grows grown free st.disk (afterMerge core first second merged st).disk := by
  obtain ⟨disk, list⟩ := st
  cases disk with
  | absent => exact .refl _
  | unreadable => exact .refl _
  | repo refs =>
    cases hdone : merged refs with
    | error e =>
      simp only [afterMerge, hdone]
      exact .refl _
    | ok moved =>
      have hmoved := hmerged refs moved hdone
      cases list with
      | none =>
        simp only [afterMerge, hdone]
        exact .repo hmoved
      | some s =>
        simp only [afterMerge, hdone]
        exact .repo (hmoved.trans (moves_projectMainOrLog core first second s))

theorem grows_step (op : Op) (st : State) (hgrown : ∀ ref, grownBy op ref → grown ref)
    (hfree : ∀ ref, freedBy op ref → free ref) :
    Grows grown free st.disk (step core lib op st).disk := by
  cases op with
  | ensure f => exact grows_ensure core f st
  | align f => exact grows_sync core f st.disk st.list
  | web f edit => exact grows_web core f st.disk st.list edit
  | push f env commands =>
    obtain ⟨disk, list⟩ := st
    cases disk with
    | absent => exact .refl _
    | unreadable => exact .refl _
    | repo refs => exact .repo (moves_push core f env commands list hfree)
  | reproject f =>
    obtain ⟨disk, list⟩ := st
    cases disk with
    | absent => exact .refl _
    | unreadable => exact .refl _
    | repo refs =>
      cases list with
      | none => exact .refl _
      | some s => exact .repo (moves_project core f s)
  | createBranch written name origin =>
    exact grows_onRefs fun _ _ => moves_createBranch (hgrown _ rfl)
  | deleteBranch written name => exact grows_onRefs fun _ _ => moves_deleteBranch (hfree _ rfl)
  | commitToBranch written branch listJson expectedTip stamp =>
    exact grows_onRefs fun _ _ => moves_commitToBranch (hgrown _ rfl)
  | updateBranch written name stamp =>
    exact grows_onRefs fun _ _ => moves_updateBranch (hgrown _ rfl)
  | mergeBranch written first second name squash stamp =>
    exact grows_afterMerge core first second fun _ _ => moves_mergeBranch
  | mergeResolved written first second branch listJson squash stamp =>
    exact grows_afterMerge core first second fun _ _ => moves_mergeResolved
  | createTag written name version =>
    exact grows_onRefs fun _ _ => moves_createTag fun hname => hfree _ ⟨rfl, hname⟩

theorem grows_run (ops : List Op) (st : State) :
    Grows (fun ref => ∃ op ∈ ops, grownBy op ref) (fun ref => ∃ op ∈ ops, freedBy op ref)
      st.disk (run core lib ops st).disk := by
  induction ops generalizing st with
  | nil => exact .refl _
  | cons op ops ih =>
    have hfirst : Grows (fun ref => ∃ o ∈ op :: ops, grownBy o ref)
        (fun ref => ∃ o ∈ op :: ops, freedBy o ref) st.disk (step core lib op st).disk :=
      grows_step core lib op st (fun _ h => ⟨op, List.mem_cons_self, h⟩)
        fun _ h => ⟨op, List.mem_cons_self, h⟩
    have hrest := ih (step core lib op st)
    refine hfirst.trans ⟨hrest.moves.mono ?_ ?_, hrest.opens⟩
    · rintro ref ⟨o, ho, h⟩
      exact ⟨o, List.mem_cons_of_mem _ ho, h⟩
    · rintro ref ⟨o, ho, h⟩
      exact ⟨o, List.mem_cons_of_mem _ ho, h⟩

theorem main_onward_run (ops : List Op) {st : State} {b : Commit}
    (hb : (held st.disk).lookup mainRef = some (.commit b)) :
    ∃ d, (held (run core lib ops st).disk).lookup mainRef = some (.commit d) ∧ d.Reaches b :=
  (grows_run core lib ops st).moves.onward (absurd rfl) (absurd rfl) hb

/-- In no run does main leave the history it has. A branch that no operation deletes and no push
names does not either, and a reference that no operation owns at all stays as it is. -/
theorem names_of_run (ops : List Op) (st : State) (ref : Text) :
    (∀ b, (held st.disk).lookup mainRef = some (.commit b) →
      ∃ d, (held (run core lib ops st).disk).lookup mainRef = some (.commit d) ∧ d.Reaches b) ∧
    (¬ IsLabel ref → (∀ op ∈ ops, ¬ freedBy op ref) →
      ∀ b, (held st.disk).lookup ref = some (.commit b) →
        ∃ d, (held (run core lib ops st).disk).lookup ref = some (.commit d) ∧ d.Reaches b) ∧
    (ref ≠ mainRef → ¬ IsLabel ref → (∀ op ∈ ops, ¬ grownBy op ref ∧ ¬ freedBy op ref) →
      (held (run core lib ops st).disk).lookup ref = (held st.disk).lookup ref) := by
  have hmoves := (grows_run core lib ops st).moves
  refine ⟨fun b hb => main_onward_run core lib ops hb, fun hlabel hfree b hb => ?_,
    fun hmain hlabel hown => ?_⟩
  · refine hmoves.onward (fun _ => hlabel) (fun _ => ?_) hb
    rintro ⟨op, hop, h⟩
    exact hfree op hop h
  · apply hmoves.lookup_eq hmain hlabel
    · rintro ⟨op, hop, h⟩
      exact (hown op hop).1 h
    · rintro ⟨op, hop, h⟩
      exact (hown op hop).2 h

private theorem versionRef_alone {ops : List Op} {ref : Text} (h : IsVersionRef ref) :
    ref ≠ mainRef ∧ (¬ ∃ op ∈ ops, grownBy op ref) ∧ ¬ ∃ op ∈ ops, freedBy op ref := by
  have hbranch : ∀ name, ref ≠ branchRef name := by
    rintro name rfl
    rw [IsVersionRef, tagVersion_branchRef] at h
    cases h
  refine ⟨?_, ?_, ?_⟩
  · rintro rfl
    rw [IsVersionRef, tagVersion_mainRef] at h
    cases h
  · rintro ⟨op, -, hgrown⟩
    cases op <;> first | exact hbranch _ hgrown | cases hgrown
  · rintro ⟨op, -, hfreed⟩
    cases op with
    | deleteBranch written name => exact hbranch _ hfreed
    | createTag written name version =>
      obtain ⟨rfl, hname⟩ := hfreed
      rw [IsVersionRef, tagVersion_tagRef, hname] at h
      cases h
    | push f env commands =>
      rcases hfreed with ⟨-, -, hnone⟩ | hmagic | ⟨base, hbase⟩
      · rw [IsVersionRef, hnone] at h
        cases h
      · rw [IsVersionRef, tagVersion_of_isMagic hmagic] at h
        cases h
      · exact hbranch _ hbase
    | _ => cases hfreed

theorem tagsInMain_run (ops : List Op) {st : State} (h : TagsInMain (held st.disk)) :
    TagsInMain (held (run core lib ops st).disk) :=
  (grows_run core lib ops st).moves.marked (fun _ href => versionRef_alone href) h

theorem tagsInMain_empty : TagsInMain ∅ := by
  intro ref _ t ht
  cases ht

theorem tagsInMain_start {disk : Disk} (h : VersionShas.Starts core disk) :
    TagsInMain (held disk) := by
  rcases h with rfl | ⟨f, v, authored, rfl⟩
  · exact tagsInMain_empty
  · have hmoves : RefMoves (fun _ => False) (fun _ => False) ∅
        (initWithVersion core f v authored).1 := by
      unfold initWithVersion appendVersionWith
      dsimp only
      split
      · exact .refl
      · exact moves_buildHistory core f [v] none authored
    have hkind : ∀ ref, IsVersionRef ref → ref ≠ mainRef ∧ ¬ False ∧ ¬ False :=
      fun ref href => ⟨(@versionRef_alone [] ref href).1, id, id⟩
    exact hmoves.marked hkind tagsInMain_empty

/-- Once a version tag stands on a commit, whatever runs and wherever the tag goes afterwards, the
commit is and stays in main's history. -/
theorem version_tags_in_main (ops more : List Op) {st : State} (hstart : TagsInMain (held st.disk))
    (ref : Text) (href : IsVersionRef ref) (t : Target)
    (ht : (held (run core lib ops st).disk).lookup ref = some t) :
    ∃ c tip, t = .commit c ∧
      (held (run core lib (ops ++ more) st).disk).lookup mainRef = some (.commit tip) ∧
      tip.Reaches c := by
  obtain ⟨c, tip, rfl, htip, hreach⟩ := tagsInMain_run core lib ops hstart ref href t ht
  obtain ⟨later, hlater, honward⟩ := main_onward_run core lib more htip
  refine ⟨c, later, rfl, ?_, honward.trans hreach⟩
  rw [run, Runs.run_append]
  exact hlater

end Steps

private theorem markedRefs_inMain :
    TagsInMain (held (State.mk (.repo markedRefs) (some markedList)).disk) := by
  intro ref href t ht
  change markedRefs.lookup ref = some t at ht
  refine ⟨firstCommit, firstCommit, ?_, rfl, .refl⟩
  by_cases htag : ref = tagRef (versionTag 1)
  · subst htag
    rw [markedRefs, AList.lookup_insert] at ht
    exact (Option.some.inj ht).symm
  · have hmain : ref ≠ mainRef := (@versionRef_alone [] ref href).1
    rw [markedRefs, AList.lookup_insert_ne htag, AList.lookup_insert_ne hmain] at ht
    cases ht

def savedOps : List Op :=
  [markEdit true, markEdit false].map (.web plainWrite) ++ [.createBranch true "draft".toList []]

/-- The second version is under main when the list is at its fourth and has a branch. -/
theorem version_tags_in_main_saved :
    (run canonCore plainLibrary ([.web plainWrite (markEdit false)] ++ savedOps)
      ⟨.repo markedRefs, some markedList⟩).list.map ListState.currentVersion = some 4 ∧
    ∃ t, (held (run canonCore plainLibrary [.web plainWrite (markEdit false)]
        ⟨.repo markedRefs, some markedList⟩).disk).lookup (tagRef (versionTag 2)) = some t ∧
      ∃ c tip, t = .commit c ∧
        (held (run canonCore plainLibrary ([.web plainWrite (markEdit false)] ++ savedOps)
          ⟨.repo markedRefs, some markedList⟩).disk).lookup mainRef = some (.commit tip) ∧
        tip.Reaches c := by
  have hnames : CarriedTree.NamesFree canonCore.reserved := fun _ _ _ _ => rfl
  have hcarry : ∀ b, (markEdit b).authored = none ∧ (markEdit b).expectedVersion = none :=
    fun _ => ⟨rfl, rfl⟩
  obtain ⟨c, -, hwrite, -⟩ := markedRefs_ready.written hnames (by decide) (hcarry false).1 nofun
  obtain ⟨last, after, hrun, -⟩ := @run_saved canonCore plainLibrary hnames
    [markEdit false, markEdit true, markEdit false] (by simp [hcarry]) _ _ _ markedRefs_ready
    (by decide)
  have htag : (held (run canonCore plainLibrary [.web plainWrite (markEdit false)]
      ⟨.repo markedRefs, some markedList⟩).disk).lookup (tagRef (versionTag 2)) =
        some (.commit c) := by
    simp only [run, Runs.run_cons, Runs.run_nil, step, hwrite]
    exact AList.lookup_insert _
  refine ⟨?_, _, htag, version_tags_in_main canonCore plainLibrary _ savedOps markedRefs_inMain
    (tagRef (versionTag 2)) (show (tagVersion (tagRef (versionTag 2))).isSome = true by decide) _ htag⟩
  rw [show [Op.web plainWrite (markEdit false)] ++ savedOps =
    [markEdit false, markEdit true, markEdit false].map (.web plainWrite) ++
      [.createBranch true "draft".toList []] from rfl, run, Runs.run_append]
  rw [run] at hrun
  rw [hrun, Runs.run_cons, Runs.run_nil]
  simp only [step, onRefs]
  split <;> rfl

end Setfork.RefRuns
