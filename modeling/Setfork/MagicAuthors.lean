/- MagicAuthors
   digest: What taking the magic references leaves, and what the push of a stranger can change. -/
import Setfork.MagicPushes

set_option autoImplicit false
set_option relaxedAutoImplicit false

namespace Setfork.MagicAuthors

open Setfork.Foundation
open Setfork.TreeRule (stripPrefix stripPrefix_eq_some)
open Setfork.Repository
open Setfork.History
open Setfork.Alignment
open Setfork.Push
open Setfork.Received
open Setfork.Branches
open Setfork.MagicPushes
open Setfork.Healing (markedRefs markedRefs_main firstCommit)
open Setfork.PushedVersions (pushedOver)

/-- The push has created or moved the reference of this base, and left it at the tip. -/
def Fresh (before refs : Refs) (base : Text) (tip : Target) : Prop :=
  refs.lookup (magicPrefix ++ base) = some tip ∧ before.lookup (magicPrefix ++ base) ≠ some tip

/-- Every magic reference is gone, and what this push moved went to branches of its author. -/
structure WentToAuthor (actor : Text) (before refs out : Refs) (pushes : List MagicPush) :
    Prop where
  gone : ∀ name, isMagic name = true → out.lookup name = none
  moved : ∀ base tip, Fresh before refs base tip →
    out.lookup (branchRef (authorBranch actor base)) = some tip
  reported : ∀ m, m ∈ pushes ↔ m.branch = authorBranch actor m.base ∧ Fresh before refs m.base m.tip
  once : (pushes.map MagicPush.base).Nodup
  frame : ∀ ref, isMagic ref = false →
    (∀ base tip, Fresh before refs base tip → ref ≠ branchRef (authorBranch actor base)) →
    out.lookup ref = refs.lookup ref

section All

variable {f : MagicFaults} {actor : Text} {before refs : Refs}

theorem isMagic_base (base : Text) : isMagic (magicPrefix ++ base) = true :=
  List.isPrefixOf_iff_prefix.mpr (List.prefix_append _ _)

private theorem mem_magic_keys {name : Text} :
    name ∈ refs.keys.filter isMagic ↔ name ∈ refs ∧ isMagic name = true := by
  rw [List.mem_filter, ← AList.mem_keys]

theorem taken_of_takeMagicPushes (hactor : actor ≠ [])
    (htaken : (takeMagicPushes f actor before refs).2.2 = true) :
    Taken actor before refs (refs.keys.filter isMagic) (takeMagicPushes f actor before refs).1
      (takeMagicPushes f actor before refs).2.1 := by
  have hfull : ¬ actor.isEmpty = true := by simpa using hactor
  unfold takeMagicPushes at htaken ⊢
  rw [if_neg hfull] at htaken ⊢
  exact taken_of_takeNames (fun name hname => (mem_magic_keys.mp hname).2)
    (refs.keys_nodup.filter _) htaken

theorem mem_reports_iff {m : MagicPush} :
    m ∈ (refs.keys.filter isMagic).filterMap (reportOf actor before refs) ↔
      m.branch = authorBranch actor m.base ∧ Fresh before refs m.base m.tip := by
  rw [List.mem_filterMap]
  constructor
  · rintro ⟨name, -, hreport⟩
    obtain ⟨hbase, hbranch, htip, hfresh⟩ := reportOf_eq_some.mp hreport
    rw [stripPrefix_eq_some.mp hbase] at htip hfresh
    exact ⟨hbranch, htip, hfresh⟩
  · rintro ⟨hbranch, htip, hfresh⟩
    refine ⟨magicPrefix ++ m.base, mem_magic_keys.mpr ⟨?_, isMagic_base m.base⟩, ?_⟩
    · rw [← AList.lookup_isSome, htip]
      rfl
    · exact reportOf_eq_some.mpr ⟨stripPrefix_eq_some.mpr rfl, hbranch, htip, hfresh⟩

theorem went_to_author (hactor : actor ≠ [])
    (htaken : (takeMagicPushes f actor before refs).2.2 = true) :
    WentToAuthor actor before refs (takeMagicPushes f actor before refs).1
      (takeMagicPushes f actor before refs).2.1 := by
  have hall := taken_of_takeMagicPushes hactor htaken
  have hreported (m : MagicPush) : m ∈ (takeMagicPushes f actor before refs).2.1 ↔
      m.branch = authorBranch actor m.base ∧ Fresh before refs m.base m.tip := by
    rw [hall.reported, mem_reports_iff]
  refine ⟨?_, ?_, hreported, ?_, ?_⟩
  · intro name hmagic
    by_cases hthere : name ∈ refs
    · exact hall.gone name (mem_magic_keys.mpr ⟨hthere, hmagic⟩)
    · rw [hall.frame name (fun h => hthere (mem_magic_keys.mp h).1)]
      · exact AList.lookup_eq_none.mpr hthere
      · exact fun m _ => not_branch_of_magic hmagic m.branch
  · intro base tip hfresh
    exact hall.moved ⟨base, authorBranch actor base, tip⟩ ((hreported _).mpr ⟨rfl, hfresh⟩)
  · have hnodup : (refs.keys.filter isMagic).Nodup := refs.keys_nodup.filter _
    rw [hall.reported, List.Nodup, List.pairwise_map]
    refine List.Pairwise.filterMap _ (fun name other hne m hm m' hm' hbase => hne ?_) hnodup
    rw [stripPrefix_eq_some.mp (reportOf_eq_some.mp hm).1, hbase,
      ← stripPrefix_eq_some.mp (reportOf_eq_some.mp hm').1]
  · intro ref hmagic hother
    refine hall.frame ref (fun h => ?_) fun m hm => ?_
    · rw [(mem_magic_keys.mp h).2] at hmagic
      cases hmagic
    · obtain ⟨hbranch, hfresh⟩ := (hreported m).mp hm
      rw [hbranch]
      exact hother m.base m.tip hfresh

theorem takeMagicPushes_of_gone (hgone : ∀ name, isMagic name = true → refs.lookup name = none) :
    takeMagicPushes f actor before refs = (refs, [], true) := by
  have hnone : refs.keys.filter isMagic = [] := by
    rw [List.filter_eq_nil_iff]
    intro name hname hmagic
    have hlookup := hgone name hmagic
    rw [AList.lookup_eq_none] at hlookup
    exact hlookup (AList.mem_keys.mpr hname)
  unfold takeMagicPushes
  rw [hnone]
  split_ifs
  · rfl
  · rfl

end All

section Stranger

variable {core : Core} {lib : GitLibrary} {f : PushFaults} {env : HookEnv}
  {commands : List RefCommand} {refs : Refs} {list : Option Rows.ListState}

theorem nameRefusal_restricted (hrole : isRestricted env.role = true) {cmd : RefCommand}
    (h : nameRefusal env cmd = none) : env.actor ≠ [] ∧ cmd.ref = magicMain := by
  unfold nameRefusal at h
  rw [hrole, Bool.true_and, Bool.true_and] at h
  split_ifs at h with hempty hother
  all_goals exact ⟨by simpa using hempty, by simpa using hother⟩

theorem lookup_received_restricted (hrole : isRestricted env.role = true) {ref : Text}
    (href : env.actor ≠ [] → ref ≠ magicMain) :
    (received lib f.applied env refs commands).lookup ref = refs.lookup ref := by
  apply received_invariant (P := fun r => r.lookup ref = refs.lookup ref)
  · intro cmd _ hadmitted r h
    obtain ⟨hactor, hmain⟩ := nameRefusal_restricted hrole hadmitted.name
    have hne : ref ≠ cmd.ref := hmain ▸ href hactor
    rcases applyCommand_cases f.applied r cmd with hsame | ⟨-, herase⟩ | ⟨t, -, -, -, hinsert⟩
    · rw [hsame, h]
    · rw [herase, AList.lookup_erase_ne hne, h]
    · rw [hinsert, AList.lookup_insert_ne hne, h]
  · rfl

theorem receivePack_restricted (hrole : isRestricted env.role = true) :
    (receivePack core lib f env commands refs list).refs =
        (if f.answered then (takeMagicPushes f.magic env.actor refs
          (received lib f.applied env refs commands)).1
        else received lib f.applied env refs commands) ∧
      (receivePack core lib f env commands refs list).answered = (f.answered &&
        (takeMagicPushes f.magic env.actor refs
          (received lib f.applied env refs commands)).2.2) := by
  have hmain : (received lib f.applied env refs commands).lookup mainRef = refs.lookup mainRef :=
    lookup_received_restricted hrole fun _ => by decide
  unfold receivePack
  cases hanswered : f.answered with
  | false => exact ⟨rfl, rfl⟩
  | true =>
    cases htaken : (takeMagicPushes f.magic env.actor refs
        (received lib f.applied env refs commands)).2.2 with
    | false => simp [htaken]
    | true => simp [htaken, hmain]

/-- What may differ after the push of a stranger: the branch of the author, and magic references. -/
def OnlyAuthor (actor : Text) (refs out : Refs) : Prop :=
  ∀ ref, out.lookup ref = refs.lookup ref ∨
    ref = branchRef (authorBranch actor "main".toList) ∨
    isMagic ref = true ∧ (out.lookup ref = none ∨ ref = magicMain)

theorem onlyAuthor_received (hrole : isRestricted env.role = true) :
    OnlyAuthor env.actor refs (received lib f.applied env refs commands) := by
  intro ref
  by_cases href : ref = magicMain
  · exact Or.inr (Or.inr ⟨by rw [href]; decide, Or.inr href⟩)
  · exact Or.inl (lookup_received_restricted hrole fun _ => href)

theorem onlyAuthor_taken {magic : MagicFaults} {actor : Text} {after : Refs}
    (h : OnlyAuthor actor refs after) :
    OnlyAuthor actor refs (takeMagicPushes magic actor refs after).1 := by
  apply takeMagicPushes_invariant (P := OnlyAuthor actor refs) magic actor refs _ _ h
  · intro r name hmagic hr ref
    by_cases href : ref = name
    · rw [href]
      exact Or.inr (Or.inr ⟨hmagic, Or.inl (AList.lookup_erase _ _)⟩)
    · rw [AList.lookup_erase_ne href]
      exact hr ref
  · intro r name base tip hbase htip hfresh hr ref
    have hname := stripPrefix_eq_some.mp hbase
    have hmain : base = "main".toList := by
      have hmagic : isMagic name = true := hname ▸ isMagic_base base
      rcases hr name with hsame | hbranch | ⟨-, hgone | heq⟩
      · exact absurd (hsame.symm.trans htip) hfresh
      · exact absurd hbranch (not_branch_of_magic hmagic _)
      · rw [htip] at hgone
        cases hgone
      · exact List.append_cancel_left (hname.symm.trans heq)
    by_cases href : ref = branchRef (authorBranch actor base)
    · exact Or.inr (Or.inl (hmain ▸ href))
    · rw [AList.lookup_insert_ne href]
      exact hr ref

theorem stranger_changes (hrole : isRestricted env.role = true) (ref : Text) :
    let result := receivePack core lib f env commands refs list
    result.refs.lookup ref = refs.lookup ref ∨
      ref = branchRef (authorBranch env.actor "main".toList) ∨
      isMagic ref = true ∧ (result.refs.lookup ref = none ∨
        ref = magicMain ∧ result.answered = false) := by
  intro result
  obtain ⟨hrefs, hanswered⟩ : result.refs = _ ∧ result.answered = _ :=
    receivePack_restricted hrole
  have honly : OnlyAuthor env.actor refs result.refs := by
    rw [hrefs]
    split_ifs
    · exact onlyAuthor_taken (onlyAuthor_received hrole)
    · exact onlyAuthor_received hrole
  rcases honly ref with hsame | hbranch | ⟨hmagic, hgone | hmain⟩
  · exact Or.inl hsame
  · exact Or.inr (Or.inl hbranch)
  · exact Or.inr (Or.inr ⟨hmagic, Or.inl hgone⟩)
  · cases hresult : result.answered with
    | false => exact Or.inr (Or.inr ⟨hmagic, Or.inr ⟨hmain, rfl⟩⟩)
    | true =>
      rw [hresult] at hanswered
      obtain ⟨hgit, htaken⟩ := Bool.and_eq_true_iff.mp hanswered.symm
      rw [if_pos hgit] at hrefs
      by_cases hactor : env.actor = []
      · left
        have hkept : (takeMagicPushes f.magic env.actor refs
            (received lib f.applied env refs commands)).1 =
            received lib f.applied env refs commands := by
          rw [takeMagicPushes, hactor]
          rfl
        rw [hrefs, hkept]
        exact lookup_received_restricted hrole fun h => absurd hactor h
      · right; right
        rw [hrefs]
        exact ⟨hmagic, Or.inl ((went_to_author hactor htaken).gone ref hmagic)⟩

end Stranger

/-- Whoever takes the magic references gets what the push moved, every other one is only removed,
and there is nothing to take a second time; so a stranger changes the branch of the author and
magic references, of which none stays but the pushed one of a call that failed. -/
theorem magic_pushes_go_to_author (core : Core) (lib : GitLibrary) :
    (∀ (f : MagicFaults) (actor : Text) (before refs : Refs), actor ≠ [] →
      (takeMagicPushes f actor before refs).2.2 = true →
      WentToAuthor actor before refs (takeMagicPushes f actor before refs).1
        (takeMagicPushes f actor before refs).2.1 ∧
      ∀ (again : MagicFaults) (other : Text) (snapshot : Refs),
        takeMagicPushes again other snapshot (takeMagicPushes f actor before refs).1 =
          ((takeMagicPushes f actor before refs).1, [], true)) ∧
    ∀ (f : PushFaults) (env : HookEnv) (commands : List RefCommand) (refs : Refs)
      (list : Option Rows.ListState), isRestricted env.role = true → ∀ ref,
      let result := receivePack core lib f env commands refs list
      result.refs.lookup ref = refs.lookup ref ∨
        ref = branchRef (authorBranch env.actor "main".toList) ∨
        isMagic ref = true ∧ (result.refs.lookup ref = none ∨
          ref = magicMain ∧ result.answered = false) := by
  refine ⟨fun f actor before refs hactor htaken => ?_, ?_⟩
  · have hwent := went_to_author hactor htaken
    exact ⟨hwent, fun again other snapshot => takeMagicPushes_of_gone hwent.gone⟩
  · intro f env commands refs list hrole ref
    exact stranger_changes hrole ref

/-- Somebody whose role is neither the owner's nor a collaborator's. -/
def strangerEnv : HookEnv := { authorEnv with role := "contributor".toList }

theorem magic_pushes_go_to_author_proposal :
    let refs := markedRefs.insert magicMain (.commit firstCommit)
    let out := (takeMagicPushes ⟨fun _ => true, fun _ => true⟩ strangerEnv.actor markedRefs refs).1
    out.lookup (branchRef (authorBranch strangerEnv.actor "main".toList)) =
        some (.commit firstCommit) ∧ out.lookup magicMain = none ∧
      ∀ env, isRestricted env.role = true → ∀ ref, ref = mainRef →
        (receivePack canonCore plainLibrary (nothingFails env.actor markedRefs) env
          [proposal (pushedOver firstCommit)] markedRefs none).refs.lookup ref =
          markedRefs.lookup ref := by
  intro refs out
  have hactor : strangerEnv.actor ≠ [] := by decide
  have hall : (takeMagicPushes ⟨fun _ => true, fun _ => true⟩ strangerEnv.actor markedRefs
      refs).2.2 = true := takeMagicPushes_all (fun _ => rfl) (fun _ => rfl) _ _ _
  have hwent := ((magic_pushes_go_to_author canonCore plainLibrary).1 _ _ markedRefs refs hactor
    hall).1
  have htip : refs.lookup magicMain = some (.commit firstCommit) := AList.lookup_insert _
  have hfree : markedRefs.lookup magicMain ≠ some (.commit firstCommit) := by
    rw [markedRefs_no_magic]
    exact Option.some_ne_none _ |>.symm
  refine ⟨hwent.moved "main".toList _ ⟨htip, hfree⟩, hwent.gone magicMain (by decide), ?_⟩
  rintro env hrole ref rfl
  rcases (magic_pushes_go_to_author canonCore plainLibrary).2 (nothingFails env.actor markedRefs)
    env [proposal (pushedOver firstCommit)] markedRefs none hrole mainRef with hsame | hbranch |
    ⟨hmagic, -⟩
  · exact hsame
  · exact absurd hbranch.symm (authorBranch_ne_main _ _)
  · exact absurd hmagic (by decide)

/-- A branch that is called `u` is in the way: the call fails, and the proposal stays where it was
pushed to. -/
theorem proposal_left_behind_branch_u :
    isRestricted strangerEnv.role = true ∧
    (∃ seen, preReceive plainLibrary strangerEnv branchU [proposal (pushedOver firstCommit)] =
      .ok seen) ∧
    branchU.lookup magicMain = none ∧
    (receivePack canonCore plainLibrary (nothingFails strangerEnv.actor branchU) strangerEnv
      [proposal (pushedOver firstCommit)] branchU none).refs.lookup magicMain =
      some (.commit (pushedOver firstCommit)) := by
  have hrole : isRestricted strangerEnv.role = true := by decide
  have hmain := branchU_main
  have hfree := branchU_no_magic
  have hauthor := admitted_proposal (by decide) (admitted_pushedOver plainLibrary hmain)
  have hadmitted : Admitted plainLibrary strangerEnv branchU (proposal (pushedOver firstCommit)) :=
    ⟨by decide, hauthor.canon, hauthor.commits, hauthor.content⟩
  obtain ⟨seen, hpass⟩ := (preReceive_isOk_iff strangerEnv branchU
    [proposal (pushedOver firstCommit)]).mpr (by simpa using hadmitted)
  have hafter : received plainLibrary (fun _ => true) strangerEnv branchU
      [proposal (pushedOver firstCommit)] =
      branchU.insert magicMain (.commit (pushedOver firstCommit)) := by
    rw [received, hpass]
    simp [applyCommands, applyCommand, proposal, fitsBranch, hfree]
  refine ⟨hrole, ⟨seen, hpass⟩, hfree, ?_⟩
  rw [(receivePack_restricted hrole).1]
  have hkeys : (branchU.insert magicMain (.commit (pushedOver firstCommit))).keys.filter isMagic =
      [magicMain] := by decide
  have hblocked : (freeNames strangerEnv.actor branchU).moved magicMain = false := by decide
  have hbase : stripPrefix magicPrefix magicMain = some "main".toList := by decide
  have hfull : strangerEnv.actor.isEmpty = false := by decide
  show ((takeMagicPushes (freeNames strangerEnv.actor branchU) strangerEnv.actor branchU (received
    plainLibrary (fun _ => true) strangerEnv branchU [proposal (pushedOver firstCommit)])).1).lookup
      magicMain = _
  rw [hafter, takeMagicPushes, hfull, hkeys]
  simp [takeNames, hbase, hfree, hblocked]

end Setfork.MagicAuthors
