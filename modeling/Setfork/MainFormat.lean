/- MainFormat
   digest: The tree of main in every run: it leaves the format exactly when a push moves main to a
   commit that the hook does not see whole. -/
import Setfork.PlacedFiles

set_option autoImplicit false
set_option relaxedAutoImplicit false

namespace Setfork.MainFormat

open Setfork.Foundation
open Setfork.Serialize
open Setfork.Rows
open Setfork.Readme (versionFiles)
open Setfork.TreeRule
open Setfork.Authored
open Setfork.AuthoredDoors
open Setfork.VersionTree
open Setfork.CarriedTree
open Setfork.Repository
open Setfork.History
open Setfork.Alignment
open Setfork.WebVersion
open Setfork.Push
open Setfork.Received
open Setfork.Branches
open Setfork.Service
open Setfork.PlacedFiles

def updates (applied : Text → Bool) : Refs → List RefCommand → List Refs
  | _, [] => []
  | refs, cmd :: commands =>
    applyCommand applied refs cmd :: updates applied (applyCommand applied refs cmd) commands

/-- The commit a command moves main to: git takes it when it names the object main holds. -/
def movedTo (applied : Text → Bool) (held : Option Target) (cmd : RefCommand) : Option Commit :=
  match cmd.new with
  | some (.commit c) =>
    if cmd.ref = mainRef ∧ applied mainRef = true ∧ held = cmd.old then some c else none
  | _ => none

def mainMoves (applied : Text → Bool) : Option Target → List RefCommand → List Commit
  | _, [] => []
  | held, cmd :: commands =>
    match movedTo applied held cmd with
    | none => mainMoves applied held commands
    | some c => c :: mainMoves applied (some (.commit c)) commands

theorem mem_mainMoves {applied : Text → Bool} {held : Option Target} {commands : List RefCommand}
    {c : Commit} (h : c ∈ mainMoves applied held commands) :
    ∃ cmd ∈ commands, cmd.new = some (.commit c) := by
  induction commands generalizing held with
  | nil => cases h
  | cons cmd commands ih =>
    have hlater : ∀ held', c ∈ mainMoves applied held' commands →
        ∃ cmd' ∈ cmd :: commands, cmd'.new = some (.commit c) := by
      intro held' hc
      obtain ⟨cmd', hcmd, hnew⟩ := ih hc
      exact ⟨cmd', List.mem_cons_of_mem cmd hcmd, hnew⟩
    rw [mainMoves] at h
    cases hmove : movedTo applied held cmd with
    | none =>
      rw [hmove] at h
      exact hlater held h
    | some d =>
      rw [hmove] at h
      rcases List.mem_cons.mp h with rfl | h
      · refine ⟨cmd, List.mem_cons_self, ?_⟩
        unfold movedTo at hmove
        split at hmove
        · rename_i e hnew
          split_ifs at hmove
          rw [hnew, Option.some.inj hmove]
        · cases hmove
      · exact hlater _ h

theorem applyCommands_mem (applied : Text → Bool) (refs : Refs) (commands : List RefCommand) :
    applyCommands applied refs commands ∈ refs :: updates applied refs commands := by
  induction commands generalizing refs with
  | nil => exact List.mem_cons_self
  | cons cmd commands ih => exact List.mem_cons_of_mem refs (ih (applyCommand applied refs cmd))

section Updates

variable {lib : GitLibrary} {env : HookEnv} {before : Refs}

theorem movedTo_of_ne (applied : Text → Bool) (held : Option Target) {cmd : RefCommand}
    (h : cmd.ref ≠ mainRef) : movedTo applied held cmd = none := by
  unfold movedTo
  split
  · exact if_neg fun hall => h hall.1
  · rfl

theorem lookup_applyCommand (applied : Text → Bool) (refs : Refs) {cmd : RefCommand}
    (h : Admitted lib env before cmd) : (applyCommand applied refs cmd).lookup mainRef =
      ((movedTo applied (refs.lookup mainRef) cmd).map .commit).or (refs.lookup mainRef) := by
  by_cases href : cmd.ref = mainRef
  · obtain ⟨t, ht, -⟩ := (nameRefusal_eq_none h.name).2 href
    rw [applyCommand, movedTo, ht, href]
    cases t with
    | object id tagged =>
      have hfits : fitsBranch mainRef (some (.object id tagged)) = false := rfl
      simp [hfits]
    | commit c =>
      have hfits : fitsBranch mainRef (some (.commit c)) = true := rfl
      by_cases hgit : applied mainRef = true ∧ refs.lookup mainRef = cmd.old
      · simp [hfits, hgit.1, hgit.2]
      · have hleft : ¬ (applied mainRef && fitsBranch mainRef (some (.commit c)) &&
            decide (refs.lookup mainRef = cmd.old)) = true := by
          simpa [hfits] using hgit
        have hright : ¬ (mainRef = mainRef ∧ applied mainRef = true ∧
            refs.lookup mainRef = cmd.old) := fun hall => hgit hall.2
        rw [if_neg hleft]
        dsimp only
        rw [if_neg hright]
        rfl
  · rw [movedTo_of_ne applied _ href, Option.map_none, Option.none_or]
    rcases applyCommand_cases applied refs cmd with hsame | ⟨-, herase⟩ | ⟨t, -, -, -, hinsert⟩
    · rw [hsame]
    · rw [herase, AList.lookup_erase_ne (Ne.symm href)]
    · rw [hinsert, AList.lookup_insert_ne (Ne.symm href)]

theorem updates_main_iff {Good : Commit → Prop} (applied : Text → Bool)
    {commands : List RefCommand} (hadmitted : ∀ cmd ∈ commands, Admitted lib env before cmd)
    {refs : Refs} (hstart : ∀ c, refs.lookup mainRef = some (.commit c) → Good c) :
    (∀ r ∈ updates applied refs commands, ∀ c, r.lookup mainRef = some (.commit c) → Good c) ↔
      ∀ c ∈ mainMoves applied (refs.lookup mainRef) commands, Good c := by
  induction commands generalizing refs with
  | nil => simp [updates, mainMoves]
  | cons cmd commands ih =>
    have hrest := fun other h => hadmitted other (List.mem_cons_of_mem cmd h)
    have hnext := lookup_applyCommand applied refs (hadmitted cmd List.mem_cons_self)
    rw [updates, mainMoves, List.forall_mem_cons]
    cases hmove : movedTo applied (refs.lookup mainRef) cmd with
    | none =>
      rw [hmove, Option.map_none, Option.none_or] at hnext
      have hgood : ∀ c, (applyCommand applied refs cmd).lookup mainRef = some (.commit c) →
          Good c := fun c hc => hstart c (hnext.symm.trans hc)
      rw [ih hrest hgood, hnext]
      exact and_iff_right hstart
    | some d =>
      rw [hmove, Option.map_some, Option.some_or] at hnext
      rw [List.forall_mem_cons]
      have hone : (∀ c, (applyCommand applied refs cmd).lookup mainRef = some (.commit c) →
          Good c) ↔ Good d := by
        rw [hnext]
        constructor
        · exact fun h => h d rfl
        · intro h c hc
          rw [← Target.commit.inj (Option.some.inj hc)]
          exact h
      rw [hone]
      apply and_congr_right
      intro hd
      rw [ih hrest (hone.mpr hd), hnext]

theorem orderly_applyCommand (applied : Text → Bool) (hbefore : Orderly before) {cmd : RefCommand}
    (h : Admitted lib env before cmd) {refs : Refs} (hrefs : Orderly refs) :
    Orderly (applyCommand applied refs cmd) := by
  constructor
  · rcases applyCommand_cases applied refs cmd with hsame | ⟨-, herase⟩ | ⟨t, ht, -, -, hinsert⟩
    · rw [hsame]
      exact hrefs.placed
    · rw [herase]
      exact hrefs.placed.erase cmd.ref
    · rw [hinsert]
      apply hrefs.placed.insert
      intro tip htip c hreach
      by_cases hold : before.Reachable c
      · exact hbefore.placed c hold
      · have hnew := (lib.mem_revList before t c).mpr ⟨tip, htip, hreach, hold⟩
        exact placed_of_pathsPass (h.commits t ht c hnew).paths
  · obtain ⟨c, hc⟩ := hrefs.main
    rw [lookup_applyCommand applied refs h, hc]
    cases movedTo applied (some (.commit c)) cmd with
    | none => exact ⟨c, rfl⟩
    | some d => exact ⟨d, rfl⟩

theorem orderly_received (applied : Text → Bool) (commands : List RefCommand)
    (hbefore : Orderly before) : Orderly (received lib applied env before commands) :=
  received_invariant applied (fun _ _ h _ hrefs => orderly_applyCommand applied hbefore h hrefs)
    hbefore

theorem keeps_takeMagicPushes (f : MagicFaults) (actor : Text) {refs : Refs}
    (h : Refs.All PlacedCommit refs) : Keeps refs (takeMagicPushes f actor before refs).1 := by
  refine ⟨?_, Or.inl (lookup_takeMagicPushes_main f actor before refs)⟩
  apply takeMagicPushes_invariant f actor before _ _ h
  · exact fun r name _ hr => hr.erase name
  · exact fun r name base t _ ht _ hr => hr.insert (hr.holds ht)

theorem keeps_receivePack (core : Core) (f : PushFaults) (commands : List RefCommand)
    (list : Option ListState) (hbefore : Orderly before) :
    Keeps (received lib f.applied env before commands)
      (receivePack core lib f env commands before list).refs := by
  have hreceived := @orderly_received lib env before f.applied commands hbefore
  have htaken := @keeps_takeMagicPushes before f.magic env.actor _ hreceived.placed
  unfold receivePack
  dsimp only
  split_ifs
  · exact .refl hreceived.placed
  · exact htaken
  · cases list with
    | none => exact htaken
    | some s =>
      exact htaken.trans (keeps_projectMainOrLog f.first f.second s (htaken.orderly hreceived))
  · exact htaken

end Updates

section Operations

variable {core : Core} {lib : GitLibrary} {refs : Refs}

theorem keeps_onRefs {change : Refs → Except BranchRefusal Refs} (list : Option ListState)
    (h : Orderly refs) (hchange : ∀ changed, change refs = .ok changed → Keeps refs changed) :
    ∃ after, (onRefs change ⟨.repo refs, list⟩).disk = .repo after ∧ Keeps refs after := by
  unfold onRefs
  dsimp only
  cases hok : change refs with
  | error e => exact ⟨refs, rfl, .refl h.placed⟩
  | ok changed => exact ⟨changed, rfl, hchange changed hok⟩

theorem keeps_afterMerge (first second : ProjectionFaults)
    {merged : Refs → Except BranchRefusal Refs} (list : Option ListState) (h : Orderly refs)
    (hmerged : ∀ moved, merged refs = .ok moved → Keeps refs moved) :
    ∃ after, (afterMerge core first second merged ⟨.repo refs, list⟩).disk = .repo after ∧
      Keeps refs after := by
  unfold afterMerge
  dsimp only
  cases hok : merged refs with
  | error e => exact ⟨refs, rfl, .refl h.placed⟩
  | ok moved =>
    have hmoved := hmerged moved hok
    cases list with
    | none => exact ⟨moved, rfl, hmoved⟩
    | some s =>
      exact ⟨_, rfl, hmoved.trans (keeps_projectMainOrLog first second s (hmoved.orderly h))⟩

def afterUpdates (lib : GitLibrary) : Op → Refs → Refs
  | .push f env commands, refs => received lib f.applied env refs commands
  | _, refs => refs

theorem keeps_step (op : Op) (list : Option ListState) (h : Orderly refs) :
    ∃ after, (step core lib op ⟨.repo refs, list⟩).disk = .repo after ∧
      Keeps (afterUpdates lib op refs) after := by
  cases op with
  | ensure f => exact keeps_sync f list h
  | align f => exact keeps_sync f list h
  | web f edit => exact keeps_web f list edit h
  | push f env commands =>
    exact ⟨_, rfl, keeps_receivePack core f commands list h⟩
  | reproject f =>
    cases list with
    | none => exact ⟨refs, rfl, .refl h.placed⟩
    | some s => exact ⟨_, rfl, keeps_project f s h⟩
  | createBranch written name origin => exact keeps_onRefs list h fun _ => keeps_createBranch h
  | deleteBranch written name => exact keeps_onRefs list h fun _ => keeps_deleteBranch h
  | commitToBranch written branch listJson expectedTip stamp =>
    exact keeps_onRefs list h fun _ => keeps_commitToBranch h
  | updateBranch written name stamp => exact keeps_onRefs list h fun _ => keeps_updateBranch h
  | mergeBranch written first second name squash stamp =>
    exact keeps_afterMerge first second list h fun _ => keeps_mergeBranch h
  | mergeResolved written first second branch listJson squash stamp =>
    exact keeps_afterMerge first second list h fun _ => keeps_mergeResolved h
  | createTag written name version => exact keeps_onRefs list h fun _ => keeps_createTag h

theorem orderly_afterUpdates (op : Op) (h : Orderly refs) : Orderly (afterUpdates lib op refs) := by
  cases op with
  | push f env commands => exact orderly_received f.applied commands h
  | _ => exact h

end Operations

/-- A tip of main in the format: later versions that carry its files over are never refused for
the shape of the tree. -/
structure MainFits (core : Core) (c : Commit) : Prop where
  canon : (c.tree.get "list.json".toList).isSome = true
  paths : firstForeignPath c.tree = none
  authored : authoredViolation c.tree = none
  carried : ∀ v t, buildTree core.reserved (versionFiles core.schemaUrl v) (some c.tree) .carry =
    some t → mainViolation t = none

theorem mainFits_iff {core : Core} {c : Commit} :
    MainFits core c ↔ mainViolation c.tree = none := by
  rw [mainViolation_eq_none_iff]
  constructor
  · exact fun h => ⟨h.canon, h.paths, h.authored⟩
  · rintro ⟨hcanon, hpaths, hauthored⟩
    refine ⟨hcanon, hpaths, hauthored, fun v t ht => ?_⟩
    apply inFormat_carried ht
    intro p hp
    rw [← Option.some.inj hp]
    exact ⟨hpaths, hauthored⟩

/-- The commit main points at is in the format. -/
def InFormat (core : Core) (st : State) : Prop :=
  ∀ refs c, st.disk = .repo refs → refs.lookup mainRef = some (.commit c) → MainFits core c

theorem inFormat_repo_iff {core : Core} {refs : Refs} {list : Option ListState} :
    InFormat core ⟨.repo refs, list⟩ ↔
      ∀ c, refs.lookup mainRef = some (.commit c) → mainViolation c.tree = none := by
  constructor
  · exact fun h c hc => mainFits_iff.mp (h refs c rfl hc)
  · intro h refs' c hrefs hc
    cases hrefs
    exact mainFits_iff.mpr (h c hc)

theorem inFormat_of_keeps {core : Core} {before after : Refs} {list list' : Option ListState}
    (h : Keeps before after) (hbefore : InFormat core ⟨.repo before, list⟩) :
    InFormat core ⟨.repo after, list'⟩ := by
  rw [inFormat_repo_iff] at hbefore ⊢
  intro c hc
  rcases h.main with hsame | ⟨d, hd, hformat⟩
  · exact hbefore c (hsame.symm.trans hc)
  · rw [← Refs.commit_unique hd hc]
    exact hformat

/-- What the hook leaves open about a commit that a push moves main to: names the core does not
take, the bytes of paths, directories without leaves, and the limits of a commit some reference
already leads to. -/
structure FitsUnseen (refs : Refs) (c : Commit) : Prop where
  names : ∀ p ∈ c.tree.paths, ¬ Stray p
  bytes : countedBytes c.tree ≤ authoredMaxBytes
  flat : ¬ HasSubdirectory c.tree
  known : refs.Reachable c → WithinLimits c.tree

theorem mainViolation_iff_fitsUnseen {lib : GitLibrary} {env : HookEnv} {refs : Refs}
    {cmd : RefCommand} {c : Commit} (hrefs : Orderly refs) (h : Admitted lib env refs cmd)
    (hnew : cmd.new = some (.commit c)) : mainViolation c.tree = none ↔ FitsUnseen refs c := by
  have hcanon : (c.tree.get "list.json".toList).isSome = true := by
    have hthere : entryThere env (c.tree.get "list.json".toList) = true := h.canon _ hnew
    cases hget : c.tree.get "list.json".toList with
    | none =>
      rw [hget] at hthere
      cases hthere
    | some e => rfl
  have hjudged : ¬ refs.Reachable c → CommitAdmitted c := fun hnot =>
    h.commits _ hnew c ((lib.mem_revList refs _ c).mpr ⟨c, rfl, .refl, hnot⟩)
  have hplaced : ∀ p ∈ c.tree.paths, Placed p := by
    by_cases hold : refs.Reachable c
    · exact hrefs.placed c hold
    · exact placed_of_pathsPass (hjudged hold).paths
  rw [mainViolation_eq_none_iff, firstForeignPath_eq_none_iff,
    authoredViolation_iff_withinLimits hplaced]
  constructor
  · rintro ⟨-, hnames, hlimits, hbytes, hflat⟩
    refine ⟨fun p hp => ?_, hbytes, hflat, fun _ => hlimits⟩
    exact ((leafAllowed_iff_placed p).mp (hnames p hp)).2
  · intro hfits
    refine ⟨hcanon, fun p hp => ?_, ?_, hfits.bytes, hfits.flat⟩
    · exact (leafAllowed_iff_placed p).mpr ⟨hplaced p hp, hfits.names p hp⟩
    · by_cases hold : refs.Reachable c
      · exact hfits.known hold
      · exact (hjudged hold).limits

theorem updates_fit_iff {lib : GitLibrary} {env : HookEnv} {refs : Refs} (applied : Text → Bool)
    {commands : List RefCommand} (hrefs : Orderly refs)
    (hadmitted : ∀ cmd ∈ commands, Admitted lib env refs cmd)
    (hstart : ∀ c, refs.lookup mainRef = some (.commit c) → mainViolation c.tree = none) :
    (∀ r ∈ updates applied refs commands, ∀ c, r.lookup mainRef = some (.commit c) →
      mainViolation c.tree = none) ↔
    ∀ c ∈ mainMoves applied (refs.lookup mainRef) commands, FitsUnseen refs c := by
  rw [@updates_main_iff lib env refs (fun c => mainViolation c.tree = none) applied commands
    hadmitted refs hstart]
  have hone : ∀ c ∈ mainMoves applied (refs.lookup mainRef) commands,
      (mainViolation c.tree = none ↔ FitsUnseen refs c) := by
    intro c hc
    obtain ⟨cmd, hcmd, hnew⟩ := mem_mainMoves hc
    exact mainViolation_iff_fitsUnseen hrefs (hadmitted cmd hcmd) hnew
  constructor
  · exact fun h c hc => (hone c hc).mp (h c hc)
  · exact fun h c hc => (hone c hc).mpr (h c hc)

section Runs

variable (core : Core) (lib : GitLibrary)

/-- The states inside of an operation in which main may stand elsewhere than before and after it:
the updates of a push one by one, and the alignment before an edit. -/
def passes : Op → State → List State
  | .push f env commands, st =>
    match st.disk with
    | .repo refs =>
      match preReceive lib env refs commands with
      | .error _ => []
      | .ok _ => (updates f.applied refs commands).map (fun r => ⟨.repo r, st.list⟩)
    | _ => []
  | .web f _, st =>
    let synced := syncRepoWithDb core f.sync st.disk st.list
    [⟨synced.disk, synced.list⟩]
  | _, _ => []

/-- The commits an accepted push moves main to keep what the hook leaves open. -/
def PushFits : Op → State → Prop
  | .push f env commands, st =>
    ∀ refs, st.disk = .repo refs → (∃ seen, preReceive lib env refs commands = .ok seen) →
      ∀ c ∈ mainMoves f.applied (refs.lookup mainRef) commands, FitsUnseen refs c
  | _, _ => True

/-- The repository of a list, made of its first version or of its rows, with main in it. -/
inductive Born : State → Prop
  | created (f : WriteFaults) (v : VersionData) (authored : AuthoredSource)
      (list : Option ListState) (hmain : mainRef ∈ (initWithVersion core f v authored).1) :
      Born ⟨.repo (initWithVersion core f v authored).1, list⟩
  | bootstrapped (f : WriteFaults) (versions : List VersionData) (list : Option ListState)
      (hmain : mainRef ∈ (buildHistory core f ∅ versions none .carry).1) :
      Born ⟨.repo (buildHistory core f ∅ versions none .carry).1, list⟩

def InOrder (st : State) : Prop := ∃ refs, st.disk = .repo refs ∧ Orderly refs

variable {core} {lib}

theorem keeps_init (f : WriteFaults) (v : VersionData) (authored : AuthoredSource) :
    Keeps ∅ (initWithVersion core f v authored).1 := by
  have hbuilt : Keeps ∅ (buildHistory core f ∅ [v] none authored).1 :=
    keeps_buildHistory f [v] authored .empty fun p hp => absurd hp (Option.not_mem_none p)
  have hsame : Keeps ∅ ∅ := .refl .empty
  unfold initWithVersion appendVersionWith
  dsimp only
  split
  · exact hsame
  · exact hbuilt

theorem born_repo {st : State} (h : Born core st) : InOrder st ∧ InFormat core st := by
  have hkept : ∀ (refs : Refs) (list : Option ListState), mainRef ∈ refs → Keeps ∅ refs →
      InOrder ⟨.repo refs, list⟩ ∧ InFormat core ⟨.repo refs, list⟩ := by
    intro refs list hmain hrefs
    rcases hrefs.main with hsame | ⟨c, hc, -⟩
    · rw [← AList.lookup_isSome, hsame] at hmain
      cases hmain
    · refine ⟨⟨refs, rfl, hrefs.placed, c, hc⟩, ?_⟩
      apply @inFormat_of_keeps core ∅ refs list list hrefs
      exact inFormat_repo_iff.mpr fun d hd => by cases hd
  cases h with
  | created f v authored list hmain => exact hkept _ list hmain (keeps_init f v authored)
  | bootstrapped f versions list hmain =>
    exact hkept _ list hmain (keeps_buildHistory f versions .carry .empty fun p hp =>
      absurd hp (Option.not_mem_none p))

theorem inOrder_step (op : Op) {st : State} (h : InOrder st) : InOrder (step core lib op st) := by
  obtain ⟨disk, list⟩ := st
  obtain ⟨refs, rfl, hrefs⟩ := h
  obtain ⟨after, hafter, hkept⟩ := @keeps_step core lib refs op list hrefs
  exact ⟨after, hafter, hkept.orderly (orderly_afterUpdates op hrefs)⟩

theorem inFormat_step_iff (op : Op) {st : State} (hst : InOrder st)
    (hformat : InFormat core st) :
    ((∀ s ∈ passes core lib op st, InFormat core s) ∧ InFormat core (step core lib op st)) ↔
      PushFits lib op st := by
  obtain ⟨disk, list⟩ := st
  obtain ⟨refs, rfl, hrefs⟩ := hst
  obtain ⟨after, hafter, hkept⟩ := @keeps_step core lib refs op list hrefs
  have hstep : ∀ before, Keeps before after → InFormat core ⟨.repo before, list⟩ →
      InFormat core (step core lib op ⟨.repo refs, list⟩) := by
    intro before hkeeps hbefore
    have hnext : InFormat core ⟨.repo after, (step core lib op ⟨.repo refs, list⟩).list⟩ :=
      inFormat_of_keeps hkeeps hbefore
    rwa [← hafter] at hnext
  cases op with
  | push f env commands =>
    cases hpass : preReceive lib env refs commands with
    | error e =>
      have hsame : afterUpdates lib (.push f env commands) refs = refs := by
        simp only [afterUpdates, received, hpass]
      rw [hsame] at hkept
      simp only [passes, hpass, PushFits]
      constructor
      · rintro - refs' hrefs' ⟨seen, hseen⟩
        cases hrefs'
        rw [hpass] at hseen
        cases hseen
      · exact fun _ => ⟨fun s hs => absurd hs List.not_mem_nil, hstep refs hkept hformat⟩
    | ok seen =>
      have hadmitted := (preReceive_isOk_iff env refs commands).mp ⟨seen, hpass⟩
      have hstart := inFormat_repo_iff.mp hformat
      have hfits := updates_fit_iff f.applied hrefs hadmitted hstart
      have hpassed : (∀ s ∈ passes core lib (.push f env commands) ⟨.repo refs, list⟩,
          InFormat core s) ↔ ∀ r ∈ updates f.applied refs commands, ∀ c,
            r.lookup mainRef = some (.commit c) → mainViolation c.tree = none := by
        simp only [passes, hpass, List.forall_mem_map, inFormat_repo_iff]
      have hmeets : PushFits lib (.push f env commands) ⟨.repo refs, list⟩ ↔
          ∀ c ∈ mainMoves f.applied (refs.lookup mainRef) commands, FitsUnseen refs c := by
        constructor
        · exact fun h => h refs rfl ⟨seen, hpass⟩
        · intro h refs' hrefs' _
          cases hrefs'
          exact h
      rw [hmeets, ← hfits, ← hpassed]
      apply and_iff_left_of_imp
      intro h
      apply hstep _ hkept
      have hdone : afterUpdates lib (.push f env commands) refs =
          applyCommands f.applied refs commands := by
        simp only [afterUpdates, received, hpass]
      rw [hdone, inFormat_repo_iff]
      rcases List.mem_cons.mp (applyCommands_mem f.applied refs commands) with hsame | hlast
      · rw [hsame]
        exact hstart
      · exact hpassed.mp h _ hlast
  | web f edit =>
    refine ⟨fun _ => trivial, fun _ => ⟨fun s hs => ?_, hstep refs hkept hformat⟩⟩
    obtain ⟨synced, hsynced, hsync⟩ := @keeps_sync core refs f.sync list hrefs
    have hinside : InFormat core ⟨.repo synced, (syncRepoWithDb core f.sync (.repo refs) list).list⟩ :=
      inFormat_of_keeps hsync hformat
    rw [← hsynced] at hinside
    rw [List.mem_singleton.mp hs]
    exact hinside
  | _ =>
    exact ⟨fun _ => trivial, fun _ =>
      ⟨fun s hs => absurd hs List.not_mem_nil, hstep refs hkept hformat⟩⟩

/-- Every tip main ever has is in the format exactly when every accepted push moves main to commits
that keep what the hook leaves open. -/
theorem main_in_format_iff {st : State} (hborn : Born core st) (ops : List Op) :
    (∀ s ∈ Runs.trail (step core lib) (passes core lib) ops st, InFormat core s) ↔
      ∀ i (h : i < ops.length), PushFits lib ops[i] (run core lib (ops.take i) st) := by
  obtain ⟨horder, hformat⟩ := born_repo hborn
  exact Runs.trail_all_iff (step core lib) (passes core lib) (fun op _ h => inOrder_step op h)
    (fun op _ h hgood => inFormat_step_iff op h hgood) ops horder hformat

end Runs

/-- The owner pushes one commit over another one to main, and nothing fails. -/
def plainPush (c d : Commit) : Op :=
  .push ⟨true, fun _ => true, ⟨fun _ => true, fun _ => true⟩, (steady 0).projection,
    (steady 0).projection⟩ ownerEnv [overMain c d]

theorem mainMoves_overMain {refs : Refs} {c : Commit}
    (hmain : refs.lookup mainRef = some (.commit c)) (d : Commit) :
    mainMoves (fun _ => true) (refs.lookup mainRef) [overMain c d] = [d] := by
  simp [mainMoves, movedTo, overMain, hmain]

def bornVersion : VersionData := CanonMirror.createVersionData CanonMirror.plainMeta [] 0 []

theorem exists_born : ∃ refs c, Born canonCore ⟨.repo refs, none⟩ ∧
    refs.lookup mainRef = some (.commit c) := by
  have hnames : NamesFree canonCore.reserved := fun _ _ _ _ => rfl
  obtain ⟨refs, c, hinit, hmain⟩ := initWithVersion_carried hnames bornVersion
  have hborn := @Born.created canonCore ⟨true, fun _ => true⟩ bornVersion .carry none
  rw [hinit] at hborn
  refine ⟨refs, c, hborn ?_, hmain⟩
  rw [← AList.lookup_isSome, hmain]
  rfl

theorem main_in_format_canon_push : ∃ refs c,
    Born canonCore ⟨.repo refs, none⟩ ∧ refs.lookup mainRef = some (.commit c) ∧
    ∀ s ∈ Runs.trail (step canonCore plainLibrary) (passes canonCore plainLibrary)
      [plainPush c (.mk (listTree bornVersion) [c] ⟨[], [], 0⟩)] ⟨.repo refs, none⟩,
      InFormat canonCore s := by
  obtain ⟨refs, c, hborn, hmain⟩ := exists_born
  refine ⟨refs, c, hborn, hmain, (main_in_format_iff hborn _).mpr fun i hi => ?_⟩
  obtain ⟨⟨refs', hrefs', horder⟩, -⟩ := born_repo hborn
  cases hrefs'
  obtain rfl : i = 0 := by simpa using hi
  intro refs' hrefs' _ d hd
  cases hrefs'
  rw [mainMoves_overMain hmain, List.mem_singleton] at hd
  rw [hd]
  have hadmitted := admitted_listTree plainLibrary hmain bornVersion ⟨[], [], 0⟩
  exact (mainViolation_iff_fitsUnseen horder hadmitted rfl).mp (listTree_violation bornVersion)

theorem admitted_script {refs : Refs} {c : Commit}
    (hmain : refs.lookup mainRef = some (.commit c)) : Admitted plainLibrary ownerEnv refs
      (overMain c (.mk (scriptTree (List.replicate authoredMaxBytes 35)) [c] ⟨[], [], 0⟩)) := by
  have htext : (0 : UInt8) ∉ List.replicate authoredMaxBytes 35 := fun h =>
    absurd (List.eq_of_mem_replicate h) (by decide)
  have hlength := le_of_eq (List.length_replicate (n := authoredMaxBytes) (a := (35 : UInt8)))
  apply admitted_overMain rfl hmain rfl _ _ rfl
  · rw [hasCanon, Commit.tree, scriptTree_get]
    rfl
  · exact ⟨scriptTree_pathsPass _, scriptTree_withinLimits hlength htext⟩

/-- The hook takes a script of exactly the limit, and main leaves the format. -/
theorem pushed_script_over_limit : ∃ refs c,
    Born canonCore ⟨.repo refs, none⟩ ∧ refs.lookup mainRef = some (.commit c) ∧
    ¬ ∀ s ∈ Runs.trail (step canonCore plainLibrary) (passes canonCore plainLibrary)
      [plainPush c (.mk (scriptTree (List.replicate authoredMaxBytes 35)) [c] ⟨[], [], 0⟩)]
      ⟨.repo refs, none⟩, InFormat canonCore s := by
  obtain ⟨refs, c, hborn, hmain⟩ := exists_born
  refine ⟨refs, c, hborn, hmain, fun hall => ?_⟩
  obtain ⟨horder, hformat⟩ := born_repo hborn
  have hone := (inFormat_step_iff _ horder hformat).mp
    ⟨fun s hs => hall s (List.mem_cons_of_mem _ (List.mem_append_left _ hs)),
      hall _ (List.mem_cons_of_mem _ (List.mem_append_right _ (List.mem_singleton_self _)))⟩
  have hpass := (preReceive_isOk_iff ownerEnv refs [overMain c _]).mpr (by
    simpa using admitted_script hmain)
  have hfits := hone refs rfl hpass (.mk (scriptTree _) [c] ⟨[], [], 0⟩) (by
    rw [mainMoves_overMain hmain]
    exact List.mem_singleton_self _)
  have hbytes : countedBytes (scriptTree (List.replicate authoredMaxBytes 35)) ≤
      authoredMaxBytes := hfits.bytes
  rw [scriptTree_countedBytes, List.length_replicate] at hbytes
  omega

end Setfork.MainFormat
