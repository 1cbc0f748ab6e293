/- VersionShas
   digest: The commits of versions read off all tags at once, and of one version off its own tag. -/
import Setfork.TagRuns

set_option autoImplicit false
set_option relaxedAutoImplicit false

namespace Setfork.VersionShas

open Setfork.Foundation
open Setfork.TreeRule (stripPrefix_eq_some)
open Setfork.Serialize
open Setfork.Rows
open Setfork.Authored
open Setfork.VersionTree
open Setfork.Repository
open Setfork.History
open Setfork.Alignment
open Setfork.WebVersion
open Setfork.Push
open Setfork.Received
open Setfork.Branches
open Setfork.Service
open Setfork.Healing (firstCommit)
open Setfork.TagRuns

/-- The printed ids of commits. -/
structure CommitIds where
  print : Commit → Text
  print_ne : ∀ c, print c ≠ []

/-- The references under a glob, in the order in which git lists them. -/
structure Listing (refs : Refs) where
  names : List Text
  perm : names.Perm (refs.keys.filter (fun ref => "refs/tags/v".toList.isPrefixOf ref))

abbrev Shas := AList (fun _ : Nat => Text)

section Readings

variable (ids : CommitIds)

/-- The commit a reference leads to, through annotated tags. -/
def peelToCommit (refs : Refs) (ref : Text) : Option Commit := (refs.lookup ref).bind Target.peel

/-- One tag of the listing: a later tag of the same number wins. -/
def insertSha (refs : Refs) (out : Shas) (ref : Text) : Shas :=
  match tagVersion ref, peelToCommit refs ref with
  | some n, some c => out.insert n (ids.print c)
  | _, _ => out

/-- The repository, when the volume is set and it opens. -/
def opened (volume : Bool) : Disk → Option Refs
  | .repo refs => if volume then some refs else none
  | _ => none

/-- The commits of all versions. -/
def versionShas (order : ∀ refs, Listing refs) (volume : Bool) (disk : Disk) : Shas :=
  match opened volume disk with
  | none => ∅
  | some refs => (order refs).names.foldl (insertSha ids refs) ∅

/-- The commit of one version, empty when there is none. -/
def versionShaOne (volume : Bool) (disk : Disk) (version : Int) : Text :=
  match opened volume disk with
  | none => []
  | some refs => ((peelToCommit refs (tagRef (versionTag version))).map ids.print).getD []

/-- Both say the same of a version: absent in the one, empty in the other. -/
def Agree (order : ∀ refs, Listing refs) (volume : Bool) (disk : Disk) (version : Nat) : Prop :=
  ((versionShas ids order volume disk).lookup version).getD [] =
    versionShaOne ids volume disk version ∧
  ((versionShas ids order volume disk).lookup version = none ↔
    versionShaOne ids volume disk version = [])

end Readings

section Last

variable {ids : CommitIds} {refs : Refs} {n : Nat}

def heard (ids : CommitIds) (refs : Refs) (n : Nat) (ref : Text) : Option Text :=
  if tagVersion ref = some n then (peelToCommit refs ref).map ids.print else none

private theorem lookup_insertSha (out : Shas) (ref : Text) :
    (insertSha ids refs out ref).lookup n = (heard ids refs n ref).or (out.lookup n) := by
  unfold insertSha heard
  cases htag : tagVersion ref with
  | none => simp
  | some k =>
    cases hpeel : peelToCommit refs ref with
    | none => simp
    | some c =>
      by_cases hk : k = n
      · subst hk
        simp
      · have hne : some k ≠ some n := fun h => hk (Option.some.inj h)
        rw [if_neg hne]
        exact AList.lookup_insert_ne (Ne.symm hk)

theorem lookup_foldl_insertSha (names : List Text) (out : Shas) :
    (names.foldl (insertSha ids refs) out).lookup n =
      (names.reverse.findSome? (heard ids refs n)).or (out.lookup n) := by
  induction names generalizing out with
  | nil => rfl
  | cons ref names ih =>
    rw [List.foldl_cons, ih, lookup_insertSha, List.reverse_cons, List.findSome?_append,
      List.findSome?_singleton, Option.or_assoc]

theorem lookup_versionShas (order : ∀ refs, Listing refs) :
    (versionShas ids order true (.repo refs)).lookup n =
      (order refs).names.reverse.findSome? (heard ids refs n) := by
  have hfold := @lookup_foldl_insertSha ids refs n (order refs).names ∅
  rw [AList.lookup_empty, Option.or_none] at hfold
  exact hfold

theorem glob_of_version {ref : Text} (hn : tagVersion ref = some n) :
    "refs/tags/v".toList.isPrefixOf ref = true := by
  obtain ⟨name, hname, hversion⟩ := Option.bind_eq_some_iff.mp hn
  have hsplit : "refs/tags/v".toList = "refs/tags/".toList ++ ['v'] := by decide
  rw [stripPrefix_eq_some.mp hname, hsplit, List.isPrefixOf_iff_prefix, List.prefix_append_right_inj]
  cases name with
  | nil => cases hversion
  | cons c rest =>
    by_cases hc : c = 'v'
    · subst hc
      exact List.prefix_append ['v'] rest
    · unfold versionOfTag at hversion
      split at hversion
      · rename_i heq
        exact absurd (List.cons.inj heq).1 hc
      · cases hversion

theorem mem_listing {order : Listing refs} {ref : Text} (hn : tagVersion ref = some n) :
    ref ∈ order.names ↔ ref ∈ refs := by
  rw [order.perm.mem_iff, List.mem_filter]
  exact and_iff_left (glob_of_version hn)

theorem heard_eq_some {ref sha : Text} :
    heard ids refs n ref = some sha ↔
      tagVersion ref = some n ∧ ∃ c, peelToCommit refs ref = some c ∧ ids.print c = sha := by
  unfold heard
  split_ifs with hn
  · simp [hn]
  · simp [hn]

theorem heard_of_lookup {order : ∀ refs, Listing refs} {sha : Text}
    (h : (versionShas ids order true (.repo refs)).lookup n = some sha) :
    ∃ ref ∈ refs, heard ids refs n ref = some sha := by
  rw [lookup_versionShas] at h
  obtain ⟨ref, href, hheard⟩ := List.exists_of_findSome?_eq_some h
  refine ⟨ref, ?_, hheard⟩
  rw [← mem_listing (heard_eq_some.mp hheard).1]
  exact List.mem_reverse.mp href

theorem lookup_versionShas_none {order : ∀ refs, Listing refs} :
    (versionShas ids order true (.repo refs)).lookup n = none ↔
      ∀ ref ∈ refs, heard ids refs n ref = none := by
  rw [lookup_versionShas, List.findSome?_eq_none_iff]
  constructor
  · intro h ref href
    cases hheard : heard ids refs n ref with
    | none => rfl
    | some sha =>
      have hmem : ref ∈ (order refs).names := (mem_listing (heard_eq_some.mp hheard).1).mpr href
      rw [h ref (List.mem_reverse.mpr hmem)] at hheard
      cases hheard
  · intro h ref href
    apply h
    have hmem := (order refs).perm.mem_iff.mp (List.mem_reverse.mp href)
    exact AList.mem_keys.mp (List.mem_filter.mp hmem).1

end Last

section Agreement

variable {ids : CommitIds} {refs : Refs} {n : Nat} {order : ∀ refs, Listing refs}

theorem heard_own (hn : n ≤ 2147483647) :
    heard ids refs n (tagRef (versionTag n)) =
      (peelToCommit refs (tagRef (versionTag n))).map ids.print :=
  if_pos (tagVersion_of_fits hn)

private theorem getD_eq_nil_iff {shas : Option Text} (h : ∀ sha ∈ shas, sha ≠ []) :
    shas.getD [] = [] ↔ shas = none := by
  cases shas with
  | none => simp
  | some sha => simpa using h sha rfl

private theorem heard_ne {ref sha : Text} (h : heard ids refs n ref = some sha) : sha ≠ [] := by
  obtain ⟨-, c, -, rfl⟩ := heard_eq_some.mp h
  exact ids.print_ne c

theorem agree_iff (hn : n ≤ 2147483647) :
    Agree ids order true (.repo refs) n ↔
      (versionShas ids order true (.repo refs)).lookup n =
        heard ids refs n (tagRef (versionTag n)) := by
  have hone : versionShaOne ids true (.repo refs) n =
      (heard ids refs n (tagRef (versionTag n))).getD [] := by
    rw [heard_own hn]
    rfl
  have hbulk : ∀ sha ∈ (versionShas ids order true (.repo refs)).lookup n, sha ≠ [] := by
    intro sha hsha
    obtain ⟨ref, -, hheard⟩ := heard_of_lookup hsha
    exact heard_ne hheard
  have hown : ∀ sha ∈ heard ids refs n (tagRef (versionTag n)), sha ≠ [] := fun sha => heard_ne
  unfold Agree
  rw [hone, getD_eq_nil_iff hown]
  constructor
  · intro h
    obtain ⟨hsame, hnone⟩ := h
    cases hlookup : (versionShas ids order true (.repo refs)).lookup n with
    | none => exact (hnone.mp hlookup).symm
    | some sha =>
      rw [hlookup] at hsame hnone
      cases htold : heard ids refs n (tagRef (versionTag n)) with
      | none => exact absurd (hnone.mpr htold) (Option.some_ne_none sha)
      | some own =>
        rw [htold] at hsame
        exact congrArg some hsame
  · intro h
    rw [h]
    exact ⟨rfl, Iff.rfl⟩

/-- Every tag that reads as the version and leads to a commit tells what its own tag tells. -/
def NoRival (ids : CommitIds) (refs : Refs) (n : Nat) : Prop :=
  ∀ ref ∈ refs, tagVersion ref = some n → ∀ c, peelToCommit refs ref = some c →
    ∃ own, peelToCommit refs (tagRef (versionTag n)) = some own ∧ ids.print own = ids.print c

theorem noRival_iff (hn : n ≤ 2147483647) :
    NoRival ids refs n ↔ ∀ ref ∈ refs, ∀ sha, heard ids refs n ref = some sha →
      heard ids refs n (tagRef (versionTag n)) = some sha := by
  have hown : ∀ sha, heard ids refs n (tagRef (versionTag n)) = some sha ↔
      ∃ own, peelToCommit refs (tagRef (versionTag n)) = some own ∧ ids.print own = sha := by
    intro sha
    rw [heard_eq_some, and_iff_right (tagVersion_of_fits hn)]
  simp only [hown]
  constructor
  · intro h ref href sha hsha
    obtain ⟨hversion, c, hc, rfl⟩ := heard_eq_some.mp hsha
    exact h ref href hversion c hc
  · intro h ref href hversion c hc
    exact h ref href _ (heard_eq_some.mpr ⟨hversion, c, hc, rfl⟩)

private theorem mem_of_peelToCommit {ref : Text} {c : Commit} (h : peelToCommit refs ref = some c) :
    ref ∈ refs := by
  obtain ⟨t, ht, -⟩ := Option.bind_eq_some_iff.mp h
  rw [← AList.lookup_isSome, ht]
  rfl

theorem agree_of_noRival (hn : n ≤ 2147483647) (h : NoRival ids refs n) :
    Agree ids order true (.repo refs) n := by
  rw [agree_iff hn]
  rw [noRival_iff hn] at h
  cases hlookup : (versionShas ids order true (.repo refs)).lookup n with
  | some sha =>
    obtain ⟨ref, href, hheard⟩ := heard_of_lookup hlookup
    exact (h ref href sha hheard).symm
  | none =>
    cases htold : heard ids refs n (tagRef (versionTag n)) with
    | none => rfl
    | some sha =>
      obtain ⟨-, c, hc, -⟩ := heard_eq_some.mp htold
      rw [lookup_versionShas_none.mp hlookup _ (mem_of_peelToCommit hc)] at htold
      cases htold

def endingWith (refs : Refs) (ref : Text)
    (href : ref ∈ refs.keys.filter (fun ref => "refs/tags/v".toList.isPrefixOf ref)) :
    Listing refs where
  names := (refs.keys.filter (fun ref => "refs/tags/v".toList.isPrefixOf ref)).erase ref ++ [ref]
  perm := List.perm_append_singleton ref _ |>.trans (List.perm_cons_erase href).symm

/-- The listing by the names as they are kept. -/
def asKept (refs : Refs) : Listing refs := ⟨_, .refl _⟩

theorem noRival_of_agree (hn : n ≤ 2147483647)
    (h : ∀ order : ∀ refs, Listing refs, Agree ids order true (.repo refs) n) :
    NoRival ids refs n := by
  rw [noRival_iff hn]
  intro ref href sha hsha
  have hglob : ref ∈ refs.keys.filter (fun ref => "refs/tags/v".toList.isPrefixOf ref) := by
    rw [List.mem_filter]
    exact ⟨AList.mem_keys.mpr href, glob_of_version (heard_eq_some.mp hsha).1⟩
  have hagree := h (Function.update asKept refs (endingWith refs ref hglob))
  rw [agree_iff hn, lookup_versionShas, Function.update_self] at hagree
  rw [← hagree, endingWith, List.reverse_append, List.reverse_singleton, List.singleton_append,
    List.findSome?_cons, hsha]

end Agreement

/-- The name of a reference among the tags is a `v`, at least one zero more, and the number. -/
def LeadingZero (ref : Text) (n : Nat) : Prop :=
  ∃ k, ref = tagRef ('v' :: (List.replicate (k + 1) '0' ++ Nat.toDigits 10 n))

theorem eq_or_leadingZero {ref : Text} {n : Nat} (h : tagVersion ref = some n) :
    ref = tagRef (versionTag n) ∨ LeadingZero ref n := by
  obtain ⟨name, hname, hversion⟩ := Option.bind_eq_some_iff.mp h
  rw [stripPrefix_eq_some] at hname
  subst hname
  unfold versionOfTag at hversion
  split at hversion
  · rename_i rest
    split_ifs at hversion with hbad hfits
    simp only [Bool.or_eq_true, List.isEmpty_iff, Bool.not_eq_true', not_or,
      Bool.not_eq_false] at hbad
    obtain ⟨k, hk⟩ := eq_zeros_toDigits hbad.1 (List.all_eq_true.mp hbad.2)
    rw [Option.some.inj hversion] at hk
    cases k with
    | zero =>
      left
      rw [hk]
      rfl
    | succ k =>
      right
      exact ⟨k, congrArg (fun rest => tagRef ('v' :: rest)) hk⟩
  · cases hversion

theorem noRival_of_no_zeros {ids : CommitIds} {refs : Refs} {n : Nat}
    (h : ∀ ref ∈ refs, ¬ LeadingZero ref n) : NoRival ids refs n := by
  intro ref href hversion c hc
  rcases eq_or_leadingZero hversion with rfl | hzero
  · exact ⟨c, hc, rfl⟩
  · exact absurd hzero (h ref href)

def Plain (refs : Refs) : Prop :=
  ∀ ref ∈ refs, ∀ n, tagVersion ref = some n → ref = tagRef (versionTag n)

namespace Plain

variable {before after refs : Refs}

protected theorem empty : Plain ∅ := fun _ href => absurd href (AList.notMem_empty _)

theorem noRival {ids : CommitIds} {n : Nat} (h : Plain refs) : NoRival ids refs n := by
  intro ref href hversion c hc
  obtain rfl := h ref href n hversion
  exact ⟨c, hc, rfl⟩

theorem beside (h : Plain before) (hbeside : Beside before after) : Plain after := by
  intro ref href n hversion
  refine h ref ?_ n hversion
  rw [← AList.lookup_isSome, ← hbeside.tags ref (by rw [hversion]; rfl), AList.lookup_isSome]
  exact href

theorem insert_main (h : Plain refs) (t : Target) : Plain (refs.insert mainRef t) :=
  h.beside (.insert tagVersion_mainRef t)

theorem insert_version (h : Plain refs) (version : Int) (t : Target) :
    Plain (refs.insert (tagRef (versionTag version)) t) := by
  intro ref href n hversion
  rcases (AList.mem_insert refs).mp href with rfl | hold
  · rw [tagVersion_versionTag hversion]
  · exact h ref hold n hversion

theorem versionMoves (h : Plain refs) (made : List (Int × Commit)) :
    Plain (refs.setAll (History.versionMoves made)) := by
  induction made generalizing refs with
  | nil => exact h
  | cons m made ih => exact ih (h.insert_version m.1 _)

end Plain

section Writers

variable (core : Core) {refs : Refs}

theorem plain_buildHistory (f : WriteFaults) (versions : List VersionData) (parent : Option Commit)
    (authored : AuthoredSource) (h : Plain refs) :
    Plain (buildHistory core f refs versions parent authored).1 := by
  rcases buildHistory_cases core f refs versions parent authored with hsame | hmoved
  · rw [hsame]
    exact h
  · obtain ⟨made, tip, -, -, -, -, heq⟩ := hmoved
    rw [heq]
    exact (h.insert_main _).versionMoves _

theorem plain_appendMissingVersions (f : WriteFaults) (versions : List VersionData) (h : Plain refs) :
    Plain (appendMissingVersions core f refs versions).1 := by
  unfold appendMissingVersions
  split_ifs
  · exact h
  split
  · exact h
  · exact plain_buildHistory core f versions none .carry h
  · rename_i tip _
    split
    · exact h
    · exact plain_buildHistory core f versions (some tip) .carry h
    · dsimp only
      rw [tagAll_eq]
      exact h.versionMoves _

theorem plain_project (f : ProjectionFaults) (s : ListState) (h : Plain refs) :
    Plain (projectPushedCommit core f refs s).refs := by
  rcases projectPushedCommit_refs core f refs s with hrefs | ⟨tip, -, hrefs⟩
  · rw [hrefs]
    exact h
  · rw [hrefs]
    exact h.insert_version _ _

theorem plain_projectMainOrLog (first second : ProjectionFaults) (s : ListState) (h : Plain refs) :
    Plain (projectMainOrLog core first second refs s).1 := by
  have honce := plain_project core first s h
  have hagain := plain_project core second (projectPushedCommit core first refs s).list honce
  unfold projectMainOrLog
  dsimp only
  split
  · exact honce
  · split
    · exact hagain
    · exact hagain

theorem plain_align (f : SyncFaults) (s : ListState) (highest : Nat) (h : Plain refs) :
    Plain (alignByCounters core f refs s highest).refs := by
  rcases alignByCounters_refs core f refs s highest with hrefs | hrefs | hrefs
  · rw [hrefs]
    exact h
  · rw [hrefs]
    exact plain_project core f.projection s h
  · rw [hrefs]
    exact plain_appendMissingVersions core f.history _ h

theorem plain_healMain (f : SyncFaults) (s : ListState) (highest : Nat) (h : Plain refs) :
    Plain (healMain core f refs s highest).refs := by
  have haligned := plain_align core f s highest h
  rcases healMain_cases core f refs s highest _ rfl _ rfl with
    ⟨e, -, -, heq⟩ | ⟨c, -, -, -, -, heq⟩ | ⟨-, heq⟩
  · rw [heq]
    exact h
  · rw [heq]
    exact plain_align core f s highest (h.insert_main (.commit c))
  · rw [heq]
    split_ifs
    · rcases bootstrapOr_cases core f refs s (alignByCounters core f refs s highest) _ rfl with
        ⟨hfailed, -⟩ | ⟨hother, -⟩ | ⟨-, -, -, hrefs, -⟩
      · rw [hfailed]
        exact h
      · rw [hother]
        exact haligned
      · rw [hrefs]
        exact plain_buildHistory core f.history _ none .carry h
    · exact haligned

/-- A repository that is there has its version tags in the core's own form. -/
def PlainDisk (disk : Disk) : Prop := ∀ refs, disk = .repo refs → Plain refs

theorem plainDisk_repo {refs : Refs} (h : Plain refs) : PlainDisk (.repo refs) := by
  intro refs' hrefs
  rw [← Disk.repo.inj hrefs]
  exact h

theorem plainDisk_sync (f : SyncFaults) {disk : Disk} (list : Option ListState)
    (h : PlainDisk disk) : PlainDisk (syncRepoWithDb core f disk list).disk := by
  have hbuilt : ∀ s : ListState,
      PlainDisk (.repo (buildHistory core f.history ∅ (loadBundleData s) none .carry).1) :=
    fun s => plainDisk_repo (plain_buildHistory core f.history _ none .carry .empty)
  cases hcurrent : f.readCurrent with
  | false =>
    simp only [syncRepoWithDb, hcurrent]
    exact h
  | true =>
    cases list with
    | none =>
      simp only [syncRepoWithDb, hcurrent]
      exact h
    | some s =>
      specialize hbuilt s
      cases disk with
      | unreadable =>
        simp only [syncRepoWithDb, hcurrent]
        exact h
      | repo refs =>
        have hrefs := h refs rfl
        cases hmain : refs.lookup mainRef with
        | some t =>
          simp only [syncRepoWithDb, hcurrent, hmain]
          exact plainDisk_repo (plain_align core f s (maxTagIn refs) hrefs)
        | none =>
          simp only [syncRepoWithDb, hcurrent, hmain]
          exact plainDisk_repo (plain_healMain core f s (maxTagIn refs) hrefs)
      | absent =>
        simp only [syncRepoWithDb, hcurrent, bootstrapFromDb]
        cases f.readRows with
        | false => exact h
        | true =>
          cases hempty : (loadBundleData s).isEmpty with
          | true => exact h
          | false =>
            cases hbuild : buildHistory core f.history ∅ (loadBundleData s) none .carry with
            | mk built result =>
              rw [hbuild] at hbuilt
              cases result with
              | error e => exact hbuilt
              | ok tip => exact hbuilt

theorem plainDisk_write (f : WebFaults) (s : ListState) (edit : WebEdit) (h : Plain refs) :
    PlainDisk (writeVersion core f refs s edit).disk := by
  rcases writeVersion_cases core f refs s edit with
    ⟨⟨e, he⟩, -⟩ | ⟨parent, c, -, -, -, ⟨-, hdisk, -⟩ | ⟨-, hdisk, -⟩⟩
  · rw [he]
    exact plainDisk_repo h
  · rw [hdisk]
    exact plainDisk_repo (h.insert_main _)
  · rw [hdisk]
    exact plainDisk_repo ((h.insert_main _).insert_version _ _)

theorem plainDisk_web (f : WebFaults) {disk : Disk} (list : Option ListState) (edit : WebEdit)
    (h : PlainDisk disk) : PlainDisk (commitWebVersion core f disk list edit).disk := by
  have hsync := plainDisk_sync core f.sync list h
  unfold commitWebVersion
  dsimp only
  generalize syncRepoWithDb core f.sync disk list = synced at hsync
  split
  · exact hsync
  · exact hsync
  · exact hsync
  · split_ifs
    · exact hsync
    · split
      · exact hsync
      · rename_i s refs _ hdisk
        exact plainDisk_write core f s edit (hsync refs hdisk)
      · exact hsync

theorem plain_receivePack (lib : GitLibrary) (f : PushFaults) (env : HookEnv)
    (commands : List RefCommand) (list : Option ListState) (h : Plain refs) :
    Plain (receivePack core lib f env commands refs list).refs := by
  have hreceived : Plain (received lib f.applied env refs commands) := by
    apply h.beside
    exact ⟨fun _ href => lookup_received_of_tag f.applied env refs commands href,
      main_received f.applied env refs commands⟩
  have htaken : Plain (takeMagicPushes f.magic env.actor refs
      (received lib f.applied env refs commands)).1 :=
    h.beside (beside_received f.applied f.magic env refs commands)
  unfold receivePack
  dsimp only
  split_ifs
  · exact hreceived
  · exact htaken
  · cases list with
    | none => exact htaken
    | some s => exact plain_projectMainOrLog core f.first f.second s htaken
  · exact htaken

end Writers

section Runs

variable (core : Core) (lib : GitLibrary) {st : State}

theorem plainDisk_onRefs {change : Refs → Except BranchRefusal Refs}
    (hchange : ∀ refs changed, change refs = .ok changed → Beside refs changed)
    (h : PlainDisk st.disk) : PlainDisk (onRefs change st).disk := by
  obtain ⟨disk, list⟩ := st
  cases disk with
  | absent => exact h
  | unreadable => exact h
  | repo refs =>
    cases hdone : change refs with
    | error e =>
      simp only [onRefs, hdone]
      exact h
    | ok changed =>
      simp only [onRefs, hdone]
      exact plainDisk_repo ((h refs rfl).beside (hchange refs changed hdone))

theorem plainDisk_afterMerge (first second : ProjectionFaults)
    {merged : Refs → Except BranchRefusal Refs}
    (hmerged : ∀ refs moved, merged refs = .ok moved → Beside refs moved)
    (h : PlainDisk st.disk) : PlainDisk (afterMerge core first second merged st).disk := by
  obtain ⟨disk, list⟩ := st
  cases disk with
  | absent => exact h
  | unreadable => exact h
  | repo refs =>
    cases hdone : merged refs with
    | error e =>
      simp only [afterMerge, hdone]
      exact h
    | ok moved =>
      have hmoved := (h refs rfl).beside (hmerged refs moved hdone)
      cases list with
      | none =>
        simp only [afterMerge, hdone]
        exact plainDisk_repo hmoved
      | some s =>
        simp only [afterMerge, hdone]
        exact plainDisk_repo (plain_projectMainOrLog core first second s hmoved)

theorem plainDisk_ensure (f : SyncFaults) (h : PlainDisk st.disk) :
    PlainDisk (ensureRepo core f st).disk := by
  obtain ⟨disk, list⟩ := st
  have haligned := plainDisk_sync core f list h
  cases disk with
  | unreadable => exact haligned
  | repo refs => exact haligned
  | absent =>
    cases list with
    | none => exact h
    | some s =>
      unfold ensureRepo
      dsimp only
      split_ifs
      · exact h
      · exact plainDisk_repo .empty
      · exact plainDisk_repo (plain_buildHistory core f.history _ none .carry .empty)

theorem plainDisk_step (op : Op) (h : PlainDisk st.disk) :
    PlainDisk (step core lib op st).disk := by
  cases op with
  | ensure f => exact plainDisk_ensure core f h
  | align f => exact plainDisk_sync core f st.list h
  | web f edit => exact plainDisk_web core f st.list edit h
  | push f env commands =>
    obtain ⟨disk, list⟩ := st
    cases disk with
    | absent => exact h
    | unreadable => exact h
    | repo refs =>
      exact plainDisk_repo (plain_receivePack core lib f env commands list (h refs rfl))
  | reproject f =>
    obtain ⟨disk, list⟩ := st
    cases disk with
    | absent => exact h
    | unreadable => exact h
    | repo refs =>
      cases list with
      | none => exact h
      | some s => exact plainDisk_repo (plain_project core f s (h refs rfl))
  | createBranch written name origin =>
    exact plainDisk_onRefs (fun _ _ => beside_createBranch) h
  | deleteBranch written name => exact plainDisk_onRefs (fun _ _ => beside_deleteBranch) h
  | commitToBranch written branch listJson expectedTip stamp =>
    exact plainDisk_onRefs (fun _ _ => beside_commitToBranch) h
  | updateBranch written name stamp => exact plainDisk_onRefs (fun _ _ => beside_updateBranch) h
  | mergeBranch written first second name squash stamp =>
    exact plainDisk_afterMerge core first second (fun _ _ => beside_mergeBranch) h
  | mergeResolved written first second branch listJson squash stamp =>
    exact plainDisk_afterMerge core first second (fun _ _ => beside_mergeResolved) h
  | createTag written name version => exact plainDisk_onRefs (fun _ _ => beside_createTag) h

theorem plainDisk_run (ops : List Op) (h : PlainDisk st.disk) :
    PlainDisk (run core lib ops st).disk := by
  have hstep : ∀ (op : Op) (st : State), PlainDisk st.disk → PlainDisk (step core lib op st).disk :=
    fun op _ hst => plainDisk_step core lib op hst
  exact @Runs.run_invariant _ _ (step core lib) (fun st => PlainDisk st.disk) hstep ops st h

/-- Where a repository starts: nowhere, or with the first version of a new list. -/
def Starts (core : Core) (disk : Disk) : Prop :=
  disk = .absent ∨ ∃ f v authored, disk = .repo (initWithVersion core f v authored).1

theorem plainDisk_start {disk : Disk} (h : Starts core disk) : PlainDisk disk := by
  rcases h with rfl | ⟨f, v, authored, rfl⟩
  · intro refs hrefs
    cases hrefs
  · apply plainDisk_repo
    unfold initWithVersion appendVersionWith
    dsimp only
    split
    · exact .empty
    · exact plain_buildHistory core f [v] none authored .empty

end Runs

theorem agree_of_not_opened (ids : CommitIds) (order : ∀ refs, Listing refs) {volume : Bool}
    {disk : Disk} (h : opened volume disk = none) (n : Nat) : Agree ids order volume disk n := by
  have hbulk : versionShas ids order volume disk = ∅ := by simp only [versionShas, h]
  have hone : versionShaOne ids volume disk n = [] := by simp only [versionShaOne, h]
  unfold Agree
  rw [hbulk, hone, AList.lookup_empty]
  exact ⟨rfl, iff_of_true rfl rfl⟩

/-- In whatever order git lists the tags, all versions at once and one version alone give the same
commit exactly when no other name of the number, which has zeros in front, leads elsewhere; the
core writes no such name, so that they agree in every state it can reach. -/
theorem version_shas_agree (ids : CommitIds) (n : Nat) (hn : n ≤ 2147483647) :
    (∀ refs, (∀ order, Agree ids order true (.repo refs) n) ↔ NoRival ids refs n) ∧
    (∀ refs, (∀ ref ∈ refs, ¬ LeadingZero ref n) → NoRival ids refs n) ∧
    (∀ order volume disk, opened volume disk = none → Agree ids order volume disk n) ∧
    ∀ core lib st ops, Starts core st.disk → ∀ order volume,
      Agree ids order volume (run core lib ops st).disk n := by
  refine ⟨fun refs => ⟨noRival_of_agree hn, fun h order => agree_of_noRival hn h⟩,
    fun refs => noRival_of_no_zeros, fun order volume disk h => agree_of_not_opened ids order h n, ?_⟩
  intro core lib st ops hstart order volume
  have hplain := plainDisk_run core lib ops (plainDisk_start core hstart)
  generalize (run core lib ops st).disk = disk at hplain
  cases hopened : opened volume disk with
  | none => exact agree_of_not_opened ids order hopened n
  | some refs =>
    obtain ⟨rfl, rfl⟩ : volume = true ∧ disk = .repo refs := by
      unfold opened at hopened
      split at hopened
      · split_ifs at hopened with hvolume
        exact ⟨hvolume, congrArg Disk.repo (Option.some.inj hopened)⟩
      · cases hopened
    exact agree_of_noRival hn (hplain refs rfl).noRival

/-- Two printed ids. -/
def twoIds : CommitIds where
  print c := List.replicate 40 (if c = firstCommit then 'a' else 'b')
  print_ne _ := List.replicate_succ.trans_ne (List.cons_ne_nil _ _)

/-- The second version under an annotated tag, and releases called like it. -/
def releasesOfTwo : Refs :=
  ((AList.singleton (tagRef "v2".toList) (Target.object [1] (some firstCommit))).insert
    (tagRef "vv2".toList) (.commit (.mk .empty [firstCommit] ⟨[], [], 1⟩))).insert
    (tagRef "v+2".toList) (.commit (.mk .empty [firstCommit] ⟨[], [], 1⟩))

theorem version_shas_agree_releases :
    Agree twoIds asKept true (.repo releasesOfTwo) 2 ∧
      versionShaOne twoIds true (.repo releasesOfTwo) 2 = List.replicate 40 'a' := by
  have hagree := version_shas_agree twoIds 2 (by decide)
  refine ⟨(hagree.1 releasesOfTwo).mpr (hagree.2.1 releasesOfTwo ?_) asKept, by decide⟩
  have hkeys : ∀ ref ∈ releasesOfTwo.keys, ref[11]? ≠ some '0' := by decide
  intro ref href hzero
  obtain ⟨k, rfl⟩ := hzero
  exact hkeys _ (AList.mem_keys.mpr href) rfl

/-- A tag with a zero in front and none without. -/
def zeroTagged : Refs := AList.singleton (tagRef "v02".toList) (.commit firstCommit)

/-- A name with a zero in front stands for the version in the one reading only. -/
theorem version_shas_differ_zero :
    (versionShas twoIds asKept true (.repo zeroTagged)).lookup 2 = some (List.replicate 40 'a') ∧
      versionShaOne twoIds true (.repo zeroTagged) 2 = [] ∧
      ¬ Agree twoIds asKept true (.repo zeroTagged) 2 := by
  have hbulk : (versionShas twoIds asKept true (.repo zeroTagged)).lookup 2 =
      some (List.replicate 40 'a') := by decide
  have hone : versionShaOne twoIds true (.repo zeroTagged) 2 = [] := by decide
  refine ⟨hbulk, hone, fun h => ?_⟩
  have hsame := h.1
  rw [hbulk] at hsame
  cases hsame.trans hone

end Setfork.VersionShas
