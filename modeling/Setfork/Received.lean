/- Received
   digest: What a push can do to the references, and the version its projection hands out. -/
import Setfork.AuthoredDoors
import Setfork.Push
import Setfork.Reproject

set_option autoImplicit false
set_option relaxedAutoImplicit false

namespace Setfork.Received

open Setfork.Foundation
open Setfork.Rows
open Setfork.TreeRule (stripPrefix)
open Setfork.Repository
open Setfork.History
open Setfork.Alignment
open Setfork.Push
open Setfork.Project (RawList RawStep projectionNote parseSteps)
open Setfork.CanonMirror (saveVersion)
open Setfork.Carryover (addVersion updateMeta projStepRow currentMarks)
open Setfork.Reproject (FreeNumber addVersion_of_free addVersion_of_taken)

/-- An update changes nothing, removes its reference, or sets it. -/
theorem applyCommand_cases (applied : Text → Bool) (refs : Refs) (cmd : RefCommand) :
    applyCommand applied refs cmd = refs ∨
    (cmd.new = none ∧ applyCommand applied refs cmd = refs.erase cmd.ref) ∨
    ∃ t, cmd.new = some t ∧ fitsBranch cmd.ref (some t) = true ∧
      refs.lookup cmd.ref = cmd.old ∧ applyCommand applied refs cmd = refs.insert cmd.ref t := by
  unfold applyCommand
  split_ifs with h
  · rw [Bool.and_eq_true, Bool.and_eq_true, decide_eq_true_eq] at h
    obtain ⟨⟨-, hfits⟩, hold⟩ := h
    cases hnew : cmd.new with
    | none => exact Or.inr (Or.inl ⟨rfl, rfl⟩)
    | some t =>
      rw [hnew] at hfits
      exact Or.inr (Or.inr ⟨t, rfl, hfits, hold, rfl⟩)
  · exact Or.inl rfl

theorem applyCommands_invariant {P : Refs → Prop} (applied : Text → Bool)
    {commands : List RefCommand}
    (hstep : ∀ cmd ∈ commands, ∀ refs, P refs → P (applyCommand applied refs cmd)) {refs : Refs}
    (h : P refs) : P (applyCommands applied refs commands) := by
  induction commands generalizing refs with
  | nil => exact h
  | cons cmd commands ih =>
    have hfirst := hstep cmd List.mem_cons_self refs h
    exact ih (fun c hc => hstep c (List.mem_cons_of_mem cmd hc)) hfirst

/-- What every admitted update keeps holds after a push. -/
theorem received_invariant {P : Refs → Prop} {lib : GitLibrary} (applied : Text → Bool)
    {env : HookEnv} {before : Refs} {commands : List RefCommand}
    (hstep : ∀ cmd ∈ commands, Admitted lib env before cmd →
      ∀ refs, P refs → P (applyCommand applied refs cmd)) (h : P before) :
    P (received lib applied env before commands) := by
  unfold received
  cases hpass : preReceive lib env before commands with
  | error e => exact h
  | ok seen =>
    have hadmitted := (preReceive_isOk_iff env before commands).mp ⟨seen, hpass⟩
    exact applyCommands_invariant applied (fun cmd hcmd => hstep cmd hcmd (hadmitted cmd hcmd)) h

/-- A push leaves the version tags alone, whatever it is made of. -/
theorem lookup_received_of_tag {lib : GitLibrary} (applied : Text → Bool) (env : HookEnv)
    (before : Refs) (commands : List RefCommand) {ref : Text}
    (href : (tagVersion ref).isSome = true) :
    (received lib applied env before commands).lookup ref = before.lookup ref := by
  apply received_invariant (P := fun refs => refs.lookup ref = before.lookup ref)
  · intro cmd _ hadmitted refs h
    have hne : ref ≠ cmd.ref := by
      intro heq
      rw [heq, (nameRefusal_eq_none hadmitted.name).1] at href
      cases href
    rcases applyCommand_cases applied refs cmd with hsame | ⟨-, herase⟩ | ⟨t, -, -, -, hinsert⟩
    · rw [hsame]
      exact h
    · rw [herase, AList.lookup_erase_ne hne]
      exact h
    · rw [hinsert, AList.lookup_insert_ne hne]
      exact h
  · rfl

/-- A push never removes main, and moves it to commits only. -/
theorem main_received {lib : GitLibrary} (applied : Text → Bool) (env : HookEnv) (before : Refs)
    (commands : List RefCommand) (hmain : mainRef ∈ before) :
    mainRef ∈ received lib applied env before commands := by
  apply received_invariant (P := fun refs => mainRef ∈ refs)
  · intro cmd _ hadmitted refs h
    rcases applyCommand_cases applied refs cmd with hsame | ⟨hnone, herase⟩ | ⟨t, -, -, -, hinsert⟩
    · rw [hsame]
      exact h
    · rw [herase, AList.mem_erase]
      refine ⟨fun heq => ?_, h⟩
      obtain ⟨t, ht, -⟩ := (nameRefusal_eq_none hadmitted.name).2 heq.symm
      rw [hnone] at ht
      cases ht
    · rw [hinsert, AList.mem_insert]
      exact Or.inr h
  · exact hmain

theorem main_received_forward {lib : GitLibrary} (applied : Text → Bool) (env : HookEnv)
    (before : Refs) (commands : List RefCommand) :
    (received lib applied env before commands).lookup mainRef = before.lookup mainRef ∨
    ∃ c, (received lib applied env before commands).lookup mainRef = some (.commit c) ∧
      ∀ b, before.lookup mainRef = some (.commit b) → c.Reaches b := by
  apply received_invariant (P := fun refs => refs.lookup mainRef = before.lookup mainRef ∨
    ∃ c, refs.lookup mainRef = some (.commit c) ∧
      ∀ b, before.lookup mainRef = some (.commit b) → c.Reaches b)
  · intro cmd _ hadmitted refs h
    by_cases href : cmd.ref = mainRef
    · obtain ⟨t, ht, hforward⟩ := (nameRefusal_eq_none hadmitted.name).2 href
      rcases applyCommand_cases applied refs cmd with hsame | ⟨hnone, -⟩ | ⟨u, hu, hfits, hold, hinsert⟩
      · rw [hsame]
        exact h
      · rw [hnone] at ht
        cases ht
      · obtain rfl := Option.some.inj (ht.symm.trans hu)
        rw [href] at hfits hinsert hold
        cases t with
        | object id tagged =>
          have hrefused : fitsBranch mainRef (some (.object id tagged)) = false := rfl
          rw [hrefused] at hfits
          cases hfits
        | commit c =>
          right
          refine ⟨c, by rw [hinsert, AList.lookup_insert], fun b hb => ?_⟩
          have hover : ∀ a, refs.lookup mainRef = some (.commit a) → c.Reaches a := by
            intro a ha
            have hancestor := hforward (.commit a) (hold.symm.trans ha)
            exact of_decide_eq_true hancestor
          rcases h with hsame | ⟨a, ha, hreach⟩
          · exact hover b (hsame.trans hb)
          · exact (hover a ha).trans (hreach b hb)
    · rcases applyCommand_cases applied refs cmd with hsame | ⟨-, herase⟩ | ⟨u, -, -, -, hinsert⟩
      · rw [hsame]
        exact h
      · rw [herase, AList.lookup_erase_ne (Ne.symm href)]
        exact h
      · rw [hinsert, AList.lookup_insert_ne (Ne.symm href)]
        exact h
  · exact Or.inl rfl

/-- A commit over the tip of main, by someone who may push. -/
def overMain (c d : Commit) : RefCommand := ⟨some (.commit c), some (.commit d), mainRef⟩

section OverMain

variable {lib : GitLibrary} {env : HookEnv} {refs : Refs} {c d : Commit}

theorem admitted_overMain (hrole : isRestricted env.role = false)
    (hmain : refs.lookup mainRef = some (.commit c)) (hparents : d.parents = [c])
    (hcanon : hasCanon env (.commit d) = true) (hd : CommitAdmitted d)
    (hcontent : env.content (.commit d) = true) : Admitted lib env refs (overMain c d) where
  name := by
    have hreach : d.Reaches c := .single (by rw [Commit.IsParent, hparents]; exact List.mem_singleton_self c)
    have hancestor : isAncestor (.commit c) (.commit d) = true := decide_eq_true hreach
    have hmagic : isMagic mainRef = false := by decide
    have htag : isReservedTag mainRef = false := by decide
    simp [nameRefusal, overMain, hrole, hmagic, htag, hancestor]
  canon := by
    intro t ht
    rw [← Option.some.inj ht]
    exact hcanon
  commits := by
    intro t ht a ha
    obtain rfl := Option.some.inj ht
    obtain ⟨tip, htip, hreach, hnew⟩ := (lib.mem_revList refs _ a).mp ha
    obtain rfl := Option.some.inj htip
    rcases (Commit.reaches_iff_parents d a).mp hreach with rfl | ⟨p, hp, hpa⟩
    · exact hd
    · rw [hparents, List.mem_singleton] at hp
      rw [hp] at hpa
      exact absurd ⟨mainRef, _, c, hmain, rfl, hpa⟩ hnew
  content := by
    intro t ht _
    rw [← Option.some.inj ht]
    exact hcontent

theorem received_overMain (hmain : refs.lookup mainRef = some (.commit c))
    (h : Admitted lib env refs (overMain c d)) :
    received lib (fun _ => true) env refs [overMain c d] = refs.insert mainRef (.commit d) := by
  obtain ⟨seen, hpass⟩ := (preReceive_isOk_iff env refs [overMain c d]).mpr (by simpa using h)
  rw [received, hpass]
  simp [applyCommands, applyCommand, overMain, fitsBranch, hmain]

end OverMain

def listTree (v : Serialize.VersionData) : Tree where
  entries := [(AuthoredDoors.listJsonName, .leaf (.file false (utf8 (Serialize.listJson [] v))))]
  wellFormed := rfl

theorem listTree_get (v : Serialize.VersionData) : (listTree v).get "list.json".toList =
    some (.leaf (.file false (utf8 (Serialize.listJson [] v)))) := by
  rw [Tree.get_eq_some_iff]
  exact ⟨AuthoredDoors.listJsonName, rfl, List.mem_singleton_self _⟩

theorem listTree_admitted (v : Serialize.VersionData) (parents : List Commit) (stamp : Stamp) :
    CommitAdmitted (.mk (listTree v) parents stamp) where
  paths := by
    have hpaths : (Commit.mk (listTree v) parents stamp).tree.paths =
        [⟨[], AuthoredDoors.listJsonName⟩] := rfl
    rw [hpaths]
    decide
  limits := by
    have hnone : Authored.lsTreeAuthored (listTree v) = [] := rfl
    constructor <;> simp [Commit.tree, hnone]

set_option maxRecDepth 4000 in
theorem listTree_violation (v : Serialize.VersionData) : mainViolation (listTree v) = none := by
  rw [mainViolation_eq_none_iff, listTree_get, Authored.firstForeignPath_eq_none_iff]
  have hpaths : (listTree v).paths = [⟨[], AuthoredDoors.listJsonName⟩] := rfl
  refine ⟨rfl, ?_, rfl⟩
  rw [hpaths]
  decide

/-- The owner pushes, and the content of every canon is fine. -/
def ownerEnv : HookEnv := ⟨[], "owner".toList, fun _ => true, fun _ => true, fun _ => true⟩

theorem admitted_listTree (lib : GitLibrary) {refs : Refs} {c : Commit}
    (hmain : refs.lookup mainRef = some (.commit c)) (v : Serialize.VersionData) (stamp : Stamp) :
    Admitted lib ownerEnv refs (overMain c (.mk (listTree v) [c] stamp)) := by
  apply admitted_overMain rfl hmain rfl _ (listTree_admitted v [c] stamp) rfl
  rw [hasCanon, Commit.tree, listTree_get]
  rfl

/-- The owner pushes a commit with nothing but a canon over main. -/
theorem received_listTree (lib : GitLibrary) {refs : Refs} {c : Commit}
    (hmain : refs.lookup mainRef = some (.commit c)) (v : Serialize.VersionData) (stamp : Stamp) :
    received lib (fun _ => true) ownerEnv refs [overMain c (.mk (listTree v) [c] stamp)] =
      refs.insert mainRef (.commit (.mk (listTree v) [c] stamp)) :=
  received_overMain hmain (admitted_listTree lib hmain v stamp)

theorem tagVersion_branchRef (branch : Text) : tagVersion (branchRef branch) = none := by
  have hsixth : ¬ "refs/tags/".toList <+: branchRef branch := by
    intro h
    have hstart : "refs/heads/".toList <+: branchRef branch := List.prefix_append _ _
    have htake := List.prefix_of_prefix_length_le h hstart (by decide)
    exact absurd htake (by decide)
  have hstrip : stripPrefix "refs/tags/".toList (branchRef branch) = none := by
    rw [stripPrefix, if_neg]
    rw [List.isPrefixOf_iff_prefix]
    exact hsixth
  rw [tagVersion, hstrip]
  rfl

theorem tagVersion_of_isMagic {name : Text} (h : isMagic name = true) : tagVersion name = none := by
  have hstrip : stripPrefix "refs/tags/".toList name = none := by
    rw [stripPrefix, if_neg]
    rw [List.isPrefixOf_iff_prefix]
    intro htags
    have hfor : magicPrefix <+: name := List.isPrefixOf_iff_prefix.mp h
    exact absurd (List.prefix_of_prefix_length_le hfor htags (by decide)) (by decide)
  rw [tagVersion, hstrip]
  rfl

theorem branchRef_injective : Function.Injective branchRef := fun _ _ h => List.append_cancel_left h

theorem authorBranch_ne_main (actor base : Text) : branchRef (authorBranch actor base) ≠ mainRef := by
  intro h
  have hu : (branchRef (authorBranch actor base))[11]? = some 'u' := rfl
  rw [h] at hu
  exact absurd hu (by decide)

theorem takeNames_invariant {P : Refs → Prop} (f : MagicFaults) (actor : Text) (before : Refs)
    (herase : ∀ refs name, isMagic name = true → P refs → P (refs.erase name))
    (hmove : ∀ (refs : Refs) name base t, stripPrefix magicPrefix name = some base →
      refs.lookup name = some t → before.lookup name ≠ some t → P refs →
      P (refs.insert (branchRef (authorBranch actor base)) t))
    {names : List Text} (hnames : ∀ name ∈ names, isMagic name = true) {refs : Refs} (h : P refs) :
    P (takeNames f actor before names refs).1 := by
  induction names generalizing refs with
  | nil => exact h
  | cons name names ih =>
    have hname := hnames name List.mem_cons_self
    have hrest := fun n hn => hnames n (List.mem_cons_of_mem name hn)
    unfold takeNames
    split
    · rename_i base tip hbase htip
      split_ifs with hstale
      · exact ih hrest (herase refs name hname h)
      · exact h
      · exact h
      · exact hmove refs name base tip hbase htip hstale h
      · exact ih hrest (herase _ name hname (hmove refs name base tip hbase htip hstale h))
    · exact ih hrest h

/-- Where every move and removal succeeds, all of them are taken. -/
theorem takeMagicPushes_all {f : MagicFaults} (hmoved : ∀ name, f.moved name = true)
    (hdeleted : ∀ name, f.deleted name = true) (actor : Text) (before refs : Refs) :
    (takeMagicPushes f actor before refs).2.2 = true := by
  have hall : ∀ (names : List Text) (refs : Refs), (takeNames f actor before names refs).2.2 = true := by
    intro names
    induction names with
    | nil => exact fun _ => rfl
    | cons name names ih =>
      intro refs
      unfold takeNames
      split
      · simp only [hmoved, hdeleted, Bool.not_true, Bool.false_eq_true, if_false, if_true]
        split_ifs
        · exact ih _
        · exact ih _
      · exact ih _
  unfold takeMagicPushes
  split_ifs
  · rfl
  · exact hall _ _

theorem takeMagicPushes_invariant {P : Refs → Prop} (f : MagicFaults) (actor : Text)
    (before : Refs) (herase : ∀ refs name, isMagic name = true → P refs → P (refs.erase name))
    (hmove : ∀ (refs : Refs) name base t, stripPrefix magicPrefix name = some base →
      refs.lookup name = some t → before.lookup name ≠ some t → P refs →
      P (refs.insert (branchRef (authorBranch actor base)) t)) {refs : Refs} (h : P refs) :
    P (takeMagicPushes f actor before refs).1 := by
  unfold takeMagicPushes
  split_ifs
  · exact h
  · exact takeNames_invariant f actor before herase hmove
      (fun name hname => (List.mem_filter.mp hname).2) h

theorem lookup_takeMagicPushes (f : MagicFaults) (actor : Text) (before refs : Refs) {ref : Text}
    (hmagic : isMagic ref = false) (hbranch : ∀ base, ref ≠ branchRef (authorBranch actor base)) :
    (takeMagicPushes f actor before refs).1.lookup ref = refs.lookup ref := by
  apply takeMagicPushes_invariant (P := fun r => r.lookup ref = refs.lookup ref)
  · intro r name hname h
    rw [AList.lookup_erase_ne]
    · exact h
    · intro heq
      rw [heq, hname] at hmagic
      cases hmagic
  · intro r name base t _ _ _ h
    rw [AList.lookup_insert_ne (hbranch base)]
    exact h
  · rfl

theorem lookup_takeMagicPushes_main (f : MagicFaults) (actor : Text) (before refs : Refs) :
    (takeMagicPushes f actor before refs).1.lookup mainRef = refs.lookup mainRef :=
  lookup_takeMagicPushes f actor before refs (by decide) fun base => (authorBranch_ne_main actor base).symm

theorem lookup_takeMagicPushes_tag (f : MagicFaults) (actor : Text) (before refs : Refs) {ref : Text}
    (href : (tagVersion ref).isSome = true) :
    (takeMagicPushes f actor before refs).1.lookup ref = refs.lookup ref := by
  apply lookup_takeMagicPushes
  · by_contra hmagic
    rw [tagVersion_of_isMagic (by simpa using hmagic)] at href
    cases href
  · intro base heq
    rw [heq, tagVersion_branchRef] at href
    cases href

def RowsUpTo (s : ListState) : Prop := ∀ r ∈ s.versions, r.version ≤ s.currentVersion

theorem RowsUpTo.next {s next : ListState} (h : RowsUpTo s) (hnext : NextVersion s next) :
    RowsUpTo next := by
  obtain ⟨hcurrent, v, hv, hrows⟩ := hnext
  intro r hr
  rw [hrows] at hr
  rcases List.mem_append.mp hr with hr | hr
  · have hle := h r hr
    omega
  · rw [List.mem_singleton.mp hr]
    omega

def CanonReads (core : Core) (refs : Refs) : Prop :=
  ∃ tip bytes subject raw, readTip core refs = some (tip, bytes, subject) ∧
    core.parser.fromSlice bytes = some raw ∧ raw.steps.isSome = true

def taggedOnce (f : ProjectionFaults) (current : Int) : Option Int :=
  if f.insert = .done ∧ f.tagged = true then some (current + 1) else none

/-- The version whose tag the two attempts write: the first one counts when its rows are in, and
a lost acknowledgement leaves its number taken. -/
def taggedNumber (first second : ProjectionFaults) (current : Int) : Option Int :=
  match first.insert with
  | .done => taggedOnce first current
  | .failed => taggedOnce second current
  | .lost => taggedOnce second (current + 1)

/-- The references with the tag of a version, when there is one to write, on a commit. -/
def withTag (refs : Refs) (number : Option Int) (tip : Commit) : Refs :=
  match number with
  | none => refs
  | some n => refs.insert (tagRef (versionTag n)) (.commit tip)

section Projection

variable {core : Core} {refs : Refs} {s : ListState}

theorem projectPushedCommit_of_not_reads (f : ProjectionFaults) (h : ¬ CanonReads core refs) :
    projectPushedCommit core f refs s = ⟨refs, s, .ok none, false⟩ := by
  unfold projectPushedCommit
  cases hread : readTip core refs with
  | none => rfl
  | some read =>
    obtain ⟨tip, bytes, subject⟩ := read
    cases hparse : core.parser.fromSlice bytes with
    | none => simp [hparse]
    | some raw =>
      cases hsteps : raw.steps with
      | none => simp [hparse, hsteps]
      | some steps =>
        have hsome : raw.steps.isSome = true := by
          rw [hsteps]
          rfl
        exact absurd ⟨tip, bytes, subject, raw, hread, hparse, hsome⟩ h

/-- What a projection finds at the tip of main: the canon that makes a version. -/
structure ReadsCanon (core : Core) (refs : Refs) (tip : Commit) (subject : Text) (raw : RawList)
    (steps : List RawStep) : Prop where
  read : ∃ bytes, readTip core refs = some (tip, bytes, subject) ∧
    core.parser.fromSlice bytes = some raw
  steps : raw.steps = some steps

theorem canonReads_iff : CanonReads core refs ↔
    ∃ tip subject raw steps, ReadsCanon core refs tip subject raw steps := by
  constructor
  · intro h
    obtain ⟨tip, bytes, subject, raw, hread, hparse, hsome⟩ := h
    obtain ⟨steps, hsteps⟩ := Option.isSome_iff_exists.mp hsome
    exact ⟨tip, subject, raw, steps, ⟨bytes, hread, hparse⟩, hsteps⟩
  · intro h
    obtain ⟨tip, subject, raw, steps, ⟨bytes, hread, hparse⟩, hsteps⟩ := h
    refine ⟨tip, bytes, subject, raw, hread, hparse, ?_⟩
    rw [hsteps]
    rfl

theorem readsCanon_of_get {tip : Commit} {bytes : Bytes} {raw : RawList} {steps : List RawStep}
    (hmain : refs.lookup mainRef = some (.commit tip))
    (hget : tip.tree.get "list.json".toList = some (.leaf (.file false bytes)))
    (hparse : core.parser.fromSlice bytes = some raw) (hsteps : raw.steps = some steps) :
    ReadsCanon core refs tip (core.subject tip.stamp) raw steps := by
  refine ⟨⟨bytes, ?_, hparse⟩, hsteps⟩
  rw [readTip, Refs.commitAt_eq_some.mpr hmain, Option.bind_some]
  simp only [hget, Leaf.blob, Option.map_some]

theorem canonReads_of_get {tip : Commit} {bytes : Bytes} {raw : RawList} {steps : List RawStep}
    (hmain : refs.lookup mainRef = some (.commit tip))
    (hget : tip.tree.get "list.json".toList = some (.leaf (.file false bytes)))
    (hparse : core.parser.fromSlice bytes = some raw) (hsteps : raw.steps = some steps) :
    CanonReads core refs :=
  canonReads_iff.mpr ⟨tip, _, raw, steps, readsCanon_of_get hmain hget hparse hsteps⟩

theorem ReadsCanon.unique {tip tip' : Commit} {subject subject' : Text} {raw raw' : RawList}
    {steps steps' : List RawStep} (h : ReadsCanon core refs tip subject raw steps)
    (h' : ReadsCanon core refs tip' subject' raw' steps') :
    tip = tip' ∧ subject = subject' ∧ raw = raw' ∧ steps = steps' := by
  obtain ⟨⟨bytes, hread, hparse⟩, hsteps⟩ := h
  obtain ⟨⟨bytes', hread', hparse'⟩, hsteps'⟩ := h'
  obtain ⟨rfl, hrest⟩ := Prod.mk.inj (Option.some.inj (hread.symm.trans hread'))
  obtain ⟨rfl, rfl⟩ := Prod.mk.inj hrest
  obtain rfl := Option.some.inj (hparse.symm.trans hparse')
  exact ⟨rfl, rfl, rfl, Option.some.inj (hsteps.symm.trans hsteps')⟩

def withRows (s : ListState) (subject : Text) (steps : List RawStep) (createdAt : Int) : ListState :=
  saveVersion (s.currentVersion + 1) (projectionNote subject) createdAt
    ((parseSteps steps).map (projStepRow (currentMarks s))) s

theorem projectPushedCommit_eq (f : ProjectionFaults) {tip : Commit} {subject : Text}
    {raw : RawList} {steps : List RawStep} (h : ReadsCanon core refs tip subject raw steps)
    (hfree : FreeNumber s (s.currentVersion + 1)) :
    projectPushedCommit core f refs s =
      match f.insert with
      | .failed => ⟨refs, s, .error .database, false⟩
      | .lost => ⟨refs, withRows s subject steps f.createdAt, .error .database, false⟩
      | .done => ⟨if f.tagged then refs.insert (tagRef (versionTag (s.currentVersion + 1)))
            (.commit tip) else refs,
          if f.patched = .failed then withRows s subject steps f.createdAt
            else updateMeta raw (withRows s subject steps f.createdAt),
          .ok (some (s.currentVersion + 1)), false⟩ := by
  obtain ⟨⟨bytes, hread, hparse⟩, hsteps⟩ := h
  have hadd := addVersion_of_free hfree (projectionNote subject) f.createdAt (parseSteps steps)
  simp only [projectPushedCommit, hread, hparse, hsteps, hadd]
  cases f.insert <;> rfl

theorem projectPushedCommit_taken (f : ProjectionFaults) {tip : Commit} {subject : Text}
    {raw : RawList} {steps : List RawStep} (h : ReadsCanon core refs tip subject raw steps)
    (htaken : ¬ FreeNumber s (s.currentVersion + 1)) :
    projectPushedCommit core f refs s = ⟨refs, s, .error .database, false⟩ := by
  obtain ⟨⟨bytes, hread, hparse⟩, hsteps⟩ := h
  have hadd := addVersion_of_taken htaken (projectionNote subject) f.createdAt (parseSteps steps)
  simp only [projectPushedCommit, hread, hparse, hsteps, hadd]

/-- The tip whose canon makes a version is the tip of main. -/
theorem ReadsCanon.main {tip : Commit} {subject : Text} {raw : RawList} {steps : List RawStep}
    (h : ReadsCanon core refs tip subject raw steps) : refs.lookup mainRef = some (.commit tip) := by
  obtain ⟨bytes, hread, -⟩ := h.read
  exact main_of_readTip hread

theorem RowsUpTo.free (h : RowsUpTo s) : FreeNumber s (s.currentVersion + 1) := by
  intro v hv
  have hle := h v hv
  omega

/-- A projection of a canon that reads, by the fate of its rows. -/
theorem projectPushedCommit_of_reads (f : ProjectionFaults) {tip : Commit}
    (h : CanonReads core refs) (hmain : refs.lookup mainRef = some (.commit tip))
    (hrows : RowsUpTo s) : ∃ next, NextVersion s next ∧
      ((f.insert = .done ∧ ∃ patched, NextVersion s patched ∧ projectPushedCommit core f refs s =
        ⟨withTag refs (taggedOnce f s.currentVersion) tip, patched,
          .ok (some (s.currentVersion + 1)), false⟩) ∨
      (f.insert = .failed ∧
        projectPushedCommit core f refs s = ⟨refs, s, .error .database, false⟩) ∨
      (f.insert = .lost ∧
        projectPushedCommit core f refs s = ⟨refs, next, .error .database, false⟩)) := by
  obtain ⟨tip', subject, raw, steps, hcanon⟩ := canonReads_iff.mp h
  obtain rfl : tip = tip' := Refs.commit_unique hmain hcanon.main
  have hproject := projectPushedCommit_eq f hcanon hrows.free
  have hnext : NextVersion s (withRows s subject steps f.createdAt) := ⟨rfl, _, rfl, rfl⟩
  refine ⟨withRows s subject steps f.createdAt, hnext, ?_⟩
  cases hinsert : f.insert with
  | done =>
    rw [hinsert] at hproject
    refine Or.inl ⟨rfl, if f.patched = .failed then withRows s subject steps f.createdAt
      else updateMeta raw (withRows s subject steps f.createdAt), ?_, ?_⟩
    · split_ifs
      · exact hnext
      · exact hnext
    · rw [hproject]
      cases htag : f.tagged with
      | true => simp [taggedOnce, hinsert, htag, withTag]
      | false => simp [taggedOnce, hinsert, htag, withTag]
  | failed =>
    rw [hinsert] at hproject
    exact Or.inr (Or.inl ⟨rfl, hproject⟩)
  | lost =>
    rw [hinsert] at hproject
    exact Or.inr (Or.inr ⟨rfl, hproject⟩)

/-- The projection after a push or a merge writes the tag of one number, or none. -/
theorem projectMainOrLog_refs (first second : ProjectionFaults) (hrows : RowsUpTo s) :
    (¬ CanonReads core refs ∧ projectMainOrLog core first second refs s = (refs, s, 0)) ∨
    ∃ tip, CanonReads core refs ∧ refs.lookup mainRef = some (.commit tip) ∧
      (projectMainOrLog core first second refs s).1 =
        withTag refs (taggedNumber first second s.currentVersion) tip ∧
      RowsUpTo (projectMainOrLog core first second refs s).2.1 := by
  by_cases hreads : CanonReads core refs
  · right
    obtain ⟨tip, bytes, subject, raw, hread, hparse, hsome⟩ := hreads
    have hmain := main_of_readTip hread
    have hreads : CanonReads core refs := ⟨tip, bytes, subject, raw, hread, hparse, hsome⟩
    refine ⟨tip, hreads, hmain, ?_⟩
    obtain ⟨next, hnext, hfirst⟩ := projectPushedCommit_of_reads first hreads hmain hrows
    rcases hfirst with ⟨hdone, patched, hpatched, honce⟩ | ⟨hfailed, honce⟩ | ⟨hlost, honce⟩
    · simp only [projectMainOrLog, honce, taggedNumber, hdone]
      exact ⟨trivial, hrows.next hpatched⟩
    · obtain ⟨next', hnext', hagain⟩ := projectPushedCommit_of_reads second hreads hmain hrows
      simp only [projectMainOrLog, honce, taggedNumber, hfailed]
      rcases hagain with ⟨_, patched, hpatched, htwice⟩ | ⟨hstop, htwice⟩ | ⟨hstop, htwice⟩
      · rw [htwice]
        exact ⟨rfl, hrows.next hpatched⟩
      · rw [htwice]
        exact ⟨by simp [taggedOnce, hstop, withTag], hrows⟩
      · rw [htwice]
        exact ⟨by simp [taggedOnce, hstop, withTag], hrows.next hnext'⟩
    · have hlater := hrows.next hnext
      obtain ⟨next', hnext', hagain⟩ := projectPushedCommit_of_reads second hreads hmain hlater
      simp only [projectMainOrLog, honce, taggedNumber, hlost]
      rw [hnext.1] at hagain
      rcases hagain with ⟨_, patched, hpatched, htwice⟩ | ⟨hstop, htwice⟩ | ⟨hstop, htwice⟩
      · rw [htwice]
        exact ⟨rfl, hlater.next hpatched⟩
      · rw [htwice]
        exact ⟨by simp [taggedOnce, hstop, withTag], hlater⟩
      · rw [htwice]
        exact ⟨by simp [taggedOnce, hstop, withTag], hlater.next hnext'⟩
  · left
    have honce := projectPushedCommit_of_not_reads first (s := s) hreads
    refine ⟨hreads, ?_⟩
    simp only [projectMainOrLog, honce]
    rfl

end Projection

end Setfork.Received
