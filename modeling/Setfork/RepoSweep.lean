/- RepoSweep
   digest: The removal of orphaned repositories between the births and the reads of lists. -/
import Mathlib.Data.Char
import Mathlib.Logic.Function.Basic
import Setfork.CarriedTree
import Setfork.Service

set_option autoImplicit false
set_option relaxedAutoImplicit false

namespace Setfork.RepoSweep

open Setfork.Foundation
open Setfork.Rows
open Setfork.CanonMirror
open Setfork.TreeRule (stripSuffix stripSuffix_eq_some)
open Setfork.Authored
open Setfork.VersionTree
open Setfork.Repository
open Setfork.History
open Setfork.Alignment
open Setfork.Service

/-- The directory of the repository of a list. -/
def repoDir (id : Uuid) : Text := id.toString ++ ".git".toList

/-- The list a directory is named after; other names are none of our business. -/
def dirId (name : Text) : Option Uuid := (stripSuffix ".git".toList name).bind Uuid.parseStr

/-- The directories named after no living list, in the order of their names. -/
def orphanRepoDirs (names : List Text) (live : List Uuid) : List Text :=
  (names.filter (fun name => (dirId name).any (fun id => !live.contains id))).insertionSort (· ≤ ·)

theorem dirId_repoDir (id : Uuid) : dirId (repoDir id) = some id := by
  have hstem : stripSuffix ".git".toList (repoDir id) = some id.toString :=
    stripSuffix_eq_some.mpr rfl
  rw [dirId, hstem, Option.bind_some, Uuid.parseStr_toString]

theorem repoDir_injective {id other : Uuid} (h : repoDir id = repoDir other) : id = other := by
  have hid := dirId_repoDir id
  rw [h, dirId_repoDir] at hid
  exact (Option.some.inj hid).symm

theorem mem_orphanRepoDirs {names : List Text} {live : List Uuid} {name : Text} :
    name ∈ orphanRepoDirs names live ↔
      name ∈ names ∧ ∃ id, dirId name = some id ∧ id ∉ live := by
  simp [orphanRepoDirs, List.mem_insertionSort, Option.any_eq_true]

structure Birth where
  column : Foundation.Json.Number → Foundation.Json.Number
  data : ListMeta
  note : Text
  rows : List StepRow
  files : List AuthoredInput
  createdAt : Int

/-- How far an open creation has come: its row is inserted, its directory is there, or its
repository is written. The row is not visible to anyone before the commit. -/
inductive Stage where
  | begun
  | prepared
  | written
deriving DecidableEq

structure Creation where
  birth : Birth
  stage : Stage

/-- The sweep: not running, reading the volume with its snapshot of living lists, going through
the orphans, or about to remove the one it has asked the database about. -/
inductive Sweep where
  | resting
  | walking (live : List Uuid) (names : List Text)
  | sweeping (paths : List Text)
  | removing (path : Text) (paths : List Text)

/-- The rows of the lists, the open creations, the volume, and the sweep. Identifiers that have
been drawn are never drawn again. -/
structure World where
  drawn : List Uuid
  lists : AList (fun _ : Uuid => ListState)
  creating : AList (fun _ : Uuid => Creation)
  volume : Text → Disk
  sweep : Sweep

/-- The steps of the sweep. A removal leaves nothing, or what it did not get to. -/
inductive SweepEvent where
  | snapshot
  | entry (name : Text)
  | walked
  | recheck (answered : Bool)
  | remove (left : Disk)
  | stop

/-- The steps of a creation, which may be abandoned at any point with its directory staying. -/
inductive CreateEvent where
  | draw (birth : Birth)
  | prepare
  | write (f : WriteFaults) (cleaned : Bool)
  | commit
  | abandon

inductive Event where
  | sweep (e : SweepEvent)
  | create (id : Uuid) (e : CreateEvent)
  | read (id : Uuid) (f : SyncFaults)

def isThere : Disk → Bool
  | .absent => false
  | .unreadable => true
  | .repo _ => true

/-- The rows of a list that is born. -/
def Birth.list (b : Birth) : ListState := createList b.column b.data b.note b.createdAt b.rows

/-- One step of the sweep. It takes no lock of any list. -/
def sweepStep (w : World) (e : SweepEvent) : World :=
  match e, w.sweep with
  | .snapshot, .resting =>
    if w.lists.keys.isEmpty then w else { w with sweep := .walking w.lists.keys [] }
  | .entry name, .walking live names =>
    if isThere (w.volume name) then { w with sweep := .walking live (name :: names) } else w
  | .walked, .walking live names => { w with sweep := .sweeping (orphanRepoDirs names live) }
  | .recheck _, .sweeping [] => { w with sweep := .resting }
  | .recheck answered, .sweeping (path :: paths) =>
    if !answered then { w with sweep := .resting }
    else if ((dirId path).bind w.lists.lookup).isSome then { w with sweep := .sweeping paths }
    else { w with sweep := .removing path paths }
  | .remove left, .removing path paths =>
    { w with
      volume := Function.update w.volume path left
      sweep := if isThere left then .resting else .sweeping paths }
  | .stop, _ => { w with sweep := .resting }
  | _, _ => w

section Steps

variable (core : Core)

def Birth.version (b : Birth) : Serialize.VersionData :=
  createVersionData b.data b.note b.createdAt b.rows

/-- One step of a creation; the files are judged before the directory is made. -/
def createStep (w : World) (id : Uuid) (e : CreateEvent) : World :=
  match e, w.creating.lookup id with
  | .draw birth, _ =>
    if id ∈ w.drawn then w
    else { w with drawn := id :: w.drawn, creating := w.creating.insert id ⟨birth, .begun⟩ }
  | .prepare, some ⟨birth, .begun⟩ =>
    if (authoredInputViolation birth.files).isSome then
      { w with creating := w.creating.erase id }
    else
      { w with
        volume := Function.update w.volume (repoDir id) (.repo ∅)
        creating := w.creating.insert id ⟨birth, .prepared⟩ }
  | .write f cleaned, some ⟨birth, .prepared⟩ =>
    let made := initWithVersion core f birth.version (.replace birth.files)
    if isThere (w.volume (repoDir id)) && made.2.isOk then
      { w with
        volume := Function.update w.volume (repoDir id) (.repo made.1)
        creating := w.creating.insert id ⟨birth, .written⟩ }
    else
      { w with
        volume := Function.update w.volume (repoDir id) (if cleaned then .absent else .repo made.1)
        creating := w.creating.erase id }
  | .commit, some ⟨birth, .written⟩ =>
    { w with lists := w.lists.insert id birth.list, creating := w.creating.erase id }
  | .abandon, some _ => { w with creating := w.creating.erase id }
  | _, _ => w

def readStep (w : World) (id : Uuid) (f : SyncFaults) : World :=
  match w.lists.lookup id with
  | none => w
  | some s =>
    let ensured := ensureRepo core f ⟨w.volume (repoDir id), some s⟩
    { w with
      volume := Function.update w.volume (repoDir id) ensured.disk
      lists := w.lists.insert id (ensured.list.getD s) }

def step (event : Event) (w : World) : World :=
  match event with
  | .sweep e => sweepStep w e
  | .create id e => createStep core w id e
  | .read id f => readStep core w id f

abbrev run (events : List Event) (w : World) : World := Runs.run (step core) events w

end Steps

/-- A directory that was there still is, and a repository has all its references. -/
def KeptDisk (before after : Disk) : Prop :=
  match before with
  | .absent => True
  | .unreadable => isThere after = true
  | .repo refs => ∃ later, after = .repo later ∧ ∀ name ∈ refs, name ∈ later

/-- The directory of every list that has a row in the end is kept. -/
def Spared (before after : World) : Prop :=
  ∀ id ∈ after.lists, KeptDisk (before.volume (repoDir id)) (after.volume (repoDir id))

/-- The sweep does not ask about the directory of a creation that is still open. -/
def RecheckClear (event : Event) (w : World) : Prop :=
  match event, w.sweep with
  | .sweep (.recheck true), .sweeping (path :: _) => ∀ id ∈ w.creating, path ≠ repoDir id
  | _, _ => True

/-- No party is at work, and only drawn identifiers have rows or directories. -/
structure Start (w : World) : Prop where
  resting : w.sweep = .resting
  closed : w.creating = ∅
  listed : ∀ id ∈ w.lists, id ∈ w.drawn
  stored : ∀ id, id ∉ w.drawn → w.volume (repoDir id) = .absent

/-- A row, or a transaction that may still bring one. -/
def Alive (w : World) (id : Uuid) : Prop := id ∈ w.lists ∨ id ∈ w.creating

def Sweep.names : Sweep → List Text
  | .resting => []
  | .walking _ names => names
  | .sweeping paths => paths
  | .removing path paths => path :: paths

structure Sound (w : World) : Prop where
  alive : ∀ id, Alive w id → id ∈ w.drawn
  stored : ∀ id, id ∉ w.drawn → w.volume (repoDir id) = .absent
  seen : ∀ id, repoDir id ∈ w.sweep.names → id ∈ w.drawn
  judged : ∀ id paths, w.sweep = .removing (repoDir id) paths → ¬ Alive w id
  unlisted : ∀ id ∈ w.creating, id ∉ w.lists
  begun : ∀ id birth, w.creating.lookup id = some ⟨birth, .begun⟩ →
    w.volume (repoDir id) = .absent
  prepared : ∀ id birth, w.creating.lookup id = some ⟨birth, .prepared⟩ →
    w.volume (repoDir id) = .repo ∅

/-- What a run between two worlds keeps of the lists that are alive in the end. -/
structure Carried (before after : World) : Prop where
  drawn : ∀ id ∈ before.drawn, id ∈ after.drawn
  alive : ∀ id, Alive after id → id ∈ before.drawn → Alive before id
  kept : ∀ id, Alive after id → KeptDisk (before.volume (repoDir id)) (after.volume (repoDir id))

theorem KeptDisk.refl (disk : Disk) : KeptDisk disk disk := by
  cases disk with
  | absent => trivial
  | unreadable => rfl
  | repo refs => exact ⟨refs, rfl, fun _ hname => hname⟩

theorem KeptDisk.isThere {before after : Disk} (h : KeptDisk before after)
    (hthere : isThere before = true) : RepoSweep.isThere after = true := by
  cases before with
  | absent => cases hthere
  | unreadable => exact h
  | repo refs =>
    obtain ⟨later, rfl, -⟩ := h
    rfl

theorem KeptDisk.trans {before middle after : Disk} (h : KeptDisk before middle)
    (h' : KeptDisk middle after) : KeptDisk before after := by
  cases before with
  | absent => trivial
  | unreadable => exact h'.isThere h
  | repo refs =>
    obtain ⟨later, rfl, hnames⟩ := h
    obtain ⟨last, rfl, hlast⟩ := h'
    exact ⟨last, rfl, fun name hname => hlast name (hnames name hname)⟩

theorem Carried.refl (w : World) : Carried w w where
  drawn := fun _ h => h
  alive := fun _ h _ => h
  kept := fun _ _ => .refl _

theorem Carried.trans {a b c : World} (ha : Sound a) (hab : Carried a b) (hbc : Carried b c) :
    Carried a c where
  drawn := fun id h => hbc.drawn id (hab.drawn id h)
  alive := fun id hid hdrawn => hab.alive id (hbc.alive id hid (hab.drawn id hdrawn)) hdrawn
  kept := by
    intro id hid
    by_cases hdrawn : id ∈ a.drawn
    · have hmiddle := hbc.alive id hid (hab.drawn id hdrawn)
      exact (hab.kept id hmiddle).trans (hbc.kept id hid)
    · rw [ha.stored id hdrawn]
      trivial

private theorem mem_of_lookup {w : World} {id : Uuid} {creation : Creation}
    (h : w.creating.lookup id = some creation) : id ∈ w.creating := by
  apply AList.lookup_isSome.mp
  rw [h]
  rfl

/-- What a step of the sweep can do: it removes the one directory it has asked about, sees what is
there, and settles on a directory whose list it does not find. -/
structure SweepDoes (w : World) (e : SweepEvent) (volume : Text → Disk) (sweep : Sweep) : Prop where
  volume : volume = w.volume ∨ ∃ path paths left, w.sweep = .removing path paths ∧
    volume = Function.update w.volume path left
  names : ∀ name ∈ sweep.names, name ∈ w.sweep.names ∨ isThere (w.volume name) = true
  settles : ∀ path paths, sweep = .removing path paths → w.sweep = .removing path paths ∨
    e = .recheck true ∧ w.sweep = .sweeping (path :: paths) ∧
      (dirId path).bind w.lists.lookup = none

theorem sweepStep_does (w : World) (e : SweepEvent) : ∃ volume sweep,
    sweepStep w e = { w with volume := volume, sweep := sweep } ∧ SweepDoes w e volume sweep := by
  have hsame : SweepDoes w e w.volume w.sweep :=
    ⟨Or.inl rfl, fun _ h => Or.inl h, fun _ _ h => Or.inl h⟩
  unfold sweepStep
  split
  case h_1 =>
    split_ifs
    · exact ⟨_, _, rfl, hsame⟩
    · exact ⟨_, _, rfl, Or.inl rfl, fun _ h => absurd h List.not_mem_nil, nofun⟩
  case h_2 name live names hwalk =>
    split_ifs with hthere
    · refine ⟨_, _, rfl, Or.inl rfl, ?_, nofun⟩
      intro other hother
      rw [hwalk]
      rcases List.mem_cons.mp hother with rfl | hother
      · exact Or.inr hthere
      · exact Or.inl hother
    · exact ⟨_, _, rfl, hsame⟩
  case h_3 live names hwalk =>
    refine ⟨_, _, rfl, Or.inl rfl, ?_, nofun⟩
    intro name hname
    rw [hwalk]
    exact Or.inl (mem_orphanRepoDirs.mp hname).1
  case h_4 =>
    exact ⟨_, _, rfl, Or.inl rfl, fun _ h => absurd h List.not_mem_nil, nofun⟩
  case h_5 answered path paths hsweep =>
    split_ifs with hanswered hlisted
    · exact ⟨_, _, rfl, Or.inl rfl, fun _ h => absurd h List.not_mem_nil, nofun⟩
    · refine ⟨_, _, rfl, Or.inl rfl, ?_, nofun⟩
      intro name hname
      rw [hsweep]
      exact Or.inl (List.mem_cons_of_mem path hname)
    · refine ⟨_, _, rfl, Or.inl rfl, ?_, ?_⟩
      · intro name hname
        rw [hsweep]
        exact Or.inl hname
      · intro path' paths' heq
        obtain ⟨rfl, rfl⟩ := Sweep.removing.inj heq
        have hyes : answered = true := by simpa using hanswered
        exact Or.inr ⟨by rw [hyes], hsweep, by simpa using hlisted⟩
  case h_6 left path paths hsweep =>
    refine ⟨_, _, rfl, Or.inr ⟨path, paths, left, hsweep, rfl⟩, ?_, ?_⟩
    · intro name hname
      rw [hsweep]
      split_ifs at hname
      · exact absurd hname List.not_mem_nil
      · exact Or.inl (List.mem_cons_of_mem path hname)
    · intro path' paths' heq
      split_ifs at heq
  case h_7 =>
    exact ⟨_, _, rfl, Or.inl rfl, fun _ h => absurd h List.not_mem_nil, nofun⟩
  case h_8 => exact ⟨_, _, rfl, hsame⟩

theorem sweepStep_volume {w : World} (hsound : Sound w) (e : SweepEvent) {id : Uuid}
    (hid : Alive w id) : (sweepStep w e).volume (repoDir id) = w.volume (repoDir id) := by
  obtain ⟨volume, sweep, hstep, hdoes⟩ := sweepStep_does w e
  rw [hstep]
  rcases hdoes.volume with hsame | ⟨path, paths, left, hsweep, hvolume⟩
  · exact congrFun hsame _
  · have hne : repoDir id ≠ path := by
      rintro rfl
      exact hsound.judged id paths hsweep hid
    change volume (repoDir id) = _
    rw [hvolume, Function.update_of_ne hne]

theorem sound_sweepStep {w : World} (hsound : Sound w) {e : SweepEvent}
    (hclear : RecheckClear (.sweep e) w) : Sound (sweepStep w e) := by
  have hvolume : ∀ id, Alive w id → _ := fun id hid => sweepStep_volume hsound e hid
  obtain ⟨volume, sweep, hstep, hdoes⟩ := sweepStep_does w e
  rw [hstep] at hvolume ⊢
  refine ⟨hsound.alive, ?_, ?_, ?_, hsound.unlisted, ?_, ?_⟩
  · intro id hdrawn
    have habsent := hsound.stored id hdrawn
    rcases hdoes.volume with hsame | ⟨path, paths, left, hsweep, heq⟩
    · exact (congrFun hsame _).trans habsent
    · have hne : repoDir id ≠ path := by
        rintro rfl
        refine hdrawn (hsound.seen id ?_)
        rw [hsweep]
        exact List.mem_cons_self
      change volume (repoDir id) = _
      rw [heq, Function.update_of_ne hne, habsent]
  · intro id hname
    rcases hdoes.names _ hname with hold | hthere
    · exact hsound.seen id hold
    · by_contra hdrawn
      rw [hsound.stored id hdrawn] at hthere
      cases hthere
  · intro id paths hsweep
    rcases hdoes.settles _ _ hsweep with hold | ⟨rfl, hasked, hnone⟩
    · exact hsound.judged id paths hold
    · rw [dirId_repoDir, Option.bind_some, AList.lookup_eq_none] at hnone
      rintro (hlisted | hopened)
      · exact hnone hlisted
      · unfold RecheckClear at hclear
        simp only [hasked] at hclear
        exact hclear id hopened rfl
  · intro id birth hlookup
    exact (hvolume id (Or.inr (mem_of_lookup hlookup))).trans (hsound.begun id birth hlookup)
  · intro id birth hlookup
    exact (hvolume id (Or.inr (mem_of_lookup hlookup))).trans (hsound.prepared id birth hlookup)

theorem carried_sweepStep {w : World} (hsound : Sound w) (e : SweepEvent) :
    Carried w (sweepStep w e) := by
  have hvolume : ∀ id, Alive w id → _ := fun id hid => sweepStep_volume hsound e hid
  obtain ⟨volume, sweep, hstep, -⟩ := sweepStep_does w e
  rw [hstep] at hvolume ⊢
  refine ⟨fun _ h => h, fun _ h _ => h, ?_⟩
  intro id hid
  rw [hvolume id hid]
  exact .refl _

/-- A step of one list, which has a row or an open transaction: it touches nothing but its own. -/
structure OwnStep (w : World) (id : Uuid) (after : World) : Prop where
  drawn : after.drawn = w.drawn
  sweep : after.sweep = w.sweep
  lists : ∀ other, other ≠ id → (other ∈ after.lists ↔ other ∈ w.lists)
  creating : ∀ other, other ≠ id → after.creating.lookup other = w.creating.lookup other
  volume : ∀ other, other ≠ id → after.volume (repoDir other) = w.volume (repoDir other)
  alive : Alive w id
  kept : Alive after id → KeptDisk (w.volume (repoDir id)) (after.volume (repoDir id))
  unlisted : id ∈ after.creating → id ∉ after.lists
  begun : ∀ birth, after.creating.lookup id = some ⟨birth, .begun⟩ →
    after.volume (repoDir id) = .absent
  prepared : ∀ birth, after.creating.lookup id = some ⟨birth, .prepared⟩ →
    after.volume (repoDir id) = .repo ∅

namespace OwnStep

variable {w after : World} {id : Uuid}

private theorem alive_other (h : OwnStep w id after) {other : Uuid} (hne : other ≠ id) :
    Alive after other ↔ Alive w other := by
  unfold Alive
  rw [h.lists other hne, ← AList.lookup_isSome (s := after.creating), h.creating other hne,
    AList.lookup_isSome]

theorem sound (h : OwnStep w id after) (hsound : Sound w) : Sound after := by
  have hdrawn := hsound.alive id h.alive
  refine ⟨?_, ?_, ?_, ?_, ?_, ?_, ?_⟩
  · intro other hother
    rw [h.drawn]
    by_cases hne : other = id
    · rw [hne]
      exact hdrawn
    · exact hsound.alive other ((h.alive_other hne).mp hother)
  · intro other hother
    rw [h.drawn] at hother
    have hne : other ≠ id := by
      rintro rfl
      exact hother hdrawn
    rw [h.volume other hne, hsound.stored other hother]
  · intro other hother
    rw [h.sweep] at hother
    rw [h.drawn]
    exact hsound.seen other hother
  · intro other paths hsweep
    rw [h.sweep] at hsweep
    have hdead := hsound.judged other paths hsweep
    have hne : other ≠ id := by
      rintro rfl
      exact hdead h.alive
    rwa [h.alive_other hne]
  · intro other hother
    by_cases hne : other = id
    · subst hne
      exact h.unlisted hother
    · rw [h.lists other hne]
      apply hsound.unlisted
      rwa [← AList.lookup_isSome, ← h.creating other hne, AList.lookup_isSome]
  · intro other birth hlookup
    by_cases hne : other = id
    · subst hne
      exact h.begun birth hlookup
    · rw [h.creating other hne] at hlookup
      rw [h.volume other hne, hsound.begun other birth hlookup]
  · intro other birth hlookup
    by_cases hne : other = id
    · subst hne
      exact h.prepared birth hlookup
    · rw [h.creating other hne] at hlookup
      rw [h.volume other hne, hsound.prepared other birth hlookup]

theorem carried (h : OwnStep w id after) : Carried w after := by
  refine ⟨fun other hother => h.drawn ▸ hother, ?_, ?_⟩
  · intro other hother _
    by_cases hne : other = id
    · rw [hne]
      exact h.alive
    · exact (h.alive_other hne).mp hother
  · intro other hother
    by_cases hne : other = id
    · subst hne
      exact h.kept hother
    · rw [h.volume other hne]
      exact .refl _

end OwnStep

private theorem volume_update_own {volume : Text → Disk} {id other : Uuid} (hne : other ≠ id)
    (disk : Disk) : Function.update volume (repoDir id) disk (repoDir other) =
      volume (repoDir other) :=
  Function.update_of_ne (fun h => hne (repoDir_injective h)) disk volume

theorem draw_keeps (core : Core) {w : World} (hsound : Sound w) (id : Uuid) (birth : Birth) :
    Sound (createStep core w id (.draw birth)) ∧
      Carried w (createStep core w id (.draw birth)) := by
  by_cases hdrawn : id ∈ w.drawn
  · have hsame : createStep core w id (.draw birth) = w := by simp [createStep, hdrawn]
    rw [hsame]
    exact ⟨hsound, .refl w⟩
  · have hstep : createStep core w id (.draw birth) =
        { w with drawn := id :: w.drawn, creating := w.creating.insert id ⟨birth, .begun⟩ } := by
      simp [createStep, hdrawn]
    rw [hstep]
    have halive : ∀ other, other ≠ id →
        (other ∈ w.lists ∨ other ∈ w.creating.insert id ⟨birth, .begun⟩) → Alive w other := by
      rintro other hne (hlisted | hopened)
      · exact Or.inl hlisted
      · exact Or.inr (((AList.mem_insert _).mp hopened).resolve_left hne)
    refine ⟨⟨?_, ?_, ?_, ?_, ?_, ?_, ?_⟩, ⟨fun _ h => List.mem_cons_of_mem id h, ?_, ?_⟩⟩
    · intro other hother
      by_cases hne : other = id
      · rw [hne]
        exact List.mem_cons_self
      · exact List.mem_cons_of_mem id (hsound.alive other (halive other hne hother))
    · intro other hother
      exact hsound.stored other fun h => hother (List.mem_cons_of_mem id h)
    · intro other hother
      exact List.mem_cons_of_mem id (hsound.seen other hother)
    · intro other paths hsweep hother
      have hseen : other ∈ w.drawn := by
        apply hsound.seen
        rw [show w.sweep = _ from hsweep]
        exact List.mem_cons_self
      have hne : other ≠ id := fun h => hdrawn (h ▸ hseen)
      exact hsound.judged other paths hsweep (halive other hne hother)
    · intro other hother
      rcases (AList.mem_insert _).mp hother with rfl | hother
      · exact fun hlisted => hdrawn (hsound.alive _ (Or.inl hlisted))
      · exact hsound.unlisted other hother
    · intro other birth' hlookup
      by_cases hne : other = id
      · rw [hne]
        exact hsound.stored id hdrawn
      · rw [AList.lookup_insert_ne hne] at hlookup
        exact hsound.begun other birth' hlookup
    · intro other birth' hlookup
      by_cases hne : other = id
      · subst hne
        rw [AList.lookup_insert] at hlookup
        cases hlookup
      · rw [AList.lookup_insert_ne hne] at hlookup
        exact hsound.prepared other birth' hlookup
    · intro other hother hold
      have hne : other ≠ id := fun h => hdrawn (h ▸ hold)
      exact halive other hne hother
    · intro other _
      exact .refl _

private theorem ownStep_ended {w : World} {id : Uuid} (halive : Alive w id)
    (lists : AList (fun _ : Uuid => ListState)) (volume : Text → Disk)
    (hlists : ∀ other, other ≠ id → (other ∈ lists ↔ other ∈ w.lists))
    (hvolume : ∀ other, other ≠ id → volume (repoDir other) = w.volume (repoDir other))
    (hkept : id ∈ lists → KeptDisk (w.volume (repoDir id)) (volume (repoDir id))) :
    OwnStep w id
      { w with lists := lists, creating := w.creating.erase id, volume := volume } where
  drawn := rfl
  sweep := rfl
  lists := hlists
  creating := fun _ hne => AList.lookup_erase_ne hne
  volume := hvolume
  alive := halive
  kept := by
    rintro (hlisted | hopened)
    · exact hkept hlisted
    · exact absurd rfl (AList.mem_erase.mp hopened).1
  unlisted := fun hopened => absurd rfl (AList.mem_erase.mp hopened).1
  begun := by
    intro birth hlookup
    rw [AList.lookup_erase] at hlookup
    cases hlookup
  prepared := by
    intro birth hlookup
    rw [AList.lookup_erase] at hlookup
    cases hlookup

theorem createStep_own (core : Core) {w : World} (hsound : Sound w) (id : Uuid) (e : CreateEvent) :
    createStep core w id e = w ∨ (∃ birth, e = .draw birth) ∨
      OwnStep w id (createStep core w id e) := by
  unfold createStep
  split
  case h_1 _ _ birth => exact Or.inr (Or.inl ⟨birth, rfl⟩)
  case h_2 _ birth hlookup =>
    have halive : Alive w id := Or.inr (mem_of_lookup hlookup)
    have hempty := hsound.begun id birth hlookup
    have hopen := mem_of_lookup hlookup
    right
    right
    split_ifs
    · refine ownStep_ended halive w.lists w.volume (fun _ _ => Iff.rfl) (fun _ _ => rfl) ?_
      intro _
      exact .refl _
    · refine ⟨rfl, rfl, fun _ _ => Iff.rfl, fun _ hne => AList.lookup_insert_ne hne,
        fun _ hne => volume_update_own hne _, halive, ?_, fun _ => hsound.unlisted id hopen, ?_, ?_⟩
      · intro _
        rw [hempty]
        trivial
      · intro birth' hopened
        rw [AList.lookup_insert] at hopened
        cases hopened
      · intro birth' _
        exact Function.update_self ..
  case h_3 f cleaned _ birth hlookup =>
    have halive : Alive w id := Or.inr (mem_of_lookup hlookup)
    have hblank := hsound.prepared id birth hlookup
    have hopen := mem_of_lookup hlookup
    right
    right
    dsimp only
    split_ifs
    · refine ⟨rfl, rfl, fun _ _ => Iff.rfl, fun _ hne => AList.lookup_insert_ne hne,
        fun _ hne => volume_update_own hne _, halive, ?_, fun _ => hsound.unlisted id hopen, ?_, ?_⟩
      · intro _
        dsimp only
        rw [hblank, Function.update_self]
        exact ⟨_, rfl, fun name hname => absurd hname (AList.notMem_empty name)⟩
      · intro birth' hopened
        rw [AList.lookup_insert] at hopened
        cases hopened
      · intro birth' hopened
        rw [AList.lookup_insert] at hopened
        cases hopened
    all_goals
      refine ownStep_ended halive w.lists _ (fun _ _ => Iff.rfl)
        (fun _ hne => volume_update_own hne _) ?_
      intro hlisted
      exact absurd hlisted (hsound.unlisted id hopen)
  case h_4 _ birth hlookup =>
    right
    right
    refine ownStep_ended (.inr (mem_of_lookup hlookup)) _ w.volume ?_ (fun _ _ => rfl) ?_
    · intro other hne
      rw [AList.mem_insert, or_iff_right hne]
    · intro _
      exact .refl _
  case h_5 _ creation hlookup =>
    right
    right
    refine ownStep_ended (.inr (mem_of_lookup hlookup)) w.lists w.volume (fun _ _ => Iff.rfl)
      (fun _ _ => rfl) ?_
    intro _
    exact .refl _
  case h_6 => exact Or.inl rfl

def NamesKept (before after : Refs) : Prop := ∀ name ∈ before, name ∈ after

section Names

variable (core : Core)

private theorem namesKept_buildHistory (f : WriteFaults) (refs : Refs)
    (versions : List Serialize.VersionData) (parent : Option Commit) (authored : AuthoredSource) :
    NamesKept refs (buildHistory core f refs versions parent authored).1 := by
  rcases buildHistory_cases core f refs versions parent authored with hsame | hmoved
  · rw [hsame]
    exact fun _ h => h
  · obtain ⟨made, tip, -, -, -, -, hrefs⟩ := hmoved
    rw [hrefs]
    exact fun name h => Refs.mem_setAll ((AList.mem_insert refs).mpr (Or.inr h)) _

private theorem namesKept_appendMissingVersions (f : WriteFaults) (refs : Refs)
    (versions : List Serialize.VersionData) :
    NamesKept refs (appendMissingVersions core f refs versions).1 := by
  unfold appendMissingVersions
  split_ifs
  · exact fun _ h => h
  split
  · exact fun _ h => h
  · exact namesKept_buildHistory core f refs versions none .carry
  · split
    · exact fun _ h => h
    · exact namesKept_buildHistory core f refs versions _ .carry
    · dsimp only
      rw [tagAll_eq]
      exact fun name h => Refs.mem_setAll h _

private theorem namesKept_projectPushedCommit (f : ProjectionFaults) (refs : Refs)
    (s : ListState) : NamesKept refs (projectPushedCommit core f refs s).refs := by
  rcases projectPushedCommit_refs core f refs s with hrefs | ⟨tip, -, hrefs⟩
  · rw [hrefs]
    exact fun _ h => h
  · rw [hrefs]
    exact fun name h => (AList.mem_insert refs).mpr (Or.inr h)

private theorem namesKept_alignByCounters (f : SyncFaults) (refs : Refs) (s : ListState)
    (highest : Nat) : NamesKept refs (alignByCounters core f refs s highest).refs := by
  rcases alignByCounters_refs core f refs s highest with hrefs | hrefs | hrefs
  · rw [hrefs]
    exact fun _ h => h
  · rw [hrefs]
    exact namesKept_projectPushedCommit core f.projection refs s
  · rw [hrefs]
    exact namesKept_appendMissingVersions core f.history refs _

private theorem namesKept_healMain (f : SyncFaults) (refs : Refs) (s : ListState)
    (highest : Nat) : NamesKept refs (healMain core f refs s highest).refs := by
  have haligned := namesKept_alignByCounters core f refs s highest
  rcases healMain_cases core f refs s highest _ rfl _ rfl with
    ⟨e, -, -, heq⟩ | ⟨c, -, -, -, -, heq⟩ | ⟨-, heq⟩
  · rw [heq]
    exact fun _ h => h
  · rw [heq]
    have hrestored := namesKept_alignByCounters core f (refs.insert mainRef (.commit c)) s highest
    exact fun name h => hrestored name ((AList.mem_insert refs).mpr (Or.inr h))
  · rw [heq]
    split_ifs
    · rcases bootstrapOr_cases core f refs s _ _ rfl with ⟨hboot, -⟩ | ⟨hboot, -⟩ | ⟨-, -, -, hboot, -⟩
      · rw [hboot]
        exact fun _ h => h
      · rw [hboot]
        exact haligned
      · rw [hboot]
        exact namesKept_buildHistory core f.history refs _ none .carry
    · exact haligned

theorem keptDisk_sync (f : SyncFaults) (disk : Disk) (s : ListState) :
    KeptDisk disk (syncRepoWithDb core f disk (some s)).disk := by
  cases disk with
  | absent => trivial
  | unreadable =>
    unfold syncRepoWithDb
    split_ifs <;> rfl
  | repo refs =>
    cases hread : f.readCurrent with
    | false =>
      simp only [syncRepoWithDb, hread, Bool.not_false, if_true]
      exact .refl _
    | true =>
      simp only [syncRepoWithDb, hread, Bool.not_true, Bool.false_eq_true, if_false]
      split_ifs
      · exact ⟨_, rfl, namesKept_alignByCounters core f refs s (maxTagIn refs)⟩
      · exact ⟨_, rfl, namesKept_healMain core f refs s (maxTagIn refs)⟩

theorem keptDisk_ensureRepo (f : SyncFaults) (disk : Disk) (s : ListState) :
    KeptDisk disk (ensureRepo core f ⟨disk, some s⟩).disk := by
  cases disk with
  | absent => trivial
  | unreadable => exact keptDisk_sync core f .unreadable s
  | repo refs => exact keptDisk_sync core f (.repo refs) s

end Names

theorem readStep_own (core : Core) {w : World} (hsound : Sound w) (id : Uuid) (f : SyncFaults) :
    readStep core w id f = w ∨ OwnStep w id (readStep core w id f) := by
  unfold readStep
  cases hlookup : w.lists.lookup id with
  | none => exact Or.inl rfl
  | some s =>
    right
    have hlisted : id ∈ w.lists := by
      apply AList.lookup_isSome.mp
      rw [hlookup]
      rfl
    have hclosed : id ∉ w.creating := fun h => hsound.unlisted id h hlisted
    have hnone : ∀ creation, w.creating.lookup id ≠ some creation :=
      fun creation h => hclosed (mem_of_lookup h)
    refine ⟨rfl, rfl, ?_, fun _ _ => rfl, fun _ hne => volume_update_own hne _, Or.inl hlisted,
      ?_, fun h => absurd h hclosed, fun _ h => absurd h (hnone _), fun _ h => absurd h (hnone _)⟩
    · intro other hne
      rw [AList.mem_insert, or_iff_right hne]
    · intro _
      dsimp only
      rw [Function.update_self]
      exact keptDisk_ensureRepo core f _ s

theorem step_keeps (core : Core) {w : World} (hsound : Sound w) {event : Event}
    (hclear : RecheckClear event w) :
    Sound (step core event w) ∧ Carried w (step core event w) := by
  cases event with
  | sweep e => exact ⟨sound_sweepStep hsound hclear, carried_sweepStep hsound e⟩
  | create id e =>
    rcases createStep_own core hsound id e with hsame | ⟨birth, rfl⟩ | hown
    · change Sound (createStep core w id e) ∧ Carried w (createStep core w id e)
      rw [hsame]
      exact ⟨hsound, .refl w⟩
    · exact draw_keeps core hsound id birth
    · exact ⟨hown.sound hsound, hown.carried⟩
  | read id f =>
    rcases readStep_own core hsound id f with hsame | hown
    · change Sound (readStep core w id f) ∧ Carried w (readStep core w id f)
      rw [hsame]
      exact ⟨hsound, .refl w⟩
    · exact ⟨hown.sound hsound, hown.carried⟩

theorem Start.sound {w : World} (h : Start w) : Sound w := by
  have hclosed : ∀ id, id ∉ w.creating := by
    intro id
    rw [h.closed]
    exact AList.notMem_empty id
  have hnone : ∀ id creation, w.creating.lookup id ≠ some creation :=
    fun id creation hlookup => hclosed id (mem_of_lookup hlookup)
  refine ⟨?_, h.stored, ?_, ?_, fun id hopen => absurd hopen (hclosed id),
    fun id birth hlookup => absurd hlookup (hnone id _),
    fun id birth hlookup => absurd hlookup (hnone id _)⟩
  · rintro id (hlisted | hopen)
    · exact h.listed id hlisted
    · exact absurd hopen (hclosed id)
  · intro id hname
    rw [h.resting] at hname
    exact absurd hname List.not_mem_nil
  · intro id paths hsweep
    rw [h.resting] at hsweep
    cases hsweep

theorem carried_run (core : Core) {w : World} (hstart : Start w) (events : List Event)
    (hclear : ∀ i (h : i < events.length), RecheckClear events[i] (run core (events.take i) w))
    {i j : Nat} (hij : i ≤ j) (hj : j ≤ events.length) :
    Sound (run core (events.take i) w) ∧
      Carried (run core (events.take i) w) (run core (events.take j) w) := by
  have hstretch : ∀ i j, i ≤ j → j ≤ events.length →
      Sound (run core (events.take i) w) → Sound (run core (events.take j) w) ∧
        Carried (run core (events.take i) w) (run core (events.take j) w) := by
    refine (Runs.run_related_iff (step core)
      (R := fun a b => Sound a → Sound b ∧ Carried a b) (fun st h => ⟨h, .refl st⟩)
      (fun hab hbc ha => ?_) events w).mpr fun i hi hsound => step_keeps core hsound (hclear i hi)
    obtain ⟨hb, hcarried⟩ := hab ha
    obtain ⟨hc, hlater⟩ := hbc hb
    exact ⟨hc, hcarried.trans ha hlater⟩
  have hsound := (hstretch 0 i (Nat.zero_le i) (hij.trans hj) hstart.sound).1
  exact ⟨hsound, (hstretch i j hij hj hsound).2⟩

/-- In every run in which the sweep never asks about the directory of an open creation, every
directory whose list has a row in the end is still there with all its references, and no step of
the sweep touches the directory of a list that has a row or may still get one. -/
theorem sweep_spares_living_lists (core : Core) {w : World} (hstart : Start w)
    (events : List Event)
    (hclear : ∀ i (h : i < events.length), RecheckClear events[i] (run core (events.take i) w)) :
    (∀ i j, i ≤ j → j ≤ events.length →
      Spared (run core (events.take i) w) (run core (events.take j) w)) ∧
    ∀ i (h : i < events.length) e, events[i] = .sweep e →
      ∀ id, Alive (run core (events.take i) w) id →
        (run core (events.take (i + 1)) w).volume (repoDir id) =
          (run core (events.take i) w).volume (repoDir id) := by
  constructor
  · intro i j hij hj id hlisted
    exact (carried_run core hstart events hclear hij hj).2.kept id (Or.inl hlisted)
  · intro i hi e hevent id hid
    have hsound := (carried_run core hstart events hclear (Nat.le_refl i) (Nat.le_of_lt hi)).1
    have hnext : run core (events.take (i + 1)) w = step core events[i] (run core (events.take i) w) :=
      Runs.run_take_succ (step core) events w i hi
    rw [hnext, hevent]
    exact sweepStep_volume hsound e hid

/-- The sweep asks about a directory and removes it, and then its list is committed. -/
def sweptAway (id : Uuid) : List Event :=
  [.sweep (.recheck true), .sweep (.remove .absent), .create id .commit]

theorem recheck_destroys (core : Core) {w : World} {id : Uuid} {birth : Birth} {paths : List Text}
    (hsweep : w.sweep = .sweeping (repoDir id :: paths))
    (hopen : w.creating.lookup id = some ⟨birth, .written⟩) (hunlisted : w.lists.lookup id = none) :
    id ∈ (run core (sweptAway id) w).lists ∧
      (run core (sweptAway id) w).volume (repoDir id) = .absent := by
  have hasked : sweepStep w (.recheck true) = { w with sweep := .removing (repoDir id) paths } := by
    simp [sweepStep, hsweep, dirId_repoDir, hunlisted]
  simp only [sweptAway, run, Runs.run_cons, Runs.run_nil, step, hasked]
  simp only [sweepStep, createStep, hopen]
  exact ⟨(AList.mem_insert _).mpr (Or.inl rfl), Function.update_self ..⟩

def oldId : Uuid := .repeated 0

def newId : Uuid := .repeated 1

def lostId : Uuid := .repeated 2

/-- A list with a row and no directory yet, and nothing else. -/
def oneList : World where
  drawn := [oldId]
  lists := AList.singleton oldId bornList
  creating := ∅
  volume := fun _ => .absent
  sweep := .resting

theorem oneList_start : Start oneList where
  resting := rfl
  closed := rfl
  listed := by
    intro id hid
    have hlisted : id ∈ [oldId] := hid
    exact hlisted
  stored := fun _ _ => rfl

def scriptBirth : Birth := ⟨id, plainMeta, "initial".toList, [], PathDoors.plainScript, 0⟩

/-- The sweep takes its snapshot before the list is born, and finds the directory after it. -/
def bornDuringSweep (id : Uuid) : List Event :=
  [.sweep .snapshot, .create id (.draw scriptBirth), .create id .prepare,
    .create id (.write ⟨true, fun _ => true⟩ true), .sweep (.entry (repoDir id)), .sweep .walked]

theorem scriptBirth_written : ∃ refs c,
    initWithVersion canonCore ⟨true, fun _ => true⟩ scriptBirth.version
      (.replace scriptBirth.files) = (refs, .ok (some c)) := by
  have hname : Name.ofBytes (utf8 "run.sh".toList) = some AuthoredDoors.scriptName := rfl
  obtain ⟨t, ht⟩ := PathDoors.namedScript_tree scriptBirth.version hname
  have hformat : mainViolation t = none := CarriedTree.inFormat_plainScript ht
  let c : Commit := .mk t [] ⟨Readme.commitMessage scriptBirth.version, authorName, 0⟩
  have hcommit : commitVersion canonCore none scriptBirth.version (.replace scriptBirth.files) =
      some c := congrArg (Option.map (fun t =>
    Commit.mk t [] ⟨Readme.commitMessage scriptBirth.version, authorName, 0⟩)) ht
  have hmade : commitAll canonCore (.replace scriptBirth.files) none [scriptBirth.version] =
      some [(1, c)] := congrArg (fun o => Option.bind o (fun c => some [((1 : Int), c)])) hcommit
  have hmoved : updateMain ∅ true c none = .ok (AList.insert mainRef (.commit c) ∅) := by
    refine updateMain_eq_ok_iff.mpr ⟨hformat, rfl, ?_, rfl, rfl⟩
    intro old hold
    cases hold
  have hbuilt := buildHistory_of_moved (f := ⟨true, fun _ => true⟩) hmade rfl hmoved
  have hinit : initWithVersion canonCore ⟨true, fun _ => true⟩ scriptBirth.version
      (.replace scriptBirth.files) = buildHistory canonCore ⟨true, fun _ => true⟩ ∅
        [scriptBirth.version] none (.replace scriptBirth.files) := by
    simp only [initWithVersion, appendVersionWith, scriptBirth, PathDoors.plainScript_accepted,
      mainCommit]
    rfl
  rw [hinit, hbuilt]
  exact ⟨_, c, rfl⟩

private theorem orphans_single {id : Uuid} {live : List Uuid} (hid : id ∉ live) :
    orphanRepoDirs [repoDir id] live = [repoDir id] := by
  have hnew : (dirId (repoDir id)).any (fun id => !live.contains id) = true := by
    rw [dirId_repoDir]
    simpa using hid
  have hkept := List.filter_cons_of_pos (p := fun name =>
    (dirId name).any (fun id => !live.contains id)) (l := []) hnew
  rw [orphanRepoDirs, hkept]
  rfl

private theorem orphans_new : orphanRepoDirs [repoDir newId] [oldId] = [repoDir newId] :=
  orphans_single (by decide)

theorem bornDuringSweep_sweeping : ∃ refs,
    (run canonCore (bornDuringSweep newId) oneList).sweep = .sweeping [repoDir newId] ∧
    (run canonCore (bornDuringSweep newId) oneList).creating.lookup newId =
      some ⟨scriptBirth, .written⟩ ∧
    (run canonCore (bornDuringSweep newId) oneList).lists.lookup newId = none ∧
    (run canonCore (bornDuringSweep newId) oneList).volume (repoDir newId) =
      .repo refs := by
  obtain ⟨refs, c, hwritten⟩ := scriptBirth_written
  have hnew : newId ∉ oneList.drawn := by decide
  have hfiles : (authoredInputViolation scriptBirth.files).isSome = false := by
    rw [scriptBirth, PathDoors.plainScript_accepted]
    rfl
  have hsnap : sweepStep oneList .snapshot = { oneList with sweep := .walking [oldId] [] } := rfl
  refine ⟨refs, ?_⟩
  simp only [run, bornDuringSweep, Runs.run_cons, Runs.run_nil, step, hsnap]
  simp only [createStep, if_neg hnew, AList.lookup_insert, hfiles, Bool.false_eq_true, if_false,
    Function.update_self, isThere, hwritten, Except.isOk, Except.toBool, Bool.and_self, if_true,
    sweepStep, orphans_new]
  refine ⟨trivial, trivial, ?_, trivial⟩
  decide

theorem not_spared_of_gone (core : Core) (w : World) (before after : List Event) (id : Uuid)
    {refs : Refs} (hthere : (run core before w).volume (repoDir id) = .repo refs)
    (hlisted : id ∈ (run core after (run core before w)).lists)
    (hgone : (run core after (run core before w)).volume (repoDir id) = .absent) :
    ¬ ∀ events : List Event, ∀ i j, i ≤ j → j ≤ events.length →
      Spared (run core (events.take i) w) (run core (events.take j) w) := by
  intro hspared
  have hboth := hspared (before ++ after) before.length (before ++ after).length (by simp) le_rfl
  have hrun : run core (before ++ after) w = run core after (run core before w) :=
    Runs.run_append (step core) before after w
  rw [List.take_left, List.take_length, hrun] at hboth
  have hkept := hboth id hlisted
  rw [hthere, hgone] at hkept
  obtain ⟨later, hrepo, -⟩ := hkept
  cases hrepo

/-- The sweep takes the repository of a list whose creation commits. -/
theorem sweep_destroys_new_list :
    Start oneList ∧ ¬ ∀ events : List Event, ∀ i j, i ≤ j → j ≤ events.length →
      Spared (run canonCore (events.take i) oneList) (run canonCore (events.take j) oneList) := by
  obtain ⟨refs, hsweep, hopen, hunlisted, hvolume⟩ := bornDuringSweep_sweeping
  obtain ⟨hlisted, hgone⟩ := recheck_destroys canonCore hsweep hopen hunlisted
  refine ⟨oneList_start, ?_⟩
  exact not_spared_of_gone canonCore oneList (bornDuringSweep newId) (sweptAway newId) newId hvolume
    hlisted hgone

def orphanVolume (name : Text) : Disk := if name = repoDir lostId then .repo ∅ else .absent

def oneOrphan : World := ⟨[oldId, lostId], oneList.lists, ∅, orphanVolume, .resting⟩

theorem oneOrphan_start : Start oneOrphan where
  resting := rfl
  closed := rfl
  listed := by
    intro id hid
    rw [List.mem_singleton.mp (oneList_start.listed id hid)]
    exact List.mem_cons_self
  stored := by
    intro id hid
    refine if_neg fun heq => hid ?_
    rw [repoDir_injective heq]
    exact List.mem_cons_of_mem _ (List.mem_singleton_self lostId)

def orphanFound : List Event :=
  [.sweep .snapshot, .create newId (.draw scriptBirth), .sweep (.entry (repoDir lostId)),
    .sweep .walked]

def orphanRemoved : List Event :=
  orphanFound ++ [.sweep (.recheck true), .sweep (.remove .absent)]

theorem orphanFound_sweeping : run canonCore orphanFound oneOrphan =
    { oneOrphan with
      drawn := newId :: oneOrphan.drawn
      creating := AList.insert newId ⟨scriptBirth, .begun⟩ ∅
      sweep := .sweeping [repoDir lostId] } := by
  have hnew : newId ∉ oneOrphan.drawn := by decide
  have hthere : isThere (oneOrphan.volume (repoDir lostId)) = true := by
    show isThere (orphanVolume (repoDir lostId)) = true
    rw [orphanVolume, if_pos rfl]
    rfl
  have horphan : orphanRepoDirs [repoDir lostId] [oldId] = [repoDir lostId] :=
    orphans_single (by decide)
  have hsnap : sweepStep oneOrphan .snapshot = { oneOrphan with sweep := .walking [oldId] [] } := rfl
  simp only [run, orphanFound, Runs.run_cons, Runs.run_nil, step, hsnap]
  simp only [createStep, if_neg hnew, sweepStep, hthere, if_true, horphan]
  rfl

theorem orphanRemoved_clear : ∀ i (h : i < orphanRemoved.length),
    RecheckClear orphanRemoved[i] (run canonCore (orphanRemoved.take i) oneOrphan)
  | 0, _ => trivial
  | 1, _ => trivial
  | 2, _ => trivial
  | 3, _ => trivial
  | 4, _ => by
    have hstate : run canonCore (orphanRemoved.take 4) oneOrphan = _ := orphanFound_sweeping
    rw [hstate]
    intro id hid
    rcases (AList.mem_insert _).mp hid with rfl | hid
    · intro heq
      exact absurd (repoDir_injective heq) (by decide)
    · exact absurd hid (AList.notMem_empty id)
  | 5, _ => trivial

theorem orphan_swept_beside_birth :
    (∀ i j, i ≤ j → j ≤ orphanRemoved.length →
      Spared (run canonCore (orphanRemoved.take i) oneOrphan)
        (run canonCore (orphanRemoved.take j) oneOrphan)) ∧
    ∀ i (h : i < orphanRemoved.length) e, orphanRemoved[i] = .sweep e →
      ∀ id, Alive (run canonCore (orphanRemoved.take i) oneOrphan) id →
        (run canonCore (orphanRemoved.take (i + 1)) oneOrphan).volume (repoDir id) =
          (run canonCore (orphanRemoved.take i) oneOrphan).volume (repoDir id) :=
  sweep_spares_living_lists canonCore oneOrphan_start orphanRemoved orphanRemoved_clear

end Setfork.RepoSweep
