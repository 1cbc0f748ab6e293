/- GatedCalls
   digest: A call that changes something asks once, before it does anything; who may go on, and a list
   that nobody may write to, over all interleavings of calls. -/
import Setfork.DroppedCalls
import Setfork.WriteGate

set_option autoImplicit false
set_option relaxedAutoImplicit false

namespace Setfork.GatedCalls

open Setfork.Foundation
open Setfork.Foundation.Json
open Setfork.WriteGate
open Setfork.Rows
open Setfork.Repository
open Setfork.History
open Setfork.Alignment
open Setfork.Push
open Setfork.Service
open Setfork.Healing (Agree markedRefs markedList markedRefs_agree)
open Setfork.TagRuns (ensureRepo_of_agree)

/-- The operations of the calls that ask. -/
def mutating : Op → Bool
  | .push .. | .createBranch .. | .deleteBranch .. | .mergeBranch .. | .mergeResolved ..
  | .createTag .. | .updateBranch .. | .commitToBranch .. => true
  | _ => false

/-- A call that asks: its operation, and what befalls the alignments that it makes before and, for a
tag, after. -/
structure Call where
  op : Op
  asks : mutating op = true
  first : SyncFaults
  last : SyncFaults

/-- The parts of a call once it is let in; others can come between them. -/
def Call.parts (call : Call) : List Op :=
  .ensure call.first :: call.op ::
    match call.op with
    | .createTag .. => [.ensure call.last]
    | _ => []

inductive Phase where
  | waiting
  | inside (rest : List Op)
  | refused (status : Status)
  | dropped

namespace Phase

def asked (answer : Except Status Unit) (call : Call) : Phase → Phase
  | .waiting =>
    match answer with
    | .ok () => .inside call.parts
    | .error status => .refused status
  | phase => phase

def next : Phase → Phase
  | .inside (_ :: rest) => .inside rest
  | phase => phase

def drop : Phase → Phase
  | .refused status => .refused status
  | _ => .dropped

end Phase

/-- The state of a list, and how far each call on it has come. -/
structure System (ι : Type) where
  st : State
  phase : ι → Phase

def start {ι : Type} (st : State) : System ι := ⟨st, fun _ => .waiting⟩

/-- A call asks, and something becomes of its question; it makes its next part; it is dropped or ends
early, as on a name that is none; or somebody does what nobody asks for: a call that reads aligns the
list first, a saved version comes from the application itself, and operators have tools. -/
inductive Event (ι : Type) where
  | ask (i : ι) (exchange : Text → Exchange)
  | part (i : ι)
  | drop (i : ι)
  | unasked (op : Op) (h : mutating op = false)

section Runs

variable {ι : Type} [DecidableEq ι] (core : Core) (lib : GitLibrary)
  (readJson : Bytes → Option Value) (app : Option Text) (calls : ι → Call)

/-- What an event does to the list: the call it belongs to, if any, and the operation. -/
def made (sys : System ι) : Event ι → List (Option ι × Op)
  | .part i =>
    match sys.phase i with
    | .inside (op :: _) => [(some i, op)]
    | _ => []
  | .unasked op _ => [(none, op)]
  | _ => []

def phaseAfter (sys : System ι) : Event ι → ι → Phase
  | .ask i exchange => Function.update sys.phase i
      ((sys.phase i).asked (ensureWritable readJson app exchange) (calls i))
  | .part i => Function.update sys.phase i (sys.phase i).next
  | .drop i => Function.update sys.phase i (sys.phase i).drop
  | .unasked .. => sys.phase

def event (sys : System ι) (e : Event ι) : System ι :=
  ⟨run core lib ((made sys e).map Prod.snd) sys.st, phaseAfter readJson app calls sys e⟩

def after (events : List (Event ι)) (sys : System ι) : System ι :=
  events.foldl (event core lib readJson app calls) sys

/-- Everything that is done to the list, in order. -/
def trace : List (Event ι) → System ι → List (Option ι × Op)
  | [], _ => []
  | e :: events, sys => made sys e ++ trace events (event core lib readJson app calls sys e)

/-- The parts of one call among it. -/
def partsOf (i : ι) (done : List (Option ι × Op)) : List Op :=
  (done.filter fun d => d.1 = some i).map Prod.snd

variable {core lib readJson app calls} {sys : System ι}

theorem after_append (events later : List (Event ι)) (sys : System ι) :
    after core lib readJson app calls (events ++ later) sys =
      after core lib readJson app calls later (after core lib readJson app calls events sys) :=
  List.foldl_append

theorem st_after (events : List (Event ι)) (sys : System ι) :
    (after core lib readJson app calls events sys).st =
      run core lib ((trace core lib readJson app calls events sys).map Prod.snd) sys.st := by
  induction events generalizing sys with
  | nil => rfl
  | cons e events ih =>
    rw [trace, List.map_append]
    exact (ih _).trans (Runs.run_append (step core lib) _ _ _).symm

theorem partsOf_append (i : ι) (done more : List (Option ι × Op)) :
    partsOf i (done ++ more) = partsOf i done ++ partsOf i more := by
  simp only [partsOf, List.filter_append, List.map_append]

def Reached (call : Call) (parts : List Op) : Phase → Prop
  | .waiting => parts = []
  | .inside rest => parts ++ rest = call.parts
  | .refused _ => parts = []
  | .dropped => parts <+: call.parts

theorem Reached.isPrefix {call : Call} {parts : List Op} {phase : Phase}
    (h : Reached call parts phase) : parts <+: call.parts := by
  cases phase with
  | waiting =>
    rw [show parts = [] from h]
    exact List.nil_prefix
  | inside rest => exact ⟨rest, h⟩
  | refused status =>
    rw [show parts = [] from h]
    exact List.nil_prefix
  | dropped => exact h

theorem phase_event (e : Event ι) (i : ι) :
    ((event core lib readJson app calls sys e).phase i = sys.phase i ∧
      partsOf i (made sys e) = [] ∧ ∀ exchange, e ≠ .ask i exchange) ∨
    (∃ exchange, e = .ask i exchange ∧ (event core lib readJson app calls sys e).phase i =
      (sys.phase i).asked (ensureWritable readJson app exchange) (calls i)) ∨
    (e = .part i ∧ (event core lib readJson app calls sys e).phase i = (sys.phase i).next) ∨
    e = .drop i ∧ (event core lib readJson app calls sys e).phase i = (sys.phase i).drop := by
  cases e with
  | ask j exchange =>
    by_cases hij : i = j
    · subst hij
      exact .inr (.inl ⟨exchange, rfl, Function.update_self i _ _⟩)
    · exact .inl ⟨Function.update_of_ne hij _ _, rfl, fun _ h => hij (Event.ask.inj h).1.symm⟩
  | part j =>
    by_cases hij : i = j
    · subst hij
      exact .inr (.inr (.inl ⟨rfl, Function.update_self i _ _⟩))
    · refine .inl ⟨Function.update_of_ne hij _ _, ?_, nofun⟩
      simp only [made]
      split
      · simp [partsOf, Ne.symm hij]
      · rfl
  | drop j =>
    by_cases hij : i = j
    · subst hij
      exact .inr (.inr (.inr ⟨rfl, Function.update_self i _ _⟩))
    · exact .inl ⟨Function.update_of_ne hij _ _, rfl, nofun⟩
  | unasked op hop => exact .inl ⟨rfl, rfl, nofun⟩

theorem reached_event (e : Event ι) {i : ι} {parts : List Op}
    (h : Reached (calls i) parts (sys.phase i)) :
    Reached (calls i) (parts ++ partsOf i (made sys e))
      ((event core lib readJson app calls sys e).phase i) := by
  rcases @phase_event ι _ core lib readJson app calls sys e i with
    ⟨hphase, hparts, -⟩ | ⟨exchange, rfl, hphase⟩ | ⟨rfl, hphase⟩ | ⟨rfl, hphase⟩
  · rwa [hphase, hparts, List.append_nil]
  · rw [hphase, show partsOf i (made sys (.ask i exchange)) = [] from rfl, List.append_nil]
    cases hbefore : sys.phase i with
    | waiting =>
      rw [hbefore] at h
      cases ensureWritable readJson app exchange with
      | ok u =>
        rw [show parts = [] from h]
        rfl
      | error status => exact h
    | _ => rwa [hbefore] at h
  · rw [hphase]
    simp only [made]
    cases hbefore : sys.phase i with
    | inside rest =>
      rw [hbefore] at h
      cases rest with
      | nil => simpa [partsOf, Phase.next] using h
      | cons op rest => simpa [partsOf, Phase.next, Reached] using h
    | _ =>
      rw [hbefore] at h
      simpa [partsOf, Phase.next] using h
  · rw [hphase, show partsOf i (made sys (.drop i)) = [] from rfl, List.append_nil]
    have hprefix := h.isPrefix
    cases hbefore : sys.phase i with
    | refused status => rwa [hbefore] at h
    | _ => exact hprefix

theorem reached_after (events : List (Event ι)) {i : ι} {parts : List Op}
    (h : Reached (calls i) parts (sys.phase i)) :
    Reached (calls i) (parts ++ partsOf i (trace core lib readJson app calls events sys))
      ((after core lib readJson app calls events sys).phase i) := by
  induction events generalizing sys parts with
  | nil =>
    rw [show partsOf i (trace core lib readJson app calls [] sys) = [] from rfl,
      List.append_nil]
    exact h
  | cons e events ih =>
    rw [trace, partsOf_append, ← List.append_assoc]
    exact ih (reached_event e h)

theorem mem_partsOf {i : ι} {op : Op} {done : List (Option ι × Op)} :
    op ∈ partsOf i done ↔ (some i, op) ∈ done := by
  simp [partsOf]

theorem asked_of_inside {e : Event ι} {i : ι} {rest : List Op}
    (hinside : (event core lib readJson app calls sys e).phase i = .inside rest) :
    (∃ rest', sys.phase i = .inside rest') ∨
      ∃ exchange, e = .ask i exchange ∧ ensureWritable readJson app exchange = .ok () := by
  rcases @phase_event ι _ core lib readJson app calls sys e i with
    ⟨hphase, -⟩ | ⟨exchange, rfl, hphase⟩ | ⟨rfl, hphase⟩ | ⟨rfl, hphase⟩
  · exact .inl ⟨rest, hphase.symm.trans hinside⟩
  · rw [hinside] at hphase
    cases hbefore : sys.phase i with
    | waiting =>
      cases hanswer : ensureWritable readJson app exchange with
      | ok u => exact .inr ⟨exchange, rfl, hanswer⟩
      | error status =>
        rw [hbefore, hanswer] at hphase
        cases hphase
    | inside rest' => exact .inl ⟨rest', rfl⟩
    | _ =>
      rw [hbefore] at hphase
      cases hphase
  · rw [hinside] at hphase
    cases hbefore : sys.phase i with
    | inside rest' => exact .inl ⟨rest', rfl⟩
    | _ =>
      rw [hbefore] at hphase
      cases hphase
  · rw [hinside] at hphase
    cases hbefore : sys.phase i with
    | inside rest' => exact .inl ⟨rest', rfl⟩
    | _ =>
      rw [hbefore] at hphase
      cases hphase

theorem asked_before (events : List (Event ι)) {i : ι} {op : Op}
    (hclosed : ∀ rest, sys.phase i ≠ .inside rest)
    (hmem : (some i, op) ∈ trace core lib readJson app calls events sys) :
    ∃ before exchange later, events = before ++ .ask i exchange :: later ∧
      ensureWritable readJson app exchange = .ok () ∧
      partsOf i (trace core lib readJson app calls before sys) = [] := by
  induction events generalizing sys with
  | nil => cases hmem
  | cons e events ih =>
    have hnone : partsOf i (made sys e) = [] := by
      rw [List.eq_nil_iff_forall_not_mem]
      intro op' hop
      rw [mem_partsOf] at hop
      cases e with
      | part j =>
        simp only [made] at hop
        split at hop
        · rename_i hphase
          obtain ⟨hij, -⟩ := Prod.mk.inj (List.mem_singleton.mp hop)
          obtain rfl := Option.some.inj hij
          exact hclosed _ hphase
        · cases hop
      | unasked op hop' => cases List.mem_singleton.mp hop
      | _ => cases hop
    rw [trace, List.mem_append] at hmem
    rcases hmem with hnow | hlater
    · rw [← mem_partsOf, hnone] at hnow
      cases hnow
    · by_cases hinside : ∃ rest,
        (event core lib readJson app calls sys e).phase i = .inside rest
      · obtain ⟨rest, hrest⟩ := hinside
        rcases asked_of_inside hrest with ⟨rest', hopen⟩ | ⟨exchange, rfl, hyes⟩
        · exact absurd hopen (hclosed rest')
        · exact ⟨[], exchange, events, rfl, hyes, rfl⟩
      · obtain ⟨before, exchange, later, rfl, hyes, hparts⟩ :=
          ih (fun rest hrest => hinside ⟨rest, hrest⟩) hlater
        refine ⟨e :: before, exchange, later, rfl, hyes, ?_⟩
        rw [trace, partsOf_append, hnone, hparts]
        rfl

theorem mutating_of_unasked (events : List (Event ι)) {op : Op}
    (hmem : (none, op) ∈ trace core lib readJson app calls events sys) : mutating op = false := by
  induction events generalizing sys with
  | nil => cases hmem
  | cons e events ih =>
    rw [trace, List.mem_append] at hmem
    rcases hmem with hnow | hlater
    · cases e with
      | part j =>
        simp only [made] at hnow
        split at hnow
        · cases List.mem_singleton.mp hnow
        · cases hnow
      | unasked op' hop =>
        obtain ⟨-, rfl⟩ := Prod.mk.inj (List.mem_singleton.mp hnow)
        exact hop
      | _ => cases hnow
    · exact ih hlater

/-- Nobody writes without permission. In a server that is not told to do without, and over every
interleaving of calls, the list is what a run of operations makes of it in which every push and every
change of a branch, a merge or a tag is a part of one call, no part twice and all in the order of the
call, and comes after the application has answered this very call with a yes, before which the call
has done nothing. -/
theorem only_admitted_calls_write (core : Core) (lib : GitLibrary)
    (readJson : Bytes → Option Value) (isUri : Text → Bool) (raw : Option Text)
    (hstarts : starts isUri false raw = true) (calls : ι → Call) (st : State)
    (events : List (Event ι)) :
    let done := trace core lib readJson (appUrl isUri raw) calls events (start st)
    (after core lib readJson (appUrl isUri raw) calls events (start st)).st =
      run core lib (done.map Prod.snd) st ∧
    (∀ d ∈ done, mutating d.2 = true → ∃ i, d.1 = some i) ∧
    ∀ i, partsOf i done <+: (calls i).parts ∧ ∀ op ∈ partsOf i done,
      ∃ before exchange later base, events = before ++ .ask i exchange :: later ∧
        appUrl isUri raw = some base ∧ Opens readJson (exchange base) ∧
        partsOf i (trace core lib readJson (appUrl isUri raw) calls before (start st)) = [] := by
  obtain ⟨base, hbase⟩ := appUrl_of_starts hstarts
  rw [hbase]
  intro done
  refine ⟨st_after events (start st), ?_, fun i => ⟨?_, fun op hop => ?_⟩⟩
  · rintro ⟨owner, op⟩ hd hop
    cases owner with
    | some i => exact ⟨i, rfl⟩
    | none =>
      rw [mutating_of_unasked events hd] at hop
      cases hop
  · have hreached : Reached (calls i) [] ((start st : System ι).phase i) := rfl
    exact (reached_after events hreached).isPrefix
  · obtain ⟨before, exchange, later, hevents, hyes, hparts⟩ :=
      asked_before events (fun rest hrest => by cases hrest) (mem_partsOf.mp hop)
    exact ⟨before, exchange, later, base, hevents, rfl,
      (ask_allow_iff _).mp (ensureWritableAt_ok.mp hyes), hparts⟩

/-- What nobody asks for and what leaves a list in order alone. -/
def Aligns (op : Op) : Prop := ∃ f, op = .ensure f ∨ op = .align f

theorem step_of_aligns {op : Op} {refs : Refs} {s : ListState} (hop : Aligns op)
    (hagree : Agree refs s) : step core lib op ⟨.repo refs, some s⟩ = ⟨.repo refs, some s⟩ := by
  obtain ⟨f, rfl | rfl⟩ := hop
  · exact ensureRepo_of_agree hagree f
  · simp only [step, Healing.sync_of_agree core f hagree]

/-- Nothing more comes of a call unless it is let in. -/
def Idle : Phase → Prop
  | .inside rest => rest = []
  | _ => True

theorem idle_event {base : Text} {i : ι} {e : Event ι}
    (hrefused : ∀ exchange, e = .ask i exchange → ¬ Opens readJson (exchange base))
    (h : Idle (sys.phase i)) :
    Idle ((event core lib readJson (some base) calls sys e).phase i) := by
  rcases @phase_event ι _ core lib readJson (some base) calls sys e i with
    ⟨hphase, -⟩ | ⟨exchange, rfl, hphase⟩ | ⟨rfl, hphase⟩ | ⟨rfl, hphase⟩
  · rwa [hphase]
  · rw [hphase]
    cases hbefore : sys.phase i with
    | waiting =>
      rcases @ensureWritable_cases readJson base exchange with ⟨hopen, -⟩ | ⟨-, status, heq, -⟩
      · exact absurd hopen (hrefused exchange rfl)
      · rw [heq]
        trivial
    | _ => rwa [hbefore] at h
  · rw [hphase]
    cases hbefore : sys.phase i with
    | inside rest =>
      rw [hbefore] at h
      obtain rfl : rest = [] := h
      exact rfl
    | _ => trivial
  · rw [hphase]
    cases hbefore : sys.phase i with
    | _ => trivial

/-- How a call stands that has been waiting before. -/
def Told (readJson : Bytes → Option Value) (base : Text) (i : ι) (events : List (Event ι)) :
    Phase → Prop
  | .waiting => ∀ exchange, .ask i exchange ∉ events
  | .inside _ => False
  | .refused status => ∃ exchange, .ask i exchange ∈ events ∧
      ensureWritable readJson (some base) exchange = .error status ∧
      (status.code = .unavailable ↔ Transient (exchange base))
  | .dropped => .drop i ∈ events

omit [DecidableEq ι] in
/-- An event that is no question of a waiting call leaves it standing as it does. -/
theorem Told.append {base : Text} {i : ι} {events : List (Event ι)} {phase : Phase} {e : Event ι}
    (h : Told readJson base i events phase)
    (hquiet : (∀ exchange, e ≠ .ask i exchange) ∨ phase ≠ .waiting) :
    Told readJson base i (events ++ [e]) phase := by
  cases phase with
  | waiting =>
    intro exchange hmem
    rcases List.mem_append.mp hmem with hold | hnew
    · exact h exchange hold
    · rcases hquiet with hother | hphase
      · exact hother exchange (List.mem_singleton.mp hnew).symm
      · exact hphase rfl
  | inside rest => exact h
  | refused status =>
    obtain ⟨exchange, hmem, hanswer⟩ := h
    exact ⟨exchange, List.mem_append_left [e] hmem, hanswer⟩
  | dropped => exact List.mem_append_left [e] h

theorem told_event {base : Text} {i : ι} {e : Event ι} {events : List (Event ι)}
    (hrefused : ∀ exchange, e = .ask i exchange → ¬ Opens readJson (exchange base))
    (h : Told readJson base i events (sys.phase i)) :
    Told readJson base i (events ++ [e])
      ((event core lib readJson (some base) calls sys e).phase i) := by
  rcases @phase_event ι _ core lib readJson (some base) calls sys e i with
    ⟨hphase, -, hother⟩ | ⟨exchange, rfl, hphase⟩ | ⟨rfl, hphase⟩ | ⟨rfl, hphase⟩
  · rw [hphase]
    exact h.append (.inl hother)
  · rw [hphase]
    cases hbefore : sys.phase i with
    | waiting =>
      rcases @ensureWritable_cases readJson base exchange with ⟨hopen, -⟩ | ⟨-, status, heq, hcode⟩
      · exact absurd hopen (hrefused exchange rfl)
      · rw [heq]
        exact ⟨exchange, List.mem_append_right events (.head []), heq, hcode⟩
    | _ =>
      rw [hbefore] at h
      exact h.append (.inr nofun)
  · rw [hphase]
    cases hbefore : sys.phase i with
    | inside rest =>
      rw [hbefore] at h
      exact h.elim
    | _ =>
      rw [hbefore] at h
      exact h.append (.inl nofun)
  · rw [hphase]
    cases hbefore : sys.phase i with
    | refused status =>
      rw [hbefore] at h
      exact h.append (.inl nofun)
    | _ => exact List.mem_append_right events (.head [])

theorem st_event {e : Event ι} {refs : Refs} {s : ListState}
    (hlist : sys.st = ⟨.repo refs, some s⟩) (hagree : Agree refs s)
    (hidle : ∀ i, Idle (sys.phase i)) (hquiet : ∀ op hop, e = .unasked op hop → Aligns op) :
    (event core lib readJson app calls sys e).st = sys.st := by
  cases e with
  | part j =>
    have hnone : made sys (.part j) = [] := by
      simp only [made]
      split
      · rename_i hphase
        have hinside := hidle j
        rw [hphase] at hinside
        cases hinside
      · rfl
    simp only [event, hnone, List.map_nil, Runs.run_nil]
  | unasked op hop =>
    simp only [event, made, List.map_cons, List.map_nil, Runs.run_cons, Runs.run_nil, hlist]
    exact step_of_aligns (hquiet op hop rfl) hagree
  | _ => rfl

/-- While the application says no to everything, or does not answer, or answers what is no clear yes,
a list in order stays exactly as it is once the calls that were let in before have ended, whatever
calls come and however alignments go in between. A call that asks is told an error unless it is
dropped, with the code that asks for another try exactly when no whole answer came from the other
end. -/
theorem refused_list_stays (core : Core) (lib : GitLibrary) (readJson : Bytes → Option Value)
    (base : Text) (calls : ι → Call) (events : List (Event ι)) {sys : System ι} {refs : Refs}
    {s : ListState} (hlist : sys.st = ⟨.repo refs, some s⟩) (hagree : Agree refs s)
    (hidle : ∀ i, Idle (sys.phase i))
    (hrefused : ∀ i exchange, .ask i exchange ∈ events → ¬ Opens readJson (exchange base))
    (hquiet : ∀ op hop, .unasked op hop ∈ events → Aligns op) :
    (after core lib readJson (some base) calls events sys).st = sys.st ∧
    ∀ i, sys.phase i = .waiting → Told readJson base i events
      ((after core lib readJson (some base) calls events sys).phase i) := by
  suffices hrun : (after core lib readJson (some base) calls events sys).st = sys.st ∧ ∀ i,
      Idle ((after core lib readJson (some base) calls events sys).phase i) ∧
      (sys.phase i = .waiting → Told readJson base i events
        ((after core lib readJson (some base) calls events sys).phase i)) from
    ⟨hrun.1, fun i => (hrun.2 i).2⟩
  induction events using List.reverseRecOn with
  | nil =>
    refine ⟨rfl, fun i => ⟨hidle i, fun hwaiting => ?_⟩⟩
    rw [show after core lib readJson (some base) calls [] sys = sys from rfl, hwaiting]
    exact fun _ hmem => nomatch hmem
  | append_singleton events e ih =>
    obtain ⟨hst, hphases⟩ := ih (fun i x h => hrefused i x (List.mem_append_left [e] h))
      (fun op hop h => hquiet op hop (List.mem_append_left [e] h))
    have hlast : e ∈ events ++ [e] := List.mem_append_right events (.head [])
    have hno : ∀ i exchange, e = .ask i exchange → ¬ Opens readJson (exchange base) :=
      fun i exchange h => hrefused i exchange (h ▸ hlast)
    rw [after_append]
    refine ⟨?_, fun i => ⟨idle_event (hno i) (hphases i).1, fun hwaiting =>
      told_event (hno i) ((hphases i).2 hwaiting)⟩⟩
    have hlisted := hst.trans hlist
    exact (st_event hlisted hagree (fun i => (hphases i).1) fun op hop h =>
      hquiet op hop (h ▸ hlast)).trans hst

end Runs

def removal : Call := ⟨.deleteBranch true "draft".toList, rfl, steady 0, steady 0⟩

def givenUrl : Option Text := some " http://app:3000/ ".toList

theorem only_admitted_calls_write_removal :
    let asks := appUrl (fun _ => true) givenUrl
    let events : List (Event Unit) := [.ask () fun _ => answeredWith yesValue, .part (), .part ()]
    let st : State := ⟨.repo markedRefs, some markedList⟩
    let done := trace canonCore plainLibrary (readOnly yesValue) asks (fun _ => removal) events
      (start st)
    (after canonCore plainLibrary (readOnly yesValue) asks (fun _ => removal) events (start st)).st =
      run canonCore plainLibrary (done.map Prod.snd) st ∧
    (∀ d ∈ done, mutating d.2 = true → ∃ i, d.1 = some i) ∧
    ∀ i, partsOf i done <+: removal.parts ∧ ∀ op ∈ partsOf i done,
      ∃ before exchange later base, events = before ++ .ask i exchange :: later ∧
        asks = some base ∧ Opens (readOnly yesValue) (exchange base) ∧
        partsOf i (trace canonCore plainLibrary (readOnly yesValue) asks (fun _ => removal) before
          (start st)) = [] :=
  only_admitted_calls_write canonCore plainLibrary (readOnly yesValue) (fun _ => true) givenUrl
    (by decide) (fun _ => removal) _ _

def frozenValue : Value :=
  .obj [("allow".toList, .bool false), ("reason".toList, .str "frozen".toList)]

theorem frozen_refused : ¬ Opens (readOnly frozenValue) (answeredWith frozenValue) := by
  rintro ⟨_, _, _, v, heq, -, -, hread, hallow⟩
  obtain ⟨-, -, hbytes⟩ := Exchange.answered.inj heq
  rw [← Except.ok.inj hbytes, readOnly, if_pos rfl, Option.some.injEq] at hread
  subst hread
  exact absurd hallow (by decide)

/-- A call asks and goes on, whatever it is told, and a reader comes in between. -/
def frozenEvents : List (Event Unit) :=
  [.ask () fun _ => answeredWith frozenValue, .unasked (.ensure (steady 0)) rfl, .part ()]

theorem refused_list_stays_frozen :
    let sys : System Unit := start ⟨.repo markedRefs, some markedList⟩
    let last := after canonCore plainLibrary (readOnly frozenValue)
      (some "http://app:3000".toList) (fun _ => removal) frozenEvents sys
    last.st = sys.st ∧ ∀ i, sys.phase i = .waiting →
      Told (readOnly frozenValue) "http://app:3000".toList i frozenEvents (last.phase i) := by
  refine refused_list_stays canonCore plainLibrary (readOnly frozenValue) "http://app:3000".toList
    (fun _ => removal) frozenEvents rfl markedRefs_agree (fun _ => trivial) ?_ ?_
  · intro i exchange hmem
    rcases List.mem_cons.mp hmem with heq | hrest
    · rw [(Event.ask.inj heq).2]
      exact frozen_refused
    · simp at hrest
  · intro op hop hmem
    simp only [frozenEvents, List.mem_cons, reduceCtorEq, List.not_mem_nil, or_false,
      false_or] at hmem
    exact ⟨steady 0, .inl (Event.unasked.inj hmem)⟩

end Setfork.GatedCalls
