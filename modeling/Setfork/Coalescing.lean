/- Coalescing
   digest: Background runs coalesced by key: the slot of a key, its worker, and calls at any moment. -/
import Setfork.Foundation.Interleave

set_option autoImplicit false
set_option relaxedAutoImplicit false

namespace Setfork.Coalescing

open Setfork.Foundation
open Setfork.Foundation.Interleave (System)

/-- Where a call stands. A call that finds no slot brings a worker, which goes on in its place:
`spawned` has put the slot in, `woken` is about to clear the flag, `cleared` is about to start the
run, and `ran` is about to check the flag. -/
inductive Phase where
  | coming
  | served
  | spawned
  | sleeping
  | woken
  | cleared
  | running
  | ran
  | ended
deriving DecidableEq

def Phase.alive : Phase → Bool
  | .coming | .served | .ended => false
  | _ => true

inductive Event (K : Type) where
  | call (key : K)
  | start (key : K)

/-- A slot is there while a key has a worker; its flag says that a call came since it was cleared.
The history lists calls and starts of runs. -/
structure Shared (K : Type) where
  slots : K → Option Bool
  history : List (Event K)

def Answered {K : Type} (k : K) (history : List (Event K)) : Prop :=
  ∀ before after, history = before ++ .call k :: after → .start k ∈ after

section Model

variable {ι K : Type} [DecidableEq ι] [DecidableEq K] (key : ι → K)

/-- The next step of a call or of its worker; only a run can panic. Whatever the slot was, the
worker puts it back when it clears the flag. -/
def advance (a : ι) (panics : Bool) (s : Shared K) (p : Phase) : Shared K × Phase :=
  match p with
  | .coming =>
    match s.slots (key a) with
    | some _ =>
      (⟨Function.update s.slots (key a) (some true), s.history ++ [.call (key a)]⟩, .served)
    | none =>
      (⟨Function.update s.slots (key a) (some false), s.history ++ [.call (key a)]⟩, .spawned)
  | .spawned => (s, .sleeping)
  | .sleeping => (s, .woken)
  | .woken => (⟨Function.update s.slots (key a) (some false), s.history⟩, .cleared)
  | .cleared => (⟨s.slots, s.history ++ [.start (key a)]⟩, .running)
  | .running => (s, if panics then .ended else .ran)
  | .ran =>
    match s.slots (key a) with
    | some true => (s, .sleeping)
    | _ => (⟨Function.update s.slots (key a) none, s.history⟩, .ended)
  | .served => (s, .served)
  | .ended => (s, .ended)

abbrev step (op : ι × Bool) (sys : System ι (Shared K) Phase) : System ι (Shared K) Phase :=
  Interleave.act (advance key) op sys

/-- No slot, no worker, no call yet. -/
def initial : System ι (Shared K) Phase := ⟨⟨fun _ => none, []⟩, fun _ => .coming⟩

def Served (k : K) (sys : System ι (Shared K) Phase) : Prop :=
  ∃ a, key a = k ∧ (sys.places a).alive = true

/-- At most one run for each key is in progress. -/
def Exclusive (sys : System ι (Shared K) Phase) : Prop :=
  ∀ a b, sys.places a = .running → sys.places b = .running → key a = key b → a = b

/-- Where no worker is alive, every call so far has been followed by a run. -/
def NothingLost (sys : System ι (Shared K) Phase) : Prop :=
  ∀ k, ¬ Served key k sys → Answered k sys.shared.history

/-- What a step may not be: a call for a key whose slot has no worker any more, and a run that
panics after a call for its key came. -/
def Harmless (op : ι × Bool) (sys : System ι (Shared K) Phase) : Prop :=
  match sys.places op.1 with
  | .coming => (sys.shared.slots (key op.1)).isSome = true → Served key (key op.1) sys
  | .running => op.2 = true → Answered (key op.1) sys.shared.history
  | _ => True

structure Inv (sys : System ι (Shared K) Phase) : Prop where
  one : ∀ a b, (sys.places a).alive = true → (sys.places b).alive = true → key a = key b → a = b
  slot : ∀ a, (sys.places a).alive = true → (sys.shared.slots (key a)).isSome = true
  removed : ∀ k, sys.shared.slots k = none → Answered k sys.shared.history
  quiet : ∀ a, sys.places a = .running ∨ sys.places a = .ran →
    sys.shared.slots (key a) = some false → Answered (key a) sys.shared.history

end Model

section History

variable {K : Type} {k : K}

theorem answered_nil : Answered k [] := by
  intro before after h
  cases before <;> cases h

theorem answered_append {history : List (Event K)} {e : Event K} :
    Answered k (history ++ [e]) ↔ e = .start k ∨ (e ≠ .call k ∧ Answered k history) := by
  constructor
  · intro h
    by_cases hstart : e = .start k
    · exact Or.inl hstart
    · refine Or.inr ⟨?_, fun before after hsplit => ?_⟩
      · rintro rfl
        exact absurd (h history [] rfl) List.not_mem_nil
      · have hmem := h before (after ++ [e]) (by rw [hsplit, List.append_assoc, List.cons_append])
        rcases List.mem_append.mp hmem with hmem | hmem
        · exact hmem
        · exact absurd (List.mem_singleton.mp hmem).symm hstart
  · intro h before after hsplit
    rcases List.eq_nil_or_concat after with rfl | ⟨rest, last, rfl⟩
    · have hlast : e = .call k := (List.append_inj' hsplit rfl).2 |> List.singleton_inj.mp
      rcases h with hstart | ⟨hcall, -⟩
      · rw [hstart] at hlast
        cases hlast
      · exact absurd hlast hcall
    · rw [List.concat_eq_append] at hsplit ⊢
      have hparts : history ++ [e] = (before ++ .call k :: rest) ++ [last] := by
        rw [hsplit, List.append_assoc, List.cons_append]
      obtain ⟨hbefore, hlast⟩ := List.append_inj' hparts rfl
      obtain rfl := List.singleton_inj.mp hlast
      rcases h with hstart | ⟨-, hrest⟩
      · exact List.mem_append_right rest (List.mem_singleton.mpr hstart.symm)
      · exact List.mem_append_left _ (hrest before rest hbefore)

end History

section Steps

variable {ι K : Type} [DecidableEq K] {key : ι → K}

/-- The steps of a call for `k`, by what they do to the slots, the history and the call itself. -/
inductive Moved (k : K) (panics : Bool) (s : Shared K) (p : Phase) : Shared K → Phase → Prop
  | joins : p = .coming → (s.slots k).isSome = true →
      Moved k panics s p ⟨Function.update s.slots k (some true), s.history ++ [.call k]⟩ .served
  | brings : p = .coming → s.slots k = none →
      Moved k panics s p ⟨Function.update s.slots k (some false), s.history ++ [.call k]⟩ .spawned
  | waits (q : Phase) : p.alive = true → q = .sleeping ∨ q = .woken → Moved k panics s p s q
  | clears : p = .woken →
      Moved k panics s p ⟨Function.update s.slots k (some false), s.history⟩ .cleared
  | starts : p = .cleared → Moved k panics s p ⟨s.slots, s.history ++ [.start k]⟩ .running
  | finishes : p = .running → Moved k panics s p s .ran
  | dies : p = .running → panics = true → Moved k panics s p s .ended
  | leaves : p = .ran → s.slots k ≠ some true →
      Moved k panics s p ⟨Function.update s.slots k none, s.history⟩ .ended
  | stays : p = .served ∨ p = .ended → Moved k panics s p s p

theorem moved_advance (a : ι) (panics : Bool) (s : Shared K) (p : Phase) :
    Moved (key a) panics s p (advance key a panics s p).1 (advance key a panics s p).2 := by
  cases p with
  | coming =>
    cases hslot : s.slots (key a) with
    | none =>
      simp only [advance, hslot]
      exact .brings rfl hslot
    | some flag =>
      simp only [advance, hslot]
      exact .joins rfl (by rw [hslot]; rfl)
  | served => exact .stays (Or.inl rfl)
  | spawned => exact .waits .sleeping rfl (Or.inl rfl)
  | sleeping => exact .waits .woken rfl (Or.inr rfl)
  | woken => exact .clears rfl
  | cleared => exact .starts rfl
  | running =>
    cases panics with
    | true => exact .dies rfl rfl
    | false => exact .finishes rfl
  | ran =>
    cases hslot : s.slots (key a) with
    | none =>
      simp only [advance, hslot]
      exact .leaves rfl (by rw [hslot]; exact fun h => by cases h)
    | some flag =>
      cases flag with
      | true =>
        simp only [advance, hslot]
        exact .waits .sleeping rfl (Or.inl rfl)
      | false =>
        simp only [advance, hslot]
        exact .leaves rfl (by rw [hslot]; exact fun h => by cases h)
  | ended => exact .stays (Or.inr rfl)

/-- Only a call that finds no slot brings a worker to life. -/
theorem Moved.alive {k : K} {panics : Bool} {s s' : Shared K} {p p' : Phase}
    (h : Moved k panics s p s' p')
    (halive : p'.alive = true) : p.alive = true ∨ s.slots k = none := by
  cases h with
  | joins => cases halive
  | brings _ hslot => exact Or.inr hslot
  | waits q hp => exact Or.inl hp
  | clears hp | starts hp | finishes hp =>
    rw [hp]
    exact Or.inl rfl
  | dies => cases halive
  | leaves => cases halive
  | stays hp =>
    rcases hp with rfl | rfl <;> cases halive

theorem Moved.slots_other {k j : K} {panics : Bool} {s s' : Shared K} {p p' : Phase}
    (h : Moved k panics s p s' p')
    (hj : j ≠ k) : s'.slots j = s.slots j := by
  cases h with
  | joins | brings | clears | leaves => exact Function.update_of_ne hj _ s.slots
  | waits | starts | finishes | dies | stays => rfl

private theorem isSome_put (slots : K → Option Bool) (k : K) (flag : Bool) :
    (Function.update slots k (some flag) k).isSome = true := by
  rw [Function.update_self]
  rfl

theorem Moved.slot_own {k : K} {panics : Bool} {s s' : Shared K} {p p' : Phase}
    (h : Moved k panics s p s' p')
    (halive : p'.alive = true) (hslot : p.alive = true → (s.slots k).isSome = true) :
    (s'.slots k).isSome = true := by
  cases h with
  | joins | brings | clears => exact isSome_put _ _ _
  | waits q hp => exact hslot hp
  | starts hp | finishes hp => exact hslot (by rw [hp]; rfl)
  | dies | leaves => cases halive
  | stays hp =>
    rcases hp with rfl | rfl <;> cases halive

theorem Moved.slot_kept {k : K} {panics : Bool} {s s' : Shared K} {p p' : Phase}
    (h : Moved k panics s p s' p')
    (hdead : p.alive = false) (hslot : (s.slots k).isSome = true) :
    (s'.slots k).isSome = true := by
  cases h with
  | joins | brings | clears => exact isSome_put _ _ _
  | waits | starts | finishes | dies | stays => exact hslot
  | leaves hp =>
    rw [hp] at hdead
    cases hdead

theorem Moved.answered_other {k j : K} {panics : Bool} {s s' : Shared K} {p p' : Phase}
    (h : Moved k panics s p s' p')
    (hj : j ≠ k) : Answered j s.history → Answered j s'.history := by
  intro hbefore
  have hcall : (Event.call k : Event K) ≠ .call j := fun heq => hj (Event.call.inj heq).symm
  have hstart : (Event.start k : Event K) ≠ .call j := fun heq => by cases heq
  cases h with
  | joins | brings => exact answered_append.mpr (Or.inr ⟨hcall, hbefore⟩)
  | starts => exact answered_append.mpr (Or.inr ⟨hstart, hbefore⟩)
  | waits | clears | finishes | dies | leaves | stays => exact hbefore

theorem Moved.history_starts {k j : K} {panics : Bool} {s s' : Shared K} {p p' : Phase}
    (h : Moved k panics s p s' p') (hdead : j = k → p.alive = false) :
    ∃ new, s'.history = s.history ++ new ∧ .start j ∉ new := by
  cases h with
  | joins | brings =>
    refine ⟨[.call k], rfl, fun hmem => ?_⟩
    cases List.mem_singleton.mp hmem
  | starts hp =>
    refine ⟨[.start k], rfl, fun hmem => ?_⟩
    have hkey := Event.start.inj (List.mem_singleton.mp hmem)
    have hnot := hdead hkey
    rw [hp] at hnot
    cases hnot
  | waits | clears | finishes | dies | leaves | stays =>
    exact ⟨[], (List.append_nil _).symm, List.not_mem_nil⟩

end Steps

section Runs

variable {ι K : Type} [DecidableEq ι] [DecidableEq K] {key : ι → K}
  {sys : System ι (Shared K) Phase} {op : ι × Bool}

private theorem moved_step (key : ι → K) (op : ι × Bool) (sys : System ι (Shared K) Phase) :
    Moved (key op.1) op.2 sys.shared (sys.places op.1) (step key op sys).shared
      ((step key op sys).places op.1) := by
  rw [Interleave.act_place_self]
  exact moved_advance op.1 op.2 sys.shared (sys.places op.1)

private theorem place_of_ne {a : ι} (ha : a ≠ op.1) : (step key op sys).places a = sys.places a :=
  Interleave.act_place_of_ne (advance key) ha sys

private theorem one_step (h : Inv key sys) (a b : ι)
    (ha : ((step key op sys).places a).alive = true)
    (hb : ((step key op sys).places b).alive = true) (hkey : key a = key b) : a = b := by
  -- a worker that is brought to life finds nobody alive for its key
  have hnew : ∀ c, c ≠ op.1 → (sys.places c).alive = true → key c = key op.1 →
      ((step key op sys).places op.1).alive = true → False := by
    intro c hc hcalive hckey hop
    rcases (moved_step key op sys).alive hop with hbefore | hslot
    · exact hc (h.one c op.1 hcalive hbefore hckey)
    · have hsome := h.slot c hcalive
      rw [hckey, hslot] at hsome
      cases hsome
  by_cases haop : a = op.1
  · by_cases hbop : b = op.1
    · rw [haop, hbop]
    · rw [place_of_ne hbop] at hb
      rw [haop] at ha hkey
      exact absurd (hnew b hbop hb hkey.symm ha) id
  · rw [place_of_ne haop] at ha
    by_cases hbop : b = op.1
    · rw [hbop] at hb hkey
      exact absurd (hnew a haop ha hkey hb) id
    · rw [place_of_ne hbop] at hb
      exact h.one a b ha hb hkey

private theorem slot_step (h : Inv key sys) (a : ι)
    (ha : ((step key op sys).places a).alive = true) :
    ((step key op sys).shared.slots (key a)).isSome = true := by
  have hmoved := moved_step key op sys
  by_cases haop : a = op.1
  · subst haop
    exact hmoved.slot_own ha (h.slot op.1)
  · rw [place_of_ne haop] at ha
    have hbefore := h.slot a ha
    by_cases hkey : key a = key op.1
    · cases hdead : (sys.places op.1).alive with
      | true => exact absurd (h.one a op.1 ha hdead hkey) haop
      | false =>
        rw [hkey] at hbefore ⊢
        exact hmoved.slot_kept hdead hbefore
    · rw [hmoved.slots_other hkey]
      exact hbefore

private theorem removed_step (h : Inv key sys) (k : K)
    (hk : (step key op sys).shared.slots k = none) :
    Answered k (step key op sys).shared.history := by
  have hmoved := moved_step key op sys
  by_cases hkey : k = key op.1
  · subst hkey
    generalize (step key op sys).places op.1 = p' at hmoved
    generalize (step key op sys).shared = s' at hmoved hk
    cases hmoved with
    | joins | brings | clears =>
      simp only [Function.update_self] at hk
      cases hk
    | waits | finishes | dies | stays => exact h.removed _ hk
    | starts => exact answered_append.mpr (Or.inl rfl)
    | leaves hp hflag =>
      have hsome := h.slot op.1 (by rw [hp]; rfl)
      obtain ⟨flag, hslot⟩ := Option.isSome_iff_exists.mp hsome
      cases flag with
      | true => exact absurd hslot hflag
      | false => exact h.quiet op.1 (Or.inr hp) hslot
  · rw [hmoved.slots_other hkey] at hk
    exact hmoved.answered_other hkey (h.removed k hk)

private theorem quiet_step (h : Inv key sys) (a : ι)
    (ha : (step key op sys).places a = .running ∨ (step key op sys).places a = .ran)
    (hflag : (step key op sys).shared.slots (key a) = some false) :
    Answered (key a) (step key op sys).shared.history := by
  have hmoved := moved_step key op sys
  by_cases haop : a = op.1
  · subst haop
    generalize (step key op sys).places op.1 = p' at hmoved ha
    generalize (step key op sys).shared = s' at hmoved hflag
    cases hmoved with
    | starts => exact answered_append.mpr (Or.inl rfl)
    | finishes hp => exact h.quiet op.1 (Or.inl hp) hflag
    | joins | brings | clears | dies | leaves => rcases ha with ha | ha <;> cases ha
    | waits q _ hq => rcases ha with rfl | rfl <;> rcases hq with hq | hq <;> cases hq
    | stays hp => rcases ha with ha | ha <;> rcases hp with hp | hp <;> rw [hp] at ha <;> cases ha
  · rw [place_of_ne haop] at ha
    by_cases hkey : key a = key op.1
    · -- the worker is the only one of its key, so the step is that of a call
      have halive : (sys.places a).alive = true := by
        rcases ha with ha | ha <;> rw [ha] <;> rfl
      have hdead : (sys.places op.1).alive = false := by
        cases hop : (sys.places op.1).alive with
        | true => exact absurd (h.one a op.1 halive hop hkey) haop
        | false => rfl
      have hsome := h.slot a halive
      rw [hkey] at hflag hsome ⊢
      generalize (step key op sys).places op.1 = p' at hmoved
      generalize (step key op sys).shared = s' at hmoved hflag
      cases hmoved with
      | joins =>
        simp only [Function.update_self] at hflag
        cases hflag
      | brings _ hslot =>
        rw [hslot] at hsome
        cases hsome
      | waits q hp =>
        rw [hdead] at hp
        cases hp
      | clears hp | starts hp | finishes hp | dies hp | leaves hp =>
        rw [hp] at hdead
        cases hdead
      | stays =>
        have hquiet := h.quiet a ha
        rw [hkey] at hquiet
        exact hquiet hflag
    · rw [hmoved.slots_other hkey] at hflag
      exact hmoved.answered_other hkey (h.quiet a ha hflag)

theorem inv_step (op : ι × Bool) (sys : System ι (Shared K) Phase) (h : Inv key sys) :
    Inv key (step key op sys) :=
  ⟨one_step h, slot_step h, removed_step h, quiet_step h⟩

omit [DecidableEq ι] [DecidableEq K] in
theorem inv_initial : Inv key (initial : System ι (Shared K) Phase) := by
  refine ⟨?_, ?_, fun k _ => answered_nil, ?_⟩
  · intro a b ha
    cases ha
  · intro a ha
    cases ha
  · intro a ha
    rcases ha with ha | ha <;> cases ha

omit [DecidableEq ι] [DecidableEq K] in
theorem Inv.exclusive (h : Inv key sys) : Exclusive key sys := by
  intro a b ha hb
  exact h.one a b (by rw [ha]; rfl) (by rw [hb]; rfl)

private theorem served_step {k : K} (h : Served key k sys) :
    Served key k (step key op sys) ∨ (k = key op.1 ∧ (sys.places op.1).alive = true ∧
      ((step key op sys).places op.1).alive = false) := by
  obtain ⟨a, ha, halive⟩ := h
  by_cases haop : a = op.1
  · subst haop
    cases hnext : ((step key op sys).places op.1).alive with
    | true => exact Or.inl ⟨op.1, ha, hnext⟩
    | false => exact Or.inr ⟨ha.symm, halive, rfl⟩
  · refine Or.inl ⟨a, ha, ?_⟩
    rw [place_of_ne haop]
    exact halive

private theorem served_of_step {k : K} (h : Served key k (step key op sys)) :
    Served key k sys ∨ (k = key op.1 ∧ sys.shared.slots k = none) := by
  obtain ⟨a, ha, halive⟩ := h
  by_cases haop : a = op.1
  · subst haop
    rcases (moved_step key op sys).alive halive with hbefore | hslot
    · exact Or.inl ⟨op.1, ha, hbefore⟩
    · exact Or.inr ⟨ha.symm, ha ▸ hslot⟩
  · rw [place_of_ne haop] at halive
    exact Or.inl ⟨a, ha, halive⟩

private theorem not_served_of_dead (h : Inv key sys) (halive : (sys.places op.1).alive = true)
    (hdead : ((step key op sys).places op.1).alive = false) :
    ¬ Served key (key op.1) (step key op sys) := by
  rintro ⟨a, ha, hafter⟩
  by_cases haop : a = op.1
  · rw [haop, hdead] at hafter
    cases hafter
  · rw [place_of_ne haop] at hafter
    exact haop (h.one a op.1 hafter halive ha)

private theorem harmless_of_nothingLost (h : Inv key sys)
    (hnext : NothingLost key (step key op sys)) : Harmless key op sys := by
  unfold Harmless
  split
  · rename_i hcoming
    intro hsome
    by_contra hnobody
    have hnot : ¬ Served key (key op.1) (step key op sys) := by
      intro hserved
      rcases served_of_step hserved with hbefore | ⟨-, hslot⟩
      · exact hnobody hbefore
      · rw [hslot] at hsome
        cases hsome
    have hhistory : (step key op sys).shared.history =
        sys.shared.history ++ [.call (key op.1)] := by
      obtain ⟨flag, hslot⟩ := Option.isSome_iff_exists.mp hsome
      simp only [step, Interleave.act_shared, hcoming, advance, hslot]
    have hanswered := hnext _ hnot
    rw [hhistory] at hanswered
    rcases answered_append.mp hanswered with hstart | ⟨hcall, -⟩
    · cases hstart
    · exact hcall rfl
  · rename_i hrunning
    intro hpanics
    have hplace : (step key op sys).places op.1 = .ended := by
      rw [Interleave.act_place_self, hrunning, advance, if_pos hpanics]
    have hhistory : (step key op sys).shared.history = sys.shared.history := by
      rw [Interleave.act_shared, hrunning, advance]
    have hnot : ¬ Served key (key op.1) (step key op sys) := by
      apply not_served_of_dead h
      · rw [hrunning]
        rfl
      · rw [hplace]
        rfl
    rw [← hhistory]
    exact hnext _ hnot
  · trivial

private theorem nothingLost_of_harmless (h : Inv key sys) (hgood : NothingLost key sys)
    (hharmless : Harmless key op sys) : NothingLost key (step key op sys) := by
  intro k hk
  have hmoved := moved_step key op sys
  by_cases hkey : k = key op.1
  · subst hkey
    have hnext : ((step key op sys).places op.1).alive = false := by
      cases halive : ((step key op sys).places op.1).alive with
      | true => exact absurd ⟨op.1, rfl, halive⟩ hk
      | false => rfl
    -- a call that is served before the step is served after it, unless the step was its end
    have hstays : (sys.places op.1).alive = false → ¬ Served key (key op.1) sys := by
      intro hdead hserved
      rcases served_step hserved with hafter | ⟨-, halive, -⟩
      · exact hk hafter
      · rw [hdead] at halive
        cases halive
    unfold Harmless at hharmless
    generalize (step key op sys).places op.1 = p' at hmoved hnext
    generalize (step key op sys).shared = s' at hmoved ⊢
    cases hmoved with
    | joins hp hsome =>
      rw [hp] at hharmless hstays
      exact absurd (hharmless hsome) (hstays rfl)
    | waits q _ hq => rcases hq with rfl | rfl <;> cases hnext
    | brings | clears | starts | finishes => cases hnext
    | dies hp hpanics =>
      rw [hp] at hharmless
      exact hharmless hpanics
    | leaves hp hflag =>
      obtain ⟨flag, hslot⟩ := Option.isSome_iff_exists.mp (h.slot op.1 (by rw [hp]; rfl))
      cases flag with
      | true => exact absurd hslot hflag
      | false => exact h.quiet op.1 (Or.inr hp) hslot
    | stays => exact hgood _ (hstays hnext)
  · refine hmoved.answered_other hkey (hgood k fun hserved => ?_)
    rcases served_step hserved with hafter | ⟨heq, -, -⟩
    · exact hk hafter
    · exact hkey heq

theorem nothingLost_iff (key : ι → K) (ops : List (ι × Bool)) :
    (∀ i ≤ ops.length, NothingLost key (Runs.run (step key) (ops.take i) initial)) ↔
      ∀ i (h : i < ops.length), Harmless key ops[i] (Runs.run (step key) (ops.take i) initial) := by
  refine Runs.run_all_iff (step key) inv_step (fun op sys h hgood => ?_) ops inv_initial ?_
  · exact ⟨harmless_of_nothingLost h, nothingLost_of_harmless h hgood⟩
  · intro k _
    exact answered_nil

/-- Runs of one key never overlap. And in the states of a run every call is answered when no worker
is left, exactly when no call comes for a key whose worker died, and no worker dies over a call. -/
theorem coalesced_iff (key : ι → K) (ops : List (ι × Bool)) :
    (∀ i ≤ ops.length, Exclusive key (Runs.run (step key) (ops.take i) initial)) ∧
    ((∀ i ≤ ops.length, NothingLost key (Runs.run (step key) (ops.take i) initial)) ↔
      ∀ i (h : i < ops.length),
        Harmless key ops[i] (Runs.run (step key) (ops.take i) initial)) := by
  refine ⟨fun i _ => ?_, nothingLost_iff key ops⟩
  exact (Runs.run_invariant (step key) inv_step (ops.take i) inv_initial).exclusive

private theorem manned_step (hcalm : op.2 = false)
    (h : ∀ k, (sys.shared.slots k).isSome = true → Served key k sys) (k : K)
    (hk : ((step key op sys).shared.slots k).isSome = true) : Served key k (step key op sys) := by
  have hmoved := moved_step key op sys
  by_cases hkey : k = key op.1
  · subst hkey
    cases hnext : ((step key op sys).places op.1).alive with
    | true => exact ⟨op.1, rfl, hnext⟩
    | false =>
      have hbefore : (sys.shared.slots (key op.1)).isSome = true →
          (sys.places op.1).alive = false → Served key (key op.1) (step key op sys) := by
        intro hslot hdead
        rcases served_step (h _ hslot) with hafter | ⟨-, halive, -⟩
        · exact hafter
        · rw [hdead] at halive
          cases halive
      generalize (step key op sys).places op.1 = p' at hmoved hnext
      generalize (step key op sys).shared = s' at hmoved hk
      cases hmoved with
      | joins hp hsome => exact hbefore hsome (by rw [hp]; rfl)
      | waits q _ hq => rcases hq with rfl | rfl <;> cases hnext
      | brings | clears | starts | finishes => cases hnext
      | dies _ hpanics =>
        rw [hcalm] at hpanics
        cases hpanics
      | leaves =>
        simp only [Function.update_self] at hk
        cases hk
      | stays => exact hbefore hk hnext
  · rw [hmoved.slots_other hkey] at hk
    rcases served_step (h k hk) with hafter | ⟨heq, -, -⟩
    · exact hafter
    · exact absurd heq hkey

theorem nothing_lost_without_panics (key : ι → K) (ops : List (ι × Bool))
    (hcalm : ∀ op ∈ ops, op.2 = false) :
    ∀ i ≤ ops.length, NothingLost key (Runs.run (step key) (ops.take i) initial) := by
  have hmanned : ∀ i ≤ ops.length, ∀ k,
      ((Runs.run (step key) (ops.take i) initial).shared.slots k).isSome = true →
        Served key k (Runs.run (step key) (ops.take i) initial) := by
    intro i hi
    induction i with
    | zero =>
      intro k hk
      cases hk
    | succ i ih =>
      rw [Runs.run_take_succ (step key) ops initial i hi]
      exact manned_step (hcalm _ (List.getElem_mem hi)) (ih (Nat.le_of_lt hi))
  rw [nothingLost_iff]
  intro i hi
  unfold Harmless
  split
  · exact hmanned i (Nat.le_of_lt hi) _
  · intro hpanics
    rw [hcalm _ (List.getElem_mem hi)] at hpanics
    cases hpanics
  · trivial

def Stuck (key : ι → K) (k : K) (sys : System ι (Shared K) Phase) : Prop :=
  (sys.shared.slots k).isSome = true ∧ ¬ Served key k sys

theorem stuck_forever {k : K} (hstuck : Stuck key k sys) (ops : List (ι × Bool)) :
    Stuck key k (Runs.run (step key) ops sys) ∧
      ∃ more, (Runs.run (step key) ops sys).shared.history = sys.shared.history ++ more ∧
        .start k ∉ more := by
  have hstep : ∀ op st, (Stuck key k st ∧
        ∃ more, st.shared.history = sys.shared.history ++ more ∧ .start k ∉ more) →
      Stuck key k (step key op st) ∧
        ∃ more, (step key op st).shared.history = sys.shared.history ++ more ∧
          .start k ∉ more := by
    rintro op st ⟨⟨hslot, hnobody⟩, more, hmore, hstart⟩
    have hmoved := moved_step key op st
    have hnobody' : ¬ Served key k (step key op st) := by
      intro hserved
      rcases served_of_step hserved with hbefore | ⟨-, hnone⟩
      · exact hnobody hbefore
      · rw [hnone] at hslot
        cases hslot
    have hdead : k = key op.1 → (st.places op.1).alive = false := by
      intro hkey
      cases halive : (st.places op.1).alive with
      | true => exact absurd ⟨op.1, hkey.symm, halive⟩ hnobody
      | false => rfl
    refine ⟨⟨?_, hnobody'⟩, ?_⟩
    · by_cases hkey : k = key op.1
      · subst hkey
        exact hmoved.slot_kept (hdead rfl) hslot
      · rw [hmoved.slots_other hkey]
        exact hslot
    · obtain ⟨new, hnew, hnone⟩ := hmoved.history_starts hdead
      refine ⟨more ++ new, by rw [hnew, hmore, List.append_assoc], ?_⟩
      rw [List.mem_append]
      exact fun hmem => hmem.elim hstart hnone
  exact Runs.run_invariant (step key) hstep ops
    ⟨hstuck, [], (List.append_nil _).symm, List.not_mem_nil⟩

/-- The run of the first call panics, and a second call comes. -/
def panicSchedule : List (Bool × Bool) :=
  [(false, false), (false, false), (false, false), (false, false), (false, false), (false, true),
    (true, false)]

/-- The second call has no run, whatever happens afterwards. -/
theorem panic_freezes_the_key :
    ¬ NothingLost (fun _ => ()) (Runs.run (step fun _ : Bool => ()) panicSchedule initial) ∧
    ∀ ops, ∃ more,
      (Runs.run (step fun _ : Bool => ()) (panicSchedule ++ ops) initial).shared.history =
        [.call (), .start (), .call ()] ++ more ∧ .start () ∉ more := by
  have hplaces : ∀ a : Bool, ((Runs.run (step fun _ : Bool => ()) panicSchedule initial).places
      a).alive = false := by decide
  have hnobody : ¬ Served (fun _ : Bool => ()) ()
      (Runs.run (step fun _ : Bool => ()) panicSchedule initial) := by
    rintro ⟨a, -, halive⟩
    rw [hplaces a] at halive
    cases halive
  have hhistory : (Runs.run (step fun _ : Bool => ()) panicSchedule initial).shared.history =
      [.call (), .start (), .call ()] := rfl
  constructor
  · intro hlost
    exact absurd (hlost () hnobody [.call (), .start ()] [] hhistory) List.not_mem_nil
  · intro ops
    rw [Runs.run_append, ← hhistory]
    exact (stuck_forever ⟨rfl, hnobody⟩ ops).2

end Runs

end Setfork.Coalescing
