/- Foundation: references
   digest: A store of named references, forced moves, and what a run of moves leaves alone. -/
import Mathlib.Data.List.AList
import Setfork.Foundation.Git

set_option autoImplicit false
set_option relaxedAutoImplicit false

namespace Setfork.Foundation

/-- What a reference points at: a commit, or any other object with the commit its tags end at. -/
inductive Target where
  | commit (c : Commit)
  | object (id : Bytes) (tagged : Option Commit)
deriving DecidableEq

def Target.peel : Target → Option Commit
  | commit c => some c
  | object _ tagged => tagged

abbrev Refs := AList (fun _ : Text => Target)

namespace Refs

def setAll (refs : Refs) (moves : List (Text × Commit)) : Refs :=
  moves.foldl (fun r m => r.insert m.1 (.commit m.2)) refs

@[simp] theorem setAll_nil (refs : Refs) : refs.setAll [] = refs := rfl

@[simp] theorem setAll_cons (refs : Refs) (m : Text × Commit) (moves : List (Text × Commit)) :
    refs.setAll (m :: moves) = setAll (refs.insert m.1 (.commit m.2)) moves := rfl

theorem lookup_setAll_of_notMem {moves : List (Text × Commit)} {name : Text}
    (hname : name ∉ moves.map Prod.fst) (refs : Refs) :
    (refs.setAll moves).lookup name = refs.lookup name := by
  induction moves generalizing refs with
  | nil => rfl
  | cons m moves ih =>
    simp only [List.map_cons, List.mem_cons, not_or] at hname
    rw [setAll_cons, ih hname.2, AList.lookup_insert_ne hname.1]

/-- A name that is moved ends at one of the commits it is moved to. -/
theorem lookup_setAll_of_mem {moves : List (Text × Commit)} {name : Text}
    (hname : name ∈ moves.map Prod.fst) (refs : Refs) :
    ∃ c, (name, c) ∈ moves ∧ (refs.setAll moves).lookup name = some (.commit c) := by
  induction moves generalizing refs with
  | nil => cases hname
  | cons m moves ih =>
    obtain ⟨n, c⟩ := m
    by_cases hrest : name ∈ moves.map Prod.fst
    · obtain ⟨d, hd, hlookup⟩ := ih hrest (refs.insert n (.commit c))
      exact ⟨d, List.mem_cons_of_mem _ hd, hlookup⟩
    · obtain rfl : name = n := by simpa [hrest] using hname
      refine ⟨c, List.mem_cons_self, ?_⟩
      rw [setAll_cons, lookup_setAll_of_notMem hrest, AList.lookup_insert]

theorem mem_setAll {refs : Refs} {name : Text} (h : name ∈ refs) (moves : List (Text × Commit)) :
    name ∈ refs.setAll moves := by
  induction moves generalizing refs with
  | nil => exact h
  | cons m moves ih => exact ih ((AList.mem_insert refs).mpr (Or.inr h))

def commitAt (refs : Refs) (name : Text) : Option Commit :=
  (refs.lookup name).bind (fun t =>
    match t with
    | .commit c => some c
    | .object _ _ => none)

theorem commit_unique {refs : Refs} {name : Text} {c d : Commit}
    (hc : refs.lookup name = some (.commit c)) (hd : refs.lookup name = some (.commit d)) : c = d :=
  Target.commit.inj (Option.some.inj (hc.symm.trans hd))

theorem commitAt_eq_some {refs : Refs} {name : Text} {c : Commit} :
    refs.commitAt name = some c ↔ refs.lookup name = some (.commit c) := by
  unfold commitAt
  cases refs.lookup name with
  | none => simp
  | some t => cases t <;> simp

def Forward (t u : Target) : Prop :=
  u = t ∨ ∃ c d, t = .commit c ∧ u = .commit d ∧ d.Reaches c

theorem Forward.trans {t u v : Target} (h : Forward t u) (h' : Forward u v) : Forward t v := by
  rcases h' with rfl | ⟨c, d, rfl, rfl, hd⟩
  · exact h
  · rcases h with rfl | ⟨b, c', rfl, hc, hb⟩
    · exact Or.inr ⟨c, d, rfl, rfl, hd⟩
    · obtain rfl : c = c' := Target.commit.inj hc
      exact Or.inr ⟨b, d, rfl, rfl, hd.trans hb⟩

/-- The branch only moves forward, no name goes away, and pinned names stay where they are. -/
structure Extends (branch : Text) (pinned : Text → Prop) (before after : Refs) : Prop where
  forward : ∀ t, before.lookup branch = some t → ∃ u, after.lookup branch = some u ∧ Forward t u
  names : ∀ name ∈ before, name ∈ after
  stays : ∀ name ∈ before, pinned name → after.lookup name = before.lookup name

namespace Extends

variable {branch : Text} {pinned : Text → Prop} {refs before middle after : Refs}

protected theorem refl (refs : Refs) : Extends branch pinned refs refs where
  forward := fun t ht => ⟨t, ht, Or.inl rfl⟩
  names := fun _ hname => hname
  stays := fun _ _ _ => rfl

protected theorem trans (h : Extends branch pinned before middle)
    (h' : Extends branch pinned middle after) : Extends branch pinned before after where
  forward := by
    intro t ht
    obtain ⟨u, hu, htu⟩ := h.forward t ht
    obtain ⟨v, hv, huv⟩ := h'.forward u hu
    exact ⟨v, hv, htu.trans huv⟩
  names := fun name hname => h'.names name (h.names name hname)
  stays := fun name hname hpinned =>
    (h'.stays name (h.names name hname) hpinned).trans (h.stays name hname hpinned)

theorem insert_branch {d : Commit} (hpinned : ¬ pinned branch)
    (hforward : ∀ t, refs.lookup branch = some t → Forward t (.commit d)) :
    Extends branch pinned refs (refs.insert branch (.commit d)) where
  forward := fun t ht => ⟨.commit d, AList.lookup_insert refs, hforward t ht⟩
  names := fun _ hname => (AList.mem_insert refs).mpr (Or.inr hname)
  stays := by
    intro name _ hname
    have hne : name ≠ branch := by
      intro heq
      exact hpinned (heq ▸ hname)
    exact AList.lookup_insert_ne hne

theorem insert_name {name : Text} {t : Target} (hbranch : branch ≠ name)
    (hname : name ∈ refs → pinned name → refs.lookup name = some t) :
    Extends branch pinned refs (refs.insert name t) where
  forward := fun u hu => ⟨u, (AList.lookup_insert_ne hbranch).trans hu, Or.inl rfl⟩
  names := fun _ h => (AList.mem_insert refs).mpr (Or.inr h)
  stays := by
    intro other hother hpinned
    by_cases heq : other = name
    · subst heq
      rw [AList.lookup_insert, hname hother hpinned]
    · exact AList.lookup_insert_ne heq

/-- Moving other names, none of which is pinned and there. -/
theorem setAll {moves : List (Text × Commit)}
    (hmoves : ∀ m ∈ moves, m.1 ≠ branch ∧ (pinned m.1 → m.1 ∉ refs)) :
    Extends branch pinned refs (refs.setAll moves) where
  forward := by
    intro t ht
    have hbranch : branch ∉ moves.map Prod.fst := by
      intro hmem
      obtain ⟨m, hm, heq⟩ := List.mem_map.mp hmem
      exact (hmoves m hm).1 heq
    exact ⟨t, (lookup_setAll_of_notMem hbranch refs).trans ht, Or.inl rfl⟩
  names := fun _ hname => mem_setAll hname moves
  stays := by
    intro name hname hpinned
    have hnot : name ∉ moves.map Prod.fst := by
      intro hmem
      obtain ⟨m, hm, rfl⟩ := List.mem_map.mp hmem
      exact (hmoves m hm).2 hpinned hname
    exact lookup_setAll_of_notMem hnot refs

end Extends

def Reachable (refs : Refs) (c : Commit) : Prop :=
  ∃ name t tip, refs.lookup name = some t ∧ t.peel = some tip ∧ tip.Reaches c

def reachable (refs : Refs) (c : Commit) : Bool :=
  refs.keys.any (fun name =>
    ((refs.lookup name).bind Target.peel).any (fun tip => decide (tip.Reaches c)))

theorem reachable_iff (refs : Refs) (c : Commit) : refs.reachable c = true ↔ refs.Reachable c := by
  simp only [reachable, List.any_eq_true, Option.any_eq_true, decide_eq_true_eq,
    Option.bind_eq_some_iff]
  constructor
  · intro h
    obtain ⟨name, -, tip, ⟨t, hname, ht⟩, hreach⟩ := h
    exact ⟨name, t, tip, hname, ht, hreach⟩
  · intro h
    obtain ⟨name, t, tip, hname, ht, hreach⟩ := h
    have hmem : name ∈ refs := by
      rw [← AList.lookup_isSome, hname]
      rfl
    exact ⟨name, hmem, tip, ⟨t, hname, ht⟩, hreach⟩

instance (refs : Refs) (c : Commit) : Decidable (refs.Reachable c) :=
  decidable_of_iff _ (reachable_iff refs c)

def All (P : Commit → Prop) (refs : Refs) : Prop := ∀ c, refs.Reachable c → P c

def Holds (P : Commit → Prop) (t : Target) : Prop :=
  ∀ tip, t.peel = some tip → ∀ c, tip.Reaches c → P c

namespace All

variable {P : Commit → Prop} {refs : Refs}

theorem holds (h : All P refs) {name : Text} {t : Target} (hname : refs.lookup name = some t) :
    Holds P t := fun tip ht c hreach => h c ⟨name, t, tip, hname, ht, hreach⟩

theorem insert (h : All P refs) {name : Text} {t : Target} (ht : Holds P t) :
    All P (refs.insert name t) := by
  intro c hc
  obtain ⟨other, u, tip, hother, hu, hreach⟩ := hc
  by_cases heq : other = name
  · rw [heq, AList.lookup_insert] at hother
    obtain rfl := Option.some.inj hother
    exact ht tip hu c hreach
  · rw [AList.lookup_insert_ne heq] at hother
    exact h c ⟨other, u, tip, hother, hu, hreach⟩

theorem erase (h : All P refs) (name : Text) : All P (refs.erase name) := by
  intro c hc
  obtain ⟨other, u, tip, hother, hu, hreach⟩ := hc
  by_cases heq : other = name
  · rw [heq, AList.lookup_erase] at hother
    cases hother
  · rw [AList.lookup_erase_ne heq] at hother
    exact h c ⟨other, u, tip, hother, hu, hreach⟩

theorem setAll (h : All P refs) {moves : List (Text × Commit)}
    (hmoves : ∀ m ∈ moves, Holds P (.commit m.2)) : All P (refs.setAll moves) := by
  induction moves generalizing refs with
  | nil => exact h
  | cons m moves ih =>
    exact ih (h.insert (hmoves m List.mem_cons_self))
      fun n hn => hmoves n (List.mem_cons_of_mem m hn)

protected theorem empty : All P (∅ : Refs) := by
  intro c hc
  obtain ⟨name, t, tip, hname, -⟩ := hc
  cases hname

end All

theorem holds_commit_iff {P : Commit → Prop} {c : Commit} :
    Holds P (.commit c) ↔ P c ∧ ∀ p ∈ c.parents, Holds P (.commit p) := by
  constructor
  · intro h
    refine ⟨h c rfl c .refl, fun p hp tip htip a ha => ?_⟩
    obtain rfl : p = tip := Option.some.inj htip
    exact h c rfl a (.head hp ha)
  · intro h tip htip a ha
    obtain rfl : c = tip := Option.some.inj htip
    rcases (Commit.reaches_iff_parents c a).mp ha with rfl | ⟨p, hp, hpa⟩
    · exact h.1
    · exact h.2 p hp p rfl a hpa

theorem Holds.ancestor {P : Commit → Prop} {c a : Commit} (h : Holds P (.commit c))
    (ha : c.Reaches a) : Holds P (.commit a) := by
  intro tip htip b hb
  obtain rfl : a = tip := Option.some.inj htip
  exact h c rfl b (ha.trans hb)

end Refs

end Setfork.Foundation
