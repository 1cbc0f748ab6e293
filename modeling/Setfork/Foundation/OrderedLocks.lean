/- Foundation: ordered locks
   digest: Agents that take counted resources and give them back: nobody waits in a circle when
   everyone takes them in one order. -/
import Mathlib.Algebra.BigOperators.Group.Finset.Basic
import Mathlib.Algebra.Order.BigOperators.Group.Finset
import Mathlib.Data.Fintype.BigOperators
import Setfork.Foundation.Runs

set_option autoImplicit false
set_option relaxedAutoImplicit false

namespace Setfork.Foundation.OrderedLocks

inductive Instr (R M : Type) where
  | take (r : R)
  | free (r : R)
  | work (m : M)

structure Agent (R M : Type) where
  held : List R
  rest : List (Instr R M)

structure Sys (ι R M S : Type) where
  holders : R → List ι
  agents : ι → Agent R M
  shared : S

/-- An agent goes on, or what it does is given up, in one way or another. -/
inductive Op (ι δ : Type) where
  | go (a : ι)
  | giveUp (a : ι) (how : δ)

section Steps

variable {ι δ R M S : Type} [DecidableEq ι] [DecidableEq R] (cap : R → Nat)
  (act : ι → M → S → S) (abandon : δ → List R → List (Instr R M) → List (Instr R M))

/-- The agent has something to do, and does not have to wait for it. -/
def Ready (a : ι) (sys : Sys ι R M S) : Prop :=
  match (sys.agents a).rest with
  | [] => False
  | .take r :: _ => (sys.holders r).length < cap r
  | _ => True

/-- The next instruction of an agent; one that has to wait does nothing. -/
def go (a : ι) (sys : Sys ι R M S) : Sys ι R M S :=
  match sys.agents a with
  | ⟨_, []⟩ => sys
  | ⟨held, .take r :: rest⟩ =>
    if (sys.holders r).length < cap r then
      ⟨Function.update sys.holders r (a :: sys.holders r),
        Function.update sys.agents a ⟨r :: held, rest⟩, sys.shared⟩
    else sys
  | ⟨held, .free r :: rest⟩ =>
    ⟨Function.update sys.holders r ((sys.holders r).erase a),
      Function.update sys.agents a ⟨held.erase r, rest⟩, sys.shared⟩
  | ⟨held, .work m :: rest⟩ =>
    ⟨sys.holders, Function.update sys.agents a ⟨held, rest⟩, act a m sys.shared⟩

/-- What is left to do is only what has to be done when nobody wants the rest any more. -/
def giveUp (a : ι) (how : δ) (sys : Sys ι R M S) : Sys ι R M S :=
  let agent := sys.agents a
  { sys with agents := Function.update sys.agents a ⟨agent.held, abandon how agent.held agent.rest⟩ }

def step : Op ι δ → Sys ι R M S → Sys ι R M S
  | .go a, sys => go cap act a sys
  | .giveUp a how, sys => giveUp abandon a how sys

abbrev run (ops : List (Op ι δ)) (sys : Sys ι R M S) : Sys ι R M S :=
  Runs.run (step cap act abandon) ops sys

/-- Nobody has anything yet. -/
def initial (scripts : ι → List (Instr R M)) (start : S) : Sys ι R M S :=
  ⟨fun _ => [], fun a => ⟨[], scripts a⟩, start⟩

variable {cap} {act} {a : ι} {sys : Sys ι R M S} {held : List R} {r : R} {rest : List (Instr R M)}

theorem go_take (h : sys.agents a = ⟨held, .take r :: rest⟩)
    (hfree : (sys.holders r).length < cap r) : go cap act a sys =
      ⟨Function.update sys.holders r (a :: sys.holders r),
        Function.update sys.agents a ⟨r :: held, rest⟩, sys.shared⟩ := by
  unfold go
  rw [h]
  exact if_pos hfree

theorem go_eq_self (h : (sys.agents a).rest = .take r :: rest)
    (hfull : cap r ≤ (sys.holders r).length) : go cap act a sys = sys := by
  unfold go
  rcases hagent : sys.agents a with ⟨held', rest'⟩
  rw [hagent] at h
  subst h
  exact if_neg (Nat.not_lt.mpr hfull)

end Steps

section Order

variable {R M : Type} [DecidableEq R] (rank : R → Nat) (guard : M → R)

def Ordered : List R → List (Instr R M) → Prop
  | held, [] => held = []
  | held, .take r :: rest => (∀ q ∈ held, rank q < rank r) ∧ Ordered (r :: held) rest
  | held, .free r :: rest => r ∈ held ∧ Ordered (held.erase r) rest
  | held, .work _ :: rest => Ordered held rest

def Protected : List R → List (Instr R M) → Prop
  | _, [] => True
  | held, .take r :: rest => Protected (r :: held) rest
  | held, .free r :: rest => Protected (held.erase r) rest
  | held, .work m :: rest => guard m ∈ held ∧ Protected held rest

structure Inherited (P : List R → List (Instr R M) → Prop) : Prop where
  take : ∀ held r rest, P held (.take r :: rest) → P (r :: held) rest
  free : ∀ held r rest, P held (.free r :: rest) → P (held.erase r) rest
  work : ∀ held m rest, P held (.work m :: rest) → P held rest

def LastWork (rest : List (Instr R M)) : Prop := ∀ m more, .work m :: more <:+ rest → more = []

omit [DecidableEq R] in
theorem LastWork.tail {instr : Instr R M} {rest : List (Instr R M)} (h : LastWork (instr :: rest)) :
    LastWork rest := fun m more hm => h m more (hm.trans (List.suffix_cons instr rest))

theorem inherited_lastWork : @Inherited R M _ fun _ rest => LastWork rest :=
  ⟨fun _ _ _ h => h.tail, fun _ _ _ h => h.tail, fun _ _ _ h => h.tail⟩

omit [DecidableEq R] in
theorem LastWork.append {script rest : List (Instr R M)} (hscript : ∀ m, .work m ∉ script)
    (h : LastWork rest) : LastWork (script ++ rest) := by
  induction script with
  | nil => exact h
  | cons instr script ih =>
    intro m more hm
    rcases List.suffix_cons_iff.mp hm with heq | hm
    · exact absurd ((List.cons.inj heq).1 ▸ List.mem_cons_self) (hscript m)
    · exact ih (fun m hm => hscript m (List.mem_cons_of_mem _ hm)) m more hm

theorem inherited_ordered : Inherited (Ordered (M := M) rank) :=
  ⟨fun _ _ _ h => h.2, fun _ _ _ h => h.2, fun _ _ _ h => h⟩

theorem inherited_protected : Inherited (Protected guard) :=
  ⟨fun _ _ _ h => h, fun _ _ _ h => h, fun _ _ _ h => h.2⟩

variable {rank} {guard}

theorem protected_of_idle {held : List R} {script : List (Instr R M)}
    (h : ∀ m, .work m ∉ script) : Protected guard held script := by
  induction script generalizing held with
  | nil => trivial
  | cons instr script ih =>
    have hrest : ∀ m, .work m ∉ script := fun m hm => h m (List.mem_cons_of_mem _ hm)
    cases instr with
    | take r => exact ih hrest
    | free r => exact ih hrest
    | work m => exact absurd List.mem_cons_self (h m)

theorem ordered_frees_append {order kept : List R} {script : List (Instr R M)}
    (hscript : ∀ held, kept.Perm held → Ordered rank held script) {held : List R}
    (h : (order ++ kept).Perm held) : Ordered rank held (order.map .free ++ script) := by
  induction order generalizing held with
  | nil => exact hscript held h
  | cons r order ih =>
    refine ⟨h.mem_iff.mp List.mem_cons_self, ih ?_⟩
    have herase := h.erase r
    rwa [List.cons_append, List.erase_cons_head] at herase

theorem ordered_frees {order held : List R} (h : order.Perm held) :
    Ordered (M := M) rank held (order.map .free) := by
  have happend := @ordered_frees_append R M _ rank order [] []
    (fun held' hheld => hheld.nil_eq.symm) held (by rwa [List.append_nil])
  rwa [List.append_nil] at happend

theorem Ordered.append {held : List R} {script rest : List (Instr R M)}
    (h : Ordered rank held script) (hrest : Ordered rank [] rest) :
    Ordered rank held (script ++ rest) := by
  induction script generalizing held with
  | nil =>
    rw [show held = [] from h]
    exact hrest
  | cons instr script ih =>
    cases instr with
    | take r => exact ⟨h.1, ih h.2⟩
    | free r => exact ⟨h.1, ih h.2⟩
    | work m => exact @ih held h

theorem Ordered.flatMap {α : Type} {scripts : α → List (Instr R M)} {parts : List α}
    (h : ∀ x ∈ parts, Ordered rank [] (scripts x)) :
    Ordered rank [] (parts.flatMap scripts) := by
  induction parts with
  | nil => exact rfl
  | cons x parts ih =>
    rw [List.flatMap_cons]
    exact (h x List.mem_cons_self).append (ih fun y hy => h y (List.mem_cons_of_mem _ hy))

end Order

section Runs

variable {ι δ R M S : Type} [DecidableEq ι] [DecidableEq R] (cap : R → Nat) (rank : R → Nat)

/-- The table and the agents agree on who has what, and nothing is given out more often than it is
there. -/
structure Tallied (sys : Sys ι R M S) : Prop where
  count : ∀ r a, (sys.holders r).count a = (sys.agents a).held.count r
  within : ∀ r, (sys.holders r).length ≤ cap r

/-- Beside that, what is left of every script keeps the order. -/
structure Sound (sys : Sys ι R M S) : Prop extends Tallied cap sys where
  ordered : ∀ a, Ordered rank (sys.agents a).held (sys.agents a).rest

variable {cap} {rank} {act : ι → M → S → S}
  {abandon : δ → List R → List (Instr R M) → List (Instr R M)} {sys : Sys ι R M S}

theorem tallied_initial (scripts : ι → List (Instr R M)) (start : S) :
    Tallied cap (initial scripts start) := ⟨fun _ _ => rfl, fun _ => Nat.zero_le _⟩

theorem Tallied.mem_iff (h : Tallied cap sys) {r : R} {a : ι} :
    a ∈ sys.holders r ↔ r ∈ (sys.agents a).held := by
  rw [← List.count_pos_iff, h.count, List.count_pos_iff]

/-- One agent gets other holdings, and the entries of one resource change with them. -/
theorem Tallied.update {a : ι} {r : R} {entries : List ι} {held : List R}
    (rest : List (Instr R M)) (shared : S) (h : Tallied cap sys) (hlength : entries.length ≤ cap r)
    (hself : ∀ q, held.count q = if q = r then entries.count a else (sys.agents a).held.count q)
    (hothers : ∀ b, b ≠ a → entries.count b = (sys.holders r).count b) :
    Tallied cap (⟨Function.update sys.holders r entries,
      Function.update sys.agents a ⟨held, rest⟩, shared⟩ : Sys ι R M S) := by
  refine ⟨fun q b => ?_, fun q => ?_⟩
  · by_cases hb : b = a
    · subst hb
      simp only [Function.update_self, hself]
      by_cases hq : q = r
      · subst hq
        rw [Function.update_self, if_pos rfl]
      · rw [Function.update_of_ne hq, if_neg hq]
        exact h.count q b
    · simp only [Function.update_of_ne hb]
      by_cases hq : q = r
      · subst hq
        rw [Function.update_self, hothers b hb]
        exact h.count q b
      · rw [Function.update_of_ne hq]
        exact h.count q b
  · by_cases hq : q = r
    · subst hq
      simpa only [Function.update_self] using hlength
    · simpa only [Function.update_of_ne hq] using h.within q

theorem Tallied.rest {a : ι} (rest : List (Instr R M)) (shared : S) (h : Tallied cap sys) :
    Tallied cap (⟨sys.holders,
      Function.update sys.agents a ⟨(sys.agents a).held, rest⟩, shared⟩ : Sys ι R M S) := by
  refine ⟨fun r b => ?_, h.within⟩
  by_cases hb : b = a
  · subst hb
    simp only [Function.update_self]
    exact h.count r b
  · simp only [Function.update_of_ne hb]
    exact h.count r b

theorem tallied_step (op : Op ι δ) (h : Tallied cap sys) : Tallied cap (step cap act abandon op sys) := by
  cases op with
  | giveUp a how => exact h.rest _ _
  | go a =>
    have hcount := fun r => h.count r a
    simp only [step, go]
    rcases hagent : sys.agents a with ⟨held, _ | ⟨r | r | m, rest⟩⟩
    · exact h
    · rw [hagent] at hcount
      dsimp only
      split_ifs with hfree
      · refine h.update rest sys.shared hfree (fun q => ?_) fun b hb => ?_
        · rw [hagent]
          by_cases hq : q = r
          · subst hq
            rw [if_pos rfl, List.count_cons_self, List.count_cons_self, hcount]
          · rw [if_neg hq, List.count_cons_of_ne (Ne.symm hq)]
        · exact List.count_cons_of_ne (Ne.symm hb)
      · exact h
    · rw [hagent] at hcount
      refine h.update rest sys.shared ((List.erase_sublist.length_le).trans (h.within r))
        (fun q => ?_) fun b hb => ?_
      · rw [hagent]
        by_cases hq : q = r
        · subst hq
          rw [if_pos rfl, List.count_erase_self, List.count_erase_self, hcount]
        · rw [if_neg hq, List.count_erase_of_ne hq]
      · exact List.count_erase_of_ne hb
    · have hrest := h.rest (a := a) rest (act a m sys.shared)
      rwa [hagent] at hrest

theorem tallied_run (ops : List (Op ι δ)) (h : Tallied cap sys) :
    Tallied cap (run cap act abandon ops sys) :=
  Runs.run_invariant (step cap act abandon) (fun op _ hs => tallied_step op hs) ops h

theorem Tallied.exclusive (h : Tallied cap sys) {r : R} (hone : cap r = 1) {a b : ι}
    (ha : r ∈ (sys.agents a).held) (hb : r ∈ (sys.agents b).held) : a = b := by
  rw [← h.mem_iff] at ha hb
  have hlength := h.within r
  rw [hone] at hlength
  match hholders : sys.holders r with
  | [] =>
    rw [hholders] at ha
    exact (List.not_mem_nil ha).elim
  | [c] =>
    rw [hholders] at ha hb
    rw [List.mem_singleton.mp ha, List.mem_singleton.mp hb]
  | _ :: _ :: _ =>
    rw [hholders] at hlength
    simp at hlength

theorem Tallied.card_le [Fintype ι] (h : Tallied cap sys) (r : R) :
    (Finset.univ.filter fun a => r ∈ (sys.agents a).held).card ≤ cap r := by
  have hsame : (Finset.univ.filter fun a => r ∈ (sys.agents a).held) = (sys.holders r).toFinset := by
    ext a
    rw [Finset.mem_filter, List.mem_toFinset, h.mem_iff]
    simp
  rw [hsame]
  exact (List.toFinset_card_le _).trans (h.within r)

/-- What the next instruction keeps, and giving up, every step keeps. -/
theorem inherited_step {P : List R → List (Instr R M) → Prop} (hP : Inherited P)
    (op : Op ι δ) {a : ι} (habandon : ∀ how held rest, op = .giveUp a how → P held rest →
      P held (abandon how held rest)) (h : P (sys.agents a).held (sys.agents a).rest) :
    P ((step cap act abandon op sys).agents a).held ((step cap act abandon op sys).agents a).rest := by
  have hupdate : ∀ {b : ι} {agent : Agent R M}, (b = a → P agent.held agent.rest) →
      P (Function.update sys.agents b agent a).held (Function.update sys.agents b agent a).rest := by
    intro b agent hagent
    by_cases hab : a = b
    · subst hab
      rw [Function.update_self]
      exact hagent rfl
    · rw [Function.update_of_ne hab]
      exact h
  cases op with
  | giveUp b how =>
    refine hupdate fun hba => ?_
    subst hba
    exact habandon how _ _ rfl h
  | go b =>
    simp only [step, go]
    rcases hagent : sys.agents b with ⟨held, _ | ⟨r | r | m, rest⟩⟩
    · exact h
    · dsimp only
      split_ifs with hfree
      · refine hupdate fun hba => hP.take _ _ _ ?_
        rwa [← hba, hagent] at h
      · exact h
    · refine hupdate fun hba => hP.free _ _ _ ?_
      rwa [← hba, hagent] at h
    · refine hupdate fun hba => hP.work _ m _ ?_
      rwa [← hba, hagent] at h

theorem sound_initial {scripts : ι → List (Instr R M)} (start : S)
    (h : ∀ a, Ordered rank [] (scripts a)) :
    Sound cap rank (initial scripts start : Sys ι R M S) :=
  ⟨tallied_initial scripts start, h⟩

theorem sound_step (habandon : ∀ how held rest, Ordered rank held rest →
      Ordered rank held (abandon how held rest)) (op : Op ι δ) (h : Sound cap rank sys) :
    Sound cap rank (step cap act abandon op sys) :=
  ⟨tallied_step op h.toTallied, fun a => inherited_step (inherited_ordered rank) op
    (fun how held rest _ => habandon how held rest) (h.ordered a)⟩

theorem sound_run (habandon : ∀ how held rest, Ordered rank held rest →
      Ordered rank held (abandon how held rest)) (ops : List (Op ι δ))
    (h : Sound cap rank sys) : Sound cap rank (run cap act abandon ops sys) :=
  Runs.run_invariant (step cap act abandon) (fun op _ hs => sound_step habandon op hs) ops h

theorem Sound.exists_ready_of_take (h : Sound cap rank sys) (hcap : ∀ r, 0 < cap r)
    {bound : Nat} (hbound : ∀ r, rank r < bound) :
    ∀ (n : Nat) (a : ι) (held : List R) (r : R) (rest : List (Instr R M)),
      bound - rank r = n → sys.agents a = ⟨held, .take r :: rest⟩ → ∃ b, Ready cap b sys := by
  intro n
  induction n using Nat.strong_induction_on with
  | h n ih =>
    intro a held r rest hn hagent
    by_cases hfree : (sys.holders r).length < cap r
    · refine ⟨a, ?_⟩
      unfold Ready
      rw [hagent]
      exact hfree
    · have hpos : 0 < (sys.holders r).length := Nat.lt_of_lt_of_le (hcap r) (Nat.le_of_not_lt hfree)
      obtain ⟨b, hb⟩ := List.exists_mem_of_length_pos hpos
      have hheld := h.mem_iff.mp hb
      have hordered := h.ordered b
      rcases hother : sys.agents b with ⟨held', _ | ⟨q | q | m, rest'⟩⟩
      · rw [hother] at hheld hordered
        rw [show held' = [] from hordered] at hheld
        exact (List.not_mem_nil hheld).elim
      · -- the holder waits as well, for something higher
        rw [hother] at hheld hordered
        have hlt : rank r < rank q := hordered.1 r hheld
        have hr := hbound r
        have hq := hbound q
        exact ih (bound - rank q) (by omega) b held' q rest' rfl hother
      · refine ⟨b, ?_⟩
        unfold Ready
        rw [hother]
        trivial
      · refine ⟨b, ?_⟩
        unfold Ready
        rw [hother]
        trivial

theorem Sound.exists_ready (h : Sound cap rank sys) (hcap : ∀ r, 0 < cap r) {bound : Nat}
    (hbound : ∀ r, rank r < bound) {a : ι} (ha : (sys.agents a).rest ≠ []) :
    ∃ b, Ready cap b sys := by
  rcases hagent : sys.agents a with ⟨held, _ | ⟨r | r | m, rest⟩⟩
  · rw [hagent] at ha
    exact absurd rfl ha
  · exact h.exists_ready_of_take hcap hbound _ a held r rest rfl hagent
  · refine ⟨a, ?_⟩
    unfold Ready
    rw [hagent]
    trivial
  · refine ⟨a, ?_⟩
    unfold Ready
    rw [hagent]
    trivial

/-- Each of these agents in turn can go on. -/
def Possible (cap : R → Nat) (act : ι → M → S → S) : List ι → Sys ι R M S → Prop
  | [], _ => True
  | a :: order, sys => Ready cap a sys ∧ Possible cap act order (go cap act a sys)

/-- All that is left to do. -/
def remaining [Fintype ι] (sys : Sys ι R M S) : Nat :=
  ∑ a, (sys.agents a).rest.length

omit [DecidableEq R] in
theorem remaining_update [Fintype ι] (holders : R → List ι) (shared : S) {a : ι} {held held' : List R}
    {instr : Instr R M} {rest : List (Instr R M)} (hagent : sys.agents a = ⟨held, instr :: rest⟩) :
    remaining (⟨holders, Function.update sys.agents a ⟨held', rest⟩, shared⟩ : Sys ι R M S) + 1 =
      remaining sys := by
  unfold remaining
  rw [← Finset.sum_erase_add _ _ (Finset.mem_univ a),
    ← Finset.sum_erase_add (Finset.univ) (fun b => (sys.agents b).rest.length) (Finset.mem_univ a)]
  have hothers : ∑ b ∈ Finset.univ.erase a,
        (Function.update sys.agents a ⟨held', rest⟩ b).rest.length =
      ∑ b ∈ Finset.univ.erase a, (sys.agents b).rest.length :=
    Finset.sum_congr rfl fun b hb => by rw [Function.update_of_ne (Finset.ne_of_mem_erase hb)]
  simp only [hothers, Function.update_self, hagent, List.length_cons]
  omega

theorem remaining_go [Fintype ι] {a : ι} (h : Ready cap a sys) :
    remaining (go cap act a sys) + 1 = remaining sys := by
  unfold Ready at h
  unfold go
  rcases hagent : sys.agents a with ⟨held, _ | ⟨r | r | m, rest⟩⟩
  · rw [hagent] at h
    exact h.elim
  · rw [hagent] at h
    dsimp only at h ⊢
    rw [if_pos h]
    exact remaining_update _ _ hagent
  · exact remaining_update _ _ hagent
  · exact remaining_update _ _ hagent

theorem Possible.length_add [Fintype ι] {order : List ι} (h : Possible cap act order sys) :
    order.length + remaining (run cap act abandon (order.map .go) sys) = remaining sys := by
  induction order generalizing sys with
  | nil => simp
  | cons a order ih =>
    have hfirst := @remaining_go _ _ _ _ _ _ cap act sys _ a h.1
    have hrest := ih h.2
    rw [List.map_cons, run, Runs.run_cons, List.length_cons]
    change order.length + 1 + remaining (run cap act abandon (order.map .go) (go cap act a sys)) = _
    omega

theorem Sound.exists_end [Fintype ι] (habandon : ∀ how held rest, Ordered rank held rest →
      Ordered rank held (abandon how held rest)) (hcap : ∀ r, 0 < cap r)
    {bound : Nat} (hbound : ∀ r, rank r < bound) (h : Sound cap rank sys) :
    ∃ order, Possible cap act order sys ∧
      ∀ a, ((run cap act abandon (order.map .go) sys).agents a).rest = [] := by
  induction hn : remaining sys using Nat.strong_induction_on generalizing sys with
  | h n ih =>
    by_cases hall : ∀ a, (sys.agents a).rest = []
    · exact ⟨[], trivial, hall⟩
    · obtain ⟨a, ha⟩ := not_forall.mp hall
      obtain ⟨b, hready⟩ := h.exists_ready hcap hbound ha
      have hless := @remaining_go _ _ _ _ _ _ cap act sys _ b hready
      have hnext : Sound cap rank (go cap act b sys) :=
        @sound_step _ _ _ _ _ _ _ cap rank act abandon sys habandon (.go b) h
      obtain ⟨order, hpossible, hend⟩ := ih _ (by omega) hnext rfl
      exact ⟨b :: order, ⟨hready, hpossible⟩, hend⟩

def heldAfter : List R → List (Instr R M) → List R
  | held, [] => held
  | held, .take r :: rest => heldAfter (r :: held) rest
  | held, .free r :: rest => heldAfter (held.erase r) rest
  | held, .work _ :: rest => heldAfter held rest

def worksOf : List (Instr R M) → List M
  | [] => []
  | .work m :: rest => m :: worksOf rest
  | _ :: rest => worksOf rest

theorem heldAfter_append (held : List R) (script rest : List (Instr R M)) :
    heldAfter held (script ++ rest) = heldAfter (heldAfter held script) rest := by
  induction script generalizing held with
  | nil => rfl
  | cons instr script ih =>
    cases instr with
    | take r => exact ih _
    | free r => exact ih _
    | work m => exact ih _

omit [DecidableEq R] in
theorem worksOf_append (script rest : List (Instr R M)) :
    worksOf (script ++ rest) = worksOf script ++ worksOf rest := by
  induction script with
  | nil => rfl
  | cons instr script ih =>
    cases instr with
    | take r => exact ih
    | free r => exact ih
    | work m => exact congrArg (m :: ·) ih

def Alone (a : ι) (sys : Sys ι R M S) : Prop :=
  ∀ r, sys.holders r = List.replicate ((sys.agents a).held.count r) a

omit [DecidableEq ι] in
theorem alone_of_idle {a : ι} (hheld : (sys.agents a).held = [])
    (hholders : ∀ r, sys.holders r = []) : Alone a sys := by
  intro r
  rw [hheld, hholders]
  rfl

theorem Ordered.rest_of_append {script rest : List (Instr R M)} {held : List R}
    (h : Ordered rank held (script ++ rest)) : Ordered rank (heldAfter held script) rest := by
  induction script generalizing held with
  | nil => exact h
  | cons instr script ih =>
    cases instr with
    | take r => exact ih h.2
    | free r => exact ih h.2
    | work m => exact @ih held h

/-- An agent that nobody is in the way of gets through a part of its script. -/
theorem Alone.run {a : ι} {script rest : List (Instr R M)} {held : List R} (h : Alone a sys)
    (hcap : ∀ r, 0 < cap r) (hordered : Ordered rank held (script ++ rest))
    (hagent : sys.agents a = ⟨held, script ++ rest⟩) :
    ∃ holders, (∀ r, holders r = List.replicate ((heldAfter held script).count r) a) ∧
      run cap act abandon (List.replicate script.length (.go a)) sys =
        ⟨holders, Function.update sys.agents a ⟨heldAfter held script, rest⟩,
          (worksOf script).foldl (fun s m => act a m s) sys.shared⟩ := by
  induction script generalizing held sys with
  | nil =>
    refine ⟨sys.holders, fun r => ?_, ?_⟩
    · rw [h r, hagent]
      rfl
    · have hsame : Function.update sys.agents a ⟨held, rest⟩ = sys.agents := by
        rw [show (⟨held, rest⟩ : Agent R M) = sys.agents a from hagent.symm]
        exact Function.update_eq_self a _
      simp only [List.length_nil, List.replicate_zero, Runs.run_nil, heldAfter, worksOf,
        List.foldl_nil, hsame]
  | cons instr script ih =>
    rw [List.length_cons, List.replicate_succ, OrderedLocks.run, Runs.run_cons]
    rw [List.cons_append] at hagent
    have hcount : ∀ r, sys.holders r = List.replicate (held.count r) a := by
      intro r
      rw [h r, hagent]
    cases instr with
    | take r =>
      have hfree : (sys.holders r).length < cap r := by
        have hnot : r ∉ held := fun hr => Nat.lt_irrefl _ (hordered.1 r hr)
        rw [hcount r, List.length_replicate, List.count_eq_zero.mpr hnot]
        exact hcap r
      have hgo : go cap act a sys = _ := go_take hagent hfree
      have hnext : Alone a (go cap act a sys) := by
        intro q
        rw [hgo]
        simp only [Function.update_self]
        by_cases hq : q = r
        · subst hq
          rw [Function.update_self, hcount, List.count_cons_self, List.replicate_succ]
        · rw [Function.update_of_ne hq, hcount, List.count_cons_of_ne (Ne.symm hq)]
      obtain ⟨holders, hholders, hrun⟩ := ih hnext hordered.2
        (by rw [hgo]; exact Function.update_self ..)
      refine ⟨holders, hholders, hrun.trans ?_⟩
      rw [hgo, Function.update_idem]
      rfl
    | free r =>
      have hgo : go cap act a sys = ⟨Function.update sys.holders r ((sys.holders r).erase a),
          Function.update sys.agents a ⟨held.erase r, script ++ rest⟩, sys.shared⟩ := by
        unfold go
        rw [hagent]
      have hnext : Alone a (go cap act a sys) := by
        intro q
        rw [hgo]
        simp only [Function.update_self]
        by_cases hq : q = r
        · subst hq
          rw [Function.update_self, hcount, List.count_erase_self, List.erase_replicate_self]
        · rw [Function.update_of_ne hq, hcount, List.count_erase_of_ne hq]
      obtain ⟨holders, hholders, hrun⟩ := ih hnext hordered.2
        (by rw [hgo]; exact Function.update_self ..)
      refine ⟨holders, hholders, hrun.trans ?_⟩
      rw [hgo, Function.update_idem]
      rfl
    | work m =>
      have hgo : go cap act a sys = ⟨sys.holders,
          Function.update sys.agents a ⟨held, script ++ rest⟩, act a m sys.shared⟩ := by
        unfold go
        rw [hagent]
      have hnext : Alone a (go cap act a sys) := by
        intro q
        rw [hgo]
        simp only [Function.update_self]
        exact hcount q
      obtain ⟨holders, hholders, hrun⟩ := @ih _ held hnext hordered
        (by rw [hgo]; exact Function.update_self ..)
      refine ⟨holders, hholders, hrun.trans ?_⟩
      rw [hgo, Function.update_idem]
      rfl

end Runs

end Setfork.Foundation.OrderedLocks
