/- Foundation: moves of references
   digest: What single moves may do to a trunk, the labels on its history, branches and free names,
   and what any run of such moves keeps. -/
import Setfork.Foundation.Refs

set_option autoImplicit false
set_option relaxedAutoImplicit false

namespace Setfork.Foundation.RefMoves

def Onward (refs : Refs) (name : Text) (c : Commit) : Prop :=
  ∀ b, refs.lookup name = some (.commit b) → c.Reaches b

theorem reaches_antisymm {c d : Commit} (h : c.Reaches d) (h' : d.Reaches c) : c = d := by
  rcases Relation.ReflTransGen.cases_head h with heq | ⟨p, hp, hreach⟩
  · exact heq
  · have hle := Commit.sizeOf_le_of_reaches (hreach.trans h')
    have hlt := Commit.sizeOf_lt_of_isParent hp
    omega

section Moves

variable (trunk : Text) (label grown free kind : Text → Prop)

/-- One move: the trunk goes onward, a label is put on a commit of the trunk's history, a grown
name goes onward, and a free name changes in any way. -/
inductive Move : Refs → Refs → Prop
  | trunk {refs : Refs} {c : Commit} (honward : Onward refs trunk c) :
      Move refs (refs.insert trunk (.commit c))
  | label {refs : Refs} {name : Text} {tip c : Commit} (hlabel : label name) (htrunk : name ≠ trunk)
      (htip : refs.lookup trunk = some (.commit tip)) (hreach : tip.Reaches c) :
      Move refs (refs.insert name (.commit c))
  | grow {refs : Refs} {name : Text} {c : Commit} (hgrown : grown name) (htrunk : name ≠ trunk)
      (honward : Onward refs name c) : Move refs (refs.insert name (.commit c))
  | set {refs : Refs} {name : Text} {t : Target} (hfree : free name) (htrunk : name ≠ trunk) :
      Move refs (refs.insert name t)
  | erase {refs : Refs} {name : Text} (hfree : free name) (htrunk : name ≠ trunk) :
      Move refs (refs.erase name)

abbrev Moves : Refs → Refs → Prop := Relation.ReflTransGen (Move trunk label grown free)

def Marked (refs : Refs) : Prop :=
  ∀ name, kind name → ∀ t, refs.lookup name = some t →
    ∃ c tip, t = .commit c ∧ refs.lookup trunk = some (.commit tip) ∧ tip.Reaches c

end Moves

variable {trunk : Text} {label grown free kind : Text → Prop} {before after refs : Refs}

private theorem ne_of_kind {kind : Text → Prop} {name other : Text} (hname : ¬ kind name)
    (hother : kind other) : name ≠ other := by
  rintro rfl
  exact hname hother

/-- A name that is neither the trunk nor of any of the kinds stays as it is. -/
theorem Move.lookup_eq (h : Move trunk label grown free before after) {name : Text}
    (htrunk : name ≠ trunk) (hlabel : ¬ label name) (hgrown : ¬ grown name) (hfree : ¬ free name) :
    after.lookup name = before.lookup name := by
  cases h with
  | trunk _ => exact AList.lookup_insert_ne htrunk
  | label hother _ _ _ => exact AList.lookup_insert_ne (ne_of_kind hlabel hother)
  | grow hother _ _ => exact AList.lookup_insert_ne (ne_of_kind hgrown hother)
  | set hother _ => exact AList.lookup_insert_ne (ne_of_kind hfree hother)
  | erase hother _ => exact AList.lookup_erase_ne (ne_of_kind hfree hother)

private theorem lookup_insert_onward {name other : Text} {c : Commit}
    (honward : Onward refs other c) {b : Commit} (hb : refs.lookup name = some (.commit b)) :
    ∃ d, (refs.insert other (.commit c)).lookup name = some (.commit d) ∧ d.Reaches b := by
  by_cases heq : name = other
  · subst heq
    exact ⟨c, AList.lookup_insert refs, honward b hb⟩
  · exact ⟨b, (AList.lookup_insert_ne heq).trans hb, .refl⟩

/-- The trunk, and a name that is neither a label nor free, never leaves the history it has. -/
theorem Move.onward (h : Move trunk label grown free before after) {name : Text}
    (hlabel : name ≠ trunk → ¬ label name) (hfree : name ≠ trunk → ¬ free name) {b : Commit}
    (hb : before.lookup name = some (.commit b)) :
    ∃ d, after.lookup name = some (.commit d) ∧ d.Reaches b := by
  have hne : ∀ {other : Text} {sort : Text → Prop}, other ≠ trunk → sort other →
      (name ≠ trunk → ¬ sort name) → name ≠ other := by
    intro other sort htrunk hother hname heq
    subst heq
    exact hname htrunk hother
  cases h with
  | trunk honward => exact lookup_insert_onward honward hb
  | grow _ _ honward => exact lookup_insert_onward honward hb
  | label hother htrunk _ _ =>
    exact ⟨b, (AList.lookup_insert_ne (hne htrunk hother hlabel)).trans hb, .refl⟩
  | set hother htrunk =>
    exact ⟨b, (AList.lookup_insert_ne (hne htrunk hother hfree)).trans hb, .refl⟩
  | erase hother htrunk =>
    exact ⟨b, (AList.lookup_erase_ne (hne htrunk hother hfree)).trans hb, .refl⟩

theorem Move.trunk_commit (h : Move trunk label grown free before after)
    (hbefore : ∀ t, before.lookup trunk = some t → ∃ c, t = .commit c) :
    ∀ t, after.lookup trunk = some t → ∃ c, t = .commit c := by
  cases h with
  | @trunk c _ =>
    intro t ht
    rw [AList.lookup_insert] at ht
    exact ⟨c, (Option.some.inj ht).symm⟩
  | label _ htrunk _ _ => rwa [AList.lookup_insert_ne htrunk.symm]
  | grow _ htrunk _ => rwa [AList.lookup_insert_ne htrunk.symm]
  | set _ htrunk => rwa [AList.lookup_insert_ne htrunk.symm]
  | erase _ htrunk => rwa [AList.lookup_erase_ne htrunk.symm]

private theorem Marked.beside (h : Marked trunk kind before)
    (htrunk : after.lookup trunk = before.lookup trunk)
    (hmarks : ∀ name, kind name → after.lookup name = before.lookup name) :
    Marked trunk kind after := by
  intro name hname t ht
  rw [htrunk]
  exact h name hname t ((hmarks name hname).symm.trans ht)

theorem Move.marked (hkind : ∀ name, kind name → name ≠ trunk ∧ ¬ grown name ∧ ¬ free name)
    (h : Move trunk label grown free before after) (hmarked : Marked trunk kind before) :
    Marked trunk kind after := by
  cases h with
  | @trunk c honward =>
    intro name hname t ht
    rw [AList.lookup_insert_ne (hkind name hname).1] at ht
    obtain ⟨d, tip, rfl, htip, hreach⟩ := hmarked name hname t ht
    exact ⟨d, c, rfl, AList.lookup_insert before, (honward tip htip).trans hreach⟩
  | @label labelled tip c _ htrunk htip hreach =>
    intro name hname t ht
    rw [AList.lookup_insert_ne htrunk.symm]
    by_cases heq : name = labelled
    · subst heq
      rw [AList.lookup_insert] at ht
      exact ⟨c, tip, (Option.some.inj ht).symm, htip, hreach⟩
    · rw [AList.lookup_insert_ne heq] at ht
      exact hmarked name hname t ht
  | grow hgrown htrunk _ =>
    refine hmarked.beside (AList.lookup_insert_ne htrunk.symm) fun name hname => ?_
    exact AList.lookup_insert_ne (ne_of_kind (hkind name hname).2.1 hgrown)
  | set hfree htrunk =>
    refine hmarked.beside (AList.lookup_insert_ne htrunk.symm) fun name hname => ?_
    exact AList.lookup_insert_ne (ne_of_kind (hkind name hname).2.2 hfree)
  | erase hfree htrunk =>
    refine hmarked.beside (AList.lookup_erase_ne htrunk.symm) fun name hname => ?_
    exact AList.lookup_erase_ne (ne_of_kind (hkind name hname).2.2 hfree)

namespace Moves

theorem lookup_eq (h : Moves trunk label grown free before after) {name : Text}
    (htrunk : name ≠ trunk) (hlabel : ¬ label name) (hgrown : ¬ grown name) (hfree : ¬ free name) :
    after.lookup name = before.lookup name := by
  induction h with
  | refl => rfl
  | tail _ hmove ih => exact (hmove.lookup_eq htrunk hlabel hgrown hfree).trans ih

theorem onward (h : Moves trunk label grown free before after) {name : Text}
    (hlabel : name ≠ trunk → ¬ label name) (hfree : name ≠ trunk → ¬ free name) {b : Commit}
    (hb : before.lookup name = some (.commit b)) :
    ∃ d, after.lookup name = some (.commit d) ∧ d.Reaches b := by
  induction h with
  | refl => exact ⟨b, hb, .refl⟩
  | tail _ hmove ih =>
    obtain ⟨d, hd, hdb⟩ := ih
    obtain ⟨e, he, hed⟩ := hmove.onward hlabel hfree hd
    exact ⟨e, he, hed.trans hdb⟩

theorem trunk_commit (h : Moves trunk label grown free before after)
    (hbefore : ∀ t, before.lookup trunk = some t → ∃ c, t = .commit c) :
    ∀ t, after.lookup trunk = some t → ∃ c, t = .commit c := by
  induction h with
  | refl => exact hbefore
  | tail _ hmove ih => exact hmove.trunk_commit ih

theorem marked (hkind : ∀ name, kind name → name ≠ trunk ∧ ¬ grown name ∧ ¬ free name)
    (h : Moves trunk label grown free before after) (hmarked : Marked trunk kind before) :
    Marked trunk kind after := by
  induction h with
  | refl => exact hmarked
  | tail _ hmove ih => exact hmove.marked hkind ih

theorem mono {grown' free' : Text → Prop} (h : Moves trunk label grown free before after)
    (hgrown : ∀ name, grown name → grown' name) (hfree : ∀ name, free name → free' name) :
    Moves trunk label grown' free' before after := by
  refine Relation.ReflTransGen.mono ?_ _ _ h
  intro a b hmove
  cases hmove with
  | trunk honward => exact .trunk honward
  | label hlabel htrunk htip hreach => exact .label hlabel htrunk htip hreach
  | grow hname htrunk honward => exact .grow (hgrown _ hname) htrunk honward
  | set hname htrunk => exact .set (hfree _ hname) htrunk
  | erase hname htrunk => exact .erase (hfree _ hname) htrunk

/-- Labels that are put one after another on commits of the trunk's history. -/
theorem setAll {tip : Commit} (htip : refs.lookup trunk = some (.commit tip))
    {moves : List (Text × Commit)}
    (hmoves : ∀ m ∈ moves, label m.1 ∧ m.1 ≠ trunk ∧ tip.Reaches m.2) :
    Moves trunk label grown free refs (refs.setAll moves) := by
  induction moves generalizing refs with
  | nil => exact .refl
  | cons m moves ih =>
    obtain ⟨hlabel, hne, hreach⟩ := hmoves m List.mem_cons_self
    have htip' : (refs.insert m.1 (.commit m.2)).lookup trunk = some (.commit tip) :=
      (AList.lookup_insert_ne hne.symm).trans htip
    exact .head (.label hlabel hne htip hreach)
      (ih htip' fun n hn => hmoves n (List.mem_cons_of_mem m hn))

end Moves

end Setfork.Foundation.RefMoves
