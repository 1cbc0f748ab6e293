/- StarCounts
   digest: Transactions that toggle stars, statement by statement; the counter of a list is the
   number of its star rows. -/
import Mathlib.Data.Finset.Card
import Setfork.Foundation.Held
import Setfork.Foundation.Interleave
import Setfork.Foundation.Uuid

set_option autoImplicit false
set_option relaxedAutoImplicit false

namespace Setfork.StarCounts

open Setfork.Foundation
open Setfork.Foundation.Interleave (System)

/-- The key of a row of `stars`. -/
structure Star where
  userId : Uuid
  templateId : Uuid
deriving DecidableEq

/-- What is committed of `stars` and of `templates.stars_count`, and who has written what since.
A row that comes again is another version of it. -/
structure Tables (ι : Type) where
  stars : Finset Star
  version : Star → Nat
  starsCount : Uuid → Int
  rows : Held ι Star
  counters : Held ι Uuid

variable {ι : Type}

/-- The star rows of a list. -/
def Tables.rowsOf (t : Tables ι) (tid : Uuid) : Finset Star :=
  t.stars.filter fun star => star.templateId = tid

variable [DecidableEq ι]

def Tables.release (a : ι) (t : Tables ι) : Tables ι :=
  { t with rows := Held.release a t.rows, counters := Held.release a t.counters }

/-- The commit of a changed row with its counter: the row is there when it was not. -/
def Tables.commit (a : ι) (star : Star) (existed : Bool) (count : Int) (t : Tables ι) : Tables ι :=
  { Tables.release a t with
    stars := if existed then t.stars.erase star else insert star t.stars
    version := Function.update t.version star (t.version star + 1)
    starsCount := Function.update t.starsCount star.templateId count }

structure UserList where
  listId : Text
  userId : Text

inductive Place where
  | called (req : UserList)
  | begun (star : Star)
  | selected (star : Star) (existed : Bool)
  /-- The delete or the insert has begun: the version of the row that its snapshot shows. -/
  | writing (star : Star) (existed : Bool) (seen : Option Nat)
  | written (star : Star) (existed : Bool) (rowsAffected : Nat)
  | counted (star : Star) (existed : Bool) (count : Int)
  | returned (value : Bool)
  | failed

/-- A transaction goes on, or aborts. -/
inductive Event where
  | proceed
  | abort

/-- `delete from stars`: it takes the row its snapshot shows, unless that version is gone. -/
def deleteStar (a : ι) (t : Tables ι) (star : Star) (seen : Option Nat) : Tables ι × Place :=
  match seen with
  | none => (t, .written star true 0)
  | some version =>
    if ¬ Held.Open a star t.rows then (t, .writing star true seen)
    else if star ∈ t.stars ∧ t.version star = version then
      ({ t with rows := Held.take a star t.rows }, .written star true 1)
    else (t, .written star true 0)

/-- `insert into stars … on conflict do nothing`: the unique index decides, once whoever writes the
same key is through. -/
def insertStar (a : ι) (t : Tables ι) (star : Star) (seen : Option Nat) : Tables ι × Place :=
  if ¬ Held.Open a star t.rows then (t, .writing star false seen)
  else if star ∈ t.stars then (t, .written star false 0)
  else ({ t with rows := Held.take a star t.rows }, .written star false 1)

/-- `update templates set stars_count`: the new value is taken from the last committed one. -/
def updateCount (a : ι) (t : Tables ι) (star : Star) (existed : Bool) (rowsAffected : Nat) :
    Tables ι × Place :=
  if ¬ Held.Open a star.templateId t.counters then (t, .written star existed rowsAffected)
  else
    let count := t.starsCount star.templateId
    ({ t with counters := Held.take a star.templateId t.counters },
      .counted star existed (if existed then max (count - 1) 0 else count + 1))

/-- The next statement of a transaction. -/
def toggleStar (a : ι) (t : Tables ι) : Place → Tables ι × Place
  | .called req =>
    match Uuid.parseStr req.listId, Uuid.parseStr req.userId with
    | some tid, some uid => (t, .begun ⟨uid, tid⟩)
    | _, _ => (t, .failed)
  | .begun star => (t, .selected star (decide (star ∈ t.stars)))
  | .selected star existed =>
    (t, .writing star existed (if star ∈ t.stars then some (t.version star) else none))
  | .writing star true seen => deleteStar a t star seen
  | .writing star false seen => insertStar a t star seen
  | .written star existed rowsAffected =>
    if 0 < rowsAffected then updateCount a t star existed rowsAffected
    else (Tables.release a t, .returned (!existed))
  | .counted star existed count => (Tables.commit a star existed count t, .returned (!existed))
  | .returned value => (t, .returned value)
  | .failed => (t, .failed)

/-- A transaction that aborts leaves what is committed as it is. -/
def advance (a : ι) (e : Event) (t : Tables ι) (p : Place) : Tables ι × Place :=
  match e, p with
  | .abort, .returned value => (t, .returned value)
  | .abort, _ => (Tables.release a t, .failed)
  | .proceed, p => toggleStar a t p

def settled (stars : Finset Star) : Tables ι where
  stars := stars
  version := fun _ => 0
  starsCount := fun tid => (stars.filter fun star => star.templateId = tid).card
  rows := fun _ => none
  counters := fun _ => none

def start (requests : ι → UserList) (stars : Finset Star) : System ι (Tables ι) Place :=
  ⟨settled stars, fun a => .called (requests a)⟩

/-- The counter of every list is the number of its rows. -/
def Counted (t : Tables ι) : Prop := ∀ tid, t.starsCount tid = (t.rowsOf tid).card

/-- A transaction that has written a row holds it, and holds the counter once it has counted. -/
def Owns (a : ι) (t : Tables ι) : Place → Prop
  | .written star existed rowsAffected =>
    0 < rowsAffected → t.rows star = some a ∧ (star ∈ t.stars ↔ existed = true)
  | .counted star existed count =>
    (t.rows star = some a ∧ (star ∈ t.stars ↔ existed = true)) ∧
      t.counters star.templateId = some a ∧
      count = t.starsCount star.templateId + if existed then -1 else 1
  | _ => True

/-- What the step of a transaction leaves of the rows and counters that others hold. -/
structure Spares (a : ι) (t t' : Tables ι) : Prop where
  rows : ∀ b star, b ≠ a → t.rows star = some b →
    t'.rows star = some b ∧ (star ∈ t'.stars ↔ star ∈ t.stars)
  counters : ∀ b tid, b ≠ a → t.counters tid = some b →
    t'.counters tid = some b ∧ t'.starsCount tid = t.starsCount tid

omit [DecidableEq ι] in
theorem Spares.owns {a b : ι} {t t' : Tables ι} {p : Place} (h : Spares a t t') (hb : b ≠ a)
    (hown : Owns b t p) : Owns b t' p := by
  have hrow : ∀ {star : Star} {existed : Bool},
      t.rows star = some b ∧ (star ∈ t.stars ↔ existed = true) →
        t'.rows star = some b ∧ (star ∈ t'.stars ↔ existed = true) := by
    rintro star existed ⟨hheld, hthere⟩
    obtain ⟨hheld', hsame⟩ := h.rows b star hb hheld
    exact ⟨hheld', hsame.trans hthere⟩
  cases p with
  | written star existed rowsAffected => exact fun hpos => hrow (hown hpos)
  | counted star existed count =>
    obtain ⟨hheld, hcounter, hcount⟩ := hown
    obtain ⟨hcounter', hsame⟩ := h.counters b star.templateId hb hcounter
    refine ⟨hrow hheld, hcounter', ?_⟩
    rw [hsame]
    exact hcount
  | _ => trivial

section Steps

variable {a : ι} {t : Tables ι}

omit [DecidableEq ι] in
private theorem spares_refl : Spares a t t where
  rows _ _ _ h := ⟨h, Iff.rfl⟩
  counters _ _ _ h := ⟨h, rfl⟩

private theorem spares_release : Spares a t (Tables.release a t) where
  rows _ _ hb h := ⟨Held.release_keeps hb h, Iff.rfl⟩
  counters _ _ hb h := ⟨Held.release_keeps hb h, rfl⟩

omit [DecidableEq ι] in
private theorem spares_take_row {star : Star} (hopen : Held.Open a star t.rows) :
    Spares a t { t with rows := Held.take a star t.rows } where
  rows _ _ hb h := ⟨Held.take_keeps hopen hb h, Iff.rfl⟩
  counters _ _ _ h := ⟨h, rfl⟩

omit [DecidableEq ι] in
private theorem spares_take_counter {tid : Uuid} (hopen : Held.Open a tid t.counters) :
    Spares a t { t with counters := Held.take a tid t.counters } where
  rows _ _ _ h := ⟨h, Iff.rfl⟩
  counters _ _ hb h := ⟨Held.take_keeps hopen hb h, rfl⟩

private theorem spares_commit {star : Star} {existed : Bool} {count : Int}
    (hrow : t.rows star = some a) (hcounter : t.counters star.templateId = some a) :
    Spares a t (Tables.commit a star existed count t) where
  rows b other hb h := by
    have hne : other ≠ star := by
      rintro rfl
      rw [hrow] at h
      exact hb (Option.some.inj h).symm
    refine ⟨Held.release_keeps hb h, ?_⟩
    cases existed <;> simp [Tables.commit, hne]
  counters b tid hb h := by
    have hne : tid ≠ star.templateId := by
      rintro rfl
      rw [hcounter] at h
      exact hb (Option.some.inj h).symm
    exact ⟨Held.release_keeps hb h, Function.update_of_ne hne ..⟩

theorem rowsOf_commit (a : ι) (star : Star) (existed : Bool) (count : Int) (t : Tables ι)
    (tid : Uuid) :
    (Tables.commit a star existed count t).rowsOf tid =
      if star.templateId = tid then
        if existed then (t.rowsOf tid).erase star else insert star (t.rowsOf tid)
      else t.rowsOf tid := by
  ext other
  by_cases hne : other = star
  · subst hne
    cases existed <;> by_cases htid : other.templateId = tid <;>
      simp [Tables.commit, Tables.rowsOf, htid]
  · cases existed <;> by_cases htid : star.templateId = tid <;>
      simp [Tables.commit, Tables.rowsOf, htid, hne]

theorem counted_commit {star : Star} {existed : Bool} (hcounted : Counted t)
    (hthere : star ∈ t.stars ↔ existed = true) :
    Counted (Tables.commit a star existed
      (t.starsCount star.templateId + if existed then -1 else 1) t) := by
  intro tid
  rw [rowsOf_commit]
  by_cases htid : star.templateId = tid
  · subst htid
    have hmem : star ∈ t.rowsOf star.templateId ↔ existed = true := by
      simp [Tables.rowsOf, hthere]
    have hcount := hcounted star.templateId
    show Function.update t.starsCount star.templateId _ star.templateId = _
    rw [Function.update_self, if_pos rfl, hcount]
    cases existed with
    | false =>
      have hnew : star ∉ t.rowsOf star.templateId := fun h => Bool.false_ne_true (hmem.mp h)
      simp [Finset.card_insert_of_notMem hnew]
    | true =>
      have hold : star ∈ t.rowsOf star.templateId := hmem.mpr rfl
      have hpos : 0 < (t.rowsOf star.templateId).card := Finset.card_pos.mpr ⟨star, hold⟩
      simp only [if_true, Finset.card_erase_of_mem hold]
      omega
  · rw [if_neg htid, ← hcounted tid]
    exact Function.update_of_ne (Ne.symm htid) ..

omit [DecidableEq ι] in
theorem pos_of_held_row {star : Star} (hcounted : Counted t) (h : star ∈ t.stars) :
    0 < t.starsCount star.templateId := by
  rw [hcounted, Int.natCast_pos, Finset.card_pos]
  exact ⟨star, by simp [Tables.rowsOf, h]⟩

/-- What a step gives: the counters are right, the transaction owns what it has written, and the
others keep theirs. -/
structure Sound (a : ι) (t : Tables ι) (step : Tables ι × Place) : Prop where
  counted : Counted step.1
  owns : Owns a step.1 step.2
  spares : Spares a t step.1

omit [DecidableEq ι] in
private theorem sound_same {p : Place} (hcounted : Counted t) (howns : Owns a t p) :
    Sound a t (t, p) := ⟨hcounted, howns, spares_refl⟩

private theorem sound_release {p : Place} (hcounted : Counted t)
    (howns : Owns a (Tables.release a t) p) : Sound a t (Tables.release a t, p) :=
  ⟨hcounted, howns, spares_release⟩

private theorem not_pos_zero {P : Prop} : 0 < 0 → P := fun h => absurd h (Nat.lt_irrefl 0)

theorem deleteStar_sound {star : Star} {seen : Option Nat} (hcounted : Counted t) :
    Sound a t (deleteStar a t star seen) := by
  cases seen with
  | none => exact sound_same hcounted not_pos_zero
  | some version =>
    by_cases hopen : Held.Open a star t.rows
    · by_cases hthere : star ∈ t.stars ∧ t.version star = version
      · simp only [deleteStar, not_true, if_false, hopen, if_pos hthere]
        refine ⟨hcounted, fun _ => ⟨Held.take_self .., ?_⟩, spares_take_row hopen⟩
        exact iff_of_true hthere.1 rfl
      · simp only [deleteStar, not_true, if_false, hopen, if_neg hthere]
        exact sound_same hcounted not_pos_zero
    · simp only [deleteStar, not_false_eq_true, if_true, hopen]
      exact sound_same hcounted trivial

theorem insertStar_sound {star : Star} {seen : Option Nat} (hcounted : Counted t) :
    Sound a t (insertStar a t star seen) := by
  by_cases hopen : Held.Open a star t.rows
  · by_cases hthere : star ∈ t.stars
    · simp only [insertStar, not_true, if_false, hopen, if_pos hthere]
      exact sound_same hcounted not_pos_zero
    · simp only [insertStar, not_true, if_false, hopen, if_neg hthere]
      refine ⟨hcounted, fun _ => ⟨Held.take_self .., ?_⟩, spares_take_row hopen⟩
      exact iff_of_false hthere Bool.false_ne_true
  · simp only [insertStar, not_false_eq_true, if_true, hopen]
    exact sound_same hcounted trivial

theorem updateCount_sound {star : Star} {existed : Bool} {rowsAffected : Nat}
    (hcounted : Counted t) (howns : Owns a t (.written star existed rowsAffected))
    (hpos : 0 < rowsAffected) : Sound a t (updateCount a t star existed rowsAffected) := by
  by_cases hopen : Held.Open a star.templateId t.counters
  · simp only [updateCount, not_true, if_false, hopen]
    refine ⟨hcounted, ⟨howns hpos, Held.take_self .., ?_⟩, spares_take_counter hopen⟩
    cases existed with
    | false => rfl
    | true =>
      have hcount := pos_of_held_row hcounted ((howns hpos).2.mpr rfl)
      show max (t.starsCount star.templateId - 1) 0 = t.starsCount star.templateId + -1
      omega
  · simp only [updateCount, not_false_eq_true, if_true, hopen]
    exact sound_same hcounted howns

theorem toggleStar_sound {p : Place} (hcounted : Counted t) (howns : Owns a t p) :
    Sound a t (toggleStar a t p) := by
  cases p with
  | called req =>
    simp only [toggleStar]
    split
    · exact sound_same hcounted trivial
    · exact sound_same hcounted trivial
  | begun star => exact sound_same hcounted trivial
  | selected star existed => exact sound_same hcounted trivial
  | writing star existed seen =>
    cases existed with
    | true => exact deleteStar_sound hcounted
    | false => exact insertStar_sound hcounted
  | written star existed rowsAffected =>
    by_cases hpos : 0 < rowsAffected
    · simp only [toggleStar, if_pos hpos]
      exact updateCount_sound hcounted howns hpos
    · simp only [toggleStar, if_neg hpos]
      exact sound_release hcounted trivial
  | counted star existed count =>
    obtain ⟨⟨hrow, hthere⟩, hcounter, hcount⟩ := howns
    subst hcount
    exact ⟨counted_commit hcounted hthere, trivial, spares_commit hrow hcounter⟩
  | returned value => exact sound_same hcounted trivial
  | failed => exact sound_same hcounted trivial

theorem advance_sound (e : Event) {p : Place} (hcounted : Counted t) (howns : Owns a t p) :
    Sound a t (advance a e t p) := by
  cases e with
  | proceed => cases p <;> exact toggleStar_sound hcounted howns
  | abort =>
    cases p with
    | returned value => exact sound_same hcounted trivial
    | _ => exact sound_release hcounted trivial

end Steps

/-- Whoever toggles what in whatever order, and whichever transactions abort: the counter of every
list is the number of its star rows all along. -/
theorem starsCount_eq_rows (requests : ι → UserList) (stars : Finset Star)
    (ops : List (ι × Event)) (tid : Uuid) :
    (Interleave.run advance ops (start requests stars)).shared.starsCount tid =
      ((Interleave.run advance ops (start requests stars)).shared.rowsOf tid).card := by
  have hstep : ∀ a e (t : Tables ι) p, Counted t → Owns a t p →
      Counted (advance a e t p).1 ∧ Owns a (advance a e t p).1 (advance a e t p).2 ∧
        ∀ b q, b ≠ a → Owns b t q → Owns b (advance a e t p).1 q := by
    intro a e t p hcounted howns
    have hsound := advance_sound e hcounted howns
    exact ⟨hsound.counted, hsound.owns, fun b q hb hown => hsound.spares.owns hb hown⟩
  have hcounted : Counted (start requests stars).shared := fun _ => rfl
  have howns : ∀ a, Owns a (start requests stars).shared ((start requests stars).places a) :=
    fun _ => trivial
  exact (Interleave.run_owned advance hstep ops hcounted howns).1 tid

private def click : UserList := ⟨(Uuid.repeated 1).toString, (Uuid.repeated 2).toString⟩

private def proceeds (a : Bool) (n : Nat) : List (Bool × Event) := List.replicate n (a, .proceed)

-- Two clicks of one user that both see no star: one row, and the counter is one.
example : (Interleave.run advance (proceeds false 4 ++ proceeds true 4 ++ proceeds false 2 ++
    proceeds true 2) (start (fun _ => click) ∅)).shared.starsCount (Uuid.repeated 1) = 1 := by
  decide +kernel

end Setfork.StarCounts
