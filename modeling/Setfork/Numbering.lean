/- Numbering
   digest: Calls that open issues and make suggestions, statement by statement; the numbers of a
   list are given in the order of the commits, without a gap. -/
import Mathlib.Data.List.Range
import Setfork.Foundation.Held
import Setfork.Foundation.Interleave
import Setfork.Foundation.Uuid
import Setfork.Suggestions

set_option autoImplicit false
set_option relaxedAutoImplicit false

namespace Setfork.Numbering

open Setfork.Foundation
open Setfork.Foundation.Interleave (System)
open Setfork.Foundation.Json (Value)
open Setfork.Rows (Jsonb)
open Setfork.Wire (NewStep)

def numberingTag : BitVec 64 := 0x53464E554D425200

def bytesOf : List (Fin 16) → List Nat
  | high :: low :: rest => (16 * high.val + low.val) :: bytesOf rest
  | _ => []

def fromLeBytes (bytes : List Nat) : BitVec 64 :=
  BitVec.ofNat 64 (bytes.foldr (fun b acc => b + 256 * acc) 0)

/-- The key of a list among the advisory locks; lists may share one. -/
def numberingKey (id : Uuid) : BitVec 64 :=
  fromLeBytes ((bytesOf id.nibbles).take 8) ^^^ numberingTag

inductive Kind where
  | issue
  | suggestion
deriving DecidableEq

inductive Content where
  | issue (title body : Text) (labels : Jsonb)
  | suggestion (note : Text) (baseVersion : Int) (items : Jsonb)

def Content.kind : Content → Kind
  | .issue .. => .issue
  | .suggestion .. => .suggestion

structure Row where
  templateId : Uuid
  authorId : Uuid
  content : Content
  number : Nat

structure IndexKey where
  kind : Kind
  templateId : Uuid
  number : Nat
deriving DecidableEq

def Row.key (r : Row) : IndexKey := ⟨r.content.kind, r.templateId, r.number⟩

/-- The numbers of one kind in one list, in the order of the commits. -/
def numbersOf (kind : Kind) (tid : Uuid) (rows : List Row) : List Nat :=
  (rows.filter fun r => r.content.kind = kind ∧ r.templateId = tid).map Row.number

def nextNumber (kind : Kind) (tid : Uuid) (rows : List Row) : Nat :=
  ((numbersOf kind tid rows).max?.getD 0) + 1

inductive Request where
  | openIssue (listId authorId title body : Text) (labels : List Text)
  | createSuggestion (listId authorId note : Text) (steps : List NewStep)

structure Draft where
  templateId : Uuid
  authorId : Uuid
  content : Option Int → Content

inductive Place where
  | called (req : Request)
  | begun (draft : Draft)
  | locked (draft : Draft)
  /-- The snapshot of the insert is taken and the number is found; the index is to be asked. -/
  | inserting (row : Row)
  | inserted (row : Row)
  | committed (row : Row)
  | returned (row : Row)
  /-- The number is taken: the unique index has refused the row. -/
  | alreadyExists
  | failed

/-- The committed rows, the advisory locks, and the index keys of rows that are not committed. -/
structure Tables (ι : Type) where
  rows : List Row
  locks : Held ι (BitVec 64)
  index : Held ι IndexKey

/-- A transaction goes on, with the current version of its list where it asks for it, or aborts. -/
inductive Event where
  | proceed (currentVersion : Option Int)
  | abort

section Calls

variable (fromStr : Text → Option Value)

def draftOf : Request → Option Draft
  | .openIssue listId authorId title body labels =>
    match Uuid.parseStr listId, Uuid.parseStr authorId with
    | some tid, some uid =>
      some ⟨tid, uid, fun _ => .issue title body (Jsonb.store (.arr (labels.map .str)))⟩
    | _, _ => none
  | .createSuggestion listId authorId note steps =>
    match Uuid.parseStr listId, Uuid.parseStr authorId with
    | some tid, some uid =>
      some ⟨tid, uid, fun current =>
        .suggestion note (current.getD 1) (Suggestions.createSuggestion fromStr steps).1⟩
    | _, _ => none

variable {ι : Type} [DecidableEq ι]

/-- The end of a transaction lets go of its lock and of the keys of its rows. -/
def Tables.release (a : ι) (t : Tables ι) : Tables ι :=
  { t with locks := Held.release a t.locks, index := Held.release a t.index }

def lockNumbering (a : ι) (t : Tables ι) (draft : Draft) : Tables ι × Place :=
  if Held.Open a (numberingKey draft.templateId) t.locks then
    ({ t with locks := Held.take a (numberingKey draft.templateId) t.locks }, .locked draft)
  else (t, .begun draft)

/-- The row of an insert, over the rows that are committed when the statement begins. -/
def rowOf (rows : List Row) (current : Option Int) (draft : Draft) : Row :=
  ⟨draft.templateId, draft.authorId, draft.content current,
    nextNumber (draft.content current).kind draft.templateId rows⟩

/-- The unique index waits for whoever is writing the same key, and refuses a key that is there. -/
def insertRow (a : ι) (t : Tables ι) (row : Row) : Tables ι × Place :=
  if ¬ Held.Open a row.key t.index then (t, .inserting row)
  else if row.key ∈ t.rows.map Row.key then (Tables.release a t, .alreadyExists)
  else ({ t with index := Held.take a row.key t.index }, .inserted row)

/-- The next statement of a call; a commit makes its row seen before it lets the lock go. -/
def openNumbered (a : ι) (t : Tables ι) (current : Option Int) : Place → Tables ι × Place
  | .called req =>
    match draftOf fromStr req with
    | some draft => (t, .begun draft)
    | none => (t, .failed)
  | .begun draft => lockNumbering a t draft
  | .locked draft => (t, .inserting (rowOf t.rows current draft))
  | .inserting row => insertRow a t row
  | .inserted row => ({ t with rows := t.rows ++ [row] }, .committed row)
  | .committed row => (Tables.release a t, .returned row)
  | other => (t, other)

/-- An abort undoes what is not committed. -/
def advance (a : ι) (e : Event) (t : Tables ι) (p : Place) : Tables ι × Place :=
  match e, p with
  | .proceed current, p => openNumbered fromStr a t current p
  | .abort, .committed row => (Tables.release a t, .returned row)
  | .abort, .returned row => (t, .returned row)
  | .abort, .alreadyExists => (t, .alreadyExists)
  | .abort, _ => (Tables.release a t, .failed)

def start (requests : ι → Request) : System ι (Tables ι) Place :=
  ⟨⟨[], fun _ => none, fun _ => none⟩, fun a => .called (requests a)⟩

end Calls

def InSequence (rows : List Row) : Prop :=
  ∀ kind tid, numbersOf kind tid rows = List.range' 1 (numbersOf kind tid rows).length

theorem numbersOf_append (kind : Kind) (tid : Uuid) (rows : List Row) (row : Row) :
    numbersOf kind tid (rows ++ [row]) = numbersOf kind tid rows ++
      if row.content.kind = kind ∧ row.templateId = tid then [row.number] else [] := by
  rw [numbersOf, List.filter_append, List.map_append]
  congr 1
  by_cases h : row.content.kind = kind ∧ row.templateId = tid <;> simp [h]

theorem nextNumber_of_inSequence {rows : List Row} (h : InSequence rows) (kind : Kind)
    (tid : Uuid) : nextNumber kind tid rows = (numbersOf kind tid rows).length + 1 := by
  rw [nextNumber]
  generalize hlength : (numbersOf kind tid rows).length = k
  have hnumbers : numbersOf kind tid rows = List.range' 1 k := by
    rw [h kind tid, hlength]
  rw [hnumbers]
  cases k with
  | zero => rfl
  | succ k =>
    have hmax : (List.range' 1 (k + 1)).max? = some (k + 1) := by
      rw [List.max?_eq_some_iff]
      constructor
      · rw [List.mem_range'_1]
        omega
      · intro n hn
        rw [List.mem_range'_1] at hn
        omega
    rw [hmax]
    rfl

theorem key_fresh {rows : List Row} {row : Row} (h : InSequence rows)
    (hnumber : row.number = nextNumber row.content.kind row.templateId rows) :
    row.key ∉ rows.map Row.key := by
  intro hmem
  obtain ⟨r, hr, hkey⟩ := List.mem_map.mp hmem
  injection hkey with hkind htid hnum
  have hlisted : row.number ∈ numbersOf row.content.kind row.templateId rows := by
    rw [← hnum]
    exact List.mem_map.mpr ⟨r, List.mem_filter.mpr ⟨hr, by simp [hkind, htid]⟩, rfl⟩
  rw [h, List.mem_range'_1] at hlisted
  rw [nextNumber_of_inSequence h] at hnumber
  omega

theorem inSequence_append {rows : List Row} {row : Row} (h : InSequence rows)
    (hnumber : row.number = nextNumber row.content.kind row.templateId rows) :
    InSequence (rows ++ [row]) := by
  intro kind tid
  rw [numbersOf_append]
  by_cases hsame : row.content.kind = kind ∧ row.templateId = tid
  · obtain ⟨rfl, rfl⟩ := hsame
    rw [nextNumber_of_inSequence h] at hnumber
    rw [if_pos ⟨rfl, rfl⟩, List.length_append, List.length_singleton, List.range'_concat, ← h,
      hnumber]
    simp [Nat.add_comm]
  · rw [if_neg hsame, List.append_nil]
    exact h kind tid

section Steps

variable {ι : Type}

/-- A call holds the lock of its list from the statement that takes it up to the commit, so that the
number it has found stays the next one. -/
def Owns (a : ι) (t : Tables ι) : Place → Prop
  | .locked draft => t.locks (numberingKey draft.templateId) = some a
  | .inserting row | .inserted row =>
    t.locks (numberingKey row.templateId) = some a ∧
      row.number = nextNumber row.content.kind row.templateId t.rows
  | .alreadyExists => False
  | _ => True

def Spares (a : ι) (t t' : Tables ι) : Prop :=
  ∀ b tid, b ≠ a → t.locks (numberingKey tid) = some b →
    t'.locks (numberingKey tid) = some b ∧
      ∀ kind, numbersOf kind tid t'.rows = numbersOf kind tid t.rows

theorem Spares.owns {a b : ι} {t t' : Tables ι} {p : Place} (h : Spares a t t') (hb : b ≠ a)
    (hown : Owns b t p) : Owns b t' p := by
  have hrow : ∀ {row : Row}, t.locks (numberingKey row.templateId) = some b ∧
      row.number = nextNumber row.content.kind row.templateId t.rows →
        t'.locks (numberingKey row.templateId) = some b ∧
          row.number = nextNumber row.content.kind row.templateId t'.rows := by
    rintro row ⟨hlock, hnumber⟩
    obtain ⟨hlock', hsame⟩ := h b row.templateId hb hlock
    refine ⟨hlock', ?_⟩
    rw [hnumber, nextNumber, nextNumber, hsame]
  cases p with
  | locked draft => exact (h b draft.templateId hb hown).1
  | inserting row => exact hrow hown
  | inserted row => exact hrow hown
  | alreadyExists => exact hown.elim
  | _ => trivial

variable [DecidableEq ι] {a : ι} {t : Tables ι}

omit [DecidableEq ι] in
private theorem spares_of_rows {t' : Tables ι} (hrows : t'.rows = t.rows)
    (hlocks : ∀ b tid, b ≠ a → t.locks (numberingKey tid) = some b →
      t'.locks (numberingKey tid) = some b) : Spares a t t' := by
  intro b tid hb h
  rw [hrows]
  exact ⟨hlocks b tid hb h, fun _ => rfl⟩

private theorem spares_release : Spares a t (Tables.release a t) :=
  spares_of_rows rfl fun _ _ hb h => Held.release_keeps hb h

omit [DecidableEq ι] in
private theorem spares_append {row : Row} (hlock : t.locks (numberingKey row.templateId) = some a) :
    Spares a t { t with rows := t.rows ++ [row] } := by
  intro b tid hb h
  refine ⟨h, fun kind => ?_⟩
  have hother : row.templateId ≠ tid := by
    rintro rfl
    rw [hlock] at h
    exact hb (Option.some.inj h).symm
  show numbersOf kind tid (t.rows ++ [row]) = _
  rw [numbersOf_append, if_neg fun hsame => hother hsame.2, List.append_nil]

/-- What a step gives: the numbers are in sequence, the call owns what it has come to, and the
others keep theirs. -/
structure Sound (a : ι) (t : Tables ι) (step : Tables ι × Place) : Prop where
  inSequence : InSequence step.1.rows
  owns : Owns a step.1 step.2
  spares : Spares a t step.1

omit [DecidableEq ι] in
private theorem sound_same {p : Place} (hrows : InSequence t.rows) (howns : Owns a t p) :
    Sound a t (t, p) := ⟨hrows, howns, spares_of_rows rfl fun _ _ _ h => h⟩

private theorem sound_release {p : Place} (hrows : InSequence t.rows)
    (howns : Owns a (Tables.release a t) p) : Sound a t (Tables.release a t, p) :=
  ⟨hrows, howns, spares_release⟩

theorem lockNumbering_sound {draft : Draft} (hrows : InSequence t.rows) :
    Sound a t (lockNumbering a t draft) := by
  by_cases hopen : Held.Open a (numberingKey draft.templateId) t.locks
  · simp only [lockNumbering, if_pos hopen]
    refine ⟨hrows, Held.take_self .., ?_⟩
    exact spares_of_rows rfl fun _ _ hb h => Held.take_keeps hopen hb h
  · simp only [lockNumbering, if_neg hopen]
    exact sound_same hrows trivial

theorem insertRow_sound {row : Row} (hrows : InSequence t.rows)
    (howns : Owns a t (.inserting row)) : Sound a t (insertRow a t row) := by
  by_cases hopen : Held.Open a row.key t.index
  · simp only [insertRow, not_true, if_false, hopen, if_neg (key_fresh hrows howns.2)]
    exact ⟨hrows, howns, spares_of_rows rfl fun _ _ _ h => h⟩
  · simp only [insertRow, not_false_eq_true, if_true, hopen]
    exact sound_same hrows howns

variable (fromStr : Text → Option Value)

theorem openNumbered_sound (current : Option Int) {p : Place} (hrows : InSequence t.rows)
    (howns : Owns a t p) : Sound a t (openNumbered fromStr a t current p) := by
  cases p with
  | called req =>
    simp only [openNumbered]
    split
    · exact sound_same hrows trivial
    · exact sound_same hrows trivial
  | begun draft => exact lockNumbering_sound hrows
  | locked draft => exact sound_same hrows ⟨howns, rfl⟩
  | inserting row => exact insertRow_sound hrows howns
  | inserted row => exact ⟨inSequence_append hrows howns.2, trivial, spares_append howns.1⟩
  | committed row => exact sound_release hrows trivial
  | returned row => exact sound_same hrows trivial
  | alreadyExists => exact howns.elim
  | failed => exact sound_same hrows trivial

theorem advance_sound (e : Event) {p : Place} (hrows : InSequence t.rows) (howns : Owns a t p) :
    Sound a t (advance fromStr a e t p) := by
  cases e with
  | proceed current => cases p <;> exact openNumbered_sound fromStr current hrows howns
  | abort =>
    cases p with
    | returned row => exact sound_same hrows trivial
    | alreadyExists => exact howns.elim
    | _ => exact sound_release hrows trivial

/-- Whoever opens issues and makes suggestions in whatever order, and whichever calls abort: the
numbers of each kind in each list are `1, …, k` in the order of the commits, and the unique index
refuses nobody. -/
theorem numbers_gapless (requests : ι → Request) (ops : List (ι × Event)) :
    (∀ kind tid,
      numbersOf kind tid (Interleave.run (advance fromStr) ops (start requests)).shared.rows =
        List.range' 1 (numbersOf kind tid
          (Interleave.run (advance fromStr) ops (start requests)).shared.rows).length) ∧
    ∀ a, (Interleave.run (advance fromStr) ops (start requests)).places a ≠ .alreadyExists := by
  have hstep : ∀ a e (t : Tables ι) p, InSequence t.rows → Owns a t p →
      InSequence (advance fromStr a e t p).1.rows ∧
        Owns a (advance fromStr a e t p).1 (advance fromStr a e t p).2 ∧
        ∀ b q, b ≠ a → Owns b t q → Owns b (advance fromStr a e t p).1 q := by
    intro a e t p hrows howns
    have hsound := advance_sound fromStr e hrows howns
    exact ⟨hsound.inSequence, hsound.owns, fun b q hb hown => hsound.spares.owns hb hown⟩
  have hrows : InSequence (start requests).shared.rows := fun _ _ => rfl
  have howns : ∀ a, Owns a (start requests).shared ((start requests).places a) := fun _ => trivial
  have hrun := Interleave.run_owned (advance fromStr) hstep ops hrows howns
  refine ⟨hrun.1, fun a hplace => ?_⟩
  have howns := hrun.2 a
  rw [hplace] at howns
  exact howns

end Steps

end Setfork.Numbering
