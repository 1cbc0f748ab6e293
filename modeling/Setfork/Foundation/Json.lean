/- Foundation: JSON values
   digest: JSON values with ordered members, and the reordering of members by a key rank. -/
import Mathlib.Data.List.Sort
import Setfork.Foundation.Text

set_option autoImplicit false
set_option relaxedAutoImplicit false

namespace Setfork.Foundation.Json

open Setfork.Foundation (Text)

def numberChar (c : Char) : Bool := c.isDigit || c ∈ ['-', '+', '.', 'e', 'E']

/-- A printed binary float: a number literal that is not an integer literal. -/
def isFloatLit : Text → Bool
  | [] => false
  | c :: t => (c.isDigit || c == '-') && t.all numberChar && t.any (· ∈ ['.', 'e', 'E'])

/-- Objects keep their members in insertion order. -/
inductive Value where
  | null
  | bool (b : Bool)
  | int (i : Int)
  | float (lit : { t : Text // isFloatLit t })
  | str (s : Text)
  | arr (items : List Value)
  | obj (members : List (Text × Value))

namespace Value

def asStr : Value → Option Text
  | .str s => some s
  | _ => none

def asArr : Value → Option (List Value)
  | .arr items => some items
  | _ => none

def asObj : Value → Option (List (Text × Value))
  | .obj members => some members
  | _ => none

end Value

/-- The value of the first member with this key. -/
def find (key : Text) (members : List (Text × Value)) : Option Value :=
  (members.find? (fun m => m.1 = key)).map Prod.snd

/-- Indexing by a key, which finds nothing outside objects. -/
def Value.get (v : Value) (key : Text) : Option Value := v.asObj.bind (find key)

@[simp] theorem find_nil (key : Text) : find key [] = none := rfl

theorem find_cons (key : Text) (m : Text × Value) (ms : List (Text × Value)) :
    find key (m :: ms) = if m.1 = key then some m.2 else find key ms := by
  by_cases h : m.1 = key <;> simp [find, h]

def present (fields : List (Text × Option Value)) : List (Text × Value) :=
  fields.filterMap (fun f => f.2.map (fun v => (f.1, v)))

theorem present_cons (f : Text × Option Value) (fs : List (Text × Option Value)) :
    present (f :: fs) = (f.2.map (fun v => (f.1, v))).toList ++ present fs := by
  obtain ⟨k, o⟩ := f
  cases o <;> rfl

private theorem key_of_mem_present {fs : List (Text × Option Value)} {m : Text × Value}
    (hm : m ∈ present fs) : m.1 ∈ fs.map Prod.fst := by
  simp only [present, List.mem_filterMap, Option.map_eq_some_iff] at hm
  obtain ⟨f, hf, v, -, rfl⟩ := hm
  exact List.mem_map_of_mem hf

theorem present_inj {fs gs : List (Text × Option Value)} (hkeys : fs.map Prod.fst = gs.map Prod.fst)
    (hnodup : (fs.map Prod.fst).Nodup) : present fs = present gs ↔ fs = gs := by
  refine ⟨fun h => ?_, fun h => h ▸ rfl⟩
  induction fs generalizing gs with
  | nil => exact (List.map_eq_nil_iff.mp hkeys.symm).symm
  | cons f fs ih =>
    cases gs with
    | nil => simp at hkeys
    | cons g gs =>
      obtain ⟨k, o⟩ := f
      obtain ⟨l, p⟩ := g
      simp only [List.map_cons, List.cons.injEq] at hkeys
      obtain ⟨rfl, hkeys⟩ := hkeys
      simp only [List.map_cons, List.nodup_cons] at hnodup
      have hfs : ∀ v, (k, v) ∉ present fs := fun v hv => hnodup.1 (key_of_mem_present hv)
      have hgs : ∀ v, (k, v) ∉ present gs := fun v hv =>
        hnodup.1 (by rw [hkeys]; exact key_of_mem_present hv)
      cases o with
      | none =>
        cases p with
        | none => rw [ih hkeys hnodup.2 h]
        | some w => exact absurd (by rw [show present fs = _ from h]; exact List.mem_cons_self) (hfs w)
      | some v =>
        cases p with
        | none =>
          exact absurd (by rw [← show _ = present gs from h]; exact List.mem_cons_self) (hgs v)
        | some w =>
          have hcons := List.cons.inj (show (k, v) :: present fs = (k, w) :: present gs from h)
          rw [ih hkeys hnodup.2 hcons.2, (Prod.mk.inj hcons.1).2]

theorem find_present (key : Text) (fs : List (Text × Option Value))
    (hnodup : (fs.map Prod.fst).Nodup) :
    find key (present fs) = ((fs.find? (fun f => f.1 = key)).bind Prod.snd) := by
  induction fs with
  | nil => rfl
  | cons f fs ih =>
    obtain ⟨k, o⟩ := f
    simp only [List.map_cons, List.nodup_cons] at hnodup
    by_cases hk : k = key
    · subst hk
      cases o with
      | some v => simp [present_cons, find_cons]
      | none =>
        have habsent : (present fs).find? (fun m => m.1 = k) = none := by
          rw [List.find?_eq_none]
          intro m hm heq
          exact hnodup.1 (by rw [← of_decide_eq_true heq]; exact key_of_mem_present hm)
        simp [present_cons, find, habsent]
    · cases o <;> simp [present_cons, find_cons, hk, ih hnodup.2]

mutual

/-- The number of containers around the innermost value. -/
def depth : Value → Nat
  | .arr items => depthItems items + 1
  | .obj members => depthMembers members + 1
  | _ => 0

def depthItems : List Value → Nat
  | [] => 0
  | v :: vs => max (depth v) (depthItems vs)

def depthMembers : List (Text × Value) → Nat
  | [] => 0
  | (_, v) :: ms => max (depth v) (depthMembers ms)

end

theorem depth_arr_le {items : List Value} {n : Nat} :
    depth (.arr items) ≤ n + 1 ↔ ∀ v ∈ items, depth v ≤ n := by
  rw [depth, Nat.add_le_add_iff_right]
  induction items with
  | nil => simp [depthItems]
  | cons v vs ih => rw [depthItems, Nat.max_le, ih, List.forall_mem_cons]

theorem depth_obj_le {members : List (Text × Value)} {n : Nat} :
    depth (.obj members) ≤ n + 1 ↔ ∀ m ∈ members, depth m.2 ≤ n := by
  rw [depth, Nat.add_le_add_iff_right]
  induction members with
  | nil => simp [depthMembers]
  | cons m ms ih =>
    obtain ⟨k, v⟩ := m
    rw [depthMembers, Nat.max_le, ih, List.forall_mem_cons]

mutual

/-- No object, at any depth, names a member twice. -/
def UniqueKeys : Value → Prop
  | .arr items => UniqueItems items
  | .obj members => (members.map Prod.fst).Nodup ∧ UniqueMembers members
  | _ => True

def UniqueItems : List Value → Prop
  | [] => True
  | v :: vs => UniqueKeys v ∧ UniqueItems vs

def UniqueMembers : List (Text × Value) → Prop
  | [] => True
  | (_, v) :: ms => UniqueKeys v ∧ UniqueMembers ms

end

theorem uniqueItems_iff (items : List Value) :
    UniqueItems items ↔ ∀ v ∈ items, UniqueKeys v := by
  induction items with
  | nil => simp [UniqueItems]
  | cons v vs ih => simp [UniqueItems, ih]

theorem uniqueMembers_iff (members : List (Text × Value)) :
    UniqueMembers members ↔ ∀ m ∈ members, UniqueKeys m.2 := by
  induction members with
  | nil => simp [UniqueMembers]
  | cons m ms ih => obtain ⟨k, v⟩ := m; simp [UniqueMembers, ih]

theorem uniqueKeys_present {fs : List (Text × Option Value)} (hnodup : (fs.map Prod.fst).Nodup)
    (hfs : ∀ f ∈ fs, ∀ v ∈ f.2, UniqueKeys v) : UniqueKeys (.obj (present fs)) := by
  have hkeys : ((present fs).map Prod.fst).Sublist (fs.map Prod.fst) := by
    clear hnodup hfs
    induction fs with
    | nil => exact List.Sublist.slnil
    | cons f fs ih =>
      obtain ⟨k, o⟩ := f
      cases o with
      | none => exact ih.cons k
      | some v => exact ih.cons_cons k
  refine ⟨hnodup.sublist hkeys, (uniqueMembers_iff _).mpr fun m hm => ?_⟩
  obtain ⟨f, hf, hv⟩ := List.mem_filterMap.mp hm
  obtain ⟨v, hval, rfl⟩ := Option.map_eq_some_iff.mp hv
  exact hfs f hf v hval

variable {κ : Type*} [LinearOrder κ] (rank : Text → κ)

def memberLe (a b : Text × Value) : Prop := rank a.1 ≤ rank b.1

instance : DecidableRel (memberLe rank) := fun a b => inferInstanceAs (Decidable (rank a.1 ≤ rank b.1))

instance : Std.Total (memberLe rank) := ⟨fun a b => le_total (rank a.1) (rank b.1)⟩

instance : IsTrans (Text × Value) (memberLe rank) := ⟨fun _ _ _ h g => le_trans (α := κ) h g⟩

mutual

/-- Members of every object, at every depth, sorted by the rank of their keys. -/
def reorder : Value → Value
  | .arr items => .arr (reorderItems items)
  | .obj members => .obj ((reorderMembers members).insertionSort (memberLe rank))
  | v => v

def reorderItems : List Value → List Value
  | [] => []
  | v :: vs => reorder v :: reorderItems vs

def reorderMembers : List (Text × Value) → List (Text × Value)
  | [] => []
  | (k, v) :: ms => (k, reorder v) :: reorderMembers ms

end

mutual

/-- Every object, at every depth, lists its members by the rank of their keys. -/
def Ordered : Value → Prop
  | .arr items => OrderedItems items
  | .obj members => members.Pairwise (memberLe rank) ∧ OrderedMembers members
  | _ => True

def OrderedItems : List Value → Prop
  | [] => True
  | v :: vs => Ordered v ∧ OrderedItems vs

def OrderedMembers : List (Text × Value) → Prop
  | [] => True
  | (_, v) :: ms => Ordered v ∧ OrderedMembers ms

end

theorem reorderItems_eq_map (items : List Value) :
    reorderItems rank items = items.map (reorder rank) := by
  induction items with
  | nil => rfl
  | cons v vs ih => rw [reorderItems, ih, List.map_cons]

theorem reorderMembers_eq_map (members : List (Text × Value)) :
    reorderMembers rank members = members.map (fun m => (m.1, reorder rank m.2)) := by
  induction members with
  | nil => rfl
  | cons m ms ih => obtain ⟨k, v⟩ := m; rw [reorderMembers, ih, List.map_cons]

theorem orderedMembers_iff (members : List (Text × Value)) :
    OrderedMembers rank members ↔ ∀ m ∈ members, Ordered rank m.2 := by
  induction members with
  | nil => simp [OrderedMembers]
  | cons m ms ih => obtain ⟨k, v⟩ := m; simp [OrderedMembers, ih]

private theorem pairwise_map_reorder (members : List (Text × Value)) :
    (members.map (fun m => (m.1, reorder rank m.2))).Pairwise (memberLe rank) ↔
      members.Pairwise (memberLe rank) := by
  rw [List.pairwise_map]
  exact Iff.rfl

mutual

/-- Reordering changes exactly the values whose members are out of order. -/
theorem reorder_eq_self_iff (v : Value) : reorder rank v = v ↔ Ordered rank v := by
  cases v with
  | null | bool | int | float | str => simp [reorder, Ordered]
  | arr items => simp only [reorder, Ordered, Value.arr.injEq, reorderItems_eq_self_iff items]
  | obj members =>
    simp only [reorder, Ordered, Value.obj.injEq]
    constructor
    · intro h
      have hsorted : members.Pairwise (memberLe rank) := by
        rw [← h]
        exact List.pairwise_insertionSort _ _
      refine ⟨hsorted, (reorderMembers_eq_self_iff members).mp ?_⟩
      rw [reorderMembers_eq_map] at h ⊢
      rwa [List.Pairwise.insertionSort_eq ((pairwise_map_reorder rank members).mpr hsorted)] at h
    · rintro ⟨hsorted, hmembers⟩
      rw [(reorderMembers_eq_self_iff members).mpr hmembers]
      exact List.Pairwise.insertionSort_eq hsorted

theorem reorderItems_eq_self_iff (items : List Value) :
    reorderItems rank items = items ↔ OrderedItems rank items := by
  match items with
  | [] => simp [reorderItems, OrderedItems]
  | v :: vs =>
    simp only [reorderItems, OrderedItems, List.cons.injEq, reorder_eq_self_iff v,
      reorderItems_eq_self_iff vs]

theorem reorderMembers_eq_self_iff (members : List (Text × Value)) :
    reorderMembers rank members = members ↔ OrderedMembers rank members := by
  match members with
  | [] => simp [reorderMembers, OrderedMembers]
  | (k, v) :: ms =>
    simp only [reorderMembers, OrderedMembers, List.cons.injEq, Prod.mk.injEq, true_and,
      reorder_eq_self_iff v, reorderMembers_eq_self_iff ms]

end

mutual

theorem ordered_reorder (v : Value) : Ordered rank (reorder rank v) := by
  cases v with
  | null | bool | int | float | str => simp [reorder, Ordered]
  | arr items => simpa only [reorder, Ordered] using orderedItems_reorderItems items
  | obj members =>
    simp only [reorder, Ordered]
    refine ⟨List.pairwise_insertionSort _ _, ?_⟩
    rw [orderedMembers_iff]
    intro m hm
    rw [List.mem_insertionSort] at hm
    exact (orderedMembers_iff rank _).mp (orderedMembers_reorderMembers members) m hm

theorem orderedItems_reorderItems (items : List Value) :
    OrderedItems rank (reorderItems rank items) := by
  match items with
  | [] => simp [reorderItems, OrderedItems]
  | v :: vs => exact ⟨ordered_reorder v, orderedItems_reorderItems vs⟩

theorem orderedMembers_reorderMembers (members : List (Text × Value)) :
    OrderedMembers rank (reorderMembers rank members) := by
  match members with
  | [] => simp [reorderMembers, OrderedMembers]
  | (k, v) :: ms => exact ⟨ordered_reorder v, orderedMembers_reorderMembers ms⟩

end

mutual

theorem uniqueKeys_reorder (v : Value) (hv : UniqueKeys v) : UniqueKeys (reorder rank v) := by
  cases v with
  | null | bool | int | float | str => exact trivial
  | arr items =>
    simp only [reorder, UniqueKeys, uniqueItems_iff] at hv ⊢
    exact uniqueKeys_reorderItems items hv
  | obj members =>
    simp only [reorder, UniqueKeys, uniqueMembers_iff] at hv ⊢
    have hperm := List.perm_insertionSort (memberLe rank) (reorderMembers rank members)
    have hkeys : (reorderMembers rank members).map Prod.fst = members.map Prod.fst := by
      rw [reorderMembers_eq_map, List.map_map]
      rfl
    refine ⟨?_, ?_⟩
    · rw [(hperm.map Prod.fst).nodup_iff, hkeys]
      exact hv.1
    · intro m hm
      exact uniqueKeys_reorderMembers members hv.2 m (hperm.mem_iff.mp hm)

theorem uniqueKeys_reorderItems (items : List Value) (hitems : ∀ v ∈ items, UniqueKeys v) :
    ∀ v ∈ reorderItems rank items, UniqueKeys v := by
  match items with
  | [] => simp [reorderItems]
  | v :: vs =>
    rw [reorderItems, List.forall_mem_cons]
    have hrest := uniqueKeys_reorderItems vs fun w hw => hitems w (List.mem_cons_of_mem v hw)
    exact ⟨uniqueKeys_reorder v (hitems v List.mem_cons_self), hrest⟩

theorem uniqueKeys_reorderMembers (members : List (Text × Value))
    (hmembers : ∀ m ∈ members, UniqueKeys m.2) :
    ∀ m ∈ reorderMembers rank members, UniqueKeys m.2 := by
  match members with
  | [] => simp [reorderMembers]
  | (k, v) :: ms =>
    rw [reorderMembers, List.forall_mem_cons]
    have hrest := uniqueKeys_reorderMembers ms fun m hm => hmembers m (List.mem_cons_of_mem _ hm)
    exact ⟨uniqueKeys_reorder v (hmembers (k, v) List.mem_cons_self), hrest⟩

end

mutual

theorem depth_reorder_le (v : Value) {n : Nat} (hv : depth v ≤ n) : depth (reorder rank v) ≤ n := by
  cases v with
  | null | bool | int | float | str => exact hv
  | arr items =>
    obtain ⟨m, rfl⟩ : ∃ m, n = m + 1 := ⟨n - 1, by rw [depth] at hv; omega⟩
    rw [depth_arr_le] at hv
    rw [reorder, depth_arr_le]
    exact depth_reorderItems_le items hv
  | obj members =>
    obtain ⟨m, rfl⟩ : ∃ m, n = m + 1 := ⟨n - 1, by rw [depth] at hv; omega⟩
    rw [depth_obj_le] at hv
    rw [reorder, depth_obj_le]
    intro x hx
    exact depth_reorderMembers_le members hv x ((List.mem_insertionSort _).mp hx)

theorem depth_reorderItems_le (items : List Value) {n : Nat} (hitems : ∀ v ∈ items, depth v ≤ n) :
    ∀ v ∈ reorderItems rank items, depth v ≤ n := by
  match items with
  | [] => simp [reorderItems]
  | v :: vs =>
    rw [reorderItems, List.forall_mem_cons]
    have hrest := depth_reorderItems_le vs fun w hw => hitems w (List.mem_cons_of_mem v hw)
    exact ⟨depth_reorder_le v (hitems v List.mem_cons_self), hrest⟩

theorem depth_reorderMembers_le (members : List (Text × Value)) {n : Nat}
    (hmembers : ∀ m ∈ members, depth m.2 ≤ n) :
    ∀ m ∈ reorderMembers rank members, depth m.2 ≤ n := by
  match members with
  | [] => simp [reorderMembers]
  | (k, v) :: ms =>
    rw [reorderMembers, List.forall_mem_cons]
    have hrest := depth_reorderMembers_le ms fun m hm => hmembers m (List.mem_cons_of_mem _ hm)
    exact ⟨depth_reorder_le v (hmembers (k, v) List.mem_cons_self), hrest⟩

end

private theorem find_orderedInsert (key : Text) (m : Text × Value) (ms : List (Text × Value)) :
    find key (ms.orderedInsert (memberLe rank) m) = find key (m :: ms) := by
  induction ms with
  | nil => rfl
  | cons n ns ih =>
    rw [List.orderedInsert_cons]
    split_ifs with h
    · rfl
    · have hne : m.1 ≠ n.1 := fun heq => h (le_of_eq (congrArg rank heq))
      rw [find_cons, ih, find_cons, find_cons key m, find_cons]
      by_cases hn : n.1 = key
      · simp [hn, show m.1 ≠ key from hn ▸ hne]
      · simp [hn]

theorem find_insertionSort (key : Text) (ms : List (Text × Value)) :
    find key (ms.insertionSort (memberLe rank)) = find key ms := by
  induction ms with
  | nil => rfl
  | cons m ms ih => rw [List.insertionSort_cons, find_orderedInsert, find_cons, find_cons, ih]

theorem find_reorderMembers (key : Text) (ms : List (Text × Value)) :
    find key (reorderMembers rank ms) = (find key ms).map (reorder rank) := by
  induction ms with
  | nil => rfl
  | cons m ms ih =>
    obtain ⟨k, v⟩ := m
    rw [reorderMembers, find_cons, find_cons, ih]
    split_ifs <;> rfl

theorem get_reorder (v : Value) (key : Text) :
    (reorder rank v).get key = (v.get key).map (reorder rank) := by
  cases v with
  | null | bool | int | float | str | arr => rfl
  | obj members =>
    simp only [Value.get, reorder, Value.asObj, Option.bind_some]
    rw [find_insertionSort, find_reorderMembers]

@[simp] theorem asStr_reorder (v : Value) : (reorder rank v).asStr = v.asStr := by
  cases v <;> rfl

end Setfork.Foundation.Json
