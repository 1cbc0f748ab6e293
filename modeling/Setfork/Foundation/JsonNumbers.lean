/- Foundation: JSON numbers
   digest: The numbers of a JSON value, and what a change of its numbers leaves alone. -/
import Setfork.Foundation.Json

set_option autoImplicit false
set_option relaxedAutoImplicit false

namespace Setfork.Foundation.Json

open Setfork.Foundation (Text)

/-- A number as JSON text shows it: an integer, or the print of a binary float. -/
inductive Number where
  | int (i : Int)
  | float (lit : { t : Text // isFloatLit t })

def Number.value : Number → Value
  | .int i => .int i
  | .float lit => .float lit

theorem Number.value_injective : Function.Injective Number.value := by
  intro x y h
  cases x <;> cases y <;> simp_all [Number.value]

mutual

/-- A value with every number of it changed. -/
def mapNumbers (f : Number → Number) : Value → Value
  | .int i => (f (.int i)).value
  | .float lit => (f (.float lit)).value
  | .arr items => .arr (mapItems f items)
  | .obj members => .obj (mapMembers f members)
  | v => v

def mapItems (f : Number → Number) : List Value → List Value
  | [] => []
  | v :: vs => mapNumbers f v :: mapItems f vs

def mapMembers (f : Number → Number) : List (Text × Value) → List (Text × Value)
  | [] => []
  | (k, v) :: ms => (k, mapNumbers f v) :: mapMembers f ms

end

mutual

def numbersIn : Value → List Number
  | .int i => [.int i]
  | .float lit => [.float lit]
  | .arr items => numbersOfItems items
  | .obj members => numbersOfMembers members
  | _ => []

def numbersOfItems : List Value → List Number
  | [] => []
  | v :: vs => numbersIn v ++ numbersOfItems vs

def numbersOfMembers : List (Text × Value) → List Number
  | [] => []
  | (_, v) :: ms => numbersIn v ++ numbersOfMembers ms

end

variable {f g : Number → Number}

theorem mapMembers_eq_map (members : List (Text × Value)) :
    mapMembers f members = members.map (fun m => (m.1, mapNumbers f m.2)) := by
  induction members with
  | nil => rfl
  | cons m ms ih =>
    obtain ⟨k, v⟩ := m
    rw [mapMembers, ih, List.map_cons]

theorem mem_numbersOfMembers {members : List (Text × Value)} {x : Number} :
    x ∈ numbersOfMembers members ↔ ∃ m ∈ members, x ∈ numbersIn m.2 := by
  induction members with
  | nil => simp [numbersOfMembers]
  | cons m ms ih =>
    obtain ⟨k, v⟩ := m
    simp [numbersOfMembers, ih]

mutual

theorem mapNumbers_congr_iff (v : Value) :
    mapNumbers f v = mapNumbers g v ↔ ∀ x ∈ numbersIn v, f x = g x := by
  cases v with
  | null | bool | str => simp [mapNumbers, numbersIn]
  | int | float => simp [mapNumbers, numbersIn, Number.value_injective.eq_iff]
  | arr items => simpa only [mapNumbers, numbersIn, Value.arr.injEq] using mapItems_congr_iff items
  | obj members =>
    simpa only [mapNumbers, numbersIn, Value.obj.injEq] using mapMembers_congr_iff members

theorem mapItems_congr_iff (items : List Value) :
    mapItems f items = mapItems g items ↔ ∀ x ∈ numbersOfItems items, f x = g x := by
  match items with
  | [] => simp [mapItems, numbersOfItems]
  | v :: vs =>
    simp only [mapItems, numbersOfItems, List.cons.injEq, List.forall_mem_append,
      mapNumbers_congr_iff v, mapItems_congr_iff vs]

theorem mapMembers_congr_iff (members : List (Text × Value)) :
    mapMembers f members = mapMembers g members ↔ ∀ x ∈ numbersOfMembers members, f x = g x := by
  match members with
  | [] => simp [mapMembers, numbersOfMembers]
  | (k, v) :: ms =>
    simp only [mapMembers, numbersOfMembers, List.cons.injEq, Prod.mk.injEq, true_and,
      List.forall_mem_append, mapNumbers_congr_iff v, mapMembers_congr_iff ms]

end

mutual

theorem mapNumbers_id (v : Value) : mapNumbers id v = v := by
  cases v with
  | null | bool | str | int | float => rfl
  | arr items => rw [mapNumbers, mapItems_id items]
  | obj members => rw [mapNumbers, mapMembers_id members]

theorem mapItems_id (items : List Value) : mapItems id items = items := by
  match items with
  | [] => rfl
  | v :: vs => rw [mapItems, mapNumbers_id v, mapItems_id vs]

theorem mapMembers_id (members : List (Text × Value)) : mapMembers id members = members := by
  match members with
  | [] => rfl
  | (k, v) :: ms => rw [mapMembers, mapNumbers_id v, mapMembers_id ms]

end

theorem mapNumbers_eq_self_iff (v : Value) :
    mapNumbers f v = v ↔ ∀ x ∈ numbersIn v, f x = x := by
  have h := @mapNumbers_congr_iff f id v
  rwa [mapNumbers_id] at h

private theorem mapNumbers_value (x : Number) : mapNumbers f x.value = (f x).value := by
  cases x <;> rfl

mutual

theorem mapNumbers_mapNumbers (v : Value) :
    mapNumbers g (mapNumbers f v) = mapNumbers (g ∘ f) v := by
  cases v with
  | null | bool | str => rfl
  | int | float => exact mapNumbers_value _
  | arr items => simp only [mapNumbers, mapItems_mapItems items]
  | obj members => simp only [mapNumbers, mapMembers_mapMembers members]

theorem mapItems_mapItems (items : List Value) :
    mapItems g (mapItems f items) = mapItems (g ∘ f) items := by
  match items with
  | [] => rfl
  | v :: vs => simp only [mapItems, mapNumbers_mapNumbers v, mapItems_mapItems vs]

theorem mapMembers_mapMembers (members : List (Text × Value)) :
    mapMembers g (mapMembers f members) = mapMembers (g ∘ f) members := by
  match members with
  | [] => rfl
  | (k, v) :: ms => simp only [mapMembers, mapNumbers_mapNumbers v, mapMembers_mapMembers ms]

end

mutual

theorem depth_mapNumbers (v : Value) : depth (mapNumbers f v) = depth v := by
  cases v with
  | null | bool | str => rfl
  | int i => cases h : f (.int i) <;> simp [mapNumbers, h, Number.value, depth]
  | float lit => cases h : f (.float lit) <;> simp [mapNumbers, h, Number.value, depth]
  | arr items => rw [mapNumbers, depth, depth, depth_mapItems items]
  | obj members => rw [mapNumbers, depth, depth, depth_mapMembers members]

theorem depth_mapItems (items : List Value) : depthItems (mapItems f items) = depthItems items := by
  match items with
  | [] => rfl
  | v :: vs => rw [mapItems, depthItems, depthItems, depth_mapNumbers v, depth_mapItems vs]

theorem depth_mapMembers (members : List (Text × Value)) :
    depthMembers (mapMembers f members) = depthMembers members := by
  match members with
  | [] => rfl
  | (k, v) :: ms => rw [mapMembers, depthMembers, depthMembers, depth_mapNumbers v, depth_mapMembers ms]

end

private theorem keys_mapMembers (members : List (Text × Value)) :
    (mapMembers f members).map Prod.fst = members.map Prod.fst := by
  rw [mapMembers_eq_map, List.map_map]
  rfl

mutual

theorem uniqueKeys_mapNumbers (v : Value) (hv : UniqueKeys v) : UniqueKeys (mapNumbers f v) := by
  cases v with
  | null | bool | str => exact trivial
  | int i => cases h : f (.int i) <;> simp [mapNumbers, h, Number.value, UniqueKeys]
  | float lit => cases h : f (.float lit) <;> simp [mapNumbers, h, Number.value, UniqueKeys]
  | arr items =>
    simp only [mapNumbers, UniqueKeys] at hv ⊢
    exact uniqueItems_mapItems items hv
  | obj members =>
    simp only [mapNumbers, UniqueKeys, keys_mapMembers] at hv ⊢
    exact ⟨hv.1, uniqueMembers_mapMembers members hv.2⟩

theorem uniqueItems_mapItems (items : List Value) (hitems : UniqueItems items) :
    UniqueItems (mapItems f items) := by
  match items with
  | [] => exact trivial
  | v :: vs => exact ⟨uniqueKeys_mapNumbers v hitems.1, uniqueItems_mapItems vs hitems.2⟩

theorem uniqueMembers_mapMembers (members : List (Text × Value)) (hmembers : UniqueMembers members) :
    UniqueMembers (mapMembers f members) := by
  match members with
  | [] => exact trivial
  | (k, v) :: ms =>
    exact ⟨uniqueKeys_mapNumbers v hmembers.1, uniqueMembers_mapMembers ms hmembers.2⟩

end

@[simp] theorem asStr_mapNumbers (v : Value) : (mapNumbers f v).asStr = v.asStr := by
  cases v with
  | null | bool | str | arr | obj => rfl
  | int i => cases h : f (.int i) <;> simp [mapNumbers, h, Number.value, Value.asStr]
  | float lit => cases h : f (.float lit) <;> simp [mapNumbers, h, Number.value, Value.asStr]

theorem find_mapMembers (key : Text) (members : List (Text × Value)) :
    find key (mapMembers f members) = (find key members).map (mapNumbers f) := by
  induction members with
  | nil => rfl
  | cons m ms ih =>
    obtain ⟨k, v⟩ := m
    rw [mapMembers, find_cons, find_cons, ih]
    split_ifs <;> rfl

theorem get_mapNumbers (v : Value) (key : Text) :
    (mapNumbers f v).get key = (v.get key).map (mapNumbers f) := by
  cases v with
  | null | bool | str | arr => rfl
  | int i => cases h : f (.int i) <;> simp [mapNumbers, h, Number.value, Value.get, Value.asObj]
  | float lit => cases h : f (.float lit) <;> simp [mapNumbers, h, Number.value, Value.get, Value.asObj]
  | obj members =>
    simp only [Value.get, mapNumbers, Value.asObj, Option.bind_some]
    exact find_mapMembers key members

section Order

variable {κ : Type*} [LinearOrder κ] (rank : Text → κ)

mutual

theorem reorder_mapNumbers (v : Value) :
    reorder rank (mapNumbers f v) = mapNumbers f (reorder rank v) := by
  cases v with
  | null | bool | str => rfl
  | int i => cases h : f (.int i) <;> simp [mapNumbers, h, Number.value, reorder]
  | float lit => cases h : f (.float lit) <;> simp [mapNumbers, h, Number.value, reorder]
  | arr items => simp only [mapNumbers, reorder, reorderItems_mapItems items]
  | obj members =>
    simp only [mapNumbers, reorder, reorderMembers_mapMembers members, Value.obj.injEq]
    rw [mapMembers_eq_map, mapMembers_eq_map]
    exact (List.map_insertionSort (memberLe rank) (memberLe rank)
      (fun m : Text × Value => (m.1, mapNumbers f m.2)) _ fun _ _ _ _ => Iff.rfl).symm

theorem reorderItems_mapItems (items : List Value) :
    reorderItems rank (mapItems f items) = mapItems f (reorderItems rank items) := by
  match items with
  | [] => rfl
  | v :: vs => simp only [mapItems, reorderItems, reorder_mapNumbers v, reorderItems_mapItems vs]

theorem reorderMembers_mapMembers (members : List (Text × Value)) :
    reorderMembers rank (mapMembers f members) = mapMembers f (reorderMembers rank members) := by
  match members with
  | [] => rfl
  | (k, v) :: ms =>
    simp only [mapMembers, reorderMembers, reorder_mapNumbers v, reorderMembers_mapMembers ms]

end

mutual

theorem mem_numbersIn_reorder (v : Value) (x : Number) :
    x ∈ numbersIn (reorder rank v) ↔ x ∈ numbersIn v := by
  cases v with
  | null | bool | str | int | float => rfl
  | arr items =>
    simp only [reorder, numbersIn]
    exact mem_numbersOfItems_reorderItems items x
  | obj members =>
    simp only [reorder, numbersIn]
    rw [← mem_numbersOfMembers_reorderMembers members x, mem_numbersOfMembers, mem_numbersOfMembers]
    simp only [List.mem_insertionSort]

theorem mem_numbersOfItems_reorderItems (items : List Value) (x : Number) :
    x ∈ numbersOfItems (reorderItems rank items) ↔ x ∈ numbersOfItems items := by
  match items with
  | [] => rfl
  | v :: vs =>
    simp only [reorderItems, numbersOfItems, List.mem_append, mem_numbersIn_reorder v x,
      mem_numbersOfItems_reorderItems vs x]

theorem mem_numbersOfMembers_reorderMembers (members : List (Text × Value)) (x : Number) :
    x ∈ numbersOfMembers (reorderMembers rank members) ↔ x ∈ numbersOfMembers members := by
  match members with
  | [] => rfl
  | (k, v) :: ms =>
    simp only [reorderMembers, numbersOfMembers, List.mem_append, mem_numbersIn_reorder v x,
      mem_numbersOfMembers_reorderMembers ms x]

end

/-- A value that was ordered and had its numbers changed is the old one exactly when it was in order
and its numbers stay. -/
theorem mapNumbers_reorder_eq_self_iff (v : Value) :
    mapNumbers f (reorder rank v) = v ↔ Ordered rank v ∧ ∀ x ∈ numbersIn v, f x = x := by
  constructor
  · intro h
    have hordered : Ordered rank v := by
      rw [← h, ← reorder_mapNumbers]
      exact ordered_reorder rank _
    rw [(reorder_eq_self_iff rank v).mpr hordered] at h
    exact ⟨hordered, (mapNumbers_eq_self_iff v).mp h⟩
  · rintro ⟨hordered, hnumbers⟩
    rw [(reorder_eq_self_iff rank v).mpr hordered]
    exact (mapNumbers_eq_self_iff v).mpr hnumbers

end Order

end Setfork.Foundation.Json
