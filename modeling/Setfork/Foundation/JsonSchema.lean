/- Foundation: JSON Schema
   digest: Draft 7 assertions as they are needed to describe a format, and what their absence of
   errors says about a value. -/
import Mathlib.Data.Rat.Defs
import Setfork.Foundation.Json

set_option autoImplicit false
set_option relaxedAutoImplicit false

namespace Setfork.Foundation.JsonSchema

open Setfork.Foundation (Text toDigits_injective toDigits_isDigit)
open Setfork.Foundation.Json

def literalValue (t : Text) : ℚ :=
  let unsigned := if t.head? = some '-' then t.tail else t
  let mantissa := unsigned.takeWhile (fun c => c != 'e' && c != 'E')
  let exponent := (unsigned.dropWhile (fun c => c != 'e' && c != 'E')).tail
  let whole := mantissa.takeWhile (· != '.')
  let fraction := (mantissa.dropWhile (· != '.')).tail
  let digits : ℚ := Nat.ofDigitChars 10 (whole ++ fraction) 0
  let scaled :=
    if exponent.head? = some '-' then digits / 10 ^ Nat.ofDigitChars 10 exponent.tail 0
    else digits * 10 ^ Nat.ofDigitChars 10 (exponent.dropWhile (· == '+')) 0
  (if t.head? = some '-' then -1 else 1) * (scaled / 10 ^ fraction.length)

def number : Value → Option ℚ
  | .int i => some i
  | .float lit => some (literalValue lit.val)
  | _ => none

inductive JsonType where
  | string
  | boolean
  | integer
  | array
  | object
deriving DecidableEq

/-- An integer is a number without a fractional part, however it is written. -/
def JsonType.admits : JsonType → Value → Bool
  | string, .str _ => true
  | boolean, .bool _ => true
  | integer, v => (number v).any (fun q => q.den = 1)
  | array, .arr _ => true
  | object, .obj _ => true
  | _, _ => false

/-- Every constructor is one assertion; `all` is what stands side by side in one schema. An
assertion about values of one type says nothing about others. -/
inductive Schema where
  | type (t : JsonType)
  | enum (values : List Text)
  | minimum (bound : Int)
  | minLength (bound : Nat)
  | pattern (found : Text → Bool)
  | format (holds : Text → Bool)
  | items (each : Schema)
  | required (names : List Text)
  | property (name : Text) (inner : Schema)
  | noOthers (known : List Text)
  | others (known : List Text) (inner : Schema)
  | anyOf (options : List Schema)
  | all (parts : List Schema)

inductive ErrorKind where
  | type
  | enum
  | minimum
  | minLength
  | pattern
  | format
  | required
  | additionalProperties
  | anyOf
deriving DecidableEq

structure SchemaError where
  path : Text
  kind : ErrorKind
deriving DecidableEq

def escapeKey (key : Text) : Text :=
  key.flatMap (fun c => if c = '~' then ['~', '0'] else if c = '/' then ['~', '1'] else [c])

def pathKey (path key : Text) : Text := path ++ '/' :: escapeKey key

def pathItem (path : Text) (i : Nat) : Text := path ++ '/' :: Nat.toDigits 10 i

def flag (holds : Bool) (path : Text) (kind : ErrorKind) : List SchemaError :=
  if holds then [] else [⟨path, kind⟩]

mutual

def errors (path : Text) (v : Value) : Schema → List SchemaError
  | .type t => flag (t.admits v) path .type
  | .enum values => flag (v.asStr.any (values.contains ·)) path .enum
  | .minimum bound => flag ((number v).all (fun q => decide ((bound : ℚ) ≤ q))) path .minimum
  | .minLength bound => flag (v.asStr.all (fun s => decide (bound ≤ s.length))) path .minLength
  | .pattern found => flag (v.asStr.all found) path .pattern
  | .format holds => flag (v.asStr.all holds) path .format
  | .items each =>
    match v with
    | .arr items => (items.mapIdx (fun i x => errors (pathItem path i) x each)).flatten
    | _ => []
  | .required names =>
    match v with
    | .obj _ => names.flatMap (fun k => flag (v.get k).isSome path .required)
    | _ => []
  | .property name inner =>
    match v.get name with
    | some x => errors (pathKey path name) x inner
    | none => []
  | .noOthers known =>
    match v with
    | .obj members => flag (members.all (fun m => known.contains m.1)) path .additionalProperties
    | _ => []
  | .others known inner =>
    match v with
    | .obj members => members.flatMap (fun m =>
        if known.contains m.1 then [] else errors (pathKey path m.1) m.2 inner)
    | _ => []
  | .anyOf options => flag (passesAny path v options) path .anyOf
  | .all parts => errorsAll path v parts

def errorsAll (path : Text) (v : Value) : List Schema → List SchemaError
  | [] => []
  | s :: parts => errors path v s ++ errorsAll path v parts

def passesAny (path : Text) (v : Value) : List Schema → Bool
  | [] => false
  | s :: options => (errors path v s).isEmpty || passesAny path v options

end

theorem flag_eq_nil {holds : Bool} {path : Text} {kind : ErrorKind} :
    flag holds path kind = [] ↔ holds = true := by
  cases holds <;> simp [flag]

theorem flatten_mapIdx_eq_nil {α β : Type} {f : Nat → α → List β} {xs : List α} :
    (xs.mapIdx f).flatten = [] ↔ ∀ i (h : i < xs.length), f i xs[i] = [] := by
  rw [List.flatten_eq_nil_iff]
  constructor
  · intro h i hi
    exact h _ (List.mem_mapIdx.mpr ⟨i, hi, rfl⟩)
  · intro h l hl
    obtain ⟨i, hi, rfl⟩ := List.mem_mapIdx.mp hl
    exact h i hi

mutual

theorem errors_moved (p q : Text) (v : Value) (s : Schema) (h : errors p v s = []) :
    errors q v s = [] := by
  cases s with
  | type | enum | minimum | minLength | pattern | format =>
    unfold errors at h ⊢
    exact flag_eq_nil.mpr (flag_eq_nil.mp h)
  | items each =>
    cases v with
    | arr items =>
      simp only [errors, flatten_mapIdx_eq_nil] at h ⊢
      exact fun i hi => errors_moved _ _ items[i] each (h i hi)
    | _ => rfl
  | required names =>
    cases v with
    | obj members =>
      simp only [errors, List.flatMap_eq_nil_iff, flag_eq_nil] at h ⊢
      exact h
    | _ => rfl
  | property name inner =>
    unfold errors at h ⊢
    cases hget : v.get name with
    | none => rfl
    | some x =>
      rw [hget] at h
      exact errors_moved _ _ x inner h
  | noOthers known =>
    cases v with
    | obj members =>
      simp only [errors, flag_eq_nil] at h ⊢
      exact h
    | _ => rfl
  | others known inner =>
    cases v with
    | obj members =>
      simp only [errors, List.flatMap_eq_nil_iff] at h ⊢
      intro m hm
      have hmember := h m hm
      split_ifs at hmember ⊢ with hknown
      · rfl
      · exact errors_moved _ _ m.2 inner hmember
    | _ => rfl
  | anyOf options =>
    unfold errors at h ⊢
    rw [flag_eq_nil] at h ⊢
    exact passesAny_moved p q v options h
  | all parts =>
    unfold errors at h ⊢
    exact errorsAll_moved p q v parts h

theorem errorsAll_moved (p q : Text) (v : Value) (parts : List Schema)
    (h : errorsAll p v parts = []) : errorsAll q v parts = [] := by
  cases parts with
  | nil => rfl
  | cons s parts =>
    unfold errorsAll at h ⊢
    obtain ⟨hfirst, hrest⟩ := List.append_eq_nil_iff.mp h
    exact List.append_eq_nil_iff.mpr
      ⟨errors_moved p q v s hfirst, errorsAll_moved p q v parts hrest⟩

theorem passesAny_moved (p q : Text) (v : Value) (options : List Schema)
    (h : passesAny p v options = true) : passesAny q v options = true := by
  cases options with
  | nil => exact h
  | cons s options =>
    unfold passesAny at h ⊢
    rw [Bool.or_eq_true, List.isEmpty_iff] at h ⊢
    rcases h with h | h
    · exact Or.inl (errors_moved p q v s h)
    · exact Or.inr (passesAny_moved p q v options h)

end

def Valid (s : Schema) (v : Value) : Prop := errors [] v s = []

instance (s : Schema) (v : Value) : Decidable (Valid s v) :=
  inferInstanceAs (Decidable (errors [] v s = []))

theorem errors_eq_nil_iff {path : Text} {v : Value} {s : Schema} :
    errors path v s = [] ↔ Valid s v :=
  ⟨errors_moved path [] v s, errors_moved [] path v s⟩

section Assertions

variable {v : Value}

theorem valid_type {t : JsonType} : Valid (.type t) v ↔ t.admits v = true := by
  rw [Valid, errors]
  exact flag_eq_nil

theorem valid_enum {values : List Text} :
    Valid (.enum values) v ↔ ∃ s ∈ values, v = .str s := by
  rw [Valid, errors, flag_eq_nil]
  cases v <;> simp [Value.asStr]

theorem valid_minimum {bound : Int} :
    Valid (.minimum bound) v ↔ ∀ q ∈ number v, (bound : ℚ) ≤ q := by
  rw [Valid, errors, flag_eq_nil]
  cases number v <;> simp

theorem valid_minLength {bound : Nat} :
    Valid (.minLength bound) v ↔ ∀ s, v = .str s → bound ≤ s.length := by
  rw [Valid, errors, flag_eq_nil]
  cases v <;> simp [Value.asStr]

theorem valid_pattern {found : Text → Bool} :
    Valid (.pattern found) v ↔ ∀ s, v = .str s → found s = true := by
  rw [Valid, errors, flag_eq_nil]
  cases v <;> simp [Value.asStr]

theorem valid_format {holds : Text → Bool} :
    Valid (.format holds) v ↔ ∀ s, v = .str s → holds s = true := by
  rw [Valid, errors, flag_eq_nil]
  cases v <;> simp [Value.asStr]

theorem valid_items {each : Schema} :
    Valid (.items each) v ↔ ∀ items, v = .arr items → ∀ x ∈ items, Valid each x := by
  cases v with
  | arr items =>
    rw [Valid, errors, flatten_mapIdx_eq_nil]
    simp only [errors_eq_nil_iff, Value.arr.injEq, forall_eq', List.forall_mem_iff_getElem]
  | _ => simp [Valid, errors]

theorem valid_required {names : List Text} :
    Valid (.required names) v ↔
      ∀ members, v = .obj members → ∀ k ∈ names, (v.get k).isSome = true := by
  cases v with
  | obj members =>
    simp only [Valid, errors, List.flatMap_eq_nil_iff, flag_eq_nil, Value.obj.injEq, forall_eq']
  | _ => simp [Valid, errors]

theorem valid_property {name : Text} {inner : Schema} :
    Valid (.property name inner) v ↔ ∀ x, v.get name = some x → Valid inner x := by
  rw [Valid, errors]
  cases v.get name with
  | none => simp
  | some x => simp [errors_eq_nil_iff]

theorem valid_noOthers {known : List Text} :
    Valid (.noOthers known) v ↔ ∀ members, v = .obj members → ∀ m ∈ members, m.1 ∈ known := by
  cases v with
  | obj members =>
    simp only [Valid, errors, flag_eq_nil, List.all_eq_true, List.contains_iff_mem,
      Value.obj.injEq, forall_eq']
  | _ => simp [Valid, errors]

theorem valid_others {known : List Text} {inner : Schema} :
    Valid (.others known inner) v ↔
      ∀ members, v = .obj members → ∀ m ∈ members, m.1 ∉ known → Valid inner m.2 := by
  cases v with
  | obj members =>
    simp only [Valid, errors, List.flatMap_eq_nil_iff, Value.obj.injEq, forall_eq']
    refine forall_congr' fun m => imp_congr_right fun _ => ?_
    by_cases hknown : known.contains m.1
    · rw [if_pos hknown]
      exact iff_of_true rfl fun hnot => absurd (List.contains_iff_mem.mp hknown) hnot
    · rw [if_neg hknown, errors_eq_nil_iff]
      have hnot : m.1 ∉ known := fun hmem => hknown (List.contains_iff_mem.mpr hmem)
      exact ⟨fun h _ => h, fun h => h hnot⟩
  | _ => simp [Valid, errors]

theorem valid_anyOf {options : List Schema} :
    Valid (.anyOf options) v ↔ ∃ s ∈ options, Valid s v := by
  rw [Valid, errors, flag_eq_nil]
  induction options with
  | nil => simp [passesAny]
  | cons s options ih =>
    rw [passesAny, Bool.or_eq_true, List.isEmpty_iff, ih]
    simp only [List.mem_cons, exists_eq_or_imp]
    rfl

theorem valid_all {parts : List Schema} : Valid (.all parts) v ↔ ∀ s ∈ parts, Valid s v := by
  rw [Valid, errors]
  induction parts with
  | nil => simp [errorsAll]
  | cons s parts ih =>
    rw [errorsAll, List.append_eq_nil_iff, ih, List.forall_mem_cons]
    rfl

theorem valid_all_nil : Valid (.all []) v ↔ True := iff_true_intro rfl

theorem valid_all_cons {s : Schema} {parts : List Schema} :
    Valid (.all (s :: parts)) v ↔ Valid s v ∧ Valid (.all parts) v := by
  rw [valid_all, valid_all, List.forall_mem_cons]

theorem valid_both {s t : Schema} : Valid (.all [s, t]) v ↔ Valid s v ∧ Valid t v := by
  rw [valid_all_cons, valid_all_cons, valid_all_nil, and_true]

end Assertions

def Under (path q : Text) : Prop := ∃ rest, q = path ++ rest ∧ (rest = [] ∨ ∃ t, rest = '/' :: t)

theorem under_refl (path : Text) : Under path path := ⟨[], (List.append_nil path).symm, Or.inl rfl⟩

theorem under_slash {path token q : Text} (h : Under (path ++ '/' :: token) q) : Under path q := by
  obtain ⟨rest, rfl, -⟩ := h
  exact ⟨'/' :: token ++ rest, List.append_assoc _ _ _, Or.inr ⟨token ++ rest, rfl⟩⟩

private theorem toDigits_ne_slash {n : Nat} {c : Char} (hc : c ∈ Nat.toDigits 10 n) : c ≠ '/' := by
  rintro rfl
  exact absurd (toDigits_isDigit n _ hc) (by decide)

theorem index_of_under {path q : Text} {i j : Nat} (hi : Under (pathItem path i) q)
    (hj : Under (pathItem path j) q) : i = j := by
  obtain ⟨rest, rfl, hrest⟩ := hi
  obtain ⟨rest', heq, hrest'⟩ := hj
  have hdigits : ∀ (n : Nat) {r : Text}, (r = [] ∨ ∃ t, r = '/' :: t) →
      (Nat.toDigits 10 n ++ r).takeWhile (· != '/') = Nat.toDigits 10 n := by
    intro n r hr
    rw [List.takeWhile_append_of_pos fun c hc => bne_iff_ne.mpr (toDigits_ne_slash hc)]
    rcases hr with rfl | ⟨t, rfl⟩ <;> simp
  simp only [pathItem, List.append_assoc, List.cons_append, List.append_cancel_left_eq,
    List.cons.injEq, true_and] at heq
  have hsame : Nat.toDigits 10 i = Nat.toDigits 10 j := by
    rw [← hdigits i hrest, heq, hdigits j hrest']
  exact toDigits_injective hsame

theorem eq_of_mem_flag {holds : Bool} {path : Text} {kind : ErrorKind} {e : SchemaError}
    (h : e ∈ flag holds path kind) : e = ⟨path, kind⟩ := by
  cases holds with
  | true => cases h
  | false => exact List.mem_singleton.mp h

mutual

def Schema.reports (kind : ErrorKind) : Schema → Bool
  | .type _ => kind = .type
  | .enum _ => kind = .enum
  | .minimum _ => kind = .minimum
  | .minLength _ => kind = .minLength
  | .pattern _ => kind = .pattern
  | .format _ => kind = .format
  | .items each => each.reports kind
  | .required _ => kind = .required
  | .property _ inner => inner.reports kind
  | .noOthers _ => kind = .additionalProperties
  | .others _ inner => inner.reports kind
  | .anyOf _ => kind = .anyOf
  | .all parts => Schema.reportsAny kind parts

def Schema.reportsAny (kind : ErrorKind) : List Schema → Bool
  | [] => false
  | s :: parts => s.reports kind || Schema.reportsAny kind parts

end

private theorem located_of_mem_flag {holds : Bool} {path : Text} {kind : ErrorKind}
    {e : SchemaError} (h : e ∈ flag holds path kind) : Under path e.path ∧ kind = e.kind := by
  rw [eq_of_mem_flag h]
  exact ⟨under_refl path, rfl⟩

mutual

theorem errors_located {path : Text} {v : Value} {s : Schema} {e : SchemaError}
    (he : e ∈ errors path v s) : Under path e.path ∧ s.reports e.kind = true := by
  cases s with
  | type | enum | minimum | minLength | pattern | format | anyOf =>
    unfold errors at he
    obtain ⟨hunder, hkind⟩ := located_of_mem_flag he
    exact ⟨hunder, decide_eq_true hkind.symm⟩
  | items each =>
    cases v with
    | arr items =>
      unfold errors at he
      obtain ⟨l, hl, hel⟩ := List.mem_flatten.mp he
      obtain ⟨i, hi, rfl⟩ := List.mem_mapIdx.mp hl
      obtain ⟨hunder, hreports⟩ := errors_located hel
      exact ⟨under_slash hunder, hreports⟩
    | _ => cases he
  | required names =>
    cases v with
    | obj members =>
      unfold errors at he
      obtain ⟨k, -, hek⟩ := List.mem_flatMap.mp he
      obtain ⟨hunder, hkind⟩ := located_of_mem_flag hek
      exact ⟨hunder, decide_eq_true hkind.symm⟩
    | _ => cases he
  | property name inner =>
    unfold errors at he
    cases hget : v.get name with
    | none =>
      rw [hget] at he
      cases he
    | some x =>
      rw [hget] at he
      obtain ⟨hunder, hreports⟩ := errors_located he
      exact ⟨under_slash hunder, hreports⟩
  | noOthers known =>
    cases v with
    | obj members =>
      unfold errors at he
      obtain ⟨hunder, hkind⟩ := located_of_mem_flag he
      exact ⟨hunder, decide_eq_true hkind.symm⟩
    | _ => cases he
  | others known inner =>
    cases v with
    | obj members =>
      unfold errors at he
      obtain ⟨m, hm, hem⟩ := List.mem_flatMap.mp he
      split_ifs at hem with hknown
      · cases hem
      · obtain ⟨hunder, hreports⟩ := errors_located hem
        exact ⟨under_slash hunder, hreports⟩
    | _ => cases he
  | all parts =>
    unfold errors at he
    exact errorsAll_located he

theorem errorsAll_located {path : Text} {v : Value} {parts : List Schema} {e : SchemaError}
    (he : e ∈ errorsAll path v parts) :
    Under path e.path ∧ Schema.reportsAny e.kind parts = true := by
  cases parts with
  | nil => cases he
  | cons s parts =>
    unfold errorsAll at he
    unfold Schema.reportsAny
    rw [Bool.or_eq_true]
    rcases List.mem_append.mp he with he | he
    · obtain ⟨hunder, hreports⟩ := errors_located he
      exact ⟨hunder, Or.inl hreports⟩
    · obtain ⟨hunder, hreports⟩ := errorsAll_located he
      exact ⟨hunder, Or.inr hreports⟩

end

section Count

variable {path : Text} {v : Value} {e : SchemaError}

theorem count_errorsAll_eq_zero {parts : List Schema}
    (h : Schema.reportsAny e.kind parts = false) : (errorsAll path v parts).count e = 0 := by
  refine List.count_eq_zero_of_not_mem fun he => ?_
  rw [(errorsAll_located he).2] at h
  cases h

theorem count_errorsAll_only {parts : List Schema} {only : Schema} {n : Nat}
    (honly : parts[n]? = some only) (hbefore : Schema.reportsAny e.kind (parts.take n) = false)
    (hafter : Schema.reportsAny e.kind (parts.drop (n + 1)) = false) :
    (errorsAll path v parts).count e = (errors path v only).count e := by
  induction parts generalizing n with
  | nil => cases honly
  | cons s parts ih =>
    rw [errorsAll, List.count_append]
    cases n with
    | zero =>
      obtain rfl : s = only := Option.some.inj honly
      rw [@count_errorsAll_eq_zero path v e parts hafter, Nat.add_zero]
    | succ n =>
      rw [List.take_succ_cons, Schema.reportsAny, Bool.or_eq_false_iff] at hbefore
      have hnone : e ∉ errors path v s := by
        intro he
        rw [(errors_located he).2] at hbefore
        cases hbefore.1
      rw [List.count_eq_zero_of_not_mem hnone, Nat.zero_add]
      exact ih honly hbefore.2 hafter

theorem count_all_only {parts : List Schema} {only : Schema} (n : Nat)
    (honly : parts[n]? = some only) (hbefore : Schema.reportsAny e.kind (parts.take n) = false)
    (hafter : Schema.reportsAny e.kind (parts.drop (n + 1)) = false) :
    (errors path v (.all parts)).count e = (errors path v only).count e := by
  rw [errors]
  exact count_errorsAll_only honly hbefore hafter

theorem count_property {name : Text} {inner : Schema} {x : Value} (hget : v.get name = some x) :
    (errors path v (.property name inner)).count e =
      (errors (pathKey path name) x inner).count e := by
  rw [errors, hget]

theorem count_flatten_mapIdx {α β : Type} [DecidableEq β] {f : Nat → α → List β} {xs : List α}
    {b : β} {i : Nat} {x : α} (hx : xs[i]? = some x) (honly : ∀ j y, b ∈ f j y → j = i) :
    (xs.mapIdx f).flatten.count b = (f i x).count b := by
  induction xs generalizing i f with
  | nil => cases hx
  | cons y xs ih =>
    rw [List.mapIdx_cons, List.flatten_cons, List.count_append]
    cases i with
    | zero =>
      obtain rfl : y = x := Option.some.inj hx
      have hrest : b ∉ (xs.mapIdx fun j => f (j + 1)).flatten := by
        intro hb
        obtain ⟨l, hl, hbl⟩ := List.mem_flatten.mp hb
        obtain ⟨j, hj, rfl⟩ := List.mem_mapIdx.mp hl
        exact Nat.succ_ne_zero j (honly (j + 1) _ hbl)
      rw [List.count_eq_zero_of_not_mem hrest, Nat.add_zero]
    | succ i =>
      have hfirst : b ∉ f 0 y := fun hb => Nat.succ_ne_zero i (honly 0 y hb).symm
      rw [List.count_eq_zero_of_not_mem hfirst, Nat.zero_add]
      exact ih hx fun j z hb => Nat.succ.inj (honly (j + 1) z hb)

theorem count_items {items : List Value} {each : Schema} {i : Nat} {x : Value}
    (hx : items[i]? = some x) (hunder : Under (pathItem path i) e.path) :
    (errors path (.arr items) (.items each)).count e =
      (errors (pathItem path i) x each).count e := by
  rw [errors]
  exact count_flatten_mapIdx hx fun j y he => index_of_under (errors_located he).1 hunder

theorem count_anyOf {options : List Schema} [Decidable (Valid (.anyOf options) v)] :
    (errors path v (.anyOf options)).count ⟨path, .anyOf⟩ =
      if Valid (.anyOf options) v then 0 else 1 := by
  split_ifs with hvalid
  · rw [errors_eq_nil_iff.mpr hvalid]
    rfl
  · rw [← @errors_eq_nil_iff path, errors, flag_eq_nil] at hvalid
    rw [errors, flag, if_neg hvalid]
    exact List.count_singleton_self

end Count

end Setfork.Foundation.JsonSchema
