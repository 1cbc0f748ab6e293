/- Foundation: the JSON printer
   digest: The indented and the compact printer are injective, and their output can be cut off
   unambiguously. -/
import Mathlib.Tactic.IntervalCases
import Setfork.Foundation.Json

set_option autoImplicit false
set_option relaxedAutoImplicit false

namespace Setfork.Foundation.Json

open Setfork.Foundation (Text toDigits_injective toDigits_isDigit)

def controlEscape (n : Nat) : Text :=
  match n with
  | 8 => ['b']
  | 9 => ['t']
  | 10 => ['n']
  | 12 => ['f']
  | 13 => ['r']
  | _ => ['u', '0', '0', Nat.digitChar (n / 16), Nat.digitChar (n % 16)]

def escapeChar (c : Char) : Text :=
  if c = '"' then ['\\', '"']
  else if c = '\\' then ['\\', '\\']
  else if c.toNat < 0x20 then '\\' :: controlEscape c.toNat
  else [c]

def printStr (s : Text) : Text := '"' :: s.flatMap escapeChar ++ ['"']

def printInt : Int → Text
  | .ofNat n => Nat.toDigits 10 n
  | .negSucc n => '-' :: Nat.toDigits 10 (n + 1)

/-- A line break and the indentation of two spaces for each open container. -/
def newline (level : Nat) : Text := '\n' :: List.replicate (2 * level) ' '

mutual

/-- The indented form: one item or member a line, empty containers closed at once. -/
def pretty (level : Nat) : Value → Text
  | .null => "null".toList
  | .bool true => "true".toList
  | .bool false => "false".toList
  | .int i => printInt i
  | .float lit => lit.val
  | .str s => printStr s
  | .arr [] => ['[', ']']
  | .arr (v :: vs) =>
    '[' :: newline (level + 1) ++ pretty (level + 1) v ++ prettyItems (level + 1) vs ++
      newline level ++ [']']
  | .obj [] => ['{', '}']
  | .obj ((k, v) :: ms) =>
    '{' :: newline (level + 1) ++ printStr k ++ [':', ' '] ++ pretty (level + 1) v ++
      prettyMembers (level + 1) ms ++ newline level ++ ['}']

def prettyItems (level : Nat) : List Value → Text
  | [] => []
  | v :: vs => ',' :: newline level ++ pretty level v ++ prettyItems level vs

def prettyMembers (level : Nat) : List (Text × Value) → Text
  | [] => []
  | (k, v) :: ms =>
    ',' :: newline level ++ printStr k ++ [':', ' '] ++ pretty level v ++ prettyMembers level ms

end

mutual

/-- The compact form: no blanks and no line breaks between the tokens. -/
def compact : Value → Text
  | .null => "null".toList
  | .bool true => "true".toList
  | .bool false => "false".toList
  | .int i => printInt i
  | .float lit => lit.val
  | .str s => printStr s
  | .arr [] => ['[', ']']
  | .arr (v :: vs) => '[' :: compact v ++ compactItems vs ++ [']']
  | .obj [] => ['{', '}']
  | .obj ((k, v) :: ms) => '{' :: printStr k ++ ':' :: compact v ++ compactMembers ms ++ ['}']

def compactItems : List Value → Text
  | [] => []
  | v :: vs => ',' :: compact v ++ compactItems vs

def compactMembers : List (Text × Value) → Text
  | [] => []
  | (k, v) :: ms => ',' :: printStr k ++ ':' :: compact v ++ compactMembers ms

end

section Containers

variable (level : Nat) (k : Text) (v : Value) (vs : List Value) (ms : List (Text × Value))

theorem pretty_arr_cons : pretty level (.arr (v :: vs)) =
    '[' :: newline (level + 1) ++ pretty (level + 1) v ++ prettyItems (level + 1) vs ++
      newline level ++ [']'] := rfl

theorem pretty_obj_cons : pretty level (.obj ((k, v) :: ms)) =
    '{' :: newline (level + 1) ++ printStr k ++ [':', ' '] ++ pretty (level + 1) v ++
      prettyMembers (level + 1) ms ++ newline level ++ ['}'] := rfl

theorem compact_arr_nil : compact (.arr []) = ['[', ']'] := rfl

theorem compact_arr_cons :
    compact (.arr (v :: vs)) = '[' :: compact v ++ compactItems vs ++ [']'] := rfl

theorem compact_obj_cons : compact (.obj ((k, v) :: ms)) =
    '{' :: printStr k ++ ':' :: compact v ++ compactMembers ms ++ ['}'] := rfl

end Containers

def hexValue (c : Char) : Nat := if c.isDigit then c.toNat - 48 else c.toNat - 87

def readEscape : Text → Option (Char × Text)
  | 'b' :: t => some (Char.ofNat 8, t)
  | 't' :: t => some (Char.ofNat 9, t)
  | 'n' :: t => some (Char.ofNat 10, t)
  | 'f' :: t => some (Char.ofNat 12, t)
  | 'r' :: t => some (Char.ofNat 13, t)
  | '"' :: t => some ('"', t)
  | '\\' :: t => some ('\\', t)
  | 'u' :: '0' :: '0' :: a :: b :: t => some (Char.ofNat (16 * hexValue a + hexValue b), t)
  | _ => none

/-- Reads back one character of a string body; the closing quote reads as nothing. -/
def readChar : Text → Option (Char × Text)
  | [] => none
  | c :: t => if c = '"' then none else if c = '\\' then readEscape t else some (c, t)

private theorem readEscape_controlEscape (n : Nat) (hn : n < 0x20) (t : Text) :
    readEscape (controlEscape n ++ t) = some (Char.ofNat n, t) := by
  interval_cases n <;> rfl

theorem readChar_escapeChar (c : Char) (t : Text) :
    readChar (escapeChar c ++ t) = some (c, t) := by
  unfold escapeChar
  split_ifs with hquote hslash hcontrol
  · subst hquote
    rfl
  · subst hslash
    rfl
  · have hread := readEscape_controlEscape c.toNat hcontrol t
    rw [Char.ofNat_toNat] at hread
    exact hread
  · simp [readChar, hquote, hslash]

private theorem body_cut (s s' : Text) (r r' : Text)
    (h : s.flatMap escapeChar ++ '"' :: r = s'.flatMap escapeChar ++ '"' :: r') :
    s = s' ∧ r = r' := by
  have hquote : ∀ u : Text, readChar ('"' :: u) = none := fun _ => rfl
  induction s generalizing s' with
  | nil =>
    cases s' with
    | nil => simpa using h
    | cons d s' =>
      have hread := congrArg readChar h
      simp only [List.flatMap_nil, List.nil_append, List.flatMap_cons, List.append_assoc,
        hquote, readChar_escapeChar] at hread
      cases hread
  | cons c s ih =>
    cases s' with
    | nil =>
      have hread := congrArg readChar h
      simp only [List.flatMap_nil, List.nil_append, List.flatMap_cons, List.append_assoc,
        hquote, readChar_escapeChar] at hread
      cases hread
    | cons d s' =>
      have hread := congrArg readChar h
      simp only [List.flatMap_cons, List.append_assoc, readChar_escapeChar, Option.some.injEq,
        Prod.mk.injEq] at hread
      obtain ⟨rfl, hs⟩ := hread
      obtain ⟨rfl, hr⟩ := ih s' hs
      exact ⟨rfl, hr⟩

theorem printStr_cut {s s' r r' : Text} (h : printStr s ++ r = printStr s' ++ r') :
    s = s' ∧ r = r' := by
  simp only [printStr, List.cons_append, List.append_assoc, List.cons.injEq, true_and,
    List.nil_append] at h
  exact body_cut s s' r r' h

def NumberEnd (r : Text) : Prop := ∀ c ∈ r.head?, numberChar c = false

theorem numberEnd_cons {c : Char} (r : Text) (hc : numberChar c = false) : NumberEnd (c :: r) := by
  intro d hd
  simp only [List.head?_cons, Option.mem_def, Option.some.injEq] at hd
  rwa [← hd]

private theorem takeWhile_number {a r : Text} (ha : ∀ c ∈ a, numberChar c) (hr : NumberEnd r) :
    (a ++ r).takeWhile numberChar = a := by
  rw [List.takeWhile_append_of_pos ha]
  cases r with
  | nil => simp
  | cons c r => simp [hr c (by simp)]

theorem number_cut {a b r s : Text} (ha : ∀ c ∈ a, numberChar c) (hb : ∀ c ∈ b, numberChar c)
    (hr : NumberEnd r) (hs : NumberEnd s) (h : a ++ r = b ++ s) : a = b ∧ r = s := by
  have hab : a = b := by
    rw [← takeWhile_number ha hr, h, takeWhile_number hb hs]
  subst hab
  exact ⟨rfl, List.append_cancel_left h⟩

private theorem printInt_char (i : Int) : ∀ c ∈ printInt i, c.isDigit ∨ c = '-' := by
  intro c hc
  cases i with
  | ofNat n => exact Or.inl (toDigits_isDigit n c hc)
  | negSucc n =>
    rcases List.mem_cons.mp hc with rfl | hc
    · exact Or.inr rfl
    · exact Or.inl (toDigits_isDigit _ c hc)

private theorem printInt_number (i : Int) : ∀ c ∈ printInt i, numberChar c := by
  intro c hc
  rcases printInt_char i c hc with h | rfl
  · simp [numberChar, h]
  · decide

private theorem toDigits_ne_minus (m : Nat) (t : Text) : Nat.toDigits 10 m ≠ '-' :: t := by
  intro h
  have hdigit := toDigits_isDigit m '-' (by rw [h]; exact List.mem_cons_self)
  exact absurd hdigit (by decide)

theorem printInt_injective {i j : Int} (h : printInt i = printInt j) : i = j := by
  cases i with
  | ofNat m =>
    cases j with
    | ofNat n => rw [toDigits_injective h]
    | negSucc n => exact absurd h (toDigits_ne_minus _ _)
  | negSucc m =>
    cases j with
    | ofNat n => exact absurd h.symm (toDigits_ne_minus _ _)
    | negSucc n =>
      have hm := toDigits_injective (List.cons.inj h).2
      rw [Nat.succ.inj hm]

private theorem float_number (lit : { t : Text // isFloatLit t }) : ∀ c ∈ lit.val, numberChar c := by
  obtain ⟨t, ht⟩ := lit
  cases t with
  | nil => simp [isFloatLit] at ht
  | cons c t =>
    simp only [isFloatLit, Bool.and_eq_true, List.all_eq_true] at ht
    intro d hd
    rcases List.mem_cons.mp hd with rfl | hd
    · have hlead := ht.1.1
      simp only [Bool.or_eq_true, beq_iff_eq] at hlead
      rcases hlead with h | rfl
      · simp [numberChar, h]
      · decide
    · exact ht.1.2 d hd

private theorem printInt_ne_float (i : Int) (lit : { t : Text // isFloatLit t }) :
    printInt i ≠ lit.val := by
  obtain ⟨t, ht⟩ := lit
  intro h
  cases t with
  | nil => simp [isFloatLit] at ht
  | cons c t =>
    simp only [isFloatLit, Bool.and_eq_true, List.any_eq_true] at ht
    obtain ⟨d, hd, hmark⟩ := ht.2
    have hd' : d ∈ printInt i := by rw [h]; exact List.mem_cons_of_mem c hd
    have hmarks : d = '.' ∨ d = 'e' ∨ d = 'E' := by simpa using hmark
    rcases printInt_char i d hd' with hdigit | rfl
    · rcases hmarks with rfl | rfl | rfl <;> exact absurd hdigit (by decide)
    · rcases hmarks with h | h | h <;> exact absurd h (by decide)

private def lead : Value → Nat
  | .null => 0
  | .bool true => 1
  | .bool false => 2
  | .int _ => 3
  | .float _ => 3
  | .str _ => 4
  | .arr _ => 5
  | .obj _ => 6

private def leadOf (c : Char) : Nat :=
  if numberChar c then 3
  else if c = 'n' then 0 else if c = 't' then 1 else if c = 'f' then 2
  else if c = '"' then 4 else if c = '[' then 5 else 6

private theorem cons_of_number {a : Text} (hne : a ≠ []) (ha : ∀ c ∈ a, numberChar c) :
    ∃ c t, a = c :: t ∧ leadOf c = 3 := by
  cases a with
  | nil => exact absurd rfl hne
  | cons c t => exact ⟨c, t, rfl, by simp [leadOf, ha c List.mem_cons_self]⟩

private theorem pretty_lead (level : Nat) (v : Value) :
    ∃ c t, pretty level v = c :: t ∧ leadOf c = lead v := by
  cases v with
  | null => exact ⟨'n', _, rfl, by decide⟩
  | bool b => cases b <;> [exact ⟨'f', _, rfl, by decide⟩; exact ⟨'t', _, rfl, by decide⟩]
  | int i =>
    refine cons_of_number ?_ (printInt_number i)
    cases i with
    | ofNat n => exact Nat.toDigits_ne_nil
    | negSucc n => exact List.cons_ne_nil _ _
  | float lit =>
    refine cons_of_number ?_ (float_number lit)
    intro h
    have hlit := lit.property
    rw [show lit.val = [] from h] at hlit
    exact absurd hlit (by decide)
  | str s => exact ⟨'"', _, rfl, rfl⟩
  | arr items => cases items <;> exact ⟨'[', _, rfl, rfl⟩
  | obj members => cases members <;> exact ⟨'{', _, rfl, rfl⟩

private theorem lead_eq {level : Nat} {v w : Value} {r s : Text}
    (h : pretty level v ++ r = pretty level w ++ s) : lead v = lead w := by
  obtain ⟨c, t, hv, hc⟩ := pretty_lead level v
  obtain ⟨d, u, hw, hd⟩ := pretty_lead level w
  rw [hv, hw, List.cons_append, List.cons_append] at h
  rw [← hc, ← hd, (List.cons.inj h).1]

private theorem numberEnd_items (level : Nat) (vs : List Value) (m : Nat) (r : Text) :
    NumberEnd (prettyItems level vs ++ (newline m ++ r)) := by
  cases vs <;> exact numberEnd_cons _ (by decide)

private theorem numberEnd_members (level : Nat) (ms : List (Text × Value)) (m : Nat) (r : Text) :
    NumberEnd (prettyMembers level ms ++ (newline m ++ r)) := by
  cases ms <;> exact numberEnd_cons _ (by decide)

private theorem comma_ne_newline {m : Nat} {r s : Text} : ',' :: r ≠ newline m ++ s := by
  intro h
  exact absurd (List.cons.inj h).1 (by decide)

mutual

theorem pretty_cut (level : Nat) (v w : Value) (r s : Text) (hr : NumberEnd r) (hs : NumberEnd s)
    (h : pretty level v ++ r = pretty level w ++ s) : v = w ∧ r = s := by
  have hlead := lead_eq h
  match v, w with
  | .null, .null => exact ⟨rfl, List.append_cancel_left h⟩
  | .bool true, .bool true => exact ⟨rfl, List.append_cancel_left h⟩
  | .bool false, .bool false => exact ⟨rfl, List.append_cancel_left h⟩
  | .int i, .int j =>
    obtain ⟨hij, hrs⟩ := number_cut (printInt_number i) (printInt_number j) hr hs h
    exact ⟨by rw [printInt_injective hij], hrs⟩
  | .int i, .float lit =>
    exact absurd (number_cut (printInt_number i) (float_number lit) hr hs h).1
      (printInt_ne_float i lit)
  | .float lit, .int i =>
    exact absurd (number_cut (float_number lit) (printInt_number i) hr hs h).1.symm
      (printInt_ne_float i lit)
  | .float lit, .float lit' =>
    obtain ⟨hlit, hrs⟩ := number_cut (float_number lit) (float_number lit') hr hs h
    exact ⟨by rw [Subtype.ext hlit], hrs⟩
  | .str a, .str b =>
    obtain ⟨rfl, hrs⟩ := printStr_cut h
    exact ⟨rfl, hrs⟩
  | .arr [], .arr [] => exact ⟨rfl, List.append_cancel_left h⟩
  | .arr [], .arr (y :: ys) => exact absurd (List.cons.inj (List.cons.inj h).2).1 (by decide)
  | .arr (x :: xs), .arr [] => exact absurd (List.cons.inj (List.cons.inj h).2).1 (by decide)
  | .arr (x :: xs), .arr (y :: ys) =>
    simp only [pretty_arr_cons, List.cons_append, List.append_assoc, List.cons.injEq, true_and,
      List.append_cancel_left_eq] at h
    obtain ⟨rfl, hrest⟩ := pretty_cut (level + 1) x y _ _ (numberEnd_items _ _ _ _)
      (numberEnd_items _ _ _ _) h
    obtain ⟨rfl, hend⟩ := prettyItems_cut (level + 1) level xs ys _ _ hrest
    exact ⟨rfl, (List.cons.inj hend).2⟩
  | .obj [], .obj [] => exact ⟨rfl, List.append_cancel_left h⟩
  | .obj [], .obj ((k, y) :: ys) => exact absurd (List.cons.inj (List.cons.inj h).2).1 (by decide)
  | .obj ((k, x) :: xs), .obj [] => exact absurd (List.cons.inj (List.cons.inj h).2).1 (by decide)
  | .obj ((k, x) :: xs), .obj ((l, y) :: ys) =>
    simp only [pretty_obj_cons, List.cons_append, List.append_assoc, List.cons.injEq, true_and,
      List.append_cancel_left_eq] at h
    obtain ⟨rfl, hcolon⟩ := printStr_cut h
    simp only [List.cons.injEq, true_and, List.nil_append] at hcolon
    obtain ⟨rfl, hrest⟩ := pretty_cut (level + 1) x y _ _ (numberEnd_members _ _ _ _)
      (numberEnd_members _ _ _ _) hcolon
    obtain ⟨rfl, hend⟩ := prettyMembers_cut (level + 1) level xs ys _ _ hrest
    exact ⟨rfl, (List.cons.inj hend).2⟩

theorem prettyItems_cut (level m : Nat) (vs ws : List Value) (r s : Text)
    (h : prettyItems level vs ++ (newline m ++ r) = prettyItems level ws ++ (newline m ++ s)) :
    vs = ws ∧ r = s := by
  match vs, ws with
  | [], [] => exact ⟨rfl, List.append_cancel_left (List.append_cancel_left h)⟩
  | [], w :: ws => exact absurd h.symm comma_ne_newline
  | v :: vs, [] => exact absurd h comma_ne_newline
  | v :: vs, w :: ws =>
    simp only [prettyItems, List.cons_append, List.append_assoc, List.cons.injEq, true_and,
      List.append_cancel_left_eq] at h
    obtain ⟨rfl, hrest⟩ := pretty_cut level v w _ _ (numberEnd_items _ _ _ _)
      (numberEnd_items _ _ _ _) h
    obtain ⟨rfl, hend⟩ := prettyItems_cut level m vs ws _ _ hrest
    exact ⟨rfl, hend⟩

theorem prettyMembers_cut (level m : Nat) (ms ns : List (Text × Value)) (r s : Text)
    (h : prettyMembers level ms ++ (newline m ++ r) =
      prettyMembers level ns ++ (newline m ++ s)) :
    ms = ns ∧ r = s := by
  match ms, ns with
  | [], [] => exact ⟨rfl, List.append_cancel_left (List.append_cancel_left h)⟩
  | [], (l, w) :: ns => exact absurd h.symm comma_ne_newline
  | (k, v) :: ms, [] => exact absurd h comma_ne_newline
  | (k, v) :: ms, (l, w) :: ns =>
    simp only [prettyMembers, List.cons_append, List.append_assoc, List.cons.injEq, true_and,
      List.append_cancel_left_eq] at h
    obtain ⟨rfl, hcolon⟩ := printStr_cut h
    simp only [List.cons.injEq, true_and, List.nil_append] at hcolon
    obtain ⟨rfl, hrest⟩ := pretty_cut level v w _ _ (numberEnd_members _ _ _ _)
      (numberEnd_members _ _ _ _) hcolon
    obtain ⟨rfl, hend⟩ := prettyMembers_cut level m ms ns _ _ hrest
    exact ⟨rfl, hend⟩

end

theorem pretty_injective {v w : Value} (h : pretty 0 v = pretty 0 w) : v = w :=
  (pretty_cut 0 v w [] [] (by simp [NumberEnd]) (by simp [NumberEnd]) (by rw [h])).1

private theorem compact_lead (v : Value) : ∃ c t, compact v = c :: t ∧ leadOf c = lead v := by
  cases v with
  | arr items => cases items <;> exact ⟨'[', _, rfl, rfl⟩
  | obj members =>
    cases members with
    | nil => exact ⟨'{', _, rfl, rfl⟩
    | cons m ms => exact ⟨'{', _, rfl, rfl⟩
  | bool b => cases b <;> [exact pretty_lead 0 (.bool false); exact pretty_lead 0 (.bool true)]
  | null => exact pretty_lead 0 .null
  | int i => exact pretty_lead 0 (.int i)
  | float lit => exact pretty_lead 0 (.float lit)
  | str s => exact pretty_lead 0 (.str s)

private theorem compact_lead_eq {v w : Value} {r s : Text}
    (h : compact v ++ r = compact w ++ s) : lead v = lead w := by
  obtain ⟨c, t, hv, hc⟩ := compact_lead v
  obtain ⟨d, u, hw, hd⟩ := compact_lead w
  rw [hv, hw, List.cons_append, List.cons_append] at h
  rw [← hc, ← hd, (List.cons.inj h).1]

private theorem numberEnd_compactItems (vs : List Value) (r : Text) :
    NumberEnd (compactItems vs ++ ']' :: r) := by
  cases vs <;> exact numberEnd_cons _ (by decide)

private theorem numberEnd_compactMembers (ms : List (Text × Value)) (r : Text) :
    NumberEnd (compactMembers ms ++ '}' :: r) := by
  cases ms <;> exact numberEnd_cons _ (by decide)

private theorem compact_ne_bracket {v : Value} {r s : Text} : compact v ++ r ≠ ']' :: s := by
  intro h
  obtain ⟨c, t, hv, hc⟩ := compact_lead v
  rw [hv, List.cons_append] at h
  obtain rfl := (List.cons.inj h).1
  have hbracket : leadOf ']' = 6 := by decide
  rw [hbracket] at hc
  cases v with
  | obj members => cases members <;> exact absurd (List.cons.inj hv).1 (by decide)
  | bool b => cases b <;> cases hc
  | _ => cases hc

mutual

theorem compact_cut (v w : Value) (r s : Text) (hr : NumberEnd r) (hs : NumberEnd s)
    (h : compact v ++ r = compact w ++ s) : v = w ∧ r = s := by
  have hlead := compact_lead_eq h
  match v, w with
  | .null, .null => exact ⟨rfl, List.append_cancel_left h⟩
  | .bool true, .bool true => exact ⟨rfl, List.append_cancel_left h⟩
  | .bool false, .bool false => exact ⟨rfl, List.append_cancel_left h⟩
  | .int i, .int j => exact pretty_cut 0 (.int i) (.int j) r s hr hs h
  | .int i, .float lit => exact pretty_cut 0 (.int i) (.float lit) r s hr hs h
  | .float lit, .int i => exact pretty_cut 0 (.float lit) (.int i) r s hr hs h
  | .float lit, .float lit' => exact pretty_cut 0 (.float lit) (.float lit') r s hr hs h
  | .str a, .str b => exact pretty_cut 0 (.str a) (.str b) r s hr hs h
  | .arr [], .arr [] => exact ⟨rfl, List.append_cancel_left h⟩
  | .arr [], .arr (y :: ys) =>
    rw [compact_arr_nil, compact_arr_cons] at h
    simp only [List.cons_append, List.append_assoc, List.cons.injEq, true_and] at h
    exact absurd h.symm compact_ne_bracket
  | .arr (x :: xs), .arr [] =>
    rw [compact_arr_nil, compact_arr_cons] at h
    simp only [List.cons_append, List.append_assoc, List.cons.injEq, true_and] at h
    exact absurd h compact_ne_bracket
  | .arr (x :: xs), .arr (y :: ys) =>
    simp only [compact_arr_cons, List.cons_append, List.append_assoc, List.cons.injEq, true_and,
      List.nil_append] at h
    obtain ⟨rfl, hrest⟩ := compact_cut x y _ _ (numberEnd_compactItems _ _)
      (numberEnd_compactItems _ _) h
    obtain ⟨rfl, hend⟩ := compactItems_cut xs ys _ _ hrest
    exact ⟨rfl, hend⟩
  | .obj [], .obj [] => exact ⟨rfl, List.append_cancel_left h⟩
  | .obj [], .obj ((k, y) :: ys) => exact absurd (List.cons.inj (List.cons.inj h).2).1 (by decide)
  | .obj ((k, x) :: xs), .obj [] => exact absurd (List.cons.inj (List.cons.inj h).2).1 (by decide)
  | .obj ((k, x) :: xs), .obj ((l, y) :: ys) =>
    simp only [compact_obj_cons, List.cons_append, List.append_assoc, List.cons.injEq, true_and,
      List.nil_append] at h
    obtain ⟨rfl, hcolon⟩ := printStr_cut h
    obtain ⟨rfl, hrest⟩ := compact_cut x y _ _ (numberEnd_compactMembers _ _)
      (numberEnd_compactMembers _ _) (List.cons.inj hcolon).2
    obtain ⟨rfl, hend⟩ := compactMembers_cut xs ys _ _ hrest
    exact ⟨rfl, hend⟩

theorem compactItems_cut (vs ws : List Value) (r s : Text)
    (h : compactItems vs ++ ']' :: r = compactItems ws ++ ']' :: s) : vs = ws ∧ r = s := by
  match vs, ws with
  | [], [] => exact ⟨rfl, (List.cons.inj h).2⟩
  | [], w :: ws => exact absurd (List.cons.inj h).1 (by decide)
  | v :: vs, [] => exact absurd (List.cons.inj h).1 (by decide)
  | v :: vs, w :: ws =>
    simp only [compactItems, List.cons_append, List.append_assoc, List.cons.injEq, true_and] at h
    obtain ⟨rfl, hrest⟩ := compact_cut v w _ _ (numberEnd_compactItems _ _)
      (numberEnd_compactItems _ _) h
    obtain ⟨rfl, hend⟩ := compactItems_cut vs ws _ _ hrest
    exact ⟨rfl, hend⟩

theorem compactMembers_cut (ms ns : List (Text × Value)) (r s : Text)
    (h : compactMembers ms ++ '}' :: r = compactMembers ns ++ '}' :: s) : ms = ns ∧ r = s := by
  match ms, ns with
  | [], [] => exact ⟨rfl, (List.cons.inj h).2⟩
  | [], (l, w) :: ns => exact absurd (List.cons.inj h).1 (by decide)
  | (k, v) :: ms, [] => exact absurd (List.cons.inj h).1 (by decide)
  | (k, v) :: ms, (l, w) :: ns =>
    simp only [compactMembers, List.cons_append, List.append_assoc, List.cons.injEq,
      true_and] at h
    obtain ⟨rfl, hcolon⟩ := printStr_cut h
    obtain ⟨rfl, hrest⟩ := compact_cut v w _ _ (numberEnd_compactMembers _ _)
      (numberEnd_compactMembers _ _) (List.cons.inj hcolon).2
    obtain ⟨rfl, hend⟩ := compactMembers_cut ms ns _ _ hrest
    exact ⟨rfl, hend⟩

end

theorem compact_ne_nil (v : Value) : compact v ≠ [] := by
  obtain ⟨c, t, hv, -⟩ := compact_lead v
  rw [hv]
  exact List.cons_ne_nil c t

private theorem ends_ne_line {a t : Text} {c : Char} (hc : c ≠ '\n') : a ++ [c] ≠ t ++ ['\n'] := by
  intro h
  have hlast := List.append_inj_right' h rfl
  exact hc (List.cons.inj hlast).1

private theorem number_ne_line {a t : Text} (ha : ∀ c ∈ a, numberChar c) : a ≠ t ++ ['\n'] := by
  rintro rfl
  have hline := ha '\n' (List.mem_append_right t (List.mem_singleton.mpr rfl))
  exact absurd hline (by decide)

theorem compact_ne_line (v : Value) (t : Text) : compact v ≠ t ++ ['\n'] := by
  cases v with
  | null => exact ends_ne_line (a := ['n', 'u', 'l']) (by decide)
  | bool b =>
    cases b with
    | false => exact ends_ne_line (a := ['f', 'a', 'l', 's']) (by decide)
    | true => exact ends_ne_line (a := ['t', 'r', 'u']) (by decide)
  | int i => exact number_ne_line (printInt_number i)
  | float lit => exact number_ne_line (float_number lit)
  | str s => exact ends_ne_line (by decide)
  | arr items =>
    cases items with
    | nil => exact ends_ne_line (a := ['[']) (by decide)
    | cons v vs => exact ends_ne_line (by decide)
  | obj members =>
    cases members with
    | nil => exact ends_ne_line (a := ['{']) (by decide)
    | cons m ms => exact ends_ne_line (by decide)

theorem compact_injective {v w : Value} (h : compact v = compact w) : v = w :=
  (compact_cut v w [] [] (by simp [NumberEnd]) (by simp [NumberEnd]) (by rw [h])).1

end Setfork.Foundation.Json
