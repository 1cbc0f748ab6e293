/- Foundation: UUIDs
   digest: Sixteen-byte identifiers; the accepted spellings and the printed one round trip. -/
import Mathlib.Data.List.Basic
import Setfork.Foundation.Text

set_option autoImplicit false
set_option relaxedAutoImplicit false

namespace Setfork.Foundation

/-- An identifier of 128 bits, as its 32 hexadecimal digits. -/
structure Uuid where
  nibbles : List (Fin 16)
  length_eq : nibbles.length = 32
deriving DecidableEq

namespace Uuid

def repeated (d : Nat) : Uuid := ⟨List.replicate 32 (Fin.ofNat 16 d), List.length_replicate⟩

def hexChar (d : Fin 16) : Char := Nat.digitChar d.val

def hexNibble (c : Char) : Option (Fin 16) :=
  if '0' ≤ c ∧ c ≤ '9' then some (Fin.ofNat 16 (c.toNat - 48))
  else if 'a' ≤ c ∧ c ≤ 'f' then some (Fin.ofNat 16 (c.toNat - 87))
  else if 'A' ≤ c ∧ c ≤ 'F' then some (Fin.ofNat 16 (c.toNat - 55))
  else none

def readNibbles : Text → Option (List (Fin 16))
  | [] => some []
  | c :: t => (hexNibble c).bind (fun d => (readNibbles t).map (d :: ·))

def parseSimple (t : Text) : Option Uuid :=
  (readNibbles t).bind (fun ns => if h : ns.length = 32 then some ⟨ns, h⟩ else none)

def parseHyphenated (t : Text) : Option Uuid :=
  if t[8]? = some '-' ∧ t[13]? = some '-' ∧ t[18]? = some '-' ∧ t[23]? = some '-' then
    parseSimple (t.take 8 ++ (t.drop 9).take 4 ++ (t.drop 14).take 4 ++ (t.drop 19).take 4 ++
      t.drop 24)
  else none

/-- Bare digits, the hyphenated form, and the latter in braces or behind `urn:uuid:`. -/
def parseStr (t : Text) : Option Uuid :=
  if t.length = 32 then parseSimple t
  else if t.length = 36 then parseHyphenated t
  else if t.length = 38 ∧ t.head? = some '{' ∧ t.getLast? = some '}' then
    parseHyphenated t.tail.dropLast
  else if t.length = 45 ∧ "urn:uuid:".toList.isPrefixOf t then parseHyphenated (t.drop 9)
  else none

def digits (u : Uuid) : Text := u.nibbles.map hexChar

def toString (u : Uuid) : Text :=
  u.digits.take 8 ++ '-' :: ((u.digits.drop 8).take 4 ++ '-' :: ((u.digits.drop 12).take 4 ++
    '-' :: ((u.digits.drop 16).take 4 ++ '-' :: u.digits.drop 20)))

private theorem hexNibble_hexChar (d : Fin 16) : hexNibble (hexChar d) = some d := by
  revert d
  decide

private theorem readNibbles_map (ns : List (Fin 16)) : readNibbles (ns.map hexChar) = some ns := by
  induction ns with
  | nil => rfl
  | cons d ns ih => simp [readNibbles, hexNibble_hexChar, ih]

private theorem parseSimple_digits (u : Uuid) : parseSimple u.digits = some u := by
  simp [parseSimple, digits, readNibbles_map, u.length_eq]

private theorem parseHyphenated_groups {a b c d e : Text} (ha : a.length = 8) (hb : b.length = 4)
    (hc : c.length = 4) (hd : d.length = 4) :
    parseHyphenated (a ++ '-' :: (b ++ '-' :: (c ++ '-' :: (d ++ '-' :: e)))) =
      parseSimple (a ++ b ++ c ++ d ++ e) := by
  have hdrop {t : Text} {k : Nat} (n : Nat) (ht : t.length = k) (hk : k ≤ n) : t.drop n = [] :=
    List.drop_eq_nil_of_le (ht ▸ hk)
  simp [parseHyphenated, List.drop_append, List.getElem?_append, ha, hb, hc, hd,
    hdrop 9 ha (by omega), hdrop 14 ha (by omega), hdrop 19 ha (by omega), hdrop 24 ha (by omega),
    hdrop 5 hb (by omega), hdrop 10 hb (by omega), hdrop 15 hb (by omega),
    hdrop 5 hc (by omega), hdrop 10 hc (by omega), hdrop 5 hd (by omega)]

private theorem regroup (t : Text) :
    t.take 8 ++ (t.drop 8).take 4 ++ (t.drop 12).take 4 ++ (t.drop 16).take 4 ++ t.drop 20 = t := by
  calc
    _ = t.take 8 ++ ((t.drop 8).take 4 ++ ((t.drop 12).take 4 ++
          ((t.drop 16).take 4 ++ (t.drop 16).drop 4))) := by simp
    _ = t.take 8 ++ ((t.drop 8).take 4 ++ ((t.drop 12).take 4 ++ (t.drop 12).drop 4)) := by
      rw [List.take_append_drop 4 (t.drop 16)]
      simp
    _ = t.take 8 ++ ((t.drop 8).take 4 ++ (t.drop 8).drop 4) := by
      rw [List.take_append_drop 4 (t.drop 12)]
      simp
    _ = t := by rw [List.take_append_drop, List.take_append_drop]

theorem length_toString (u : Uuid) : u.toString.length = 36 := by
  simp [toString, digits, u.length_eq]

/-- Reading back the printed form gives the identifier. -/
theorem parseStr_toString (u : Uuid) : parseStr u.toString = some u := by
  have hlen : u.digits.length = 32 := by simp [digits, u.length_eq]
  have hparse : parseHyphenated u.toString = some u := by
    rw [toString, parseHyphenated_groups (by simp [hlen]) (by simp [hlen]) (by simp [hlen])
      (by simp [hlen]), regroup, parseSimple_digits]
  simp [parseStr, length_toString, hparse]

private theorem hexChar_not_whitespace (d : Fin 16) : isWhitespace (hexChar d) = false := by
  revert d
  decide

private theorem digits_not_whitespace (u : Uuid) : ∀ c ∈ u.digits, isWhitespace c = false := by
  intro c hc
  obtain ⟨d, -, rfl⟩ := List.mem_map.mp hc
  exact hexChar_not_whitespace d

theorem trimmed_toString (u : Uuid) : Trimmed u.toString := by
  refine trimmed_of_no_whitespace fun c hc => ?_
  have hdash : isWhitespace '-' = false := by decide
  have hdigit {t : Text} (ht : t.Sublist u.digits) (h : c ∈ t) : isWhitespace c = false :=
    digits_not_whitespace u c (ht.subset h)
  simp only [toString, List.mem_append, List.mem_cons] at hc
  rcases hc with h | rfl | h | rfl | h | rfl | h | rfl | h
  · exact hdigit (List.take_sublist _ _) h
  · exact hdash
  · exact hdigit ((List.take_sublist _ _).trans (List.drop_sublist _ _)) h
  · exact hdash
  · exact hdigit ((List.take_sublist _ _).trans (List.drop_sublist _ _)) h
  · exact hdash
  · exact hdigit ((List.take_sublist _ _).trans (List.drop_sublist _ _)) h
  · exact hdash
  · exact hdigit (List.drop_sublist _ _) h

private theorem visible_of_hexNibble {c : Char} {d : Fin 16} (h : hexNibble c = some d) :
    isWhitespace c = false := by
  have hrange : ∀ a b : Char, a ≤ c → c ≤ b → a.toNat ≤ c.toNat ∧ c.toNat ≤ b.toNat :=
    fun a b ha hb => ⟨ha, hb⟩
  have hvisible : 33 ≤ c.toNat → c.toNat ≤ 126 → isWhitespace c = false := by
    intro hlow hhigh
    simp only [isWhitespace, Bool.or_eq_false_iff, Bool.and_eq_false_iff, decide_eq_false_iff_not,
      beq_eq_false_iff_ne]
    omega
  unfold hexNibble at h
  split_ifs at h with hdigit hlower hupper
  · obtain ⟨hlow, hhigh⟩ := hrange _ _ hdigit.1 hdigit.2
    exact hvisible (Nat.le_trans (by decide) hlow) (Nat.le_trans hhigh (by decide))
  · obtain ⟨hlow, hhigh⟩ := hrange _ _ hlower.1 hlower.2
    exact hvisible (Nat.le_trans (by decide) hlow) (Nat.le_trans hhigh (by decide))
  · obtain ⟨hlow, hhigh⟩ := hrange _ _ hupper.1 hupper.2
    exact hvisible (Nat.le_trans (by decide) hlow) (Nat.le_trans hhigh (by decide))

theorem trim_ne_nil_of_parseStr {t : Text} {u : Uuid} (h : parseStr t = some u) : trim t ≠ [] := by
  have hhyphen : ∀ {s : Text}, parseHyphenated s = some u → '-' ∈ s := by
    intro s hs
    unfold parseHyphenated at hs
    split_ifs at hs with hat
    exact List.mem_of_getElem? hat.1
  have hdash : isWhitespace '-' = false := by decide
  unfold parseStr at h
  split_ifs at h
  · unfold parseSimple at h
    obtain ⟨ns, hns, -⟩ := Option.bind_eq_some_iff.mp h
    cases t with
    | nil => cases ‹List.length [] = 32›
    | cons c t =>
      obtain ⟨d, hd, -⟩ := Option.bind_eq_some_iff.mp hns
      exact trim_ne_nil_of_mem List.mem_cons_self (visible_of_hexNibble hd)
  · exact trim_ne_nil_of_mem (hhyphen h) hdash
  · exact trim_ne_nil_of_mem (List.mem_of_mem_tail (List.mem_of_mem_dropLast (hhyphen h))) hdash
  · exact trim_ne_nil_of_mem (List.mem_of_mem_drop (hhyphen h)) hdash

end Uuid

end Setfork.Foundation
