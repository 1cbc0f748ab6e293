/- Foundation: text and bytes
   digest: Character lists, their UTF-8 bytes, and trimming of Unicode white space. -/
import Mathlib.Data.List.DropRight
import Mathlib.Data.UInt
import Mathlib.Tactic.IntervalCases

set_option autoImplicit false
set_option relaxedAutoImplicit false

namespace Setfork.Foundation

/-- A text is its list of Unicode scalar values. -/
abbrev Text := List Char

abbrev Bytes := List UInt8

/-- The UTF-8 encoding of a text. -/
def utf8 (t : Text) : Bytes := t.flatMap String.utf8EncodeChar

@[simp] theorem utf8_nil : utf8 [] = [] := rfl

theorem utf8_cons (c : Char) (t : Text) : utf8 (c :: t) = String.utf8EncodeChar c ++ utf8 t := by
  simp [utf8]

theorem utf8_append (s t : Text) : utf8 (s ++ t) = utf8 s ++ utf8 t := by
  simp [utf8]

def fromUtf8 (b : Bytes) : Option Text := b.toByteArray.utf8Decode?.map Array.toList

private theorem toByteArray_utf8 (t : Text) : (utf8 t).toByteArray = t.utf8Encode := by
  simp [utf8, List.utf8Encode]

theorem fromUtf8_utf8 (t : Text) : fromUtf8 (utf8 t) = some t := by
  rw [fromUtf8, toByteArray_utf8, List.utf8Decode?_utf8Encode]
  rfl

theorem utf8_of_fromUtf8 {b : Bytes} {t : Text} (h : fromUtf8 b = some t) : utf8 t = b := by
  simp only [fromUtf8, Option.map_eq_some_iff] at h
  obtain ⟨a, ha, rfl⟩ := h
  have hget := @ByteArray.utf8Encode_get_utf8Decode? b.toByteArray (by rw [ha]; rfl)
  simp only [ha, Option.get_some] at hget
  rw [← toByteArray_utf8] at hget
  have hdata := congrArg (fun x => x.data.toList) hget
  simpa only [List.toList_data_toByteArray] using hdata

theorem utf8_injective : Function.Injective utf8 := by
  intro s t h
  have hread := congrArg fromUtf8 h
  rw [fromUtf8_utf8, fromUtf8_utf8] at hread
  exact Option.some.inj hread

theorem utf8EncodeChar_ascii {c : Char} (hc : c.toNat < 128) :
    String.utf8EncodeChar c = [UInt8.ofNat c.toNat] := by
  have hle : c.val.toNat ≤ 0x7f := Nat.le_of_lt_succ hc
  simp only [String.utf8EncodeChar, hle, if_true]
  rfl

theorem utf8EncodeChar_high {c : Char} (hc : 128 ≤ c.toNat) :
    ∀ b ∈ String.utf8EncodeChar c, 128 ≤ b.toNat := by
  have hgt : ¬ c.val.toNat ≤ 0x7f := by
    have : 128 ≤ c.val.toNat := hc
    omega
  intro b hb
  simp only [String.utf8EncodeChar, hgt, if_false] at hb
  split_ifs at hb
  all_goals
    simp only [List.mem_cons, List.not_mem_nil, or_false] at hb
    rcases hb with rfl | rfl | rfl | rfl
  all_goals
    simp only [UInt8.toNat_ofNat']
    omega

theorem toNat_ascii {c : Char} (hc : c.toNat < 128) : (UInt8.ofNat c.toNat).toNat = c.toNat := by
  rw [UInt8.toNat_ofNat']
  omega

theorem ascii_byte_injective {c d : Char} (hc : c.toNat < 128) (hd : d.toNat < 128)
    (h : UInt8.ofNat c.toNat = UInt8.ofNat d.toNat) : c = d := by
  have heq := congrArg UInt8.toNat h
  rw [toNat_ascii hc, toNat_ascii hd] at heq
  exact Char.toNat_inj.mp heq

/-- An ASCII byte stands in an encoding exactly where its character stands in the text. -/
theorem mem_utf8_ascii {c : Char} (hc : c.toNat < 128) (t : Text) :
    UInt8.ofNat c.toNat ∈ utf8 t ↔ c ∈ t := by
  simp only [utf8, List.mem_flatMap]
  constructor
  · rintro ⟨d, hd, hmem⟩
    by_cases hdc : d.toNat < 128
    · rw [utf8EncodeChar_ascii hdc, List.mem_singleton] at hmem
      rwa [ascii_byte_injective hc hdc hmem]
    · have hhigh := utf8EncodeChar_high (by omega) _ hmem
      rw [toNat_ascii hc] at hhigh
      omega
  · intro hmem
    exact ⟨c, hmem, by rw [utf8EncodeChar_ascii hc]; exact List.mem_singleton_self _⟩

def IsAscii (t : Text) : Prop := ∀ c ∈ t, c.toNat < 128

instance (t : Text) : Decidable (IsAscii t) :=
  decidable_of_iff (t.all (fun c => decide (c.toNat < 128)) = true) (by simp [IsAscii])

private theorem utf8_snoc {c : Char} {t : Text} {x : Bytes} (hc : c.toNat < 128)
    (h : utf8 t = x ++ [UInt8.ofNat c.toNat]) : ∃ s, t = s ++ [c] ∧ utf8 s = x := by
  induction t using List.reverseRecOn with
  | nil => simp at h
  | append_singleton t d _ =>
    rw [utf8_append, utf8_cons, utf8_nil, List.append_nil] at h
    by_cases hd : d.toNat < 128
    · rw [utf8EncodeChar_ascii hd] at h
      obtain ⟨ht, hlast⟩ := List.append_inj' h rfl
      obtain rfl := ascii_byte_injective hd hc (List.cons.inj hlast).1
      exact ⟨t, rfl, ht⟩
    · have hhigh := utf8EncodeChar_high (c := d) (by omega)
      have hne : String.utf8EncodeChar d ≠ [] := String.utf8EncodeChar_ne_nil
      have hlast := congrArg List.getLast? h
      rw [List.getLast?_append_of_ne_nil _ hne, List.getLast?_concat,
        List.getLast?_eq_some_getLast hne] at hlast
      have hmem := hhigh _ (List.getLast_mem hne)
      rw [Option.some.inj hlast, toNat_ascii hc] at hmem
      omega

theorem utf8_suffix {p t : Text} {x : Bytes} (hp : IsAscii p) (h : utf8 t = x ++ utf8 p) :
    ∃ s, t = s ++ p ∧ utf8 s = x := by
  induction p using List.reverseRecOn generalizing t with
  | nil => exact ⟨t, by simp, by simpa using h⟩
  | append_singleton p c ih =>
    have hc : c.toNat < 128 := hp c (by simp)
    rw [utf8_append, utf8_cons, utf8EncodeChar_ascii hc, utf8_nil, List.append_nil,
      ← List.append_assoc] at h
    obtain ⟨s, rfl, hs⟩ := utf8_snoc hc h
    obtain ⟨u, rfl, hu⟩ := ih (fun e he => hp e (List.mem_append_left _ he)) hs
    exact ⟨u, by simp, hu⟩

def isWhitespace (c : Char) : Bool :=
  let n := c.toNat
  (9 ≤ n && n ≤ 13) || n == 0x20 || n == 0x85 || n == 0xa0 || n == 0x1680 ||
    (0x2000 ≤ n && n ≤ 0x200a) || n == 0x2028 || n == 0x2029 || n == 0x202f ||
    n == 0x205f || n == 0x3000

def trim (t : Text) : Text := (t.dropWhile isWhitespace).rdropWhile isWhitespace

@[simp] theorem trim_nil : trim [] = [] := rfl

private theorem dropWhile_rdropWhile_comm (p : Char → Bool) (t : Text)
    (ht : t.dropWhile p = t) : (t.rdropWhile p).dropWhile p = t.rdropWhile p := by
  cases t with
  | nil => rfl
  | cons c t =>
    have hc : ¬ p c := by
      intro hp
      rw [List.dropWhile_cons_of_pos hp] at ht
      have := congrArg List.length ht
      have := List.length_dropWhile_le p t
      simp only [List.length_cons] at *
      omega
    obtain ⟨s, hs⟩ := List.rdropWhile_prefix p (c :: t)
    cases hr : (c :: t).rdropWhile p with
    | nil => rfl
    | cons d r =>
      rw [hr] at hs
      simp only [List.cons_append, List.cons.injEq] at hs
      rw [List.dropWhile_cons_of_neg (by rw [hs.1]; exact hc)]

theorem trim_trim (t : Text) : trim (trim t) = trim t := by
  unfold trim
  rw [dropWhile_rdropWhile_comm _ _ (List.dropWhile_idempotent _ t), List.rdropWhile_idempotent]

def Trimmed (t : Text) : Prop := trim t = t

instance (t : Text) : Decidable (Trimmed t) := inferInstanceAs (Decidable (_ = _))

theorem trimmed_trim (t : Text) : Trimmed (trim t) := trim_trim t

@[simp] theorem trimmed_nil : Trimmed [] := rfl

theorem trimmed_of_no_whitespace {t : Text} (ht : ∀ c ∈ t, isWhitespace c = false) : Trimmed t := by
  have hfront : t.dropWhile isWhitespace = t := by
    rw [List.dropWhile_eq_self_iff]
    intro hlen
    simp [ht _ (List.getElem_mem hlen)]
  rw [Trimmed, trim, hfront, List.rdropWhile_eq_self_iff]
  intro hne
  simp [ht _ (List.getLast_mem hne)]

/-- Something is left of a text that has anything but white space. -/
theorem trim_ne_nil_of_mem {t : Text} {c : Char} (hc : c ∈ t) (hvisible : isWhitespace c = false) :
    trim t ≠ [] := by
  intro hnil
  rw [trim, List.rdropWhile_eq_nil_iff] at hnil
  rw [← List.takeWhile_append_dropWhile (p := isWhitespace) (l := t)] at hc
  have hwhite : isWhitespace c = true := by
    rcases List.mem_append.mp hc with hc | hc
    · exact List.mem_takeWhile_imp hc
    · exact hnil c hc
  rw [hvisible] at hwhite
  cases hwhite

theorem toDigits_isDigit (n : Nat) : ∀ c ∈ Nat.toDigits 10 n, c.isDigit := by
  intro c hc
  exact Nat.isDigit_of_mem_toDigits (by omega) (by omega) hc

theorem toDigits_injective {m n : Nat} (h : Nat.toDigits 10 m = Nat.toDigits 10 n) : m = n := by
  rw [← @Nat.ofDigitChars_ten_toDigits m, h, Nat.ofDigitChars_ten_toDigits]

theorem digitChar_of_isDigit {c : Char} (h : c.isDigit = true) :
    c.toNat - 48 < 10 ∧ (c.toNat - 48).digitChar = c := by
  obtain ⟨hlow, hhigh⟩ : 48 ≤ c.toNat ∧ c.toNat ≤ 57 := by
    simpa [Char.isDigit, UInt32.le_iff_toNat_le] using h
  have hchar : Char.ofNat c.toNat = c := Char.ofNat_toNat c
  refine ⟨by omega, ?_⟩
  generalize c.toNat = n at hlow hhigh hchar
  rw [← hchar]
  interval_cases n <;> rfl

theorem eq_zeros_toDigits {ds : Text} (hne : ds ≠ []) (hdigits : ∀ c ∈ ds, c.isDigit = true) :
    ∃ k, ds = List.replicate k '0' ++ Nat.toDigits 10 (Nat.ofDigitChars 10 ds 0) := by
  induction ds using List.reverseRecOn with
  | nil => exact absurd rfl hne
  | append_singleton ds d ih =>
    obtain ⟨hlt, hdigit⟩ := digitChar_of_isDigit (hdigits d (by simp))
    have hlast : Nat.toDigits 10 (d.toNat - 48) = [d] := by
      rw [Nat.toDigits_of_lt_base hlt, hdigit]
    have hvalue : Nat.ofDigitChars 10 (ds ++ [d]) 0 =
        10 * Nat.ofDigitChars 10 ds 0 + (d.toNat - 48) := by
      rw [Nat.ofDigitChars_append, Nat.ofDigitChars_cons, Nat.ofDigitChars_nil]
      rfl
    rw [hvalue]
    by_cases hempty : ds = []
    · subst hempty
      refine ⟨0, ?_⟩
      simp [hlast]
    · obtain ⟨k, hk⟩ := ih hempty fun c hc => hdigits c (List.mem_append_left _ hc)
      rcases Nat.eq_zero_or_pos (Nat.ofDigitChars 10 ds 0) with hzero | hpos
      · refine ⟨k + 1, ?_⟩
        rw [hzero, Nat.toDigits_zero] at hk
        rw [hzero, Nat.mul_zero, Nat.zero_add, hlast, List.replicate_succ', ← hk]
      · refine ⟨k, ?_⟩
        rw [← Nat.toDigits_append_toDigits (by omega) hpos hlt, hlast, ← List.append_assoc, ← hk]
def firstChar (b : Bytes) : Option (Char × Nat) :=
  [1, 2, 3, 4].findSome? (fun n =>
    match fromUtf8 (b.take n) with
    | some [c] => some (c, n)
    | _ => none)

def continuesLead (lead second : UInt8) : Bool :=
  let b := second.toNat
  match lead.toNat with
  | 0xe0 => 0xa0 ≤ b && b ≤ 0xbf
  | 0xed => 0x80 ≤ b && b ≤ 0x9f
  | 0xf0 => 0x90 ≤ b && b ≤ 0xbf
  | 0xf4 => 0x80 ≤ b && b ≤ 0x8f
  | n => 0xe1 ≤ n && n ≤ 0xf3 && 0x80 ≤ b && b ≤ 0xbf

/-- How many bytes one replacement character stands for: the longest start of a character. -/
def brokenLength : Bytes → Nat
  | lead :: second :: third :: _ =>
    if !continuesLead lead second then 1
    else if 0xf0 ≤ lead.toNat && 0x80 ≤ third.toNat && third.toNat ≤ 0xbf then 3 else 2
  | [lead, second] => if continuesLead lead second then 2 else 1
  | _ => 1

def lossyFuel : Nat → Bytes → Text
  | 0, _ => []
  | _, [] => []
  | fuel + 1, b =>
    match firstChar b with
    | some (c, n) => c :: lossyFuel fuel (b.drop n)
    | none => Char.ofNat 0xfffd :: lossyFuel fuel (b.drop (brokenLength b))

def fromUtf8Lossy (b : Bytes) : Text := lossyFuel b.length b

end Setfork.Foundation
