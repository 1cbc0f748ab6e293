/- RefNames
   digest: Names at both doors: the tags of versions, and the branches the server thinks up. -/
import Mathlib.Tactic.IntervalCases
import Setfork.TagRuns

set_option autoImplicit false
set_option relaxedAutoImplicit false

namespace Setfork.RefNames

open Setfork.Foundation
open Setfork.TreeRule (stripPrefix)
open Setfork.Authored
open Setfork.Repository
open Setfork.History
open Setfork.Push
open Setfork.Received
open Setfork.Branches
open Setfork.Service
open Setfork.TagRuns

/-- The name of a version whose number does not fit 32 bits. -/
def oversized : Text → Bool
  | 'v' :: rest =>
    !rest.isEmpty && rest.all Char.isDigit && decide (2147483647 < Nat.ofDigitChars 10 rest 0)
  | _ => false

private theorem stripPrefix_tagRef (name : Text) :
    stripPrefix "refs/tags/v".toList (tagRef name) = stripPrefix ['v'] name := by
  have hsplit : "refs/tags/v".toList = "refs/tags/".toList ++ ['v'] := by decide
  have hstart : ("refs/tags/".toList ++ ['v']).isPrefixOf ("refs/tags/".toList ++ name) =
      ['v'].isPrefixOf name := by
    rw [Bool.eq_iff_iff, List.isPrefixOf_iff_prefix, List.isPrefixOf_iff_prefix,
      List.prefix_append_right_inj]
  unfold stripPrefix tagRef
  rw [hsplit, hstart, List.length_append, List.drop_append]
  simp

theorem isReservedTag_tagRef (name : Text) :
    isReservedTag (tagRef name) = (isVersionTag name || oversized name) := by
  rw [isReservedTag, stripPrefix_tagRef]
  cases name with
  | nil => rfl
  | cons c rest =>
    by_cases hc : c = 'v'
    · subst hc
      have hstrip : stripPrefix ['v'] ('v' :: rest) = some rest := by simp [stripPrefix]
      rw [hstrip, isVersionTag, versionOfTag, oversized]
      cases hempty : rest.isEmpty with
      | true => simp [hempty]
      | false =>
        cases hdigits : rest.all Char.isDigit with
        | false => simp [hempty, hdigits]
        | true =>
          by_cases hfits : Nat.ofDigitChars 10 rest 0 ≤ 2147483647
          · simp [hempty, hdigits, hfits]
          · have hover : 2147483647 < Nat.ofDigitChars 10 rest 0 := by omega
            simp [hempty, hdigits, hfits, hover]
    · have hstrip : stripPrefix ['v'] (c :: rest) = none := by
        simp [stripPrefix, List.isPrefixOf, Ne.symm hc]
      have hversion : versionOfTag (c :: rest) = none := by
        unfold versionOfTag
        split
        · rename_i heq
          exact absurd (List.cons.inj heq).1 hc
        · rfl
      have hover : oversized (c :: rest) = false := by
        unfold oversized
        split
        · rename_i heq
          exact absurd (List.cons.inj heq).1 hc
        · rfl
      rw [hstrip, isVersionTag, hversion, hover]
      rfl

theorem oversized_not_version {name : Text} (h : oversized name = true) :
    isVersionTag name = false := by
  unfold oversized at h
  split at h
  · rename_i rest
    rw [Bool.and_eq_true, Bool.and_eq_true, Bool.not_eq_true', decide_eq_true_eq] at h
    obtain ⟨⟨hempty, hdigits⟩, hover⟩ := h
    have hfits : ¬ Nat.ofDigitChars 10 rest 0 ≤ 2147483647 := by omega
    simp [isVersionTag, versionOfTag, hempty, hdigits, hfits]
  · cases h

theorem chars_of_isVersionTag {name : Text} (h : isVersionTag name = true) :
    name.head? = some 'v' ∧ ∀ c ∈ name, c = 'v' ∨ c.isDigit = true := by
  unfold isVersionTag versionOfTag at h
  split at h
  · rename_i rest
    refine ⟨rfl, fun c hc => ?_⟩
    by_cases hdigits : rest.all Char.isDigit = true
    · rcases List.mem_cons.mp hc with rfl | hc
      · exact Or.inl rfl
      · exact Or.inr (List.all_eq_true.mp hdigits c hc)
    · simp [hdigits] at h
  · cases h

private theorem plain_of_version_char {c : Char} (h : c = 'v' ∨ c.isDigit = true) :
    (isWhitespace c || isControl c || "~^:?*[]\\".toList.contains c) = false := by
  rcases h with rfl | h
  · decide
  · obtain ⟨hlow, hhigh⟩ : 48 ≤ c.toNat ∧ c.toNat ≤ 57 := by
      simpa [Char.isDigit, UInt32.le_iff_toNat_le] using h
    have hchar : c = Char.ofNat c.toNat := (Char.ofNat_toNat c).symm
    generalize c.toNat = n at hlow hhigh hchar
    subst hchar
    interval_cases n <;> decide

theorem validTag_of_isVersionTag {name : Text} (h : isVersionTag name = true) :
    validTag name = true := by
  obtain ⟨hhead, hchars⟩ := chars_of_isVersionTag h
  have hout : ∀ c : Char, c ≠ 'v' → c.isDigit = false → c ∉ name := by
    intro c hv hdigit hmem
    rcases hchars c hmem with heq | heq
    · exact hv heq
    · rw [hdigit] at heq
      cases heq
  have hinfix : ∀ bad : Text, ∀ c ∈ bad, c ≠ 'v' → c.isDigit = false → ¬ bad <:+: name :=
    fun bad c hc hv hdigit hbad => hout c hv hdigit (hbad.subset hc)
  have hlast : ∀ c : Char, c ≠ 'v' → c.isDigit = false → name.getLast? ≠ some c :=
    fun c hv hdigit hc => hout c hv hdigit (List.mem_of_getLast? hc)
  have hempty : name.isEmpty = false := by
    cases name with
    | nil => cases hhead
    | cons c cs => rfl
  have hplain : name.any (fun c => isWhitespace c || isControl c ||
      "~^:?*[]\\".toList.contains c) = false := by
    rw [List.any_eq_false]
    intro c hc hbad
    rw [plain_of_version_char (hchars c hc)] at hbad
    cases hbad
  have hdots := hinfix "..".toList '.' (by decide) (by decide) (by decide)
  have hslashes := hinfix "//".toList '/' (by decide) (by decide) (by decide)
  have hat := hinfix "@\x7b".toList '@' (by decide) (by decide) (by decide)
  have hdot := hlast '.' (by decide) (by decide)
  have hslash := hlast '/' (by decide) (by decide)
  rw [validTag, hempty, hhead, hplain]
  simp only [hdots, hslashes, hat, decide_false, Bool.not_false, Bool.and_true, Bool.and_eq_true,
    bne_iff_ne, ne_eq]
  exact ⟨⟨⟨by decide, by decide⟩, hslash⟩, hdot⟩

section Doors

variable {env : HookEnv} {name : Text}

theorem createTag_reserved_iff (written : Bool) (refs : Refs) (name : Text) (version : Int) :
    createTag written refs name version = .error .reservedTagName ↔ isVersionTag name = true := by
  constructor
  · intro h
    by_contra hfree
    rw [Bool.not_eq_true] at hfree
    cases htag : refs.lookup (tagRef (versionTag version)) with
    | none =>
      simp only [createTag, hfree, htag, Bool.false_eq_true, if_false] at h
      split_ifs at h <;> cases h
    | some t =>
      simp only [createTag, hfree, htag, Bool.false_eq_true, if_false] at h
      split_ifs at h <;> cases h
  · intro h
    simp [createTag, validTag_of_isVersionTag h, h]

theorem tagRef_not_magic (name : Text) : isMagic (tagRef name) = false := by
  rw [isMagic, ← Bool.not_eq_true, List.isPrefixOf_iff_prefix]
  intro h
  have hstart : "refs/tags/".toList <+: tagRef name := List.prefix_append _ _
  exact absurd (List.prefix_of_prefix_length_le h hstart (by decide)) (by decide)

theorem nameRefusal_reserved_iff (hrole : isRestricted env.role = false) (old new : Option Target)
    (name : Text) :
    nameRefusal env ⟨old, new, tagRef name⟩ = some (.reservedTagName (tagRef name)) ↔
      isReservedTag (tagRef name) = true := by
  have hmain := tagRef_ne_mainRef name
  cases hreserved : isReservedTag (tagRef name) with
  | true => simp [nameRefusal, hrole, tagRef_not_magic, hreserved]
  | false => simp [nameRefusal, hrole, tagRef_not_magic, hreserved, hmain]

end Doors

/-- What an operation of a client makes of the references before the core projects anything: the
tag of a release, or the updates of a push with its magic references. -/
def clientMoves (lib : GitLibrary) : Op → Refs → Refs
  | .createTag written name version, refs =>
    match createTag written refs name version with
    | .error _ => refs
    | .ok changed => changed
  | .push f env commands, refs =>
    let after := received lib f.applied env refs commands
    if f.answered then (takeMagicPushes f.magic env.actor refs after).1 else after
  | _, refs => refs

theorem beside_clientMoves (lib : GitLibrary) (op : Op) (refs : Refs) :
    Beside refs (clientMoves lib op refs) := by
  cases op with
  | createTag written name version =>
    cases h : createTag written refs name version with
    | error e =>
      simp only [clientMoves, h]
      exact .refl refs
    | ok changed =>
      simp only [clientMoves, h]
      exact beside_createTag h
  | push f env commands =>
    simp only [clientMoves]
    split_ifs
    · exact beside_received f.applied f.magic env refs commands
    · exact ⟨fun _ href => lookup_received_of_tag f.applied env refs commands href,
        main_received f.applied env refs commands⟩
  | _ => exact .refl refs

/-- Both doors reserve the same name exactly when its number fits; and in every run no client
creates, moves or deletes the tag of a version. -/
theorem version_names_reserved_iff (core : Core) (lib : GitLibrary) (env : HookEnv)
    (hrole : isRestricted env.role = false) :
    (∀ (name : Text) (written : Bool) (refs : Refs) (version : Int) (old new : Option Target),
      ((createTag written refs name version = .error .reservedTagName ↔
        nameRefusal env ⟨old, new, tagRef name⟩ = some (.reservedTagName (tagRef name))) ↔
      oversized name = false)) ∧
    ∀ (ops : List Op) (start : State) (i : Nat) (h : i < ops.length) (refs : Refs),
      (run core lib (ops.take i) start).disk = .repo refs →
      ∀ name, (versionOfTag name).isSome = true →
        (clientMoves lib ops[i] refs).lookup (tagRef name) = refs.lookup (tagRef name) := by
  constructor
  · intro name written refs version old new
    rw [createTag_reserved_iff, nameRefusal_reserved_iff hrole, isReservedTag_tagRef]
    cases hover : oversized name with
    | false => simp
    | true => simp [oversized_not_version hover]
  · intro ops start i h refs _ name hversion
    apply (beside_clientMoves lib ops[i] refs).tags
    rw [tagVersion_tagRef]
    exact hversion

theorem version_names_reserved_owner :
    isRestricted ownerEnv.role = false ∧
    ((createTag true ∅ "v7".toList 7 = .error .reservedTagName ↔
        nameRefusal ownerEnv ⟨none, none, tagRef "v7".toList⟩ =
          some (.reservedTagName (tagRef "v7".toList))) ↔
      oversized "v7".toList = false) := by
  have hrole : isRestricted ownerEnv.role = false := by decide
  exact ⟨hrole, (version_names_reserved_iff canonCore plainLibrary ownerEnv hrole).1 "v7".toList
    true ∅ 7 none none⟩

/-- The service lets a release take a name that the hook reserves. -/
theorem eleven_digits_reserved_by_the_hook_only :
    createTag true ∅ "v99999999999".toList 1 ≠ .error .reservedTagName ∧
      nameRefusal ownerEnv ⟨none, none, tagRef "v99999999999".toList⟩ =
        some (.reservedTagName (tagRef "v99999999999".toList)) := by
  rw [ne_eq, createTag_reserved_iff, nameRefusal_reserved_iff (by decide)]
  decide

end Setfork.RefNames
