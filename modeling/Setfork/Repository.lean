/- Repository
   digest: References of a list, version tags, and the one door through which the core moves main. -/
import Setfork.Foundation.Refs
import Setfork.Foundation.JsonPrint
import Setfork.Authored

set_option autoImplicit false
set_option relaxedAutoImplicit false

namespace Setfork.Repository

open Setfork.Foundation
open Setfork.Foundation.Json (printInt)
open Setfork.TreeRule
open Setfork.Authored

def mainRef : Text := "refs/heads/main".toList

def branchRef (branch : Text) : Text := "refs/heads/".toList ++ branch

def tagRef (name : Text) : Text := "refs/tags/".toList ++ name

def versionTag (version : Int) : Text := 'v' :: printInt version

/-- The version number of a tag name: one `v` and nothing but digits, within 32 bits. -/
def versionOfTag : Text → Option Nat
  | 'v' :: rest =>
    if rest.isEmpty || !rest.all Char.isDigit then none
    else if Nat.ofDigitChars 10 rest 0 ≤ 2147483647 then some (Nat.ofDigitChars 10 rest 0)
    else none
  | _ => none

/-- The version number of a reference among the tags. -/
def tagVersion (ref : Text) : Option Nat := (stripPrefix "refs/tags/".toList ref).bind versionOfTag

def maxTagIn (refs : Refs) : Nat := (refs.keys.filterMap tagVersion).foldl max 0

private theorem stripPrefix_append (s t : Text) : stripPrefix s (s ++ t) = some t := by
  simp [stripPrefix]

theorem tagVersion_tagRef (name : Text) : tagVersion (tagRef name) = versionOfTag name := by
  unfold tagVersion tagRef
  rw [stripPrefix_append]
  rfl

theorem tagVersion_mainRef : tagVersion mainRef = none := by decide

theorem tagRef_ne_mainRef (name : Text) : tagRef name ≠ mainRef := by
  intro h
  have hsixth : (tagRef name)[5]? = some 't' := List.getElem?_append_left (by decide)
  rw [h] at hsixth
  exact absurd hsixth (by decide)

theorem versionTag_injective : Function.Injective versionTag :=
  fun _ _ h => Json.printInt_injective (List.cons.inj h).2

theorem tagRef_injective : Function.Injective tagRef := fun _ _ h => List.append_cancel_left h

/-- The tag of a version reads as its number, or as none. -/
theorem tagVersion_versionTag {n : Int} {k : Nat} (h : tagVersion (tagRef (versionTag n)) = some k) :
    n = k := by
  rw [tagVersion_tagRef] at h
  cases n with
  | ofNat m =>
    simp only [versionTag, printInt, versionOfTag, Nat.ofDigitChars_ten_toDigits] at h
    split_ifs at h
    rw [← Option.some.inj h]
    rfl
  | negSucc m => simp [versionTag, printInt, versionOfTag] at h

/-- Numbers that fit 32 bits have a tag that reads back. -/
theorem tagVersion_of_fits {n : Nat} (hn : n ≤ 2147483647) :
    tagVersion (tagRef (versionTag n)) = some n := by
  have hdigits : (Nat.toDigits 10 n).all Char.isDigit = true := by
    rw [List.all_eq_true]
    exact toDigits_isDigit n
  have hne : Nat.toDigits 10 n ≠ [] := Nat.toDigits_ne_nil
  rw [tagVersion_tagRef]
  simp [versionTag, printInt, versionOfTag, hdigits, hne, hn]

theorem tagVersion_fits {ref : Text} {k : Nat} (h : tagVersion ref = some k) : k ≤ 2147483647 := by
  obtain ⟨name, -, hname⟩ := Option.bind_eq_some_iff.mp h
  unfold versionOfTag at hname
  split at hname
  · split_ifs at hname with hdigits hfits
    rw [← Option.some.inj hname]
    exact hfits
  · cases hname

theorem le_foldl_max (ns : List Nat) (m : Nat) : m ≤ ns.foldl max m ∧ ∀ n ∈ ns, n ≤ ns.foldl max m := by
  induction ns generalizing m with
  | nil => simp
  | cons n ns ih =>
    obtain ⟨hm, hns⟩ := ih (max m n)
    rw [List.foldl_cons]
    refine ⟨by omega, fun k hk => ?_⟩
    rcases List.mem_cons.mp hk with rfl | hk
    · omega
    · exact hns k hk

theorem foldl_max_mem (ns : List Nat) (m : Nat) : ns.foldl max m = m ∨ ns.foldl max m ∈ ns := by
  induction ns generalizing m with
  | nil => exact Or.inl rfl
  | cons n ns ih =>
    rw [List.foldl_cons]
    rcases ih (max m n) with h | h
    · rw [h]
      rcases Nat.le_total m n with hmn | hmn
      · right
        rw [max_eq_right hmn]
        exact List.mem_cons_self
      · left
        exact max_eq_left hmn
    · exact Or.inr (List.mem_cons_of_mem n h)

theorem le_maxTagIn {refs : Refs} {ref : Text} {k : Nat} (href : ref ∈ refs)
    (hk : tagVersion ref = some k) : k ≤ maxTagIn refs :=
  (le_foldl_max _ 0).2 k (List.mem_filterMap.mpr ⟨ref, href, hk⟩)

/-- The highest version number stands on some tag, unless it is zero. -/
theorem maxTagIn_eq (refs : Refs) :
    maxTagIn refs = 0 ∨ ∃ ref ∈ refs, tagVersion ref = some (maxTagIn refs) := by
  rcases foldl_max_mem (refs.keys.filterMap tagVersion) 0 with h | h
  · exact Or.inl h
  · obtain ⟨ref, href, hk⟩ := List.mem_filterMap.mp h
    exact Or.inr ⟨ref, href, hk⟩

theorem maxTagIn_unique {refs : Refs} {m : Nat}
    (hup : ∀ ref ∈ refs, ∀ k, tagVersion ref = some k → k ≤ m)
    (hmem : ∃ ref ∈ refs, tagVersion ref = some m) : maxTagIn refs = m := by
  obtain ⟨ref, href, hm⟩ := hmem
  have hle := le_maxTagIn href hm
  rcases maxTagIn_eq refs with hzero | ⟨top, htop, hmax⟩
  · omega
  · have hge := hup top htop _ hmax
    omega

theorem maxTagIn_congr {refs changed : Refs}
    (hmem : ∀ ref k, tagVersion ref = some k → (ref ∈ changed ↔ ref ∈ refs)) :
    maxTagIn changed = maxTagIn refs := by
  rcases maxTagIn_eq refs with hzero | ⟨top, htop, hmax⟩
  · rcases maxTagIn_eq changed with hzero' | ⟨top, htop, hmax⟩
    · rw [hzero, hzero']
    · have hle := le_maxTagIn ((hmem top _ hmax).mp htop) hmax
      omega
  · apply maxTagIn_unique
    · intro ref href k hk
      exact le_maxTagIn ((hmem ref k hk).mp href) hk
    · exact ⟨top, (hmem top _ hmax).mpr htop, hmax⟩

theorem maxTagIn_insert_main (refs : Refs) (t : Target) :
    maxTagIn (refs.insert mainRef t) = maxTagIn refs := by
  apply maxTagIn_congr
  intro ref k hk
  have hne : ref ≠ mainRef := by
    intro heq
    rw [heq, tagVersion_mainRef] at hk
    cases hk
  rw [AList.mem_insert]
  exact or_iff_right hne

/-- The tag of the next version becomes the highest one. -/
theorem maxTagIn_insert_next {refs : Refs} {n : Nat} (hn : n ≤ 2147483647)
    (hup : maxTagIn refs ≤ n) (t : Target) :
    maxTagIn (refs.insert (tagRef (versionTag n)) t) = n := by
  apply maxTagIn_unique
  · intro ref href k hk
    rcases (AList.mem_insert refs).mp href with rfl | href
    · rw [tagVersion_of_fits hn] at hk
      rw [Option.some.inj hk]
    · have hle := le_maxTagIn href hk
      omega
  · exact ⟨_, (AList.mem_insert refs).mpr (Or.inl rfl), tagVersion_of_fits hn⟩

/-- The directory of a list: not there, there but not opening as a repository, or a repository. -/
inductive Disk where
  | absent
  | unreadable
  | repo (refs : Refs)

def gitError : MainUpdateError := .git []

/-- What forbids a tree on main: no canon, a foreign path, or its authored files. -/
def mainViolation (t : Tree) : Option MainUpdateError :=
  if (t.get "list.json".toList).isNone then some .missingListJson
  else
    match firstForeignPath t with
    | some p => some (((doorPath p).map .foreignPath).getD gitError)
    | none => authoredViolation t

theorem mainViolation_eq_none_iff (t : Tree) : mainViolation t = none ↔
    (t.get "list.json".toList).isSome = true ∧ firstForeignPath t = none ∧
      authoredViolation t = none := by
  unfold mainViolation
  cases t.get "list.json".toList with
  | none => simp
  | some e => cases firstForeignPath t <;> simp

/-- Moves main to a new tip: the rules of the tree, compare-and-swap, and fast-forward only. -/
def updateMain (refs : Refs) (written : Bool) (newTip : Commit) (expectedOld : Option Commit) :
    Except MainUpdateError Refs :=
  match mainViolation newTip.tree with
  | some e => .error e
  | none =>
    if refs.lookup mainRef ≠ expectedOld.map .commit then .error .stale
    else if expectedOld.any (fun old => !decide (newTip.Reaches old)) then .error .nonFastForward
    else if written then .ok (refs.insert mainRef (.commit newTip))
    else .error gitError

theorem updateMain_eq_ok_iff {refs moved : Refs} {written : Bool} {newTip : Commit}
    {expectedOld : Option Commit} : updateMain refs written newTip expectedOld = .ok moved ↔
      mainViolation newTip.tree = none ∧ refs.lookup mainRef = expectedOld.map .commit ∧
      (∀ old ∈ expectedOld, newTip.Reaches old) ∧ written = true ∧
      moved = refs.insert mainRef (.commit newTip) := by
  unfold updateMain
  cases mainViolation newTip.tree with
  | some e => simp
  | none =>
    by_cases hold : refs.lookup mainRef = expectedOld.map .commit
    · by_cases hff : ∀ old ∈ expectedOld, newTip.Reaches old
      · have hany : expectedOld.any (fun old => !decide (newTip.Reaches old)) = false := by
          cases expectedOld with
          | none => rfl
          | some old => simpa using hff old rfl
        have hff' : (∀ old ∈ expectedOld, newTip.Reaches old) ↔ True := iff_true_intro hff
        cases written <;> simp only [hold, hany, hff'] <;> simp [eq_comm]
      · have hany : expectedOld.any (fun old => !decide (newTip.Reaches old)) = true := by
          cases expectedOld with
          | none => simp at hff
          | some old => simpa using hff
        have hff' : (∀ old ∈ expectedOld, newTip.Reaches old) ↔ False := iff_false_intro hff
        simp only [hold, hany, hff']
        simp
    · simp [hold]

end Setfork.Repository
