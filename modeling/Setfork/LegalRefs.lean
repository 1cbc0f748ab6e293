/- LegalRefs
   digest: The names both doors accept against the rules git has for the names of references. -/
import Setfork.Branches
import Setfork.Foundation.Lines

set_option autoImplicit false
set_option relaxedAutoImplicit false

namespace Setfork.LegalRefs

open Setfork.Foundation
open Setfork.Authored (isControl)
open Setfork.Repository
open Setfork.Branches

/-- No component starts with a dot or ends like a lock. -/
def legalComponent (component : Text) : Bool :=
  component.head? != some '.' && !decide (".lock".toList <:+ component)

theorem legalComponent_iff {component : Text} : legalComponent component = true ↔
    ¬ (component.head? = some '.' ∨ ".lock".toList <:+ component) := by
  rw [legalComponent, Bool.and_eq_true, bne_iff_ne, Bool.not_eq_true', decide_eq_false_iff_not,
    not_or]

/-- Control characters of ASCII, the space, and what revisions and patterns are written with. -/
def forbidden (c : Char) : Bool :=
  c.toNat < 0x20 || c.toNat == 0x7f || " ~^:?*[\\".toList.contains c

/-- What `git check-ref-format` asks of the name of a reference, rule by rule. -/
def legalRef (ref : Text) : Bool :=
  (ref.splitOn '/').all legalComponent && ref.contains '/' && !decide ("..".toList <:+: ref) &&
    !ref.any forbidden && ref.head? != some '/' && ref.getLast? != some '/' &&
    !decide ("//".toList <:+: ref) && ref.getLast? != some '.' &&
    !decide ("@\x7b".toList <:+: ref) && ref != ['@']

structure LegalName (name : Text) : Prop where
  components : ∀ component ∈ name.splitOn '/', legalComponent component = true
  dots : ¬ "..".toList <:+: name
  chars : ∀ c ∈ name, forbidden c = false
  head : name.head? ≠ some '/'
  slash : name.getLast? ≠ some '/'
  slashes : ¬ "//".toList <:+: name
  last : name.getLast? ≠ some '.'
  braces : ¬ "@\x7b".toList <:+: name

theorem legalRef_iff {ref : Text} :
    legalRef ref = true ↔ LegalName ref ∧ '/' ∈ ref ∧ ref ≠ ['@'] := by
  simp only [legalRef, Bool.and_eq_true, List.all_eq_true, Bool.not_eq_true', List.any_eq_false,
    decide_eq_false_iff_not, bne_iff_ne, List.contains_iff_mem, Bool.not_eq_true]
  constructor
  · intro h
    obtain ⟨⟨⟨⟨⟨⟨⟨⟨⟨hcomponents, hin⟩, hdots⟩, hchars⟩, hhead⟩, hslash⟩, hslashes⟩, hlast⟩,
      hbraces⟩, hat⟩ := h
    exact ⟨⟨hcomponents, hdots, hchars, hhead, hslash, hslashes, hlast, hbraces⟩, hin, hat⟩
  · intro h
    obtain ⟨⟨hcomponents, hdots, hchars, hhead, hslash, hslashes, hlast, hbraces⟩, hin, hat⟩ := h
    exact ⟨⟨⟨⟨⟨⟨⟨⟨⟨hcomponents, hin⟩, hdots⟩, hchars⟩, hhead⟩, hslash⟩, hslashes⟩, hlast⟩,
      hbraces⟩, hat⟩

private theorem pair_infix_under {x y : Char} {dir name : Text} (hx : x ≠ '/') (hy : y ≠ '/') :
    [x, y] <:+: dir ++ '/' :: name ↔ [x, y] <:+: dir ∨ [x, y] <:+: name := by
  have hback : [x, y] <:+: '/' :: name ↔ [x, y] <:+: name := by
    have hsplit := @Lines.pair_infix_append Char x y ['/'] name
    have hslash : ¬ [x, y] <:+: ['/'] := fun h => hx (List.mem_singleton.mp (h.subset (by simp)))
    rw [List.singleton_append] at hsplit
    simp [hsplit, hslash, Ne.symm hx]
  rw [Lines.pair_infix_append, hback]
  simp [Ne.symm hy]

private theorem slashes_under {dir name : Text} :
    "//".toList <:+: dir ++ '/' :: name ↔
      "//".toList <:+: dir ∨ "//".toList <:+: name ∨ dir.getLast? = some '/' ∨
        name.head? = some '/' := by
  have hpair : "//".toList = ['/', '/'] := rfl
  have hback : ['/', '/'] <:+: '/' :: name ↔ ['/', '/'] <:+: name ∨ name.head? = some '/' := by
    have hsplit := @Lines.pair_infix_append Char '/' '/' ['/'] name
    have hslash : ¬ ['/', '/'] <:+: ['/'] := fun h => absurd h.length_le (by simp)
    rw [List.singleton_append] at hsplit
    simp [hsplit, hslash]
  rw [hpair, Lines.pair_infix_append, hback]
  simp only [List.head?_cons, and_true]
  tauto

theorem legalName_under {dir name : Text} (hdir : LegalName dir) (hne : dir ≠ [])
    (hname : name ≠ []) : LegalName (dir ++ '/' :: name) ↔ LegalName name := by
  obtain ⟨d, ds, rfl⟩ := List.exists_cons_of_ne_nil hne
  obtain ⟨c, cs, rfl⟩ := List.exists_cons_of_ne_nil hname
  have hends : (d :: ds ++ '/' :: c :: cs).getLast? = (c :: cs).getLast? := by
    rw [List.getLast?_append_of_ne_nil _ (List.cons_ne_nil _ _), List.getLast?_cons_cons]
  have hsplit : ∀ component, component ∈ (d :: ds ++ '/' :: c :: cs).splitOn '/' ↔
      component ∈ (d :: ds).splitOn '/' ∨ component ∈ (c :: cs).splitOn '/' := by
    intro component
    rw [List.splitOn_append_cons_self, List.mem_append]
  have hdots : "..".toList <:+: d :: ds ++ '/' :: c :: cs ↔
      "..".toList <:+: d :: ds ∨ "..".toList <:+: c :: cs :=
    pair_infix_under (by decide) (by decide)
  have hbraces : "@\x7b".toList <:+: d :: ds ++ '/' :: c :: cs ↔
      "@\x7b".toList <:+: d :: ds ∨ "@\x7b".toList <:+: c :: cs :=
    pair_infix_under (by decide) (by decide)
  have hslash : forbidden '/' = false := by decide
  constructor
  · intro h
    exact {
      components := fun component hc => h.components component ((hsplit component).mpr (Or.inr hc))
      dots := fun hin => h.dots (hdots.mpr (Or.inr hin))
      chars := fun x hx => h.chars x (List.mem_append_right _ (List.mem_cons_of_mem _ hx))
      head := fun hhead => h.slashes (slashes_under.mpr (Or.inr (Or.inr (Or.inr hhead))))
      slash := by rw [← hends]; exact h.slash
      slashes := fun hin => h.slashes (slashes_under.mpr (Or.inr (Or.inl hin)))
      last := by rw [← hends]; exact h.last
      braces := fun hin => h.braces (hbraces.mpr (Or.inr hin)) }
  · intro h
    exact {
      components := by
        intro component hc
        rcases (hsplit component).mp hc with hc | hc
        · exact hdir.components component hc
        · exact h.components component hc
      dots := by
        intro hin
        rcases hdots.mp hin with hin | hin
        · exact hdir.dots hin
        · exact h.dots hin
      chars := by
        intro x hx
        rcases List.mem_append.mp hx with hx | hx
        · exact hdir.chars x hx
        · rcases List.mem_cons.mp hx with rfl | hx
          · exact hslash
          · exact h.chars x hx
      head := hdir.head
      slash := by rw [hends]; exact h.slash
      slashes := by
        intro hin
        rcases slashes_under.mp hin with hin | hin | hin | hin
        · exact hdir.slashes hin
        · exact h.slashes hin
        · exact hdir.slash hin
        · exact h.head hin
      last := by rw [hends]; exact h.last
      braces := by
        intro hin
        rcases hbraces.mp hin with hin | hin
        · exact hdir.braces hin
        · exact h.braces hin }

theorem legalRef_under {dir name : Text} (hdir : LegalName dir) (hne : dir ≠ [])
    (hname : name ≠ []) : legalRef (dir ++ '/' :: name) = true ↔ LegalName name := by
  rw [legalRef_iff, legalName_under hdir hne hname, and_iff_left]
  refine ⟨by simp, fun h => ?_⟩
  have hlength := congrArg List.length h
  rw [List.length_append, List.length_cons, List.length_singleton] at hlength
  have hpos := List.length_pos_iff.mpr hne
  omega

theorem legalRef_branchRef {name : Text} (hname : name ≠ []) :
    legalRef (branchRef name) = true ↔ LegalName name := by
  have hdir : "refs/heads/".toList = "refs/heads".toList ++ ['/'] := by decide +kernel
  have hlegal : legalRef "refs/heads".toList = true := by decide +kernel
  have hne : "refs/heads".toList ≠ [] := by decide +kernel
  have hunder : branchRef name = "refs/heads".toList ++ '/' :: name := by
    unfold branchRef
    rw [hdir, List.append_assoc, List.singleton_append]
  rw [hunder]
  exact legalRef_under (legalRef_iff.mp hlegal).1 hne hname

theorem legalRef_tagRef {name : Text} (hname : name ≠ []) :
    legalRef (tagRef name) = true ↔ LegalName name := by
  have hdir : "refs/tags/".toList = "refs/tags".toList ++ ['/'] := by decide +kernel
  have hlegal : legalRef "refs/tags".toList = true := by decide +kernel
  have hne : "refs/tags".toList ≠ [] := by decide +kernel
  have hunder : tagRef name = "refs/tags".toList ++ '/' :: name := by
    unfold tagRef
    rw [hdir, List.append_assoc, List.singleton_append]
  rw [hunder]
  exact legalRef_under (legalRef_iff.mp hlegal).1 hne hname

/-- A branch whose name git refuses though its characters are plain. -/
def DottedBranch (name : Text) : Prop :=
  name.head? = some '.' ∨ name.getLast? = some '.' ∨ ".lock".toList <:+ name

theorem mem_of_forbidden {c : Char} (h : forbidden c = true) :
    isControl c = true ∨ c ∈ " ~^:?*[\\".toList := by
  simp only [forbidden, Bool.or_eq_true, decide_eq_true_eq, beq_iff_eq,
    List.contains_iff_mem] at h
  rcases h with (hlow | hdel) | hmem
  · exact Or.inl (by simp [isControl, hlow])
  · exact Or.inl (by simp [isControl, hdel])
  · exact Or.inr hmem

private theorem toNat_of_branch_char {c : Char}
    (h : (c.isAlphanum || c == '-' || c == '_' || c == '.') = true) :
    45 ≤ c.toNat ∧ c.toNat ≤ 122 := by
  have hletter : c.isAlpha = (c.isUpper || c.isLower) := rfl
  have hupper : c.isUpper = decide (65 ≤ c.val ∧ c.val ≤ 90) := rfl
  have hlower : c.isLower = (decide (97 ≤ c.val) && decide (c.val ≤ 122)) := rfl
  simp only [Char.isAlphanum, hletter, hupper, hlower, Char.isDigit, Bool.or_eq_true,
    Bool.and_eq_true, decide_eq_true_eq, beq_iff_eq, ge_iff_le, UInt32.le_iff_toNat_le] at h
  rcases h with ((((⟨hlow, hhigh⟩ | ⟨hlow, hhigh⟩) | ⟨hlow, hhigh⟩) | rfl) | rfl) | rfl
  · exact ⟨(show 45 ≤ 65 by decide).trans hlow, hhigh.trans (show 90 ≤ 122 by decide)⟩
  · exact ⟨(show 45 ≤ 97 by decide).trans hlow, hhigh⟩
  · exact ⟨(show 45 ≤ 48 by decide).trans hlow, hhigh.trans (show 57 ≤ 122 by decide)⟩
  all_goals decide

theorem plain_of_branch_char {c : Char}
    (h : (c.isAlphanum || c == '-' || c == '_' || c == '.') = true) :
    forbidden c = false ∧ c ≠ '/' ∧ c ≠ '@' := by
  have hnone : ('/' :: '@' :: " ~^:?*[\\".toList).all
      (fun d => !(d.isAlphanum || d == '-' || d == '_' || d == '.')) = true := by decide
  have hplain : ∀ d ∈ '/' :: '@' :: " ~^:?*[\\".toList, c ≠ d := by
    intro d hd heq
    have hd' := List.all_eq_true.mp hnone d hd
    rw [← heq, h] at hd'
    cases hd'
  refine ⟨?_, hplain _ (by simp), hplain _ (by simp)⟩
  obtain ⟨hlow, hhigh⟩ := toNat_of_branch_char h
  by_contra hbad
  rcases mem_of_forbidden (by simpa using hbad) with hcontrol | hmem
  · simp only [isControl, Bool.or_eq_true, Bool.and_eq_true, decide_eq_true_eq] at hcontrol
    omega
  · exact hplain c (List.mem_cons_of_mem _ (List.mem_cons_of_mem _ hmem)) rfl

theorem validBranch_iff {name : Text} :
    validBranch name = true ↔ name ≠ [] ∧ name.head? ≠ some '-' ∧
      (∀ c ∈ name, (c.isAlphanum || c == '-' || c == '_' || c == '.') = true) ∧
      ¬ "..".toList <:+: name := by
  simp only [validBranch, Bool.and_eq_true, Bool.not_eq_true', List.isEmpty_eq_false_iff,
    bne_iff_ne, List.all_eq_true, decide_eq_false_iff_not, and_assoc]

theorem legal_branch_iff {name : Text} (h : validBranch name = true) :
    legalRef (branchRef name) = true ↔ ¬ DottedBranch name := by
  obtain ⟨hne, -, hchars, hdots⟩ := validBranch_iff.mp h
  have hout : ∀ c, forbidden c = true ∨ c = '/' ∨ c = '@' → c ∉ name := by
    intro c hc hmem
    obtain ⟨hplain, hslash, hat⟩ := plain_of_branch_char (hchars c hmem)
    rcases hc with hc | hc | hc
    · rw [hplain] at hc
      cases hc
    · exact hslash hc
    · exact hat hc
  have hslash : '/' ∉ name := hout _ (Or.inr (Or.inl rfl))
  have hone : name.splitOn '/' = [name] := List.splitOn_eq_singleton hslash
  rw [legalRef_branchRef hne]
  unfold DottedBranch
  constructor
  · intro hlegal hdotted
    have hcomponent := hlegal.components name (by rw [hone]; simp)
    rw [legalComponent_iff] at hcomponent
    rcases hdotted with hfirst | hlast | hlock
    · exact hcomponent (Or.inl hfirst)
    · exact hlegal.last hlast
    · exact hcomponent (Or.inr hlock)
  · intro hplain
    rw [not_or, not_or] at hplain
    obtain ⟨hfirst, hlast, hlock⟩ := hplain
    exact {
      components := by
        intro component hc
        rw [hone, List.mem_singleton] at hc
        rw [hc, legalComponent_iff, not_or]
        exact ⟨hfirst, hlock⟩
      dots := hdots
      chars := fun c hc => (plain_of_branch_char (hchars c hc)).1
      head := fun hhead => hslash (List.mem_of_head? hhead)
      slash := fun hend => hslash (List.mem_of_getLast? hend)
      slashes := fun hin => hslash (hin.subset (by simp))
      last := hlast
      braces := fun hin => hout '@' (Or.inr (Or.inr rfl)) (hin.subset (by simp)) }

/-- A component of a tag starts with a dot or ends like a lock. -/
def DottedTag (name : Text) : Prop :=
  ∃ component ∈ name.splitOn '/', component.head? = some '.' ∨ ".lock".toList <:+ component

theorem validTag_iff {name : Text} :
    validTag name = true ↔ name ≠ [] ∧ name.head? ≠ some '-' ∧ name.head? ≠ some '/' ∧
      name.getLast? ≠ some '/' ∧ name.getLast? ≠ some '.' ∧ ¬ "..".toList <:+: name ∧
      ¬ "//".toList <:+: name ∧ ¬ "@\x7b".toList <:+: name ∧
      ∀ c ∈ name, (isWhitespace c || isControl c || "~^:?*[]\\".toList.contains c) = false := by
  simp only [validTag, Bool.and_eq_true, Bool.not_eq_true', List.isEmpty_eq_false_iff, bne_iff_ne,
    decide_eq_false_iff_not, List.any_eq_false, Bool.not_eq_true, and_assoc]

theorem plain_of_tag_char {c : Char}
    (h : (isWhitespace c || isControl c || "~^:?*[]\\".toList.contains c) = false) :
    forbidden c = false := by
  have hall : " ~^:?*[\\".toList.all
      (fun d => isWhitespace d || isControl d || "~^:?*[]\\".toList.contains d) = true := by decide
  by_contra hbad
  rcases mem_of_forbidden (by simpa using hbad) with hcontrol | hmem
  · rw [hcontrol] at h
    simp at h
  · have hc := List.all_eq_true.mp hall c hmem
    rw [h] at hc
    cases hc

theorem legal_tag_iff {name : Text} (h : validTag name = true) :
    legalRef (tagRef name) = true ↔ ¬ DottedTag name := by
  obtain ⟨hne, -, hhead, hslash, hlast, hdots, hslashes, hbraces, hchars⟩ := validTag_iff.mp h
  have hdotted : ¬ DottedTag name ↔
      ∀ component ∈ name.splitOn '/', legalComponent component = true := by
    simp only [DottedTag, legalComponent_iff, not_exists, not_and]
  rw [legalRef_tagRef hne, hdotted]
  constructor
  · exact LegalName.components
  · intro hcomponents
    exact ⟨hcomponents, hdots, fun c hc => plain_of_tag_char (hchars c hc), hhead, hslash, hslashes,
      hlast, hbraces⟩

/-- Names that are accepted are legal exactly when no part of them starts with a dot, ends like a
lock, or, in a branch, ends with a dot. -/
theorem accepted_names_legal_iff (name : Text) :
    ((validBranch name = true → legalRef (branchRef name) = true) ↔
      (validBranch name = true → ¬ DottedBranch name)) ∧
    ((validTag name = true → legalRef (tagRef name) = true) ↔
      (validTag name = true → ¬ DottedTag name)) :=
  ⟨imp_congr_right legal_branch_iff, imp_congr_right legal_tag_iff⟩

/-- A branch and a tag that are accepted though git has no such reference. -/
theorem locked_names_accepted :
    (validBranch "a.lock".toList = true ∧ legalRef (branchRef "a.lock".toList) = false) ∧
      (validTag "a/.b".toList = true ∧ legalRef (tagRef "a/.b".toList) = false) := by
  decide +kernel

end Setfork.LegalRefs
