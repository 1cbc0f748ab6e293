/- ContentCheck
   digest: What a push brings is asked about in portions, with the commands of its canon in the
   first question. -/
import Setfork.Foundation.Portions
import Setfork.Project
import Setfork.Authored

set_option autoImplicit false
set_option relaxedAutoImplicit false

namespace Setfork.ContentCheck

open Setfork.Foundation
open Setfork.Foundation.Portions
open Setfork.Project (RawList)
open Setfork.Authored (authoredMaxBytes)

structure DenyDetail where
  step : Nat
  rule : Text
  fragment : Text
  path : Option Text

structure SecretDetail where
  path : Text
  step : Nat
  line : Nat
  rule : Text
  provider : Text
  fragment : Text

inductive Verdict where
  | allow
  | deny (reason : Text) (detail : Option DenyDetail)
  | secret (detail : SecretDetail)
  | unreachable (why : Text)
  | malformed (why : Text)
  | local_ (why : Text)

inductive ContentRefusal where
  | destructive (detail : DenyDetail)
  | secret (detail : SecretDetail)
  | denied (reason : Text)
  | unavailable (why : Text)
  | notUnderstood (why : Text)
  | notAsked (why : Text)

/-- A file of a commit, by its path or its path and commit, and its text. -/
abbrev PushedText := Text × Text

/-- One question about content. -/
structure Question where
  owner : Text
  slug : Text
  commands : List (Option Text)
  files : List PushedText

/-- Nothing but a clear yes is a yes. -/
def ensureContentAllowedAt : Verdict → Except ContentRefusal Unit
  | .allow => .ok ()
  | .secret detail => .error (.secret detail)
  | .deny reason (some detail) =>
    if reason = "destructive".toList then .error (.destructive detail) else .error (.denied reason)
  | .deny reason none => .error (.denied reason)
  | .unreachable why => .error (.unavailable why)
  | .malformed why => .error (.notUnderstood why)
  | .local_ why => .error (.notAsked why)

theorem ensureContentAllowedAt_ok {v : Verdict} : ensureContentAllowedAt v = .ok () ↔ v = .allow := by
  cases v with
  | allow => simp [ensureContentAllowedAt]
  | deny reason detail =>
    cases detail with
    | none => simp [ensureContentAllowedAt]
    | some detail =>
      simp only [ensureContentAllowedAt]
      split_ifs
      · simp
      · simp
  | _ => simp [ensureContentAllowedAt]

def textSize (t : PushedText) : Nat := (utf8 t.1).length + (utf8 t.2).length

/-- Texts in portions up to a number of bytes; a larger text goes alone. -/
def textPortions (texts : List PushedText) (maxBytes : Nat) : List (List PushedText) :=
  portions textSize maxBytes texts

/-- The commands of all steps, in the order of the file. -/
def blockCommands (fromSlice : Bytes → Option RawList) (canon : Bytes) :
    Option (List (Option Text)) :=
  (fromSlice canon).map (fun parsed => (parsed.steps.getD []).map (fun s => s.command))

/-- What a check leaves: its exit code, the questions it asked, and the refusal. -/
structure Checked where
  code : Nat
  asked : List Question
  refusal : Option ContentRefusal

/-- The questions in their order, up to the first refusal. -/
def askAll (app : Nat → Question → Verdict) : Nat → List Question →
    List Question × Option ContentRefusal
  | _, [] => ([], none)
  | i, q :: qs =>
    match ensureContentAllowedAt (app i q) with
    | .error refusal => ([q], some refusal)
    | .ok () => (q :: (askAll app (i + 1) qs).1, (askAll app (i + 1) qs).2)

/-- Every portion makes a question, and nothing but commands makes one too; the commands go with
the first. -/
def questions (owner slug : Text) (commands : List (Option Text))
    (portions : List (List PushedText)) : List Question :=
  (portions ++ if portions.isEmpty then [[]] else []).mapIdx
    (fun i files => ⟨owner, slug, if i = 0 then commands else [], files⟩)

def nothingToAsk (commands : List (Option Text)) (texts : List PushedText) : Bool :=
  texts.isEmpty && commands.all (fun c => (trim (c.getD [])).isEmpty)

/-- The check of a push: it passes with nobody to ask about, nothing to ask, or nobody to ask. -/
def checkContent (fromSlice : Bytes → Option RawList) (appUrl : Option Text)
    (app : Text → Nat → Question → Verdict) (owner slug : Text) (canon : Bytes)
    (pushedTexts : Except Text (List PushedText)) : Checked :=
  if owner.isEmpty || slug.isEmpty then ⟨0, [], none⟩
  else
    let commands := (blockCommands fromSlice canon).getD []
    match pushedTexts with
    | .error _ => ⟨1, [], none⟩
    | .ok texts =>
      if nothingToAsk commands texts then ⟨0, [], none⟩
      else
        match appUrl with
        | none => ⟨0, [], none⟩
        | some base =>
          let done := askAll (app base) 0
            (questions owner slug commands (textPortions texts authoredMaxBytes))
          ⟨if done.2.isSome then 1 else 0, done.1, done.2⟩

section Asked

variable {app : Nat → Question → Verdict} {qs : List Question}

/-- Every question was asked and allowed. -/
def Passed (app : Nat → Question → Verdict) (qs : List Question) (r : Checked) : Prop :=
  r.code = 0 ∧ r.asked = qs ∧ ∀ i q, qs[i]? = some q → app i q = .allow

/-- The questions were allowed up to one, which was refused and asked last. -/
def StoppedAt (app : Nat → Question → Verdict) (qs : List Question) (r : Checked) (n : Nat) : Prop :=
  r.code = 1 ∧ r.asked = qs.take (n + 1) ∧ (∃ q, qs[n]? = some q ∧ app n q ≠ .allow) ∧
    ∀ i < n, ∀ q, qs[i]? = some q → app i q = .allow

theorem askAll_cases (app : Nat → Question → Verdict) (k : Nat) (qs : List Question) :
    (askAll app k qs = (qs, none) ∧ ∀ i q, qs[i]? = some q → app (k + i) q = .allow) ∨
    ∃ n refusal, askAll app k qs = (qs.take (n + 1), some refusal) ∧
      (∃ q, qs[n]? = some q ∧ app (k + n) q ≠ .allow) ∧
      ∀ i < n, ∀ q, qs[i]? = some q → app (k + i) q = .allow := by
  induction qs generalizing k with
  | nil => exact Or.inl ⟨rfl, fun i q hq => by simp at hq⟩
  | cons q qs ih =>
    cases hanswer : ensureContentAllowedAt (app k q) with
    | error refusal =>
      right
      refine ⟨0, refusal, by simp [askAll, hanswer], ⟨q, rfl, fun hallow => ?_⟩, fun i hi => ?_⟩
      · have hfirst : app k q = .allow := hallow
        rw [ensureContentAllowedAt_ok.mpr hfirst] at hanswer
        cases hanswer
      · exact absurd hi (Nat.not_lt_zero i)
    | ok u =>
      have hallow : app k q = .allow := ensureContentAllowedAt_ok.mp hanswer
      have hnext : askAll app k (q :: qs) =
          (q :: (askAll app (k + 1) qs).1, (askAll app (k + 1) qs).2) := by
        simp only [askAll, hanswer]
      have hshift : ∀ i, k + 1 + i = k + (i + 1) := fun i => by omega
      rcases ih (k + 1) with ⟨hdone, hall⟩ | ⟨n, refusal, hdone, ⟨bad, hbad, hrefused⟩, hbefore⟩
      · refine Or.inl ⟨by rw [hnext, hdone], fun i q' hq' => ?_⟩
        cases i with
        | zero =>
          obtain rfl : q = q' := Option.some.inj hq'
          exact hallow
        | succ i =>
          rw [← hshift]
          exact hall i q' hq'
      · refine Or.inr ⟨n + 1, refusal, by rw [hnext, hdone]; rfl, ⟨bad, hbad, ?_⟩, fun i hi q' hq' => ?_⟩
        · rw [← hshift]
          exact hrefused
        · cases i with
          | zero =>
            obtain rfl : q = q' := Option.some.inj hq'
            exact hallow
          | succ i =>
            rw [← hshift]
            exact hbefore i (Nat.lt_of_succ_lt_succ hi) q' hq'

end Asked

section Questions

variable (owner slug : Text) (commands : List (Option Text)) (parts : List (List PushedText))

theorem files_questions : (questions owner slug commands parts).map Question.files =
    if parts.isEmpty then [[]] else parts := by
  have hfiles : ∀ ps : List (List PushedText), (ps.mapIdx (fun i files =>
      (⟨owner, slug, if i = 0 then commands else [], files⟩ : Question))).map Question.files = ps := by
    intro ps
    ext i files
    rw [List.getElem?_map, List.getElem?_mapIdx, Option.map_map]
    change ps[i]?.map id = some files ↔ _
    rw [Option.map_id, id]
  rw [questions, hfiles]
  cases parts with
  | nil => rfl
  | cons p ps => simp

theorem getElem_questions {i : Nat} {q : Question}
    (h : (questions owner slug commands parts)[i]? = some q) :
    q.owner = owner ∧ q.slug = slug ∧ q.commands = if i = 0 then commands else [] := by
  rw [questions, List.getElem?_mapIdx] at h
  obtain ⟨files, -, rfl⟩ := Option.map_eq_some_iff.mp h
  exact ⟨rfl, rfl, rfl⟩

theorem questions_ne_nil : questions owner slug commands parts ≠ [] := by
  have hfiles := files_questions owner slug commands parts
  intro hnil
  rw [hnil] at hfiles
  cases parts with
  | nil => cases hfiles
  | cons p ps => cases hfiles

theorem files_flatten (texts : List PushedText) (maxBytes : Nat) :
    ((questions owner slug commands (textPortions texts maxBytes)).map Question.files).flatten =
      texts := by
  rw [files_questions]
  have hflatten := (portions_spec textSize maxBytes texts).1
  change (textPortions texts maxBytes).flatten = texts at hflatten
  split_ifs with hempty
  · rw [← hflatten, List.isEmpty_iff.mp hempty]
    rfl
  · exact hflatten

theorem everything_allowed {allowed : Nat → Question → Prop} {texts : List PushedText}
    {maxBytes : Nat} (hall : ∀ i q,
      (questions owner slug commands (textPortions texts maxBytes))[i]? = some q → allowed i q) :
    (∃ q, (questions owner slug commands (textPortions texts maxBytes))[0]? = some q ∧
      q.commands = commands ∧ allowed 0 q) ∧
    ∀ t ∈ texts, ∃ i q, (questions owner slug commands (textPortions texts maxBytes))[i]? = some q ∧
      t ∈ q.files ∧ allowed i q := by
  constructor
  · obtain ⟨q, qs, hqs⟩ := List.exists_cons_of_ne_nil
      (questions_ne_nil owner slug commands (textPortions texts maxBytes))
    have hfirst : (questions owner slug commands (textPortions texts maxBytes))[0]? = some q := by
      rw [hqs]
      rfl
    obtain ⟨-, -, hcommands⟩ := getElem_questions owner slug commands _ hfirst
    exact ⟨q, hfirst, hcommands, hall 0 q hfirst⟩
  · intro t ht
    rw [← files_flatten owner slug commands texts maxBytes] at ht
    obtain ⟨files, hfiles, htext⟩ := List.mem_flatten.mp ht
    obtain ⟨q, hq, rfl⟩ := List.mem_map.mp hfiles
    obtain ⟨i, hi⟩ := List.mem_iff_getElem?.mp hq
    exact ⟨i, q, hi, htext, hall i q hi⟩

end Questions

section Check

variable (fromSlice : Bytes → Option RawList) (appUrl : Option Text)
  (app : Text → Nat → Question → Verdict) (owner slug : Text) (canon : Bytes)

/-- The check asks somebody about something. -/
structure Asking (commands : List (Option Text)) (texts : List PushedText) (base : Text) : Prop where
  owner : owner ≠ []
  slug : slug ≠ []
  something : nothingToAsk commands texts = false
  base : appUrl = some base

theorem check_asks {texts : List PushedText} {base : Text}
    (h : Asking appUrl owner slug ((blockCommands fromSlice canon).getD []) texts base)
    {qs : List Question} (hqs : questions owner slug ((blockCommands fromSlice canon).getD [])
      (textPortions texts authoredMaxBytes) = qs) :
    Passed (app base) qs (checkContent fromSlice appUrl app owner slug canon (.ok texts)) ∨
      ∃ n, StoppedAt (app base) qs
        (checkContent fromSlice appUrl app owner slug canon (.ok texts)) n := by
  have hcheck : checkContent fromSlice appUrl app owner slug canon (.ok texts) =
      ⟨if (askAll (app base) 0 qs).2.isSome then 1 else 0, (askAll (app base) 0 qs).1,
        (askAll (app base) 0 qs).2⟩ := by
    unfold checkContent
    rw [if_neg (by simp [h.owner, h.slug])]
    dsimp only
    rw [if_neg (by rw [h.something]; exact Bool.false_ne_true), h.base]
    dsimp only
    rw [hqs]
  rw [hcheck]
  rcases askAll_cases (app base) 0 qs with ⟨hdone, hall⟩ | ⟨n, refusal, hdone, ⟨q, hq, hbad⟩, hbefore⟩
  · left
    rw [hdone]
    simp only [Nat.zero_add] at hall
    exact ⟨rfl, rfl, hall⟩
  · right
    rw [hdone]
    simp only [Nat.zero_add] at hbad hbefore
    exact ⟨n, rfl, rfl, ⟨q, hq, hbad⟩, hbefore⟩

theorem passes_iff {texts : List PushedText} {base : Text}
    (h : Asking appUrl owner slug ((blockCommands fromSlice canon).getD []) texts base)
    {qs : List Question} (hqs : questions owner slug ((blockCommands fromSlice canon).getD [])
      (textPortions texts authoredMaxBytes) = qs) :
    (checkContent fromSlice appUrl app owner slug canon (.ok texts)).code = 0 ↔
      ∀ i q, qs[i]? = some q → app base i q = .allow := by
  rcases check_asks fromSlice appUrl app owner slug canon h hqs with
    ⟨hcode, -, hall⟩ | ⟨n, hcode, -, ⟨q, hq, hbad⟩, -⟩
  · exact iff_of_true hcode hall
  · rw [hcode]
    exact iff_of_false Nat.one_ne_zero fun hall => hbad (hall n q hq)

theorem check_silent (pushedTexts : Except Text (List PushedText))
    (h : ∀ texts, pushedTexts = .ok texts → ∀ base,
      ¬ Asking appUrl owner slug ((blockCommands fromSlice canon).getD []) texts base) :
    checkContent fromSlice appUrl app owner slug canon pushedTexts =
      ⟨if owner ≠ [] ∧ slug ≠ [] ∧ pushedTexts.isOk = false then 1 else 0, [], none⟩ := by
  unfold checkContent
  by_cases hnamed : owner ≠ [] ∧ slug ≠ []
  · rw [if_neg (by simp [hnamed.1, hnamed.2])]
    dsimp only
    cases pushedTexts with
    | error why => simp [hnamed.1, hnamed.2, Except.isOk, Except.toBool]
    | ok texts =>
      have hcode : ¬ (owner ≠ [] ∧ slug ≠ [] ∧
          (Except.ok texts : Except Text (List PushedText)).isOk = false) := by
        simp [Except.isOk, Except.toBool]
      rw [if_neg hcode]
      dsimp only
      cases hsomething : nothingToAsk ((blockCommands fromSlice canon).getD []) texts with
      | true => rfl
      | false =>
        cases hbase : appUrl with
        | none => rfl
        | some base => exact absurd ⟨hnamed.1, hnamed.2, hsomething, hbase⟩ (h texts rfl base)
  · have hcode : ¬ (owner ≠ [] ∧ slug ≠ [] ∧ pushedTexts.isOk = false) :=
      fun hall => hnamed ⟨hall.1, hall.2.1⟩
    have hempty : (owner.isEmpty || slug.isEmpty) = true := by
      rw [not_and_or, not_not, not_not] at hnamed
      simpa using hnamed
    rw [if_pos hempty, if_neg hcode]

end Check

/-- Portions are the texts in their order, none is empty, and one above the limit is one text. Where
there is something to ask and somebody to ask, the questions carry the portions, with the commands
in the first; they are asked in their order up to the first refusal, and the push passes exactly
when all of them are allowed. Elsewhere nothing is asked. -/
theorem portions_checked :
    (∀ texts maxBytes, (textPortions texts maxBytes).flatten = texts ∧
      ∀ p ∈ textPortions texts maxBytes, p ≠ [] ∧
        (maxBytes < (p.map textSize).sum → ∃ t, p = [t])) ∧
    (∀ fromSlice appUrl app owner slug canon texts base,
      Asking appUrl owner slug ((blockCommands fromSlice canon).getD []) texts base →
      ∃ qs, (qs.map Question.files).flatten = texts ∧
        qs.map Question.files = (if texts.isEmpty then [[]] else textPortions texts authoredMaxBytes) ∧
        (∀ i q, qs[i]? = some q → q.owner = owner ∧ q.slug = slug ∧
          q.commands = if i = 0 then (blockCommands fromSlice canon).getD [] else []) ∧
        (Passed (app base) qs (checkContent fromSlice appUrl app owner slug canon (.ok texts)) ∨
          ∃ n, StoppedAt (app base) qs
            (checkContent fromSlice appUrl app owner slug canon (.ok texts)) n) ∧
        ((checkContent fromSlice appUrl app owner slug canon (.ok texts)).code = 0 ↔
          ∀ i q, qs[i]? = some q → app base i q = .allow) ∧
        ((checkContent fromSlice appUrl app owner slug canon (.ok texts)).code = 0 →
          (∃ q, qs[0]? = some q ∧ q.commands = (blockCommands fromSlice canon).getD [] ∧
            app base 0 q = .allow) ∧
          ∀ t ∈ texts, ∃ i q, qs[i]? = some q ∧ t ∈ q.files ∧ app base i q = .allow)) ∧
    ∀ fromSlice appUrl app owner slug canon pushedTexts,
      (∀ texts, pushedTexts = .ok texts → ∀ base,
        ¬ Asking appUrl owner slug ((blockCommands fromSlice canon).getD []) texts base) →
      checkContent fromSlice appUrl app owner slug canon pushedTexts =
        ⟨if owner ≠ [] ∧ slug ≠ [] ∧ pushedTexts.isOk = false then 1 else 0, [], none⟩ := by
  refine ⟨?_, ?_, check_silent⟩
  · intro texts maxBytes
    obtain ⟨hflatten, hfits⟩ := portions_spec textSize maxBytes texts
    refine ⟨hflatten, fun p hp => ?_⟩
    obtain ⟨hne, hlimit⟩ := hfits p hp
    refine ⟨hne, fun hover => ?_⟩
    rcases hlimit with hle | hone
    · omega
    · exact hone
  · intro fromSlice appUrl app owner slug canon texts base hasking
    have hempty : (textPortions texts authoredMaxBytes).isEmpty = texts.isEmpty := by
      rw [Bool.eq_iff_iff, List.isEmpty_iff, List.isEmpty_iff]
      exact portions_eq_nil_iff textSize authoredMaxBytes
    have hchecked := check_asks fromSlice appUrl app owner slug canon hasking rfl
    have hpasses := passes_iff fromSlice appUrl app owner slug canon hasking rfl
    refine ⟨_, files_flatten owner slug _ texts authoredMaxBytes, ?_,
      fun i q => getElem_questions owner slug _ _, hchecked, hpasses,
      fun hcode => everything_allowed owner slug _ (hpasses.mp hcode)⟩
    rw [files_questions, hempty]

/-- A canon with one command. -/
def oneCommand (_ : Bytes) : Option RawList :=
  some ⟨none, none, none, none, none, none, none,
    some [⟨none, none, none, none, none, none, some "ls".toList, none, none, none, none, none, none,
      none, none, none⟩]⟩

def theScript : PushedText := ("scripts/a.sh".toList, "rm -rf /".toList)

/-- An application that finds a script to forbid. -/
def strict (_ : Text) (_ : Nat) (q : Question) : Verdict :=
  if q.files.contains theScript then .deny "destructive".toList none else .allow

theorem strict_refuses {base : Text} {i : Nat} {q : Question} (h : q.files = [theScript]) :
    strict base i q ≠ .allow := by
  simp [strict, h]

theorem portions_checked_script :
    (checkContent oneCommand (some "http://app:3000".toList) strict "mike".toList "list".toList []
      (.ok [theScript])).code ≠ 0 := by
  have hchecked := portions_checked.2.1 oneCommand (some "http://app:3000".toList) strict
    "mike".toList "list".toList [] [theScript] "http://app:3000".toList
    ⟨by decide, by decide, by decide, rfl⟩
  obtain ⟨qs, -, hfiles, -, -, hpasses, -⟩ := hchecked
  have hportions : (if [theScript].isEmpty then [[]] else
      textPortions [theScript] authoredMaxBytes) = [[theScript]] := by decide +kernel
  rw [hportions, List.map_eq_singleton_iff] at hfiles
  obtain ⟨q, rfl, hq⟩ := hfiles
  intro hcode
  exact strict_refuses hq (hpasses.mp hcode 0 q rfl)

/-- Without the address of an application nothing is asked, and the script passes. -/
theorem script_passes_unasked :
    checkContent oneCommand none strict "mike".toList "list".toList [] (.ok [theScript]) =
      ⟨0, [], none⟩ ∧
    strict [] 0 ⟨"mike".toList, "list".toList, [some "ls".toList], [theScript]⟩ ≠ .allow := by
  constructor
  · rfl
  · simp [strict]

end Setfork.ContentCheck
