/- WriteGate
   digest: Whether a list may be written to, and with what content, is asked of the application;
   nothing but a clear yes is one. -/
import Setfork.ContentCheck
import Setfork.Foundation.JsonPrint
import Setfork.Redaction

set_option autoImplicit false
set_option relaxedAutoImplicit false

namespace Setfork.WriteGate

open Setfork.Foundation
open Setfork.Foundation.Json
open Setfork.Foundation.Json.Value (asStr)
open Setfork.ContentCheck
open Setfork.Authored (authoredMaxBytes)
open Setfork.Redaction (authorityOf)
open Setfork.TreeRule (stripPrefix)

inductive BadAppUrl where
  | missing
  | notAbsolute (url : Text)
  | tlsUnsupported (url : Text)

/-- An absolute address without a slash at its end, to be asked without encryption; whether it can be
read as one is for others to say. -/
def parseAppUrl (isUri : Text → Bool) (raw : Option Text) : Except BadAppUrl Text :=
  let s := trim (raw.getD [])
  if s.isEmpty then .error .missing
  else
    let url := s.rdropWhile (· == '/')
    if "https://".toList.isPrefixOf url then .error (.tlsUnsupported url)
    else
      match stripPrefix "http://".toList url with
      | none => .error (.notAbsolute url)
      | some rest =>
        if (authorityOf rest).isEmpty then .error (.notAbsolute url)
        else if !isUri url then .error (.notAbsolute url)
        else .ok url

def appUrl (isUri : Text → Bool) (raw : Option Text) : Option Text :=
  (parseAppUrl isUri raw).toOption

/-- A server without an application to ask stops at its start, unless it is told that this is meant. -/
def starts (isUri : Text → Bool) (allowInsecure : Bool) (raw : Option Text) : Bool :=
  match parseAppUrl isUri raw with
  | .ok _ => true
  | .error _ => allowInsecure

theorem appUrl_of_starts {isUri : Text → Bool} {raw : Option Text}
    (h : starts isUri false raw = true) : ∃ base, appUrl isUri raw = some base := by
  unfold starts at h
  unfold appUrl
  cases hparse : parseAppUrl isUri raw with
  | ok base => exact ⟨base, rfl⟩
  | error why =>
    rw [hparse] at h
    cases h

def commandValue : Option Text → Value
  | some command => .str command
  | none => .null

def blockValue (command : Option Text) : Value := .obj [("command".toList, commandValue command)]

def fileValue (file : PushedText) : Value :=
  .obj [("path".toList, .str file.1), ("text".toList, .str file.2)]

/-- The body of a question; what is asked about content has members of its own, which are there even
when they are empty. -/
def askPayload (owner slug : Text) (content : Option (List (Option Text) × List PushedText)) : Text :=
  let asked := match content with
    | none => []
    | some (commands, files) =>
      [("blocks".toList, Value.arr (commands.map blockValue)),
        ("files".toList, Value.arr (files.map fileValue))]
  compact (.obj (("owner".toList, .str owner) :: ("slug".toList, .str slug) :: asked))

theorem commandValue_injective : Function.Injective commandValue := by
  intro a b h
  cases a <;> cases b
  · rfl
  · cases h
  · cases h
  · rw [Value.str.inj h]

theorem blockValue_injective : Function.Injective blockValue := by
  intro a b h
  simp only [blockValue, Value.obj.injEq, List.cons.injEq, Prod.mk.injEq, true_and, and_true] at h
  exact commandValue_injective h

theorem fileValue_injective : Function.Injective fileValue := by
  rintro ⟨path, text⟩ ⟨path', text'⟩ h
  simp only [fileValue, Value.obj.injEq, List.cons.injEq, Prod.mk.injEq, Value.str.injEq, true_and,
    and_true] at h
  rw [h.1, h.2]

theorem askPayload_injective {owner slug owner' slug' : Text}
    {content content' : Option (List (Option Text) × List PushedText)}
    (h : askPayload owner slug content = askPayload owner' slug' content') :
    owner = owner' ∧ slug = slug' ∧ content = content' := by
  have hvalue := compact_injective h
  simp only [Value.obj.injEq, List.cons.injEq, Prod.mk.injEq, Value.str.injEq, true_and] at hvalue
  obtain ⟨howner, hslug, hasked⟩ := hvalue
  refine ⟨howner, hslug, ?_⟩
  rcases content with - | ⟨commands, files⟩ <;> rcases content' with - | ⟨commands', files'⟩
  · rfl
  · cases hasked
  · cases hasked
  · simp only [List.cons.injEq, Prod.mk.injEq, Value.arr.injEq, true_and, and_true] at hasked
    rw [blockValue_injective.list_map hasked.1, fileValue_injective.list_map hasked.2]

/-- The body of a question about content. -/
def body (q : Question) : Text := askPayload q.owner q.slug (some (q.commands, q.files))

def asBool : Value → Option Bool
  | .bool b => some b
  | _ => none

def asU64 : Value → Option ℕ
  | .int i => if 0 ≤ i ∧ i < 2 ^ 64 then some i.toNat else none
  | _ => none

def textAt (v : Value) (key : String) : Option Text := (v.get key.toList).bind asStr

def numberAt (v : Value) (key : String) : ℕ := ((v.get key.toList).bind asU64).getD 0 % 2 ^ 32

def parseVerdict (readJson : Bytes → Option Value) (body : Bytes) : Verdict :=
  match readJson body with
  | none => .malformed "verdict did not parse as JSON".toList
  | some v =>
    match (v.get "allow".toList).bind asBool with
    | some true => .allow
    | some false =>
      let reason := (textAt v "reason").getD "denied".toList
      let text := fun key => (textAt v key).getD []
      if reason = "secret".toList then
        .secret ⟨text "path", numberAt v "step", numberAt v "line", text "rule", text "provider",
          text "fragment"⟩
      else
        let detail : DenyDetail := ⟨numberAt v "step", text "rule", text "fragment",
          (textAt v "path").filter fun p => !p.isEmpty⟩
        .deny reason (if reason = "destructive".toList then some detail else none)
    | none => .malformed "verdict has no 'allow' field".toList

/-- What becomes of a question: it cannot be put into a request, nobody takes it, an answer comes
with its status, the status line, and a body that may break off, or nothing comes in time. -/
inductive Exchange where
  | unbuilt (why : Text)
  | unreachable (why : Text)
  | answered (status : ℕ) (line : Text) (body : Except Text Bytes)
  | late

def ask (readJson : Bytes → Option Value) : Exchange → Verdict
  | .unbuilt why => .local_ ("request could not be built: ".toList ++ why)
  | .unreachable why => .unreachable ("app is unreachable: ".toList ++ why)
  | .answered status line body =>
    if 200 ≤ status ∧ status < 300 then
      match body with
      | .ok bytes => parseVerdict readJson bytes
      | .error why => .unreachable ("verdict body could not be read: ".toList ++ why)
    -- another try helps against trouble at the other end only
    else if 500 ≤ status ∧ status < 600 then .unreachable ("app answered ".toList ++ line)
    else .malformed ("app answered ".toList ++ line ++ ", so the question went unanswered".toList)
  | .late => .unreachable "app did not answer within 5s".toList

inductive Code where
  | notFound
  | failedPrecondition
  | unavailable
  | internal
deriving DecidableEq

inductive Reason where
  | notFound
  | frozen
  | archived
  | gateUnavailable
  | gateMalformed

structure Status where
  code : Code
  reason : Option Reason
  message : Text

def denied (reason : Text) : Status :=
  if reason = "not-found".toList then ⟨.notFound, some .notFound, "list not found".toList⟩
  else if reason = "frozen".toList then ⟨.failedPrecondition, some .frozen, "list is frozen".toList⟩
  else if reason = "archived".toList then
    ⟨.failedPrecondition, some .archived, "list is archived".toList⟩
  else ⟨.failedPrecondition, none, reason⟩

def ensureWritableAt : Verdict → Except Status Unit
  | .allow => .ok ()
  | .secret _ => .error ⟨.failedPrecondition, none, "secret".toList⟩
  | .deny reason _ => .error (denied reason)
  | .unreachable _ =>
    .error ⟨.unavailable, some .gateUnavailable, "write precondition check unavailable".toList⟩
  | .malformed _ =>
    .error ⟨.failedPrecondition, some .gateMalformed,
      "write precondition verdict not understood".toList⟩
  | .local_ _ =>
    .error ⟨.internal, some .gateUnavailable,
      "write precondition request could not be built".toList⟩

/-- Without an application to ask, which a server only runs without when it is told to, everything is
allowed. -/
def ensureWritable (readJson : Bytes → Option Value) (appUrl : Option Text)
    (exchange : Text → Exchange) : Except Status Unit :=
  match appUrl with
  | some base => ensureWritableAt (ask readJson (exchange base))
  | none => .ok ()

/-- An answer that comes whole and in time, with a success, and says yes. -/
def Opens (readJson : Bytes → Option Value) (x : Exchange) : Prop :=
  ∃ status line bytes v, x = .answered status line (.ok bytes) ∧ 200 ≤ status ∧ status < 300 ∧
    readJson bytes = some v ∧ (v.get "allow".toList).bind asBool = some true

def Transient : Exchange → Prop
  | .unbuilt _ => False
  | .unreachable _ => True
  | .answered status _ body =>
    if 200 ≤ status ∧ status < 300 then body.isOk = false else 500 ≤ status ∧ status < 600
  | .late => True

section Verdicts

variable {readJson : Bytes → Option Value}

theorem parseVerdict_allow {bytes : Bytes} : parseVerdict readJson bytes = .allow ↔
    ∃ v, readJson bytes = some v ∧ (v.get "allow".toList).bind asBool = some true := by
  unfold parseVerdict
  cases hread : readJson bytes with
  | none => simp
  | some v =>
    simp only [Option.some.injEq, exists_eq_left']
    cases hallow : (v.get "allow".toList).bind asBool with
    | none => simp
    | some b =>
      cases b with
      | true => simp
      | false =>
        dsimp only
        split_ifs <;> simp

theorem parseVerdict_ne_unreachable (bytes : Bytes) (why : Text) :
    parseVerdict readJson bytes ≠ .unreachable why := by
  unfold parseVerdict
  cases readJson bytes with
  | none => nofun
  | some v =>
    dsimp only
    cases (v.get "allow".toList).bind asBool with
    | none => nofun
    | some b =>
      cases b with
      | true => nofun
      | false =>
        dsimp only
        split_ifs <;> nofun

theorem ask_allow_iff (x : Exchange) : ask readJson x = .allow ↔ Opens readJson x := by
  unfold ask Opens
  cases x with
  | answered status line body =>
    simp only [Exchange.answered.injEq]
    by_cases hsuccess : 200 ≤ status ∧ status < 300
    · rw [if_pos hsuccess]
      cases body with
      | error why => simp
      | ok bytes =>
        rw [parseVerdict_allow]
        constructor
        · rintro ⟨v, hread, hallow⟩
          exact ⟨status, line, bytes, v, ⟨rfl, rfl, rfl⟩, hsuccess.1, hsuccess.2, hread, hallow⟩
        · rintro ⟨_, _, _, v, ⟨rfl, rfl, hbytes⟩, -, -, hread, hallow⟩
          rw [Except.ok.injEq] at hbytes
          exact ⟨v, hbytes ▸ hread, hallow⟩
    · rw [if_neg hsuccess]
      constructor
      · split_ifs <;> nofun
      · rintro ⟨_, _, _, _, ⟨rfl, -, -⟩, hlow, hhigh, -⟩
        exact absurd ⟨hlow, hhigh⟩ hsuccess
  | _ => simp

theorem ask_unreachable_iff (x : Exchange) :
    (∃ why, ask readJson x = .unreachable why) ↔ Transient x := by
  unfold ask Transient
  cases x with
  | answered status line body =>
    dsimp only
    split_ifs with hsuccess herror
    · cases body with
      | error why => simp [Except.isOk, Except.toBool]
      | ok bytes => simp [Except.isOk, Except.toBool, parseVerdict_ne_unreachable]
    · simp [herror]
    · simp [herror]
  | _ => simp

theorem denied_code (reason : Text) : (denied reason).code ≠ .unavailable := by
  unfold denied
  split_ifs <;> nofun

theorem ensureWritableAt_ok {v : Verdict} : ensureWritableAt v = .ok () ↔ v = .allow := by
  cases v with
  | allow => exact iff_of_true rfl rfl
  | _ => exact iff_of_false nofun nofun

theorem ensureWritableAt_unavailable {v : Verdict} {status : Status}
    (h : ensureWritableAt v = .error status) :
    status.code = .unavailable ↔ ∃ why, v = .unreachable why := by
  cases v with
  | allow => cases h
  | deny reason detail =>
    obtain rfl := Except.error.inj h
    exact iff_of_false (denied_code reason) nofun
  | unreachable why =>
    obtain rfl := Except.error.inj h
    exact iff_of_true rfl ⟨why, rfl⟩
  | _ =>
    obtain rfl := Except.error.inj h
    exact iff_of_false nofun nofun

theorem ensureWritable_cases (base : Text) (exchange : Text → Exchange) :
    (Opens readJson (exchange base) ∧ ensureWritable readJson (some base) exchange = .ok ()) ∨
    ¬ Opens readJson (exchange base) ∧ ∃ status,
      ensureWritable readJson (some base) exchange = .error status ∧
      (status.code = .unavailable ↔ Transient (exchange base)) := by
  by_cases hopen : Opens readJson (exchange base)
  · exact .inl ⟨hopen, ensureWritableAt_ok.mpr ((ask_allow_iff _).mpr hopen)⟩
  · refine .inr ⟨hopen, ?_⟩
    cases hresult : ensureWritable readJson (some base) exchange with
    | ok u => exact absurd ((ask_allow_iff _).mp (ensureWritableAt_ok.mp hresult)) hopen
    | error status =>
      refine ⟨status, rfl, ?_⟩
      rw [ensureWritableAt_unavailable hresult, ask_unreachable_iff]

end Verdicts

section Content

variable (fromSlice : Bytes → Option Project.RawList) (readJson : Bytes → Option Value)
  (exchange : Text → ℕ → Text → Exchange)

/-- The application as it answers the bodies of the questions. -/
def answers (base : Text) (i : ℕ) (q : Question) : Verdict := ask readJson (exchange base i (body q))

theorem body_injective : Function.Injective body := by
  rintro ⟨owner, slug, commands, files⟩ ⟨owner', slug', commands', files'⟩ h
  obtain ⟨rfl, rfl, hcontent⟩ := askPayload_injective h
  obtain ⟨rfl, rfl⟩ := Prod.mk.inj (Option.some.inj hcontent)
  rfl

theorem questions_injective {owner slug owner' slug' : Text} {commands commands' : List (Option Text)}
    {texts texts' : List PushedText} {maxBytes : ℕ}
    (h : questions owner slug commands (textPortions texts maxBytes) =
      questions owner' slug' commands' (textPortions texts' maxBytes)) :
    owner = owner' ∧ slug = slug' ∧ commands = commands' ∧ texts = texts' := by
  obtain ⟨q, qs, hqs⟩ := List.exists_cons_of_ne_nil
    (questions_ne_nil owner slug commands (textPortions texts maxBytes))
  have hfirst : (questions owner slug commands (textPortions texts maxBytes))[0]? = some q := by
    rw [hqs]
    rfl
  obtain ⟨howner, hslug, hcommands⟩ := getElem_questions owner slug commands _ hfirst
  rw [h] at hfirst
  obtain ⟨howner', hslug', hcommands'⟩ := getElem_questions owner' slug' commands' _ hfirst
  refine ⟨howner.symm.trans howner', hslug.symm.trans hslug', hcommands.symm.trans hcommands', ?_⟩
  rw [← files_flatten owner slug commands texts maxBytes, h, files_flatten]

theorem asked_of_passes {base owner slug : Text} {canon : Bytes} {texts : List PushedText}
    {checked : Checked} (hchecked : checkContent fromSlice (some base) (answers readJson exchange)
      owner slug canon (.ok texts) = checked) (hpass : checked.code = 0) (hasked : checked.asked ≠ []) :
    checked.asked = questions owner slug ((blockCommands fromSlice canon).getD [])
      (textPortions texts authoredMaxBytes) ∧
    ∀ i q, checked.asked[i]? = some q → Opens readJson (exchange base i (body q)) := by
  by_cases hasking : Asking (some base) owner slug ((blockCommands fromSlice canon).getD []) texts base
  · have hcases := check_asks fromSlice (some base) (answers readJson exchange) owner slug canon
      hasking rfl
    rw [hchecked] at hcases
    rcases hcases with ⟨-, heq, hall⟩ | ⟨n, hcode, -⟩
    · refine ⟨heq, fun i q hq => (ask_allow_iff _).mp (hall i q ?_)⟩
      rwa [← heq]
    · rw [hpass] at hcode
      cases hcode
  · have hsilent := check_silent fromSlice (some base) (answers readJson exchange) owner slug canon
      (.ok texts) (by
        rintro _ ⟨⟩ base' hother
        obtain rfl := Option.some.inj hother.base
        exact hasking hother)
    rw [hsilent] at hchecked
    rw [← hchecked] at hasked
    exact absurd rfl hasked

/-- The application knows what it lets in: two pushes that pass their check, and of which it is sent
the same bodies, are pushes to the same list with the same commands, step by step, and the same
texts in the same order; and a clear yes came to every single body. -/
theorem passed_content_is_known (fromSlice : Bytes → Option Project.RawList)
    (readJson : Bytes → Option Value) (exchange : Text → ℕ → Text → Exchange)
    {base owner slug owner' slug' : Text} {canon canon' : Bytes} {texts texts' : List PushedText}
    {checked checked' : Checked}
    (hchecked : checkContent fromSlice (some base) (answers readJson exchange) owner slug canon
      (.ok texts) = checked)
    (hchecked' : checkContent fromSlice (some base) (answers readJson exchange) owner' slug' canon'
      (.ok texts') = checked')
    (hpass : checked.code = 0) (hpass' : checked'.code = 0) (hasked : checked.asked ≠ [])
    (hbodies : checked.asked.map body = checked'.asked.map body) :
    (owner = owner' ∧ slug = slug' ∧
      (blockCommands fromSlice canon).getD [] = (blockCommands fromSlice canon').getD [] ∧
      texts = texts') ∧
    ∀ i q, checked.asked[i]? = some q → Opens readJson (exchange base i (body q)) := by
  have hsame := body_injective.list_map hbodies
  obtain ⟨hall, hopens⟩ := asked_of_passes fromSlice readJson exchange hchecked hpass hasked
  obtain ⟨hall', -⟩ := asked_of_passes fromSlice readJson exchange hchecked' hpass'
    (hsame ▸ hasked)
  rw [hall, hall'] at hsame
  exact ⟨questions_injective hsame, hopens⟩

def readOnly (v : Value) (bytes : Bytes) : Option Value :=
  if bytes = utf8 (compact v) then some v else none

def yesValue : Value := .obj [("allow".toList, .bool true)]

def answeredWith (v : Value) : Exchange :=
  .answered 200 "200 OK".toList (.ok (utf8 (compact v)))

theorem answered_opens : Opens (readOnly yesValue) (answeredWith yesValue) :=
  ⟨200, _, _, yesValue, rfl, by decide, by decide, if_pos rfl, rfl⟩

/-- A reader of canons that say their title only, over two steps, one of them with a command. -/
def titled (bytes : Bytes) : Option Project.RawList :=
  (oneCommand bytes).map fun raw =>
    { raw with title := fromUtf8 bytes, steps := raw.steps.map fun steps =>
        steps ++ [⟨none, none, none, none, some "look".toList, none, none, none, none, none, none, none,
          none, none, none, none⟩] }

def titledCheck (canon : Bytes) : Checked :=
  checkContent titled (some "http://app:3000".toList)
    (answers (readOnly yesValue) fun _ _ _ => answeredWith yesValue) "mika".toList "plan".toList canon
    (.ok [theScript, ("README.md".toList, "# plan".toList)])

theorem titledCheck_passes (canon : Bytes) : (titledCheck canon).code = 0 ∧
    (titledCheck canon).asked = questions "mika".toList "plan".toList [some "ls".toList, none]
      (textPortions [theScript, ("README.md".toList, "# plan".toList)] authoredMaxBytes) := by
  have hasking : Asking (some "http://app:3000".toList) "mika".toList "plan".toList
      ((blockCommands titled canon).getD []) [theScript, ("README.md".toList, "# plan".toList)]
      "http://app:3000".toList :=
    ⟨by decide, by decide, rfl, rfl⟩
  rcases check_asks titled (some "http://app:3000".toList)
    (answers (readOnly yesValue) fun _ _ _ => answeredWith yesValue) "mika".toList "plan".toList canon
    hasking rfl with ⟨hcode, heq, -⟩ | ⟨n, -, -, ⟨q, -, hbad⟩, -⟩
  · exact ⟨hcode, heq⟩
  · exact absurd ((ask_allow_iff _).mpr answered_opens) hbad

theorem passed_content_is_known_titles :
    ("mika".toList = "mika".toList ∧ "plan".toList = "plan".toList ∧
      (blockCommands titled (utf8 "old".toList)).getD [] =
        (blockCommands titled (utf8 "new".toList)).getD [] ∧
      [theScript, ("README.md".toList, "# plan".toList)] =
        [theScript, ("README.md".toList, "# plan".toList)]) ∧
    ∀ (i : ℕ) (q : Question), (titledCheck (utf8 "old".toList)).asked[i]? = some q →
      Opens (readOnly yesValue) (answeredWith yesValue) := by
  obtain ⟨hpass, hasked⟩ := titledCheck_passes (utf8 "old".toList)
  obtain ⟨hpass', hasked'⟩ := titledCheck_passes (utf8 "new".toList)
  refine passed_content_is_known titled (readOnly yesValue) (fun _ _ _ => answeredWith yesValue) rfl
    rfl hpass hpass' ?_ (congrArg (List.map body) (hasked.trans hasked'.symm))
  rw [hasked]
  exact questions_ne_nil _ _ _ _

end Content

end Setfork.WriteGate
