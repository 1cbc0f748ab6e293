/- MirrorRuns
   digest: What holds of a list and its mirror in every run: main at a forge only follows main of
   the core, and a push that is found good has made main and the tags equal. -/
import Setfork.Mirror
import Setfork.RefRuns

set_option autoImplicit false
set_option relaxedAutoImplicit false

namespace Setfork.MirrorRuns

open Setfork.Foundation
open Setfork.Foundation.GitPush
open Setfork.Foundation.Interleave (System)
open Setfork.Repository (Disk mainRef)
open Setfork.History (Core)
open Setfork.Push (GitLibrary)
open Setfork.RefRuns (held grows_step)
open Setfork.Mirror
open Setfork.Repository (tagRef versionTag tagRef_ne_mainRef)
open Setfork.WebVersion (editedList commitVersion_parents)
open Setfork.Healing (firstCommit markedList markedRefs markedRefs_main markedRefs_ready markEdit
  plainWrite)

/-- The names a push sends: main and the tags. -/
def Mirrored (name : Text) : Prop := name = mainRef ∨ tagsPath <+: name

theorem mainRef_not_tag : ¬ tagsPath <+: mainRef := by decide

private theorem sent_main (here : Refs) : sent mirrorSpecs here mainRef = here.lookup mainRef := by
  have htags : Refspec.sends here mainRef (.family tagsPath tagsPath) = none := rfl
  rw [sent, mirrorSpecs, List.findSome?_cons, List.findSome?_cons, htags]
  simp only [Refspec.sends, if_true]
  cases here.lookup mainRef <;> rfl

private theorem sent_tag (here : Refs) {name : Text} (h : tagsPath <+: name) :
    sent mirrorSpecs here name = here.lookup name := by
  obtain ⟨stem, rfl⟩ := h
  have hmain : tagsPath ++ stem ≠ mainRef := fun heq =>
    mainRef_not_tag (heq ▸ List.prefix_append _ stem)
  have hpath : tagsPath.isPrefixOf (tagsPath ++ stem) = true :=
    List.isPrefixOf_iff_prefix.mpr (List.prefix_append _ stem)
  have htags : Refspec.sends here (tagsPath ++ stem) (.family tagsPath tagsPath) =
      here.lookup (tagsPath ++ stem) := by
    simp only [Refspec.sends, hpath, if_true]
    rw [List.drop_left]
  rw [sent, mirrorSpecs, List.findSome?_cons, List.findSome?_cons, htags]
  simp only [Refspec.sends, if_neg hmain]
  cases here.lookup (tagsPath ++ stem) <;> rfl

theorem sent_mirrored (here : Refs) {name : Text} (h : Mirrored name) :
    sent mirrorSpecs here name = here.lookup name := by
  rcases h with rfl | htag
  · exact sent_main here
  · exact sent_tag here htag

theorem command_not_mirrored (here there : Refs) {name : Text} (h : ¬ Mirrored name) :
    command true mirrorSpecs here there name = none := by
  have hmain : name ≠ mainRef := fun heq => h (Or.inl heq)
  have htag : tagsPath.isPrefixOf name = false := by
    rw [Bool.eq_false_iff]
    exact fun hpath => h (Or.inr (List.isPrefixOf_iff_prefix.mp hpath))
  have hsent : sent mirrorSpecs here name = none := by
    rw [sent, mirrorSpecs, List.findSome?_cons, List.findSome?_cons]
    simp only [Refspec.sends, if_neg hmain, htag, Bool.false_eq_true, if_false, List.findSome?_nil]
  have hgone : mirrorSpecs.any (Refspec.removes name) = false := rfl
  have hcovered : mirrorSpecs.any (Refspec.covers name) = false := by
    simp only [mirrorSpecs, List.any_cons, List.any_nil, Refspec.covers, htag, Bool.or_false]
  simp only [command, hsent, hgone, hcovered, Bool.and_false, Bool.or_false, Bool.false_eq_true,
    if_false]

private theorem command_main_some {here there : Refs} {t : Target}
    (hmain : here.lookup mainRef = some t) :
    command true mirrorSpecs here there mainRef =
      if there.lookup mainRef = some t then none
      else some ⟨mainRef, there.lookup mainRef, some t⟩ := by
  simp only [command, sent_main, hmain]

theorem wanted_mirrored {here there : Refs} {name : Text} (h : Mirrored name)
    (hmain : (here.lookup mainRef).isSome = true) :
    wanted true mirrorSpecs here there name = here.lookup name := by
  unfold wanted command
  rw [sent_mirrored here h]
  cases hhere : here.lookup name with
  | some t =>
    dsimp only
    by_cases hthere : there.lookup name = some t
    · simp only [hthere, if_true]
    · simp only [hthere, if_false]
  | none =>
    rcases h with rfl | htag
    · rw [hhere] at hmain
      cases hmain
    · have hpath : tagsPath.isPrefixOf name = true := List.isPrefixOf_iff_prefix.mpr htag
      have hgone : mirrorSpecs.any (Refspec.removes name) = false := rfl
      have hcovered : mirrorSpecs.any (Refspec.covers name) = true := by
        simp only [mirrorSpecs, List.any_cons, List.any_nil, Refspec.covers, hpath, Bool.or_false,
          Bool.or_true]
      cases hthere : there.lookup name with
      | none => simp [hgone, hcovered]
      | some t => simp [hgone, hcovered]

theorem wanted_not_mirrored {here there : Refs} {name : Text} (h : ¬ Mirrored name) :
    wanted true mirrorSpecs here there name = there.lookup name := by
  rw [wanted, command_not_mirrored here there h]

structure Planned (here there : Refs) (cmds : List Command) : Prop where
  nodup : (cmds.map Command.name).Nodup
  mem : ∀ cmd, cmd ∈ cmds ↔ command true mirrorSpecs here there cmd.name = some cmd

/-- Git has read the request of a mirror. -/
structure IsMirror (req : Request) : Prop where
  prune : req.prune = true
  sends : req.dryRun = false
  specs : req.specs = mirrorSpecs

theorem planned_commands (git : Git) {req : Request} (h : IsMirror req) (here there : Refs) :
    Planned here there (git.commands req here there) := by
  refine ⟨git.nodup req here there, fun cmd => ?_⟩
  rw [git.sends req here there h.sends, h.prune, h.specs]

section Planned

variable {here there refs : Refs} {cmds : List Command}

theorem Planned.mirrored (h : Planned here there cmds) {cmd : Command} (hcmd : cmd ∈ cmds) :
    Mirrored cmd.name := by
  by_contra hnot
  have hnone := command_not_mirrored here there hnot
  rw [(h.mem cmd).mp hcmd] at hnone
  cases hnone

theorem Planned.notMem (h : Planned here there cmds) {name : Text}
    (hnone : command true mirrorSpecs here there name = none) : name ∉ cmds.map Command.name := by
  intro hmem
  obtain ⟨cmd, hcmd, rfl⟩ := List.mem_map.mp hmem
  rw [(h.mem cmd).mp hcmd] at hnone
  cases hnone

theorem Planned.lookup_after (h : Planned here there cmds) {forge : Forge}
    (hwell : forge.well cmds refs = true) {name : Text}
    (hsame : command true mirrorSpecs here there name = none →
      refs.lookup name = there.lookup name) :
    (forge.after cmds refs).lookup name = wanted true mirrorSpecs here there name := by
  unfold wanted
  cases hcmd : command true mirrorSpecs here there name with
  | none => exact (forge.lookup_after_of_notMem (h.notMem hcmd)).trans (hsame hcmd)
  | some cmd =>
    obtain rfl := (command_eq_some hcmd).1
    exact forge.lookup_after_of_well h.nodup hwell ((h.mem cmd).mpr hcmd)

theorem Planned.eq_nil (h : Planned here there cmds)
    (hequal : ∀ name, Mirrored name → there.lookup name = here.lookup name) : cmds = [] := by
  refine List.eq_nil_iff_forall_not_mem.mpr fun cmd hcmd => ?_
  have hname := h.mirrored hcmd
  have hsame := hequal cmd.name hname
  have hgone : mirrorSpecs.any (Refspec.removes cmd.name) = false := rfl
  have hsome := (h.mem cmd).mp hcmd
  unfold command at hsome
  rw [sent_mirrored here hname] at hsome
  cases hhere : here.lookup cmd.name with
  | none => simp [hsame, hhere, hgone] at hsome
  | some t => simp [hsame, hhere] at hsome

end Planned

section Calls

variable {ι : Type} [DecidableEq ι] {git : Git} {bare : Text} {vault : Vault} {st : State ι}

def busy : Stage → Bool
  | .settings | .ended => false
  | _ => true

theorem stepCall_cases (a : ι) (dropped : Bool) (turn : Turn) (st : State ι) :
    stepCall git bare vault a dropped turn st = ⟨abandon st.world (st.stages a),
      callStep (a, true) st.calls, Function.update st.stages a .ended⟩ ∨
    ((∃ g, st.calls.places a = .executing g) ∧ stepCall git bare vault a dropped turn st =
      ⟨(advance git bare vault turn st.world (st.stages a)).1, st.calls,
        Function.update st.stages a (advance git bare vault turn st.world (st.stages a)).2⟩) ∨
    (((∀ g, st.calls.places a ≠ .executing g) ∨ st.stages a = .ended) ∧
      ∃ b, stepCall git bare vault a dropped turn st = { st with calls := callStep (a, b) st.calls }) := by
  unfold stepCall
  cases hplace : st.calls.places a with
  | executing g =>
    cases dropped with
    | true => exact Or.inl rfl
    | false =>
      simp only [Bool.false_eq_true, if_false]
      cases hstage : st.stages a with
      | ended => exact Or.inr (Or.inr ⟨Or.inr rfl, false, rfl⟩)
      | _ => exact Or.inr (Or.inl ⟨⟨g, rfl⟩, rfl⟩)
  | _ => exact Or.inr (Or.inr ⟨Or.inl fun g => by simp, dropped, rfl⟩)

structure Turns (st : State ι) : Prop where
  inv : SerializedCalls.Inv (fun _ => ()) st.calls
  busy : ∀ a, busy (st.stages a) = true → ∃ g, st.calls.places a = .executing g

omit [DecidableEq ι] in
theorem Turns.alone (h : Turns st) {a b : ι} (ha : MirrorRuns.busy (st.stages a) = true)
    (hb : MirrorRuns.busy (st.stages b) = true) : a = b := by
  obtain ⟨g, hg⟩ := h.busy a ha
  obtain ⟨g', hg'⟩ := h.busy b hb
  exact h.inv.exclusive a b g g' hg hg' rfl

theorem turns_stepCall (a : ι) (dropped : Bool) (turn : Turn) (h : Turns st) :
    Turns (stepCall git bare vault a dropped turn st) := by
  have hcalls : ∀ b, SerializedCalls.Inv (fun _ => ()) (callStep (a, b) st.calls) :=
    fun b => SerializedCalls.inv_step (a, b) st.calls h.inv
  have hother : ∀ (b : Bool) (c : ι), c ≠ a →
      (callStep (a, b) st.calls).places c = st.calls.places c := fun b c hc =>
    Interleave.act_place_of_ne _ hc st.calls
  rcases @stepCall_cases _ _ git bare vault a dropped turn st with
    heq | ⟨⟨g, hg⟩, heq⟩ | ⟨hidle, b, heq⟩
  · rw [heq]
    refine ⟨hcalls true, fun c hc => ?_⟩
    by_cases hca : c = a
    · subst hca
      simp [MirrorRuns.busy] at hc
    · simp only [Function.update_of_ne hca] at hc
      rw [show (callStep (a, true) st.calls).places c = _ from hother true c hca]
      exact h.busy c hc
  · rw [heq]
    refine ⟨h.inv, fun c hc => ?_⟩
    by_cases hca : c = a
    · subst hca
      exact ⟨g, hg⟩
    · simp only [Function.update_of_ne hca] at hc
      exact h.busy c hc
  · rw [heq]
    refine ⟨hcalls b, fun c hc => ?_⟩
    have hca : c ≠ a := by
      rintro rfl
      obtain ⟨g, hg⟩ := h.busy c hc
      rcases hidle with hnot | hgoing
      · exact hnot g hg
      · rw [show ({ st with calls := callStep (c, b) st.calls } : State ι).stages c = _ from hgoing] at hc
        cases hc
    rw [show (callStep (a, b) st.calls).places c = _ from hother b c hca]
    exact h.busy c hc

end Calls

def MainIs (P : Commit → Prop) (refs : Refs) : Prop :=
  ∀ t, refs.lookup mainRef = some t → ∃ c, t = .commit c ∧ P c

def InMain (w : World) (c : Commit) : Prop :=
  ∃ tip, (held w.core.disk).lookup mainRef = some (.commit tip) ∧ tip.Reaches c

/-- If the command is for main, it brings a commit of this kind over the one it replaces. -/
def MainCommand (P : Commit → Prop) (cmd : Command) : Prop :=
  cmd.name = mainRef → ∃ c, cmd.new = some (.commit c) ∧ P c ∧
    ∀ t, cmd.old = some t → ∃ b, t = .commit b ∧ c.Reaches b

/-- Main at every forge, and what may still arrive there, comes from main of the core; a recorded
success stands for a commit that main at its forge has not left. -/
structure Follows (w : World) : Prop where
  core : MainIs (fun _ => True) (held w.core.disk)
  forges : ∀ url, MainIs (InMain w) (w.forges url)
  strays : ∀ s ∈ w.strays, MainCommand (InMain w) s.2
  vouched : ∀ url here, w.vouched = some (url, here) →
    ∃ v c, here.lookup mainRef = some (.commit v) ∧ InMain w v ∧
      (w.forges url).lookup mainRef = some (.commit c) ∧ c.Reaches v

/-- Neither the forge nor what may still arrive there is ahead of this commit of the core, nor is
what was recorded before. -/
structure Under (w : World) (url : Text) (tip : Commit) : Prop where
  inMain : InMain w tip
  forge : MainIs tip.Reaches (w.forges url)
  strays : ∀ s ∈ w.strays, s.1 = url → MainCommand tip.Reaches s.2
  vouched : ∀ u before v, w.vouched = some (u, before) →
    before.lookup mainRef = some (.commit v) → tip.Reaches v

/-- What a push sends: main and every tag were so at the core at some moment of their own. -/
structure Snapshot (past : Text → Option Target → Prop) (w : World) (url : Text) (here : Refs)
    (tip : Commit) : Prop extends Under w url tip where
  past : ∀ name, past name (here.lookup name)
  main : here.lookup mainRef = some (.commit tip)

/-- Nothing but pushes touches the name at the forge: no hand and no stray command is meant for it. -/
def Quiet (calm : Text → Text → Prop) (w : World) (url name : Text) : Prop :=
  calm url name ∧ ∀ s ∈ w.strays, s.1 = url → s.2.name ≠ name

/-- What has been read at the forge: main there has not left what was read, and quiet names are what
they were. -/
structure Watched (calm : Text → Text → Prop) (w : World) (url : Text)
    (there : Text → Option (Option Target)) : Prop where
  main : ∀ f, there mainRef = some (some (.commit f)) →
    ∃ c, (w.forges url).lookup mainRef = some (.commit c) ∧ c.Reaches f
  quiet : ∀ name t, there name = some t → name ≠ mainRef → Quiet calm w url name →
    (w.forges url).lookup name = t

structure HalfRead (past : Text → Option Target → Prop) (calm : Text → Text → Prop) (w : World)
    (url : Text) (here there : Text → Option (Option Target)) : Prop where
  past : ∀ name t, here name = some t → past name t
  watched : Watched calm w url there
  behind : ∀ t, there mainRef = some (some t) → ∃ f, t = .commit f ∧ InMain w f
  under : ∀ t, here mainRef = some (some t) → ∃ tip, t = .commit tip ∧ Under w url tip ∧
    ∀ f, there mainRef = some (some (.commit f)) → tip.Reaches f

def Fits (past : Text → Option Target → Prop) (calm : Text → Text → Prop) (w : World) : Stage → Prop
  | .reading url _ req here there => IsMirror req ∧
      HalfRead past calm w url (fun name => here.lookup name) (fun name => there.lookup name)
  | .sending url _ here cmds => ∃ tip there, Snapshot past w url here tip ∧
      MainIs tip.Reaches there ∧ Planned here there cmds ∧
      Watched calm w url (fun name => some (there.lookup name))
  | .recording (.ok (url, here)) => (∃ tip, Snapshot past w url here tip) ∧
      ∀ name, Mirrored name → (name = mainRef ∨ Quiet calm w url name) →
        (w.forges url).lookup name = here.lookup name
  | _ => True

theorem fits_of_not_busy {past : Text → Option Target → Prop} {calm : Text → Text → Prop} (w : World)
    {stage : Stage} (h : busy stage = false) : Fits past calm w stage := by
  cases stage with
  | settings => trivial
  | ended => trivial
  | _ => cases h

section World

variable {past past' : Text → Option Target → Prop} {calm : Text → Text → Prop} {w w' : World}
  {P Q : Commit → Prop}

theorem MainIs.mono {refs : Refs} (h : MainIs P refs) (hPQ : ∀ c, P c → Q c) : MainIs Q refs := by
  intro t ht
  obtain ⟨c, rfl, hc⟩ := h t ht
  exact ⟨c, rfl, hPQ c hc⟩

theorem MainCommand.mono {cmd : Command} (h : MainCommand P cmd) (hPQ : ∀ c, P c → Q c) :
    MainCommand Q cmd := by
  intro hname
  obtain ⟨c, hnew, hc, hold⟩ := h hname
  exact ⟨c, hnew, hPQ c hc, hold⟩

section After

variable {forge : Forge} {cmds : List Command} {refs : Refs}

theorem mainIs_after (hnodup : (cmds.map Command.name).Nodup) (h : MainIs P refs)
    (hcmds : ∀ cmd ∈ cmds, MainCommand P cmd) : MainIs P (forge.after cmds refs) := by
  intro t ht
  by_cases hmem : mainRef ∈ cmds.map Command.name
  · obtain ⟨cmd, hcmd, hname⟩ := List.mem_map.mp hmem
    obtain ⟨c, hnew, hc, -⟩ := hcmds cmd hcmd hname
    have hafter := @forge.lookup_after_of_mem refs cmds cmd hnodup hcmd
    rw [hname] at hafter
    rcases hafter with hsame | ⟨-, hswapped⟩
    · exact h t (hsame.symm.trans ht)
    · rw [hswapped, hnew] at ht
      exact ⟨c, (Option.some.inj ht).symm, hc⟩
  · rw [forge.lookup_after_of_notMem hmem] at ht
    exact h t ht

theorem onward_after (hnodup : (cmds.map Command.name).Nodup)
    (hcmds : ∀ cmd ∈ cmds, MainCommand P cmd) {b : Commit}
    (hb : refs.lookup mainRef = some (.commit b)) :
    ∃ d, (forge.after cmds refs).lookup mainRef = some (.commit d) ∧ d.Reaches b := by
  by_cases hmem : mainRef ∈ cmds.map Command.name
  · obtain ⟨cmd, hcmd, hname⟩ := List.mem_map.mp hmem
    obtain ⟨c, hnew, -, hold⟩ := hcmds cmd hcmd hname
    have hafter := @forge.lookup_after_of_mem refs cmds cmd hnodup hcmd
    rw [hname] at hafter
    rcases hafter with hsame | ⟨hstood, hswapped⟩
    · exact ⟨b, hsame.trans hb, .refl⟩
    · obtain ⟨a, ha, hreach⟩ := hold _ (hstood.symm.trans hb)
      obtain rfl := Target.commit.inj ha
      exact ⟨c, hswapped.trans hnew, hreach⟩
  · exact ⟨b, (forge.lookup_after_of_notMem hmem).trans hb, .refl⟩

end After

private theorem nodup_single (cmd : Command) : (([cmd] : List Command).map Command.name).Nodup :=
  List.nodup_singleton _

theorem Planned.mainCommand {here there : Refs} {cmds : List Command} {tip : Commit}
    (h : Planned here there cmds) (hmain : here.lookup mainRef = some (.commit tip))
    (hthere : MainIs tip.Reaches there) : ∀ cmd ∈ cmds, MainCommand (fun c => c = tip) cmd := by
  intro cmd hcmd hname
  obtain ⟨-, hold, hnew⟩ := command_eq_some ((h.mem cmd).mp hcmd)
  rw [hname, sent_mirrored here (Or.inl rfl), hmain] at hnew
  rw [hname] at hold
  exact ⟨tip, hnew, rfl, fun t ht => hthere t (hold.symm.trans ht)⟩

structure Keeps (calm : Text → Text → Prop) (w w' : World) : Prop where
  inMain : ∀ c, InMain w c → InMain w' c
  under : ∀ url tip, Under w url tip → Under w' url tip
  onward : ∀ url c, (w.forges url).lookup mainRef = some (.commit c) →
    ∃ d, (w'.forges url).lookup mainRef = some (.commit d) ∧ d.Reaches c
  quiet : ∀ url name, name ≠ mainRef → Quiet calm w' url name →
    Quiet calm w url name ∧ (w'.forges url).lookup name = (w.forges url).lookup name

protected theorem Keeps.refl (w : World) : Keeps calm w w :=
  ⟨fun _ => id, fun _ _ => id, fun _ c hc => ⟨c, hc, .refl⟩, fun _ _ _ h => ⟨h, rfl⟩⟩

theorem Keeps.watched (h : Keeps calm w w') {url : Text} {there : Text → Option (Option Target)}
    (hwatched : Watched calm w url there) : Watched calm w' url there where
  main := by
    intro f hf
    obtain ⟨c, hc, hreach⟩ := hwatched.main f hf
    obtain ⟨d, hd, hdc⟩ := h.onward url c hc
    exact ⟨d, hd, hdc.trans hreach⟩
  quiet := by
    intro name t ht hname hquiet
    obtain ⟨hbefore, hsame⟩ := h.quiet url name hname hquiet
    exact hsame.trans (hwatched.quiet name t ht hname hbefore)

/-- A main that is equal stays so: it only goes onward, and not ahead. -/
theorem Keeps.main (h : Keeps calm w w') {url : Text} {tip : Commit} (hunder : Under w url tip)
    (hequal : (w.forges url).lookup mainRef = some (.commit tip)) :
    (w'.forges url).lookup mainRef = some (.commit tip) := by
  obtain ⟨d, hd, honward⟩ := h.onward url tip hequal
  obtain ⟨c, hc, hbehind⟩ := (h.under url tip hunder).forge _ hd
  obtain rfl := Target.commit.inj hc
  rw [hd, RefMoves.reaches_antisymm honward hbehind]

theorem Fits.keeps (hmore : ∀ name t, past name t → past' name t) (hkeeps : Keeps calm w w')
    {stage : Stage} (h : Fits past calm w stage) : Fits past' calm w' stage := by
  have hsnapshot : ∀ {url here tip}, Snapshot past w url here tip →
      Snapshot past' w' url here tip := fun hread =>
    ⟨hkeeps.under _ _ hread.toUnder, fun name => hmore _ _ (hread.past name), hread.main⟩
  cases stage with
  | settings => trivial
  | reading url token req here there =>
    refine ⟨h.1, fun name t ht => hmore _ _ (h.2.past name t ht), hkeeps.watched h.2.watched,
      fun t ht => ?_, fun t ht => ?_⟩
    · obtain ⟨f, hf, hmain⟩ := h.2.behind t ht
      exact ⟨f, hf, hkeeps.inMain f hmain⟩
    · obtain ⟨tip, htip, hunder, hahead⟩ := h.2.under t ht
      exact ⟨tip, htip, hkeeps.under url tip hunder, hahead⟩
  | sending url token here cmds =>
    obtain ⟨tip, there, hread, hthere, hcmds, hwatched⟩ := h
    exact ⟨tip, there, hsnapshot hread, hthere, hcmds, hkeeps.watched hwatched⟩
  | recording outcome =>
    cases outcome with
    | error e => trivial
    | ok sent =>
      obtain ⟨⟨tip, hread⟩, hequal⟩ := h
      refine ⟨⟨tip, hsnapshot hread⟩, fun name hname hquiet => ?_⟩
      by_cases hmain : name = mainRef
      · subst hmain
        have hsame := hequal mainRef hname (Or.inl rfl)
        rw [hread.main] at hsame ⊢
        exact hkeeps.main hread.toUnder hsame
      · obtain ⟨hbefore, hsame⟩ := hkeeps.quiet _ name hmain (hquiet.resolve_left hmain)
        rw [hsame]
        exact hequal name hname (Or.inr hbefore)
  | ended => trivial

section Arrive

variable {forge : Forge} {stray : Text × Command} {url : Text} {tip : Commit}

theorem onward_arrive (h : Follows w) (hstray : stray ∈ w.strays) {c : Commit}
    (hc : (w.forges url).lookup mainRef = some (.commit c)) :
    ∃ d, ((arrive forge w stray).forges url).lookup mainRef = some (.commit d) ∧ d.Reaches c := by
  by_cases hurl : url = stray.1
  · subst hurl
    simp only [arrive, Function.update_self]
    exact onward_after (nodup_single _) (List.forall_mem_singleton.mpr (h.strays stray hstray)) hc
  · simp only [arrive, Function.update_of_ne hurl]
    exact ⟨c, hc, .refl⟩

theorem mainIs_arrive (h : MainIs P (w.forges url)) (hcmd : stray.1 = url → MainCommand P stray.2) :
    MainIs P ((arrive forge w stray).forges url) := by
  by_cases hurl : url = stray.1
  · subst hurl
    simp only [arrive, Function.update_self]
    exact mainIs_after (nodup_single _) h (List.forall_mem_singleton.mpr (hcmd rfl))
  · simp only [arrive, Function.update_of_ne hurl]
    exact h

theorem follows_arrive (h : Follows w) (hstray : stray ∈ w.strays) :
    Follows (arrive forge w stray) where
  core := h.core
  forges := fun url => mainIs_arrive (h.forges url) fun _ => h.strays stray hstray
  strays := h.strays
  vouched := by
    intro url here hvouched
    obtain ⟨v, c, hv, hunder, hc, hreach⟩ := h.vouched url here hvouched
    obtain ⟨d, hd, hdc⟩ := @onward_arrive _ forge _ _ h hstray c hc
    exact ⟨v, d, hv, hunder, hd, hdc.trans hreach⟩

theorem Under.arrive (h : Under w url tip) (hstray : stray ∈ w.strays) :
    Under (arrive forge w stray) url tip where
  inMain := h.inMain
  forge := mainIs_arrive h.forge (h.strays stray hstray)
  strays := h.strays
  vouched := h.vouched

theorem keeps_arrive (h : Follows w) (hstray : stray ∈ w.strays) :
    Keeps calm w (arrive forge w stray) where
  inMain := fun _ => id
  under := fun _ _ hunder => hunder.arrive hstray
  onward := fun _ _ hc => onward_arrive h hstray hc
  quiet := by
    intro url name _ hquiet
    refine ⟨hquiet, ?_⟩
    by_cases hurl : url = stray.1
    · subst hurl
      simp only [arrive, Function.update_self]
      refine forge.lookup_after_of_notMem fun hmem => ?_
      exact hquiet.2 stray hstray rfl (List.mem_singleton.mp hmem).symm
    · simp only [arrive, Function.update_of_ne hurl]

end Arrive

section Touch

variable {url name : Text} {t : Option Target}

private theorem lookup_touch {other : Text} {there : Text} (h : (there, other) ≠ (url, name)) :
    ((touch url name t w).forges there).lookup other = (w.forges there).lookup other := by
  by_cases hurl : there = url
  · subst hurl
    have hother : other ≠ name := fun heq => h (by rw [heq])
    simp only [touch, Function.update_self]
    rw [lookup_put, if_neg hother]
  · simp only [touch, Function.update_of_ne hurl]

private theorem lookup_touch_main (hname : name ≠ mainRef) (there : Text) :
    ((touch url name t w).forges there).lookup mainRef = (w.forges there).lookup mainRef :=
  lookup_touch fun heq => hname (Prod.mk.inj heq).2.symm

theorem follows_touch (h : Follows w) (hname : name ≠ mainRef) : Follows (touch url name t w) where
  core := h.core
  forges := by
    intro there u hu
    rw [lookup_touch_main hname] at hu
    exact h.forges there u hu
  strays := h.strays
  vouched := by
    intro there here hvouched
    rw [lookup_touch_main hname]
    exact h.vouched there here hvouched

theorem keeps_touch (hname : name ≠ mainRef) (hcalm : ¬ calm url name) :
    Keeps calm w (touch url name t w) where
  inMain := fun _ => id
  under := by
    intro there tip h
    refine ⟨h.inMain, fun u hu => ?_, h.strays, h.vouched⟩
    rw [lookup_touch_main hname] at hu
    exact h.forge u hu
  onward := by
    intro there c hc
    rw [lookup_touch_main hname]
    exact ⟨c, hc, .refl⟩
  quiet := by
    intro there other _ hquiet
    refine ⟨hquiet, lookup_touch fun heq => ?_⟩
    obtain ⟨rfl, rfl⟩ := Prod.mk.inj heq
    exact hcalm hquiet.1

end Touch

theorem keeps_elsewhere {state : Service.State} {settings : Settings}
    (hunder : ∀ c, InMain w c → InMain { w with core := state, settings := settings } c) :
    Keeps calm w { w with core := state, settings := settings } where
  inMain := hunder
  under := fun _ _ h => ⟨hunder _ h.inMain, h.forge, h.strays, h.vouched⟩
  onward := fun _ c hc => ⟨c, hc, .refl⟩
  quiet := fun _ _ _ h => ⟨h, rfl⟩

section CoreOps

variable (core : Core) (lib : GitLibrary) (op : Service.Op)

private theorem moves_core (st : Service.State) :
    RefRuns.RefMoves (fun ref => RefRuns.grownBy op ref) (fun ref => RefRuns.freedBy op ref)
      (held st.disk) (held (Service.step core lib op st).disk) :=
  (grows_step core lib op st (fun _ h => h) fun _ h => h).moves

theorem inMain_core {c : Commit} (h : InMain w c) :
    InMain { w with core := Service.step core lib op w.core } c := by
  obtain ⟨tip, htip, hreach⟩ := h
  obtain ⟨later, hlater, honward⟩ := (moves_core core lib op w.core).onward (absurd rfl) (absurd rfl) htip
  exact ⟨later, hlater, honward.trans hreach⟩

theorem follows_core (h : Follows w) : Follows { w with core := Service.step core lib op w.core } where
  core := by
    intro t ht
    have hcommit : ∀ t, (held w.core.disk).lookup mainRef = some t → ∃ c, t = .commit c := by
      intro t ht
      obtain ⟨c, hc, -⟩ := h.core t ht
      exact ⟨c, hc⟩
    obtain ⟨c, hc⟩ := (moves_core core lib op w.core).trunk_commit hcommit t ht
    exact ⟨c, hc, trivial⟩
  forges := fun url => (h.forges url).mono fun _ => inMain_core core lib op
  strays := fun s hs => (h.strays s hs).mono fun _ => inMain_core core lib op
  vouched := by
    intro url here hvouched
    obtain ⟨v, c, hv, hunder, hc, hreach⟩ := h.vouched url here hvouched
    exact ⟨v, c, hv, inMain_core core lib op hunder, hc, hreach⟩

end CoreOps

section Advance

variable (git : Git) (bare : Text) (vault : Vault) (turn : Turn)

theorem isMirror_prepare {url stored token : Text} {req : Request}
    (h : prepare git bare vault url stored = .ok (token, req)) : IsMirror req := by
  unfold prepare at h
  split at h
  · cases h
  split at h
  · cases h
  split_ifs at h
  split at h
  · cases h
  · rename_i read hread
    obtain ⟨pushurl, hpushurl, hargs⟩ := Option.bind_eq_some_iff.mp hread
    rw [git.reads _ _ (readPush_mirrorArgs hpushurl)] at hargs
    obtain ⟨-, rfl⟩ := Prod.mk.inj (Except.ok.inj h)
    rw [← Option.some.inj hargs]
    exact ⟨rfl, rfl, rfl⟩

theorem inMain_iff {tip c : Commit} (htip : (held w.core.disk).lookup mainRef = some (.commit tip)) :
    InMain w c ↔ tip.Reaches c := by
  constructor
  · intro h
    obtain ⟨other, hother, hreach⟩ := h
    rw [Refs.commit_unique htip hother]
    exact hreach
  · exact fun h => ⟨tip, htip, h⟩

theorem under_of_read (h : Follows w) {t : Target} (url : Text)
    (hmain : (held w.core.disk).lookup mainRef = some t) :
    ∃ tip, t = .commit tip ∧ Under w url tip ∧ ∀ c, InMain w c → tip.Reaches c := by
  obtain ⟨tip, rfl, -⟩ := h.core t hmain
  have hiff : ∀ c, InMain w c → tip.Reaches c := fun c => (inMain_iff hmain).mp
  refine ⟨tip, rfl, ⟨⟨tip, hmain, .refl⟩, (h.forges url).mono hiff,
    fun s hs _ => (h.strays s hs).mono hiff, fun u before v hvouched hv => ?_⟩, hiff⟩
  obtain ⟨v', -, hv', hunder, -⟩ := h.vouched u before hvouched
  rw [Refs.commit_unique hv hv']
  exact hiff v' hunder

section Reading

variable {url : Text} {refs : Refs} {here there more : Text → Option (Option Target)}

theorem HalfRead.readHere (h : HalfRead past calm w url here there) (hfollows : Follows w)
    (hdisk : w.core.disk = .repo refs) (hpast : ∀ name, past name (refs.lookup name))
    (hmore : ∀ name t, more name = some t → here name = some t ∨ t = refs.lookup name) :
    HalfRead past calm w url more there where
  past := by
    intro name t ht
    rcases hmore name t ht with hbefore | rfl
    · exact h.past name t hbefore
    · exact hpast name
  watched := h.watched
  behind := h.behind
  under := by
    intro t ht
    rcases hmore mainRef _ ht with hbefore | hnow
    · exact h.under t hbefore
    · have hheld : held w.core.disk = refs := by rw [hdisk]; rfl
      obtain ⟨tip, htip, hunder, hahead⟩ :=
        under_of_read hfollows url (show (held w.core.disk).lookup mainRef = some t by
          rw [hheld, ← hnow])
      refine ⟨tip, htip, hunder, fun f hf => ?_⟩
      obtain ⟨g, hg, hmain⟩ := h.behind _ hf
      rw [Target.commit.inj hg]
      exact hahead g hmain

theorem HalfRead.readThere (h : HalfRead past calm w url here there) (hfollows : Follows w)
    (hmore : ∀ name t, more name = some t → there name = some t ∨ t = (w.forges url).lookup name) :
    HalfRead past calm w url here more where
  past := h.past
  watched := by
    refine ⟨fun f hf => ?_, fun name t ht hname hquiet => ?_⟩
    · rcases hmore mainRef _ hf with hbefore | hnow
      · exact h.watched.main f hbefore
      · exact ⟨f, hnow.symm, .refl⟩
    · rcases hmore name t ht with hbefore | rfl
      · exact h.watched.quiet name t hbefore hname hquiet
      · rfl
  behind := by
    intro t ht
    rcases hmore mainRef _ ht with hbefore | hnow
    · exact h.behind t hbefore
    · exact hfollows.forges url t hnow.symm
  under := by
    intro t ht
    obtain ⟨tip, htip, hunder, hahead⟩ := h.under t ht
    refine ⟨tip, htip, hunder, fun f hf => ?_⟩
    rcases hmore mainRef _ hf with hbefore | hnow
    · exact hahead f hbefore
    · obtain ⟨g, hg, hreach⟩ := hunder.forge _ hnow.symm
      rw [Target.commit.inj hg]
      exact hreach

private theorem lookup_read {log : Log} {name other : Text} {value t : Option Target}
    (h : List.lookup other ((name, value) :: log) = some t) :
    log.lookup other = some t ∨ other = name ∧ t = value := by
  rw [List.lookup_cons] at h
  split at h
  · rename_i heq
    exact Or.inr ⟨beq_iff_eq.mp heq, (Option.some.inj h).symm⟩
  · exact Or.inl h

private theorem lookup_settled {log : Log} {refs : Refs} {name : Text} {t : Option Target}
    (h : some ((settle log refs).lookup name) = some t) :
    log.lookup name = some t ∨ t = refs.lookup name := by
  cases hread : log.lookup name with
  | none =>
    rw [lookup_settle_of_unread refs hread] at h
    exact Or.inr (Option.some.inj h).symm
  | some u =>
    rw [lookup_settle_of_read refs hread] at h
    exact Or.inl h

theorem HalfRead.snapshot {here there : Refs}
    (h : HalfRead past calm w url (fun name => some (here.lookup name))
      (fun name => some (there.lookup name)))
    (hresolves : mirrorSpecs.all (Refspec.resolves here) = true) :
    ∃ tip, Snapshot past w url here tip ∧ MainIs tip.Reaches there := by
  have hsome : (here.lookup mainRef).isSome = true :=
    List.all_eq_true.mp hresolves (.one mainRef mainRef) List.mem_cons_self
  obtain ⟨t, ht⟩ := Option.isSome_iff_exists.mp hsome
  obtain ⟨tip, rfl, hunder, hahead⟩ := h.under t (congrArg some ht)
  refine ⟨tip, ⟨hunder, fun name => h.past name _ rfl, ht⟩, fun u hu => ?_⟩
  obtain ⟨f, rfl, -⟩ := h.behind u (congrArg some hu)
  exact ⟨f, rfl, hahead f (congrArg some hu)⟩

end Reading

theorem follows_strays {url : Text} {here there : Refs} {tip : Commit} {cmds : List Command}
    (h : Follows w) (hread : Snapshot past w url here tip) (hthere : MainIs tip.Reaches there)
    (hcmds : Planned here there cmds) :
    Follows { w with strays := w.strays ++ cmds.map (fun cmd => (url, cmd)) } where
  core := h.core
  forges := h.forges
  strays := by
    intro s hs
    rcases List.mem_append.mp hs with hs | hs
    · exact h.strays s hs
    · obtain ⟨cmd, hcmd, rfl⟩ := List.mem_map.mp hs
      refine (hcmds.mainCommand hread.main hthere cmd hcmd).mono ?_
      rintro c rfl
      exact hread.inMain
  vouched := h.vouched

theorem follows_abandon {stage : Stage} (h : Follows w) (hfits : Fits past calm w stage) :
    Follows (abandon w stage) := by
  cases stage with
  | sending url token here cmds =>
    obtain ⟨tip, there, hread, hthere, hcmds, -⟩ := hfits
    exact follows_strays h hread hthere hcmds
  | _ => exact h

section Sent

variable {forge : Forge} {url : Text} {here there : Refs} {tip : Commit} {cmds : List Command}

abbrev delivered (forge : Forge) (url : Text) (cmds : List Command) (w : World) : World :=
  { w with forges := Function.update w.forges url (forge.after cmds (w.forges url)) }

theorem follows_deliver (h : Follows w) (hread : Snapshot past w url here tip)
    (hthere : MainIs tip.Reaches there) (hcmds : Planned here there cmds) :
    Follows (delivered forge url cmds w) where
  core := h.core
  forges := by
    intro other
    by_cases hurl : other = url
    · subst hurl
      simp only [Function.update_self]
      refine mainIs_after hcmds.nodup (h.forges other) fun cmd hcmd => ?_
      refine (hcmds.mainCommand hread.main hthere cmd hcmd).mono ?_
      rintro c rfl
      exact hread.inMain
    · simp only [Function.update_of_ne hurl]
      exact h.forges other
  strays := h.strays
  vouched := by
    intro other before hvouched
    obtain ⟨v, c, hv, hunder, hc, hreach⟩ := h.vouched other before hvouched
    by_cases hurl : other = url
    · subst hurl
      obtain ⟨d, hd, hdc⟩ := @onward_after _ forge cmds _ hcmds.nodup
        (hcmds.mainCommand hread.main hthere) c hc
      refine ⟨v, d, hv, hunder, ?_, hdc.trans hreach⟩
      simp only [Function.update_self]
      exact hd
    · refine ⟨v, c, hv, hunder, ?_, hreach⟩
      simp only [Function.update_of_ne hurl]
      exact hc

theorem fits_delivered (hread : Snapshot past w url here tip) (hthere : MainIs tip.Reaches there)
    (hcmds : Planned here there cmds)
    (hwatched : Watched calm w url (fun name => some (there.lookup name)))
    (hwell : forge.well cmds (w.forges url) = true) :
    Fits past calm (delivered forge url cmds w) (.recording (.ok (url, here))) := by
  refine ⟨⟨tip, { hread with forge := ?_ }⟩, fun name hname hquiet => ?_⟩
  · simp only [Function.update_self]
    refine mainIs_after hcmds.nodup hread.forge fun cmd hcmd => ?_
    refine (hcmds.mainCommand hread.main hthere cmd hcmd).mono ?_
    rintro c rfl
    exact .refl
  · simp only [Function.update_self]
    have hwanted : wanted true mirrorSpecs here there name = here.lookup name :=
      wanted_mirrored hname (by rw [hread.main]; rfl)
    rw [← hwanted]
    refine hcmds.lookup_after hwell fun hnone => ?_
    by_cases hmain : name = mainRef
    · -- the forge had main as it is at the core, has not left it, and is not ahead
      subst hmain
      rw [command_main_some hread.main] at hnone
      split_ifs at hnone with hsame
      obtain ⟨c, hc, honward⟩ := hwatched.main tip (congrArg some hsame)
      obtain ⟨d, hd, hbehind⟩ := hread.forge _ hc
      obtain rfl := Target.commit.inj hd
      rw [hc, hsame, RefMoves.reaches_antisymm honward hbehind]
    · exact hwatched.quiet name _ rfl hmain (hquiet.resolve_left hmain)

end Sent

theorem inv_advance {stage : Stage} (h : Follows w) (hfits : Fits past calm w stage)
    (hpast : ∀ refs, w.core.disk = .repo refs → ∀ name, past name (refs.lookup name)) :
    Follows (advance git bare vault turn w stage).1 ∧
      Fits past calm (advance git bare vault turn w stage).1
        (advance git bare vault turn w stage).2 := by
  cases stage with
  | settings =>
    unfold advance
    dsimp only
    split_ifs
    · exact ⟨h, trivial⟩
    split
    · exact ⟨h, trivial⟩
    split
    · exact ⟨h, trivial⟩
    · rename_i hprepare
      exact ⟨h, isMirror_prepare git bare vault hprepare, nofun, ⟨nofun, nofun⟩, nofun, nofun⟩
  | reading url token req here there =>
    obtain ⟨hreq, hread⟩ := hfits
    unfold advance
    dsimp only
    split
    · rename_i refs _ hdisk
      have hnow := hpast refs hdisk
      split
      · refine ⟨h, hreq, hread.readHere h hdisk hnow fun other t ht => ?_⟩
        rcases lookup_read ht with hbefore | ⟨rfl, rfl⟩
        · exact Or.inl hbefore
        · exact Or.inr rfl
      · refine ⟨h, hreq, hread.readThere h fun other t ht => ?_⟩
        rcases lookup_read ht with hbefore | ⟨rfl, rfl⟩
        · exact Or.inl hbefore
        · exact Or.inr rfl
      · have hall := (hread.readHere h hdisk hnow fun _ _ => lookup_settled).readThere h
          fun _ _ => lookup_settled
        split_ifs with hresolves
        · rw [hreq.specs] at hresolves
          obtain ⟨tip, hsnapshot, hthere⟩ := hall.snapshot hresolves
          exact ⟨h, tip, _, hsnapshot, hthere, planned_commands git hreq _ _, hall.watched⟩
        · exact ⟨h, trivial⟩
    · exact ⟨h, trivial⟩
  | sending url token here cmds =>
    obtain ⟨tip, there, hread, hthere, hcmds, hwatched⟩ := hfits
    cases hanswered : turn.answered with
    | false =>
      simp only [advance, hanswered]
      exact ⟨follows_strays h hread hthere hcmds, trivial⟩
    | true =>
      simp only [advance, hanswered, if_true]
      refine ⟨follows_deliver h hread hthere hcmds, ?_⟩
      cases hwell : turn.forge.well cmds (w.forges url) with
      | false => exact trivial
      | true => exact fits_delivered hread hthere hcmds hwatched hwell
  | recording outcome =>
    cases hanswered : turn.answered with
    | false =>
      simp only [advance, hanswered]
      exact ⟨h, trivial⟩
    | true =>
      cases outcome with
      | error e =>
        simp only [advance, hanswered]
        exact ⟨{ h with }, trivial⟩
      | ok sent =>
        simp only [advance, hanswered]
        refine ⟨{ h with vouched := fun url here hvouched => ?_ }, trivial⟩
        obtain ⟨⟨tip, hread⟩, hequal⟩ := hfits
        obtain ⟨rfl, rfl⟩ := Prod.mk.inj (Option.some.inj hvouched)
        refine ⟨tip, tip, hread.main, hread.inMain, ?_, .refl⟩
        exact (hequal mainRef (Or.inl rfl) (Or.inl rfl)).trans hread.main
  | ended => exact ⟨h, trivial⟩

theorem checkAccess_eq (url token : Text) (turn : Turn) :
    checkAccess git bare url token turn w = w := by
  unfold checkAccess
  split
  · rename_i refs req hdisk hread
    obtain ⟨pushurl, hpushurl, hargs⟩ := Option.bind_eq_some_iff.mp hread
    rw [git.reads _ _ (readPush_checkArgs hpushurl)] at hargs
    obtain rfl := Option.some.inj hargs
    have hnone := git.dry _ refs (w.forges url) (show Request.dryRun ⟨false, true, pushurl,
      [.remove "refs/heads/setfork-access-check-do-not-create".toList]⟩ = true from rfl)
    simp only [hnone, Forge.after_nil, Function.update_eq_self]
  · rfl

end Advance

end World

section Runs

variable {ι : Type} [DecidableEq ι] {core : Core} {lib : GitLibrary} {git : Git} {bare : Text}
  {vault : Vault} {past past' : ι → Text → Option Target → Prop} {calm : Text → Text → Prop}
  {st : State ι}

/-- What holds after any steps, with what each push can have read at the core and the names no hand
at a forge touches. -/
structure Inv (past : ι → Text → Option Target → Prop) (calm : Text → Text → Prop) (st : State ι) :
    Prop where
  turns : Turns st
  follows : Follows st.world
  fits : ∀ a, Fits (past a) calm st.world (st.stages a)

def HandsOff (calm : Text → Text → Prop) (op : Op ι) : Prop :=
  ∀ url name t, op = .touch url name t → name ≠ mainRef ∧ ¬ calm url name

theorem inv_stepCall (a : ι) (dropped : Bool) (turn : Turn) (h : Inv past calm st)
    (hpast : ∀ refs, st.world.core.disk = .repo refs → ∀ name, past a name (refs.lookup name)) :
    Inv past calm (stepCall git bare vault a dropped turn st) := by
  have hturns := @turns_stepCall _ _ git bare vault st a dropped turn h.turns
  have hidle : ∀ b, b ≠ a → busy (st.stages a) = true → busy (st.stages b) = false := by
    intro b hb ha
    rw [Bool.eq_false_iff]
    exact fun hbusy => hb (h.turns.alone hbusy ha)
  rcases @stepCall_cases _ _ git bare vault a dropped turn st with heq | ⟨-, heq⟩ | ⟨-, b, heq⟩
  · rw [heq] at hturns ⊢
    refine ⟨hturns, follows_abandon h.follows (h.fits a), fun c => ?_⟩
    by_cases hca : c = a
    · subst hca
      simp only [Function.update_self]
      trivial
    · simp only [Function.update_of_ne hca]
      cases hbusy : busy (st.stages a) with
      | true => exact fits_of_not_busy _ (hidle c hca hbusy)
      | false =>
        have hsame : abandon st.world (st.stages a) = st.world := by
          cases hstage : st.stages a with
          | sending url token here cmds =>
            rw [hstage] at hbusy
            cases hbusy
          | _ => rfl
        rw [hsame]
        exact h.fits c
  · rw [heq] at hturns ⊢
    obtain ⟨hfollows, hfits⟩ := inv_advance git bare vault turn h.follows (h.fits a) hpast
    refine ⟨hturns, hfollows, fun c => ?_⟩
    by_cases hca : c = a
    · subst hca
      simp only [Function.update_self]
      exact hfits
    · simp only [Function.update_of_ne hca]
      cases hbusy : busy (st.stages a) with
      | true => exact fits_of_not_busy _ (hidle c hca hbusy)
      | false =>
        have hsame : (advance git bare vault turn st.world (st.stages a)).1 = st.world := by
          cases hstage : st.stages a with
          | settings =>
            unfold advance
            dsimp only
            split_ifs
            · rfl
            split
            · rfl
            split <;> rfl
          | ended => rfl
          | _ =>
            rw [hstage] at hbusy
            cases hbusy
        rw [hsame]
        exact h.fits c
  · rw [heq] at hturns ⊢
    exact ⟨hturns, h.follows, h.fits⟩

theorem inv_step (op : Op ι) (h : Inv past calm st)
    (hmore : ∀ a name t, past a name t → past' a name t)
    (hpast : ∀ refs, st.world.core.disk = .repo refs → ∀ a name, past' a name (refs.lookup name))
    (hhands : HandsOff calm op) : Inv past' calm (step core lib git bare vault op st) := by
  replace h : Inv past' calm st :=
    ⟨h.turns, h.follows, fun a => (h.fits a).keeps (hmore a) (.refl _)⟩
  cases op with
  | core op => exact ⟨⟨h.turns.inv, h.turns.busy⟩, follows_core core lib op h.follows, fun a =>
      (h.fits a).keeps (fun _ _ => id) (keeps_elsewhere fun _ => inMain_core core lib op)⟩
  | configure settings => exact ⟨⟨h.turns.inv, h.turns.busy⟩, { h.follows with }, fun a =>
      (h.fits a).keeps (fun _ _ => id) (keeps_elsewhere fun _ => id)⟩
  | call a dropped turn => exact inv_stepCall a dropped turn h fun refs hrefs => hpast refs hrefs a
  | check url token turn =>
    simp only [step, checkAccess_eq]
    exact h
  | arrive i forge =>
    simp only [step]
    split
    · exact h
    · rename_i stray hstray
      have hmem := List.mem_of_getElem? hstray
      exact ⟨⟨h.turns.inv, h.turns.busy⟩, follows_arrive h.follows hmem, fun a =>
        (h.fits a).keeps (fun _ _ => id) (keeps_arrive h.follows hmem)⟩
  | touch url name t =>
    obtain ⟨hname, hcalm⟩ := hhands url name t rfl
    exact ⟨⟨h.turns.inv, h.turns.busy⟩, follows_touch h.follows hname, fun a =>
      (h.fits a).keeps (fun _ _ => id) (keeps_touch hname hcalm)⟩

def Past (core : Core) (lib : GitLibrary) (git : Git) (bare : Text) (vault : Vault)
    (start : State ι) (ops : List (Op ι)) (name : Text) (t : Option Target) : Prop :=
  ∃ i ≤ ops.length, ∃ refs,
    (run core lib git bare vault (ops.take i) start).world.core.disk = .repo refs ∧
      refs.lookup name = t

/-- What a push has read it knew before the run, or has read it in the run. -/
theorem inv_run {start : State ι} (hstart : Inv past calm start) {ops : List (Op ι)}
    (hhands : ∀ op ∈ ops, HandsOff calm op) :
    Inv (fun a name t => past a name t ∨ Past core lib git bare vault start ops name t) calm
      (run core lib git bare vault ops start) := by
  induction ops using List.reverseRecOn with
  | nil => exact ⟨hstart.turns, hstart.follows, fun a =>
      (hstart.fits a).keeps (fun _ _ => Or.inl) (.refl _)⟩
  | append_singleton ops op ih =>
    have hprev := ih fun o ho => hhands o (List.mem_append_left _ ho)
    have hrun : run core lib git bare vault (ops ++ [op]) start =
        step core lib git bare vault op (run core lib git bare vault ops start) := by
      rw [run, Runs.run_append]
      rfl
    rw [hrun]
    refine inv_step op hprev ?_ ?_ (hhands op (List.mem_append_right _ (List.mem_singleton_self op)))
    · rintro a name t (hbefore | ⟨i, hi, hpast⟩)
      · exact Or.inl hbefore
      · refine Or.inr ⟨i, by rw [List.length_append]; omega, ?_⟩
        rw [List.take_append_of_le_length hi]
        exact hpast
    · intro refs hrefs a name
      refine Or.inr ⟨ops.length, by rw [List.length_append]; omega, refs, ?_, rfl⟩
      rw [List.take_left]
      exact hrefs

/-- Where main at a forge stands, it goes onward, and what was vouched for is not taken back. -/
structure Onward (before after : World) : Prop where
  forges : ∀ url b, (before.forges url).lookup mainRef = some (.commit b) →
    ∃ c, (after.forges url).lookup mainRef = some (.commit c) ∧ c.Reaches b
  vouched : ∀ url here v, before.vouched = some (url, here) →
    here.lookup mainRef = some (.commit v) →
      ∃ url' here' v', after.vouched = some (url', here') ∧
        here'.lookup mainRef = some (.commit v') ∧ v'.Reaches v

protected theorem Onward.refl (w : World) : Onward w w :=
  ⟨fun _ b hb => ⟨b, hb, .refl⟩, fun url here v h hv => ⟨url, here, v, h, hv, .refl⟩⟩

protected theorem Onward.trans {a b c : World} (h : Onward a b) (h' : Onward b c) : Onward a c where
  forges := by
    intro url d hd
    obtain ⟨e, he, hed⟩ := h.forges url d hd
    obtain ⟨f, hf, hfe⟩ := h'.forges url e he
    exact ⟨f, hf, hfe.trans hed⟩
  vouched := by
    intro url here v hvouched hv
    obtain ⟨url', here', v', hvouched', hv', hreach⟩ := h.vouched url here v hvouched hv
    obtain ⟨url'', here'', v'', hvouched'', hv'', hreach'⟩ := h'.vouched url' here' v' hvouched' hv'
    exact ⟨url'', here'', v'', hvouched'', hv'', hreach'.trans hreach⟩

theorem onward_forges {before after : World} (hvouched : after.vouched = before.vouched)
    (h : ∀ url b, (before.forges url).lookup mainRef = some (.commit b) →
      ∃ c, (after.forges url).lookup mainRef = some (.commit c) ∧ c.Reaches b) :
    Onward before after :=
  ⟨h, fun url here v hbefore hv => ⟨url, here, v, hvouched.trans hbefore, hv, .refl⟩⟩

theorem onward_same {before after : World} (hforges : after.forges = before.forges)
    (hvouched : after.vouched = before.vouched) : Onward before after :=
  onward_forges hvouched fun _ b hb => ⟨b, by rw [hforges]; exact hb, .refl⟩

theorem onward_update {w : World} {url : Text} {refs : Refs}
    (h : ∀ b, (w.forges url).lookup mainRef = some (.commit b) →
      ∃ c, refs.lookup mainRef = some (.commit c) ∧ c.Reaches b) :
    Onward w { w with forges := Function.update w.forges url refs } := by
  refine onward_forges rfl fun other b hb => ?_
  by_cases hurl : other = url
  · subst hurl
    simp only [Function.update_self]
    exact h b hb
  · simp only [Function.update_of_ne hurl]
    exact ⟨b, hb, .refl⟩

theorem onward_advance {past : Text → Option Target → Prop} {w : World} (turn : Turn) {stage : Stage}
    (hfits : Fits past calm w stage) : Onward w (advance git bare vault turn w stage).1 := by
  cases stage with
  | settings =>
    unfold advance
    dsimp only
    split_ifs
    · exact .refl w
    split
    · exact .refl w
    split <;> exact .refl w
  | reading url token req here there =>
    unfold advance
    dsimp only
    split
    · split
      · exact .refl w
      · exact .refl w
      · split_ifs <;> exact .refl w
    · exact .refl w
  | sending url token here cmds =>
    obtain ⟨tip, there, hread, hthere, hcmds, -⟩ := hfits
    cases hanswered : turn.answered with
    | false =>
      simp only [advance, hanswered]
      exact onward_same rfl rfl
    | true =>
      simp only [advance, hanswered, if_true]
      apply onward_update
      intro b hb
      exact onward_after hcmds.nodup (hcmds.mainCommand hread.main hthere) hb
  | recording outcome =>
    cases hanswered : turn.answered with
    | false =>
      simp only [advance, hanswered]
      exact .refl w
    | true =>
      cases outcome with
      | error e =>
        simp only [advance, hanswered]
        exact onward_same rfl rfl
      | ok sent =>
        simp only [advance, hanswered]
        obtain ⟨⟨tip, hread⟩, -⟩ := hfits
        exact ⟨fun _ b hb => ⟨b, hb, .refl⟩, fun url here v hbefore hv =>
          ⟨sent.1, sent.2, tip, rfl, hread.main, hread.vouched url here v hbefore hv⟩⟩
  | ended => exact .refl w

theorem onward_step (op : Op ι) (h : Inv past calm st) (hhands : HandsOff calm op) :
    Onward st.world (step core lib git bare vault op st).world := by
  cases op with
  | core op => exact onward_same rfl rfl
  | configure settings => exact onward_same rfl rfl
  | call a dropped turn =>
    simp only [step]
    rcases @stepCall_cases _ _ git bare vault a dropped turn st with heq | ⟨-, heq⟩ | ⟨-, b, heq⟩
    · rw [heq]
      cases hstage : st.stages a with
      | sending url token here cmds => exact onward_same rfl rfl
      | _ => exact .refl _
    · rw [heq]
      exact onward_advance turn (h.fits a)
    · rw [heq]
      exact .refl _
  | check url token turn =>
    simp only [step, checkAccess_eq]
    exact .refl _
  | arrive i forge =>
    simp only [step]
    split
    · exact .refl _
    · rename_i stray hstray
      apply onward_update
      intro b hb
      exact onward_after (nodup_single _) (List.forall_mem_singleton.mpr
        (h.follows.strays stray (List.mem_of_getElem? hstray))) hb
  | touch url name t =>
    refine onward_forges rfl fun other b hb => ⟨b, ?_, .refl⟩
    simp only [step]
    rw [lookup_touch_main (hhands url name t rfl).1]
    exact hb

theorem onward_run {start : State ι} (hstart : Inv past calm start) {ops : List (Op ι)}
    (hhands : ∀ op ∈ ops, HandsOff calm op) {i j : Nat} (hij : i ≤ j) (hj : j ≤ ops.length) :
    Onward (run core lib git bare vault (ops.take i) start).world
      (run core lib git bare vault (ops.take j) start).world := by
  have hrelated := Runs.run_related_iff (step core lib git bare vault)
    (R := fun a b : State ι => Onward a.world b.world) (fun st => .refl st.world)
    (fun h h' => h.trans h') ops start
  refine hrelated.mpr (fun i hi => ?_) i j hij hj
  have hinv := @inv_run _ _ core lib git bare vault past calm start hstart (ops.take i)
    fun op hop => hhands op (List.mem_of_mem_take hop)
  exact onward_step ops[i] hinv (hhands _ (List.getElem_mem hi))

def StatusTells (first : Status) (w : World) : Prop :=
  w.status.error = none → w.status = first ∨ (w.status.attempts = 0 ∧ w.vouched.isSome = true)

theorem statusTells_advance {w : World} {first : Status} (turn : Turn) (stage : Stage)
    (h : StatusTells first w) : StatusTells first (advance git bare vault turn w stage).1 := by
  cases stage with
  | settings =>
    unfold advance
    dsimp only
    split_ifs
    · exact h
    split
    · exact h
    split <;> exact h
  | reading url token req here there =>
    unfold advance
    dsimp only
    split
    · split
      · exact h
      · exact h
      · split_ifs <;> exact h
    · exact h
  | sending url token here cmds =>
    unfold advance
    dsimp only
    split_ifs <;> exact h
  | recording outcome =>
    cases hanswered : turn.answered with
    | false =>
      simp only [advance, hanswered]
      exact h
    | true =>
      cases outcome with
      | error e =>
        intro herror
        simp only [advance, hanswered] at herror
        cases herror
      | ok sent =>
        intro _
        simp only [advance, hanswered]
        exact Or.inr ⟨rfl, rfl⟩
  | ended => exact h

theorem statusTells_step {first : Status} (op : Op ι) (h : StatusTells first st.world) :
    StatusTells first (step core lib git bare vault op st).world := by
  cases op with
  | core op => exact h
  | configure settings => exact h
  | call a dropped turn =>
    simp only [step]
    rcases @stepCall_cases _ _ git bare vault a dropped turn st with heq | ⟨-, heq⟩ | ⟨-, b, heq⟩
    · rw [heq]
      cases hstage : st.stages a <;> exact h
    · rw [heq]
      exact statusTells_advance turn _ h
    · rw [heq]
      exact h
  | check url token turn =>
    simp only [step, checkAccess_eq]
    exact h
  | arrive i forge =>
    simp only [step]
    split <;> exact h
  | touch url name t => exact h

end Runs

section Unhindered

variable {ι : Type} [DecidableEq ι]

/-- The settings are complete, the token opens, the core has its main, everyone answers, and the
forge takes what it is sent. -/
structure Unhindered (vault : Vault) (turn : Turn) (w : World) (url : Text) (refs : Refs) : Prop where
  credentials : ∃ stored secret token, loadMirror w.settings = some (url, stored) ∧
    vault.secret = some secret ∧ vault.decrypt stored secret = some token
  valid : validMirrorUrl url = true
  disk : w.core.disk = .repo refs
  main : (refs.lookup mainRef).isSome = true
  answered : turn.answered = true
  willing : turn.forge.Willing

variable {core : Core} {lib : GitLibrary} {git : Git} {bare : Text} {vault : Vault} {a : ι}
  {turn : Turn} {calls : System ι (SerializedCalls.Shared Unit) SerializedCalls.Phase}
  {stages : ι → Stage} {g : Nat} {w : World} {url token : Text} {req : Request} {refs : Refs}
  {here there : Log}

theorem step_push {stage next : Stage} {w' : World} (hplace : calls.places a = .executing g)
    (hstage : stages a = stage) (hgoing : stage ≠ .ended)
    (hadvance : advance git bare vault turn w stage = (w', next)) :
    step core lib git bare vault (.call a false turn) ⟨w, calls, stages⟩ =
      ⟨w', calls, Function.update stages a next⟩ := by
  simp only [step, stepCall, hplace, hstage, Bool.false_eq_true, if_false]
  cases stage with
  | ended => exact absurd rfl hgoing
  | _ => simp only [hadvance]

theorem exists_advance_settings (git : Git) (bare : Text) (h : Unhindered vault turn w url refs) :
    ∃ token req, IsMirror req ∧
      advance git bare vault turn w .settings = (w, .reading url token req [] []) := by
  obtain ⟨stored, secret, token, hmirror, hsecret, htoken⟩ := h.credentials
  have hpushurl : ∃ pushurl, urlWithToken url token = some pushurl := by
    have hvalid := h.valid
    unfold validMirrorUrl at hvalid
    unfold urlWithToken
    split at hvalid
    · cases hvalid
    · rename_i rest hrest
      rw [hrest]
      exact ⟨_, rfl⟩
  obtain ⟨pushurl, hpushurl⟩ := hpushurl
  have hprepare : prepare git bare vault url stored =
      .ok (token, ⟨true, false, pushurl, mirrorSpecs⟩) := by
    simp only [prepare, hsecret, htoken, h.valid, hpushurl, Option.bind_some,
      git.reads _ _ (readPush_mirrorArgs hpushurl), Bool.not_true, Bool.false_eq_true, if_false]
  refine ⟨token, _, isMirror_prepare git bare vault hprepare, ?_⟩
  simp only [advance, h.answered, hmirror, hprepare, Bool.not_true, Bool.false_eq_true, if_false]

theorem advance_here {name : Text} (hanswered : turn.answered = true)
    (hdisk : w.core.disk = .repo refs) (hlook : turn.look = .here name) :
    advance git bare vault turn w (.reading url token req here there) =
      (w, .reading url token req ((name, refs.lookup name) :: here) there) := by
  simp only [advance, hanswered, hdisk, hlook]

theorem advance_there {name : Text} (hanswered : turn.answered = true)
    (hdisk : w.core.disk = .repo refs) (hlook : turn.look = .there name) :
    advance git bare vault turn w (.reading url token req here there) =
      (w, .reading url token req here ((name, (w.forges url).lookup name) :: there)) := by
  simp only [advance, hanswered, hdisk, hlook]

theorem advance_rest (hanswered : turn.answered = true) (hdisk : w.core.disk = .repo refs)
    (hlook : turn.look = .rest) (hreq : IsMirror req)
    (hmain : ((settle here refs).lookup mainRef).isSome = true) :
    advance git bare vault turn w (.reading url token req here there) =
      (w, .sending url token (settle here refs)
        (git.commands req (settle here refs) (settle there (w.forges url)))) := by
  have hresolves : req.specs.all (Refspec.resolves (settle here refs)) = true := by
    rw [hreq.specs]
    simp only [mirrorSpecs, List.all_cons, List.all_nil, Refspec.resolves, hmain, Bool.and_self]
  simp only [advance, hanswered, hdisk, hlook, hresolves, if_true]

theorem advance_sending {sent : Refs} {cmds : List Command} (hanswered : turn.answered = true)
    (hwell : turn.forge.well cmds (w.forges url) = true) :
    advance git bare vault turn w (.sending url token sent cmds) =
      (delivered turn.forge url cmds w, .recording (.ok (url, sent))) := by
  simp only [advance, hanswered, hwell, if_true]

theorem advance_recording {sent : Text × Refs} (hanswered : turn.answered = true) :
    advance git bare vault turn w (.recording (.ok sent)) =
      ({ w with status := recordMirrorResult turn.now none w.status, vouched := some sent },
        .ended) := by
  simp only [advance, hanswered, Bool.not_true, Bool.false_eq_true, if_false]

theorem status_recorded (core : Core) (lib : GitLibrary) (git : Git) (bare : Text) (vault : Vault)
    {st : State ι} (hplace : st.calls.places a = .executing g) {sent : Text × Refs}
    (hstage : st.stages a = .recording (.ok sent)) (hanswered : turn.answered = true) :
    (step core lib git bare vault (.call a false turn) st).world.status =
      ⟨some turn.now, none, 0⟩ := by
  rcases st with ⟨w, calls, stages⟩
  rw [step_push hplace hstage (by simp) (advance_recording hanswered)]
  rfl

theorem Planned.delivered {sent seen : Refs} {cmds : List Command} (h : Planned sent seen cmds)
    {forge : Forge} (hforge : forge.Willing) {before : Refs}
    (hseen : ∀ name, seen.lookup name = before.lookup name)
    (hmain : (sent.lookup mainRef).isSome = true) : forge.well cmds before = true ∧
      (∀ name, Mirrored name → (forge.after cmds before).lookup name = sent.lookup name) ∧
      ∀ name, ¬ Mirrored name → (forge.after cmds before).lookup name = before.lookup name := by
  have hwell : forge.well cmds before = true := by
    refine hforge.well h.nodup fun cmd hcmd => ?_
    rw [← hseen]
    exact (command_eq_some ((h.mem cmd).mp hcmd)).2.1.symm
  have hwanted : ∀ name, (forge.after cmds before).lookup name =
      wanted true mirrorSpecs sent seen name := fun name =>
    h.lookup_after hwell fun _ => (hseen name).symm
  refine ⟨hwell, fun name hname => ?_, fun name hname => ?_⟩
  · rw [hwanted, wanted_mirrored hname hmain]
  · rw [hwanted, wanted_not_mirrored hname, hseen]

theorem run_looks (hplace : calls.places a = .executing g) (hanswered : turn.answered = true)
    (hdisk : w.core.disk = .repo refs) {looks : List Look} (hlooks : .rest ∉ looks)
    (hstage : stages a = .reading url token req here there)
    (hhere : ∀ name, (settle here refs).lookup name = refs.lookup name)
    (hthere : ∀ name, (settle there (w.forges url)).lookup name = (w.forges url).lookup name) :
    ∃ here' there', run core lib git bare vault
        (looks.map fun look => .call a false { turn with look := look }) ⟨w, calls, stages⟩ =
          ⟨w, calls, Function.update stages a (.reading url token req here' there')⟩ ∧
      (∀ name, (settle here' refs).lookup name = refs.lookup name) ∧
      ∀ name, (settle there' (w.forges url)).lookup name = (w.forges url).lookup name := by
  have hput : ∀ (log : Log) (store : Refs) (name : Text),
      (∀ other, (settle log store).lookup other = store.lookup other) →
      ∀ other, (settle ((name, store.lookup name) :: log) store).lookup other =
        store.lookup other := by
    intro log store name hlog other
    change (put (settle log store) name (store.lookup name)).lookup other = _
    rw [lookup_put]
    split_ifs with heq
    · rw [heq]
    · exact hlog other
  induction looks generalizing stages here there with
  | nil =>
    refine ⟨here, there, ?_, hhere, hthere⟩
    rw [← hstage, Function.update_eq_self]
    rfl
  | cons look looks ih =>
    rw [List.mem_cons, not_or] at hlooks
    rw [List.map_cons, run, Runs.run_cons]
    cases look with
    | rest => exact absurd rfl hlooks.1
    | here name =>
      obtain ⟨here', there', hrun, hall⟩ := @ih (Function.update stages a _)
        ((name, refs.lookup name) :: here) there hlooks.2 (Function.update_self ..)
        (hput here refs name hhere) hthere
      refine ⟨here', there', ?_, hall⟩
      rw [step_push hplace hstage (by simp)
        (@advance_here git bare vault { turn with look := .here name } _ _ _ _ _ _ _ _
          hanswered hdisk rfl)]
      rw [Function.update_idem] at hrun
      exact hrun
    | there name =>
      obtain ⟨here', there', hrun, hall⟩ := @ih (Function.update stages a _) here
        ((name, (w.forges url).lookup name) :: there) hlooks.2 (Function.update_self ..) hhere
        (hput there (w.forges url) name hthere)
      refine ⟨here', there', ?_, hall⟩
      rw [step_push hplace hstage (by simp)
        (@advance_there git bare vault { turn with look := .there name } _ _ _ _ _ _ _ _
          hanswered hdisk rfl)]
      rw [Function.update_idem] at hrun
      exact hrun

/-- The steps of a push up to its outcome, with these looks before git reads the rest. -/
def pushOps (a : ι) (turn : Turn) (looks : List Look) : List (Op ι) :=
  .call a false turn :: ((looks.map fun look => .call a false { turn with look := look }) ++
    List.replicate 2 (.call a false { turn with look := .rest }))

theorem run_push (core : Core) (lib : GitLibrary) (git : Git) (bare : Text)
    (hplace : calls.places a = .executing g) (hstage : stages a = .settings)
    (h : Unhindered vault turn w url refs) {looks : List Look} (hlooks : .rest ∉ looks) :
    ∃ sent changed, run core lib git bare vault (pushOps a turn looks) ⟨w, calls, stages⟩ =
        ⟨{ w with forges := Function.update w.forges url changed }, calls,
          Function.update stages a (.recording (.ok (url, sent)))⟩ ∧
      (∀ name, sent.lookup name = refs.lookup name) ∧
      (∀ name, Mirrored name → changed.lookup name = refs.lookup name) ∧
      ∀ name, ¬ Mirrored name → changed.lookup name = (w.forges url).lookup name := by
  obtain ⟨token, req, hreq, hsettings⟩ := exists_advance_settings git bare h
  obtain ⟨here, there, hread, hhere, hthere⟩ := @run_looks _ _ core lib git bare vault a turn calls
    (Function.update stages a (.reading url token req [] [])) g w url token req refs [] []
    hplace h.answered h.disk looks hlooks (Function.update_self ..) (fun _ => rfl) fun _ => rfl
  have hmain : ((settle here refs).lookup mainRef).isSome = true := by
    rw [hhere]
    exact h.main
  obtain ⟨hwell, hmirrored, hrest⟩ := (planned_commands git hreq (settle here refs)
    (settle there (w.forges url))).delivered h.willing hthere hmain
  refine ⟨settle here refs, _, ?_, hhere, fun name hname => (hmirrored name hname).trans (hhere name),
    hrest⟩
  rw [pushOps, run, Runs.run_cons, step_push hplace hstage (by simp) hsettings, Runs.run_append,
    show Runs.run (step core lib git bare vault) (looks.map _) _ = _ from hread]
  simp only [List.replicate, Runs.run_cons, Runs.run_nil]
  rw [Function.update_idem, step_push hplace (Function.update_self ..) (by simp)
      (@advance_rest git bare vault { turn with look := .rest } w url token req refs here there
        h.answered h.disk rfl hreq hmain), Function.update_idem,
    step_push hplace (Function.update_self ..) (by simp)
      (@advance_sending git bare vault { turn with look := .rest } w url token _ _ h.answered hwell),
    Function.update_idem]

/-- The steps of a push during which git reads one name, then the core goes on, then git reads the
rest. -/
def overtaken (a : ι) (turn : Turn) (name : Text) (op : Service.Op) : List (Op ι) :=
  [.call a false turn, .call a false { turn with look := .here name }, .core op,
    .call a false { turn with look := .rest }, .call a false { turn with look := .rest }]

theorem run_overtaken (core : Core) (lib : GitLibrary) (git : Git) (bare : Text) {st : State ι}
    (hplace : st.calls.places a = .executing g) (hstage : st.stages a = .settings)
    (h : Unhindered vault turn st.world url refs) {name : Text} {op : Service.Op} {after : Refs}
    {list : Option Rows.ListState}
    (hop : Service.step core lib op st.world.core = ⟨.repo after, list⟩)
    (hmain : ((settle [(name, refs.lookup name)] after).lookup mainRef).isSome = true) :
    (run core lib git bare vault (overtaken a turn name op) st).stages a =
      .recording (.ok (url, settle [(name, refs.lookup name)] after)) := by
  rcases st with ⟨w, calls, stages⟩
  simp only at hplace hstage h hop
  obtain ⟨token, req, hreq, hsettings⟩ := exists_advance_settings git bare h
  obtain ⟨hwell, -, -⟩ := (planned_commands git hreq (settle [(name, refs.lookup name)] after)
    (settle [] (w.forges url))).delivered h.willing (fun _ => rfl) hmain
  have hcore : ∀ stages', step core lib git bare vault (.core op) ⟨w, calls, stages'⟩ =
      ⟨{ w with core := ⟨.repo after, list⟩ }, calls, stages'⟩ := by
    intro stages'
    simp only [step, hop]
  simp only [overtaken, run, Runs.run_cons, Runs.run_nil]
  rw [step_push hplace hstage (by simp) hsettings,
    step_push hplace (Function.update_self ..) (by simp)
      (@advance_here git bare vault { turn with look := .here name } w url token req refs [] [] _
        h.answered h.disk rfl), Function.update_idem, hcore,
    step_push hplace (Function.update_self ..) (by simp)
      (@advance_rest git bare vault { turn with look := .rest } { w with core := ⟨.repo after, list⟩ }
        url token req after [(name, refs.lookup name)] [] h.answered rfl rfl hreq hmain),
    Function.update_idem,
    step_push hplace (Function.update_self ..) (by simp)
      (@advance_sending git bare vault { turn with look := .rest }
        { w with core := ⟨.repo after, list⟩ } url token _ _ h.answered hwell)]
  exact Function.update_self ..

end Unhindered

/-- What a run starts from. -/
structure Setup where
  core : Core
  lib : GitLibrary
  git : Git
  bare : Text
  vault : Vault
  state : Service.State
  settings : Settings
  status : Status
  forges : Text → Refs

/-- Main of the core is a commit, and no forge is ahead of it. -/
structure Setup.Sound (setup : Setup) : Prop where
  main : MainIs (fun _ => True) (held setup.state.disk)
  forges : ∀ url t, (setup.forges url).lookup mainRef = some t → ∃ c tip, t = .commit c ∧
    (held setup.state.disk).lookup mainRef = some (.commit tip) ∧ tip.Reaches c

def savedRefs (c : Commit) : Refs :=
  (markedRefs.insert mainRef (.commit c)).insert (tagRef (versionTag 2)) (.commit c)

def pushedNext : Commit := .mk .empty [firstCommit] ⟨[], [], 0⟩

def staleTag : Text := tagRef "draft".toList

theorem savedRefs_main (c : Commit) : (savedRefs c).lookup mainRef = some (.commit c) :=
  (AList.lookup_insert_ne (tagRef_ne_mainRef _).symm).trans (AList.lookup_insert _)

theorem savedRefs_stale (c : Commit) : (savedRefs c).lookup staleTag = none := by
  have hsecond : staleTag ≠ tagRef (versionTag 2) := by decide +kernel
  have hfirst : staleTag ≠ tagRef (versionTag 1) := by decide +kernel
  have hmain : staleTag ≠ mainRef := tagRef_ne_mainRef _
  rw [savedRefs, AList.lookup_insert_ne hsecond, AList.lookup_insert_ne hmain, markedRefs,
    AList.lookup_insert_ne hfirst, AList.lookup_insert_ne hmain]
  rfl

/-- A core with the first version of a list, and a mirror with that version and a tag the core does
not have, whose last pushes have failed. -/
noncomputable def firstSetup : Setup where
  core := History.canonCore
  lib := Push.plainLibrary
  git := documented
  bare := "bare".toList
  vault := ⟨some "key".toList, fun stored _ => some stored⟩
  state := ⟨.repo markedRefs, some markedList⟩
  settings := ⟨some "https://host/list".toList, some "token".toList⟩
  status := ⟨some 1, some "token-undecryptable".toList, 2⟩
  forges := fun _ => markedRefs.insert staleTag (.commit firstCommit)

def calmTurn : Turn := ⟨true, .rest, takes fun _ => true, .timedOut, 5⟩

private theorem stale_main :
    (markedRefs.insert staleTag (.commit firstCommit)).lookup mainRef = some (.commit firstCommit) :=
  (AList.lookup_insert_ne (tagRef_ne_mainRef _).symm).trans markedRefs_main

theorem firstSetup_sound : firstSetup.Sound where
  main := fun _ ht => ⟨firstCommit, Option.some.inj (ht.symm.trans markedRefs_main), trivial⟩
  forges := fun _ _ ht => ⟨firstCommit, firstCommit, Option.some.inj (ht.symm.trans stale_main),
    markedRefs_main, .refl⟩

theorem firstSetup_unhindered {w : World} {refs : Refs} (hdisk : w.core.disk = .repo refs)
    (hmain : (refs.lookup mainRef).isSome = true) (hsettings : w.settings = firstSetup.settings) :
    Unhindered firstSetup.vault calmTurn w "https://host/list".toList refs where
  credentials := ⟨"token".toList, "key".toList, "token".toList, by rw [hsettings]; decide, rfl, rfl⟩
  valid := by decide
  disk := hdisk
  main := hmain
  answered := rfl
  willing := takes_willing _ fun _ => rfl

def saving : Service.Op := .web plainWrite (markEdit false)

theorem exists_saved : ∃ c, c.Reaches firstCommit ∧ c ≠ firstCommit ∧
    Service.step History.canonCore Push.plainLibrary saving ⟨.repo markedRefs, some markedList⟩ =
      ⟨.repo (savedRefs c), some (editedList markedList (markEdit false) 0)⟩ := by
  have hnames : CarriedTree.NamesFree History.canonCore.reserved := fun _ _ _ _ => rfl
  obtain ⟨c, hcommit, hwrite, -⟩ := markedRefs_ready.written hnames (by decide)
    (show (markEdit false).authored = none from rfl) nofun
  obtain ⟨hreach, hne⟩ := commitVersion_parents hcommit firstCommit rfl
  refine ⟨c, hreach, hne, ?_⟩
  simp only [saving, Service.step, hwrite]
  rfl

def firstBegun (core : Service.State) : State Unit :=
  ⟨⟨core, ⟨some "https://host/list".toList, some "token".toList⟩,
      ⟨some 1, some "token-undecryptable".toList, 2⟩,
      fun _ => markedRefs.insert staleTag (.commit firstCommit), [], none⟩,
    (callStep ((), false))^[3] SerializedCalls.initial, fun _ => .settings⟩

def firstOps : List (Op Unit) :=
  .core saving :: (List.replicate 3 (.call () false calmTurn) ++ pushOps () calmTurn [.here mainRef])

theorem firstOps_untouched (url name : Text) (t : Option Target) : .touch url name t ∉ firstOps := by
  simp [firstOps, pushOps]

theorem firstBegun_executing (st : Service.State) :
    (firstBegun st).calls.places () = .executing 0 := rfl

theorem run_firstOps {st : Service.State} (hsaved : Service.step firstSetup.core firstSetup.lib
      saving firstSetup.state = st) (more : List (Op Unit)) :
    run firstSetup.core firstSetup.lib firstSetup.git firstSetup.bare firstSetup.vault
        (.core saving :: (List.replicate 3 (.call () false calmTurn) ++ more))
        (initial firstSetup.state firstSetup.settings firstSetup.status firstSetup.forges) =
      run firstSetup.core firstSetup.lib firstSetup.git firstSetup.bare firstSetup.vault more
        (firstBegun st) := by
  rw [run, Runs.run_cons, Runs.run_append, ← hsaved]
  rfl

theorem exists_firstPush : ∃ c sent changed, c ≠ firstCommit ∧
    run firstSetup.core firstSetup.lib firstSetup.git firstSetup.bare firstSetup.vault firstOps
        (initial firstSetup.state firstSetup.settings firstSetup.status firstSetup.forges) =
      ⟨{ (firstBegun ⟨.repo (savedRefs c), some (editedList markedList (markEdit false) 0)⟩).world with
          forges := Function.update firstSetup.forges "https://host/list".toList changed },
        (callStep ((), false))^[3] SerializedCalls.initial,
        Function.update (fun _ => .settings) ()
          (.recording (.ok ("https://host/list".toList, sent)))⟩ ∧
      changed.lookup mainRef = some (.commit c) ∧ changed.lookup staleTag = none := by
  obtain ⟨c, -, hne, hsaved⟩ := exists_saved
  have hmain := savedRefs_main c
  set st : Service.State := ⟨.repo (savedRefs c), some (editedList markedList (markEdit false) 0)⟩
  have hcalm : Unhindered firstSetup.vault calmTurn (firstBegun st).world "https://host/list".toList
      (savedRefs c) := firstSetup_unhindered rfl (by rw [hmain]; rfl) rfl
  have hlooks : Look.rest ∉ [Look.here mainRef] := by simp
  obtain ⟨sent, changed, hrun, -, hmirrored, -⟩ := run_push firstSetup.core firstSetup.lib
    firstSetup.git firstSetup.bare (firstBegun_executing st)
    (show (firstBegun st).stages () = .settings from rfl) hcalm hlooks
  refine ⟨c, sent, changed, hne, ?_, ?_, ?_⟩
  · rw [firstOps, run_firstOps hsaved]
    exact hrun
  · rw [hmirrored _ (Or.inl rfl), hmain]
  · exact (hmirrored staleTag (Or.inr (List.prefix_append _ _))).trans (savedRefs_stale c)

section Main

variable {ι : Type} [DecidableEq ι] {calm : Text → Text → Prop} (setup : Setup) (ops : List (Op ι))

/-- The state after the first `i` steps. -/
abbrev Setup.after (i : Nat) : State ι :=
  run setup.core setup.lib setup.git setup.bare setup.vault (ops.take i)
    (initial setup.state setup.settings setup.status setup.forges)

theorem Setup.after_split {i k : Nat} (hik : i ≤ k) :
    run setup.core setup.lib setup.git setup.bare setup.vault ((ops.drop i).take (k - i))
      (setup.after ops i) = setup.after ops k := by
  rw [Setup.after, Setup.after, run, ← Runs.run_append, ← List.take_add, Nat.add_sub_cancel' hik]

variable {setup} {ops}

omit [DecidableEq ι] in
theorem Setup.Sound.inv (h : setup.Sound) (hmain : ∀ url t, .touch url mainRef t ∉ ops)
    (hcalm : ∀ url name, calm url name → ∀ t, .touch url name t ∉ ops) :
    Inv (fun _ _ _ => False) calm
        (initial setup.state setup.settings setup.status setup.forges : State ι) ∧
      ∀ op ∈ ops, HandsOff calm op := by
  refine ⟨⟨⟨SerializedCalls.inv_initial, fun a ha => by cases ha⟩, ⟨h.main, fun url t ht => ?_,
    fun s hs => (List.not_mem_nil hs).elim, fun _ _ hv => by cases hv⟩, fun a => trivial⟩, ?_⟩
  · obtain ⟨c, tip, hc, htip, hreach⟩ := h.forges url t ht
    exact ⟨c, hc, tip, htip, hreach⟩
  · rintro op hop url name t rfl
    refine ⟨?_, fun hname => hcalm url name hname t hop⟩
    rintro rfl
    exact hmain url t hop

theorem Setup.Sound.inv_after (h : setup.Sound) (hmain : ∀ url t, .touch url mainRef t ∉ ops)
    (hcalm : ∀ url name, calm url name → ∀ t, .touch url name t ∉ ops) (i : Nat) :
    Inv (fun _ _ _ => True) calm (setup.after ops i) := by
  obtain ⟨hinit, hops⟩ := h.inv hmain hcalm
  have hinv := @inv_run _ _ setup.core setup.lib setup.git setup.bare setup.vault _ calm _ hinit
    (ops.take i) fun op hop => hops op (List.mem_of_mem_take hop)
  exact ⟨hinv.turns, hinv.follows, fun a => (hinv.fits a).keeps (fun _ _ _ => trivial) (.refl _)⟩

theorem Setup.Sound.onward (h : setup.Sound) (hmain : ∀ url t, .touch url mainRef t ∉ ops)
    {i j : Nat} (hij : i ≤ j) (hj : j ≤ ops.length) :
    Onward (setup.after ops i).world (setup.after ops j).world := by
  obtain ⟨hinit, hops⟩ := @Setup.Sound.inv _ (fun _ _ => False) setup ops h hmain fun _ _ h => h.elim
  exact onward_run hinit hops hij hj

/-- Whatever operations of the core, pushes of the mirror, in the background or by hand, given up
or not, late commands and changes of the settings come in whatever order: main at every forge only
goes onward, and is main of the core or one of its ancestors, unless a hand moves it there. -/
theorem mirror_follows_main (hsound : setup.Sound) (hmain : ∀ url t, .touch url mainRef t ∉ ops)
    {i j : Nat} (hij : i ≤ j) (hj : j ≤ ops.length) (url : Text) (b : Commit)
    (hb : ((setup.after ops i).world.forges url).lookup mainRef = some (.commit b)) :
    ∃ c tip, ((setup.after ops j).world.forges url).lookup mainRef = some (.commit c) ∧
      c.Reaches b ∧
      (held (setup.after ops j).world.core.disk).lookup mainRef = some (.commit tip) ∧
      tip.Reaches c := by
  obtain ⟨c, hc, hcb⟩ := (hsound.onward hmain hij hj).forges url b hb
  have hinv := @Setup.Sound.inv_after _ _ (fun _ _ => False) setup ops hsound hmain
    (fun _ _ h => h.elim) j
  obtain ⟨d, hd, tip, htip, hreach⟩ := hinv.follows.forges url _ hc
  obtain rfl := Target.commit.inj hd
  exact ⟨c, tip, hc, hcb, htip, hreach⟩

theorem mirror_follows_main_first : ∃ c tip, c ≠ firstCommit ∧
    ((firstSetup.after firstOps firstOps.length).world.forges "https://host/list".toList).lookup
      mainRef = some (.commit c) ∧ c.Reaches firstCommit ∧
    (held (firstSetup.after firstOps firstOps.length).world.core.disk).lookup mainRef =
      some (.commit tip) ∧ tip.Reaches c := by
  obtain ⟨c, sent, changed, hne, hrun, hmoved, -⟩ := exists_firstPush
  obtain ⟨d, tip, hd, hreach, htip, hbehind⟩ := mirror_follows_main firstSetup_sound
    (fun url t => firstOps_untouched url mainRef t) (Nat.zero_le firstOps.length) (le_refl _)
    "https://host/list".toList firstCommit stale_main
  refine ⟨d, tip, ?_, hd, hreach, htip, hbehind⟩
  have hc : ((firstSetup.after firstOps firstOps.length).world.forges
      "https://host/list".toList).lookup mainRef = some (.commit c) := by
    rw [Setup.after, List.take_length, hrun]
    simp only [Function.update_self]
    exact hmoved
  rw [Refs.commit_unique hd hc]
  exact hne

/-- When a push is found good: main and every tag, or its absence, it has read at a moment of its
own between the beginning of the push and now, and the forge has them so, except for tags that a hand
or a command of a push that was given up has been at. -/
theorem mirror_success_is_true (hsound : setup.Sound) (hmain : ∀ url t, .touch url mainRef t ∉ ops)
    {i j : Nat} (hij : i ≤ j) (hj : j ≤ ops.length) (a : ι)
    (hbefore : (setup.after ops i).stages a = .settings) (url : Text) (here : Refs)
    (hgood : (setup.after ops j).stages a = .recording (.ok (url, here))) :
    (∀ name, ∃ k, i ≤ k ∧ k ≤ j ∧ ∃ refs,
      (setup.after ops k).world.core.disk = .repo refs ∧ refs.lookup name = here.lookup name) ∧
    ∀ name, Mirrored name →
      (name = mainRef ∨ (∀ t, .touch url name t ∉ ops) ∧
        ∀ s ∈ (setup.after ops j).world.strays, s.1 = url → s.2.name ≠ name) →
      ((setup.after ops j).world.forges url).lookup name = here.lookup name := by
  have hcalm : ∀ url name, (∀ t, .touch url name t ∉ ops) → ∀ t, .touch url name t ∉ ops :=
    fun _ _ h => h
  have hstart := @Setup.Sound.inv_after _ _ (fun url name => ∀ t, .touch url name t ∉ ops) setup ops
    hsound hmain hcalm i
  -- at its beginning the push has read nothing
  have hnothing : Inv (fun b _ _ => b ≠ a) (fun url name => ∀ t, .touch url name t ∉ ops)
      (setup.after ops i) := by
    refine ⟨hstart.turns, hstart.follows, fun b => ?_⟩
    by_cases hb : b = a
    · subst hb
      rw [hbefore]
      trivial
    · exact (hstart.fits b).keeps (fun _ _ _ => hb) (.refl _)
  obtain ⟨-, hhands⟩ := hsound.inv hmain hcalm
  have hinv := @inv_run _ _ setup.core setup.lib setup.git setup.bare setup.vault _ _ _ hnothing
    ((ops.drop i).take (j - i)) fun op hop =>
      hhands op (List.mem_of_mem_drop (List.mem_of_mem_take hop))
  rw [setup.after_split ops hij] at hinv
  have hfits := hinv.fits a
  rw [hgood] at hfits
  obtain ⟨⟨tip, hread⟩, hequal⟩ := hfits
  refine ⟨fun name => ?_, hequal⟩
  rcases hread.past name with hself | ⟨k, hk, refs, hdisk, hlookup⟩
  · exact absurd rfl hself
  · rw [List.length_take, List.length_drop] at hk
    refine ⟨i + k, Nat.le_add_right i k, by omega, refs, ?_, hlookup⟩
    rw [List.take_take, show min k (j - i) = i + k - i by omega,
      setup.after_split ops (Nat.le_add_right i k)] at hdisk
    exact hdisk

def tornOps : List (Op Unit) :=
  List.replicate 3 (.call () false calmTurn) ++ overtaken () calmTurn mainRef saving

theorem tornOps_begun : firstSetup.after tornOps 3 = firstBegun firstSetup.state := rfl

theorem run_tornOps : ∃ c sent, c ≠ firstCommit ∧
    sent = settle [(mainRef, markedRefs.lookup mainRef)] (savedRefs c) ∧
    (firstSetup.after tornOps tornOps.length).stages () =
      .recording (.ok ("https://host/list".toList, sent)) := by
  obtain ⟨c, -, hne, hsaved⟩ := exists_saved
  refine ⟨c, _, hne, rfl, ?_⟩
  have hcalm : Unhindered firstSetup.vault calmTurn (firstBegun firstSetup.state).world
      "https://host/list".toList markedRefs :=
    firstSetup_unhindered rfl (by rw [markedRefs_main]; rfl) rfl
  have hmain : ((settle [(mainRef, markedRefs.lookup mainRef)] (savedRefs c)).lookup
      mainRef).isSome = true := by
    rw [lookup_settle_of_read _ List.lookup_cons_self, markedRefs_main]
    rfl
  rw [Setup.after, List.take_length, tornOps, run, Runs.run_append,
    show Runs.run _ (List.replicate 3 _) _ = firstBegun firstSetup.state from rfl]
  have hop : Service.step firstSetup.core firstSetup.lib saving
      (firstBegun firstSetup.state).world.core = _ := hsaved
  have hsent := run_overtaken firstSetup.core firstSetup.lib firstSetup.git firstSetup.bare
    (firstBegun_executing firstSetup.state) rfl hcalm hop hmain
  rw [run] at hsent
  exact hsent

/-- The mirror gets the main of before and the tag of after, and the push is found good. -/
theorem mirror_success_is_true_torn : ∃ c, ∃ here : Refs, c ≠ firstCommit ∧
    here.lookup mainRef = some (.commit firstCommit) ∧
    here.lookup (tagRef (versionTag 2)) = some (.commit c) ∧
    (∀ name, ∃ k, 3 ≤ k ∧ k ≤ tornOps.length ∧ ∃ refs,
      (firstSetup.after tornOps k).world.core.disk = .repo refs ∧
        refs.lookup name = here.lookup name) ∧
    ∀ name, Mirrored name →
      (name = mainRef ∨ (∀ t, .touch "https://host/list".toList name t ∉ tornOps) ∧
        ∀ s ∈ (firstSetup.after tornOps tornOps.length).world.strays,
          s.1 = "https://host/list".toList → s.2.name ≠ name) →
      ((firstSetup.after tornOps tornOps.length).world.forges "https://host/list".toList).lookup
        name = here.lookup name := by
  obtain ⟨c, here, hne, hhere, hgood⟩ := run_tornOps
  have hmain : here.lookup mainRef = some (.commit firstCommit) := by
    rw [hhere, lookup_settle_of_read _ List.lookup_cons_self]
    exact markedRefs_main
  have hnew : here.lookup (tagRef (versionTag 2)) = some (.commit c) := by
    have hunread : List.lookup (tagRef (versionTag 2)) [(mainRef, markedRefs.lookup mainRef)] =
        none := by
      rw [List.lookup_cons, beq_eq_false_iff_ne.mpr (tagRef_ne_mainRef _)]
      rfl
    rw [hhere, lookup_settle_of_unread _ hunread]
    exact AList.lookup_insert _
  refine ⟨c, here, hne, hmain, hnew, ?_⟩
  refine mirror_success_is_true firstSetup_sound (fun url t hop => ?_)
    (show 3 ≤ tornOps.length from Nat.le_add_right 3 5) (le_refl _) () ?_
    "https://host/list".toList here hgood
  · simp [tornOps, overtaken] at hop
  · rw [tornOps_begun]
    rfl

/-- The status is never rosier than the mirror: where it tells no error, it is what it was before
the first push, or main at the forge has not left what the last success had sent; and what
successes have sent never goes back. -/
theorem mirror_status_is_true (hsound : setup.Sound)
    (hmain : ∀ url t, .touch url mainRef t ∉ ops) {i j : Nat} (hij : i ≤ j) (hj : j ≤ ops.length) :
    ((setup.after ops j).world.status.error = none →
      (setup.after ops j).world.status = setup.status ∨
      (setup.after ops j).world.status.attempts = 0 ∧
      ∃ url here v c, (setup.after ops j).world.vouched = some (url, here) ∧
        here.lookup mainRef = some (.commit v) ∧
        ((setup.after ops j).world.forges url).lookup mainRef = some (.commit c) ∧ c.Reaches v) ∧
    ∀ url here v, (setup.after ops i).world.vouched = some (url, here) →
      here.lookup mainRef = some (.commit v) →
      ∃ url' here' v', (setup.after ops j).world.vouched = some (url', here') ∧
        here'.lookup mainRef = some (.commit v') ∧ v'.Reaches v := by
  have hinv := @Setup.Sound.inv_after _ _ (fun _ _ => False) setup ops hsound hmain
    (fun _ _ h => h.elim) j
  have htells : StatusTells setup.status (setup.after ops j).world :=
    @Runs.run_invariant _ _ (step setup.core setup.lib setup.git setup.bare setup.vault)
      (fun st => StatusTells setup.status st.world) (fun op st h => statusTells_step op h)
      (ops.take j) _ fun _ => Or.inl rfl
  refine ⟨fun herror => ?_, (hsound.onward hmain hij hj).vouched⟩
  rcases htells herror with hfirst | ⟨hattempts, hsome⟩
  · exact Or.inl hfirst
  · obtain ⟨⟨url, here⟩, hvouched⟩ := Option.isSome_iff_exists.mp hsome
    obtain ⟨v, c, hv, -, hc, hreach⟩ := hinv.follows.vouched url here hvouched
    exact Or.inr ⟨hattempts, url, here, v, c, hvouched, hv, hc, hreach⟩

def doneOps : List (Op Unit) := firstOps ++ [.call () false calmTurn]

theorem status_done :
    (firstSetup.after doneOps doneOps.length).world.status = ⟨some 5, none, 0⟩ := by
  obtain ⟨c, sent, changed, -, hrun, -, -⟩ := exists_firstPush
  rw [run] at hrun
  rw [Setup.after, List.take_length, doneOps, run, Runs.run_append, hrun, Runs.run_cons, Runs.run_nil]
  exact @status_recorded _ _ () calmTurn 0 firstSetup.core firstSetup.lib firstSetup.git
    firstSetup.bare firstSetup.vault _ (firstBegun_executing ⟨.absent, none⟩)
    ("https://host/list".toList, sent) rfl rfl

/-- The failures before are forgotten, and main is where the success has sent it. -/
theorem mirror_status_is_true_first :
    (firstSetup.after doneOps doneOps.length).world.status = ⟨some 5, none, 0⟩ ∧
      ∃ url here v c, (firstSetup.after doneOps doneOps.length).world.vouched = some (url, here) ∧
        here.lookup mainRef = some (.commit v) ∧
        ((firstSetup.after doneOps doneOps.length).world.forges url).lookup mainRef =
          some (.commit c) ∧ c.Reaches v := by
  have hhands : ∀ url t, .touch url mainRef t ∉ doneOps := by
    intro url t hmem
    rcases List.mem_append.mp hmem with hfirst | hlast
    · exact firstOps_untouched url mainRef t hfirst
    · cases List.mem_singleton.mp hlast
  obtain ⟨htells, -⟩ := mirror_status_is_true firstSetup_sound hhands
    (Nat.zero_le doneOps.length) (le_refl _)
  rw [status_done] at htells
  rcases htells rfl with hsame | ⟨-, hvouched⟩
  · cases congrArg Status.attempts hsame
  · exact ⟨status_done, hvouched⟩

def coreOp : Op ι → Option Service.Op
  | .core op => some op
  | _ => none

def NamedStage : Stage → Prop
  | .reading _ _ req _ _ => IsMirror req
  | .sending _ _ _ cmds => ∀ cmd ∈ cmds, Mirrored cmd.name
  | _ => True

structure Named (st : State ι) : Prop where
  strays : ∀ s ∈ st.world.strays, Mirrored s.2.name
  stages : ∀ a, NamedStage (st.stages a)

/-- The same core, and the same references at all forges beside main and the tags. -/
structure Beside (before after : World) : Prop where
  core : after.core = before.core
  forges : ∀ url name, ¬ Mirrored name →
    (after.forges url).lookup name = (before.forges url).lookup name

private theorem beside_update {w : World} {url : Text} {refs : Refs}
    (h : ∀ name, ¬ Mirrored name → refs.lookup name = (w.forges url).lookup name) :
    Beside w { w with forges := Function.update w.forges url refs } := by
  refine ⟨rfl, fun other name hname => ?_⟩
  by_cases hurl : other = url
  · subst hurl
    simp only [Function.update_self]
    exact h name hname
  · simp only [Function.update_of_ne hurl]

private theorem mirrored_strays {w : World} {url : Text} {cmds : List Command}
    (h : ∀ s ∈ w.strays, Mirrored s.2.name) (hcmds : ∀ cmd ∈ cmds, Mirrored cmd.name) :
    ∀ s ∈ w.strays ++ cmds.map (fun cmd => (url, cmd)), Mirrored s.2.name := by
  intro s hs
  rcases List.mem_append.mp hs with hs | hs
  · exact h s hs
  · obtain ⟨cmd, hcmd, rfl⟩ := List.mem_map.mp hs
    exact hcmds cmd hcmd

theorem named_advance {git : Git} {bare : Text} {vault : Vault} (turn : Turn) {w : World} {stage : Stage}
    (h : ∀ s ∈ w.strays, Mirrored s.2.name) (hstage : NamedStage stage) :
    (∀ s ∈ (advance git bare vault turn w stage).1.strays, Mirrored s.2.name) ∧
      NamedStage (advance git bare vault turn w stage).2 ∧
      Beside w (advance git bare vault turn w stage).1 := by
  have hsame : Beside w w := ⟨rfl, fun _ _ _ => rfl⟩
  cases stage with
  | settings =>
    unfold advance
    dsimp only
    split_ifs
    · exact ⟨h, trivial, hsame⟩
    split
    · exact ⟨h, trivial, hsame⟩
    split
    · exact ⟨h, trivial, hsame⟩
    · rename_i hprepare
      exact ⟨h, isMirror_prepare git bare vault hprepare, hsame⟩
  | reading url token req here there =>
    have hreq : IsMirror req := hstage
    unfold advance
    dsimp only
    split
    · split
      · exact ⟨h, hreq, hsame⟩
      · exact ⟨h, hreq, hsame⟩
      · split_ifs
        · exact ⟨h, fun cmd hcmd => (planned_commands git hreq _ _).mirrored hcmd, hsame⟩
        · exact ⟨h, trivial, hsame⟩
    · exact ⟨h, trivial, hsame⟩
  | sending url token here cmds =>
    cases hanswered : turn.answered with
    | false =>
      simp only [advance, hanswered]
      exact ⟨mirrored_strays h hstage, trivial, rfl, fun _ _ _ => rfl⟩
    | true =>
      simp only [advance, hanswered, if_true]
      refine ⟨h, ?_, beside_update fun name hname => ?_⟩
      · split_ifs <;> trivial
      · apply turn.forge.lookup_after_of_notMem
        intro hmem
        obtain ⟨cmd, hcmd, rfl⟩ := List.mem_map.mp hmem
        exact hname (hstage cmd hcmd)
  | recording outcome =>
    unfold advance
    dsimp only
    split_ifs
    · exact ⟨h, trivial, hsame⟩
    · split <;> exact ⟨h, trivial, rfl, fun _ _ _ => rfl⟩
  | ended => exact ⟨h, trivial, hsame⟩

theorem named_call {git : Git} {bare : Text} {vault : Vault} (a : ι) (dropped : Bool) (turn : Turn)
    {st : State ι} (h : Named st) :
    Named (stepCall git bare vault a dropped turn st) ∧
      Beside st.world (stepCall git bare vault a dropped turn st).world := by
  have hupdate : ∀ {stage : Stage}, NamedStage stage →
      ∀ b, NamedStage (Function.update st.stages a stage b) := by
    intro stage hstage b
    by_cases hb : b = a
    · subst hb
      rw [Function.update_self]
      exact hstage
    · rw [Function.update_of_ne hb]
      exact h.stages b
  rcases @stepCall_cases _ _ git bare vault a dropped turn st with heq | ⟨-, heq⟩ | ⟨-, b, heq⟩
  · rw [heq]
    have hstage := h.stages a
    cases hnow : st.stages a with
    | sending url token here cmds =>
      rw [hnow] at hstage
      exact ⟨⟨mirrored_strays h.strays hstage, hupdate trivial⟩, rfl, fun _ _ _ => rfl⟩
    | _ => exact ⟨⟨h.strays, hupdate trivial⟩, rfl, fun _ _ _ => rfl⟩
  · rw [heq]
    obtain ⟨hstrays, hnext, hbeside⟩ := @named_advance git bare vault turn _ _ h.strays (h.stages a)
    exact ⟨⟨hstrays, hupdate hnext⟩, hbeside⟩
  · rw [heq]
    exact ⟨⟨h.strays, h.stages⟩, rfl, fun _ _ _ => rfl⟩

theorem beside_step {core : Core} {lib : GitLibrary} {git : Git} {bare : Text} {vault : Vault}
    (op : Op ι) {st : State ι} (h : Named st) : Named (step core lib git bare vault op st) ∧
      (step core lib git bare vault op st).world.core =
        Service.run core lib ([op].filterMap coreOp) st.world.core ∧
      ∀ url name, ¬ Mirrored name → (∀ t, op ≠ .touch url name t) →
        ((step core lib git bare vault op st).world.forges url).lookup name =
          (st.world.forges url).lookup name := by
  cases op with
  | core op => exact ⟨⟨h.strays, h.stages⟩, rfl, fun _ _ _ _ => rfl⟩
  | configure settings => exact ⟨⟨h.strays, h.stages⟩, rfl, fun _ _ _ _ => rfl⟩
  | call a dropped turn =>
    obtain ⟨hnext, hbeside⟩ := @named_call _ _ git bare vault a dropped turn st h
    exact ⟨hnext, hbeside.core, fun url name hname _ => hbeside.forges url name hname⟩
  | check url token turn =>
    rw [step, checkAccess_eq]
    exact ⟨⟨h.strays, h.stages⟩, rfl, fun _ _ _ _ => rfl⟩
  | arrive i forge =>
    simp only [step]
    split
    · exact ⟨h, rfl, fun _ _ _ _ => rfl⟩
    · rename_i stray hstray
      have hname := h.strays stray (List.mem_of_getElem? hstray)
      have hbeside : Beside st.world (arrive forge st.world stray) :=
        beside_update fun name hother => forge.lookup_after_of_notMem fun hmem =>
          hother (List.mem_singleton.mp hmem ▸ hname)
      exact ⟨⟨h.strays, h.stages⟩, rfl, fun url name hname _ => hbeside.forges url name hname⟩
  | touch url name t =>
    refine ⟨⟨h.strays, h.stages⟩, rfl, fun other other' _ htouch => lookup_touch ?_⟩
    intro heq
    obtain ⟨rfl, rfl⟩ := Prod.mk.inj heq
    exact htouch t rfl

/-- At the forges nothing but main and the tags is ever touched, and the core not at all. -/
theorem beside_run (setup : Setup) (ops : List (Op ι)) :
    (run setup.core setup.lib setup.git setup.bare setup.vault ops
        (initial setup.state setup.settings setup.status setup.forges)).world.core =
      Service.run setup.core setup.lib (ops.filterMap coreOp) setup.state ∧
    ∀ url name, ¬ Mirrored name → (∀ t, .touch url name t ∉ ops) →
      ((run setup.core setup.lib setup.git setup.bare setup.vault ops (initial setup.state
        setup.settings setup.status setup.forges)).world.forges url).lookup name =
        (setup.forges url).lookup name := by
  refine And.right (a := Named (run setup.core setup.lib setup.git setup.bare setup.vault ops
    (initial setup.state setup.settings setup.status setup.forges))) ?_
  induction ops using List.reverseRecOn with
  | nil => exact ⟨⟨fun s hs => (List.not_mem_nil hs).elim, fun a => trivial⟩, rfl,
      fun _ _ _ _ => rfl⟩
  | append_singleton ops op ih =>
    obtain ⟨hnamed, hcore, hforges⟩ := ih
    obtain ⟨hnext, hstep, hbeside⟩ := @beside_step _ _ setup.core setup.lib setup.git setup.bare
      setup.vault op _ hnamed
    rw [run, Runs.run_append, Runs.run_cons, Runs.run_nil]
    refine ⟨hnext, ?_, fun url name hname htouch => ?_⟩
    · rw [hstep, hcore, List.filterMap_append]
      exact (Runs.run_append (Service.step setup.core setup.lib) _ _ setup.state).symm
    · refine (hbeside url name hname fun t hop => ?_).trans
        (hforges url name hname fun t hmem => htouch t (List.mem_append_left _ hmem))
      exact htouch t (List.mem_append_right _ (List.mem_singleton.mpr hop.symm))

/-- The mirror and all that goes with it never touch the core, and at the forges nothing but main
and the tags; an access check changes nothing at all. -/
theorem mirror_leaves_the_rest (setup : Setup) (ops : List (Op ι)) :
    ((setup.after ops ops.length).world.core =
      Service.run setup.core setup.lib (ops.filterMap coreOp) setup.state ∧
    ∀ url name, ¬ Mirrored name → (∀ t, .touch url name t ∉ ops) →
      ((setup.after ops ops.length).world.forges url).lookup name =
        (setup.forges url).lookup name) ∧
    ∀ i (hi : i < ops.length) url token turn, ops[i] = .check url token turn →
      setup.after ops (i + 1) = setup.after ops i := by
  refine ⟨?_, fun i hi url token turn hop => ?_⟩
  · rw [Setup.after, List.take_length]
    exact beside_run setup ops
  · rw [Setup.after, run, Runs.run_take_succ _ ops _ i hi, hop]
    simp only [step, checkAccess_eq]

/-- Whatever has become of the forge, and in whatever order git reads: one push that nothing hinders
makes main and the tags equal, leaves the rest, and tells so; the next one has nothing to send. -/
theorem mirror_converges (core : Core) (lib : GitLibrary) (git : Git) (bare : Text) (vault : Vault)
    (st : State ι) (a : ι) (g : Nat) (hplace : st.calls.places a = .executing g)
    (hstage : st.stages a = .settings) (turn : Turn) (url : Text) (refs : Refs)
    (h : Unhindered vault turn st.world url refs) (looks : List Look) (hlooks : .rest ∉ looks) :
    ∃ done, run core lib git bare vault (pushOps a turn looks ++ [.call a false turn]) st = done ∧
      done.stages a = .ended ∧ done.world.core = st.world.core ∧
      done.world.status = ⟨some turn.now, none, 0⟩ ∧
      (∀ name, Mirrored name → (done.world.forges url).lookup name = refs.lookup name) ∧
      (∀ name, ¬ Mirrored name →
        (done.world.forges url).lookup name = (st.world.forges url).lookup name) ∧
      (∀ other, other ≠ url → done.world.forges other = st.world.forges other) ∧
      ∀ req, IsMirror req → git.commands req refs (done.world.forges url) = [] := by
  rcases st with ⟨w, calls, stages⟩
  simp only at hplace hstage h ⊢
  obtain ⟨sent, changed, hrun, -, hmirrored, hrest⟩ := run_push core lib git bare hplace hstage h hlooks
  set pushed : World := { w with forges := Function.update w.forges url changed } with hpushed
  have hrecording := @advance_recording git bare vault turn pushed (url, sent) h.answered
  refine ⟨_, rfl, ?_⟩
  rw [run, Runs.run_append, show Runs.run (step core lib git bare vault) (pushOps a turn looks) _ = _
    from hrun, Runs.run_cons, Runs.run_nil,
    step_push hplace (Function.update_self a _ _) (by simp) hrecording, Function.update_idem]
  have hequal : (Function.update w.forges url changed) url = changed := Function.update_self ..
  refine ⟨Function.update_self a _ _, rfl, rfl, fun name hname => ?_, fun name hname => ?_,
    fun other hother => Function.update_of_ne hother _ _, fun req hreq => ?_⟩
  · change ((Function.update w.forges url changed) url).lookup name = _
    rw [hequal]
    exact hmirrored name hname
  · change ((Function.update w.forges url changed) url).lookup name = _
    rw [hequal]
    exact hrest name hname
  · refine (planned_commands git hreq refs _).eq_nil fun name hname => ?_
    change ((Function.update w.forges url changed) url).lookup name = _
    rw [hequal]
    exact hmirrored name hname

theorem mirror_converges_first :
    let st : Service.State := ⟨.repo (savedRefs pushedNext), none⟩
    ∃ done, run firstSetup.core firstSetup.lib firstSetup.git firstSetup.bare firstSetup.vault
        (pushOps () calmTurn [.there mainRef, .here mainRef] ++ [.call () false calmTurn])
        (firstBegun st) = done ∧
      done.stages () = .ended ∧ done.world.core = st ∧
      done.world.status = ⟨some 5, none, 0⟩ ∧
      (∀ name, Mirrored name → (done.world.forges "https://host/list".toList).lookup name =
        (savedRefs pushedNext).lookup name) ∧
      (∀ name, ¬ Mirrored name → (done.world.forges "https://host/list".toList).lookup name =
        (markedRefs.insert staleTag (.commit firstCommit)).lookup name) ∧
      (∀ other, other ≠ "https://host/list".toList →
        done.world.forges other = markedRefs.insert staleTag (.commit firstCommit)) ∧
      ∀ req, IsMirror req → documented.commands req (savedRefs pushedNext)
        (done.world.forges "https://host/list".toList) = [] := by
  intro st
  exact mirror_converges firstSetup.core firstSetup.lib firstSetup.git firstSetup.bare
    firstSetup.vault (firstBegun st) () 0 (firstBegun_executing st) rfl calmTurn
    "https://host/list".toList (savedRefs pushedNext)
    (firstSetup_unhindered rfl (by rw [savedRefs_main]; rfl) rfl) [.there mainRef, .here mainRef]
    (by simp)

end Main

end Setfork.MirrorRuns
