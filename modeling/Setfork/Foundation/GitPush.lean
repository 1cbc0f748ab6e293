/- Foundation: pushes
   digest: References that are read one by one while they change, forced refspecs, the commands a
   push makes of two stores, and what the other side does with them. -/
import Setfork.Foundation.Refs

set_option autoImplicit false
set_option relaxedAutoImplicit false

namespace Setfork.Foundation.GitPush

section Reading

abbrev Log := List (Text × Option Target)

def put (refs : Refs) (name : Text) : Option Target → Refs
  | none => refs.erase name
  | some t => refs.insert name t

def settle (log : Log) (refs : Refs) : Refs :=
  log.foldr (fun entry refs => put refs entry.1 entry.2) refs

theorem lookup_put (refs : Refs) (name other : Text) (t : Option Target) :
    (put refs name t).lookup other = if other = name then t else refs.lookup other := by
  split_ifs with heq
  · subst heq
    cases t with
    | none => exact AList.lookup_erase ..
    | some t => exact AList.lookup_insert ..
  · cases t with
    | none => exact AList.lookup_erase_ne heq
    | some t => exact AList.lookup_insert_ne heq

theorem lookup_settle (log : Log) (refs : Refs) (name : Text) :
    (settle log refs).lookup name = (log.lookup name).getD (refs.lookup name) := by
  induction log with
  | nil => rfl
  | cons entry log ih =>
    change (put (settle log refs) entry.1 entry.2).lookup name = _
    rw [lookup_put, ih]
    by_cases heq : name = entry.1
    · rw [if_pos heq, List.lookup_cons, beq_iff_eq.mpr heq]
      rfl
    · rw [if_neg heq, List.lookup_cons, beq_eq_false_iff_ne.mpr heq]

theorem lookup_settle_of_read {log : Log} {name : Text} {t : Option Target} (refs : Refs)
    (h : log.lookup name = some t) : (settle log refs).lookup name = t := by
  rw [lookup_settle, h, Option.getD_some]

theorem lookup_settle_of_unread {log : Log} {name : Text} (refs : Refs)
    (h : log.lookup name = none) : (settle log refs).lookup name = refs.lookup name := by
  rw [lookup_settle, h, Option.getD_none]

end Reading

/-- A forced refspec: a name for a name, the names under one path for the names under another, or
the removal of a name. -/
inductive Refspec where
  | one (src dst : Text)
  | family (src dst : Text)
  | remove (dst : Text)
deriving DecidableEq

namespace Refspec

def full (name : Text) : Bool := "refs/".toList.isPrefixOf name

/-- A refspec of full names as it stands among the arguments, with a star at the end of both sides
or none. -/
def parse (text : Text) : Option Refspec :=
  let dst := (text.dropWhile (fun c => c != ':')).tail
  if !full dst then none
  else
    match text.takeWhile (fun c => c != ':') with
    | [] => if dst.contains '*' then none else some (.remove dst)
    | '+' :: src =>
      if !full src then none
      else if src.getLast? = some '*' ∧ dst.getLast? = some '*' then
        if src.dropLast.contains '*' || dst.dropLast.contains '*' then none
        else some (.family src.dropLast dst.dropLast)
      else if src.contains '*' || dst.contains '*' then none
      else some (.one src dst)
    | _ => none

def sends (here : Refs) (name : Text) : Refspec → Option Target
  | one src dst => if name = dst then here.lookup src else none
  | family src dst =>
    if dst.isPrefixOf name then here.lookup (src ++ name.drop dst.length) else none
  | remove _ => none

def covers (name : Text) : Refspec → Bool
  | family _ dst => dst.isPrefixOf name
  | _ => false

def removes (name : Text) : Refspec → Bool
  | remove dst => decide (name = dst)
  | _ => false

def resolves (here : Refs) : Refspec → Bool
  | one src _ => (here.lookup src).isSome
  | _ => true

def targets (here : Refs) : Refspec → List Text
  | one _ dst => [dst]
  | family src dst =>
    (here.keys.filter (fun name => src.isPrefixOf name)).map (fun name => dst ++ name.drop src.length)
  | remove dst => [dst]

theorem mem_targets_of_sends {here : Refs} {name : Text} {spec : Refspec} {t : Target}
    (h : spec.sends here name = some t) : name ∈ spec.targets here := by
  cases spec with
  | one src dst =>
    simp only [sends] at h
    split_ifs at h with heq
    exact List.mem_singleton.mpr heq
  | family src dst =>
    simp only [sends] at h
    split_ifs at h with hdst
    obtain ⟨stem, rfl⟩ := List.isPrefixOf_iff_prefix.mp hdst
    rw [List.drop_left] at h
    have hkey : src ++ stem ∈ here.keys := by
      rw [← AList.mem_keys, ← AList.lookup_isSome, h]
      rfl
    refine List.mem_map.mpr ⟨src ++ stem, List.mem_filter.mpr ⟨hkey, ?_⟩, ?_⟩
    · exact List.isPrefixOf_iff_prefix.mpr (List.prefix_append src stem)
    · rw [List.drop_left]
  | remove dst => cases h

theorem mem_targets_of_removes {here : Refs} {name : Text} {spec : Refspec}
    (h : spec.removes name = true) : name ∈ spec.targets here := by
  cases spec with
  | remove dst => exact List.mem_singleton.mpr (of_decide_eq_true h)
  | one src dst => cases h
  | family src dst => cases h

end Refspec

structure Command where
  name : Text
  old : Option Target
  new : Option Target
deriving DecidableEq

section Plan

variable (prune : Bool) (specs : List Refspec) (here there : Refs)

def sent (name : Text) : Option Target := specs.findSome? (Refspec.sends here name)

/-- The command for a name: it gets what is sent to it unless it has it, it is removed where a
refspec says so, and pruned where it lies under a path and nothing is sent to it. -/
def command (name : Text) : Option Command :=
  match sent specs here name with
  | some t =>
    if there.lookup name = some t then none else some ⟨name, there.lookup name, some t⟩
  | none =>
    if specs.any (Refspec.removes name) ||
        (prune && (there.lookup name).isSome && specs.any (Refspec.covers name)) then
      some ⟨name, there.lookup name, none⟩
    else none

def plan : List Command :=
  (specs.flatMap (Refspec.targets here) ++ there.keys).dedup.filterMap
    (command prune specs here there)

def wanted (name : Text) : Option Target :=
  match command prune specs here there name with
  | some cmd => cmd.new
  | none => there.lookup name

end Plan

section

variable {prune : Bool} {specs : List Refspec} {here there : Refs}

theorem command_eq_some {name : Text} {cmd : Command}
    (h : command prune specs here there name = some cmd) :
    cmd.name = name ∧ cmd.old = there.lookup name ∧ cmd.new = sent specs here name := by
  unfold command at h
  split at h
  · rename_i t ht
    split_ifs at h
    rw [← Option.some.inj h]
    exact ⟨rfl, rfl, ht.symm⟩
  · rename_i hnone
    split_ifs at h
    rw [← Option.some.inj h]
    exact ⟨rfl, rfl, hnone.symm⟩

private theorem mem_names_of_command {name : Text} {cmd : Command}
    (h : command prune specs here there name = some cmd) :
    name ∈ (specs.flatMap (Refspec.targets here) ++ there.keys).dedup := by
  rw [List.mem_dedup, List.mem_append, List.mem_flatMap]
  unfold command at h
  split at h
  · rename_i t ht
    obtain ⟨spec, hspec, hsends⟩ := List.exists_of_findSome?_eq_some ht
    exact Or.inl ⟨spec, hspec, Refspec.mem_targets_of_sends hsends⟩
  · split_ifs at h with hgone
    rw [Bool.or_eq_true, Bool.and_eq_true, Bool.and_eq_true] at hgone
    rcases hgone with hremoved | ⟨⟨-, hthere⟩, -⟩
    · obtain ⟨spec, hspec, hremoves⟩ := List.any_eq_true.mp hremoved
      exact Or.inl ⟨spec, hspec, Refspec.mem_targets_of_removes hremoves⟩
    · exact Or.inr (AList.mem_keys.mpr (AList.lookup_isSome.mp hthere))

theorem mem_plan {cmd : Command} :
    cmd ∈ plan prune specs here there ↔ command prune specs here there cmd.name = some cmd := by
  rw [plan, List.mem_filterMap]
  constructor
  · rintro ⟨name, -, hcmd⟩
    rw [(command_eq_some hcmd).1]
    exact hcmd
  · intro h
    exact ⟨cmd.name, mem_names_of_command h, h⟩

theorem nodup_plan : ((plan prune specs here there).map Command.name).Nodup := by
  have hsub : ∀ names : List Text,
      ((names.filterMap (command prune specs here there)).map Command.name).Sublist names := by
    intro names
    induction names with
    | nil => exact .slnil
    | cons name names ih =>
      cases hcmd : command prune specs here there name with
      | none =>
        rw [List.filterMap_cons_none hcmd]
        exact ih.cons name
      | some cmd =>
        rw [List.filterMap_cons_some hcmd, List.map_cons, (command_eq_some hcmd).1]
        exact ih.cons_cons name
  exact (List.nodup_dedup _).sublist (hsub _)

end

/-- What a push is asked for. -/
structure Request where
  prune : Bool
  dryRun : Bool
  pushurl : Text
  specs : List Refspec
deriving DecidableEq

/-- The commands that go to the other side. -/
def Request.commands (req : Request) (here there : Refs) : List Command :=
  if req.dryRun then [] else plan req.prune req.specs here there

def isFlag (arg : Text) : Bool := "--".toList.isPrefixOf arg

def knownFlags : List Text := ["--prune".toList, "--dry-run".toList]

/-- The arguments of a push, flags first, as far as they are of a documented form. -/
def readPush : List Text → Option Request
  | gitDir :: _ :: verb :: rest =>
    if gitDir = "--git-dir".toList ∧ verb = "push".toList then
      let flags := rest.takeWhile isFlag
      match rest.dropWhile isFlag with
      | [] => none
      | pushurl :: refspecs =>
        if flags.all knownFlags.contains then
          (refspecs.mapM Refspec.parse).map (fun specs =>
            ⟨flags.contains "--prune".toList, flags.contains "--dry-run".toList, pushurl, specs⟩)
        else none
    else none
  | _ => none

/-- What git makes of its arguments, and the commands it sends over the references it has read here
and there: it reads arguments of the documented form as documented, sends one command for a name at
most, sends what the refspecs say, and in a dry run nothing. -/
structure Git where
  request : List Text → Option Request
  commands : Request → Refs → Refs → List Command
  reads : ∀ args req, readPush args = some req → request args = some req
  dry : ∀ req here there, req.dryRun = true → commands req here there = []
  nodup : ∀ req here there, ((commands req here there).map Command.name).Nodup
  sends : ∀ req here there, req.dryRun = false → ∀ cmd, cmd ∈ commands req here there ↔
    command req.prune req.specs here there cmd.name = some cmd

def documented : Git where
  request := readPush
  commands := Request.commands
  reads := fun _ _ h => h
  dry := fun _ _ _ h => if_pos h
  nodup := by
    intro req here there
    unfold Request.commands
    split_ifs
    · exact List.nodup_nil
    · exact nodup_plan
  sends := by
    intro req here there h cmd
    rw [Request.commands, h, if_neg Bool.false_ne_true]
    exact mem_plan

/-- What the other side does with the commands of a request, and whether it says that all is well.
It may refuse any command, takes none whose name does not stand as the sender saw it, and touches
no other name. -/
structure Forge where
  receive : List Command → Refs → Refs
  good : List Command → Refs → Bool
  beside : ∀ cmds refs name, name ∉ cmds.map Command.name →
    (receive cmds refs).lookup name = refs.lookup name
  swaps : ∀ cmds refs, (cmds.map Command.name).Nodup → ∀ cmd ∈ cmds,
    (receive cmds refs).lookup cmd.name = refs.lookup cmd.name ∨
      refs.lookup cmd.name = cmd.old ∧ (receive cmds refs).lookup cmd.name = cmd.new
  told : ∀ cmds refs, (cmds.map Command.name).Nodup → good cmds refs = true → ∀ cmd ∈ cmds,
    (receive cmds refs).lookup cmd.name = cmd.new

namespace Forge

/-- Nothing is sent when there is no command. -/
def after (forge : Forge) (cmds : List Command) (refs : Refs) : Refs :=
  if cmds.isEmpty then refs else forge.receive cmds refs

def well (forge : Forge) (cmds : List Command) (refs : Refs) : Bool :=
  cmds.isEmpty || forge.good cmds refs

def Willing (forge : Forge) : Prop :=
  ∀ cmds refs, (cmds.map Command.name).Nodup → (∀ cmd ∈ cmds, refs.lookup cmd.name = cmd.old) →
    forge.good cmds refs = true

variable (forge : Forge) {refs : Refs} {cmds : List Command} {cmd : Command} {name : Text}

@[simp] theorem after_nil : forge.after [] refs = refs := rfl

theorem lookup_after_of_notMem (h : name ∉ cmds.map Command.name) :
    (forge.after cmds refs).lookup name = refs.lookup name := by
  unfold after
  split_ifs
  · rfl
  · exact forge.beside cmds refs name h

theorem lookup_after_of_mem (hnodup : (cmds.map Command.name).Nodup) (hcmd : cmd ∈ cmds) :
    (forge.after cmds refs).lookup cmd.name = refs.lookup cmd.name ∨
      refs.lookup cmd.name = cmd.old ∧ (forge.after cmds refs).lookup cmd.name = cmd.new := by
  unfold after
  split_ifs
  · exact Or.inl rfl
  · exact forge.swaps cmds refs hnodup cmd hcmd

theorem lookup_after_of_well (hnodup : (cmds.map Command.name).Nodup)
    (hwell : forge.well cmds refs = true) (hcmd : cmd ∈ cmds) :
    (forge.after cmds refs).lookup cmd.name = cmd.new := by
  have hempty : cmds.isEmpty = false := List.isEmpty_eq_false_iff_exists_mem.mpr ⟨cmd, hcmd⟩
  rw [well, hempty, Bool.false_or] at hwell
  rw [after, hempty, if_neg Bool.false_ne_true]
  exact forge.told cmds refs hnodup hwell cmd hcmd

theorem Willing.well {forge : Forge} (h : forge.Willing) (hnodup : (cmds.map Command.name).Nodup)
    (hold : ∀ cmd ∈ cmds, refs.lookup cmd.name = cmd.old) : forge.well cmds refs = true := by
  rw [Forge.well, h cmds refs hnodup hold, Bool.or_true]

end Forge

section Deliver

variable (accepted : Text → Bool)

def Command.taken (refs : Refs) (cmd : Command) : Bool :=
  accepted cmd.name && decide (refs.lookup cmd.name = cmd.old)

def take (refs : Refs) (cmd : Command) : Refs :=
  if cmd.taken accepted refs then put refs cmd.name cmd.new else refs

def deliver (cmds : List Command) (refs : Refs) : Refs := cmds.foldl (take accepted) refs

variable {accepted} {refs : Refs} {cmds : List Command} {cmd : Command} {name : Text}

theorem lookup_take (name : Text) : (take accepted refs cmd).lookup name =
    if cmd.taken accepted refs = true ∧ name = cmd.name then cmd.new else refs.lookup name := by
  unfold take
  cases htaken : cmd.taken accepted refs with
  | false => rw [if_neg Bool.false_ne_true, if_neg fun h => Bool.false_ne_true h.1]
  | true =>
    rw [if_pos rfl, lookup_put]
    simp only [true_and]

theorem lookup_take_of_ne (h : name ≠ cmd.name) :
    (take accepted refs cmd).lookup name = refs.lookup name := by
  rw [lookup_take, if_neg fun hboth => h hboth.2]

theorem lookup_deliver_of_notMem (h : name ∉ cmds.map Command.name) :
    (deliver accepted cmds refs).lookup name = refs.lookup name := by
  induction cmds generalizing refs with
  | nil => rfl
  | cons cmd cmds ih =>
    rw [List.map_cons, List.mem_cons, not_or] at h
    exact (ih h.2).trans (lookup_take_of_ne h.1)

theorem lookup_deliver_of_mem (hnodup : (cmds.map Command.name).Nodup) (hcmd : cmd ∈ cmds) :
    (deliver accepted cmds refs).lookup cmd.name =
      if cmd.taken accepted refs then cmd.new else refs.lookup cmd.name := by
  induction cmds generalizing refs with
  | nil => cases hcmd
  | cons first cmds ih =>
    rw [List.map_cons, List.nodup_cons] at hnodup
    rcases List.mem_cons.mp hcmd with rfl | hcmd
    · refine (lookup_deliver_of_notMem hnodup.1).trans ?_
      rw [lookup_take]
      simp only [and_true]
    · have hne : cmd.name ≠ first.name := fun heq =>
        hnodup.1 (heq ▸ List.mem_map_of_mem hcmd)
      have htaken : cmd.taken accepted (take accepted refs first) = cmd.taken accepted refs := by
        rw [Command.taken, Command.taken, lookup_take_of_ne hne]
      have hrest := @ih (take accepted refs first) hnodup.2 hcmd
      rw [htaken, lookup_take_of_ne hne] at hrest
      exact hrest

variable (accepted)

def takes : Forge where
  receive := deliver accepted
  good := fun cmds refs => cmds.all (Command.taken accepted refs)
  beside := fun _ _ _ h => lookup_deliver_of_notMem h
  swaps := by
    intro cmds refs hnodup cmd hcmd
    rw [lookup_deliver_of_mem hnodup hcmd]
    split_ifs with htaken
    · rw [Command.taken, Bool.and_eq_true, decide_eq_true_eq] at htaken
      exact Or.inr ⟨htaken.2, rfl⟩
    · exact Or.inl rfl
  told := by
    intro cmds refs hnodup hgood cmd hcmd
    rw [lookup_deliver_of_mem hnodup hcmd, if_pos (List.all_eq_true.mp hgood cmd hcmd)]

theorem takes_willing (h : ∀ name, accepted name = true) : (takes accepted).Willing := by
  intro cmds refs _ hold
  refine List.all_eq_true.mpr fun cmd hcmd => ?_
  rw [Command.taken, h, Bool.true_and, decide_eq_true_eq]
  exact hold cmd hcmd

end Deliver

end Setfork.Foundation.GitPush
