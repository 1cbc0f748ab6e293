/- Branches
   digest: Branches and release tags made inside the repository, and the merges that move main. -/
import Setfork.Push

set_option autoImplicit false
set_option relaxedAutoImplicit false

namespace Setfork.Branches

open Setfork.Foundation
open Setfork.Readme (gitattributes)
open Setfork.Project (RawList readmeFromCanon)
open Setfork.Authored
open Setfork.Repository
open Setfork.Push (GitLibrary)

/-- A plain name without paths. -/
def validBranch (name : Text) : Bool :=
  !name.isEmpty && name.head? != some '-' &&
    name.all (fun c => c.isAlphanum || c == '-' || c == '_' || c == '.') &&
    !decide ("..".toList <:+: name)

def validTag (name : Text) : Bool :=
  !name.isEmpty && name.head? != some '-' && name.head? != some '/' && name.getLast? != some '/' &&
    name.getLast? != some '.' && !decide ("..".toList <:+: name) &&
    !decide ("//".toList <:+: name) && !decide ("@\x7b".toList <:+: name) &&
    !name.any (fun c => isWhitespace c || isControl c || "~^:?*[]\\".toList.contains c)

/-- The names of version tags belong to the versions. -/
def isVersionTag (name : Text) : Bool := (versionOfTag name).isSome

inductive BranchRefusal where
  | badName
  | reservedTagName
  | notFound
  | taken
  | mainIsProtected
  | nothingToMerge
  | conflict
  | stale
  | main (e : MainUpdateError)
  | git

def tipOf (refs : Refs) (ref : Text) : Except BranchRefusal Commit :=
  match refs.lookup ref with
  | none => .error .notFound
  | some (.object _ _) => .error .git
  | some (.commit c) => .ok c

def moveRef (written : Bool) (refs : Refs) (ref : Text) (c : Commit) : Except BranchRefusal Refs :=
  if written then .ok (refs.insert ref (.commit c)) else .error .git

def moveMain (written : Bool) (refs : Refs) (newTip expectedOld : Commit) :
    Except BranchRefusal Refs :=
  match updateMain refs written newTip (some expectedOld) with
  | .error e => .error (.main e)
  | .ok moved => .ok moved

def mainName : Text := "main".toList

/-- A branch that may be written to. -/
def writableBranch (name : Text) : Bool := validBranch name && name != mainName

def createBranch (written : Bool) (refs : Refs) (name origin : Text) : Except BranchRefusal Refs :=
  let base := if origin.isEmpty then mainName else origin
  if !validBranch name || !validBranch base then .error .badName
  else
    match tipOf refs (branchRef base) with
    | .error e => .error e
    | .ok c => if branchRef name ∈ refs then .error .taken else moveRef written refs (branchRef name) c

def deleteBranch (written : Bool) (refs : Refs) (name : Text) : Except BranchRefusal Refs :=
  if !validBranch name then .error .badName
  else if name = mainName then .error .mainIsProtected
  else if branchRef name ∉ refs then .error .notFound
  else if written then .ok (refs.erase (branchRef name)) else .error .git

/-- A canon that is put into a tree: the README follows it when it parses, and the directory of
the old form goes. -/
def canonTree (reserved : Name → Bool) (fromSlice : Bytes → Option RawList) (listJson : Bytes)
    (t : Tree) : Option Tree := do
  let es ← TreeBuilder.put reserved t.entries "list.json".toList (.leaf (.file false listJson))
  let es ← match readmeFromCanon fromSlice listJson with
    | none => some es
    | some text => TreeBuilder.put reserved es "README.md".toList (.leaf (.file false (utf8 text)))
  let es ← TreeBuilder.put reserved es ".gitattributes".toList (.leaf (.file false (utf8 gitattributes)))
  Tree.ofEntries (es.filter (fun e => e.1.bytes ≠ utf8 "steps".toList))

def hasCanonBytes (t : Tree) (listJson : Bytes) : Bool :=
  match t.get "list.json".toList with
  | some (.leaf l) => l.blob == some listJson
  | _ => false

section Canon

variable (reserved : Name → Bool) (fromSlice : Bytes → Option RawList)

/-- One canon over the tip of a branch; the same bytes make no commit. -/
def commitListJson (written : Bool) (refs : Refs) (branch : Text) (listJson : Bytes)
    (expectedTip : Option Commit) (stamp : Stamp) : Except BranchRefusal Refs :=
  match tipOf refs (branchRef branch) with
  | .error e => .error e
  | .ok tip =>
    if expectedTip.any (fun c => c ≠ tip) then .error .stale
    else if hasCanonBytes tip.tree listJson then .ok refs
    else
      match canonTree reserved fromSlice listJson tip.tree with
      | none => .error .git
      | some t => moveRef written refs (branchRef branch) (.mk t [tip] stamp)

def commitToBranch (written : Bool) (refs : Refs) (branch : Text) (listJson : Bytes)
    (expectedTip : Option Commit) (stamp : Stamp) : Except BranchRefusal Refs :=
  if writableBranch branch then
    commitListJson reserved fromSlice written refs branch listJson expectedTip stamp
  else .error .badName

/-- The canon a person settled on, over the tree of main. -/
def commitResolved (written : Bool) (refs : Refs) (branch : Text) (listJson : Bytes) (squash : Bool)
    (stamp : Stamp) : Except BranchRefusal Refs :=
  match tipOf refs (branchRef branch), tipOf refs mainRef with
  | .error e, _ => .error e
  | _, .error _ => .error .git
  | .ok theirs, .ok ours =>
    if ours = theirs then .error .nothingToMerge
    else
      match canonTree reserved fromSlice listJson ours.tree with
      | none => .error .git
      | some t =>
        moveMain written refs (.mk t (if squash then [ours] else [ours, theirs]) stamp) ours

def mergeResolved (written : Bool) (refs : Refs) (branch : Text) (listJson : Bytes) (squash : Bool)
    (stamp : Stamp) : Except BranchRefusal Refs :=
  if writableBranch branch then
    commitResolved reserved fromSlice written refs branch listJson squash stamp
  else .error .badName

end Canon

variable (lib : GitLibrary)

def mergeCommit (ours theirs : Commit) (parents : List Commit) (stamp : Stamp) :
    Except BranchRefusal Commit :=
  match lib.merge ours theirs with
  | none => .error .conflict
  | some t => .ok (.mk t parents stamp)

/-- Main into a branch: nothing judges the tree of the merge. -/
def updateBranch (written : Bool) (refs : Refs) (name : Text) (stamp : Stamp) :
    Except BranchRefusal Refs :=
  if !writableBranch name then .error .badName
  else
    match tipOf refs (branchRef name), tipOf refs mainRef with
    | .error e, _ => .error e
    | _, .error _ => .error .git
    | .ok branchTip, .ok mainTip =>
      if branchTip.Reaches mainTip then .error .nothingToMerge
      else if mainTip.Reaches branchTip then moveRef written refs (branchRef name) mainTip
      else
        match mergeCommit lib branchTip mainTip [branchTip, mainTip] stamp with
        | .error e => .error e
        | .ok merged => moveRef written refs (branchRef name) merged

/-- A branch into main: squashed, fast-forward, or by a merge commit. -/
def mergeBranch (written : Bool) (refs : Refs) (name : Text) (squash : Bool) (stamp : Stamp) :
    Except BranchRefusal Refs :=
  if !writableBranch name then .error .badName
  else
    match tipOf refs (branchRef name), tipOf refs mainRef with
    | .error e, _ => .error e
    | _, .error _ => .error .git
    | .ok branchTip, .ok mainTip =>
      if mainTip.Reaches branchTip then .error .nothingToMerge
      else if squash then
        match mergeCommit lib mainTip branchTip [mainTip] stamp with
        | .error e => .error e
        | .ok squashed => moveMain written refs squashed mainTip
      else if branchTip.Reaches mainTip then moveMain written refs branchTip mainTip
      else
        match mergeCommit lib mainTip branchTip [mainTip, branchTip] stamp with
        | .error e => .error e
        | .ok merged => moveMain written refs merged mainTip

/-- A release points at what the tag of a version points at; a second one moves it. -/
def createTag (written : Bool) (refs : Refs) (name : Text) (version : Int) :
    Except BranchRefusal Refs :=
  if !validTag name then .error .badName
  else if isVersionTag name then .error .reservedTagName
  else
    match refs.lookup (tagRef (versionTag version)) with
    | none => .error .notFound
    | some t => if written then .ok (refs.insert (tagRef name) t) else .error .git

variable {lib : GitLibrary} {reserved : Name → Bool} {fromSlice : Bytes → Option RawList}
  {written squash : Bool} {refs changed : Refs} {name : Text} {stamp : Stamp}

theorem tipOf_eq_ok {ref : Text} {c : Commit} :
    tipOf refs ref = .ok c ↔ refs.lookup ref = some (.commit c) := by
  unfold tipOf
  cases refs.lookup ref with
  | none => simp
  | some t => cases t <;> simp

theorem moveRef_eq_ok {ref : Text} {c : Commit} (h : moveRef written refs ref c = .ok changed) :
    changed = refs.insert ref (.commit c) := by
  unfold moveRef at h
  split_ifs at h
  exact (Except.ok.inj h).symm

theorem moveMain_eq_ok {newTip old : Commit}
    (h : moveMain written refs newTip old = .ok changed) :
    mainViolation newTip.tree = none ∧ refs.lookup mainRef = some (.commit old) ∧
      newTip.Reaches old ∧ changed = refs.insert mainRef (.commit newTip) := by
  unfold moveMain at h
  cases hmove : updateMain refs written newTip (some old) with
  | error e =>
    rw [hmove] at h
    cases h
  | ok moved =>
    rw [hmove] at h
    obtain ⟨hformat, hold, hreach, -, heq⟩ := updateMain_eq_ok_iff.mp hmove
    exact ⟨hformat, hold, hreach old rfl, (Except.ok.inj h).symm.trans heq⟩

theorem writableBranch_ne_main (h : writableBranch name = true) : name ≠ mainName := by
  unfold writableBranch at h
  rw [Bool.and_eq_true] at h
  simpa using h.2

theorem createBranch_eq_ok {origin : Text} (h : createBranch written refs name origin = .ok changed) :
    ∃ base c, refs.lookup (branchRef base) = some (.commit c) ∧ branchRef name ∉ refs ∧
      changed = refs.insert (branchRef name) (.commit c) := by
  unfold createBranch at h
  dsimp only at h
  generalize (if origin.isEmpty then mainName else origin) = base at h
  cases htip : tipOf refs (branchRef base) with
  | error e =>
    rw [htip] at h
    split_ifs at h
  | ok c =>
    rw [htip] at h
    dsimp only at h
    split_ifs at h with hname htaken
    exact ⟨base, c, tipOf_eq_ok.mp htip, htaken, moveRef_eq_ok h⟩

theorem deleteBranch_eq_ok (h : deleteBranch written refs name = .ok changed) :
    name ≠ mainName ∧ changed = refs.erase (branchRef name) := by
  unfold deleteBranch at h
  split_ifs at h with hname hmain
  exact ⟨hmain, (Except.ok.inj h).symm⟩

/-- A canon that is committed to a branch stands over the tip of the branch. -/
theorem commitToBranch_eq_ok {listJson : Bytes} {expectedTip : Option Commit}
    (h : commitToBranch reserved fromSlice written refs name listJson expectedTip stamp =
      .ok changed) : name ≠ mainName ∧ (changed = refs ∨
        ∃ tip t, refs.lookup (branchRef name) = some (.commit tip) ∧
          canonTree reserved fromSlice listJson tip.tree = some t ∧
          changed = refs.insert (branchRef name) (.commit (.mk t [tip] stamp))) := by
  unfold commitToBranch at h
  split_ifs at h with hwritable
  refine ⟨writableBranch_ne_main hwritable, ?_⟩
  unfold commitListJson at h
  cases htip : tipOf refs (branchRef name) with
  | error e =>
    rw [htip] at h
    cases h
  | ok tip =>
    rw [htip] at h
    dsimp only at h
    split_ifs at h with hstale hsame
    · exact Or.inl (Except.ok.inj h).symm
    · cases htree : canonTree reserved fromSlice listJson tip.tree with
      | none =>
        rw [htree] at h
        cases h
      | some t =>
        rw [htree] at h
        exact Or.inr ⟨tip, t, tipOf_eq_ok.mp htip, htree, moveRef_eq_ok h⟩

/-- A branch is updated to the tip of main or to a merge with it. -/
theorem updateBranch_eq_ok (h : updateBranch lib written refs name stamp = .ok changed) :
    name ≠ mainName ∧ ∃ theirs ours, refs.lookup (branchRef name) = some (.commit theirs) ∧
      refs.lookup mainRef = some (.commit ours) ∧
      (changed = refs.insert (branchRef name) (.commit ours) ∨
        ∃ t, lib.merge theirs ours = some t ∧
          changed = refs.insert (branchRef name) (.commit (.mk t [theirs, ours] stamp))) := by
  unfold updateBranch at h
  cases hwritable : writableBranch name with
  | false =>
    rw [hwritable] at h
    cases h
  | true =>
    refine ⟨writableBranch_ne_main hwritable, ?_⟩
    rw [hwritable] at h
    cases hbranch : tipOf refs (branchRef name) with
    | error e =>
      rw [hbranch] at h
      cases h
    | ok theirs =>
      cases hmain : tipOf refs mainRef with
      | error e =>
        rw [hbranch, hmain] at h
        cases h
      | ok ours =>
        rw [hbranch, hmain] at h
        refine ⟨theirs, ours, tipOf_eq_ok.mp hbranch, tipOf_eq_ok.mp hmain, ?_⟩
        simp only [Bool.not_true, Bool.false_eq_true, if_false] at h
        split_ifs at h with hnothing hforward
        · exact Or.inl (moveRef_eq_ok h)
        · cases hmerge : lib.merge theirs ours with
          | none =>
            simp only [mergeCommit, hmerge] at h
            cases h
          | some t =>
            simp only [mergeCommit, hmerge] at h
            exact Or.inr ⟨t, rfl, moveRef_eq_ok h⟩

/-- The commit a merge moves main to: the tip of the branch, or a merge of the two tips. -/
def MergedTip (lib : GitLibrary) (ours theirs : Commit) (stamp : Stamp) (newTip : Commit) : Prop :=
  newTip = theirs ∨ ∃ t parents, lib.merge ours theirs = some t ∧
    (∀ p ∈ parents, p = ours ∨ p = theirs) ∧ newTip = .mk t parents stamp

theorem mergeBranch_eq_ok (h : mergeBranch lib written refs name squash stamp = .ok changed) :
    ∃ ours theirs newTip, refs.lookup (branchRef name) = some (.commit theirs) ∧
      refs.lookup mainRef = some (.commit ours) ∧ MergedTip lib ours theirs stamp newTip ∧
      mainViolation newTip.tree = none ∧ newTip.Reaches ours ∧ newTip ≠ ours ∧
      changed = refs.insert mainRef (.commit newTip) := by
  unfold mergeBranch at h
  cases hwritable : writableBranch name with
  | false =>
    rw [hwritable] at h
    cases h
  | true =>
    rw [hwritable] at h
    cases hbranch : tipOf refs (branchRef name) with
    | error e =>
      rw [hbranch] at h
      cases h
    | ok theirs =>
      cases hmain : tipOf refs mainRef with
      | error e =>
        rw [hbranch, hmain] at h
        cases h
      | ok ours =>
        rw [hbranch, hmain] at h
        have hdone : ∀ newTip, MergedTip lib ours theirs stamp newTip → newTip ≠ ours →
            moveMain written refs newTip ours = .ok changed →
            ∃ ours theirs newTip, refs.lookup (branchRef name) = some (.commit theirs) ∧
              refs.lookup mainRef = some (.commit ours) ∧ MergedTip lib ours theirs stamp newTip ∧
              mainViolation newTip.tree = none ∧ newTip.Reaches ours ∧ newTip ≠ ours ∧
              changed = refs.insert mainRef (.commit newTip) := by
          intro newTip hmerged hne hmove
          obtain ⟨hformat, hold, hreach, heq⟩ := moveMain_eq_ok hmove
          exact ⟨ours, theirs, newTip, tipOf_eq_ok.mp hbranch, hold, hmerged, hformat, hreach, hne,
            heq⟩
        have hchild : ∀ t parents, ours ∈ parents → Commit.mk t parents stamp ≠ ours :=
          fun t parents hmem => Commit.ne_of_isParent_reaches .refl hmem
        simp only [Bool.not_true, Bool.false_eq_true, if_false] at h
        have hnew : ¬ ours.Reaches theirs → theirs ≠ ours := by
          rintro hbehind rfl
          exact hbehind .refl
        cases hmerge : lib.merge ours theirs with
        | none =>
          simp only [mergeCommit, hmerge] at h
          split_ifs at h with hbehind
          exact hdone theirs (Or.inl rfl) (hnew hbehind) h
        | some t =>
          simp only [mergeCommit, hmerge] at h
          split_ifs at h with hbehind
          · exact hdone _ (Or.inr ⟨t, [ours], hmerge, by simp, rfl⟩) (hchild t _ (by simp)) h
          · exact hdone theirs (Or.inl rfl) (hnew hbehind) h
          · exact hdone _ (Or.inr ⟨t, [ours, theirs], hmerge, by simp, rfl⟩)
              (hchild t _ (by simp)) h

theorem mergeBranch_forward {ours theirs : Commit} (hname : writableBranch name = true)
    (hbranch : refs.lookup (branchRef name) = some (.commit theirs))
    (hmain : refs.lookup mainRef = some (.commit ours)) (hparent : theirs.IsParent ours)
    (hformat : mainViolation theirs.tree = none) :
    mergeBranch lib true refs name false stamp = .ok (refs.insert mainRef (.commit theirs)) := by
  have hbehind : ¬ ours.Reaches theirs := fun h => Commit.ne_of_isParent_reaches h hparent rfl
  have hahead : theirs.Reaches ours := .single hparent
  have hmove : updateMain refs true theirs (some ours) =
      .ok (refs.insert mainRef (.commit theirs)) :=
    updateMain_eq_ok_iff.mpr ⟨hformat, hmain, fun old hold => Option.some.inj hold ▸ hahead, rfl, rfl⟩
  simp only [mergeBranch, hname, Bool.not_true, Bool.false_eq_true, if_false, tipOf_eq_ok.mpr hbranch,
    tipOf_eq_ok.mpr hmain, if_neg hbehind, if_pos hahead, moveMain, hmove]

theorem mergeResolved_eq_ok {listJson : Bytes}
    (h : mergeResolved reserved fromSlice written refs name listJson squash stamp = .ok changed) :
    ∃ ours theirs t parents, refs.lookup (branchRef name) = some (.commit theirs) ∧
      refs.lookup mainRef = some (.commit ours) ∧
      canonTree reserved fromSlice listJson ours.tree = some t ∧
      parents = (if squash then [ours] else [ours, theirs]) ∧ mainViolation t = none ∧
      changed = refs.insert mainRef (.commit (.mk t parents stamp)) := by
  unfold mergeResolved at h
  split_ifs at h with hwritable
  unfold commitResolved at h
  cases hbranch : tipOf refs (branchRef name) with
  | error e =>
    rw [hbranch] at h
    cases h
  | ok theirs =>
    cases hmain : tipOf refs mainRef with
    | error e =>
      rw [hbranch, hmain] at h
      cases h
    | ok ours =>
      rw [hbranch, hmain] at h
      dsimp only at h
      by_cases hnothing : ours = theirs
      · rw [if_pos hnothing] at h
        cases h
      · rw [if_neg hnothing] at h
        cases htree : canonTree reserved fromSlice listJson ours.tree with
        | none =>
          rw [htree] at h
          cases h
        | some t =>
          rw [htree] at h
          obtain ⟨hformat, hold, -, heq⟩ := moveMain_eq_ok h
          exact ⟨ours, theirs, t, _, tipOf_eq_ok.mp hbranch, hold, htree, rfl, hformat, heq⟩

theorem createTag_eq_ok {version : Int} (h : createTag written refs name version = .ok changed) :
    versionOfTag name = none ∧ ∃ t, refs.lookup (tagRef (versionTag version)) = some t ∧
      changed = refs.insert (tagRef name) t := by
  unfold createTag at h
  cases htag : refs.lookup (tagRef (versionTag version)) with
  | none =>
    rw [htag] at h
    split_ifs at h
  | some t =>
    rw [htag] at h
    dsimp only at h
    split_ifs at h with hname hreserved
    exact ⟨by simpa [isVersionTag] using hreserved, t, rfl, (Except.ok.inj h).symm⟩

end Setfork.Branches
