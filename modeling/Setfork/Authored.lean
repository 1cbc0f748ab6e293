/- Authored
   digest: Limits on authored files: the counter of the core, its two uses, and the hook's rule. -/
import Setfork.Foundation.Git
import Setfork.TreeRule

set_option autoImplicit false
set_option relaxedAutoImplicit false

namespace Setfork.Authored

open Setfork.Foundation
open Setfork.TreeRule

def authoredMaxFiles : Nat := 50

def authoredMaxBytes : Nat := 1024 * 1024

def authoredNameMaxBytes : Nat := 100

inductive MainUpdateError where
  | missingListJson
  | foreignPath (path : Text)
  | authoredNotFile (path : Text)
  | authoredBinary (path : Text)
  | authoredTooMany (files : Nat)
  | authoredTooLarge (bytes : Nat)
  | authoredDuplicate (path : Text)
  | authoredExecutable (path : Text)
  | nonFastForward
  | stale
  | git (error : Text)
deriving DecidableEq

/-- One counter for the tree of a commit and for a file set on input. -/
structure AuthoredTally where
  files : Nat
  bytes : Nat
deriving DecidableEq

namespace AuthoredTally

def zero : AuthoredTally := ⟨0, 0⟩

def add (tally : AuthoredTally) (path : Text) (content : Bytes) :
    Except MainUpdateError AuthoredTally :=
  if 0 ∈ content then .error (.authoredBinary path)
  else
    let files := tally.files + 1
    -- a name is bytes of the tree as well
    let bytes := tally.bytes + (content.length + (utf8 path).length)
    if authoredMaxFiles < files then .error (.authoredTooMany files) else .ok ⟨files, bytes⟩

def finish (tally : AuthoredTally) : Option MainUpdateError :=
  if authoredMaxFiles < tally.files then some (.authoredTooMany tally.files)
  else if authoredMaxBytes < tally.bytes then some (.authoredTooLarge tally.bytes)
  else none

theorem add_eq_ok_iff (tally next : AuthoredTally) (path : Text) (content : Bytes) :
    tally.add path content = .ok next ↔
      0 ∉ content ∧ tally.files + 1 ≤ authoredMaxFiles ∧
        next = ⟨tally.files + 1, tally.bytes + (content.length + (utf8 path).length)⟩ := by
  unfold add
  by_cases hnul : 0 ∈ content
  · simp [hnul]
  · by_cases hmany : authoredMaxFiles < tally.files + 1
    · rw [if_neg hnul]
      dsimp only
      rw [if_pos hmany]
      constructor
      · intro h
        cases h
      · rintro ⟨-, hfew, -⟩
        omega
    · have hfew : tally.files + 1 ≤ authoredMaxFiles := by omega
      simp [hnul, hmany, hfew, eq_comm]

theorem finish_eq_none_iff (tally : AuthoredTally) :
    tally.finish = none ↔ tally.files ≤ authoredMaxFiles ∧ tally.bytes ≤ authoredMaxBytes := by
  unfold finish
  by_cases hmany : authoredMaxFiles < tally.files
  · have : ¬ tally.files ≤ authoredMaxFiles := by omega
    simp [hmany, this]
  · have hfew : tally.files ≤ authoredMaxFiles := by omega
    simp [hmany, hfew]

end AuthoredTally

def shownText (n : Name) : Text := (fromUtf8 n.bytes).getD nonUtf8

def authoredEntryPath (dir : Text) (n : Name) : Text := dir ++ '/' :: shownText n

/-- Everything that lies directly under an authored directory, directory by directory. -/
def authoredEntries (t : Tree) : List (Text × Name × Entry) :=
  authoredDirs.flatMap (fun dir =>
    (((t.get dir).bind Entry.asDir).getD []).map (fun e => (dir, e.1, e.2)))

def tallyEntry (tally : AuthoredTally) (x : Text × Name × Entry) :
    Except MainUpdateError AuthoredTally :=
  match x.2.2 with
  | .leaf (.file _ content) => tally.add (authoredEntryPath x.1 x.2.1) content
  | _ => .error (.authoredNotFile (authoredEntryPath x.1 x.2.1))

/-- What is wrong with the authored files of a tree. -/
def authoredViolation (t : Tree) : Option MainUpdateError :=
  match (authoredEntries t).foldlM tallyEntry AuthoredTally.zero with
  | .error e => some e
  | .ok tally => tally.finish

/-- The first leaf whose path the core does not admit. -/
def firstForeignPath (t : Tree) : Option LeafPath := t.paths.find? (fun p => !leafAllowed p)

theorem firstForeignPath_eq_none_iff (t : Tree) :
    firstForeignPath t = none ↔ ∀ p ∈ t.paths, leafAllowed p = true := by
  simp [firstForeignPath]

structure AuthoredInput where
  path : Text
  content : Bytes
  executable : Bool
deriving DecidableEq

def isDirectionChar (c : Char) : Bool :=
  let n := c.toNat
  n == 0x200e || n == 0x200f || (0x202a ≤ n && n ≤ 0x202e) || (0x2066 ≤ n && n ≤ 0x2069)

def isControl (c : Char) : Bool := c.toNat < 0x20 || (0x7f ≤ c.toNat && c.toNat ≤ 0x9f)

def lastSegment (path : Text) : Text := path.rtakeWhile (· != '/')

def inputNameOk (path : Text) : Bool :=
  let name := lastSegment path
  (utf8 name).length ≤ authoredNameMaxBytes && name.head? != some '.' &&
    !name.any (fun c => isControl c || c == '\\' || isDirectionChar c)

def checkInputs (seen : List Text) (tally : AuthoredTally) :
    List AuthoredInput → Option MainUpdateError
  | [] => tally.finish
  | f :: files =>
    if !authoredPath f.path || !inputNameOk f.path then some (.foreignPath f.path)
    else if f.executable && !"scripts/".toList.isPrefixOf f.path then
      some (.authoredExecutable f.path)
    else if seen.contains f.path then some (.authoredDuplicate f.path)
    else
      match tally.add f.path f.content with
      | .error e => some e
      | .ok next => checkInputs (f.path :: seen) next files

/-- The rule for a file set that comes with a write. -/
def authoredInputViolation (files : List AuthoredInput) : Option MainUpdateError :=
  checkInputs [] .zero files

inductive AuthoredRefusal where
  | notFile (path : Bytes)
  | binary (path : Bytes)
  | tooMany (files : Nat)
  | tooLarge (bytes : Nat)
deriving DecidableEq

def isAuthoredName (n : Name) : Bool := (authoredDirs.map utf8).contains n.bytes

def lsTreeAuthored (t : Tree) : List (LeafPath × Leaf) :=
  t.leaves.filter (fun x => (x.1.dirs ++ [x.1.name]).head?.any isAuthoredName)

def leafObject : Leaf → Bytes
  | .file _ content => content
  | .symlink target => target
  | .gitlink commit => commit

def leafSize : Leaf → Nat
  | .file _ content => content.length
  | .symlink target => target.length
  | .gitlink _ => 0

def isRegular : Leaf → Bool
  | .file _ _ => true
  | _ => false

/-- Reads blobs until the first binary one; gives its path or the blobs that were read. -/
def scanFresh (seen : List Bytes) : List (LeafPath × Leaf) → Except AuthoredRefusal (List Bytes)
  | [] => .ok seen
  | (p, l) :: rest =>
    if 0 ∈ leafObject l then .error (.binary (printPath p.bytes))
    else scanFresh (leafObject l :: seen) rest

/-- The limits of the hook on one commit, given the blobs seen earlier in the push. -/
def hookLimits (seen : List Bytes) (t : Tree) : Except AuthoredRefusal (List Bytes) :=
  let authored := lsTreeAuthored t
  if authored.isEmpty then .ok seen
  else
    match authored.find? (fun x => !isRegular x.2) with
    | some x => .error (.notFile (printPath x.1.bytes))
    | none =>
      match scanFresh seen (authored.filter (fun x => !seen.contains (leafObject x.2))) with
      | .error e => .error e
      | .ok seen' =>
        let bytes := (authored.map (fun x => leafSize x.2)).sum
        if authoredMaxFiles < authored.length then .error (.tooMany authored.length)
        else if authoredMaxBytes < bytes then .error (.tooLarge bytes)
        else .ok seen'

def PlainEntry (e : Entry) : Prop := ∃ x content, e = .leaf (.file x content) ∧ 0 ∉ content

/-- What an entry adds to the byte count of the core: its content and its path. -/
def entryWeight (x : Text × Name × Entry) : Nat :=
  match x.2.2 with
  | .leaf (.file _ content) => content.length + (utf8 (authoredEntryPath x.1 x.2.1)).length
  | _ => 0

private theorem tallyEntry_eq_ok_iff (tally next : AuthoredTally) (x : Text × Name × Entry) :
    tallyEntry tally x = .ok next ↔ PlainEntry x.2.2 ∧ tally.files + 1 ≤ authoredMaxFiles ∧
      next = ⟨tally.files + 1, tally.bytes + entryWeight x⟩ := by
  obtain ⟨dir, n, e⟩ := x
  match e with
  | .leaf (.file ex content) =>
    simp only [tallyEntry, AuthoredTally.add_eq_ok_iff, PlainEntry, entryWeight]
    refine and_congr_left fun _ => ⟨fun h => ⟨ex, content, rfl, h⟩, ?_⟩
    rintro ⟨_, _, heq, h⟩
    simp only [Entry.leaf.injEq, Leaf.file.injEq] at heq
    rwa [heq.2]
  | .leaf (.symlink target) => simp [tallyEntry, PlainEntry]
  | .leaf (.gitlink commit) => simp [tallyEntry, PlainEntry]
  | .dir entries => simp [tallyEntry, PlainEntry]

theorem foldlM_tally_eq_ok_iff (xs : List (Text × Name × Entry)) (tally result : AuthoredTally)
    (htally : tally.files ≤ authoredMaxFiles) :
    xs.foldlM tallyEntry tally = .ok result ↔ (∀ x ∈ xs, PlainEntry x.2.2) ∧
      tally.files + xs.length ≤ authoredMaxFiles ∧
      result = ⟨tally.files + xs.length, tally.bytes + (xs.map entryWeight).sum⟩ := by
  induction xs generalizing tally with
  | nil =>
    have hpure : List.foldlM tallyEntry tally [] = Except.ok tally := rfl
    simp [hpure, htally, eq_comm]
  | cons x xs ih =>
    rw [List.foldlM_cons]
    constructor
    · intro h
      cases hx : tallyEntry tally x with
      | error e =>
        rw [hx] at h
        cases h
      | ok next =>
        rw [hx] at h
        obtain ⟨hplain, hfew, rfl⟩ := (tallyEntry_eq_ok_iff tally next x).mp hx
        obtain ⟨hrest, hlen, rfl⟩ := (ih _ hfew).mp h
        refine ⟨?_, ?_, ?_⟩
        · intro y hy
          rcases List.mem_cons.mp hy with rfl | hy
          · exact hplain
          · exact hrest y hy
        · simp only [List.length_cons] at hlen ⊢
          omega
        · simp only [List.length_cons, List.map_cons, List.sum_cons, AuthoredTally.mk.injEq]
          omega
    · rintro ⟨hplain, hlen, rfl⟩
      simp only [List.length_cons] at hlen
      have hx := (tallyEntry_eq_ok_iff tally _ x).mpr ⟨hplain x List.mem_cons_self, by omega, rfl⟩
      have hxs : ∀ y ∈ xs, PlainEntry y.2.2 := fun y hy => hplain y (List.mem_cons_of_mem x hy)
      rw [hx]
      refine (ih ⟨tally.files + 1, tally.bytes + entryWeight x⟩ ?_).mpr ⟨hxs, ?_, ?_⟩
      · change tally.files + 1 ≤ authoredMaxFiles
        omega
      · change tally.files + 1 + xs.length ≤ authoredMaxFiles
        omega
      · simp only [List.length_cons, List.map_cons, List.sum_cons, AuthoredTally.mk.injEq]
        omega

theorem authoredViolation_eq_none_iff (t : Tree) :
    authoredViolation t = none ↔ (∀ x ∈ authoredEntries t, PlainEntry x.2.2) ∧
      (authoredEntries t).length ≤ authoredMaxFiles ∧
      ((authoredEntries t).map entryWeight).sum ≤ authoredMaxBytes := by
  have hrun := foldlM_tally_eq_ok_iff (authoredEntries t) .zero
  unfold authoredViolation
  cases hfold : (authoredEntries t).foldlM tallyEntry AuthoredTally.zero with
  | error e =>
    simp only [reduceCtorEq, false_iff, not_and]
    intro hplain hlen
    have hok := (hrun _ (by decide)).mpr ⟨hplain, by simpa [AuthoredTally.zero] using hlen, rfl⟩
    rw [hfold] at hok
    cases hok
  | ok tally =>
    obtain ⟨hplain, hlen, rfl⟩ := (hrun tally (by decide)).mp hfold
    simp only [AuthoredTally.finish_eq_none_iff, AuthoredTally.zero, Nat.zero_add]
    exact ⟨fun h => ⟨hplain, h⟩, fun h => h.2⟩

theorem names_of_checkInputs {seen : List Text} {tally : AuthoredTally} {files : List AuthoredInput}
    (h : checkInputs seen tally files = none) :
    ∀ f ∈ files, authoredPath f.path = true ∧ inputNameOk f.path = true := by
  induction files generalizing seen tally with
  | nil => simp
  | cons f files ih =>
    unfold checkInputs at h
    split_ifs at h with hname hexec hseen
    have hhead : authoredPath f.path = true ∧ inputNameOk f.path = true := by
      simpa [not_or] using hname
    intro g hg
    rcases List.mem_cons.mp hg with rfl | hg
    · exact hhead
    · split at h
      · cases h
      · exact ih h g hg

private theorem scanFresh_eq_ok {seen result : List Bytes} {xs : List (LeafPath × Leaf)}
    (h : scanFresh seen xs = .ok result) :
    (∀ x ∈ xs, 0 ∉ leafObject x.2) ∧
      ∀ b ∈ result, b ∈ seen ∨ ∃ x ∈ xs, b = leafObject x.2 := by
  induction xs generalizing seen with
  | nil =>
    obtain rfl : seen = result := Except.ok.inj h
    exact ⟨by simp, fun b hb => Or.inl hb⟩
  | cons x xs ih =>
    obtain ⟨p, l⟩ := x
    unfold scanFresh at h
    split_ifs at h with hnul
    obtain ⟨hrest, hseen⟩ := ih h
    refine ⟨?_, ?_⟩
    · intro y hy
      rcases List.mem_cons.mp hy with rfl | hy
      · exact hnul
      · exact hrest y hy
    · intro b hb
      rcases hseen b hb with hb | ⟨y, hy, rfl⟩
      · rcases List.mem_cons.mp hb with rfl | hb
        · exact Or.inr ⟨(p, l), List.mem_cons_self, rfl⟩
        · exact Or.inl hb
      · exact Or.inr ⟨y, List.mem_cons_of_mem _ hy, rfl⟩

private theorem scanFresh_isOk (seen : List Bytes) (xs : List (LeafPath × Leaf))
    (h : ∀ x ∈ xs, 0 ∉ leafObject x.2) : ∃ result, scanFresh seen xs = .ok result := by
  induction xs generalizing seen with
  | nil => exact ⟨seen, rfl⟩
  | cons x xs ih =>
    obtain ⟨p, l⟩ := x
    have hl : 0 ∉ leafObject l := h (p, l) List.mem_cons_self
    obtain ⟨result, hresult⟩ := ih (leafObject l :: seen)
      fun y hy => h y (List.mem_cons_of_mem _ hy)
    exact ⟨result, by rw [scanFresh, if_neg hl, hresult]⟩

def NulFree (seen : List Bytes) : Prop := ∀ b ∈ seen, 0 ∉ b

structure WithinLimits (t : Tree) : Prop where
  regular : ∀ x ∈ lsTreeAuthored t, isRegular x.2 = true
  text : ∀ x ∈ lsTreeAuthored t, 0 ∉ leafObject x.2
  files : (lsTreeAuthored t).length ≤ authoredMaxFiles
  bytes : ((lsTreeAuthored t).map (fun x => leafSize x.2)).sum ≤ authoredMaxBytes

/-- One commit: the hook accepts exactly the trees within the limits, whatever was read before,
and keeps its cache free of binaries. -/
theorem hookLimits_spec {seen : List Bytes} (hseen : NulFree seen) (t : Tree) :
    ((∃ seen', hookLimits seen t = .ok seen') ↔ WithinLimits t) ∧
      ∀ seen', hookLimits seen t = .ok seen' → NulFree seen' := by
  by_cases hempty : lsTreeAuthored t = []
  · have hok : hookLimits seen t = .ok seen := by simp [hookLimits, hempty]
    have hlimits : WithinLimits t := by
      refine ⟨?_, ?_, ?_, ?_⟩ <;> simp [hempty]
    refine ⟨⟨fun _ => hlimits, fun _ => ⟨seen, hok⟩⟩, ?_⟩
    intro seen' h
    rw [hok] at h
    exact Except.ok.inj h ▸ hseen
  have hsome : (lsTreeAuthored t).isEmpty = false := by simp [hempty]
  have hspec : ∀ seen', hookLimits seen t = .ok seen' → WithinLimits t ∧ NulFree seen' := by
    intro seen' h
    simp only [hookLimits, hsome, Bool.false_eq_true, if_false] at h
    split at h
    · cases h
    · rename_i hfind
      split at h
      · cases h
      · rename_i seen'' hscan
        split_ifs at h with hmany hlarge
        obtain rfl := Except.ok.inj h
        obtain ⟨hfresh, horigin⟩ := scanFresh_eq_ok hscan
        have htext : ∀ x ∈ lsTreeAuthored t, 0 ∉ leafObject x.2 := by
          intro x hx
          by_cases hknown : leafObject x.2 ∈ seen
          · exact hseen _ hknown
          · exact hfresh x (List.mem_filter.mpr ⟨hx, by simpa using hknown⟩)
        refine ⟨⟨?_, htext, by omega, by omega⟩, ?_⟩
        · simpa using hfind
        · intro b hb
          rcases horigin b hb with hb | ⟨x, hx, rfl⟩
          · exact hseen b hb
          · exact htext x (List.mem_filter.mp hx).1
  refine ⟨⟨fun ⟨seen', h⟩ => (hspec seen' h).1, fun h => ?_⟩, fun seen' h' => (hspec seen' h').2⟩
  have hfind : (lsTreeAuthored t).find? (fun x => !isRegular x.2) = none := by
    simpa using h.regular
  obtain ⟨seen', hscan⟩ := scanFresh_isOk seen
    ((lsTreeAuthored t).filter (fun x => !seen.contains (leafObject x.2)))
    fun x hx => h.text x (List.mem_filter.mp hx).1
  have hfew : ¬ authoredMaxFiles < (lsTreeAuthored t).length := Nat.not_lt.mpr h.files
  have hsmall : ¬ authoredMaxBytes < ((lsTreeAuthored t).map (fun x => leafSize x.2)).sum :=
    Nat.not_lt.mpr h.bytes
  exact ⟨seen', by simp only [hookLimits, hsome, hfind, hscan, hfew, hsmall, if_false,
    Bool.false_eq_true]⟩

/-- The trees of a push, in the order in which the hook visits its new commits. -/
def hookLimitsRun (trees : List Tree) : Except AuthoredRefusal (List Bytes) :=
  trees.foldlM hookLimits []

theorem nulFree_foldlM {trees : List Tree} {seen result : List Bytes} (hseen : NulFree seen)
    (h : trees.foldlM hookLimits seen = .ok result) : NulFree result := by
  induction trees generalizing seen with
  | nil =>
    obtain rfl : seen = result := Except.ok.inj h
    exact hseen
  | cons t trees ih =>
    rw [List.foldlM_cons] at h
    cases hstep : hookLimits seen t with
    | error e =>
      rw [hstep] at h
      cases h
    | ok next =>
      rw [hstep] at h
      exact ih ((hookLimits_spec hseen t).2 next hstep) h

end Setfork.Authored
