/- VersionTree
   digest: The tree of a version: generated files, and authored directories carried or replaced. -/
import Setfork.Authored

set_option autoImplicit false
set_option relaxedAutoImplicit false

namespace Setfork.VersionTree

open Setfork.Foundation
open Setfork.TreeRule
open Setfork.Authored

inductive AuthoredSource where
  | carry
  | replace (files : List AuthoredInput)

def ownFiles (inputs : List AuthoredInput) (dir : Text) : List AuthoredInput :=
  inputs.filter (fun f => (dir ++ ['/']).isPrefixOf f.path)

theorem path_of_ownFile {dir path : Text} (h : (dir ++ ['/']).isPrefixOf path = true) :
    (dir ++ ['/']) ++ path.drop (dir.length + 1) = path := by
  obtain ⟨rest, rfl⟩ := List.isPrefixOf_iff_prefix.mp h
  have hlen : dir.length + 1 = (dir ++ ['/']).length := by simp
  rw [hlen, List.drop_left]

/-- The directory written from a file set: a failure, nothing, or its entries. -/
def replaceSub (reserved : Name → Bool) (inputs : List AuthoredInput) (dir : Text) :
    Option (Option Entries) :=
  if (ownFiles inputs dir).isEmpty then some none
  else
    (TreeBuilder.putAll reserved (fun f : AuthoredInput => f.path.drop (dir.length + 1))
      (fun f => .leaf (.file f.executable f.content)) [] (ownFiles inputs dir)).map some

def carrySub (parent : Option Tree) (dir : Text) : Option (Option Entries) :=
  some ((parent.bind (fun t => t.get dir)).bind Entry.asDir)

def authoredSub (reserved : Name → Bool) (parent : Option Tree) : AuthoredSource → Text →
    Option (Option Entries)
  | .carry => carrySub parent
  | .replace inputs => replaceSub reserved inputs

def putDir (reserved : Name → Bool) (sub : Text → Option (Option Entries)) (es : Entries)
    (dir : Text) : Option Entries :=
  (sub dir).bind (fun o =>
    match o with
    | none => some es
    | some s => TreeBuilder.put reserved es dir (.dir s))

/-- The tree of a version over its generated files. -/
def buildTree (reserved : Name → Bool) (files : List (Text × Text)) (parent : Option Tree)
    (source : AuthoredSource) : Option Tree :=
  (TreeBuilder.putAll reserved Prod.fst
    (fun f : Text × Text => .leaf (.file false (utf8 f.2))) [] files).bind (fun root =>
    (authoredDirs.foldlM (putDir reserved (authoredSub reserved parent source)) root).bind
      Tree.ofEntries)

private theorem putDirs_spec {reserved : Name → Bool} {sub : Text → Option (Option Entries)}
    {dirs : List Text} {es fs : Entries} (h : dirs.foldlM (putDir reserved sub) es = some fs) :
    (∀ f ∈ fs, f ∈ es ∨ ∃ d ∈ dirs, ∃ s, sub d = some (some s) ∧ f.1.bytes = utf8 d ∧
      f.2 = .dir s) ∧
    (∀ d ∈ dirs, ∀ s, sub d = some (some s) → ∃ f ∈ fs, f.1.bytes = utf8 d) ∧
    ∀ e ∈ es, ∃ f ∈ fs, f.1 = e.1 := by
  induction dirs generalizing es with
  | nil =>
    obtain rfl : es = fs := Option.some.inj h
    exact ⟨fun f hf => Or.inl hf, by simp, fun e he => ⟨e, he, rfl⟩⟩
  | cons d dirs ih =>
    rw [List.foldlM_cons] at h
    obtain ⟨mid, hput, hrest⟩ := Option.bind_eq_some_iff.mp h
    obtain ⟨hnew, hdirs, hold⟩ := ih hrest
    obtain ⟨o, ho, hmid⟩ := Option.bind_eq_some_iff.mp hput
    cases o with
    | none =>
      obtain rfl : es = mid := Option.some.inj hmid
      refine ⟨?_, ?_, hold⟩
      · intro f hf
        exact (hnew f hf).imp id fun ⟨c, hc, hcs⟩ => ⟨c, List.mem_cons_of_mem d hc, hcs⟩
      · intro c hc s hs
        rcases List.mem_cons.mp hc with rfl | hc
        · rw [ho] at hs
          cases hs
        · exact hdirs c hc s hs
    | some s =>
      obtain ⟨n, hn, rfl⟩ := TreeBuilder.put_eq_some hmid
      have hkept : ∀ e ∈ TreeBuilder.insert n (.dir s) es, ∃ f ∈ fs, f.1 = e.1 := hold
      refine ⟨?_, ?_, ?_⟩
      · intro f hf
        rcases hnew f hf with hf | ⟨c, hc, hcs⟩
        · rcases TreeBuilder.mem_insert.mp hf with rfl | ⟨hf, -⟩
          · exact Or.inr ⟨d, List.mem_cons_self, s, ho, hn, rfl⟩
          · exact Or.inl hf
        · exact Or.inr ⟨c, List.mem_cons_of_mem d hc, hcs⟩
      · intro c hc u hu
        rcases List.mem_cons.mp hc with rfl | hc
        · obtain ⟨f, hf, hfn⟩ := hkept (n, .dir s) (TreeBuilder.mem_insert.mpr (Or.inl rfl))
          exact ⟨f, hf, by rw [hfn]; exact hn⟩
        · exact hdirs c hc u hu
      · intro e he
        by_cases hen : e.1 = n
        · obtain ⟨f, hf, hfn⟩ := hkept (n, .dir s) (TreeBuilder.mem_insert.mpr (Or.inl rfl))
          exact ⟨f, hf, by rw [hfn, hen]⟩
        · exact hkept e (TreeBuilder.mem_insert.mpr (Or.inr ⟨he, hen⟩))

/-- The entries of a built tree: generated files and authored directories, all of them there. -/
theorem buildTree_entries {reserved : Name → Bool} {files : List (Text × Text)}
    {parent : Option Tree} {source : AuthoredSource} {t : Tree}
    (h : buildTree reserved files parent source = some t) :
    (∀ e ∈ t.entries, (∃ f ∈ files, e.1.bytes = utf8 f.1 ∧ e.2 = .leaf (.file false (utf8 f.2))) ∨
      ∃ d ∈ authoredDirs, ∃ s, authoredSub reserved parent source d = some (some s) ∧
        e.1.bytes = utf8 d ∧ e.2 = .dir s) ∧
    (∀ f ∈ files, ∃ e ∈ t.entries, e.1.bytes = utf8 f.1) ∧
    ∀ d ∈ authoredDirs, ∀ s, authoredSub reserved parent source d = some (some s) →
      ∃ e ∈ t.entries, e.1.bytes = utf8 d := by
  obtain ⟨root, hroot, hdirs⟩ := Option.bind_eq_some_iff.mp h
  obtain ⟨es, hes, htree⟩ := Option.bind_eq_some_iff.mp hdirs
  obtain ⟨hrootNew, hrootNames, -, -⟩ := TreeBuilder.putAll_eq_some _ _ _ hroot
  obtain ⟨hnew, hsubs, hold⟩ := putDirs_spec hes
  rw [Tree.ofEntries_eq_some htree]
  refine ⟨?_, ?_, hsubs⟩
  · intro e he
    rcases hnew e he with he | hdir
    · rcases hrootNew e he with he | hfile
      · cases he
      · exact Or.inl hfile
    · exact Or.inr hdir
  · intro f hf
    obtain ⟨e, he, hname⟩ := hrootNames f hf
    obtain ⟨g, hg, hgname⟩ := hold e he
    exact ⟨g, hg, by rw [hgname, hname]⟩

theorem replaceSub_eq_some {reserved : Name → Bool} {inputs : List AuthoredInput} {dir : Text}
    {s : Entries} (h : replaceSub reserved inputs dir = some (some s)) :
    TreeBuilder.putAll reserved (fun f : AuthoredInput => f.path.drop (dir.length + 1))
      (fun f => .leaf (.file f.executable f.content)) [] (ownFiles inputs dir) = some s := by
  unfold replaceSub at h
  split_ifs at h
  · cases Option.some.inj h
  · obtain ⟨es, hes, hs⟩ := Option.map_eq_some_iff.mp h
    obtain rfl := Option.some.inj hs
    exact hes

theorem replaceSub_entries {reserved : Name → Bool} {inputs : List AuthoredInput} {dir : Text}
    {s : Entries} (h : replaceSub reserved inputs dir = some (some s)) :
    (∀ e ∈ s, ∃ f ∈ ownFiles inputs dir, e.1.bytes = utf8 (f.path.drop (dir.length + 1)) ∧
      e.2 = .leaf (.file f.executable f.content)) ∧
    ∀ f ∈ ownFiles inputs dir, ∃ e ∈ s, e.1.bytes = utf8 (f.path.drop (dir.length + 1)) := by
  obtain ⟨hnew, hnames, -, -⟩ := TreeBuilder.putAll_eq_some _ _ _ (replaceSub_eq_some h)
  refine ⟨fun e he => ?_, hnames⟩
  rcases hnew e he with he | hfile
  · cases he
  · exact hfile

/-- A file set that leaves no directory has no files under it. -/
theorem replaceSub_eq_none {reserved : Name → Bool} {inputs : List AuthoredInput} {dir : Text}
    (h : replaceSub reserved inputs dir = some none) : ownFiles inputs dir = [] := by
  unfold replaceSub at h
  split_ifs at h with hempty
  · exact List.isEmpty_iff.mp hempty
  · obtain ⟨es, -, hes⟩ := Option.map_eq_some_iff.mp h
    cases hes

private theorem foldlM_sub_isSome {reserved : Name → Bool} {sub : Text → Option (Option Entries)}
    {dirs : List Text} {es fs : Entries} (h : dirs.foldlM (putDir reserved sub) es = some fs) :
    ∀ d ∈ dirs, (sub d).isSome = true := by
  induction dirs generalizing es with
  | nil => simp
  | cons d dirs ih =>
    rw [List.foldlM_cons] at h
    obtain ⟨mid, hput, hrest⟩ := Option.bind_eq_some_iff.mp h
    obtain ⟨o, ho, -⟩ := Option.bind_eq_some_iff.mp hput
    intro c hc
    rcases List.mem_cons.mp hc with rfl | hc
    · rw [ho]
      rfl
    · exact ih hrest c hc

/-- In a built tree every authored directory was either written or absent. -/
theorem buildTree_sub_isSome {reserved : Name → Bool} {files : List (Text × Text)}
    {parent : Option Tree} {source : AuthoredSource} {t : Tree}
    (h : buildTree reserved files parent source = some t) :
    ∀ d ∈ authoredDirs, (authoredSub reserved parent source d).isSome = true := by
  obtain ⟨root, -, hdirs⟩ := Option.bind_eq_some_iff.mp h
  obtain ⟨es, hes, -⟩ := Option.bind_eq_some_iff.mp hdirs
  exact foldlM_sub_isSome hes

private theorem putDirs_of_writable {reserved : Name → Bool}
    {sub : Text → Option (Option Entries)} {dirs : List Text}
    (hdirs : ∀ d ∈ dirs, ∃ o, sub d = some o ∧
      ∀ s, o = some s → TreeBuilder.Writable reserved d ∧ (Entry.dir s).wellFormed = true)
    {es : Entries} (hnodup : (es.map Prod.fst).Nodup) (hes : ∀ e ∈ es, e.2.wellFormed = true) :
    ∃ fs, dirs.foldlM (putDir reserved sub) es = some fs ∧ (fs.map Prod.fst).Nodup ∧
      ∀ f ∈ fs, f.2.wellFormed = true := by
  induction dirs generalizing es with
  | nil => exact ⟨es, rfl, hnodup, hes⟩
  | cons d dirs ih =>
    have hrest := fun c hc => hdirs c (List.mem_cons_of_mem d hc)
    obtain ⟨o, ho, hwrite⟩ := hdirs d List.mem_cons_self
    rw [List.foldlM_cons, putDir, ho]
    cases o with
    | none => exact ih hrest hnodup hes
    | some s =>
      obtain ⟨hd, hs⟩ := hwrite s rfl
      obtain ⟨mid, hmid⟩ := TreeBuilder.put_of_writable hd es (.dir s)
      obtain ⟨n, hn, rfl⟩ := TreeBuilder.put_eq_some hmid
      have hwell : ∀ f ∈ TreeBuilder.insert n (.dir s) es, f.2.wellFormed = true := by
        intro f hf
        rcases TreeBuilder.mem_insert.mp hf with rfl | ⟨hf, -⟩
        · exact hs
        · exact hes f hf
      obtain ⟨fs, hfs, hrestNodup, hrestWell⟩ := ih hrest (TreeBuilder.nodup_insert hnodup) hwell
      refine ⟨fs, ?_, hrestNodup, hrestWell⟩
      simpa [hmid] using hfs

/-- Writable names and well-formed directories always make a tree. -/
theorem buildTree_of_writable {reserved : Name → Bool} {files : List (Text × Text)}
    {parent : Option Tree} {source : AuthoredSource}
    (hfiles : ∀ f ∈ files, TreeBuilder.Writable reserved f.1)
    (hdirs : ∀ d ∈ authoredDirs, ∃ o, authoredSub reserved parent source d = some o ∧
      ∀ s, o = some s → TreeBuilder.Writable reserved d ∧ (Entry.dir s).wellFormed = true) :
    ∃ t, buildTree reserved files parent source = some t := by
  obtain ⟨root, hroot⟩ := TreeBuilder.putAll_of_writable reserved Prod.fst
    (fun f : Text × Text => .leaf (.file false (utf8 f.2))) hfiles []
  obtain ⟨hnew, -, -, hnodup⟩ := TreeBuilder.putAll_eq_some _ _ _ hroot
  have hwell : ∀ e ∈ root, e.2.wellFormed = true := by
    intro e he
    rcases hnew e he with he | ⟨f, -, -, hleaf⟩
    · cases he
    · rw [hleaf]
      rfl
  obtain ⟨es, hes, hesNodup, hesWell⟩ := putDirs_of_writable hdirs (hnodup List.nodup_nil) hwell
  obtain ⟨t, ht⟩ := Tree.ofEntries_isSome hesNodup hesWell
  refine ⟨t, ?_⟩
  rw [buildTree, hroot, Option.bind_some, hes, Option.bind_some, ht]

/-- A directory of writable names is written from any file set. -/
theorem replaceSub_of_writable {reserved : Name → Bool} {inputs : List AuthoredInput} {dir : Text}
    (hnames : ∀ f ∈ ownFiles inputs dir,
      TreeBuilder.Writable reserved (f.path.drop (dir.length + 1))) :
    ∃ o, replaceSub reserved inputs dir = some o ∧
      ∀ s, o = some s → (Entry.dir s).wellFormed = true := by
  unfold replaceSub
  split_ifs with hempty
  · exact ⟨none, rfl, nofun⟩
  · obtain ⟨es, hes⟩ := TreeBuilder.putAll_of_writable reserved _
      (fun f : AuthoredInput => .leaf (.file f.executable f.content)) hnames []
    obtain ⟨hnew, -, -, hnodup⟩ := TreeBuilder.putAll_eq_some _ _ _ hes
    refine ⟨some es, by rw [hes]; rfl, ?_⟩
    intro s hs
    obtain rfl := Option.some.inj hs
    simp only [Entry.wellFormed, Bool.and_eq_true, decide_eq_true_eq]
    refine ⟨hnodup List.nodup_nil, (Entry.entriesWellFormed_iff _).mpr fun e he => ?_⟩
    rcases hnew e he with he | ⟨f, -, -, hleaf⟩
    · cases he
    · rw [hleaf]
      rfl

end Setfork.VersionTree
