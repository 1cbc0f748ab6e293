/- Foundation: git objects
   digest: Trees with unique names, their leaves, commits as Merkle objects, and reachability. -/
import Mathlib.Data.List.Sort
import Mathlib.Data.List.Lex
import Mathlib.Logic.Relation
import Setfork.Foundation.GitPath

set_option autoImplicit false
set_option relaxedAutoImplicit false

namespace Setfork.Foundation

/-- What a tree names besides subtrees. A blob is its content. -/
inductive Leaf where
  | file (executable : Bool) (content : Bytes)
  | symlink (target : Bytes)
  | gitlink (commit : Bytes)
deriving DecidableEq

namespace Leaf

/-- The content of a blob: a regular file or a symbolic link. -/
def blob : Leaf → Option Bytes
  | file _ content => some content
  | symlink target => some target
  | gitlink _ => none

end Leaf

inductive Entry where
  | leaf (l : Leaf)
  | dir (entries : List (Name × Entry))

abbrev Entries := List (Name × Entry)

namespace Entry

mutual

def decEq : (a b : Entry) → Decidable (a = b)
  | leaf l, leaf m => decidable_of_iff (l = m) ⟨congrArg leaf, leaf.inj⟩
  | dir s, dir t =>
    match decEqEntries s t with
    | isTrue h => isTrue (congrArg dir h)
    | isFalse h => isFalse fun heq => h (dir.inj heq)
  | leaf _, dir _ => isFalse nofun
  | dir _, leaf _ => isFalse nofun

def decEqEntries : (s t : List (Name × Entry)) → Decidable (s = t)
  | [], [] => isTrue rfl
  | [], _ :: _ => isFalse nofun
  | _ :: _, [] => isFalse nofun
  | (n, a) :: s, (m, b) :: t =>
    match decEq a b, decEqEntries s t with
    | isTrue ha, isTrue hs =>
      decidable_of_iff (n = m) ⟨fun h => by rw [h, ha, hs], fun h => (Prod.mk.inj (List.cons.inj h).1).1⟩
    | isFalse ha, _ => isFalse fun h => ha (Prod.mk.inj (List.cons.inj h).1).2
    | _, isFalse hs => isFalse fun h => hs (List.cons.inj h).2

end

instance : DecidableEq Entry := decEq

def isDir : Entry → Bool
  | dir _ => true
  | leaf _ => false

def asDir : Entry → Option Entries
  | dir entries => some entries
  | leaf _ => none

mutual

def wellFormed : Entry → Bool
  | leaf _ => true
  | dir entries => decide (entries.map Prod.fst).Nodup && entriesWellFormed entries

def entriesWellFormed : List (Name × Entry) → Bool
  | [] => true
  | (_, e) :: es => e.wellFormed && entriesWellFormed es

end

theorem entriesWellFormed_iff (es : Entries) :
    entriesWellFormed es = true ↔ ∀ e ∈ es, e.2.wellFormed = true := by
  induction es with
  | nil => simp [entriesWellFormed]
  | cons e es ih => obtain ⟨n, e⟩ := e; simp [entriesWellFormed, ih]

mutual

def leavesAt (dirs : List Name) (name : Name) : Entry → List (LeafPath × Leaf)
  | leaf l => [(⟨dirs, name⟩, l)]
  | dir entries => leavesIn (dirs ++ [name]) entries

def leavesIn (dirs : List Name) : List (Name × Entry) → List (LeafPath × Leaf)
  | [] => []
  | (n, e) :: es => e.leavesAt dirs n ++ leavesIn dirs es

end

theorem mem_leavesIn {dirs : List Name} {es : Entries} {x : LeafPath × Leaf} :
    x ∈ leavesIn dirs es ↔ ∃ e ∈ es, x ∈ e.2.leavesAt dirs e.1 := by
  induction es with
  | nil => simp [leavesIn]
  | cons e es ih => obtain ⟨n, e⟩ := e; simp [leavesIn, ih]

mutual

theorem prefix_of_mem_leavesAt (e : Entry) (dirs : List Name) (name : Name)
    (x : LeafPath × Leaf) (hx : x ∈ e.leavesAt dirs name) :
    (∃ l, e = leaf l ∧ x = (⟨dirs, name⟩, l)) ∨ ∃ rest, x.1.dirs = dirs ++ name :: rest := by
  match e with
  | leaf l =>
    left
    refine ⟨l, rfl, ?_⟩
    simpa [leavesAt] using hx
  | dir es =>
    right
    obtain ⟨rest, hrest⟩ := prefix_of_mem_leavesIn es (dirs ++ [name]) x hx
    exact ⟨rest, by rw [hrest, List.append_assoc, List.singleton_append]⟩

theorem prefix_of_mem_leavesIn (es : List (Name × Entry)) (dirs : List Name)
    (x : LeafPath × Leaf) (hx : x ∈ leavesIn dirs es) : ∃ rest, x.1.dirs = dirs ++ rest := by
  match es with
  | [] => simp [leavesIn] at hx
  | (n, e) :: es =>
    simp only [leavesIn, List.mem_append] at hx
    rcases hx with hx | hx
    · rcases prefix_of_mem_leavesAt e dirs n x hx with ⟨l, -, rfl⟩ | ⟨rest, hrest⟩
      · exact ⟨[], by simp⟩
      · exact ⟨n :: rest, hrest⟩
    · exact prefix_of_mem_leavesIn es dirs x hx

end

end Entry

/-- A tree object: names are unique in it and in all its subtrees. -/
structure Tree where
  entries : Entries
  wellFormed : (Entry.dir entries).wellFormed = true
deriving DecidableEq

namespace Tree

def empty : Tree := ⟨[], rfl⟩

/-- The entry of this name at the root. -/
def get (t : Tree) (name : Text) : Option Entry :=
  (t.entries.find? (fun e => e.1.bytes = utf8 name)).map Prod.snd

/-- All leaves with their paths, in tree order. -/
def leaves (t : Tree) : List (LeafPath × Leaf) := Entry.leavesIn [] t.entries

def paths (t : Tree) : List LeafPath := t.leaves.map Prod.fst

theorem nodup (t : Tree) : (t.entries.map Prod.fst).Nodup := by
  have h := t.wellFormed
  simp only [Entry.wellFormed, Bool.and_eq_true, decide_eq_true_eq] at h
  exact h.1

private theorem find_of_nodup {es : Entries} (hnodup : (es.map Prod.fst).Nodup)
    {e : Name × Entry} (he : e ∈ es) :
    es.find? (fun f => f.1.bytes = e.1.bytes) = some e := by
  induction es with
  | nil => simp at he
  | cons f fs ih =>
    simp only [List.map_cons, List.nodup_cons] at hnodup
    rcases List.mem_cons.mp he with rfl | he
    · simp
    · have hne : f.1.bytes ≠ e.1.bytes := by
        intro hf
        exact hnodup.1 (Name.bytes_injective hf ▸ List.mem_map_of_mem he)
      rw [List.find?_cons_of_neg (by simpa using hne)]
      exact ih hnodup.2 he

theorem find_name_iff (t : Tree) (b : Bytes) (e : Name × Entry) :
    t.entries.find? (fun f => f.1.bytes = b) = some e ↔ e ∈ t.entries ∧ e.1.bytes = b := by
  constructor
  · intro h
    exact ⟨List.mem_of_find?_eq_some h, by simpa using List.find?_some h⟩
  · rintro ⟨he, rfl⟩
    exact find_of_nodup t.nodup he

theorem get_eq_some_iff (t : Tree) (name : Text) (e : Entry) :
    t.get name = some e ↔ ∃ n, n.bytes = utf8 name ∧ (n, e) ∈ t.entries := by
  simp only [get, Option.map_eq_some_iff, find_name_iff]
  constructor
  · rintro ⟨⟨n, e⟩, ⟨hmem, hn⟩, rfl⟩
    exact ⟨n, hn, hmem⟩
  · rintro ⟨n, hn, hmem⟩
    exact ⟨(n, e), ⟨hmem, hn⟩, rfl⟩

theorem mem_leaves_root {t : Tree} {n : Name} {l : Leaf} :
    ((⟨[], n⟩ : LeafPath), l) ∈ t.leaves ↔ (n, Entry.leaf l) ∈ t.entries := by
  rw [leaves, Entry.mem_leavesIn]
  constructor
  · rintro ⟨⟨m, e⟩, he, hx⟩
    rcases Entry.prefix_of_mem_leavesAt _ _ _ _ hx with ⟨k, rfl, heq⟩ | ⟨rest, hdirs⟩
    · simp only [Prod.mk.injEq, LeafPath.mk.injEq, true_and] at heq
      obtain ⟨rfl, rfl⟩ := heq
      exact he
    · simp at hdirs
  · intro he
    exact ⟨(n, .leaf l), he, List.mem_singleton_self _⟩

theorem mem_leaves_dir {t : Tree} {d n : Name} {l : Leaf} :
    ((⟨[d], n⟩ : LeafPath), l) ∈ t.leaves ↔
      ∃ es, (d, Entry.dir es) ∈ t.entries ∧ (n, Entry.leaf l) ∈ es := by
  rw [leaves, Entry.mem_leavesIn]
  constructor
  · rintro ⟨⟨m, e⟩, he, hx⟩
    cases e with
    | leaf k => simp [Entry.leavesAt] at hx
    | dir es =>
      rw [Entry.leavesAt, List.nil_append, Entry.mem_leavesIn] at hx
      obtain ⟨⟨k, f⟩, hf, hx⟩ := hx
      rcases Entry.prefix_of_mem_leavesAt _ _ _ _ hx with ⟨l', rfl, heq⟩ | ⟨rest, hdirs⟩
      · simp only [Prod.mk.injEq, LeafPath.mk.injEq, List.cons.injEq, and_true] at heq
        obtain ⟨⟨rfl, rfl⟩, rfl⟩ := heq
        exact ⟨es, he, hf⟩
      · simp at hdirs
  · rintro ⟨es, he, hf⟩
    refine ⟨(d, .dir es), he, ?_⟩
    rw [Entry.leavesAt, List.nil_append, Entry.mem_leavesIn]
    exact ⟨(n, .leaf l), hf, List.mem_singleton_self _⟩

theorem entry_wellFormed (t : Tree) {e : Name × Entry} (he : e ∈ t.entries) :
    e.2.wellFormed = true := by
  have h := t.wellFormed
  simp only [Entry.wellFormed, Bool.and_eq_true] at h
  exact (Entry.entriesWellFormed_iff _).mp h.2 e he

end Tree

def Name.ofBytes (b : Bytes) : Option Name :=
  if h : b ≠ [] ∧ 47 ∉ b ∧ 0 ∉ b then some ⟨b, h.1, h.2.1, h.2.2⟩ else none

theorem Name.ofBytes_eq_some {b : Bytes} {n : Name} : Name.ofBytes b = some n ↔ n.bytes = b := by
  unfold Name.ofBytes
  constructor
  · intro h
    split_ifs at h
    exact Option.some.inj h ▸ rfl
  · rintro rfl
    rw [dif_pos ⟨n.ne_nil, n.noSlash, n.noNul⟩]

namespace TreeBuilder

/-- Git orders entries by name, a directory as if its name ended with a slash. -/
def entryKey (e : Name × Entry) : List ℕ :=
  (e.1.bytes ++ if e.2.isDir then [47] else []).map UInt8.toNat

def entryLe (a b : Name × Entry) : Prop := entryKey a ≤ entryKey b

instance : DecidableRel entryLe := fun a b => inferInstanceAs (Decidable (entryKey a ≤ entryKey b))

instance : Std.Total entryLe := ⟨fun a b => le_total (entryKey a) (entryKey b)⟩

instance : IsTrans (Name × Entry) entryLe := ⟨fun _ _ _ hab hbc => le_trans hab hbc⟩

/-- Sets the entry of a name, replacing the one it had. -/
def insert (n : Name) (e : Entry) (es : Entries) : Entries :=
  (es.filter (fun f => f.1 ≠ n)).orderedInsert entryLe (n, e)

theorem mem_insert {n : Name} {e : Entry} {es : Entries} {x : Name × Entry} :
    x ∈ insert n e es ↔ x = (n, e) ∨ (x ∈ es ∧ x.1 ≠ n) := by
  simp [insert, List.mem_orderedInsert]

theorem nodup_insert {n : Name} {e : Entry} {es : Entries} (hes : (es.map Prod.fst).Nodup) :
    ((insert n e es).map Prod.fst).Nodup := by
  have hperm : (insert n e es).Perm ((n, e) :: es.filter (fun f => f.1 ≠ n)) :=
    List.perm_orderedInsert _ _ _
  rw [(hperm.map Prod.fst).nodup_iff, List.map_cons, List.nodup_cons]
  refine ⟨?_, ?_⟩
  · simp
  · exact hes.sublist (List.filter_sublist.map _)

/-- Inserting under a text name; the library refuses malformed and reserved names. -/
def put (reserved : Name → Bool) (es : Entries) (name : Text) (e : Entry) : Option Entries :=
  (Name.ofBytes (utf8 name)).bind (fun n => if reserved n then none else some (insert n e es))

theorem put_eq_some {reserved : Name → Bool} {es fs : Entries} {name : Text} {e : Entry}
    (h : put reserved es name e = some fs) :
    ∃ n : Name, n.bytes = utf8 name ∧ fs = insert n e es := by
  simp only [put, Option.bind_eq_some_iff, Name.ofBytes_eq_some] at h
  obtain ⟨n, hn, h⟩ := h
  split_ifs at h
  exact ⟨n, hn, (Option.some.inj h).symm⟩

def Writable (reserved : Name → Bool) (name : Text) : Prop :=
  ∃ n : Name, n.bytes = utf8 name ∧ reserved n = false

theorem put_of_writable {reserved : Name → Bool} {name : Text} (h : Writable reserved name)
    (es : Entries) (e : Entry) : ∃ fs, put reserved es name e = some fs := by
  obtain ⟨n, hn, hfree⟩ := h
  refine ⟨insert n e es, ?_⟩
  rw [put, Name.ofBytes_eq_some.mpr hn]
  simp [hfree]

section Fold

variable {α : Type} (reserved : Name → Bool) (name : α → Text) (entry : α → Entry)

def putAll (es : Entries) (xs : List α) : Option Entries :=
  xs.foldlM (fun es x => put reserved es (name x) (entry x)) es

/-- What a run of insertions leaves: new entries under the names inserted, the old ones elsewhere,
and every name that was ever there. -/
theorem putAll_eq_some {es fs : Entries} {xs : List α}
    (h : putAll reserved name entry es xs = some fs) :
    (∀ f ∈ fs, f ∈ es ∨ ∃ x ∈ xs, f.1.bytes = utf8 (name x) ∧ f.2 = entry x) ∧
    (∀ x ∈ xs, ∃ f ∈ fs, f.1.bytes = utf8 (name x)) ∧
    (∀ e ∈ es, ∃ f ∈ fs, f.1 = e.1) ∧
    ((es.map Prod.fst).Nodup → (fs.map Prod.fst).Nodup) := by
  induction xs generalizing es with
  | nil =>
    obtain rfl : es = fs := Option.some.inj h
    exact ⟨fun f hf => Or.inl hf, by simp, fun e he => ⟨e, he, rfl⟩, id⟩
  | cons x xs ih =>
    rw [putAll, List.foldlM_cons] at h
    obtain ⟨mid, hput, hrest⟩ := Option.bind_eq_some_iff.mp h
    obtain ⟨n, hn, rfl⟩ := put_eq_some hput
    obtain ⟨hnew, hnames, hold, hnodup⟩ := ih hrest
    refine ⟨?_, ?_, ?_, fun hes => hnodup (nodup_insert hes)⟩
    · intro f hf
      rcases hnew f hf with hf | ⟨y, hy, hfy⟩
      · rcases mem_insert.mp hf with rfl | ⟨hf, -⟩
        · exact Or.inr ⟨x, List.mem_cons_self, hn, rfl⟩
        · exact Or.inl hf
      · exact Or.inr ⟨y, List.mem_cons_of_mem x hy, hfy⟩
    · intro y hy
      rcases List.mem_cons.mp hy with rfl | hy
      · obtain ⟨f, hf, hfn⟩ := hold (n, entry y) (mem_insert.mpr (Or.inl rfl))
        exact ⟨f, hf, by rw [hfn]; exact hn⟩
      · exact hnames y hy
    · intro e he
      by_cases hen : e.1 = n
      · obtain ⟨f, hf, hfn⟩ := hold (n, entry x) (mem_insert.mpr (Or.inl rfl))
        exact ⟨f, hf, by rw [hfn, hen]⟩
      · exact hold e (mem_insert.mpr (Or.inr ⟨he, hen⟩))

theorem putAll_sorted {es fs : Entries} {xs : List α} (h : putAll reserved name entry es xs = some fs)
    (hes : es.Pairwise entryLe) : fs.Pairwise entryLe := by
  induction xs generalizing es with
  | nil =>
    obtain rfl : es = fs := Option.some.inj h
    exact hes
  | cons x xs ih =>
    rw [putAll, List.foldlM_cons] at h
    obtain ⟨mid, hput, hrest⟩ := Option.bind_eq_some_iff.mp h
    obtain ⟨n, -, rfl⟩ := put_eq_some hput
    exact ih hrest ((hes.filter _).orderedInsert _ _)

theorem putAll_of_writable {xs : List α} (h : ∀ x ∈ xs, Writable reserved (name x))
    (es : Entries) : ∃ fs, putAll reserved name entry es xs = some fs := by
  induction xs generalizing es with
  | nil => exact ⟨es, rfl⟩
  | cons x xs ih =>
    obtain ⟨mid, hmid⟩ := put_of_writable (h x List.mem_cons_self) es (entry x)
    obtain ⟨fs, hfs⟩ := ih (fun y hy => h y (List.mem_cons_of_mem x hy)) mid
    refine ⟨fs, ?_⟩
    rw [putAll, List.foldlM_cons, hmid]
    exact hfs

end Fold

end TreeBuilder

def Tree.ofEntries (es : Entries) : Option Tree :=
  if h : (Entry.dir es).wellFormed = true then some ⟨es, h⟩ else none

theorem Tree.ofEntries_eq_some {es : Entries} {t : Tree} (h : Tree.ofEntries es = some t) :
    t.entries = es := by
  unfold Tree.ofEntries at h
  split_ifs at h
  exact Option.some.inj h ▸ rfl

/-- A builder with unique names and well-formed entries always writes a tree. -/
theorem Tree.ofEntries_isSome {es : Entries} (hnodup : (es.map Prod.fst).Nodup)
    (hes : ∀ e ∈ es, e.2.wellFormed = true) : ∃ t, Tree.ofEntries es = some t := by
  have hwf : (Entry.dir es).wellFormed = true := by
    simp only [Entry.wellFormed, Bool.and_eq_true, decide_eq_true_eq]
    exact ⟨hnodup, (Entry.entriesWellFormed_iff es).mpr hes⟩
  exact ⟨⟨es, hwf⟩, dif_pos hwf⟩

/-- What a commit says besides its tree and parents. -/
structure Stamp where
  message : Text
  author : Text
  time : Int
deriving DecidableEq

/-- A commit is its content, all of its history included. -/
inductive Commit where
  | mk (tree : Tree) (parents : List Commit) (stamp : Stamp)

namespace Commit

def tree : Commit → Tree
  | mk t _ _ => t

def parents : Commit → List Commit
  | mk _ ps _ => ps

def stamp : Commit → Stamp
  | mk _ _ s => s

mutual

def decEq : (a b : Commit) → Decidable (a = b)
  | mk t ps s, mk u qs r =>
    match decEqList ps qs with
    | isTrue hps =>
      decidable_of_iff (t = u ∧ s = r)
        ⟨fun h => by rw [h.1, h.2, hps], fun h => ⟨(mk.inj h).1, (mk.inj h).2.2⟩⟩
    | isFalse hps => isFalse fun h => hps (mk.inj h).2.1

def decEqList : (ps qs : List Commit) → Decidable (ps = qs)
  | [], [] => isTrue rfl
  | [], _ :: _ => isFalse nofun
  | _ :: _, [] => isFalse nofun
  | a :: ps, b :: qs =>
    match decEq a b, decEqList ps qs with
    | isTrue ha, isTrue hs => isTrue (by rw [ha, hs])
    | isFalse ha, _ => isFalse fun h => ha (List.cons.inj h).1
    | _, isFalse hs => isFalse fun h => hs (List.cons.inj h).2

end

instance : DecidableEq Commit := decEq

theorem induction {P : Commit → Prop} (step : ∀ c, (∀ p ∈ c.parents, P p) → P c) : ∀ c, P c
  | mk t ps s => step (mk t ps s) fun p _ => induction step p
termination_by c => sizeOf c
decreasing_by
  rename_i hp
  have hsize : sizeOf p < sizeOf ps := List.sizeOf_lt_of_mem hp
  rw [mk.sizeOf_spec]
  omega

/-- One step back in history. -/
def IsParent (c p : Commit) : Prop := p ∈ c.parents

/-- `a` is `c` or one of its ancestors. -/
def Reaches (c a : Commit) : Prop := Relation.ReflTransGen IsParent c a

theorem sizeOf_lt_of_isParent {c p : Commit} (h : IsParent c p) : sizeOf p < sizeOf c := by
  cases c with
  | mk t ps s =>
    have hsize : sizeOf p < sizeOf ps := List.sizeOf_lt_of_mem h
    rw [mk.sizeOf_spec]
    omega

theorem sizeOf_le_of_reaches {c a : Commit} (h : Reaches c a) : sizeOf a ≤ sizeOf c := by
  induction h with
  | refl => exact Nat.le_refl _
  | tail _ hp ih =>
    have := sizeOf_lt_of_isParent hp
    omega

/-- History has no cycles: nothing an ancestor reaches is a descendant of it. -/
theorem ne_of_isParent_reaches {c d a : Commit} (hd : Reaches c d) (hp : IsParent d a) : c ≠ a := by
  have hle := sizeOf_le_of_reaches hd
  have hlt := sizeOf_lt_of_isParent hp
  intro h
  rw [h] at hle
  omega

mutual

def reaches (a : Commit) : Commit → Bool
  | mk t ps s => decide (mk t ps s = a) || anyReaches a ps

def anyReaches (a : Commit) : List Commit → Bool
  | [] => false
  | p :: ps => reaches a p || anyReaches a ps

end

theorem anyReaches_iff (a : Commit) (ps : List Commit) :
    anyReaches a ps = true ↔ ∃ p ∈ ps, reaches a p = true := by
  induction ps with
  | nil => simp [anyReaches]
  | cons p ps ih => simp [anyReaches, ih]

mutual

theorem reaches_sound (a c : Commit) (h : reaches a c = true) : Reaches c a := by
  match c with
  | mk t ps s =>
    simp only [reaches, Bool.or_eq_true, decide_eq_true_eq] at h
    rcases h with rfl | h
    · exact .refl
    · obtain ⟨p, hp, hpa⟩ := anyReaches_sound a ps h
      exact .head (show IsParent (mk t ps s) p from hp) hpa

theorem anyReaches_sound (a : Commit) (ps : List Commit) (h : anyReaches a ps = true) :
    ∃ p ∈ ps, Reaches p a := by
  match ps with
  | [] => simp [anyReaches] at h
  | p :: ps =>
    simp only [anyReaches, Bool.or_eq_true] at h
    rcases h with h | h
    · exact ⟨p, List.mem_cons_self, reaches_sound a p h⟩
    · obtain ⟨q, hq, hqa⟩ := anyReaches_sound a ps h
      exact ⟨q, List.mem_cons_of_mem p hq, hqa⟩

end

theorem reaches_iff (c a : Commit) : reaches a c = true ↔ Reaches c a := by
  refine ⟨reaches_sound a c, fun h => ?_⟩
  induction h using Relation.ReflTransGen.head_induction_on with
  | refl =>
    cases a with
    | mk t ps s => simp [reaches]
  | @head c p hcp _ ih =>
    cases c with
    | mk t ps s =>
      have hany : anyReaches a ps = true := (anyReaches_iff a ps).mpr ⟨p, hcp, ih⟩
      simp [reaches, hany]

/-- A commit reaches itself and what its parents reach. -/
theorem reaches_iff_parents (c a : Commit) :
    Reaches c a ↔ a = c ∨ ∃ p ∈ c.parents, Reaches p a := by
  rw [Reaches, Relation.ReflTransGen.cases_head_iff]
  exact or_congr_left eq_comm

instance (c a : Commit) : Decidable (Reaches c a) := decidable_of_iff _ (reaches_iff c a)

mutual

/-- A commit and all of its ancestors, by the first way that leads to them. -/
def history : Commit → List Commit
  | mk t ps s => mk t ps s :: historyAll ps

def historyAll : List Commit → List Commit
  | [] => []
  | p :: ps => history p ++ historyAll ps

end

theorem mem_historyAll {ps : List Commit} {a : Commit} :
    a ∈ historyAll ps ↔ ∃ p ∈ ps, a ∈ history p := by
  induction ps with
  | nil => simp [historyAll]
  | cons p ps ih => simp [historyAll, ih]

theorem mem_history {c a : Commit} : a ∈ history c ↔ Reaches c a := by
  induction c using Commit.induction with
  | step c ih =>
    cases c with
    | mk t ps s =>
      rw [history, List.mem_cons, mem_historyAll, reaches_iff_parents]
      apply or_congr_right
      apply exists_congr
      intro p
      apply and_congr_right
      intro hp
      exact ih p hp

end Commit

end Setfork.Foundation
