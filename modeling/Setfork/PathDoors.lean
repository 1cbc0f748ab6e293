/- PathDoors
   digest: The path languages of the two doors, and the file sets that lock a list out of pushing. -/
import Setfork.AuthoredDoors
import Setfork.Readme
import Setfork.VersionTree

set_option autoImplicit false
set_option relaxedAutoImplicit false

namespace Setfork.PathDoors

open Setfork.Foundation
open Setfork.TreeRule
open Setfork.Authored
open Setfork.VersionTree
open Setfork.AuthoredDoors (scriptName scriptsName)
open Setfork.Serialize (VersionData)
open Setfork.Readme (versionFiles)

theorem lastSegment_append {d n : Text} (hn : '/' ∉ n) : lastSegment (d ++ '/' :: n) = n := by
  have hall : ∀ c ∈ n.reverse, (c != '/') = true := by
    intro c hc
    have hne : c ≠ '/' := fun h => hn (h ▸ List.mem_reverse.mp hc)
    simpa using hne
  simp only [lastSegment, List.rtakeWhile, List.reverse_append, List.reverse_cons,
    List.append_assoc]
  rw [List.takeWhile_append_of_pos hall]
  simp

private theorem char_of_ascii {b : UInt8} (hb : b.toNat < 128) :
    ∃ c : Char, c.toNat = b.toNat ∧ UInt8.ofNat c.toNat = b := by
  have hall : ∀ n : Fin 128, (Char.ofNat n.val).toNat = n.val := by decide
  have hc := hall ⟨b.toNat, hb⟩
  exact ⟨Char.ofNat b.toNat, hc, by rw [hc, UInt8.ofNat_toNat]⟩

theorem quoted_char {n : Text} (h : (utf8 n).any mustQuote = true) :
    ∃ c ∈ n, isControl c = true ∨ c = '\\' ∨ c = '"' := by
  obtain ⟨b, hb, hquote⟩ := List.any_eq_true.mp h
  have hcases : b.toNat < 0x20 ∨ b.toNat = 0x22 ∨ b.toNat = 0x5c ∨ b.toNat = 0x7f := by
    simp only [mustQuote, Bool.or_eq_true, decide_eq_true_eq, beq_iff_eq, or_assoc] at hquote
    refine hquote.imp (fun h => ?_) (Or.imp (fun h => ?_) (Or.imp (fun h => ?_) fun h => ?_))
    · exact UInt8.lt_iff_toNat_lt.mp h
    all_goals
      rw [h]
      rfl
  obtain ⟨c, hc, hbyte⟩ := char_of_ascii (b := b) (by omega)
  have hmem : c ∈ n := (mem_utf8_ascii (by omega) n).mp (hbyte ▸ hb)
  refine ⟨c, hmem, ?_⟩
  rcases hcases with hlow | hq | hs | hdel
  · left
    simp only [isControl, Bool.or_eq_true, decide_eq_true_eq]
    omega
  · right; right
    exact Char.toNat_inj.mp (hc.trans hq)
  · right; left
    exact Char.toNat_inj.mp (hc.trans hs)
  · left
    simp only [isControl, Bool.or_eq_true, Bool.and_eq_true, decide_eq_true_eq]
    omega

theorem input_plain_iff {d n : Text} (hn : '/' ∉ n) (hok : inputNameOk (d ++ '/' :: n) = true) :
    (utf8 n).any mustQuote = false ↔ '"' ∉ n := by
  constructor
  · intro hplain hmem
    have hbyte : 0x22 ∈ utf8 n := (mem_utf8_ascii (c := '"') (by decide) n).mpr hmem
    have hquoted : (utf8 n).any mustQuote = true := List.any_eq_true.mpr ⟨_, hbyte, by decide⟩
    rw [hplain] at hquoted
    cases hquoted
  · intro hfree
    by_contra hquoted
    obtain ⟨c, hc, hbad⟩ := quoted_char (by simpa using hquoted)
    simp only [inputNameOk, lastSegment_append hn, Bool.and_eq_true, Bool.not_eq_true',
      List.any_eq_false, Bool.or_eq_true, not_or] at hok
    obtain ⟨⟨hcontrol, hslash⟩, -⟩ := hok.2 c hc
    rcases hbad with h | rfl | rfl
    · exact hcontrol h
    · exact hslash rfl
    · exact hfree hc

/-- The leaf is the file of this path. -/
def IsFile (p : LeafPath) (f : AuthoredInput) : Prop := p.bytes = utf8 f.path

/-- All files of the set are in the tree. -/
def Carries (t : Tree) (inputs : List AuthoredInput) : Prop :=
  ∀ f ∈ inputs, ∃ p ∈ t.paths, IsFile p f

private theorem dirs_plain : ∀ d ∈ authoredDirs, '"' ∉ d ++ ['/'] := by decide

theorem hookAllows_file_iff {f : AuthoredInput} (hpath : authoredPath f.path = true)
    (hname : inputNameOk f.path = true) {p : LeafPath} (hp : IsFile p f) :
    hookAllows p ↔ '"' ∉ f.path := by
  obtain ⟨d, hd, n, hne, hn, -, -, heq⟩ := (authoredPath_iff f.path).mp hpath
  rw [IsFile, heq, utf8_slash] at hp
  rw [heq] at hname
  have hnslash : 47 ∉ utf8 n := by rwa [slash_mem_utf8]
  obtain ⟨hdir, hbytes⟩ := (LeafPath.bytes_oneSlash (authoredDirs_noSlash d hd) hnslash).mp hp
  have hplain : ¬ Quoted p.name ↔ '"' ∉ n := by
    rw [Quoted, hbytes, ← input_plain_iff hn hname, Bool.not_eq_true]
  have hwhole : '"' ∉ f.path ↔ '"' ∉ n := by
    have hsplit : f.path = (d ++ ['/']) ++ n := by rw [heq]; simp
    rw [hsplit, List.mem_append, not_or, and_iff_right (dirs_plain d hd)]
  rw [hwhole, ← hplain]
  exact hookAllows_authored_iff hd hdir

private theorem isFile_of_parts {d : Text} {f : AuthoredInput} {dir name : Name}
    (hstart : (d ++ ['/']).isPrefixOf f.path = true) (hdir : dir.bytes = utf8 d)
    (hname : name.bytes = utf8 (f.path.drop (d.length + 1))) : IsFile ⟨[dir], name⟩ f := by
  have hslash : utf8 (d ++ ['/']) = utf8 d ++ [47] := utf8_slash d []
  rw [IsFile, ← path_of_ownFile hstart, utf8_append, hslash, ← hname, ← hdir]
  simp [LeafPath.bytes, LeafPath.dirBytes]

theorem mem_paths_of_built {reserved : Name → Bool} {files : List (Text × Text)}
    {parent : Option Tree} {source : AuthoredSource} {t : Tree}
    (h : buildTree reserved files parent source = some t) {p : LeafPath} (hp : p ∈ t.paths) :
    (p.dirs = [] ∧ ∃ f ∈ files, p.name.bytes = utf8 f.1) ∨ ∃ d ∈ authoredDirs, ∃ s,
      authoredSub reserved parent source d = some (some s) ∧ ∃ n : Name, n.bytes = utf8 d ∧
        ∃ x ∈ (Entry.dir s).leavesAt [] n, x.1 = p := by
  obtain ⟨x, hx, rfl⟩ := List.mem_map.mp hp
  obtain ⟨e, he, hxe⟩ := Entry.mem_leavesIn.mp hx
  rcases (buildTree_entries h).1 e he with ⟨f, hf, hname, hleaf⟩ | ⟨d, hd, s, hs, hname, hdir⟩
  · left
    rw [hleaf, Entry.leavesAt, List.mem_singleton] at hxe
    rw [hxe]
    exact ⟨rfl, f, hf, hname⟩
  · rw [hdir] at hxe
    exact Or.inr ⟨d, hd, s, hs, e.1, hname, x, hxe, rfl⟩

theorem mem_paths_buildTree {reserved : Name → Bool} {files : List (Text × Text)}
    {parent : Option Tree} {inputs : List AuthoredInput} {t : Tree}
    (h : buildTree reserved files parent (.replace inputs) = some t) {p : LeafPath}
    (hp : p ∈ t.paths) :
    (p.dirs = [] ∧ ∃ f ∈ files, p.name.bytes = utf8 f.1) ∨ ∃ f ∈ inputs, IsFile p f := by
  rcases mem_paths_of_built h hp with hroot | ⟨d, hd, s, hs, n, hname, x, hx, rfl⟩
  · exact Or.inl hroot
  · right
    rw [Entry.leavesAt, List.nil_append] at hx
    obtain ⟨g, hg, hxg⟩ := Entry.mem_leavesIn.mp hx
    obtain ⟨f, hf, hgname, hgleaf⟩ := (replaceSub_entries hs).1 g hg
    rw [hgleaf, Entry.leavesAt, List.mem_singleton] at hxg
    obtain ⟨hmem, hstart⟩ := List.mem_filter.mp hf
    rw [hxg]
    exact ⟨f, hmem, isFile_of_parts hstart hname hgname⟩

private theorem authoredDirs_not_root : ∀ d ∈ authoredDirs, d ∉ rootFiles := by decide

theorem carries_buildTree {reserved : Name → Bool} {files : List (Text × Text)}
    {parent : Option Tree} {inputs : List AuthoredInput} {t : Tree}
    (h : buildTree reserved files parent (.replace inputs) = some t)
    (hfiles : ∀ f ∈ files, f.1 ∈ rootFiles)
    (hpaths : ∀ f ∈ inputs, authoredPath f.path = true) : Carries t inputs := by
  intro f hf
  obtain ⟨d, hd, n, hne, hn, -, -, heq⟩ := (authoredPath_iff f.path).mp (hpaths f hf)
  have hstart : (d ++ ['/']).isPrefixOf f.path = true := by
    rw [heq, List.isPrefixOf_iff_prefix]
    exact ⟨n, by simp⟩
  have hown : f ∈ ownFiles inputs d := List.mem_filter.mpr ⟨hf, hstart⟩
  obtain ⟨o, ho⟩ := Option.isSome_iff_exists.mp (buildTree_sub_isSome h d hd)
  cases o with
  | none =>
    rw [replaceSub_eq_none ho] at hown
    cases hown
  | some s =>
    obtain ⟨hentries, -, hdirs⟩ := buildTree_entries h
    obtain ⟨e, he, hename⟩ := hdirs d hd s ho
    have hdir : e.2 = .dir s := by
      rcases hentries e he with ⟨g, hg, hgname, -⟩ | ⟨c, -, s', hs', hcname, hs⟩
      · have hgd : g.1 = d := utf8_injective (hgname.symm.trans hename)
        exact absurd (hgd ▸ hfiles g hg) (authoredDirs_not_root d hd)
      · obtain rfl : c = d := utf8_injective (hcname.symm.trans hename)
        rw [ho] at hs'
        rw [hs, Option.some.inj (Option.some.inj hs')]
    obtain ⟨g, hg, hgname⟩ := (replaceSub_entries ho).2 f hown
    obtain ⟨f', -, hfname, hleaf⟩ := (replaceSub_entries ho).1 g hg
    have hat : (⟨[e.1], g.1⟩, .file f'.executable f'.content) ∈ e.2.leavesAt [] e.1 := by
      rw [hdir, Entry.leavesAt, List.nil_append, Entry.mem_leavesIn]
      refine ⟨g, hg, ?_⟩
      rw [hleaf, Entry.leavesAt, List.mem_singleton]
    refine ⟨⟨[e.1], g.1⟩, List.mem_map_of_mem (Entry.mem_leavesIn.mpr ⟨e, he, hat⟩), ?_⟩
    exact isFile_of_parts hstart hename hgname

theorem carried_allowed_iff {inputs : List AuthoredInput} {t : Tree}
    (haccepted : authoredInputViolation inputs = none) (hcarries : Carries t inputs) :
    (∀ p ∈ t.paths, (∃ f ∈ inputs, IsFile p f) → hookAllows p) ↔ ∀ f ∈ inputs, '"' ∉ f.path := by
  have hnames := names_of_checkInputs haccepted
  constructor
  · intro h f hf
    obtain ⟨p, hp, hfile⟩ := hcarries f hf
    exact (hookAllows_file_iff (hnames f hf).1 (hnames f hf).2 hfile).mp (h p hp ⟨f, hf, hfile⟩)
  · rintro h p - ⟨f, hf, hfile⟩
    exact (hookAllows_file_iff (hnames f hf).1 (hnames f hf).2 hfile).mpr (h f hf)

theorem hookBad_buildTree_iff {reserved : Name → Bool} {files : List (Text × Text)}
    {parent : Option Tree} {inputs : List AuthoredInput} {t : Tree}
    (haccepted : authoredInputViolation inputs = none)
    (hfiles : ∀ f ∈ files, f.1 ∈ rootFiles)
    (h : buildTree reserved files parent (.replace inputs) = some t) :
    hookBad t.paths = [] ↔ ∀ f ∈ inputs, '"' ∉ f.path := by
  have hcarries : Carries t inputs :=
    carries_buildTree h hfiles fun f hf => (names_of_checkInputs haccepted f hf).1
  rw [hookBad_eq_nil_iff, ← carried_allowed_iff haccepted hcarries]
  constructor
  · intro hall p hp _
    exact hall p hp
  · intro hall p hp
    rcases mem_paths_buildTree h hp with ⟨hroot, f, hf, hname⟩ | hfile
    · exact (hookAllows_iff p).mpr (Or.inl ⟨hroot, f.1, hfiles f hf, hname⟩)
    · exact hall p hp hfile

theorem versionFiles_root (schemaUrl : Text) (v : VersionData) :
    ∀ f ∈ versionFiles schemaUrl v, f.1 ∈ rootFiles := by
  intro f hf
  simp only [versionFiles, List.mem_cons, List.not_mem_nil, or_false] at hf
  rcases hf with rfl | rfl | rfl <;> simp [rootFiles]

/-- The doors give one verdict on a leaf path exactly when it is not one of the divergent ones, and
the files of an accepted set pass the hook in any tree that carries them, in particular in the one
the core writes, exactly when no path of the set holds a double quote. -/
theorem path_doors_agree_iff (p : LeafPath) (inputs : List AuthoredInput) :
    ((hookBad [p] = [] ↔ leafAllowed p = true) ↔ ¬ Diverges p) ∧
    (authoredInputViolation inputs = none →
      (∀ t : Tree, Carries t inputs →
        ((∀ q ∈ t.paths, (∃ f ∈ inputs, IsFile q f) → hookBad [q] = []) ↔
          ∀ f ∈ inputs, '"' ∉ f.path)) ∧
      ∀ (reserved : Name → Bool) (schemaUrl : Text) (v : VersionData) (parent : Option Tree)
        (t : Tree), buildTree reserved (versionFiles schemaUrl v) parent (.replace inputs) = some t →
        Carries t inputs ∧ (hookBad t.paths = [] ↔ ∀ f ∈ inputs, '"' ∉ f.path)) := by
  have hone (q : LeafPath) : hookBad [q] = [] ↔ hookAllows q := by
    rw [hookBad_eq_nil_iff, List.forall_mem_singleton]
  simp only [hone]
  refine ⟨doors_agree_iff p, fun haccepted => ⟨?_, ?_⟩⟩
  · intro t hcarries
    exact carried_allowed_iff haccepted hcarries
  · intro reserved schemaUrl v parent t h
    have hroot := versionFiles_root schemaUrl v
    refine ⟨?_, hookBad_buildTree_iff haccepted hroot h⟩
    exact carries_buildTree h hroot fun f hf => (names_of_checkInputs haccepted f hf).1

def namedScript (name : Text) : List AuthoredInput := [⟨"scripts/".toList ++ name, [], false⟩]

def plainScript : List AuthoredInput := namedScript "run.sh".toList

def quotedScript : List AuthoredInput := namedScript "a\"b".toList

theorem plainScript_accepted : authoredInputViolation plainScript = none := by decide

private theorem quotedScript_accepted : authoredInputViolation quotedScript = none := by decide

def emptyVersion : VersionData where
  version := 1
  note := []
  ts := 0
  title := "t".toList
  desc := []
  tags := []
  ordered := true
  kind := none
  skillHeader := none
  steps := []

private theorem writable_any {name : Text} {n : Name} (hn : Name.ofBytes (utf8 name) = some n) :
    TreeBuilder.Writable (fun _ => false) name := ⟨n, Name.ofBytes_eq_some.mp hn, rfl⟩

theorem namedScript_tree {name : Text} {n : Name} (v : VersionData)
    (hn : Name.ofBytes (utf8 name) = some n) :
    ∃ t, buildTree (fun _ => false) (versionFiles [] v) none
      (.replace (namedScript name)) = some t := by
  refine buildTree_of_writable ?_ ?_
  · intro f hf
    have hroot := versionFiles_root [] v f hf
    have hall : ∀ s ∈ rootFiles, (Name.ofBytes (utf8 s)).isSome = true := by decide
    obtain ⟨m, hm⟩ := Option.isSome_iff_exists.mp (hall f.1 hroot)
    exact writable_any hm
  · intro d hd
    have hall : ∀ s ∈ authoredDirs, (Name.ofBytes (utf8 s)).isSome = true := by decide
    obtain ⟨m, hm⟩ := Option.isSome_iff_exists.mp (hall d hd)
    have hnames : ∀ f ∈ ownFiles (namedScript name) d,
        TreeBuilder.Writable (fun _ => false) (f.path.drop (d.length + 1)) := by
      intro f hf
      obtain ⟨hmem, hstart⟩ := List.mem_filter.mp hf
      obtain rfl := List.mem_singleton.mp hmem
      have hdir : d = "scripts".toList := by
        simp only [authoredDirs, List.map_cons, List.map_nil, List.mem_cons, List.not_mem_nil,
          or_false] at hd
        rcases hd with rfl | rfl | rfl
        · rfl
        · simp at hstart
        · simp at hstart
      rw [hdir]
      exact writable_any hn
    obtain ⟨o, ho, hwell⟩ := replaceSub_of_writable hnames
    exact ⟨o, ho, fun s hs => ⟨writable_any hm, hwell s hs⟩⟩

/-- A plain script: the doors agree, and the commit the core writes for it passes the hook. -/
theorem path_doors_agree_run_sh : ∃ t, buildTree (fun _ => false) (versionFiles [] emptyVersion)
    none (.replace plainScript) = some t ∧ Carries t plainScript ∧ hookBad t.paths = [] := by
  have hname : Name.ofBytes (utf8 "run.sh".toList) = some scriptName := rfl
  obtain ⟨t, ht⟩ := namedScript_tree emptyVersion hname
  obtain ⟨hcarries, hbad⟩ := ((path_doors_agree_iff ⟨[scriptsName], scriptName⟩ plainScript).2
    plainScript_accepted).2 (fun _ => false) [] emptyVersion none t ht
  exact ⟨t, ht, hcarries, hbad.mpr (by decide)⟩

def quotedName : Name := ⟨utf8 "a\"b".toList, by decide, by decide, by decide⟩

/-- A script with a double quote in its name: the core takes the path and the file set, and the
hook refuses both the path and the commit the core writes. -/
theorem path_doors_part_quoted_script :
    ¬ (∀ p : LeafPath, hookBad [p] = [] ↔ leafAllowed p = true) ∧
    authoredInputViolation quotedScript = none ∧
      ∃ t, buildTree (fun _ => false) (versionFiles [] emptyVersion) none (.replace quotedScript) =
        some t ∧ hookBad t.paths ≠ [] := by
  refine ⟨fun h => ?_, quotedScript_accepted, ?_⟩
  · exact absurd (h ⟨[scriptsName], quotedName⟩) (by decide)
  · have hname : Name.ofBytes (utf8 "a\"b".toList) = some quotedName := rfl
    obtain ⟨t, ht⟩ := namedScript_tree emptyVersion hname
    refine ⟨t, ht, ?_⟩
    rw [Ne, hookBad_buildTree_iff quotedScript_accepted (versionFiles_root [] emptyVersion) ht]
    decide

end Setfork.PathDoors
