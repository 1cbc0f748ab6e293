/- PushBack
   digest: A projected canon pushed back unchanged, and when the second projection keeps it. -/
import Setfork.Reproject

set_option autoImplicit false
set_option relaxedAutoImplicit false

namespace Setfork.PushBack

open Setfork.Foundation (Text Bytes trim trim_trim Trimmed trimmed_trim utf8 utf8_injective
  Uuid)
open Setfork.Foundation.Json
open Setfork.Serialize
open Setfork.Rows
open Setfork.CanonMirror
open Setfork.Project
open Setfork.Carryover
open Setfork.Reproject

def rowMarks (r : StepRow) : CarryOver where
  needsHuman := r.needsHuman
  needsHumanAsk := reorder jsonbRank r.needsHumanAsk
  imageKey := r.imageKey
  danger := r.danger

def lastNamed (steps : List ProjStep) (id : Uuid) : Option ProjStep :=
  steps.reverse.find? (fun q => blockUuid q = some id)

private theorem currentRows_projectedList {s : ListState}
    (hfree : FreeNumber s (s.currentVersion + 1)) (raw : RawList) (steps : List RawStep)
    (note : Text) (ts : Int) :
    currentRows (projectedList s raw steps note ts) =
      insertStepRows ((parseSteps steps).map (projStepRow (currentMarks s))) := by
  let new : VersionRecord := ⟨s.currentVersion + 1, note, ts,
    insertStepRows ((parseSteps steps).map (projStepRow (currentMarks s)))⟩
  have hnew : (s.versions ++ [new]).filter (fun v => v.version = s.currentVersion + 1) = [new] := by
    rw [List.filter_append, List.filter_eq_nil_iff.mpr fun v hv h =>
      hfree v hv (of_decide_eq_true h)]
    simp [new]
  have hrows : currentRows (projectedList s raw steps note ts) =
      (((s.versions ++ [new]).filter (fun v => v.version = s.currentVersion + 1)).flatMap
        (fun v => v.steps)).insertionSort recordLe := rfl
  rw [hrows, hnew]
  exact (congrArg (List.insertionSort recordLe) (List.append_nil _)).trans
    (orderedSteps_insertStepRows (s.currentVersion + 1) note ts _)

private theorem filterMap_insertStepRows {β : Type} (f : StepRecord → Option β)
    (g : StepRow → Option β) (hfg : ∀ n r, f (insertStepRow n r) = g r) (rows : List StepRow) :
    (insertStepRows rows).filterMap f = rows.filterMap g := by
  have hmap : (insertStepRows rows).map f = rows.map g := by
    rw [insertStepRows, map_numbered]
    refine List.ext_getElem (by simp [numbered]) fun i _ _ => ?_
    simp only [numbered, List.getElem_mapIdx, List.getElem_map, hfg]
  have hid {γ : Type} (h : γ → Option β) (xs : List γ) : xs.filterMap h = (xs.map h).filterMap id := by
    rw [List.filterMap_map]
    rfl
  rw [hid, hmap, ← hid]

private theorem find_named {α β : Type} (key : α → Option Uuid) (f : α → β) (id : Uuid)
    (xs : List α) :
    ((xs.filterMap (fun q => (key q).map (fun k => (k, f q)))).find? (fun m => m.1 = id)).map
      Prod.snd = (xs.find? (fun q => key q = some id)).map f := by
  induction xs with
  | nil => rfl
  | cons x xs ih =>
    rw [List.filterMap_cons]
    cases hkey : key x with
    | none =>
      rw [List.find?_cons_of_neg (by simp [hkey]), ← ih]
      rfl
    | some k =>
      by_cases hk : k = id
      · rw [List.find?_cons_of_pos (by simp [hkey, hk])]
        simp [hk]
      · rw [List.find?_cons_of_neg (by simp [hkey, hk]), ← ih]
        simp only [Option.map_some]
        rw [List.find?_cons_of_neg (by simp [hk])]

theorem lastMark_projectedList {s : ListState} (hfree : FreeNumber s (s.currentVersion + 1))
    (raw : RawList) (steps : List RawStep) (note : Text) (ts : Int) (id : Uuid) :
    lastMark (currentMarks (projectedList s raw steps note ts)) id =
      (lastNamed (parseSteps steps) id).map
        (fun q => rowMarks (projStepRow (currentMarks s) q)) := by
  have hmarks : currentMarks (projectedList s raw steps note ts) =
      (parseSteps steps).filterMap (fun q => (blockUuid q).map
        (fun k => (k, rowMarks (projStepRow (currentMarks s) q)))) := by
    rw [currentMarks, currentRows_projectedList hfree,
      filterMap_insertStepRows _ (fun r => r.blockId.map (fun k => (k, rowMarks r)))
        (fun _ _ => rfl), List.filterMap_map]
    rfl
  rw [lastMark, hmarks, ← List.filterMap_reverse, find_named]
  rfl

/-- Pushing the canon back keeps the marks of a step, and its payload has no number that the column
and the reader, whose `read` it is, give back as another one. -/
structure StepStays (read : Number → Number) (s : ListState) (steps : List ProjStep) (p : ProjStep) :
    Prop where
  content : isStepType p.blockType = false →
    ∀ x ∈ numbersIn p.content, s.column (read (s.column x)) = s.column x
  ask : p.needsHuman = none → (carried (currentMarks s) p).needsHuman = true →
    Trimmed (loc (carried (currentMarks s) p).needsHumanAsk)
  needsHuman : ∀ id, blockUuid p = some id → ∀ q, lastNamed steps id = some q →
    p.needsHuman.getD (carried (currentMarks s) p).needsHuman = false →
    q.needsHuman.getD (carried (currentMarks s) q).needsHuman = false
  danger : ∀ id, blockUuid p = some id → ∀ q, lastNamed steps id = some q →
    p.danger.getD (carried (currentMarks s) p).danger = false →
    q.danger.getD (carried (currentMarks s) q).danger = false
  imageKey : ∀ id, blockUuid p = some id → ∀ q, lastNamed steps id = some q →
    shownKey (imageKeyRow p.imageKey (carried (currentMarks s) p)) = none →
    shownKey (imageKeyRow q.imageKey (carried (currentMarks s) q)) = none

private theorem resolved_landed (column : Number → Number) (keep keep' : List (Uuid × CarryOver))
    (n : Int) (p : ProjStep) : resolved keep' (landed column keep n p) =
      ((blockUuid p).bind (lastMark keep')).getD CarryOver.default := by
  have hid : (landed column keep n p).blockId = (blockUuid p).map Uuid.toString := by
    rw [landed_eq]
  rw [resolved, hid]
  cases blockUuid p with
  | none => rfl
  | some u =>
    rw [Option.map_some, Option.filter_some, if_pos (notBlank_toString u), Option.bind_some,
      Uuid.parseStr_toString]

private theorem ordered_carried_ask (s : ListState) (p : ProjStep) :
    Ordered jsonbRank (carried (currentMarks s) p).needsHumanAsk := by
  have hempty : Ordered jsonbRank (.obj []) := ⟨List.Pairwise.nil, trivial⟩
  have hmark (r : StepRecord) : Ordered jsonbRank (markOf r).needsHumanAsk := by
    unfold markOf
    cases r.needsHumanAsk with
    | none => exact hempty
    | some v => exact v.ordered
  unfold carried
  cases h : (blockUuid p).bind (lastMark (currentMarks s)) with
  | none => exact hempty
  | some c =>
    obtain ⟨id, -, hc⟩ := Option.bind_eq_some_iff.mp h
    obtain ⟨m, hm, rfl⟩ := Option.map_eq_some_iff.mp hc
    have hmem : m ∈ currentMarks s := List.mem_reverse.mp (List.mem_of_find?_eq_some hm)
    obtain ⟨r, -, hr⟩ := List.mem_filterMap.mp hmem
    obtain ⟨k, -, rfl⟩ := Option.map_eq_some_iff.mp hr
    exact hmark r

private theorem locByKey_of_ordered {v : Value} (hv : Ordered jsonbRank v) : locByKey v = loc v := by
  rw [← loc_reorder, (reorder_eq_self_iff jsonbRank v).mpr hv]

private theorem shownAsk_iff (s : ListState) (p : ProjStep) :
    (p.needsHuman.getD (carried (currentMarks s) p).needsHuman = true →
      ∀ a ∈ shownAsk (currentMarks s) p, a ≠ [] ∧ Trimmed a) ↔
    (p.needsHuman = none → (carried (currentMarks s) p).needsHuman = true →
      Trimmed (loc (carried (currentMarks s) p).needsHumanAsk)) := by
  have hpresent (x : Text) : (∀ a ∈ presentText x, a ≠ [] ∧ Trimmed a) ↔ Trimmed x := by
    cases x with
    | nil => simp [presentText, Trimmed]
    | cons c x => simp [presentText]
  cases hmark : p.needsHuman with
  | none =>
    have hask : shownAsk (currentMarks s) p =
        presentText (loc (carried (currentMarks s) p).needsHumanAsk) := by
      rw [shownAsk, hmark, ← locByKey_of_ordered (ordered_carried_ask s p)]
      rfl
    rw [hask, hpresent]
    simp
  | some b =>
    have hask : ∃ x, Trimmed x ∧ shownAsk (currentMarks s) p = presentText x := by
      cases b with
      | false => exact ⟨[], rfl, by rw [shownAsk, hmark]; rfl⟩
      | true =>
        cases hfile : p.needsHumanAsk with
        | none => exact ⟨[], rfl, by rw [shownAsk, hmark, hfile]; rfl⟩
        | some a =>
          refine ⟨trim a, trimmed_trim a, ?_⟩
          rw [shownAsk, hmark, hfile, ← locByKey_locVal]
          rfl
    obtain ⟨x, hx, hshown⟩ := hask
    rw [hshown, hpresent]
    exact ⟨fun _ h => (by cases h), fun _ _ => hx⟩

private theorem storedRef_stored (label : Text) (url : Option Text) :
    storedRef (storedRef label url).label (storedRef label url).url = storedRef label url := by
  have hurl : storedUrl (storedUrl url) = storedUrl url := by
    cases url with
    | none => rfl
    | some u =>
      by_cases hu : trim u = []
      · simp [storedUrl, Option.filter, hu]
      · have hne : (trim u).isEmpty = false := by simpa using hu
        simp [storedUrl, Option.filter, hne, trim_trim]
  simp only [storedRef, trim_trim, hurl]

private theorem marks_iff {P : CarryOver → Prop} (hdefault : P CarryOver.default) {id : Option Uuid}
    {keep : List (Uuid × CarryOver)} {steps : List ProjStep} {f : ProjStep → CarryOver}
    (hkeep : ∀ u, lastMark keep u = (lastNamed steps u).map f) :
    P ((id.bind (lastMark keep)).getD CarryOver.default) ↔
      ∀ u, id = some u → ∀ q, lastNamed steps u = some q → P (f q) := by
  cases id with
  | none => simpa using hdefault
  | some u =>
    rw [Option.bind_some, hkeep]
    cases h : lastNamed steps u with
    | none => simpa [h] using hdefault
    | some q => simp [h]

private theorem titled_of_parsed {steps : List RawStep} {p : ProjStep} (hp : p ∈ parseSteps steps) :
    isStepType p.blockType = true → notBlank p.title = true := by
  obtain ⟨r, -, hr⟩ := List.mem_filterMap.mp hp
  intro hstep
  simp only [parseStep] at hr
  split_ifs at hr with hblank htype
  · obtain rfl := Option.some.inj hr
    simpa [htype] using hblank
  · obtain rfl := Option.some.inj hr
    exact absurd hstep htype

/-- A block in the form in which the database gives one back, whatever its marks. -/
structure Stored (t : SerStep) : Prop where
  kept : kept t = true
  blockId : ∀ b ∈ t.blockId, ∃ u : Uuid, b = u.toString
  content : isStepBlock t = false → Ordered jsonbRank t.content
  title : Trimmed t.title
  desc : Trimmed t.desc
  command : Trimmed t.command
  level : (Level.parse t.level).asStr = t.level
  why : Trimmed t.why
  section_ : Trimmed t.section_
  subtasks : ∀ x ∈ t.subtasks, x ≠ [] ∧ Trimmed x
  refs : ∀ r ∈ t.refs, keepsRef r.label r.url = true ∧ storedRef r.label r.url = r

theorem stored_landed (column : Number → Number) (keep : List (Uuid × CarryOver)) (n : Int)
    {steps : List RawStep} {p : ProjStep} (hp : p ∈ parseSteps steps) :
    Stored (landed column keep n p) := by
  rw [landed_eq]
  refine ⟨?_, ?_, ?_, trimmed_trim p.title, trimmed_trim p.desc, trimmed_trim p.command,
    congrArg Level.asStr (Level.parse_asStr _), trimmed_trim p.why, trimmed_trim p.section_, ?_, ?_⟩
  · rw [kept, isStepBlock]
    cases htype : isStepType p.blockType with
    | true =>
      have htitle : notBlank (trim p.title) = true := by
        rw [notBlank, trim_trim]
        exact titled_of_parsed hp htype
      simp [htitle]
    | false => simp [htype]
  · intro b hb
    obtain ⟨u, -, rfl⟩ := Option.map_eq_some_iff.mp hb
    exact ⟨u, rfl⟩
  · intro hblock
    cases isStepType p.blockType with
    | true => exact trivial
    | false =>
      simp only [Bool.false_eq_true, if_false]
      rw [← reorder_mapNumbers]
      exact ordered_reorder jsonbRank _
  · intro x hx
    obtain ⟨y, hy, rfl⟩ := List.mem_map.mp hx
    refine ⟨?_, trimmed_trim y⟩
    simpa [notBlank] using (List.mem_filter.mp hy).2
  · intro r hr
    obtain ⟨q, hq, rfl⟩ := List.mem_map.mp hr
    refine ⟨?_, storedRef_stored q.label q.url⟩
    rw [storedRef, keepsRef_stored]
    exact (List.mem_filter.mp hq).2

private theorem numbers_stored_iff (column read : Number → Number) (c : Value) :
    (∀ x ∈ numbersIn (mapNumbers column (reorder jsonbRank c)), (column ∘ read) x = x) ↔
      ∀ x ∈ numbersIn c, column (read (column x)) = column x := by
  rw [← mapNumbers_eq_self_iff, mapNumbers_mapNumbers, mapNumbers_congr_iff]
  simp only [mem_numbersIn_reorder, Function.comp_apply]

private theorem stepReproduced_landed_iff (read : Number → Number) {s : ListState}
    (hfree : FreeNumber s (s.currentVersion + 1)) (raw : RawList) (steps : List RawStep)
    (note : Text) (ts : Int) (n : Int) {p : ProjStep} (hp : p ∈ parseSteps steps) :
    StepReproduced (s.column ∘ read) (currentMarks (projectedList s raw steps note ts))
        (landed s.column (currentMarks s) n p) ↔ StepStays read s (parseSteps steps) p := by
  have hmarks (P : CarryOver → Prop) (hdefault : P CarryOver.default) :
      P (resolved (currentMarks (projectedList s raw steps note ts)) (landed s.column (currentMarks s) n p)) ↔
        ∀ u, blockUuid p = some u → ∀ q, lastNamed (parseSteps steps) u = some q →
          P (rowMarks (projStepRow (currentMarks s) q)) := by
    rw [resolved_landed]
    exact marks_iff hdefault (lastMark_projectedList hfree raw steps note ts)
  have hhuman := hmarks (fun c => p.needsHuman.getD (carried (currentMarks s) p).needsHuman = false →
    c.needsHuman = false) fun _ => rfl
  have hdanger := hmarks (fun c => p.danger.getD (carried (currentMarks s) p).danger = false →
    c.danger = false) fun _ => rfl
  have himage := hmarks (fun c =>
    shownKey (imageKeyRow p.imageKey (carried (currentMarks s) p)) = none →
      shownKey c.imageKey = none) fun _ => rfl
  have hmark : (landed s.column (currentMarks s) n p).needsHuman =
      p.needsHuman.getD (carried (currentMarks s) p).needsHuman := by rw [landed_eq]
  have hshown : (landed s.column (currentMarks s) n p).needsHumanAsk = shownAsk (currentMarks s) p := by
    rw [landed_eq]
  have hflag : (landed s.column (currentMarks s) n p).danger =
      p.danger.getD (carried (currentMarks s) p).danger := by rw [landed_eq]
  have hkey : (landed s.column (currentMarks s) n p).imageKey =
      imageKeyRow p.imageKey (carried (currentMarks s) p) := by rw [landed_eq]
  rw [← hmark] at hhuman
  rw [← hflag] at hdanger
  rw [← hkey] at himage
  have hcontent : isStepType p.blockType = false →
      (landed s.column (currentMarks s) n p).content =
        mapNumbers s.column (reorder jsonbRank p.content) := by
    intro hblock
    simp only [landed_eq, hblock, Bool.false_eq_true, if_false]
  have hblock : isStepBlock (landed s.column (currentMarks s) n p) = isStepType p.blockType := by
    simp only [landed_eq, isStepBlock]
    cases h : isStepType p.blockType <;> simp [h]
  constructor
  · intro h
    refine ⟨?_, (shownAsk_iff s p).mp ?_, ?_, ?_, ?_⟩
    · intro htype
      have hnumbers := (h.content (hblock.trans htype)).2
      rw [hcontent htype] at hnumbers
      exact (numbers_stored_iff s.column read p.content).mp hnumbers
    · rw [← hmark, ← hshown]
      exact h.needsHumanAsk
    · simp only [← hmark]
      exact hhuman.mp h.needsHuman
    · simp only [← hflag]
      exact hdanger.mp h.danger
    · simp only [← hkey]
      exact himage.mp h.imageKey
  · intro h
    have hstored := stored_landed s.column (currentMarks s) n hp
    have hi := h.imageKey
    have hn := h.needsHuman
    have hd := h.danger
    rw [← hkey] at hi
    rw [← hmark] at hn
    rw [← hflag] at hd
    have hnumbers : isStepBlock (landed s.column (currentMarks s) n p) = false →
        ∀ x ∈ numbersIn (landed s.column (currentMarks s) n p).content, (s.column ∘ read) x = x := by
      intro hfalse
      rw [hcontent (hblock.symm.trans hfalse)]
      exact (numbers_stored_iff s.column read p.content).mpr (h.content (hblock.symm.trans hfalse))
    refine ⟨hstored.kept, hstored.blockId, fun hfalse => ⟨hstored.content hfalse, hnumbers hfalse⟩,
      hstored.title, hstored.desc,
      hstored.command, himage.mpr hi, hstored.level, hhuman.mpr hn, ?_, hdanger.mpr hd, hstored.why,
      hstored.section_, hstored.subtasks, hstored.refs⟩
    rw [hmark, hshown]
    exact (shownAsk_iff s p).mpr h.ask

theorem length_parseSteps_le (steps : List RawStep) : (parseSteps steps).length ≤ steps.length :=
  List.length_filterMap_le parseStep steps

private theorem projected_reads {s : ListState} {raw : RawList} {steps : List RawStep}
    (hheader : ∀ h ∈ s.skillHeader, UniqueKeys h) (hbounded : raw.Bounded)
    (hsteps : raw.steps = some steps) (hnumber : fitsInt32 (s.currentVersion + 1) = true)
    (hcount : steps.length ≤ 2147483647) (note : Text) (ts : Int) :
    VersionMaps (projected s raw steps note ts) ∧ Shallow (projected s raw steps note ts) := by
  have hcontent (t : SerStep) (ht : t ∈ (projected s raw steps note ts).steps) :
      UniqueKeys t.content ∧ depth t.content ≤ 124 := by
    obtain ⟨i, hi, rfl⟩ := List.getElem_of_mem ht
    simp only [projected, numbered, List.getElem_mapIdx, landed_eq]
    have hi' : i < (parseSteps steps).length := by
      simpa [projected, numbered] using hi
    obtain ⟨r, hr, hp⟩ := List.mem_filterMap.mp (List.getElem_mem hi')
    have hpayload : UniqueKeys (parseSteps steps)[i].content ∧
        depth (parseSteps steps)[i].content ≤ 124 := by
      simp only [parseStep] at hp
      split_ifs at hp
      · rw [← Option.some.inj hp]
        exact ⟨trivial, Nat.zero_le 124⟩
      · rw [← Option.some.inj hp]
        cases hc : r.content with
        | none => exact ⟨trivial, Nat.zero_le 124⟩
        | some c => exact hbounded.content steps hsteps r hr c hc
    cases isStepType (parseSteps steps)[i].blockType with
    | true => exact ⟨trivial, Nat.zero_le 124⟩
    | false =>
      simp only [Bool.false_eq_true, if_false, depth_mapNumbers]
      exact ⟨uniqueKeys_mapNumbers _ (uniqueKeys_reorder jsonbRank _ hpayload.1),
        depth_reorder_le jsonbRank _ hpayload.2⟩
  have hpatched : ∀ h ∈ (updateMeta raw s).skillHeader, UniqueKeys h := by
    intro h hh
    simp only [updateMeta, headerPatch] at hh
    split at hh
    · exact hheader h hh
    · cases hh
    · rename_i w _ hw
      cases hvalid : skillHeaderValid w with
      | none => exact hheader h (by simpa [hvalid] using hh)
      | some x =>
        obtain rfl : x = h := by simpa [hvalid] using hh
        exact uniqueKeys_skillHeaderValid (hbounded.header w hw) hvalid
  have hnumbers : NumbersFit (projected s raw steps note ts) :=
    ⟨hnumber, fits_numbered (fun _ _ => rfl) ((length_parseSteps_le steps).trans hcount)⟩
  refine ⟨⟨fun t ht => (hcontent t ht).1, fun h hh => ?_, hnumbers⟩, fun t ht _ => (hcontent t ht).2⟩
  obtain ⟨w, hw, hvalid⟩ := Option.bind_eq_some_iff.mp hh
  exact uniqueKeys_skillHeaderValid (hpatched w hw) hvalid

/-- Pushing the canon of a projection back keeps the list as it is. -/
structure Stays (read : Number → Number) (s : ListState) (raw : RawList) (steps : List RawStep) : Prop where
  free : FreeNumber s (s.currentVersion + 2)
  title : raw.title.any notBlank = false → notBlank (loc s.title.value) = true →
    Trimmed (loc s.title.value)
  desc : raw.desc = none → Trimmed (loc s.desc.value)
  tags : raw.tags = none → s.tags.length ≤ 20
  steps : ∀ p ∈ parseSteps steps, StepStays read s (parseSteps steps) p

private theorem free_projectedList_iff (s : ListState) (raw : RawList) (steps : List RawStep)
    (note : Text) (ts : Int) :
    FreeNumber (projectedList s raw steps note ts)
      ((projectedList s raw steps note ts).currentVersion + 1) ↔
      FreeNumber s (s.currentVersion + 2) := by
  have hnext : (projectedList s raw steps note ts).currentVersion + 1 = s.currentVersion + 2 := by
    change s.currentVersion + 1 + 1 = s.currentVersion + 2
    omega
  rw [hnext]
  constructor
  · intro h v hv
    exact h v (List.mem_append_left _ hv)
  · intro h v hv
    rcases List.mem_append.mp hv with hv | hv
    · exact h v hv
    · rw [List.mem_singleton.mp hv]
      change s.currentVersion + 1 ≠ s.currentVersion + 2
      omega

private theorem title_stays_iff (s : ListState) (raw : RawList) :
    (notBlank (loc (updateMeta raw s).title.value) = true →
      Trimmed (loc (updateMeta raw s).title.value)) ↔
      (raw.title.any notBlank = false → notBlank (loc s.title.value) = true →
        Trimmed (loc s.title.value)) := by
  rw [updateMeta]
  cases h : raw.title.any notBlank with
  | true =>
    have htrim := trimmed_trim (raw.title.getD [])
    rw [← loc_store_locVal] at htrim
    exact ⟨fun _ h => (by cases h), fun _ _ => htrim⟩
  | false => exact ⟨fun h _ => h, fun h => h rfl⟩

private theorem desc_stays_iff (s : ListState) (raw : RawList) :
    Trimmed (loc (updateMeta raw s).desc.value) ↔ (raw.desc = none → Trimmed (loc s.desc.value)) := by
  rw [updateMeta]
  cases raw.desc with
  | none => exact ⟨fun h _ => h, fun h => h rfl⟩
  | some d =>
    have htrim := trimmed_trim d
    rw [← loc_store_locVal] at htrim
    exact ⟨fun _ h => (by cases h), fun _ => htrim⟩

private theorem tags_stay_iff (s : ListState) (raw : RawList) :
    (updateMeta raw s).tags.length ≤ 20 ↔ (raw.tags = none → s.tags.length ≤ 20) := by
  rw [updateMeta]
  cases raw.tags with
  | none => exact ⟨fun h _ => h, fun h => h rfl⟩
  | some tags => exact ⟨fun _ h => (by cases h), fun _ => List.length_take_le 20 tags⟩

private theorem steps_stay_iff (read : Number → Number) {s : ListState} (hfree : FreeNumber s (s.currentVersion + 1))
    (raw : RawList) (steps : List RawStep) (note : Text) (ts : Int) :
    (∀ t ∈ (projected s raw steps note ts).steps,
      StepReproduced (s.column ∘ read) (currentMarks (projectedList s raw steps note ts)) t) ↔
      ∀ p ∈ parseSteps steps, StepStays read s (parseSteps steps) p := by
  constructor
  · intro h p hp
    obtain ⟨i, hi, rfl⟩ := List.getElem_of_mem hp
    have ht : landed s.column (currentMarks s) (i + 1) (parseSteps steps)[i] ∈
        (projected s raw steps note ts).steps :=
      List.mem_mapIdx.mpr ⟨i, hi, rfl⟩
    exact (stepReproduced_landed_iff read hfree raw steps note ts _ hp).mp (h _ ht)
  · intro h t ht
    obtain ⟨i, hi, rfl⟩ := List.mem_mapIdx.mp ht
    have hp := List.getElem_mem hi
    exact (stepReproduced_landed_iff read hfree raw steps note ts _ hp).mpr (h _ hp)

private theorem reproduces_projected_iff (read : Number → Number) {s : ListState}
    (hfree : FreeNumber s (s.currentVersion + 1))
    (raw : RawList) (steps : List RawStep) (note : Text) (ts : Int) :
    (FreeNumber (projectedList s raw steps note ts)
        ((projectedList s raw steps note ts).currentVersion + 1) ∧
      Reproduces read (projectedList s raw steps note ts) (projected s raw steps note ts)) ↔
      Stays read s raw steps := by
  have htitle : (if notBlank (projected s raw steps note ts).title then
        Trimmed (projected s raw steps note ts).title
      else loc (projectedList s raw steps note ts).title.value =
        (projected s raw steps note ts).title) ↔
      (notBlank (loc (updateMeta raw s).title.value) = true →
        Trimmed (loc (updateMeta raw s).title.value)) := by
    change (if notBlank (loc (updateMeta raw s).title.value) then _ else _) ↔ _
    cases notBlank (loc (updateMeta raw s).title.value) with
    | true => exact ⟨fun h _ => h, fun h => h rfl⟩
    | false => exact ⟨fun _ => nofun, fun _ => rfl⟩
  rw [free_projectedList_iff]
  constructor
  · intro h
    obtain ⟨hnext, h⟩ := h
    exact ⟨hnext, (title_stays_iff s raw).mp (htitle.mp h.title), (desc_stays_iff s raw).mp h.desc,
      (tags_stay_iff s raw).mp h.tags, (steps_stay_iff read hfree raw steps note ts).mp h.steps⟩
  · intro h
    refine ⟨h.free, htitle.mpr ((title_stays_iff s raw).mpr h.title),
      (desc_stays_iff s raw).mpr h.desc, (tags_stay_iff s raw).mpr h.tags, ?_, fun hk => hk, ?_, ?_,
      (steps_stay_iff read hfree raw steps note ts).mpr h.steps⟩
    · intro k hk
      exact (Option.filter_eq_some_iff.mp hk).2
    · intro hnone
      change ((updateMeta raw s).skillHeader.bind skillHeaderValid).bind skillHeaderValid = none
        at hnone
      rwa [bind_skillHeaderValid_idem] at hnone
    · intro i hi
      simp only [projected, numbered, List.getElem_mapIdx, landed_eq]

private theorem pushedBack_iff {schemaUrl : Text} (parser : Parser schemaUrl) {s : ListState}
    (hheader : ∀ h ∈ s.skillHeader, UniqueKeys h) {bytes : Bytes} {raw : RawList}
    {steps : List RawStep} (hread : parser.fromSlice bytes = some raw)
    (hsteps : raw.steps = some steps) (hnumber : fitsInt32 (s.currentVersion + 1) = true)
    (hcount : steps.length ≤ 2147483647) (hfree : FreeNumber s (s.currentVersion + 1))
    (note₁ note₂ : Text) (ts₁ ts₂ : Int) :
    (∃ v₁ raw₂ s₂ v₂, currentData (projectedList s raw steps note₁ ts₁) = some v₁ ∧
      parser.fromSlice (utf8 (listJson schemaUrl v₁)) = some raw₂ ∧
      projectList (projectedList s raw steps note₁ ts₁) raw₂ note₂ ts₂ = some s₂ ∧
      currentData s₂ = some v₂ ∧
      listJson schemaUrl { v₁ with version := v₂.version } = listJson schemaUrl v₂) ↔
    FreeNumber (projectedList s raw steps note₁ ts₁)
        ((projectedList s raw steps note₁ ts₁).currentVersion + 1) ∧
      Reproduces parser.read (projectedList s raw steps note₁ ts₁) (projected s raw steps note₁ ts₁) := by
  have hdata := currentData_projectedList hfree raw steps note₁ ts₁
  obtain ⟨hmaps, hshallow⟩ :=
    projected_reads hheader (parser.bounded bytes raw hread) hsteps hnumber hcount note₁ ts₁
  have hparse := (parser.fromSlice_listJson hmaps).1 hshallow
  rw [← sameCanon_projected_iff parser.read _ _ note₂ ts₂, ← @listJson_eq_iff schemaUrl]
  constructor
  · intro h
    obtain ⟨v₁, raw₂, s₂, v₂, hv₁, hraw₂, hs₂, hv₂, hsame⟩ := h
    obtain rfl := Option.some.inj (hdata.symm.trans hv₁)
    obtain rfl := Option.some.inj (hparse.symm.trans hraw₂)
    obtain ⟨steps₂, hsteps₂, hfree₂, rfl⟩ := projectList_eq_some_iff.mp hs₂
    obtain rfl := Option.some.inj hsteps₂
    rw [currentData_projectedList hfree₂, Option.some.injEq] at hv₂
    subst hv₂
    exact ⟨hfree₂, hsame⟩
  · intro h
    obtain ⟨hfree₂, hsame⟩ := h
    exact ⟨_, _, _, _, hdata, hparse, projectList_eq_some_iff.mpr ⟨_, rfl, hfree₂, rfl⟩,
      currentData_projectedList hfree₂ _ _ note₂ ts₂, hsame⟩

/-- Pushing the canon of a projection back unchanged and projecting it again: the canon of the
version is the same but for its number exactly when nothing is left to cut and the marks stay. -/
theorem projection_idempotent_iff {schemaUrl : Text} (parser : Parser schemaUrl) {s s₁ : ListState}
    (hheader : ∀ h ∈ s.skillHeader, UniqueKeys h) {bytes : Bytes} {raw : RawList}
    {steps : List RawStep} (hread : parser.fromSlice bytes = some raw)
    (hsteps : raw.steps = some steps) (hnumber : fitsInt32 (s.currentVersion + 1) = true)
    (hcount : steps.length ≤ 2147483647) (note₁ note₂ : Text) (ts₁ ts₂ : Int)
    (hfirst : projectList s raw note₁ ts₁ = some s₁) :
    (∃ v₁ raw₂ s₂ v₂, currentData s₁ = some v₁ ∧
      parser.fromSlice (utf8 (listJson schemaUrl v₁)) = some raw₂ ∧
      projectList s₁ raw₂ note₂ ts₂ = some s₂ ∧ currentData s₂ = some v₂ ∧
      listJson schemaUrl { v₁ with version := v₂.version } = listJson schemaUrl v₂) ↔
      Stays parser.read s raw steps := by
  obtain ⟨steps', hsteps', hfree, rfl⟩ := projectList_eq_some_iff.mp hfirst
  obtain rfl : steps = steps' := Option.some.inj (hsteps.symm.trans hsteps')
  rw [pushedBack_iff parser hheader hread hsteps hnumber hcount hfree]
  exact reproduces_projected_iff parser.read hfree raw steps note₁ ts₁

def sharedId : Uuid := .repeated 0

/-- A step under the shared identifier. -/
def twin (n : Int) (danger : Bool) : SerStep where
  n := n
  blockType := none
  content := .null
  blockId := some sharedId.toString
  title := "Restart".toList
  desc := []
  command := []
  imageKey := none
  level := "required".toList
  needsHuman := false
  needsHumanAsk := none
  danger := danger
  why := []
  section_ := []
  subtasks := []
  refs := []

/-- A canon of steps over the list that has just been born. -/
def pushedCanon (steps : List SerStep) : VersionData where
  version := 2
  note := []
  ts := 0
  title := "Redis".toList
  desc := []
  tags := []
  ordered := true
  kind := none
  skillHeader := none
  steps := steps

/-- The list after the first projection of such a canon. -/
def onceProjected (steps : List SerStep) : ListState :=
  projectedList bornList (rawOfCanon (pushedCanon steps)) (steps.map rawOfStep) [] 0

theorem pushedCanon_read {steps : List SerStep}
    (hsteps : ∀ t ∈ steps, t.content = .null ∧ fitsInt32 t.n = true) :
    (canonParser []).fromSlice (utf8 (listJson [] (pushedCanon steps))) =
      some (rawOfCanon (pushedCanon steps)) := by
  have hheader : ∀ h ∈ (pushedCanon steps).skillHeader, UniqueKeys h := by
    intro h hh
    cases hh
  have hmaps : VersionMaps (pushedCanon steps) := by
    refine ⟨fun t ht => ?_, hheader, rfl, fun t ht => (hsteps t ht).2⟩
    rw [(hsteps t ht).1]
    trivial
  have hshallow : Shallow (pushedCanon steps) := by
    intro t ht _
    rw [(hsteps t ht).1]
    exact Nat.zero_le 124
  have hread := ((canonParser []).fromSlice_listJson hmaps).1 hshallow
  rwa [show (canonParser []).read = id from rfl, changeNumbers_id] at hread

private theorem bornList_header : ∀ h ∈ bornList.skillHeader, UniqueKeys h := by
  intro h hh
  cases hh

private theorem pushedCanon_projected (steps : List SerStep) :
    projectList bornList (rawOfCanon (pushedCanon steps)) [] 0 = some (onceProjected steps) :=
  projectList_eq_some_iff.mpr ⟨_, rfl, by unfold FreeNumber; decide, rfl⟩

theorem twins_content {flags : List (Int × Bool)} (hflags : ∀ f ∈ flags, fitsInt32 f.1 = true) :
    ∀ t ∈ flags.map (fun f => twin f.1 f.2), t.content = .null ∧ fitsInt32 t.n = true := by
  intro t ht
  obtain ⟨f, hf, rfl⟩ := List.mem_map.mp ht
  exact ⟨rfl, hflags f hf⟩

theorem single_read : (canonParser []).fromSlice (utf8 (listJson [] (pushedCanon [twin 1 true]))) =
    some (rawOfCanon (pushedCanon [twin 1 true])) :=
  pushedCanon_read (@twins_content [(1, true)] (by decide))

/-- A single dangerous step is read, projected, and pushed back as the general rule says. -/
theorem projection_idempotent_single :
    (canonParser []).fromSlice (utf8 (listJson [] (pushedCanon [twin 1 true]))) =
      some (rawOfCanon (pushedCanon [twin 1 true])) ∧
    projectList bornList (rawOfCanon (pushedCanon [twin 1 true])) [] 0 =
      some (onceProjected [twin 1 true]) ∧
    ((∃ v₁ raw₂ s₂ v₂, currentData (onceProjected [twin 1 true]) = some v₁ ∧
      (canonParser []).fromSlice (utf8 (listJson [] v₁)) = some raw₂ ∧
      projectList (onceProjected [twin 1 true]) raw₂ [] 0 = some s₂ ∧ currentData s₂ = some v₂ ∧
      listJson [] { v₁ with version := v₂.version } = listJson [] v₂) ↔
      Stays id bornList (rawOfCanon (pushedCanon [twin 1 true])) ([twin 1 true].map rawOfStep)) :=
  ⟨single_read, pushedCanon_projected _,
    projection_idempotent_iff (canonParser []) bornList_header
      single_read rfl (by decide) (by decide) [] [] 0 0 (pushedCanon_projected _)⟩

private theorem blockUuid_twin (n : Int) (danger : Bool) :
    blockUuid (projOf (twin n danger)) = some sharedId := by
  have hid : (projOf (twin n danger)).blockId = some sharedId.toString := by
    change (some sharedId.toString).filter notBlank = _
    rw [Option.filter_some, if_pos (notBlank_toString sharedId)]
  rw [blockUuid, hid]
  exact Uuid.parseStr_toString sharedId

/-- Of two steps under one identifier only the second is dangerous: pushed back unchanged, the
first becomes dangerous too. -/
theorem projection_idempotent_twins :
    (canonParser []).fromSlice (utf8 (listJson [] (pushedCanon [twin 1 false, twin 2 true]))) =
      some (rawOfCanon (pushedCanon [twin 1 false, twin 2 true])) ∧
    projectList bornList (rawOfCanon (pushedCanon [twin 1 false, twin 2 true])) [] 0 =
      some (onceProjected [twin 1 false, twin 2 true]) ∧
    ¬ ∃ v₁ raw₂ s₂ v₂, currentData (onceProjected [twin 1 false, twin 2 true]) = some v₁ ∧
      (canonParser []).fromSlice (utf8 (listJson [] v₁)) = some raw₂ ∧
      projectList (onceProjected [twin 1 false, twin 2 true]) raw₂ [] 0 = some s₂ ∧
      currentData s₂ = some v₂ ∧
      listJson [] { v₁ with version := v₂.version } = listJson [] v₂ := by
  have hread : (canonParser []).fromSlice
      (utf8 (listJson [] (pushedCanon [twin 1 false, twin 2 true]))) =
      some (rawOfCanon (pushedCanon [twin 1 false, twin 2 true])) :=
    pushedCanon_read (@twins_content [(1, false), (2, true)] (by decide))
  refine ⟨hread, pushedCanon_projected _, ?_⟩
  have hfree : FreeNumber bornList (bornList.currentVersion + 1) := by
    unfold FreeNumber
    decide
  intro h
  have hkept := (pushedBack_iff (canonParser []) bornList_header hread rfl (by decide) (by decide) hfree [] [] 0 0).mp h
  have hparsed : parseSteps ((pushedCanon [twin 1 false, twin 2 true]).steps.map rawOfStep) =
      [projOf (twin 1 false), projOf (twin 2 true)] := by
    rw [parseSteps_rawOfSteps]
    rfl
  have hlast : lastNamed [projOf (twin 1 false), projOf (twin 2 true)] sharedId =
      some (projOf (twin 2 true)) := by
    simp [lastNamed, blockUuid_twin]
  have hstays := ((reproduces_projected_iff id hfree _ _ _ _).mp hkept).steps
  rw [hparsed] at hstays
  have hdanger := (hstays _ List.mem_cons_self).danger sharedId (blockUuid_twin 1 false) _ hlast
  have hnone : carried (currentMarks bornList) (projOf (twin 1 false)) = CarryOver.default := by
    rw [carried, blockUuid_twin]
    rfl
  rw [hnone] at hdanger
  exact absurd (hdanger rfl) (by decide)

end Setfork.PushBack
