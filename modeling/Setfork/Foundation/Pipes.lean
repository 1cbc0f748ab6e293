/- Foundation: pipes
   digest: A process between three bounded pipes, fed and read at the same time, under any schedule. -/
import Mathlib.Data.List.Basic

set_option autoImplicit false
set_option relaxedAutoImplicit false

namespace Setfork.Foundation.Pipes

variable {α σ : Type}

/-- What a process does next: read one item or the end of its input, write to one of its outputs,
close its input, or end. -/
inductive Act (α σ : Type) where
  | read (next : Option α → σ)
  | out (a : α) (next : σ)
  | err (a : α) (next : σ)
  | hangUp (next : σ)
  | exit (code : ℕ)

variable (proc : σ → Act α σ)

/-- The process that has all of its input at hand and outputs without bounds: the number of its
steps, what it writes, and how it ends. -/
inductive Ends : σ → List α → ℕ → List α → List α → ℕ → Prop
  | exit {s : σ} {code : ℕ} (input : List α) : proc s = .exit code → Ends s input 1 [] [] code
  | read {s : σ} {next : Option α → σ} {a : α} {input o e : List α} {n code : ℕ} :
      proc s = .read next → Ends (next (some a)) input n o e code →
      Ends s (a :: input) (n + 1) o e code
  | eof {s : σ} {next : Option α → σ} {o e : List α} {n code : ℕ} :
      proc s = .read next → Ends (next none) [] n o e code → Ends s [] (n + 1) o e code
  | out {s next : σ} {a : α} {input o e : List α} {n code : ℕ} :
      proc s = .out a next → Ends next input n o e code → Ends s input (n + 1) (a :: o) e code
  | err {s next : σ} {a : α} {input o e : List α} {n code : ℕ} :
      proc s = .err a next → Ends next input n o e code → Ends s input (n + 1) o (a :: e) code
  | hangUp {s next : σ} {o e : List α} {n code : ℕ} (input : List α) :
      proc s = .hangUp next → Ends next [] n o e code → Ends s input (n + 1) o e code

/-- How much each pipe holds. -/
structure Room where
  input : ℕ
  out : ℕ
  err : ℕ

/-- The process, or how it has ended; whether it still has its input open; what is in its pipes; what
the writer still has to write, until it closes its end; and what has been read. -/
structure System (α σ : Type) where
  child : σ ⊕ ℕ
  listens : Bool
  input : List α
  pending : Option (List α)
  out : List α
  err : List α
  gotOut : List α
  gotErr : List α

def start (s : σ) (body : List α) : System α σ := ⟨.inl s, true, [], some body, [], [], [], []⟩

/-- Whose turn it is: the writer, the process, or the reader at one of the outputs. -/
inductive Turn where
  | write
  | child
  | takeOut
  | takeErr
deriving DecidableEq

variable (room : Room)

def childTurn (sys : System α σ) (s : σ) : Option (System α σ) :=
  match proc s with
  | .read next =>
    match sys.listens, sys.input, sys.pending with
    | false, _, _ => some { sys with child := .inl (next none) }
    | true, a :: rest, _ => some { sys with child := .inl (next (some a)), input := rest }
    | true, [], none => some { sys with child := .inl (next none) }
    | true, [], some _ => none
  | .out a next =>
    if sys.out.length < room.out then some { sys with child := .inl next, out := sys.out ++ [a] }
    else none
  | .err a next =>
    if sys.err.length < room.err then some { sys with child := .inl next, err := sys.err ++ [a] }
    else none
  | .hangUp next => some { sys with child := .inl next, listens := false, input := [] }
  | .exit code => some { sys with child := .inr code, listens := false, input := [] }

/-- The writer: it closes its end after the last item, or when nobody listens any more. -/
def writeTurn (sys : System α σ) : Option (System α σ) :=
  match sys.pending with
  | none => none
  | some [] => some { sys with pending := none }
  | some (a :: rest) =>
    if !sys.listens then some { sys with pending := none }
    else if sys.input.length < room.input then
      some { sys with input := sys.input ++ [a], pending := some rest }
    else none

/-- One turn, when it is possible. -/
def turn (t : Turn) (sys : System α σ) : Option (System α σ) :=
  match t with
  | .write => writeTurn room sys
  | .child =>
    match sys.child with
    | .inl s => childTurn proc room sys s
    | .inr _ => none
  | .takeOut =>
    match sys.out with
    | [] => none
    | a :: rest => some { sys with out := rest, gotOut := sys.gotOut ++ [a] }
  | .takeErr =>
    match sys.err with
    | [] => none
    | a :: rest => some { sys with err := rest, gotErr := sys.gotErr ++ [a] }

/-- A schedule of possible turns. -/
def run (ts : List Turn) (sys : System α σ) : Option (System α σ) :=
  ts.foldlM (fun sys t => turn proc room t sys) sys

/-- The process has ended, its outputs are read to their ends, and the writer is gone. -/
def Finished (sys : System α σ) (code : ℕ) : Prop :=
  sys.child = .inr code ∧ sys.out = [] ∧ sys.err = [] ∧ sys.pending = none

def left (sys : System α σ) : List α := if sys.listens then sys.input ++ sys.pending.getD [] else []

def Rest (sys : System α σ) (n : ℕ) (o e : List α) (code : ℕ) : Prop :=
  match sys.child with
  | .inl s => Ends proc s (left sys) n o e code
  | .inr c => c = code ∧ n = 0 ∧ o = [] ∧ e = [] ∧ sys.listens = false

/-- What was read, what is on its way and what is still to come make up the outputs. -/
def Inv (sys : System α σ) (n : ℕ) (o e : List α) (code : ℕ) : Prop :=
  ∃ o' e', Rest proc sys n o' e' code ∧ sys.gotOut ++ sys.out ++ o' = o ∧
    sys.gotErr ++ sys.err ++ e' = e

/-- How many turns are left at most: an act of the process can put an item into an output, which the
reader has to take from there. -/
def work (sys : System α σ) (n : ℕ) : ℕ :=
  2 * n + sys.out.length + sys.err.length + (sys.pending.map fun l => l.length + 1).getD 0

variable {proc room} {sys sys' : System α σ} {n code : ℕ} {o e body : List α} {s : σ}

theorem inv_start (h : Ends proc s body n o e code) : Inv proc (start s body) n o e code :=
  ⟨o, e, h, rfl, rfl⟩

theorem work_start : work (start s body) n = 2 * n + body.length + 1 := by
  simp [work, start, Nat.add_assoc]

theorem inv_writeTurn (h : Inv proc sys n o e code) (hturn : writeTurn room sys = some sys') :
    Inv proc sys' n o e code ∧ work sys' n < work sys n := by
  obtain ⟨o', e', hrest, hout, herr⟩ := h
  unfold writeTurn at hturn
  have hkeep : ∀ next : System α σ, next.child = sys.child → next.listens = sys.listens →
      left next = left sys → next.out = sys.out → next.err = sys.err → next.gotOut = sys.gotOut →
      next.gotErr = sys.gotErr → Inv proc next n o e code := by
    intro next hchild hlistens hleft ho he hgo hge
    refine ⟨o', e', ?_, by rw [ho, hgo, hout], by rw [he, hge, herr]⟩
    unfold Rest at hrest ⊢
    rw [hchild, hlistens, hleft]
    exact hrest
  cases hpending : sys.pending with
  | none =>
    rw [hpending] at hturn
    cases hturn
  | some l =>
    rw [hpending] at hturn
    cases l with
    | nil =>
      obtain rfl := Option.some.inj hturn
      refine ⟨hkeep _ rfl rfl ?_ rfl rfl rfl rfl, ?_⟩
      · simp [left, hpending]
      · simp [work, hpending]
    | cons a rest =>
      dsimp only at hturn
      split_ifs at hturn with hlistens hroom
      · obtain rfl := Option.some.inj hturn
        have hdeaf : sys.listens = false := by simpa using hlistens
        refine ⟨hkeep _ rfl rfl ?_ rfl rfl rfl rfl, ?_⟩
        · simp [left, hdeaf]
        · simp [work, hpending]
      · obtain rfl := Option.some.inj hturn
        refine ⟨hkeep _ rfl rfl ?_ rfl rfl rfl rfl, ?_⟩
        · simp [left, hpending]
        · simp [work, hpending]

theorem inv_childTurn (h : Inv proc sys n o e code) (hchild : sys.child = .inl s)
    (hturn : childTurn proc room sys s = some sys') :
    ∃ n', Inv proc sys' n' o e code ∧ work sys' n' < work sys n := by
  obtain ⟨o', e', hrest, hout, herr⟩ := h
  unfold Rest at hrest
  rw [hchild] at hrest
  dsimp only at hrest
  generalize hleft : left sys = input at hrest
  unfold childTurn at hturn
  cases hrest with
  | exit input hact =>
    rw [hact] at hturn
    obtain rfl := Option.some.inj hturn
    exact ⟨0, ⟨[], [], ⟨rfl, rfl, rfl, rfl, rfl⟩, hout, herr⟩, by simp [work]⟩
  | @read _ next a input _ _ m _ hact hends =>
    rw [hact] at hturn
    cases hlistens : sys.listens with
    | false => simp [left, hlistens] at hleft
    | true =>
      cases hinput : sys.input with
      | nil =>
        cases hpending : sys.pending with
        | none => simp [left, hlistens, hinput, hpending] at hleft
        | some l => simp [hlistens, hinput, hpending] at hturn
      | cons b rest =>
        simp only [left, hlistens, hinput, if_true, List.cons_append] at hleft
        obtain ⟨rfl, rfl⟩ := List.cons.inj hleft
        simp only [hlistens, hinput] at hturn
        obtain rfl := Option.some.inj hturn
        refine ⟨m, ⟨o', e', ?_, hout, herr⟩, ?_⟩
        · simpa [Rest, left, hlistens] using hends
        · simp only [work]
          omega
  | @eof _ next _ _ m _ hact hends =>
    rw [hact] at hturn
    have hnext : sys' = { sys with child := .inl (next none) } := by
      obtain ⟨child, listens, input, pending, out, err, gotOut, gotErr⟩ := sys
      cases listens with
      | false => exact (Option.some.inj hturn).symm
      | true =>
        cases input with
        | cons b rest => simp [left] at hleft
        | nil =>
          cases pending with
          | none => exact (Option.some.inj hturn).symm
          | some l => cases hturn
    subst hnext
    refine ⟨m, ⟨o', e', ?_, hout, herr⟩, ?_⟩
    · rw [← hleft] at hends
      exact hends
    · simp only [work]
      omega
  | @out _ next a _ oRest _ m _ hact hends =>
    rw [hact] at hturn
    dsimp only at hturn
    split_ifs at hturn with hroom
    obtain rfl := Option.some.inj hturn
    refine ⟨m, ⟨oRest, e', ?_, ?_, herr⟩, ?_⟩
    · rw [← hleft] at hends
      exact hends
    · rw [← hout]
      simp
    · simp only [work, List.length_append, List.length_singleton]
      omega
  | @err _ next a _ _ eRest m _ hact hends =>
    rw [hact] at hturn
    dsimp only at hturn
    split_ifs at hturn with hroom
    obtain rfl := Option.some.inj hturn
    refine ⟨m, ⟨o', eRest, ?_, hout, ?_⟩, ?_⟩
    · rw [← hleft] at hends
      exact hends
    · rw [← herr]
      simp
    · simp only [work, List.length_append, List.length_singleton]
      omega
  | @hangUp _ next _ _ m _ input hact hends =>
    rw [hact] at hturn
    obtain rfl := Option.some.inj hturn
    refine ⟨m, ⟨o', e', hends, hout, herr⟩, ?_⟩
    simp only [work]
    omega

theorem inv_turn {t : Turn} (h : Inv proc sys n o e code) (hturn : turn proc room t sys = some sys') :
    ∃ n', Inv proc sys' n' o e code ∧ work sys' n' < work sys n := by
  cases t with
  | write => exact ⟨n, inv_writeTurn h hturn⟩
  | child =>
    cases hchild : sys.child with
    | inl s =>
      simp only [turn, hchild] at hturn
      exact inv_childTurn h hchild hturn
    | inr c => simp [turn, hchild] at hturn
  | takeOut =>
    obtain ⟨o', e', hrest, hout, herr⟩ := h
    cases hitems : sys.out with
    | nil => simp [turn, hitems] at hturn
    | cons a rest =>
      simp only [turn, hitems] at hturn
      obtain rfl := Option.some.inj hturn
      refine ⟨n, ⟨o', e', hrest, ?_, herr⟩, ?_⟩
      · rw [← hout, hitems]
        simp
      · simp only [work, hitems, List.length_cons]
        omega
  | takeErr =>
    obtain ⟨o', e', hrest, hout, herr⟩ := h
    cases hitems : sys.err with
    | nil => simp [turn, hitems] at hturn
    | cons a rest =>
      simp only [turn, hitems] at hturn
      obtain rfl := Option.some.inj hturn
      refine ⟨n, ⟨o', e', hrest, hout, ?_⟩, ?_⟩
      · rw [← herr, hitems]
        simp
      · simp only [work, hitems, List.length_cons]
        omega

/-- A schedule keeps what a turn keeps, and every turn of it takes something off the work. -/
theorem inv_run (ts : List Turn) (h : Inv proc sys n o e code)
    (hrun : run proc room ts sys = some sys') :
    ∃ n', Inv proc sys' n' o e code ∧ work sys' n' + ts.length ≤ work sys n := by
  induction ts generalizing sys n with
  | nil =>
    obtain rfl := Option.some.inj hrun
    exact ⟨n, h, Nat.le_refl _⟩
  | cons t ts ih =>
    rw [run, List.foldlM_cons] at hrun
    obtain ⟨next, hturn, hrest⟩ := Option.bind_eq_some_iff.mp hrun
    obtain ⟨m, hnext, hless⟩ := inv_turn h hturn
    obtain ⟨n', hlast, hle⟩ := ih hnext hrest
    refine ⟨n', hlast, ?_⟩
    rw [List.length_cons]
    omega

theorem possible_write {l : List α} (hinput : 0 < room.input) (hpending : sys.pending = some l)
    (hempty : sys.listens = true → sys.input = []) : (turn proc room .write sys).isSome = true := by
  cases l with
  | nil => simp only [turn, writeTurn, hpending, Option.isSome_some]
  | cons a rest =>
    cases hlistens : sys.listens with
    | false => simp [turn, writeTurn, hpending, hlistens]
    | true => simp [turn, writeTurn, hpending, hlistens, hempty hlistens, hinput]

/-- As long as the system is not finished, somebody can take a turn. -/
theorem exists_turn (hinput : 0 < room.input) (hout : 0 < room.out) (herr : 0 < room.err)
    (h : Inv proc sys n o e code) (hopen : ¬ Finished sys code) :
    ∃ t, (turn proc room t sys).isSome = true := by
  obtain ⟨o', e', hrest, -, -⟩ := h
  cases hitems : sys.out with
  | cons a rest => exact ⟨.takeOut, by simp only [turn, hitems, Option.isSome_some]⟩
  | nil =>
    cases herrors : sys.err with
    | cons a rest => exact ⟨.takeErr, by simp only [turn, herrors, Option.isSome_some]⟩
    | nil =>
      -- nothing is there to be read, so the outputs have room
      cases hchild : sys.child with
      | inr c =>
        simp only [Rest, hchild] at hrest
        obtain ⟨rfl, -, -, -, hdeaf⟩ := hrest
        cases hpending : sys.pending with
        | none => exact absurd ⟨hchild, hitems, herrors, hpending⟩ hopen
        | some l =>
          refine ⟨.write, possible_write hinput hpending fun hlistens => ?_⟩
          rw [hdeaf] at hlistens
          cases hlistens
      | inl s =>
        have hact : (childTurn proc room sys s).isSome = true →
            ∃ t, (turn proc room t sys).isSome = true :=
          fun hturn => ⟨.child, by simpa only [turn, hchild] using hturn⟩
        cases hproc : proc s with
        | out a next => exact hact (by simp [childTurn, hproc, hitems, hout])
        | err a next => exact hact (by simp [childTurn, hproc, herrors, herr])
        | hangUp next => exact hact (by simp [childTurn, hproc])
        | exit c => exact hact (by simp [childTurn, hproc])
        | read next =>
          cases hlistens : sys.listens with
          | false => exact hact (by simp [childTurn, hproc, hlistens])
          | true =>
            cases hread : sys.input with
            | cons a rest => exact hact (by simp [childTurn, hproc, hlistens, hread])
            | nil =>
              cases hpending : sys.pending with
              | none => exact hact (by simp [childTurn, hproc, hlistens, hread, hpending])
              | some l => exact ⟨.write, possible_write hinput hpending fun _ => hread⟩

theorem outputs_of_finished {c : ℕ} (h : Inv proc sys n o e code) (hfinished : Finished sys c) :
    c = code ∧ sys.gotOut = o ∧ sys.gotErr = e := by
  obtain ⟨o', e', hrest, hout, herr⟩ := h
  obtain ⟨hchild, hitems, herrors, -⟩ := hfinished
  simp only [Rest, hchild] at hrest
  obtain ⟨rfl, -, rfl, rfl, -⟩ := hrest
  rw [hitems, List.append_nil, List.append_nil] at hout
  rw [herrors, List.append_nil, List.append_nil] at herr
  exact ⟨rfl, hout, herr⟩

theorem exists_finished (hinput : 0 < room.input) (hout : 0 < room.out) (herr : 0 < room.err)
    (h : Inv proc sys n o e code) :
    ∃ ts sys', run proc room ts sys = some sys' ∧ Finished sys' code := by
  induction hwork : work sys n using Nat.strongRecOn generalizing sys n with
  | ind w ih =>
    by_cases hopen : Finished sys code
    · exact ⟨[], sys, rfl, hopen⟩
    · obtain ⟨t, hpossible⟩ := exists_turn hinput hout herr h hopen
      obtain ⟨next, hturn⟩ := Option.isSome_iff_exists.mp hpossible
      obtain ⟨m, hnext, hless⟩ := inv_turn h hturn
      obtain ⟨ts, last, hrun, hfinished⟩ := ih _ (hwork ▸ hless) hnext rfl
      refine ⟨t :: ts, last, ?_, hfinished⟩
      rw [run, List.foldlM_cons, hturn]
      exact hrun

end Setfork.Foundation.Pipes
