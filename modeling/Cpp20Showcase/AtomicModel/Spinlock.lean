import Cpp20Showcase.Lib.Exclusion
import Cpp20Showcase.Lib.Headcount
import Cpp20Showcase.Lib.TransitionSystem

/-! `Spinlock` and its `Guard` from `07_atomic_model/atomic_model.h`, around the
critical section `++counter` of its test. The increment is not atomic: it is a load
and a store, and the section may also be left by an exception before, between or after them. -/

namespace Cpp20Showcase.AtomicModel.Spinlock
open Lib Lib.TransitionSystem

/-- Where a thread stands; `left` counts the iterations it has still to begin. -/
inductive Pc where
  | outside (left : Nat)
  | load (left : Nat)
  | store (left : Nat) (loaded : Nat)
  | unlock (left : Nat)
  deriving DecidableEq

def InSection : Pc → Prop
  | .outside _ => False
  | .load _ | .store _ _ | .unlock _ => True

/-- `performed` counts the increments each thread has stored. The counter is exact, and stands for an
`int` that does not overflow. -/
structure State (ι : Type) where
  flag : Bool
  counter : Nat
  performed : ι → Nat
  pc : ι → Pc

inductive Action (ι : Type) where
  | testAndSet (i : ι)
  | load (i : ι)
  | store (i : ι)
  | throw (i : ι) (leavesLoop : Bool)
  | clear (i : ι)

variable {ι : Type} [DecidableEq ι] {s t : State ι} {a : Action ι}

def initial (iterations : ι → Nat) : State ι where
  flag := false
  counter := 0
  performed := fun _ => 0
  pc := fun i => .outside (iterations i)

def State.at (s : State ι) (i : ι) (q : Pc) : State ι := { s with pc := Function.update s.pc i q }

/-- One attempt of `while (m_flag.test_and_set()) yield;`, the constructor of `Guard`. -/
def testAndSet (s : State ι) (i : ι) : Option (State ι) :=
  match s.pc i with
  | .outside (left + 1) => if s.flag then some s else some ({ s with flag := true }.at i (.load left))
  | _ => none

def load (s : State ι) (i : ι) : Option (State ι) :=
  match s.pc i with
  | .load left => some (s.at i (.store left s.counter))
  | _ => none

def store (s : State ι) (i : ι) : Option (State ι) :=
  match s.pc i with
  | .store left loaded => some
      ({ s with
        counter := loaded + 1
        performed := Function.update s.performed i (s.performed i + 1) }.at i (.unlock left))
  | _ => none

/-- An exception unwinds to the destructor of the guard; it is caught inside the loop
or ends it. -/
def throw (s : State ι) (i : ι) (leavesLoop : Bool) : Option (State ι) :=
  match s.pc i with
  | .load left => some (s.at i (.unlock (if leavesLoop then 0 else left)))
  | .store left _ => some (s.at i (.unlock (if leavesLoop then 0 else left)))
  | .unlock left => some (s.at i (.unlock (if leavesLoop then 0 else left)))
  | .outside _ => none

/-- `m_flag.clear()`, the destructor of `Guard`. -/
def clear (s : State ι) (i : ι) : Option (State ι) :=
  match s.pc i with
  | .unlock left => some ({ s with flag := false }.at i (.outside left))
  | _ => none

def step (s : State ι) : Action ι → Option (State ι)
  | .testAndSet i => testAndSet s i
  | .load i => load s i
  | .store i => store s i
  | .throw i leavesLoop => throw s i leavesLoop
  | .clear i => clear s i

def normalStep (s : State ι) : Action ι → Option (State ι)
  | .throw _ _ => none
  | a => step s a

inductive Move (s : State ι) : Action ι → State ι → Prop where
  | spin {i} (busy : s.flag = true) : Move s (.testAndSet i) s
  | enter {i left} (pc : s.pc i = .outside (left + 1)) (free : s.flag = false) :
      Move s (.testAndSet i) ({ s with flag := true }.at i (.load left))
  | load {i left} (pc : s.pc i = .load left) : Move s (.load i) (s.at i (.store left s.counter))
  | store {i left loaded} (pc : s.pc i = .store left loaded) :
      Move s (.store i)
        ({ s with
          counter := loaded + 1
          performed := Function.update s.performed i (s.performed i + 1) }.at i (.unlock left))
  | throw {i leavesLoop left} (here : InSection (s.pc i)) :
      Move s (.throw i leavesLoop) (s.at i (.unlock left))
  | clear {i left} (pc : s.pc i = .unlock left) :
      Move s (.clear i) ({ s with flag := false }.at i (.outside left))

theorem step_move (move : step s a = some t) : Move s a t := by
  cases a with
  | testAndSet i =>
    simp only [step, testAndSet] at move
    split at move
    next left pc =>
      split at move
      next busy => cases move; exact .spin busy
      next free => cases move; exact .enter pc (by simpa using free)
    next => cases move
  | load i =>
    simp only [step, Spinlock.load] at move
    split at move
    next left pc => cases move; exact .load pc
    next => cases move
  | store i =>
    simp only [step, Spinlock.store] at move
    split at move
    next left loaded pc => cases move; exact .store pc
    next => cases move
  | throw i leavesLoop =>
    simp only [step, Spinlock.throw] at move
    split at move
    next left pc => cases move; exact .throw (by rw [pc]; trivial)
    next left loaded pc => cases move; exact .throw (by rw [pc]; trivial)
    next left pc => cases move; exact .throw (by rw [pc]; trivial)
    next => cases move
  | clear i =>
    simp only [step, Spinlock.clear] at move
    split at move
    next left pc => cases move; exact .clear pc
    next => cases move

theorem normal_move (moved : normalStep s a = some t) :
    Move s a t ∧ ∀ i leavesLoop, a ≠ .throw i leavesLoop := by
  cases a with
  | throw i leavesLoop => cases moved
  | testAndSet i => exact ⟨step_move moved, by simp⟩
  | load i => exact ⟨step_move moved, by simp⟩
  | store i => exact ⟨step_move moved, by simp⟩
  | clear i => exact ⟨step_move moved, by simp⟩

variable [Fintype ι]

structure Inv (s : State ι) : Prop where
  owned : ∃ owner, s.flag = owner.isSome ∧ Owned InSection s.pc owner
  loaded : ∀ i left v, s.pc i = .store left v → v = s.counter
  counted : s.counter = ∑ i, s.performed i

omit [DecidableEq ι] in
theorem inv_initial (iterations : ι → Nat) : Inv (initial iterations) where
  owned := ⟨none, rfl, Owned.start (fun _ => id)⟩
  loaded := by
    intro i left v pc
    cases pc
  counted := by simp [initial]

theorem Inv.loaded_at {i : ι} {q : Pc} {counter : Nat} (holds : Inv s) (here : InSection (s.pc i))
    (own : ∀ left v, q = .store left v → v = counter) :
    ∀ j left v, Function.update s.pc i q j = .store left v → v = counter := by
  apply (Function.forall_update_iff s.pc fun _ q => ∀ left v, q = .store left v → v = counter).mpr
  constructor
  · exact own
  · intro j other left v pc
    obtain ⟨owner, -, owned⟩ := holds.owned
    exact absurd (owned.exclusive (by rw [pc]; trivial) here) other

theorem inv_move (holds : Inv s) (move : Move s a t) : Inv t := by
  obtain ⟨owner, flag, owned⟩ := holds.owned
  cases move with
  | spin => exact holds
  | @enter i left pc free =>
    rw [free] at flag
    obtain rfl : owner = none := by cases owner with | none => rfl | some j => cases flag
    constructor
    · exact ⟨some i, rfl, owned.enter trivial⟩
    · apply (Function.forall_update_iff s.pc fun _ q => ∀ left v, q = .store left v → v = s.counter).mpr
      exact ⟨nofun, fun j _ => holds.loaded j⟩
    · exact holds.counted
  | @load i left pc =>
    have here : InSection (s.pc i) := by rw [pc]; trivial
    constructor
    · exact ⟨owner, flag, owned.stay (iff_of_true trivial here)⟩
    · apply holds.loaded_at here
      intro left' v own
      cases own
      rfl
    · exact holds.counted
  | @store i left loaded pc =>
    have here : InSection (s.pc i) := by rw [pc]; trivial
    constructor
    · exact ⟨owner, flag, owned.stay (iff_of_true trivial here)⟩
    · apply holds.loaded_at here
      intro left' v impossible
      cases impossible
    · have current := holds.loaded i left loaded pc
      have counted := holds.counted
      have added : ∑ j, Function.update s.performed i (s.performed i + 1) j + s.performed i =
          ∑ j, s.performed j + (s.performed i + 1) :=
        sum_update id s.performed i (s.performed i + 1)
      simp only [State.at]
      omega
  | @throw i leavesLoop left here =>
    constructor
    · exact ⟨owner, flag, owned.stay (iff_of_true trivial here)⟩
    · apply holds.loaded_at here
      intro left' v impossible
      cases impossible
    · exact holds.counted
  | @clear i left pc =>
    have here : InSection (s.pc i) := by rw [pc]; trivial
    constructor
    · exact ⟨none, rfl, owned.leave here id⟩
    · apply holds.loaded_at here
      intro left' v impossible
      cases impossible
    · exact holds.counted

theorem inv_preserved : Preserved step (Inv (ι := ι)) :=
  fun _ _ _ holds move => inv_move holds (step_move move)

theorem normal_preserved : Preserved normalStep (Inv (ι := ι)) :=
  fun _ _ _ holds moved => inv_move holds (normal_move moved).1

def work : Pc → Nat
  | .outside left => 4 * left
  | .load left => 4 * left + 3
  | .store left _ => 4 * left + 2
  | .unlock left => 4 * left + 1

def Finished (s : State ι) : Prop := ∀ i, s.pc i = .outside 0

theorem work_at {i : ι} {q : Pc} (less : work q < work (s.pc i)) :
    ∑ j, work ((s.at i q).pc j) < ∑ j, work (s.pc j) := by
  have moved := sum_update work s.pc i q
  simp only [State.at]
  omega

theorem progress (holds : Inv s) (unfinished : ¬Finished s) :
    ∃ t, Reachable normalStep s t ∧ Inv t ∧ ∑ i, work (t.pc i) < ∑ i, work (s.pc i) := by
  suffices closer : ∃ a t, normalStep s a = some t ∧ ∑ i, work (t.pc i) < ∑ i, work (s.pc i) by
    obtain ⟨a, t, moved, less⟩ := closer
    exact ⟨t, .of_step moved, normal_preserved s a t holds moved, less⟩
  by_cases inside : ∃ i, InSection (s.pc i)
  · obtain ⟨i, here⟩ := inside
    cases pc : s.pc i with
    | outside left =>
      rw [pc] at here
      exact here.elim
    | load left =>
      have moved : normalStep s (.load i) = some (s.at i (.store left s.counter)) := by
        simp only [normalStep, step, Spinlock.load, pc]
      exact ⟨.load i, _, moved, work_at (by simp [pc, work])⟩
    | store left loaded =>
      refine ⟨.store i, _, by simp only [normalStep, step, Spinlock.store, pc]; rfl, ?_⟩
      exact work_at (by simp [pc, work])
    | unlock left =>
      refine ⟨.clear i, _, by simp only [normalStep, step, Spinlock.clear, pc]; rfl, ?_⟩
      exact work_at (by simp [pc, work])
  · have free : s.flag = false := by
      obtain ⟨owner, flag, owned⟩ := holds.owned
      rw [flag, owned.vacant fun i here => inside ⟨i, here⟩]
      rfl
    obtain ⟨i, waiting⟩ := not_forall.mp unfinished
    cases pc : s.pc i with
    | outside left =>
      cases left with
      | zero => exact absurd pc waiting
      | succ left =>
        refine ⟨.testAndSet i, _, by simp only [normalStep, step, testAndSet, pc, free]; rfl, ?_⟩
        exact work_at (by simp [pc, work]; omega)
    | _ => exact absurd ⟨i, by rw [pc]; trivial⟩ inside

def owed : Pc → Nat
  | .outside left | .unlock left => left
  | .load left | .store left _ => left + 1

omit [Fintype ι] in
theorem owed_at {iterations performed : ι → Nat} {pcs : ι → Pc} {i : ι} {q : Pc} {n : Nat}
    (counted : ∀ j, performed j + owed (pcs j) = iterations j) (own : n + owed q = iterations i) :
    ∀ j, Function.update performed i n j + owed (Function.update pcs i q j) = iterations j := by
  intro j
  by_cases same : j = i
  · subst same
    simpa only [Function.update_self] using own
  · simpa only [Function.update_of_ne same] using counted j

omit [Fintype ι] in
theorem owed_preserved (iterations : ι → Nat) :
    Preserved normalStep fun s : State ι => ∀ i, s.performed i + owed (s.pc i) = iterations i := by
  intro s a t counted moved
  have unchanged {i q} (same : owed q = owed (s.pc i)) :
      ∀ j, s.performed j + owed ((s.at i q).pc j) = iterations j := by
    have all := owed_at (i := i) (q := q) (n := s.performed i) counted (by rw [same, counted])
    rwa [Function.update_eq_self] at all
  obtain ⟨move, normal⟩ := normal_move moved
  cases move with
  | spin => exact counted
  | enter pc => exact unchanged (by rw [pc, owed, owed])
  | load pc => exact unchanged (by rw [pc, owed, owed])
  | @store i left loaded pc =>
    have before := counted i
    rw [pc, owed] at before
    exact owed_at counted (by rw [owed]; omega)
  | @throw i leavesLoop => exact absurd rfl (normal i leavesLoop)
  | clear pc => exact unchanged (by rw [pc, owed, owed])

/-- Without exceptions every increment of every thread reaches the counter. -/
theorem finished_counter (iterations : ι → Nat) (reached : Reachable normalStep (initial iterations) s)
    (finished : Finished s) : s.counter = ∑ i, iterations i := by
  have holds := reached.invariant normal_preserved (inv_initial iterations)
  have counted := reached.invariant (owed_preserved iterations) (fun i => by simp [initial, owed])
  rw [holds.counted]
  apply Finset.sum_congr rfl
  intro i _
  have done := counted i
  rwa [finished i, owed, Nat.add_zero] at done

/-- In every reachable state, for any number of threads and iterations: one thread at
most is in its section, the flag is set exactly when one is, the threads can be
scheduled to completion, and then the counter is the number of increments. -/
theorem mutual_exclusion (iterations : ι → Nat) (s : State ι)
    (reached : Reachable step (initial iterations) s) :
    (∀ i j, InSection (s.pc i) → InSection (s.pc j) → i = j) ∧
      (s.flag = true ↔ ∃ i, InSection (s.pc i)) ∧
      (∃ t, Reachable normalStep s t ∧ Finished t) ∧
      (Finished s → s.counter = ∑ i, s.performed i) := by
  have holds := reached.invariant inv_preserved (inv_initial iterations)
  obtain ⟨owner, flag, owned⟩ := holds.owned
  refine ⟨fun i j => owned.exclusive, flag ▸ owned.isSome_iff, ?_, fun _ => holds.counted⟩
  obtain ⟨t, reached', -, finished⟩ :=
    Reachable.of_rank (fun s => ∑ i, work (s.pc i)) (fun _ => progress) holds
  exact ⟨t, reached', finished⟩

/-- Thread `false` leaves its section by an exception between its load and its store. -/
theorem mutual_exclusion_throw :
    ∃ s : State Bool,
      run step (initial fun _ => 1) [.testAndSet false, .load false, .testAndSet true, .throw false true,
        .clear false, .testAndSet true, .load true, .store true] = some s ∧
      s.counter = 1 ∧ s.performed false = 0 ∧ s.performed true = 1 ∧
      (∀ i j, InSection (s.pc i) → InSection (s.pc j) → i = j) ∧
      (s.flag = true ↔ ∃ i, InSection (s.pc i)) ∧
      (∃ t, Reachable normalStep s t ∧ Finished t) ∧
      (Finished s → s.counter = ∑ i, s.performed i) := by
  have runs : run step (initial fun _ : Bool => 1) [.testAndSet false, .load false, .testAndSet true,
      .throw false true, .clear false, .testAndSet true, .load true, .store true] = some _ := rfl
  exact ⟨_, runs, rfl, rfl, rfl, mutual_exclusion (fun _ => 1) _ ⟨_, runs⟩⟩

end Cpp20Showcase.AtomicModel.Spinlock
