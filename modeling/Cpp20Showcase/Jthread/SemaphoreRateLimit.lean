import Cpp20Showcase.Lib.ForkJoin
import Cpp20Showcase.Lib.Headcount
import Cpp20Showcase.Lib.TransitionSystem

/-! `semaphore_rate_limit` from `05_jthread/jthread_demo.h`: `count` workers, each with its
`acquire`, its `processed.fetch_add(1)` and its `release`, started and joined by the caller. -/

namespace Cpp20Showcase.Jthread.SemaphoreRateLimit
open Lib Lib.TransitionSystem

inductive Pc where
  | absent
  | acquire
  | fetchAdd
  | release
  | finished
  deriving DecidableEq

def life : ForkJoin.Life Pc where
  absent := .absent
  start := .acquire
  finished := .finished
  start_ne := by decide

/-- The `LeastMaxValue` of `std::counting_semaphore<128>`. -/
def leastMaxValue : Nat := 128

structure State (count : Nat) where
  sem : Nat
  processed : Nat
  pc : Fin count → Pc
  owner : ForkJoin.Owner Nat

inductive Action (count : Nat) where
  | acquire (i : Fin count)
  | fetchAdd (i : Fin count)
  | release (i : Fin count)
  | owner

variable {count max_concurrent : Nat} {s t : State count} {a : Action count}

def initial (count max_concurrent : Nat) : State count where
  sem := max_concurrent
  processed := 0
  pc := fun _ => life.absent
  owner := .create 0

def State.at (s : State count) (i : Fin count) (q : Pc) : State count :=
  { s with pc := Function.update s.pc i q }

/-- `sem.acquire()` blocks at zero. -/
def acquire (s : State count) (i : Fin count) : Option (State count) :=
  match s.pc i with
  | .acquire => if s.sem = 0 then none else some ({ s with sem := s.sem - 1 }.at i .fetchAdd)
  | _ => none

def fetchAdd (s : State count) (i : Fin count) : Option (State count) :=
  match s.pc i with
  | .fetchAdd => some ({ s with processed := s.processed + 1 }.at i .release)
  | _ => none

/-- `sem.release()` is defined only below the semaphore's maximum. -/
def release (s : State count) (i : Fin count) : Option (State count) :=
  match s.pc i with
  | .release => if s.sem < leastMaxValue then some ({ s with sem := s.sem + 1 }.at i .finished) else none
  | _ => none

/-- The caller starts a worker, joins one, or returns `processed.load()`. -/
def ownerStep (s : State count) : Option (State count) :=
  (ForkJoin.step life s.processed s.pc s.owner).map fun (owner, pc) => { s with owner := owner, pc := pc }

def step (s : State count) : Action count → Option (State count)
  | .acquire i => acquire s i
  | .fetchAdd i => fetchAdd s i
  | .release i => release s i
  | .owner => ownerStep s

inductive Move (s : State count) : Action count → State count → Prop where
  | acquire {i} (pc : s.pc i = .acquire) (permit : 0 < s.sem) :
      Move s (.acquire i) ({ s with sem := s.sem - 1 }.at i .fetchAdd)
  | fetchAdd {i} (pc : s.pc i = .fetchAdd) :
      Move s (.fetchAdd i) ({ s with processed := s.processed + 1 }.at i .release)
  | release {i} (pc : s.pc i = .release) :
      Move s (.release i) ({ s with sem := s.sem + 1 }.at i .finished)
  | owner {owner' pc'} (move : ForkJoin.Move life s.processed s.pc s.owner owner' pc') :
      Move s .owner { s with owner := owner', pc := pc' }

theorem step_move (moved : step s a = some t) : Move s a t := by
  cases a with
  | acquire i =>
    simp only [step, acquire] at moved
    split at moved
    next pc =>
      split at moved
      next => cases moved
      next permit => cases moved; exact .acquire pc (Nat.pos_of_ne_zero permit)
    next => cases moved
  | fetchAdd i =>
    simp only [step, SemaphoreRateLimit.fetchAdd] at moved
    split at moved
    next pc => cases moved; exact .fetchAdd pc
    next => cases moved
  | release i =>
    simp only [step, SemaphoreRateLimit.release] at moved
    split at moved
    next pc =>
      split at moved
      next => cases moved; exact .release pc
      next => cases moved
    next => cases moved
  | owner =>
    simp only [step, ownerStep, Option.map_eq_some_iff] at moved
    obtain ⟨⟨owner', pc'⟩, moved, rfl⟩ := moved
    exact .owner (ForkJoin.step_move moved)

def InFlight (pc : Pc) : Prop := pc = .fetchAdd ∨ pc = .release

def Counted (pc : Pc) : Prop := pc = .release ∨ pc = .finished

instance : DecidablePred InFlight := fun pc => inferInstanceAs (Decidable (pc = .fetchAdd ∨ pc = .release))

instance : DecidablePred Counted := fun pc => inferInstanceAs (Decidable (pc = .release ∨ pc = .finished))

structure Inv (max_concurrent : Nat) (s : State count) : Prop where
  sound : s.owner.Sound life s.pc
  balance : headcount InFlight s.pc + s.sem = max_concurrent
  counted : s.processed = headcount Counted s.pc
  result : ∀ v, s.owner = .returned v → v = count

theorem inv_initial : Inv max_concurrent (initial count max_concurrent) where
  sound := ForkJoin.sound_start
  balance := by
    have nobody : headcount InFlight (initial count max_concurrent).pc = 0 :=
      headcount_eq_zero_iff.mpr fun _ => show ¬InFlight .absent by decide
    rw [nobody, Nat.zero_add, initial]
  counted := by
    symm
    exact headcount_eq_zero_iff.mpr fun _ => show ¬Counted .absent by decide
  result := by
    intro v impossible
    cases impossible

theorem inv_owner {owner' : ForkJoin.Owner Nat} {pc' : Fin count → Pc} (holds : Inv max_concurrent s)
    (move : ForkJoin.Move life s.processed s.pc s.owner owner' pc') :
    Inv max_concurrent { s with owner := owner', pc := pc' } := by
  constructor
  · exact move.sound holds.sound
  · rw [← holds.balance]
    exact congrArg (· + s.sem) (move.headcount_eq holds.sound (by decide))
  · exact holds.counted.trans (move.headcount_eq holds.sound (by decide)).symm
  · intro v returned
    change owner' = .returned v at returned
    subst returned
    obtain ⟨rfl, -, all⟩ := move.returned holds.sound
    have full : headcount Counted s.pc = Fintype.card (Fin count) :=
      headcount_eq_card_iff.mpr fun i => .inr (all i)
    rw [holds.counted, full, Fintype.card_fin]

theorem inv_move (holds : Inv max_concurrent s) (move : Move s a t) : Inv max_concurrent t := by
  cases move with
  | @acquire i pc permit =>
    constructor
    · exact holds.sound.move pc (by decide) (by decide) (by decide)
    · have taken : headcount InFlight (Function.update s.pc i .fetchAdd) = headcount InFlight s.pc + 1 :=
        headcount_enter (by rw [pc]; decide) (by decide)
      have balance := holds.balance
      simp only [State.at, taken]
      omega
    · exact holds.counted.trans (headcount_stay (by rw [pc]; decide)).symm
    · exact holds.result
  | @fetchAdd i pc =>
    constructor
    · exact holds.sound.move pc (by decide) (by decide) (by decide)
    · rw [← holds.balance]
      exact congrArg (· + s.sem) (headcount_stay (by rw [pc]; decide))
    · have added : headcount Counted (Function.update s.pc i .release) = headcount Counted s.pc + 1 :=
        headcount_enter (by rw [pc]; decide) (by decide)
      simp only [State.at, added, holds.counted]
    · exact holds.result
  | @release i pc =>
    constructor
    · exact holds.sound.move pc (by decide) (by decide) (by decide)
    · have given : headcount InFlight (Function.update s.pc i .finished) + 1 = headcount InFlight s.pc :=
        headcount_leave (by rw [pc]; decide) (by decide)
      have balance := holds.balance
      simp only [State.at]
      omega
    · exact holds.counted.trans (headcount_stay (by rw [pc]; decide)).symm
    · exact holds.result
  | owner move => exact inv_owner holds move

theorem inv_preserved : Preserved step (fun s : State count => Inv max_concurrent s) :=
  fun _ _ _ holds moved => inv_move holds (step_move moved)

def work : Pc → Nat
  | .absent | .acquire => 3
  | .fetchAdd => 2
  | .release => 1
  | .finished => 0

def rank (s : State count) : Nat := s.owner.work count + ∑ i, work (s.pc i)

theorem rank_at {i : Fin count} {q : Pc} {sem processed : Nat} (less : work q < work (s.pc i)) :
    rank ({ s with sem := sem, processed := processed }.at i q) < rank s := by
  have moved := sum_update work s.pc i q
  simp only [rank, State.at]
  omega

theorem rank_lt (holds : Inv max_concurrent s) (move : Move s a t) : rank t < rank s := by
  cases move with
  | acquire pc => exact rank_at (by rw [pc]; decide)
  | fetchAdd pc => exact rank_at (by rw [pc]; decide)
  | release pc => exact rank_at (by rw [pc]; decide)
  | owner move => exact move.total_lt holds.sound le_rfl

theorem worker_enabled {i : Fin count} (positive : 1 ≤ max_concurrent) (bounded : max_concurrent ≤ leastMaxValue)
    (holds : Inv max_concurrent s) (present : s.pc i ≠ .absent) (running : s.pc i ≠ .finished) :
    ∃ a t, a ≠ .owner ∧ step s a = some t := by
  have balance := holds.balance
  have inFlight {j} (here : InFlight (s.pc j)) : ∃ a t, a ≠ .owner ∧ step s a = some t := by
    cases pc : s.pc j with
    | fetchAdd => exact ⟨.fetchAdd j, _, by simp, by simp only [step, SemaphoreRateLimit.fetchAdd, pc]; rfl⟩
    | release =>
      have one : headcount InFlight s.pc ≠ 0 := fun none => headcount_eq_zero_iff.mp none j here
      have room : s.sem < leastMaxValue := by omega
      exact ⟨.release j, _, by simp, by simp only [step, SemaphoreRateLimit.release, pc, room, ↓reduceIte]; rfl⟩
    | _ =>
      rw [pc] at here
      exact absurd here (by decide)
  cases pc : s.pc i with
  | absent => exact absurd pc present
  | acquire =>
    by_cases empty : s.sem = 0
    · have some : headcount InFlight s.pc ≠ 0 := by omega
      obtain ⟨j, here⟩ := not_forall.mp (headcount_eq_zero_iff.not.mp some)
      exact inFlight (not_not.mp here)
    · exact ⟨.acquire i, _, by simp, by simp only [step, acquire, pc, empty, ↓reduceIte]; rfl⟩
  | fetchAdd => exact inFlight (j := i) (by rw [pc]; decide)
  | release => exact inFlight (j := i) (by rw [pc]; decide)
  | finished => exact absurd pc running

theorem enabled (positive : 1 ≤ max_concurrent) (bounded : max_concurrent ≤ leastMaxValue)
    (holds : Inv max_concurrent s) (unreturned : ∀ v, s.owner ≠ .returned v) : ∃ a t, step s a = some t := by
  obtain ⟨owner', pc', moved⟩ | ⟨started, i, running⟩ :=
    holds.sound.enabled s.processed unreturned
  · exact ⟨.owner, _, by rw [step, ownerStep, moved]; rfl⟩
  · obtain ⟨a, t, -, moved⟩ := worker_enabled positive bounded holds (started i) running
    exact ⟨a, t, moved⟩

theorem returns (positive : 1 ≤ max_concurrent) (bounded : max_concurrent ≤ leastMaxValue)
    (holds : Inv max_concurrent s) : ∃ t v, Reachable step s t ∧ t.owner = .returned v := by
  have short : ∀ s : State count, Inv max_concurrent s → (¬∃ v, s.owner = .returned v) →
      ∃ a t, step s a = some t :=
    fun s holds unreturned => enabled positive bounded holds fun v returned => unreturned ⟨v, returned⟩
  obtain ⟨t, reached, -, v, returned⟩ := Reachable.of_decreasing rank inv_preserved
    (fun _ _ _ holds moved => rank_lt holds (step_move moved)) short holds
  exact ⟨t, v, reached, returned⟩

/-- In every reachable state, for any number of workers and of permits the semaphore
can hold: the permits out and those left add up, `release` stays in range, no unfinished
worker is stuck, and the call can return, with nothing but `count`. -/
theorem permits_balanced (count max_concurrent : Nat) (positive : 1 ≤ max_concurrent)
    (bounded : max_concurrent ≤ leastMaxValue) (s : State count)
    (reached : Reachable step (initial count max_concurrent) s) :
    headcount InFlight s.pc + s.sem = max_concurrent ∧
      (∀ i, s.pc i = .release → ∃ t, step s (.release i) = some t ∧ t.sem ≤ max_concurrent) ∧
      ((∃ i, s.pc i ≠ .finished) → ∃ a t, step s a = some t) ∧
      (∀ i, s.pc i ≠ .absent → s.pc i ≠ .finished → ∃ a t, a ≠ .owner ∧ step s a = some t) ∧
      s.processed ≤ count ∧
      (∃ t v, Reachable step s t ∧ t.owner = .returned v) ∧
      ∀ v, s.owner = .returned v → v = count ∧ ∀ i, s.pc i = .finished := by
  have holds := reached.invariant inv_preserved inv_initial
  have balance := holds.balance
  have workers := fun i => worker_enabled (i := i) positive bounded holds
  refine ⟨balance, fun i pc => ?_, fun unfinished => ?_, workers, ?_, returns positive bounded holds, ?_⟩
  · have one : headcount InFlight s.pc ≠ 0 := fun none => headcount_eq_zero_iff.mp none i (by rw [pc]; decide)
    have room : s.sem < leastMaxValue := by omega
    refine ⟨{ s with sem := s.sem + 1 }.at i .finished, ?_, ?_⟩
    · simp only [step, SemaphoreRateLimit.release, pc, room, ↓reduceIte]
    · simp only [State.at]
      omega
  · obtain ⟨i, running⟩ := unfinished
    apply enabled positive bounded holds
    exact fun v returned => running (holds.sound.all_finished returned i)
  · rw [holds.counted]
    exact headcount_le.trans_eq (Fintype.card_fin count)
  · intro v returned
    exact ⟨holds.result v returned, holds.sound.all_finished returned⟩

/-- Worker 1 waits for the one permit, which worker 0 still has after its `fetch_add`. -/
theorem permits_balanced_waiting :
    ∃ s : State 2,
      run step (initial 2 1) [.owner, .owner, .acquire 0, .fetchAdd 0] = some s ∧
      step s (.acquire 1) = none ∧ headcount InFlight s.pc + s.sem = 1 ∧
      (∃ a t, a ≠ .owner ∧ step s a = some t) ∧ ∃ t v, Reachable step s t ∧ t.owner = .returned v := by
  have runs : run step (initial 2 1) [.owner, .owner, .acquire 0, .fetchAdd 0] = some _ := rfl
  obtain ⟨balance, -, -, workers, -, finishes, -⟩ :=
    permits_balanced 2 1 (by decide) (by decide) _ ⟨_, runs⟩
  exact ⟨_, runs, rfl, balance, workers 1 (by decide) (by decide), finishes⟩

end Cpp20Showcase.Jthread.SemaphoreRateLimit
