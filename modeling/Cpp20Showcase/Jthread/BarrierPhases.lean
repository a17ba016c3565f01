import Cpp20Showcase.Lib.Exclusion
import Cpp20Showcase.Lib.ForkJoin
import Cpp20Showcase.Lib.Headcount
import Cpp20Showcase.Lib.TransitionSystem

/-! `barrier_phases` from `05_jthread/jthread_demo.h`. Every thread arrives at the barrier,
waits for the others, and then counts the phase it has left with a load and a store under
the mutex, while faster threads may already be waiting at the next barrier. -/

namespace Cpp20Showcase.Jthread.BarrierPhases
open Lib Lib.TransitionSystem

inductive Pc where
  | absent
  | arrive (p : Nat)
  | wait (p : Nat) (token : Nat)
  | lock (p : Nat)
  | load (p : Nat)
  | store (p : Nat) (loaded : Nat)
  | unlock (p : Nat)
  | finished
  deriving DecidableEq

/-- The test of `for (p = 0; p < n_phases; ++p)`. -/
def loopTest (n_phases p : Nat) : Pc := if p < n_phases then .arrive p else .finished

theorem loopTest_ne_absent {n_phases p : Nat} : loopTest n_phases p ≠ .absent := by
  rw [loopTest]
  split <;> simp

def life (n_phases : Nat) : ForkJoin.Life Pc where
  absent := .absent
  start := loopTest n_phases 0
  finished := .finished
  start_ne := loopTest_ne_absent

/-- `generation` counts the phases that the barrier has released. -/
structure Barrier where
  arrived : Nat
  generation : Nat

/-- The last of `n_threads` arrivals releases the phase. -/
def Barrier.arrive (n_threads : Nat) (b : Barrier) : Barrier :=
  if b.arrived + 1 = n_threads then { arrived := 0, generation := b.generation + 1 }
  else { b with arrived := b.arrived + 1 }

structure State (n_threads : Nat) where
  sync : Barrier
  mtx : Option (Fin n_threads)
  phase_count : List Nat
  pc : Fin n_threads → Pc
  owner : ForkJoin.Owner (List Nat)

inductive Action (n_threads : Nat) where
  | arrive (i : Fin n_threads)
  | wait (i : Fin n_threads)
  | lock (i : Fin n_threads)
  | load (i : Fin n_threads)
  | store (i : Fin n_threads)
  | unlock (i : Fin n_threads)
  | owner

variable {n_threads n_phases : Nat} {s t : State n_threads} {a : Action n_threads}

def initial (n_threads n_phases : Nat) : State n_threads where
  sync := { arrived := 0, generation := 0 }
  mtx := none
  phase_count := List.replicate n_phases 0
  pc := fun _ => (life n_phases).absent
  owner := .create 0

def State.at (s : State n_threads) (i : Fin n_threads) (q : Pc) : State n_threads :=
  { s with pc := Function.update s.pc i q }

/-- The first half of `arrive_and_wait`; its token is the phase it arrived in. -/
def arrive (s : State n_threads) (i : Fin n_threads) : Option (State n_threads) :=
  match s.pc i with
  | .arrive p => some ({ s with sync := s.sync.arrive n_threads }.at i (.wait p s.sync.generation))
  | _ => none

def wait (s : State n_threads) (i : Fin n_threads) : Option (State n_threads) :=
  match s.pc i with
  | .wait p token => if s.sync.generation = token then none else some (s.at i (.lock p))
  | _ => none

/-- The constructor of `std::lock_guard`. -/
def lock (s : State n_threads) (i : Fin n_threads) : Option (State n_threads) :=
  match s.pc i with
  | .lock p => if s.mtx = none then some ({ s with mtx := some i }.at i (.load p)) else none
  | _ => none

def load (s : State n_threads) (i : Fin n_threads) : Option (State n_threads) :=
  match s.pc i with
  | .load p => s.phase_count[p]?.map fun loaded => s.at i (.store p loaded)
  | _ => none

def store (s : State n_threads) (i : Fin n_threads) : Option (State n_threads) :=
  match s.pc i with
  | .store p loaded => some ({ s with phase_count := s.phase_count.set p (loaded + 1) }.at i (.unlock p))
  | _ => none

def unlock (n_phases : Nat) (s : State n_threads) (i : Fin n_threads) : Option (State n_threads) :=
  match s.pc i with
  | .unlock p => some ({ s with mtx := none }.at i (loopTest n_phases (p + 1)))
  | _ => none

/-- The caller starts a thread, joins one, or returns `phase_count`. -/
def ownerStep (n_phases : Nat) (s : State n_threads) : Option (State n_threads) :=
  (ForkJoin.step (life n_phases) s.phase_count s.pc s.owner).map
    fun (owner, pc) => { s with owner := owner, pc := pc }

def step (n_phases : Nat) (s : State n_threads) : Action n_threads → Option (State n_threads)
  | .arrive i => arrive s i
  | .wait i => wait s i
  | .lock i => lock s i
  | .load i => load s i
  | .store i => store s i
  | .unlock i => unlock n_phases s i
  | .owner => ownerStep n_phases s

inductive Move (n_phases : Nat) (s : State n_threads) : Action n_threads → State n_threads → Prop where
  | arrive {i p} (pc : s.pc i = .arrive p) :
      Move n_phases s (.arrive i)
        ({ s with sync := s.sync.arrive n_threads }.at i (.wait p s.sync.generation))
  | wait {i p token} (pc : s.pc i = .wait p token) (released : s.sync.generation ≠ token) :
      Move n_phases s (.wait i) (s.at i (.lock p))
  | lock {i p} (pc : s.pc i = .lock p) (free : s.mtx = none) :
      Move n_phases s (.lock i) ({ s with mtx := some i }.at i (.load p))
  | load {i p loaded} (pc : s.pc i = .load p) (value : s.phase_count[p]? = some loaded) :
      Move n_phases s (.load i) (s.at i (.store p loaded))
  | store {i p loaded} (pc : s.pc i = .store p loaded) :
      Move n_phases s (.store i) ({ s with phase_count := s.phase_count.set p (loaded + 1) }.at i (.unlock p))
  | unlock {i p} (pc : s.pc i = .unlock p) :
      Move n_phases s (.unlock i) ({ s with mtx := none }.at i (loopTest n_phases (p + 1)))
  | owner {owner' pc'} (move : ForkJoin.Move (life n_phases) s.phase_count s.pc s.owner owner' pc') :
      Move n_phases s .owner { s with owner := owner', pc := pc' }

theorem step_move (moved : step n_phases s a = some t) : Move n_phases s a t := by
  cases a with
  | arrive i =>
    simp only [step, arrive] at moved
    split at moved
    next p pc => cases moved; exact .arrive pc
    next => cases moved
  | wait i =>
    simp only [step, wait] at moved
    split at moved
    next p token pc =>
      split at moved
      next => cases moved
      next released => cases moved; exact .wait pc released
    next => cases moved
  | lock i =>
    simp only [step, lock] at moved
    split at moved
    next p pc =>
      split at moved
      next free => cases moved; exact .lock pc free
      next => cases moved
    next => cases moved
  | load i =>
    simp only [step, BarrierPhases.load] at moved
    split at moved
    next p pc =>
      obtain ⟨loaded, value, rfl⟩ := Option.map_eq_some_iff.mp moved
      exact .load pc value
    next => cases moved
  | store i =>
    simp only [step, BarrierPhases.store] at moved
    split at moved
    next p loaded pc => cases moved; exact .store pc
    next => cases moved
  | unlock i =>
    simp only [step, unlock] at moved
    split at moved
    next p pc => cases moved; exact .unlock pc
    next => cases moved
  | owner =>
    simp only [step, ownerStep, Option.map_eq_some_iff] at moved
    obtain ⟨⟨owner', pc'⟩, moved, rfl⟩ := moved
    exact .owner (ForkJoin.step_move moved)

end Cpp20Showcase.Jthread.BarrierPhases
