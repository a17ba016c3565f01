import Cpp20Showcase.AtomicModel.Spinlock
import Cpp20Showcase.Lib.HappensBefore

/-! The memory orders of `Spinlock` in `07_atomic_model/atomic_model.h`, and the join in its
test: the counter, which is not atomic, is handed on with the lock. -/

namespace Cpp20Showcase.AtomicModel.SpinlockHappensBefore
open Lib Lib.TransitionSystem Spinlock

inductive Thread (ι : Type) where
  | main
  | worker (i : ι)
  deriving DecidableEq

/-- The lock with the clock that the last `clear` released, the accesses to the counter, and
which workers `main` has joined. -/
structure Clocked (ι : Type) where
  lock : State ι
  clocks : Thread ι → Clock (Thread ι)
  released : Clock (Thread ι)
  counter : Plain (Thread ι) Nat
  joined : ι → Bool

inductive ClockedAction (ι : Type) where
  | access (a : Action ι)
  | join (i : ι)

variable {ι : Type}

def initialClocked (iterations : ι → Nat) : Clocked ι where
  lock := initial iterations
  clocks := fun _ _ => 0
  released := fun _ => 0
  counter := .make 0
  joined := fun _ => false

variable [DecidableEq ι] {c : Clocked ι} {s : State ι} {a : Action ι} {i : ι}

/-- The `memory_order` of each access. An attempt that fails acquires, too: it reads from a
`test_and_set` in the release sequence of the last `clear`. -/
def Clocked.order (c : Clocked ι) (s : State ι) : Action ι → Clocked ι
  | .testAndSet i => { c with lock := s, clocks := acquire c.clocks (.worker i) c.released }
  | .load i =>
      { c with
        lock := s
        clocks := tick c.clocks (.worker i)
        counter := c.counter.read c.clocks (.worker i) }
  | .store i =>
      match c.lock.pc i with
      | .store _ loaded =>
          { c with
            lock := s
            clocks := tick c.clocks (.worker i)
            counter := c.counter.write c.clocks (.worker i) (loaded + 1) }
      | _ => { c with lock := s }
  | .throw _ _ => { c with lock := s }
  | .clear i => { c with lock := s, released := c.clocks (.worker i) }

/-- `threads.clear()` joins a worker when it has ended. -/
def join (c : Clocked ι) (i : ι) : Option (Clocked ι) :=
  if c.lock.pc i = .outside 0 then
    some
      { c with
        clocks := acquire c.clocks .main (c.clocks (.worker i))
        joined := Function.update c.joined i true }
  else none

def stepClocked (c : Clocked ι) : ClockedAction ι → Option (Clocked ι)
  | .access a => (step c.lock a).map fun s => c.order s a
  | .join i => join c i

/-- A thread is about to access the counter while a conflicting access did not happen before:
a worker in its section, or `main` when it has joined all of them. -/
def Racy (c : Clocked ι) : Prop :=
  (∃ i left, c.lock.pc i = .load left ∧ ¬c.counter.Readable (c.clocks (.worker i))) ∨
    (∃ i left loaded, c.lock.pc i = .store left loaded ∧ ¬c.counter.Writable (c.clocks (.worker i))) ∨
    (∀ i, c.joined i = true) ∧ ¬c.counter.Readable (c.clocks .main)

variable [Fintype ι]

/-- All accesses happened before the thread that is inside, or before the last `clear`. -/
structure Ordered (c : Clocked ι) : Prop where
  lock : Inv c.lock
  value : c.counter.value = c.lock.counter
  known : ∀ u, Bounded c.clocks (c.clocks u)
  released : Bounded c.clocks c.released
  free : c.lock.flag = false → c.counter.Writable c.released
  held : ∀ i, InSection (c.lock.pc i) → c.counter.Writable (c.clocks (.worker i))
  joined : ∀ i, c.joined i = true →
    c.lock.pc i = .outside 0 ∧ c.clocks (.worker i) (.worker i) ≤ c.clocks .main (.worker i)

omit [DecidableEq ι] in
theorem ordered_initial (iterations : ι → Nat) : Ordered (initialClocked iterations) where
  lock := inv_initial iterations
  value := rfl
  known := fun _ _ => le_rfl
  released := fun _ => le_rfl
  free := fun _ => nofun
  held := fun _ => nofun
  joined := fun _ => nofun

omit [DecidableEq ι] [Fintype ι] in
theorem worker_ne {i : ι} : Thread.main ≠ .worker i := nofun

omit [Fintype ι] in
theorem at_pc_of_ne {q : Pc} {j : ι} (other : j ≠ i) : (s.at i q).pc j = s.pc j := Function.update_of_ne other _ _

theorem Ordered.joined_at {q : Pc} {clocks : Thread ι → Clock (Thread ι)} (holds : Ordered c)
    (busy : c.lock.pc i ≠ .outside 0)
    (own : ∀ j, j ≠ i → clocks (.worker j) (.worker j) = c.clocks (.worker j) (.worker j))
    (main : clocks .main = c.clocks .main) :
    ∀ j, c.joined j = true → Function.update c.lock.pc i q j = .outside 0 ∧
      clocks (.worker j) (.worker j) ≤ clocks .main (.worker j) := by
  intro j done
  obtain ⟨ended, le⟩ := holds.joined j done
  have other : j ≠ i := fun same => busy (same ▸ ended)
  rw [Function.update_of_ne other, own j other, main]
  exact ⟨ended, le⟩

theorem Ordered.attempt (holds : Ordered c) (lock : Inv s) (counter : s.counter = c.lock.counter)
    (free : s.flag = false → c.lock.flag = false)
    (enters : ∀ j, InSection (s.pc j) → InSection (c.lock.pc j) ∨ j = i ∧ c.lock.flag = false)
    (joined : ∀ j, c.joined j = true → s.pc j = .outside 0) :
    Ordered { c with lock := s, clocks := acquire c.clocks (.worker i) c.released } where
  lock := lock
  value := holds.value.trans counter.symm
  known := holds.released.acquire holds.known
  released := holds.released.mono fun _ => le_acquire
  free := fun vacant => holds.free (free vacant)
  held := by
    intro j here
    obtain before | ⟨rfl, vacant⟩ := enters j here
    · exact (holds.held j before).mono fun _ => le_acquire
    · exact (holds.free vacant).mono fun _ => released_le_acquire
  joined := by
    intro j done
    have le : acquire c.clocks (.worker i) c.released (.worker j) (.worker j) ≤
        acquire c.clocks (.worker i) c.released .main (.worker j) := by
      rw [holds.released.acquire_own, acquire_of_ne worker_ne]
      exact (holds.joined j done).2
    exact ⟨joined j done, le⟩

theorem Ordered.access {q : Pc} {counter : Plain (Thread ι) Nat} (holds : Ordered c)
    (here : InSection (c.lock.pc i)) (lock : Inv s) (pc : s.pc = Function.update c.lock.pc i q)
    (flag : s.flag = c.lock.flag) (value : counter.value = s.counter)
    (writable : counter.Writable (tick c.clocks (.worker i) (.worker i))) :
    Ordered { c with lock := s, clocks := tick c.clocks (.worker i), counter := counter } where
  lock := lock
  value := value
  known := Bounded.tick holds.known
  released := holds.released.mono fun _ => le_tick
  free := by
    intro vacant
    obtain ⟨owner, held, owned⟩ := holds.lock.owned
    rw [← flag, vacant, owned.owner_eq here] at held
    cases held
  held := by
    intro j inside
    obtain rfl | other := eq_or_ne j i
    · exact writable
    · obtain ⟨owner, -, owned⟩ := holds.lock.owned
      have inside' : InSection (s.pc j) := inside
      rw [pc, Function.update_of_ne other] at inside'
      exact absurd (owned.exclusive inside' here) other
  joined := by
    have busy : c.lock.pc i ≠ .outside 0 := by
      intro outside
      rw [outside] at here
      exact here
    have others : ∀ j, j ≠ i →
        tick c.clocks (.worker i) (.worker j) (.worker j) = c.clocks (.worker j) (.worker j) := by
      intro j other
      rw [tick_of_ne fun same => other (Thread.worker.inj same)]
    have main : tick c.clocks (.worker i) .main = c.clocks .main := tick_of_ne worker_ne
    rw [pc]
    exact holds.joined_at busy others main

theorem ordered_move (holds : Ordered c) (move : Move c.lock a s) : Ordered (c.order s a) := by
  have lock := inv_move holds.lock move
  cases move with
  | spin busy =>
    exact holds.attempt lock rfl id (fun _ => .inl) fun j done => (holds.joined j done).1
  | @enter i left pc free =>
    refine holds.attempt lock rfl nofun ?_ ?_
    · intro j here
      by_cases same : j = i
      · exact .inr ⟨same, free⟩
      · rw [at_pc_of_ne same] at here
        exact .inl here
    · intro j done
      have ended := (holds.joined j done).1
      have other : j ≠ i := by
        rintro rfl
        rw [ended] at pc
        cases pc
      rw [at_pc_of_ne other]
      exact ended
  | @load i left pc =>
    have here : InSection (c.lock.pc i) := by rw [pc]; trivial
    exact holds.access here lock rfl rfl holds.value (holds.held i here).read
  | @store i left loaded pc =>
    have here : InSection (c.lock.pc i) := by rw [pc]; trivial
    simp only [Clocked.order, pc]
    exact holds.access here lock rfl rfl rfl (holds.held i here).write
  | @throw i leavesLoop left here =>
    have busy : c.lock.pc i ≠ .outside 0 := by
      intro outside
      rw [outside] at here
      exact here
    exact
      { lock := lock
        value := holds.value
        known := holds.known
        released := holds.released
        free := holds.free
        held := by
          intro j inside
          by_cases same : j = i
          · exact same ▸ holds.held i here
          · refine holds.held j ?_
            have inside' : InSection (Function.update c.lock.pc i (.unlock left) j) := inside
            rwa [Function.update_of_ne same] at inside'
        joined := holds.joined_at busy (fun _ _ => rfl) rfl }
  | @clear i left pc =>
    have here : InSection (c.lock.pc i) := by rw [pc]; trivial
    exact
      { lock := lock
        value := holds.value
        known := holds.known
        released := holds.known (.worker i)
        free := fun _ => holds.held i here
        held := by
          intro j inside
          obtain ⟨owner, vacant, owned⟩ := lock.owned
          rw [owned.owner_eq inside] at vacant
          cases vacant
        joined := holds.joined_at (by rw [pc]; nofun) (fun _ _ => rfl) rfl }

theorem ordered_join (holds : Ordered c) (ended : c.lock.pc i = .outside 0) :
    Ordered
      { c with
        clocks := acquire c.clocks .main (c.clocks (.worker i))
        joined := Function.update c.joined i true } where
  lock := holds.lock
  value := holds.value
  known := (holds.known (.worker i)).acquire holds.known
  released := holds.released.mono fun _ => le_acquire
  free := holds.free
  held := by
    intro j here
    have grown : ∀ w, c.clocks (.worker j) w ≤ acquire c.clocks .main (c.clocks (.worker i)) (.worker j) w :=
      fun _ => le_acquire
    exact (holds.held j here).mono grown
  joined := by
    intro j done
    have own : acquire c.clocks .main (c.clocks (.worker i)) (.worker j) = c.clocks (.worker j) :=
      acquire_of_ne worker_ne.symm
    change _ ∧ acquire c.clocks .main (c.clocks (.worker i)) (.worker j) (.worker j) ≤
      acquire c.clocks .main (c.clocks (.worker i)) .main (.worker j)
    rw [own]
    by_cases same : j = i
    · subst same
      exact ⟨ended, released_le_acquire⟩
    · obtain ⟨ended', le⟩ := holds.joined j ((Function.update_of_ne same true c.joined).symm.trans done)
      exact ⟨ended', le.trans le_acquire⟩

theorem ordered_preserved : Preserved stepClocked (Ordered (ι := ι)) := by
  intro c action d holds moved
  cases action with
  | access a =>
    obtain ⟨s, locked, rfl⟩ := Option.map_eq_some_iff.mp moved
    exact ordered_move holds (step_move locked)
  | join i =>
    simp only [stepClocked, join] at moved
    split at moved
    next ended =>
      cases moved
      exact ordered_join holds ended
    next => cases moved

omit [DecidableEq ι] in
theorem Ordered.made (holds : Ordered c) : c.counter.Writable fun u => c.clocks u u := by
  obtain ⟨owner, flag, owned⟩ := holds.lock.owned
  cases owner with
  | none => exact (holds.free flag).mono holds.released
  | some i => exact (holds.held i ((owned i).mpr rfl)).mono (holds.known (.worker i))

omit [DecidableEq ι] in
theorem Ordered.not_racy (holds : Ordered c) : ¬Racy c := by
  intro racy
  obtain ⟨i, left, pc, races⟩ | ⟨i, left, loaded, pc, races⟩ | ⟨all, races⟩ := racy
  · exact races (holds.held i (by rw [pc]; trivial)).readable
  · exact races (holds.held i (by rw [pc]; trivial))
  · apply races
    intro access member
    have made := holds.made.readable access member
    obtain ⟨thread, number⟩ := access
    cases thread with
    | main => exact made
    | worker i => exact made.mono (holds.joined i (all i)).2

/-- The orders restrict no run of the lock, and in no reachable state is there a race for the
counter, neither between workers nor with `main` after it has joined them; what is read is
the number of increments. -/
theorem counter_race_free (iterations : ι → Nat) :
    (∀ acts s, run step (initial iterations) acts = some s →
      ∃ c, run stepClocked (initialClocked iterations) (acts.map .access) = some c ∧ c.lock = s) ∧
    ∀ c, Reachable stepClocked (initialClocked iterations) c →
      ¬Racy c ∧ c.counter.value = c.lock.counter ∧
        ((∀ i, c.joined i = true) → c.counter.value = ∑ i, c.lock.performed i) := by
  constructor
  · intro acts s runs
    have behind : ∀ (c : Clocked ι) a s, step c.lock a = some s →
        ∃ d, stepClocked c (.access a) = some d ∧ d.lock = s := by
      intro c a s locked
      refine ⟨c.order s a, by rw [stepClocked, locked]; rfl, ?_⟩
      unfold Clocked.order
      split
      case h_3 => split <;> rfl
      all_goals rfl
    obtain ⟨c, clocked, same⟩ := run_lift (s := initialClocked iterations) behind runs
    exact ⟨c, run_map.trans clocked, same⟩
  · intro c reached
    have holds := reached.invariant ordered_preserved (ordered_initial iterations)
    exact ⟨holds.not_racy, holds.value, fun _ => holds.value.trans holds.lock.counted⟩

end Cpp20Showcase.AtomicModel.SpinlockHappensBefore
