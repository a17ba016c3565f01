import Cpp20Showcase.Lib.ForkJoin
import Cpp20Showcase.Lib.Headcount
import Cpp20Showcase.Lib.TransitionSystem
import Mathlib.Tactic.Ring

/-! `parallel_sum_with_latch` from `05_jthread/jthread_demo.h`: every worker counts the latch
down and then adds 1 to the total `iterations` times; the caller waits for the latch before
it joins them. -/

namespace Cpp20Showcase.Jthread.LatchSum
open Lib Lib.TransitionSystem

inductive Pc where
  | absent
  | countDown
  | fetchAdd (left : Nat)
  | finished
  deriving DecidableEq

def life : ForkJoin.Life Pc where
  absent := .absent
  start := .countDown
  finished := .finished
  start_ne := by decide

/-- The test of `for (j = 0; j < iterations; ++j)`, with the iterations left. -/
def loopTest : Nat → Pc
  | 0 => .finished
  | left + 1 => .fetchAdd left

/-- `total` is a `long long`, whose atomic addition wraps. -/
structure State (n_workers : Nat) where
  total : BitVec 64
  ready : Nat
  pc : Fin n_workers → Pc
  owner : ForkJoin.Owner (BitVec 64)

inductive Action (n_workers : Nat) where
  | countDown (i : Fin n_workers)
  | fetchAdd (i : Fin n_workers)
  | owner

variable {n_workers iterations : Nat} {s t : State n_workers} {a : Action n_workers}

def initial (n_workers : Nat) : State n_workers where
  total := 0
  ready := n_workers
  pc := fun _ => life.absent
  owner := .create 0

def State.at (s : State n_workers) (i : Fin n_workers) (q : Pc) : State n_workers :=
  { s with pc := Function.update s.pc i q }

/-- `ready.count_down()` is defined only above zero. -/
def countDown (iterations : Nat) (s : State n_workers) (i : Fin n_workers) : Option (State n_workers) :=
  match s.pc i with
  | .countDown =>
    if 0 < s.ready then some ({ s with ready := s.ready - 1 }.at i (loopTest iterations)) else none
  | _ => none

def fetchAdd (s : State n_workers) (i : Fin n_workers) : Option (State n_workers) :=
  match s.pc i with
  | .fetchAdd left => some ({ s with total := s.total + 1 }.at i (loopTest left))
  | _ => none

/-- The caller starts a worker, joins one, or returns `total.load()`. Between the start of
the last and the first join stands `ready.wait()`, which blocks above zero. -/
def ownerStep (s : State n_workers) : Option (State n_workers) :=
  if s.owner = .create n_workers ∧ s.ready ≠ 0 then none
  else (ForkJoin.step life s.total s.pc s.owner).map fun (owner, pc) => { s with owner := owner, pc := pc }

def step (iterations : Nat) (s : State n_workers) : Action n_workers → Option (State n_workers)
  | .countDown i => countDown iterations s i
  | .fetchAdd i => fetchAdd s i
  | .owner => ownerStep s

inductive Move (iterations : Nat) (s : State n_workers) : Action n_workers → State n_workers → Prop where
  | countDown {i} (pc : s.pc i = .countDown) (above : 0 < s.ready) :
      Move iterations s (.countDown i) ({ s with ready := s.ready - 1 }.at i (loopTest iterations))
  | fetchAdd {i left} (pc : s.pc i = .fetchAdd left) :
      Move iterations s (.fetchAdd i) ({ s with total := s.total + 1 }.at i (loopTest left))
  | owner {owner' pc'} (move : ForkJoin.Move life s.total s.pc s.owner owner' pc')
      (waited : s.owner = .create n_workers → s.ready = 0) :
      Move iterations s .owner { s with owner := owner', pc := pc' }

theorem step_move (moved : step iterations s a = some t) : Move iterations s a t := by
  cases a with
  | countDown i =>
    simp only [step, LatchSum.countDown] at moved
    split at moved
    next pc =>
      split at moved
      next above => cases moved; exact .countDown pc above
      next => cases moved
    next => cases moved
  | fetchAdd i =>
    simp only [step, LatchSum.fetchAdd] at moved
    split at moved
    next left pc => cases moved; exact .fetchAdd pc
    next => cases moved
  | owner =>
    simp only [step, ownerStep] at moved
    split at moved
    next => cases moved
    next passed =>
      obtain ⟨⟨owner', pc'⟩, forked, rfl⟩ := Option.map_eq_some_iff.mp moved
      refine .owner (ForkJoin.step_move forked) ?_
      intro last
      by_contra above
      exact passed ⟨last, above⟩

def Unready (pc : Pc) : Prop := pc = .absent ∨ pc = .countDown

instance : DecidablePred Unready := fun pc => inferInstanceAs (Decidable (pc = .absent ∨ pc = .countDown))

def owed (iterations : Nat) : Pc → Nat
  | .absent | .countDown => iterations
  | .fetchAdd left => left + 1
  | .finished => 0

@[simp] theorem owed_loopTest (left : Nat) : owed iterations (loopTest left) = left := by
  cases left with
  | zero => rfl
  | succ left => rfl

theorem loopTest_ready (left : Nat) : ¬Unready (loopTest left) := by
  cases left with
  | zero => decide
  | succ left => simp [loopTest, Unready]

theorem loopTest_ne_absent (left : Nat) : loopTest left ≠ .absent :=
  fun absent => loopTest_ready left (.inl absent)

structure Inv (iterations : Nat) (s : State n_workers) : Prop where
  sound : s.owner.Sound life s.pc
  ready : s.ready = headcount Unready s.pc
  waited : (∀ k, s.owner ≠ .create k) → s.ready = 0
  added : ∃ added, s.total = BitVec.ofNat 64 added ∧
    added + ∑ i, owed iterations (s.pc i) = n_workers * iterations
  result : ∀ v, s.owner = .returned v → v = BitVec.ofNat 64 (n_workers * iterations)

theorem inv_initial : Inv iterations (initial n_workers) where
  sound := ForkJoin.sound_start
  ready := by
    have everyone : headcount Unready (initial n_workers).pc = Fintype.card (Fin n_workers) :=
      headcount_eq_card_iff.mpr fun _ => show Unready .absent by decide
    rw [everyone, Fintype.card_fin]
    rfl
  waited := fun started => absurd rfl (started 0)
  added := ⟨0, rfl, by simp [initial, life, owed]⟩
  result := by
    intro v impossible
    cases impossible

theorem inv_owner {owner' : ForkJoin.Owner (BitVec 64)} {pc' : Fin n_workers → Pc} (holds : Inv iterations s)
    (move : ForkJoin.Move life s.total s.pc s.owner owner' pc')
    (waited : s.owner = .create n_workers → s.ready = 0) :
    Inv iterations { s with owner := owner', pc := pc' } := by
  obtain ⟨added, total, sum⟩ := holds.added
  constructor
  · exact move.sound holds.sound
  · exact holds.ready.trans (move.headcount_eq holds.sound (by decide)).symm
  · intro started
    have sound := holds.sound
    cases owner : s.owner with
    | create k =>
      rw [owner] at move sound
      cases move with
      | create room => exact absurd rfl (started _)
      | clear full => exact waited (owner.trans (congrArg _ (Nat.le_antisymm sound.1 full)))
    | join j => exact holds.waited (by simp [owner])
    | returned v => exact holds.waited (by simp [owner])
  · exact ⟨added, total, (congrArg (added + ·) (move.sum_eq holds.sound rfl)).trans sum⟩
  · intro v returned
    change owner' = .returned v at returned
    subst returned
    obtain ⟨rfl, -, all⟩ := move.returned holds.sound
    have paid : ∑ i, owed iterations (s.pc i) = 0 := by simp [all, life, owed]
    rw [paid, Nat.add_zero] at sum
    rw [total, sum]

theorem inv_move (holds : Inv iterations s) (move : Move iterations s a t) : Inv iterations t := by
  obtain ⟨added, total, sum⟩ := holds.added
  cases move with
  | @countDown i pc above =>
    have left : headcount Unready (Function.update s.pc i (loopTest iterations)) + 1 = headcount Unready s.pc :=
      headcount_leave (by rw [pc]; decide) (loopTest_ready iterations)
    have moved := sum_update (owed iterations) s.pc i (loopTest iterations)
    rw [owed_loopTest, pc, owed] at moved
    constructor
    · exact holds.sound.move pc (by decide) (by decide) (loopTest_ne_absent iterations)
    · have ready := holds.ready
      simp only [State.at]
      omega
    · intro started
      have none_left := holds.waited started
      omega
    · refine ⟨added, total, ?_⟩
      simp only [State.at]
      omega
    · exact holds.result
  | @fetchAdd i left pc =>
    have moved := sum_update (owed iterations) s.pc i (loopTest left)
    rw [owed_loopTest, pc, owed] at moved
    constructor
    · exact holds.sound.move pc (by simp [life]) (by simp [life]) (loopTest_ne_absent left)
    · refine holds.ready.trans (headcount_stay ?_).symm
      exact iff_of_false (loopTest_ready left) (by rw [pc]; simp [Unready])
    · exact holds.waited
    · refine ⟨added + 1, ?_, ?_⟩
      · simp only [State.at, total, BitVec.ofNat_add]
        rfl
      · simp only [State.at]
        omega
    · exact holds.result
  | owner move waited => exact inv_owner holds move waited

theorem inv_preserved : Preserved (step iterations) (fun s : State n_workers => Inv iterations s) :=
  fun _ _ _ holds moved => inv_move holds (step_move moved)

def work (iterations : Nat) : Pc → Nat
  | .absent | .countDown => iterations + 1
  | .fetchAdd left => left + 1
  | .finished => 0

@[simp] theorem work_loopTest (left : Nat) : work iterations (loopTest left) = left := by
  cases left with
  | zero => rfl
  | succ left => rfl

def rank (iterations : Nat) (s : State n_workers) : Nat :=
  s.owner.work n_workers + ∑ i, work iterations (s.pc i)

theorem rank_lt (holds : Inv iterations s) (move : Move iterations s a t) :
    rank iterations t < rank iterations s := by
  cases move with
  | @countDown i pc =>
    have moved := sum_update (work iterations) s.pc i (loopTest iterations)
    rw [work_loopTest, pc, work] at moved
    simp only [rank, State.at]
    omega
  | @fetchAdd i left pc =>
    have moved := sum_update (work iterations) s.pc i (loopTest left)
    rw [work_loopTest, pc, work] at moved
    simp only [rank, State.at]
    omega
  | owner move => exact move.total_lt holds.sound le_rfl

theorem worker_enabled {i : Fin n_workers} (holds : Inv iterations s) (present : s.pc i ≠ .absent)
    (running : s.pc i ≠ .finished) : ∃ a t, step iterations s a = some t := by
  cases pc : s.pc i with
  | absent => exact absurd pc present
  | countDown =>
    have above : 0 < s.ready := by
      rw [holds.ready]
      apply Nat.pos_of_ne_zero
      intro nobody
      exact headcount_eq_zero_iff.mp nobody i (by rw [pc]; decide)
    exact ⟨.countDown i, _, by simp only [step, LatchSum.countDown, pc, above, ↓reduceIte]; rfl⟩
  | fetchAdd left => exact ⟨.fetchAdd i, _, by simp only [step, LatchSum.fetchAdd, pc]; rfl⟩
  | finished => exact absurd pc running

theorem enabled (holds : Inv iterations s) (unreturned : ∀ v, s.owner ≠ .returned v) :
    ∃ a t, step iterations s a = some t := by
  by_cases waits : s.owner = .create n_workers ∧ s.ready ≠ 0
  · obtain ⟨last, above⟩ := waits
    have sound := holds.sound
    rw [last] at sound
    rw [holds.ready] at above
    obtain ⟨i, unready⟩ := not_forall.mp (headcount_eq_zero_iff.not.mp above)
    have present : s.pc i ≠ .absent := fun absent => absurd ((sound.2 i).mp absent) (by omega)
    apply worker_enabled holds present
    intro ended
    rw [ended] at unready
    exact unready (by decide)
  · obtain ⟨owner', pc', moved⟩ | ⟨started, i, running⟩ := holds.sound.enabled s.total unreturned
    · exact ⟨.owner, _, by rw [step, ownerStep, if_neg waits, moved]; rfl⟩
    · exact worker_enabled holds (started i) running

theorem rank_initial : rank iterations (initial n_workers) = n_workers * (iterations + 3) + 2 := by
  have works : ∑ _i : Fin n_workers, (iterations + 1) = n_workers * (iterations + 1) := by
    rw [Finset.sum_const_nat fun _ _ => rfl, Finset.card_univ, Fintype.card_fin]
  have whole : n_workers * (iterations + 3) = n_workers * (iterations + 1) + 2 * n_workers := by ring
  change n_workers - 0 + n_workers + 2 + ∑ _i : Fin n_workers, (iterations + 1) = _
  omega

/-- For all workers and iterations that are values of `int`, in every reachable state: the
latch counts the workers that have not counted it down, and no `count_down` is out of
range; the caller joins only when all have; no state is stuck before the return, and all
schedules are bounded; what is returned is the exact product, in `long long`. -/
theorem latch_sum (n_workers iterations : Nat) (workers : n_workers < 2 ^ 31) (rounds : iterations < 2 ^ 31)
    (s : State n_workers) (acts : List (Action n_workers))
    (runs : run (step iterations) (initial n_workers) acts = some s) :
    s.ready = headcount Unready s.pc ∧
      (∀ i, s.pc i = .countDown → 0 < s.ready) ∧
      ((∀ k, s.owner ≠ .create k) → ∀ i, ¬Unready (s.pc i)) ∧
      ((∀ v, s.owner ≠ .returned v) → ∃ a t, step iterations s a = some t) ∧
      acts.length ≤ n_workers * (iterations + 3) + 2 ∧
      s.total.toInt + ∑ i, owed iterations (s.pc i) = n_workers * iterations ∧
      ∀ v, s.owner = .returned v → v.toInt = n_workers * iterations ∧ ∀ i, s.pc i = .finished := by
  have holds := inv_preserved.run inv_initial runs
  have bound := run_length_le (rank iterations) inv_preserved
    (fun _ _ _ holds moved => rank_lt holds (step_move moved)) inv_initial runs
  rw [rank_initial] at bound
  have small : n_workers * iterations ≤ 2 ^ 31 * 2 ^ 31 := Nat.mul_le_mul workers.le rounds.le
  have exact_int (k : Nat) (below : k ≤ n_workers * iterations) : (BitVec.ofNat 64 k).toInt = k := by
    rw [BitVec.toInt_ofNat', Int.bmod_eq_of_le (by omega) (by omega)]
  obtain ⟨added, total, sum⟩ := holds.added
  refine ⟨holds.ready, fun i pc => ?_, fun started i unready => ?_, enabled holds, by omega, ?_, ?_⟩
  · rw [holds.ready]
    apply Nat.pos_of_ne_zero
    intro nobody
    exact headcount_eq_zero_iff.mp nobody i (by rw [pc]; decide)
  · exact headcount_eq_zero_iff.mp (holds.ready.symm.trans (holds.waited started)) i unready
  · rw [total, exact_int added (by omega)]
    exact_mod_cast sum
  · intro v returned
    rw [holds.result v returned, exact_int _ le_rfl]
    exact ⟨by push_cast; rfl, holds.sound.all_finished returned⟩

/-- One of two workers is done while the caller waits for the other to begin. -/
theorem latch_sum_waiting :
    ∃ s : State 2,
      run (step 1) (initial 2) [.owner, .countDown 0, .owner, .fetchAdd 0] = some s ∧
      step 1 s .owner = none ∧ s.ready = headcount Unready s.pc ∧ (∃ a t, step 1 s a = some t) ∧
      s.total.toInt + ∑ i, owed 1 (s.pc i) = (2 : Nat) * (1 : Nat) := by
  have runs : run (step 1) (initial 2) [.owner, .countDown 0, .owner, .fetchAdd 0] = some _ := rfl
  obtain ⟨ready, -, -, goes_on, -, total, -⟩ := latch_sum 2 1 (by decide) (by decide) _ _ runs
  exact ⟨_, runs, rfl, ready, goes_on nofun, total⟩

end Cpp20Showcase.Jthread.LatchSum
