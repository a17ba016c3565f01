import Cpp20Showcase.Lib.ForkJoin
import Cpp20Showcase.Lib.TransitionSystem
import Cpp20Showcase.Lib.WrappingCounter

/-! `RelaxedCounter` from `07_atomic_model/atomic_model.h`, with `T` threads that call
`increment` `N` times each while any thread may call `get`, and a last `get` after the join. -/

namespace Cpp20Showcase.AtomicModel.RelaxedCounter
open Lib Lib.TransitionSystem Lib.WrappingCounter

inductive Thread (T : Nat) where
  | caller
  | worker (i : Fin T)
  deriving DecidableEq

/-- A worker before an `increment` with `left` more to come. -/
inductive Pc where
  | absent
  | increment (left : Nat)
  | finished
  deriving DecidableEq

def loopTest : Nat → Pc
  | 0 => .finished
  | left + 1 => .increment left

theorem loopTest_ne_absent (left : Nat) : loopTest left ≠ .absent := by
  cases left with
  | zero => exact nofun
  | succ left => exact nofun

def life (N : Nat) : ForkJoin.Life Pc where
  absent := .absent
  start := loopTest N
  finished := .finished
  start_ne := loopTest_ne_absent N

structure State (T : Nat) where
  value : Atomic (Thread T) (BitVec 64)
  pc : Fin T → Pc
  owner : ForkJoin.Owner (BitVec 64)

inductive Action (T : Nat) where
  | increment (i : Fin T)
  | get (t : Thread T) (lag : Nat) (answer : BitVec 64)
  | caller (lag : Nat)

variable {T N : Nat} {s t : State T} {a : Action T}

def initial (T : Nat) : State T where
  value := .make 0
  pc := fun _ => .absent
  owner := .create 0

/-- A read-modify-write takes the last value, in whatever order. -/
def increment (s : State T) (i : Fin T) : Option (State T) :=
  match s.pc i with
  | .increment left => some
      { s with
        value := s.value.store (.worker i) (s.value.current + 1)
        pc := Function.update s.pc i (loopTest left) }
  | _ => none

def running (s : State T) : Thread T → Bool
  | .caller => true
  | .worker i => match s.pc i with | .increment _ => true | _ => false

def get (s : State T) (t : Thread T) (lag : Nat) (answer : BitVec 64) : Option (State T) :=
  if running s t then
    match s.value.load t lag with
    | some (v, value) => if v = answer then some { s with value := value } else none
    | none => none
  else none

/-- The caller knows after a join what the thread knew; it reads the counter after the last. -/
def callerStep (N : Nat) (s : State T) (lag : Nat) : Option (State T) :=
  match s.owner with
  | .join j =>
    if room : j < T then
      (ForkJoin.step (life N) 0 s.pc s.owner).map fun (owner, pc) =>
        { value := s.value.join .caller (.worker ⟨j, room⟩), pc := pc, owner := owner }
    else
      match s.value.load .caller lag with
      | some (v, value) => (ForkJoin.step (life N) v s.pc s.owner).map fun (owner, pc) =>
          { value := value, pc := pc, owner := owner }
      | none => none
  | _ => (ForkJoin.step (life N) 0 s.pc s.owner).map fun (owner, pc) => { s with pc := pc, owner := owner }

def step (N : Nat) (s : State T) : Action T → Option (State T)
  | .increment i => increment s i
  | .get t lag answer => get s t lag answer
  | .caller lag => callerStep N s lag

inductive Move (N : Nat) (s : State T) : Action T → State T → Prop where
  | increment {i left} (pc : s.pc i = .increment left) :
      Move N s (.increment i)
        { s with
          value := s.value.store (.worker i) (s.value.current + 1)
          pc := Function.update s.pc i (loopTest left) }
  | get {u lag v value} (alive : running s u = true) (load : s.value.load u lag = some (v, value)) :
      Move N s (.get u lag v) { s with value := value }
  | create {lag i} (here : s.owner = .create i) {owner' pc'}
      (move : ForkJoin.Move (life N) 0 s.pc s.owner owner' pc') :
      Move N s (.caller lag) { s with pc := pc', owner := owner' }
  | join {lag j} (here : s.owner = .join j) (room : j < T) (ended : s.pc ⟨j, room⟩ = .finished) :
      Move N s (.caller lag) { s with value := s.value.join .caller (.worker ⟨j, room⟩), owner := .join (j + 1) }
  | ret {lag j v value} (here : s.owner = .join j) (last : T ≤ j) (load : s.value.load .caller lag = some (v, value)) :
      Move N s (.caller lag) { s with value := value, owner := .returned v }

theorem callerStep_move {lag : Nat} (moved : callerStep N s lag = some t) : Move N s (.caller lag) t := by
  unfold callerStep at moved
  split at moved
  next j here =>
    split at moved
    next room =>
      obtain ⟨⟨owner', pc'⟩, forked, rfl⟩ := Option.map_eq_some_iff.mp moved
      have move := ForkJoin.step_move forked
      rw [here] at move
      cases move with
      | join room ended => exact .join here room ended
      | ret last => exact absurd room (Nat.not_lt_of_le last)
    next full =>
      split at moved
      next v value load =>
        obtain ⟨⟨owner', pc'⟩, forked, rfl⟩ := Option.map_eq_some_iff.mp moved
        have move := ForkJoin.step_move forked
        rw [here] at move
        cases move with
        | join room ended => exact absurd room full
        | ret last => exact .ret here last load
      next => cases moved
  next other =>
    obtain ⟨⟨owner', pc'⟩, forked, rfl⟩ := Option.map_eq_some_iff.mp moved
    cases here : s.owner with
    | create i => exact .create here (ForkJoin.step_move forked)
    | join j => exact absurd here (other j)
    | returned v =>
      rw [here] at forked
      cases forked

theorem step_move (moved : step N s a = some t) : Move N s a t := by
  cases a with
  | increment i =>
    simp only [step, RelaxedCounter.increment] at moved
    split at moved
    next left pc => cases moved; exact .increment pc
    next => cases moved
  | get u lag answer =>
    simp only [step, RelaxedCounter.get] at moved
    split at moved
    next alive =>
      split at moved
      next v value load =>
        split at moved
        next same => cases moved; subst same; exact .get alive load
        next => cases moved
      next => cases moved
    next => cases moved
  | caller lag => exact callerStep_move moved

def owed (N : Nat) : Pc → Nat
  | .absent => N
  | .increment left => left + 1
  | .finished => 0

@[simp] theorem owed_loopTest (left : Nat) : owed N (loopTest left) = left := by
  cases left with
  | zero => rfl
  | succ left => rfl

structure Inv (N : Nat) (s : State T) : Prop where
  sound : s.owner.Sound (life N) s.pc
  counts : s.value.Counts 0
  total : s.value.stores + ∑ i, owed N (s.pc i) = T * N
  own : ∀ i, N ≤ s.value.seen (.worker i) + owed N (s.pc i)
  latest : s.value.stores = 0 ∨ ∃ i, s.value.seen (.worker i) = s.value.stores
  joined : ∀ j, s.owner = .join j → ∀ i : Fin T, i.val < j → s.value.seen (.worker i) ≤ s.value.seen .caller
  result : ∀ v, s.owner = .returned v → v = BitVec.ofNat 64 (T * N)

theorem inv_initial : Inv N (initial T) where
  sound := ForkJoin.sound_start
  counts := Atomic.counts_make
  total := by
    change 0 + ∑ _i : Fin T, N = T * N
    rw [Finset.sum_const_nat fun _ _ => rfl, Finset.card_univ, Fintype.card_fin, Nat.zero_add]
  own := fun _ => Nat.le_add_left _ _
  latest := .inl rfl
  joined := nofun
  result := nofun

theorem seen_move {u : Thread T} (move : Move N s a t) : s.value.seen u ≤ t.value.seen u := by
  cases move with
  | @increment i left pc =>
    by_cases own : u = .worker i
    · subst own
      rw [Atomic.seen_store_self]
      exact (s.value.seen_le _).trans (Nat.le_succ _)
    · exact (Atomic.seen_store_of_ne own).ge
  | get alive load => exact Atomic.load_seen_le load
  | create => exact le_rfl
  | join => exact Atomic.seen_le_join
  | ret here last load => exact Atomic.load_seen_le load

theorem Inv.increment {i : Fin T} {left : Nat} (holds : Inv N s) (pc : s.pc i = .increment left) :
    Inv N
      { s with
        value := s.value.store (.worker i) (s.value.current + 1)
        pc := Function.update s.pc i (loopTest left) } where
  sound := holds.sound.move pc nofun nofun (loopTest_ne_absent left)
  counts := by
    refine holds.counts.store ?_
    rw [holds.counts.current]
    exact nth_succ 0 _
  total := by
    have moved := sum_update (owed N) s.pc i (loopTest left)
    rw [owed_loopTest, pc, owed] at moved
    have total := holds.total
    simp only [Atomic.stores_store]
    omega
  own := by
    intro j
    by_cases same : j = i
    · subst same
      have before := holds.own j
      have known := s.value.seen_le (.worker j)
      rw [pc, owed] at before
      simp only [Atomic.seen_store_self, Function.update_self, owed_loopTest]
      omega
    · have apart : Thread.worker j ≠ .worker i := fun equal => same (Thread.worker.inj equal)
      simp only [Atomic.seen_store_of_ne apart, Function.update_of_ne same]
      exact holds.own j
  latest := .inr ⟨i, Atomic.seen_store_self⟩
  joined := by
    intro j here k below
    have sound := holds.sound
    rw [here] at sound
    have other : k ≠ i := by
      rintro rfl
      exact absurd ((sound.2 k below).symm.trans pc) nofun
    have apart : Thread.worker k ≠ .worker i := fun equal => other (Thread.worker.inj equal)
    have caller : Thread.caller ≠ .worker i := nofun
    simp only [Atomic.seen_store_of_ne apart, Atomic.seen_store_of_ne caller]
    exact holds.joined j here k below
  result := holds.result

theorem Inv.load {u : Thread T} {lag : Nat} {v : BitVec 64} {value : Atomic (Thread T) (BitVec 64)}
    (holds : Inv N s) (alive : ∀ i, u = .worker i → s.pc i ≠ .finished)
    (load : s.value.load u lag = some (v, value)) : Inv N { s with value := value } := by
  have grows {w : Thread T} : s.value.seen w ≤ value.seen w := Atomic.load_seen_le load
  have stores := Atomic.load_stores load
  constructor
  · exact holds.sound
  · obtain ⟨n, known, -, -, rfl⟩ := holds.counts.load load
    have counts : (s.value.observe u n known).Counts 0 := holds.counts.observe
    exact counts
  · exact (congrArg (· + _) stores).trans holds.total
  · exact fun i => (holds.own i).trans (Nat.add_le_add_right grows _)
  · obtain none_yet | ⟨i, newest⟩ := holds.latest
    · exact .inl (stores.trans none_yet)
    · refine .inr ⟨i, Nat.le_antisymm (value.seen_le _) ?_⟩
      rw [stores, ← newest]
      exact grows
  · intro j here i below
    have sound := holds.sound
    rw [here] at sound
    have other : Thread.worker i ≠ u := fun same => alive i same.symm (sound.2 i below)
    rw [Atomic.load_seen_of_ne load other]
    exact (holds.joined j here i below).trans grows
  · exact holds.result

theorem Inv.create {i : Nat} {owner' : ForkJoin.Owner (BitVec 64)} {pc' : Fin T → Pc} (holds : Inv N s)
    (here : s.owner = .create i) (move : ForkJoin.Move (life N) 0 s.pc s.owner owner' pc') :
    Inv N { s with pc := pc', owner := owner' } := by
  have threads := move.threads holds.sound
  constructor
  · exact move.sound holds.sound
  · exact holds.counts
  · exact (congrArg (_ + ·) (move.sum_eq holds.sound (owed_loopTest N))).trans holds.total
  · intro j
    obtain rfl | ⟨k, absent, rfl⟩ := threads
    · exact holds.own j
    · by_cases same : j = k
      · subst same
        simp only [Function.update_self, life, owed_loopTest]
        exact Nat.le_add_left _ _
      · simp only [Function.update_of_ne same]
        exact holds.own j
  · exact holds.latest
  · intro j joining k below
    change owner' = .join j at joining
    subst joining
    rw [here] at move
    cases move with
    | clear => exact absurd below (Nat.not_lt_zero _)
  · intro v returned
    change owner' = .returned v at returned
    subst returned
    rw [here] at move
    cases move

theorem Inv.join {j : Nat} (holds : Inv N s) (here : s.owner = .join j) (room : j < T)
    (ended : s.pc ⟨j, room⟩ = .finished) :
    Inv N { s with value := s.value.join .caller (.worker ⟨j, room⟩), owner := .join (j + 1) } where
  sound := by
    have move : ForkJoin.Move (life N) 0 s.pc s.owner (.join (j + 1)) s.pc := by
      rw [here]
      exact .join room ended
    exact move.sound holds.sound
  counts := holds.counts
  total := holds.total
  own := fun i => (holds.own i).trans (Nat.add_le_add_right Atomic.seen_le_join _)
  latest := by
    obtain none_yet | ⟨i, newest⟩ := holds.latest
    · exact .inl none_yet
    · have worker : Thread.worker i ≠ .caller := nofun
      exact .inr ⟨i, (Atomic.seen_join_of_ne worker).trans newest⟩
  joined := by
    intro k joining i below
    cases joining
    have worker : Thread.worker i ≠ .caller := nofun
    simp only [Atomic.seen_join_of_ne worker, Atomic.seen_join_self]
    by_cases last : i = ⟨j, room⟩
    · rw [last]
      exact Nat.le_max_right _ _
    · have apart : i.val ≠ j := fun same => last (Fin.ext same)
      exact (holds.joined j here i (by omega)).trans (Nat.le_max_left _ _)
  result := nofun

theorem Inv.ret {lag j : Nat} {v : BitVec 64} {value : Atomic (Thread T) (BitVec 64)} (holds : Inv N s)
    (here : s.owner = .join j) (last : T ≤ j) (load : s.value.load .caller lag = some (v, value)) :
    Inv N { s with value := value, owner := .returned v } := by
  have move : ForkJoin.Move (life N) v s.pc s.owner (.returned v) s.pc := by
    rw [here]
    exact .ret last
  obtain ⟨-, -, all⟩ := move.returned holds.sound
  have paid : ∑ i, owed N (s.pc i) = 0 := by simp [all, life, owed]
  have aware : s.value.seen .caller = s.value.stores := by
    obtain none_yet | ⟨i, newest⟩ := holds.latest
    · have least := s.value.seen_le .caller
      omega
    · refine Nat.le_antisymm (s.value.seen_le _) ?_
      rw [← newest]
      exact holds.joined j here i (by omega)
  have after := holds.load (fun i impossible => by cases impossible) load
  refine ⟨move.sound holds.sound, after.counts, after.total, after.own, after.latest, ?_, ?_⟩
  · intro k impossible
    cases impossible
  intro w returned
  cases returned
  have total := holds.total
  rw [(Atomic.load_own load aware).1, holds.counts.current, nth, ← total, paid]
  exact BitVec.zero_add _

theorem inv_move (holds : Inv N s) (move : Move N s a t) : Inv N t := by
  cases move with
  | increment pc => exact holds.increment pc
  | @get u lag v value alive load =>
    refine holds.load ?_ load
    rintro i rfl ended
    simp only [running, ended] at alive
    cases alive
  | create here move => exact holds.create here move
  | join here room ended => exact holds.join here room ended
  | ret here last load => exact holds.ret here last load

theorem inv_preserved : Preserved (step N) (Inv (T := T) N) :=
  fun _ _ _ holds moved => inv_move holds (step_move moved)

theorem inv_reachable (reached : Reachable (step N) (initial T) s) : Inv N s :=
  reached.invariant inv_preserved inv_initial

/-- Increments a thread has made. -/
def made (N : Nat) (s : State T) : Thread T → Nat
  | .caller => 0
  | .worker i => N - owed N (s.pc i)

theorem Inv.made_le (holds : Inv N s) (u : Thread T) : made N s u ≤ s.value.seen u := by
  cases u with
  | caller => exact Nat.zero_le _
  | worker i =>
    have own := holds.own i
    simp only [made]
    omega

theorem Inv.get_value {u : Thread T} {lag : Nat} {answer : BitVec 64} (holds : Inv N s)
    (got : step N s (.get u lag answer) = some t) :
    ∃ n, answer = BitVec.ofNat 64 n ∧ s.value.seen u ≤ n ∧ n ≤ s.value.stores ∧ t.value.seen u = n := by
  cases step_move got with
  | get alive load =>
    obtain ⟨n, known, fresh, rfl, rfl⟩ := holds.counts.load load
    have seen : (s.value.observe u n known).seen u = n := Atomic.seen_observe_self
    exact ⟨n, BitVec.zero_add _, fresh, known, seen⟩

theorem seen_run {u : Thread T} {acts : List (Action T)} (runs : run (step N) s acts = some t) :
    s.value.seen u ≤ t.value.seen u := by
  refine Preserved.run (I := fun t => s.value.seen u ≤ t.value.seen u) ?_ le_rfl runs
  exact fun _ _ _ before moved => before.trans (seen_move (step_move moved))

/-- Two calls of `get` by one thread, with anything between them: the results are numbers of
increments made by then, no fewer than the thread's own, and do not go back. -/
theorem gets_between (T N : Nat) (s t u v : State T) (who : Thread T) (lag lag' : Nat)
    (first second : BitVec 64) (acts : List (Action T)) (reached : Reachable (step N) (initial T) s)
    (got : step N s (.get who lag first) = some t) (runs : run (step N) t acts = some u)
    (again : step N u (.get who lag' second) = some v) :
    ∃ m n, first = BitVec.ofNat 64 m ∧ second = BitVec.ofNat 64 n ∧ m ≤ n ∧
      made N s who ≤ m ∧ m + ∑ i, owed N (s.pc i) ≤ T * N ∧
      made N u who ≤ n ∧ n + ∑ i, owed N (u.pc i) ≤ T * N := by
  have before := inv_reachable reached
  have after := inv_reachable ((reached.next got).trans ⟨acts, runs⟩)
  obtain ⟨m, same, least, most, known⟩ := before.get_value got
  obtain ⟨n, same', least', most', -⟩ := after.get_value again
  have grows := seen_run (u := who) runs
  have total := before.total
  have total' := after.total
  have own := before.made_le who
  have own' := after.made_le who
  exact ⟨m, n, same, same', by omega, by omega, by omega, by omega, by omega⟩

/-- A worker misses an increment of the other's each time, but never its own. -/
theorem gets_between_stale :
    ∃ s t u v : State 2,
      run (step 2) (initial 2) [.caller 0, .caller 0, .increment 0, .increment 1] = some s ∧
      step 2 s (.get (.worker 0) 1 1) = some t ∧ run (step 2) t [.increment 1] = some u ∧
      step 2 u (.get (.worker 0) 1 2) = some v ∧
      ∃ m n : Nat, (1 : BitVec 64) = BitVec.ofNat 64 m ∧ (2 : BitVec 64) = BitVec.ofNat 64 n ∧
        1 ≤ m ∧ m ≤ n ∧ n ≤ 4 := by
  have reached : run (step 2) (initial 2) [.caller 0, .caller 0, .increment 0, .increment 1] = some _ := rfl
  refine ⟨_, _, _, _, reached, rfl, rfl, rfl, ?_⟩
  obtain ⟨m, n, one, two, ordered, own, -, -, most⟩ :=
    gets_between 2 2 _ _ _ _ (.worker 0) 1 1 1 2 [.increment 1] ⟨_, reached⟩ rfl rfl rfl
  exact ⟨m, n, one, two, own, ordered, le_of_add_le_left most⟩

def rank (N : Nat) (s : State T) : Nat := s.owner.work T + ∑ i, owed N (s.pc i)

theorem rank_lt {lag : Nat} (holds : Inv N s) (moved : step N s a = some t)
    (quiet : a = .caller lag ∨ ∃ i, a = .increment i) : rank N t < rank N s := by
  cases step_move moved with
  | @increment i left pc =>
    have sum := sum_update (owed N) s.pc i (loopTest left)
    rw [owed_loopTest, pc, owed] at sum
    simp only [rank]
    omega
  | get => simp at quiet
  | create here move => exact move.total_lt holds.sound (owed_loopTest N).le
  | join here room ended =>
    simp only [rank, here, ForkJoin.Owner.work]
    omega
  | ret here last load =>
    simp only [rank, here, ForkJoin.Owner.work]
    omega

theorem enabled (holds : Inv N s) (unreturned : ∀ v, s.owner ≠ .returned v) :
    ∃ a t, (a = .caller 0 ∨ ∃ i, a = .increment i) ∧ step N s a = some t := by
  cases here : s.owner with
  | create i =>
    by_cases room : i < T
    · exact ⟨_, _, .inl rfl, by simp only [step, callerStep, here, ForkJoin.step, room, ↓reduceDIte]; rfl⟩
    · exact ⟨_, _, .inl rfl, by simp only [step, callerStep, here, ForkJoin.step, room, ↓reduceDIte]; rfl⟩
  | join j =>
    by_cases room : j < T
    · have started : s.pc ⟨j, room⟩ ≠ .absent := by
        have sound := holds.sound
        rw [here] at sound
        exact sound.1 _
      cases pc : s.pc ⟨j, room⟩ with
      | absent => exact absurd pc started
      | increment left =>
        exact ⟨.increment ⟨j, room⟩, _, .inr ⟨_, rfl⟩, by simp only [step, RelaxedCounter.increment, pc]; rfl⟩
      | finished =>
        have ended : s.pc ⟨j, room⟩ = (life N).finished := pc
        exact ⟨_, _, .inl rfl,
          by simp only [step, callerStep, here, ForkJoin.step, room, ended, ↓reduceDIte, ↓reduceIte]; rfl⟩
    · exact ⟨_, _, .inl rfl,
        by simp only [step, callerStep, here, ForkJoin.step, room, ↓reduceDIte, Atomic.load_latest]; rfl⟩
  | returned v => exact absurd here (unreturned v)

/-- After the join `get` cannot be stale: the last call gives all `T * N` increments, and
from every reachable state the test can get there. -/
theorem counter_exact (T N : Nat) (s : State T) (reached : Reachable (step N) (initial T) s) :
    (∀ v, s.owner = .returned v → v = BitVec.ofNat 64 (T * N)) ∧
      ∃ t v, Reachable (step N) s t ∧ t.owner = .returned v := by
  have holds := inv_reachable reached
  refine ⟨holds.result, ?_⟩
  have progress (s : State T) (holds : Inv N s) (short : ¬∃ v, s.owner = .returned v) :
      ∃ t, Reachable (step N) s t ∧ Inv N t ∧ rank N t < rank N s := by
    obtain ⟨a, t, quiet, moved⟩ := enabled holds fun v returned => short ⟨v, returned⟩
    exact ⟨t, .of_step moved, inv_move holds (step_move moved), rank_lt holds moved quiet⟩
  obtain ⟨t, later, -, v, returned⟩ :=
    Reachable.of_rank (rank N) progress holds
  exact ⟨t, v, later, returned⟩

theorem counter_exact_joining :
    ∃ s : State 2,
      run (step 1) (initial 2) [.caller 0, .caller 0, .increment 1, .caller 0, .increment 0, .caller 0] = some s ∧
      s.owner = .join 1 ∧ ∃ t v, Reachable (step 1) s t ∧ t.owner = .returned v := by
  have runs : run (step 1) (initial 2)
      [.caller 0, .caller 0, .increment 1, .caller 0, .increment 0, .caller 0] = some _ := rfl
  exact ⟨_, runs, rfl, (counter_exact 2 1 _ ⟨_, runs⟩).2⟩

end Cpp20Showcase.AtomicModel.RelaxedCounter
