import Cpp20Showcase.Jthread.BarrierPhases

/-! The threads of `barrier_phases` are never more than one phase apart, and every one
of their arrivals is counted. -/

namespace Cpp20Showcase.Jthread.BarrierLockStep
open Lib Lib.TransitionSystem BarrierPhases

variable {n_threads n_phases generation : Nat} {s t : State n_threads} {a : Action n_threads}
  {b : Barrier} {mtx mtx' : Option (Fin n_threads)} {counts : List Nat} {pc : Fin n_threads → Pc}
  {i : Fin n_threads} {p : Nat} {here q : Pc}

def Placed (n_phases generation : Nat) : Pc → Prop
  | .absent => generation = 0
  | .arrive p => p = generation ∧ p < n_phases
  | .wait p token => token = p ∧ p < n_phases ∧ (p = generation ∨ p + 1 = generation)
  | .lock p | .load p | .store p _ | .unlock p => p + 1 = generation ∧ p < n_phases
  | .finished => generation = n_phases

theorem placed_loopTest (within : generation ≤ n_phases) :
    Placed n_phases generation (loopTest n_phases generation) := by
  rw [loopTest]
  split
  next more => exact ⟨rfl, more⟩
  next last => exact le_antisymm within (Nat.le_of_not_lt last)

theorem loopTest_ne_wait {p' token : Nat} : loopTest n_phases p ≠ .wait p' token := by
  rw [loopTest]
  split <;> simp

theorem loopTest_ne_store {p' loaded : Nat} : loopTest n_phases p ≠ .store p' loaded := by
  rw [loopTest]
  split <;> simp

/-- The barrier's side: its arrivals are the threads that wait for the coming generation. -/
structure Phased (n_phases : Nat) (b : Barrier) (pc : Fin n_threads → Pc) : Prop where
  within : b.generation ≤ n_phases
  placed : ∀ i, Placed n_phases b.generation (pc i)
  arrived : b.arrived = headcount (· = .wait b.generation b.generation) pc
  coming : 0 < n_threads → b.arrived < n_threads

theorem Phased.move (phased : Phased n_phases b pc) (point : pc i = here)
    (placed : Placed n_phases b.generation here → Placed n_phases b.generation q)
    (before : here ≠ .wait b.generation b.generation) (after : q ≠ .wait b.generation b.generation) :
    Phased n_phases b (Function.update pc i q) where
  within := phased.within
  placed := Function.forall_update_iff pc (fun _ => Placed n_phases b.generation) |>.mpr
    ⟨placed (point ▸ phased.placed i), fun j _ => phased.placed j⟩
  arrived := by
    subst point
    have kept : headcount (· = .wait b.generation b.generation) (Function.update pc i q) =
        headcount (· = .wait b.generation b.generation) pc :=
      headcount_stay (iff_of_false after before)
    rw [kept, phased.arrived]
  coming := phased.coming

theorem Phased.arrive (phased : Phased n_phases b pc) (point : pc i = .arrive p) :
    Phased n_phases (b.arrive n_threads) (Function.update pc i (.wait p b.generation)) := by
  obtain ⟨rfl, more⟩ : p = b.generation ∧ p < n_phases := by
    have placed := phased.placed i
    rwa [point] at placed
  have grown : headcount (· = .wait b.generation b.generation)
      (Function.update pc i (.wait b.generation b.generation)) = b.arrived + 1 := by
    rw [phased.arrived]
    exact headcount_enter (by rw [point]; simp) rfl
  have below := phased.coming i.pos
  by_cases last : b.arrived + 1 = n_threads
  · have all : ∀ j, Function.update pc i (.wait b.generation b.generation) j = .wait b.generation b.generation :=
      headcount_eq_card_iff.mp (by rw [grown, last, Fintype.card_fin])
    simp only [Barrier.arrive, last, ↓reduceIte]
    constructor
    · exact more
    · intro j
      rw [all j]
      exact ⟨rfl, more, .inr rfl⟩
    · symm
      apply headcount_eq_zero_iff.mpr
      intro j
      rw [all j]
      simp
    · exact id
  · simp only [Barrier.arrive, last, ↓reduceIte]
    constructor
    · exact phased.within
    · exact Function.forall_update_iff pc (fun _ => Placed n_phases b.generation) |>.mpr
        ⟨⟨rfl, more, .inl rfl⟩, fun j _ => phased.placed j⟩
    · exact grown.symm
    · exact fun _ => show b.arrived + 1 < n_threads by omega

def Critical : Pc → Prop
  | .load _ | .store _ _ | .unlock _ => True
  | .absent | .arrive _ | .wait _ _ | .lock _ | .finished => False

def counted (n_phases : Nat) : Pc → Nat
  | .absent => 0
  | .arrive p | .wait p _ | .lock p | .load p | .store p _ => p
  | .unlock p => p + 1
  | .finished => n_phases

theorem critical_loopTest : ¬Critical (loopTest n_phases p) := by
  rw [loopTest]
  split
  next => exact id
  next => exact id

theorem counted_loopTest (within : p ≤ n_phases) : counted n_phases (loopTest n_phases p) = p := by
  rw [loopTest]
  split
  next => rfl
  next last => exact le_antisymm (Nat.le_of_not_lt last) within

/-- The counting side: each entry is the number of threads that have counted its phase. -/
structure Tallied (n_phases : Nat) (mtx : Option (Fin n_threads)) (counts : List Nat)
    (pc : Fin n_threads → Pc) : Prop where
  owned : Owned Critical pc mtx
  loaded : ∀ i p v, pc i = .store p v → counts[p]? = some v
  length : counts.length = n_phases
  entry : ∀ p < n_phases, counts[p]? = some (headcount (p < counted n_phases ·) pc)

theorem Tallied.move (tallied : Tallied n_phases mtx counts pc) (point : pc i = here)
    (owned : Owned Critical (Function.update pc i q) mtx')
    (same : counted n_phases q = counted n_phases here)
    (own : ∀ p v, q = .store p v → counts[p]? = some v) :
    Tallied n_phases mtx' counts (Function.update pc i q) where
  owned := owned
  loaded := Function.forall_update_iff pc (fun _ q => ∀ p v, q = .store p v → counts[p]? = some v) |>.mpr
    ⟨own, fun j _ => tallied.loaded j⟩
  length := tallied.length
  entry := by
    intro p inside
    rw [tallied.entry p inside, headcount_stay (by rw [same, point])]

theorem Tallied.store {v : Nat} (tallied : Tallied n_phases mtx counts pc) (point : pc i = .store p v) :
    Tallied n_phases mtx (counts.set p (v + 1)) (Function.update pc i (.unlock p)) := by
  have inside : Critical (pc i) := by rw [point]; trivial
  have value := tallied.loaded i p v point
  constructor
  · exact tallied.owned.stay (iff_of_true trivial inside)
  · apply (Function.forall_update_iff pc fun _ q => ∀ p' w, q = .store p' w →
      (counts.set p (v + 1))[p']? = some w).mpr
    constructor
    · intro p' w impossible
      cases impossible
    · intro j other p' w there
      exact absurd (tallied.owned.exclusive (by rw [there]; trivial) inside) other
  · rw [List.length_set, tallied.length]
  · intro p' within
    by_cases same : p' = p
    · subst same
      have before := tallied.entry p' within
      rw [value, Option.some.injEq] at before
      have added : headcount (p' < counted n_phases ·) (Function.update pc i (.unlock p')) =
          headcount (p' < counted n_phases ·) pc + 1 :=
        headcount_enter (by rw [point]; exact lt_irrefl p') (Nat.lt_succ_self p')
      rw [List.getElem?_set_self (by rw [tallied.length]; exact within), added, before]
    · rw [List.getElem?_set_ne (Ne.symm same), tallied.entry p' within, headcount_stay]
      rw [point]
      simp only [counted]
      omega

structure Inv (n_phases : Nat) (s : State n_threads) : Prop where
  sound : s.owner.Sound (life n_phases) s.pc
  phased : Phased n_phases s.sync s.pc
  tallied : Tallied n_phases s.mtx s.phase_count s.pc
  result : ∀ r, s.owner = .returned r → r = List.replicate n_phases n_threads

theorem inv_initial : Inv n_phases (initial n_threads n_phases) where
  sound := ForkJoin.sound_start
  phased :=
    { within := Nat.zero_le n_phases
      placed := fun _ => rfl
      arrived := by
        symm
        exact headcount_eq_zero_iff.mpr fun _ => show Pc.absent ≠ .wait 0 0 by decide
      coming := id }
  tallied :=
    { owned := Owned.start fun _ => id
      loaded := by
        intro i p v impossible
        cases impossible
      length := List.length_replicate
      entry := by
        intro p within
        have nobody : headcount (p < counted n_phases ·) (initial n_threads n_phases).pc = 0 :=
          headcount_eq_zero_iff.mpr fun _ => Nat.not_lt_zero p
        rw [nobody, initial, List.getElem?_replicate, if_pos within] }
  result := by
    intro r impossible
    cases impossible

theorem Tallied.full (tallied : Tallied n_phases mtx counts pc) (within : p < n_phases)
    (past : ∀ i, p < counted n_phases (pc i)) : counts[p]? = some n_threads := by
  have all : headcount (p < counted n_phases ·) pc = Fintype.card (Fin n_threads) :=
    headcount_eq_card_iff.mpr past
  rw [tallied.entry p within, all, Fintype.card_fin]

theorem Tallied.finished (tallied : Tallied n_phases mtx counts pc) (all : ∀ i, pc i = .finished) :
    counts = List.replicate n_phases n_threads := by
  apply List.ext_getElem?
  intro p
  by_cases within : p < n_phases
  · rw [tallied.full within fun i => by rw [all i]; exact within, List.getElem?_replicate, if_pos within]
  · have short := tallied.length
    rw [List.getElem?_eq_none (by omega), List.getElem?_eq_none (by rw [List.length_replicate]; omega)]

theorem inv_owner {owner' : ForkJoin.Owner (List Nat)} {pc' : Fin n_threads → Pc} (holds : Inv n_phases s)
    (move : ForkJoin.Move (life n_phases) s.phase_count s.pc s.owner owner' pc') :
    Inv n_phases { s with owner := owner', pc := pc' } := by
  constructor
  · exact move.sound holds.sound
  · obtain rfl | ⟨i, absent, rfl⟩ := move.threads holds.sound
    · exact holds.phased
    · apply holds.phased.move absent
      · intro start
        rw [show s.sync.generation = 0 from start]
        exact placed_loopTest (Nat.zero_le n_phases)
      · exact nofun
      · exact loopTest_ne_wait
  · obtain rfl | ⟨i, absent, rfl⟩ := move.threads holds.sound
    · exact holds.tallied
    · apply holds.tallied.move absent
      · exact holds.tallied.owned.stay (by rw [absent]; exact iff_of_false critical_loopTest id)
      · exact counted_loopTest (Nat.zero_le n_phases)
      · exact fun p v impossible => absurd impossible loopTest_ne_store
  · intro r returned
    change owner' = .returned r at returned
    subst returned
    obtain ⟨rfl, -, all⟩ := move.returned holds.sound
    exact holds.tallied.finished all

theorem inv_move (holds : Inv n_phases s) (move : Move n_phases s a t) : Inv n_phases t := by
  have owned := holds.tallied.owned
  cases move with
  | @arrive i p pc =>
    constructor
    · exact holds.sound.move pc nofun nofun nofun
    · exact holds.phased.arrive pc
    · exact holds.tallied.move pc (owned.stay (by rw [pc]; exact Iff.rfl)) rfl nofun
    · exact holds.result
  | @wait i p token pc released =>
    constructor
    · exact holds.sound.move pc nofun nofun nofun
    · apply holds.phased.move pc
      · intro placed
        obtain ⟨rfl, more, place⟩ := placed
        exact ⟨place.resolve_left (Ne.symm released), more⟩
      · intro same
        exact released (Pc.wait.inj same).2.symm
      · exact nofun
    · exact holds.tallied.move pc (owned.stay (by rw [pc]; exact Iff.rfl)) rfl nofun
    · exact holds.result
  | @lock i p pc free =>
    rw [free] at owned
    constructor
    · exact holds.sound.move pc nofun nofun nofun
    · exact holds.phased.move pc id nofun nofun
    · exact holds.tallied.move pc (owned.enter trivial) rfl nofun
    · exact holds.result
  | @load i p loaded pc value =>
    constructor
    · exact holds.sound.move pc nofun nofun nofun
    · exact holds.phased.move pc id nofun nofun
    · apply holds.tallied.move pc
      · exact owned.stay (by rw [pc]; exact Iff.rfl)
      · rfl
      · intro p' v own
        cases own
        exact value
    · exact holds.result
  | @store i p loaded pc =>
    constructor
    · exact holds.sound.move pc nofun nofun nofun
    · exact holds.phased.move pc id nofun nofun
    · exact holds.tallied.store pc
    · exact holds.result
  | @unlock i p pc =>
    have placed := holds.phased.placed i
    rw [pc] at placed
    constructor
    · exact holds.sound.move pc nofun nofun loopTest_ne_absent
    · apply holds.phased.move pc
      · intro _
        rw [placed.1]
        exact placed_loopTest holds.phased.within
      · exact nofun
      · exact loopTest_ne_wait
    · apply holds.tallied.move pc (owned.leave (by rw [pc]; trivial) critical_loopTest)
      · exact counted_loopTest placed.2
      · exact fun p' v impossible => absurd impossible loopTest_ne_store
    · exact holds.result
  | owner move => exact inv_owner holds move

theorem inv_preserved : Preserved (step n_phases) fun s : State n_threads => Inv n_phases s :=
  fun _ _ _ holds moved => inv_move holds (step_move moved)

theorem Phased.counted_range (phased : Phased n_phases b pc) (i : Fin n_threads) :
    counted n_phases (pc i) ≤ b.generation ∧ b.generation ≤ counted n_phases (pc i) + 1 := by
  have placed := phased.placed i
  have within := phased.within
  cases point : pc i <;> simp only [point, Placed, counted] at placed ⊢ <;> omega

/-- `n, …, n, k, 0, …, 0` with `k ≤ n`. -/
def LockStep (n : Nat) (counts : List Nat) : Prop :=
  counts = [] ∨ ∃ full k rest, k ≤ n ∧ counts = List.replicate full n ++ k :: List.replicate rest 0

theorem lockStep_of_entries {n size k : Nat} (full : Nat) (short : counts.length = size) (room : full < size)
    (bound : k ≤ n) (below : ∀ p < full, counts[p]? = some n) (border : counts[full]? = some k)
    (above : ∀ p < size, full < p → counts[p]? = some 0) : LockStep n counts := by
  refine .inr ⟨full, k, size - full - 1, bound, List.ext_getElem? fun p => ?_⟩
  obtain before | rfl | after := Nat.lt_trichotomy p full
  · rw [List.getElem?_append_left (by simpa using before), List.getElem?_replicate, if_pos before, below p before]
  · rw [List.getElem?_append_right (by simp), List.length_replicate, Nat.sub_self, border]
    rfl
  · rw [List.getElem?_append_right (by simpa using after.le), List.length_replicate,
      show p - full = (p - full - 1) + 1 by omega, List.getElem?_cons_succ, List.getElem?_replicate]
    by_cases inside : p < size
    · rw [above p inside after, if_pos (by omega)]
    · rw [List.getElem?_eq_none (by omega), if_neg (by omega)]

theorem lockStep_of_phased (phased : Phased n_phases b pc) (tallied : Tallied n_phases mtx counts pc) :
    LockStep n_threads counts := by
  have range := phased.counted_range
  have within := phased.within
  by_cases phases : 0 < n_phases
  · have some : headcount (b.generation - 1 < counted n_phases ·) pc ≤ n_threads :=
      headcount_le.trans_eq (Fintype.card_fin n_threads)
    apply lockStep_of_entries (b.generation - 1) tallied.length (by omega) some
    · intro p before
      apply tallied.full (by omega)
      intro i
      have bounds := range i
      omega
    · exact tallied.entry _ (by omega)
    · intro p inside after
      rw [tallied.entry p inside, Option.some.injEq, headcount_eq_zero_iff]
      intro i
      have bounds := range i
      omega
  · left
    apply List.eq_nil_of_length_eq_zero
    rw [tallied.length]
    omega

def work (n_phases : Nat) : Pc → Nat
  | .absent => 6 * n_phases
  | .arrive p => 6 * (n_phases - 1 - p) + 6
  | .wait p _ => 6 * (n_phases - 1 - p) + 5
  | .lock p => 6 * (n_phases - 1 - p) + 4
  | .load p => 6 * (n_phases - 1 - p) + 3
  | .store p _ => 6 * (n_phases - 1 - p) + 2
  | .unlock p => 6 * (n_phases - 1 - p) + 1
  | .finished => 0

theorem work_loopTest : work n_phases (loopTest n_phases p) ≤ 6 * (n_phases - p) := by
  rw [loopTest]
  split
  next more => simp only [work]; omega
  next last => exact Nat.zero_le _

def rank (n_phases : Nat) (s : State n_threads) : Nat :=
  s.owner.work n_threads + ∑ i, work n_phases (s.pc i)

theorem rank_at {sync : Barrier} (point : s.pc i = here) (less : work n_phases q < work n_phases here) :
    rank n_phases ({ s with sync := sync, mtx := mtx, phase_count := counts }.at i q) < rank n_phases s := by
  have moved := sum_update (work n_phases) s.pc i q
  rw [point] at moved
  simp only [rank, State.at]
  omega

theorem rank_lt (holds : Inv n_phases s) (move : Move n_phases s a t) : rank n_phases t < rank n_phases s := by
  cases move with
  | arrive pc => exact rank_at pc (by simp only [work]; omega)
  | wait pc => exact rank_at pc (by simp only [work]; omega)
  | lock pc => exact rank_at pc (by simp only [work]; omega)
  | load pc => exact rank_at pc (by simp only [work]; omega)
  | store pc => exact rank_at pc (by simp only [work]; omega)
  | @unlock i p pc =>
    apply rank_at pc
    have less : work n_phases (loopTest n_phases (p + 1)) ≤ 6 * (n_phases - (p + 1)) := work_loopTest
    have here : work n_phases (.unlock p) = 6 * (n_phases - 1 - p) + 1 := rfl
    omega
  | owner move => exact move.total_lt holds.sound work_loopTest

theorem thread_enabled (holds : Inv n_phases s) (present : s.pc i ≠ .absent) (running : s.pc i ≠ .finished)
    (free : ∀ p, s.pc i = .lock p → s.mtx = none)
    (released : s.pc i ≠ .wait s.sync.generation s.sync.generation) : ∃ a t, step n_phases s a = some t := by
  have placed := holds.phased.placed i
  cases pc : s.pc i with
  | absent => exact absurd pc present
  | arrive p => exact ⟨.arrive i, _, by simp only [step, arrive, pc]; rfl⟩
  | wait p token =>
    rw [pc] at placed released
    have passed : s.sync.generation ≠ token := by
      intro same
      rw [same, placed.1] at released
      exact released rfl
    exact ⟨.wait i, _, by simp only [step, wait, pc, passed, ↓reduceIte]; rfl⟩
  | lock p => exact ⟨.lock i, _, by simp only [step, lock, pc, free p pc, ↓reduceIte]; rfl⟩
  | load p =>
    rw [pc] at placed
    have value := holds.tallied.entry p placed.2
    exact ⟨.load i, _, by simp only [step, BarrierPhases.load, pc, value, Option.map_some]; rfl⟩
  | store p loaded => exact ⟨.store i, _, by simp only [step, BarrierPhases.store, pc]; rfl⟩
  | unlock p => exact ⟨.unlock i, _, by simp only [step, unlock, pc]; rfl⟩
  | finished => exact absurd pc running

/-- The threads cannot all be waiting at the barrier: the last of them released it. -/
theorem enabled (holds : Inv n_phases s) (unreturned : ∀ r, s.owner ≠ .returned r) :
    ∃ a t, step n_phases s a = some t := by
  obtain ⟨owner', pc', moved⟩ | ⟨started, i, running⟩ :=
    holds.sound.enabled s.phase_count unreturned
  · exact ⟨.owner, _, by rw [step, ownerStep, moved]; rfl⟩
  by_cases inside : ∃ j, Critical (s.pc j)
  · obtain ⟨j, here⟩ := inside
    apply thread_enabled (i := j) holds (started j)
    · intro finished
      rwa [finished] at here
    · intro p waits
      rw [waits] at here
      exact here.elim
    · intro waits
      rwa [waits] at here
  · have free : s.mtx = none := holds.tallied.owned.vacant fun j here => inside ⟨j, here⟩
    by_contra stuck
    have waiting : ∀ j, s.pc j ≠ .finished → s.pc j = .wait s.sync.generation s.sync.generation := by
      intro j running'
      by_contra released
      exact stuck (thread_enabled holds (started j) running' (fun _ _ => free) released)
    have more : s.sync.generation < n_phases := by
      have placed := holds.phased.placed i
      rw [waiting i running] at placed
      exact placed.2.1
    have all : ∀ j, s.pc j = .wait s.sync.generation s.sync.generation := by
      intro j
      apply waiting
      intro finished
      have placed := holds.phased.placed j
      rw [finished] at placed
      exact absurd placed more.ne
    have full : s.sync.arrived = n_threads := by
      rw [holds.phased.arrived]
      exact (headcount_eq_card_iff.mpr all).trans (Fintype.card_fin n_threads)
    have coming := holds.phased.coming i.pos
    omega

theorem returns (holds : Inv n_phases s) : ∃ t r, Reachable (step n_phases) s t ∧ t.owner = .returned r := by
  have short : ∀ s : State n_threads, Inv n_phases s → (¬∃ r, s.owner = .returned r) →
      ∃ a t, step n_phases s a = some t :=
    fun s holds unreturned => enabled holds fun r returned => unreturned ⟨r, returned⟩
  obtain ⟨t, reached, -, r, returned⟩ := Reachable.of_decreasing (rank n_phases) inv_preserved
    (fun _ _ _ holds moved => rank_lt holds (step_move moved)) short holds
  exact ⟨t, r, reached, returned⟩

/-- In every reachable state, for any number of threads and phases: the entries are
`n_threads` up to the phase being counted and zero after it, nobody counts a phase before
everybody has counted the one before, and the call can return, with every phase
counted by every thread. -/
theorem phases_in_lock_step (n_threads n_phases : Nat) (s : State n_threads)
    (reached : Reachable (step n_phases) (initial n_threads n_phases) s) :
    s.phase_count.length = n_phases ∧ LockStep n_threads s.phase_count ∧
      (∀ i p loaded, s.pc i = .store (p + 1) loaded → s.phase_count[p]? = some n_threads) ∧
      (∃ t r, Reachable (step n_phases) s t ∧ t.owner = .returned r) ∧
      ∀ r, s.owner = .returned r → r = List.replicate n_phases n_threads := by
  have holds := reached.invariant inv_preserved inv_initial
  refine ⟨holds.tallied.length, lockStep_of_phased holds.phased holds.tallied, ?_, returns holds, holds.result⟩
  intro i p loaded pc
  obtain ⟨next, more⟩ : p + 1 + 1 = s.sync.generation ∧ p + 1 < n_phases := by
    have placed := holds.phased.placed i
    rwa [pc] at placed
  apply holds.tallied.full (by omega)
  intro j
  have range := holds.phased.counted_range j
  omega

/-- Thread 0 waits at the second barrier while thread 1 has the first phase still to count. -/
theorem phases_in_lock_step_overtaken :
    ∃ s : State 2,
      run (step 2) (initial 2 2) [.owner, .owner, .arrive 1, .arrive 0, .wait 0, .lock 0, .load 0, .store 0,
        .unlock 0, .arrive 0] = some s ∧
      s.phase_count = [1, 0] ∧ s.pc 1 = .wait 0 0 ∧ step 2 s (.wait 0) = none ∧ LockStep 2 s.phase_count ∧
      ∃ t r, Reachable (step 2) s t ∧ t.owner = .returned r := by
  have runs : run (step 2) (initial 2 2) [.owner, .owner, .arrive 1, .arrive 0, .wait 0, .lock 0, .load 0,
      .store 0, .unlock 0, .arrive 0] = some _ := rfl
  obtain ⟨-, shape, -, finishes, -⟩ := phases_in_lock_step 2 2 _ ⟨_, runs⟩
  exact ⟨_, runs, rfl, rfl, rfl, shape, finishes⟩

end Cpp20Showcase.Jthread.BarrierLockStep
