import Cpp20Showcase.AtomicModel.LazySingleton

/-! `LazySingleton::instance` constructs one object. The abstract model is the life of
that object; the heap, `s_instance` and the constructions made are functions of it. -/

namespace Cpp20Showcase.AtomicModel.SingletonLife
open Lib Lib.TransitionSystem LazySingleton

/-- How far the object is, and by which thread, with which arguments and where. -/
inductive Life (Thread Addr Args : Type) where
  | absent
  | building (t : Thread) (args : Args) (addr : Addr)
  | built (t : Thread) (args : Args) (addr : Addr)
  | published (t : Thread) (args : Args) (addr : Addr)

variable {Thread Addr Args Err : Type}

namespace Life

def current : Life Thread Addr Args → Option Addr
  | .absent | .building _ _ _ | .built _ _ _ => none
  | .published _ _ addr => some addr

def constructions : Life Thread Addr Args → List (Thread × Args × Addr)
  | .absent | .building _ _ _ => []
  | .built t args addr | .published t args addr => [(t, args, addr)]

def maker : Life Thread Addr Args → Option (Thread × Args)
  | .absent => none
  | .building t args _ | .built t args _ | .published t args _ => some (t, args)

def Active (pc : Thread → Pc Addr Args Err) : Life Thread Addr Args → Prop
  | .absent | .published _ _ _ => True
  | .building t args addr => pc t = .construct args addr
  | .built t _ addr => pc t = .store addr

/-- What a thread may rely on at a program point. -/
def Allows (life : Life Thread Addr Args) (t : Thread) : Pc Addr Args Err → Prop
  | .idle | .fastLoad _ | .lock _ | .slowLoad _ | .leave (.error _) => True
  | .new _ | .unlock (.error _) => life = .absent
  | .construct args addr => life = .building t args addr
  | .store addr => ∃ args, life = .built t args addr
  | .unlock (.ok addr) | .leave (.ok addr) => life.current = some addr

variable [DecidableEq Addr]

def heap : Life Thread Addr Args → Addr → Option (Object Args)
  | .absent => fun _ => none
  | .building _ args addr => Function.update (fun _ => none) addr (some ⟨args, false⟩)
  | .built _ args addr | .published _ args addr =>
      Function.update (fun _ => none) addr (some ⟨args, true⟩)

end Life

def args : Pc Addr Args Err → Option Args
  | .fastLoad args | .lock args | .slowLoad args | .new args => some args
  | .idle | .construct _ _ | .store _ | .unlock _ | .leave _ => none

def informed : Option Thread → View Thread
  | none => .mutex
  | some t => .thread t

variable [DecidableEq Thread] [DecidableEq Addr]
variable {s u : State Thread Addr Args Err} {t : Thread} {q : Pc Addr Args Err}
variable {life after : Life Thread Addr Args}

structure Inv (life : Life Thread Addr Args) (s : State Thread Addr Args Err) : Prop where
  current : s.sInstance.current = life.current
  heap : s.heap = life.heap
  constructions : s.constructions = life.constructions
  active : life.Active s.pc
  allows : ∀ t, life.Allows t (s.pc t)
  owned : Owned InSection s.pc s.sMutex
  latest : s.sInstance.seen (informed s.sMutex) = s.sInstance.stores
  history : ∀ v ∈ s.sInstance.history, v = none ∨ v = s.sInstance.current
  called : ∀ t a, args (s.pc t) = some a → (t, a) ∈ s.calls
  maker : ∀ call, life.maker = some call → call ∈ s.calls
  returned : ∀ r ∈ s.returned, life.current = some r.2

omit [DecidableEq Thread] in
theorem inv_initial : Inv .absent (initial : State Thread Addr Args Err) where
  current := rfl
  heap := rfl
  constructions := rfl
  active := trivial
  allows := fun _ => trivial
  owned := Owned.start fun _ => id
  latest := rfl
  history := fun v member => by simpa [initial, Atomic.make, Atomic.history] using member
  called := fun _ _ impossible => by cases impossible
  maker := fun _ impossible => by cases impossible
  returned := fun _ impossible => by cases impossible

def Making : Pc Addr Args Err → Prop
  | .construct _ _ | .store _ => True
  | .idle | .fastLoad _ | .lock _ | .slowLoad _ | .new _ | .unlock _ | .leave _ => False

omit [DecidableEq Thread] [DecidableEq Addr] in
theorem Making.inSection (making : Making q) : InSection q := by
  cases q with
  | construct | store => trivial
  | idle | fastLoad | lock | slowLoad | new | unlock | leave => exact making.elim

theorem Inv.active_at (holds : Inv life s) (waits : ¬Making (s.pc t)) :
    life.Active (Function.update s.pc t q) := by
  have active := holds.active
  cases life with
  | absent | published => trivial
  | building maker args addr =>
    simp only [Life.Active] at active ⊢
    rw [Function.update_of_ne, active]
    intro same
    rw [← same, active] at waits
    exact waits trivial
  | built maker args addr =>
    simp only [Life.Active] at active ⊢
    rw [Function.update_of_ne, active]
    intro same
    rw [← same, active] at waits
    exact waits trivial

theorem Inv.allows_at (holds : Inv life s) (allowed : life.Allows t q) :
    ∀ i, life.Allows i (Function.update s.pc t q i) := by
  intro i
  by_cases same : i = t
  · subst same
    rwa [Function.update_self]
  · rw [Function.update_of_ne same]
    exact holds.allows i

theorem Inv.called_at (holds : Inv life s) (own : ∀ a, args q = some a → (t, a) ∈ s.calls) :
    ∀ i a, args (Function.update s.pc t q i) = some a → (i, a) ∈ s.calls := by
  intro i a
  by_cases same : i = t
  · subst same
    rw [Function.update_self]
    exact own a
  · rw [Function.update_of_ne same]
    exact holds.called i a

theorem Inv.walk (holds : Inv life s) (waits : ¬Making (s.pc t)) (allowed : life.Allows t q)
    (inside : InSection q ↔ InSection (s.pc t)) (own : ∀ a, args q = some a → (t, a) ∈ s.calls) :
    Inv life (s.at t q) :=
  { holds with
    active := holds.active_at waits
    allows := holds.allows_at allowed
    owned := holds.owned.stay inside
    called := holds.called_at own }

theorem Inv.loads {lag : Nat} {v : Option Addr} {b : Atomic (View Thread) (Option Addr)}
    (holds : Inv life s) (read : s.sInstance.load (.thread t) lag = some (v, b)) :
    Inv life { s with sInstance := b } := by
  obtain ⟨-, newer, rfl⟩ := Atomic.load_cases read
  have latest := holds.latest
  refine { holds with latest := ?_ }
  by_cases same : informed s.sMutex = .thread t
  · rw [same] at latest
    simp only [same, Atomic.seen_observe_self, Atomic.stores_observe]
    omega
  · simpa only [Atomic.seen_observe_of_ne same, Atomic.stores_observe] using latest

theorem Inv.found {lag : Nat} {addr : Addr} {b : Atomic (View Thread) (Option Addr)}
    (holds : Inv life s) (read : s.sInstance.load (.thread t) lag = some (some addr, b)) :
    life.current = some addr := by
  obtain ⟨member, -, -⟩ := Atomic.load_cases read
  rcases holds.history _ (List.mem_of_getElem? member) with impossible | latest
  · cases impossible
  · rw [← holds.current, latest]

omit [DecidableEq Thread] in
theorem Inv.absent_of (holds : Inv life s) (null : s.sInstance.current = none)
    (quiet : ∀ i, ¬Making (s.pc i)) : life = .absent := by
  have active := holds.active
  rw [holds.current] at null
  cases life with
  | absent => rfl
  | published => cases null
  | building maker args addr =>
    simp only [Life.Active] at active
    exact absurd (by rw [active]; trivial) (quiet maker)
  | built maker args addr =>
    simp only [Life.Active] at active
    exact absurd (by rw [active]; trivial) (quiet maker)

/-- Under the mutex null means that there is no object, not even an unpublished one. -/
theorem Inv.absent_of_null {lag : Nat} {a : Args} {b : Atomic (View Thread) (Option Addr)}
    (holds : Inv life s) (pc : s.pc t = .slowLoad a)
    (read : s.sInstance.load (.thread t) lag = some (none, b)) : life = .absent := by
  have here : InSection (s.pc t) := by rw [pc]; trivial
  have latest := holds.latest
  rw [holds.owned.owner_eq here] at latest
  obtain ⟨null, -⟩ := Atomic.load_own read latest
  apply holds.absent_of null.symm
  intro i making
  rw [holds.owned.exclusive making.inSection here, pc] at making
  exact making

omit [DecidableEq Thread] in
theorem Inv.absent_of_free (holds : Inv life s) (free : s.sMutex = none)
    (null : s.sInstance.current = none) : life = .absent := by
  apply holds.absent_of null
  intro i making
  have owner := holds.owned.owner_eq making.inSection
  rw [free] at owner
  cases owner

omit [DecidableEq Thread] in
theorem Inv.allows_elsewhere (holds : Inv life s) (here : InSection (s.pc t))
    (unborn : life.current = none) {i : Thread} (other : i ≠ t) : after.Allows i (s.pc i) := by
  have out : ¬InSection (s.pc i) := fun there => other (holds.owned.exclusive there here)
  have allowed := holds.allows i
  cases pc : s.pc i with
  | idle | fastLoad | lock => trivial
  | slowLoad | new | construct | store | unlock =>
    rw [pc] at out
    exact absurd trivial out
  | leave outcome =>
    cases outcome with
    | error e => trivial
    | ok addr =>
      rw [pc, Life.Allows, unborn] at allowed
      cases allowed

theorem Inv.advance {b : Atomic (View Thread) (Option Addr)} {heap : Addr → Option (Object Args)}
    {made : List (Thread × Args × Addr)} (holds : Inv life s) (here : InSection (s.pc t))
    (unborn : life.current = none) (stays : InSection q) (spent : args q = none)
    (allowed : after.Allows t q) (active : after.Active (Function.update s.pc t q))
    (maker : ∀ call, after.maker = some call → call ∈ s.calls)
    (sameHeap : heap = after.heap) (sameMade : made = after.constructions)
    (current : b.current = after.current) (latest : b.seen (.thread t) = b.stores)
    (history : ∀ v ∈ b.history, v = none ∨ v = b.current) :
    Inv after ({ s with sInstance := b, heap := heap, constructions := made }.at t q) where
  current := current
  heap := sameHeap
  constructions := sameMade
  active := active
  allows := by
    intro i
    by_cases same : i = t
    · subst same
      simpa only [State.at, Function.update_self] using allowed
    · simpa only [State.at, Function.update_of_ne same] using holds.allows_elsewhere here unborn same
  owned := holds.owned.stay (iff_of_true stays here)
  latest := by
    have owner := holds.owned.owner_eq here
    simpa only [State.at, owner, informed] using latest
  history := history
  called := holds.called_at fun a some => by rw [spent] at some; cases some
  maker := maker
  returned := fun r member => absurd (holds.returned r member) (by rw [unborn]; simp)

theorem Inv.advance_null {heap : Addr → Option (Object Args)} {made : List (Thread × Args × Addr)}
    (holds : Inv life s) (here : InSection (s.pc t)) (unborn : life.current = none)
    (null : after.current = none) (stays : InSection q) (spent : args q = none)
    (allowed : after.Allows t q) (active : after.Active (Function.update s.pc t q))
    (maker : ∀ call, after.maker = some call → call ∈ s.calls)
    (sameHeap : heap = after.heap) (sameMade : made = after.constructions) :
    Inv after ({ s with heap := heap, constructions := made }.at t q) := by
  have latest := holds.latest
  rw [holds.owned.owner_eq here] at latest
  have current := holds.current.trans (unborn.trans null.symm)
  exact holds.advance here unborn stays spent allowed active maker sameHeap sameMade current latest
    holds.history

theorem Inv.lock {a : Args} (holds : Inv life s) (pc : s.pc t = .lock a) (free : s.sMutex = none) :
    Inv life
      ({ s with
        sInstance := s.sInstance.join (.thread t) .mutex
        sMutex := some t }.at t (.slowLoad a)) := by
  have latest := holds.latest
  have owned := holds.owned
  rw [free] at latest owned
  exact
    { holds with
      active := holds.active_at (by rw [pc]; exact id)
      allows := holds.allows_at trivial
      owned := owned.enter trivial
      latest := Atomic.seen_join_latest latest
      called := holds.called_at fun b same => holds.called t b (by rw [pc]; exact same) }

theorem Inv.unlock {outcome : Except Err Addr} (holds : Inv life s)
    (pc : s.pc t = .unlock outcome) :
    Inv life
      ({ s with
        sInstance := s.sInstance.join .mutex (.thread t)
        sMutex := none }.at t (.leave outcome)) := by
  have here : InSection (s.pc t) := by rw [pc]; trivial
  have latest := holds.latest
  rw [holds.owned.owner_eq here] at latest
  have allowed : life.Allows t (.leave outcome : Pc Addr Args Err) := by
    have before := holds.allows t
    rw [pc] at before
    cases outcome with
    | ok addr => exact before
    | error e => trivial
  exact
    { holds with
      active := holds.active_at (by rw [pc]; exact id)
      allows := holds.allows_at allowed
      owned := holds.owned.leave here id
      latest := Atomic.seen_join_latest latest
      called := holds.called_at fun b impossible => by cases impossible }

theorem inv_move (holds : Inv life s) (move : Move s u) : ∃ after, Inv after u := by
  cases move with
  | @call t a pc =>
    have recorded : Inv life { s with calls := (t, a) :: s.calls } :=
      { holds with
        called := fun i b same => List.mem_cons_of_mem _ (holds.called i b same)
        maker := fun call same => List.mem_cons_of_mem _ (holds.maker call same) }
    refine ⟨life, recorded.walk (by rw [pc]; exact id) trivial (by rw [pc]; exact Iff.rfl) ?_⟩
    intro b same
    cases same
    exact List.mem_cons_self
  | @fastNull t a lag b pc read =>
    refine ⟨life, (holds.loads read).walk (by rw [pc]; exact id) trivial (by rw [pc]; exact Iff.rfl) ?_⟩
    exact fun b same => holds.called t b (by rw [pc]; exact same)
  | @fastFound t a lag addr b pc read =>
    refine ⟨life, (holds.loads read).walk (by rw [pc]; exact id) (holds.found read)
      (by rw [pc]; exact Iff.rfl) ?_⟩
    exact fun b impossible => by cases impossible
  | @lock t a pc free => exact ⟨life, holds.lock pc free⟩
  | @slowNull t a lag b pc read =>
    refine ⟨life, (holds.loads read).walk (by rw [pc]; exact id) (holds.absent_of_null pc read)
      (by rw [pc]; exact Iff.rfl) ?_⟩
    exact fun b same => holds.called t b (by rw [pc]; exact same)
  | @slowFound t a lag addr b pc read =>
    refine ⟨life, (holds.loads read).walk (by rw [pc]; exact id) (holds.found read)
      (by rw [pc]; exact Iff.rfl) ?_⟩
    exact fun b impossible => by cases impossible
  | @new t a addr pc free =>
    have absent := holds.allows t
    rw [pc] at absent
    cases absent
    refine ⟨.building t a addr, ?_⟩
    refine holds.advance_null (by rw [pc]; trivial) rfl rfl trivial rfl rfl ?_ ?_ ?_ ?_
    · exact Function.update_self ..
    · intro call maker
      cases maker
      exact holds.called t a (by rw [pc]; rfl)
    · rw [holds.heap]
      rfl
    · exact holds.constructions
  | @constructed t a addr pc =>
    have building := holds.allows t
    rw [pc] at building
    cases building
    refine ⟨.built t a addr, ?_⟩
    refine holds.advance_null (by rw [pc]; trivial) rfl rfl trivial rfl ⟨a, rfl⟩ ?_ ?_ ?_ ?_
    · exact Function.update_self ..
    · exact fun call same => holds.maker call same
    · rw [holds.heap, Life.heap, Life.heap, Function.update_idem]
    · rw [holds.constructions]
      rfl
  | @constructorThrows t a addr e pc =>
    have building := holds.allows t
    rw [pc] at building
    cases building
    refine ⟨.absent, ?_⟩
    refine holds.advance_null (by rw [pc]; trivial) rfl rfl trivial rfl rfl trivial ?_ ?_ ?_
    · intro call impossible
      cases impossible
    · rw [holds.heap, Life.heap, Life.heap, Function.update_idem]
      exact Function.update_eq_self addr _
    · exact holds.constructions
  | @store t addr pc =>
    have built := holds.allows t
    rw [pc] at built
    obtain ⟨a, rfl⟩ := built
    refine ⟨.published t a addr, ?_⟩
    refine holds.advance (by rw [pc]; trivial) rfl trivial rfl rfl trivial ?_ ?_ ?_ ?_ ?_ ?_
    · exact fun call same => holds.maker call same
    · exact holds.heap
    · exact holds.constructions
    · rfl
    · rw [Atomic.seen_store_self, Atomic.stores_store]
    · intro v member
      rw [Atomic.history_store] at member
      rcases List.mem_cons.mp member with rfl | earlier
      · exact .inr rfl
      · rcases holds.history v earlier with null | same
        · exact .inl null
        · exact .inl (same.trans holds.current)
  | @unlock t outcome pc => exact ⟨life, holds.unlock pc⟩
  | @returns t addr pc =>
    have current := holds.allows t
    rw [pc] at current
    have recorded : Inv life { s with returned := (t, addr) :: s.returned } := by
      refine { holds with returned := ?_ }
      intro r member
      rcases List.mem_cons.mp member with rfl | earlier
      · exact current
      · exact holds.returned r earlier
    refine ⟨life, recorded.walk (by rw [pc]; exact id) trivial (by rw [pc]; exact Iff.rfl) ?_⟩
    exact fun b impossible => by cases impossible
  | @raises t e pc =>
    have recorded : Inv life { s with raised := (t, e) :: s.raised } := { holds with }
    refine ⟨life, recorded.walk (by rw [pc]; exact id) trivial (by rw [pc]; exact Iff.rfl) ?_⟩
    exact fun b impossible => by cases impossible

theorem inv_preserved : Preserved step fun s : State Thread Addr Args Err => ∃ life, Inv life s := by
  intro s a u holds moved
  obtain ⟨life, holds⟩ := holds
  exact inv_move holds (step_move moved)

def alone (t : Thread) (a : Args) (addr : Addr) : List (Action Thread Addr Args Err) :=
  [.call t a, .fastLoad t 0, .lock t, .slowLoad t 0, .new t addr, .constructed t, .store t,
    .unlock t, .leave t]

theorem Inv.constructs (holds : Inv life s) (free : s.sMutex = none)
    (null : s.sInstance.current = none) (idle : s.pc t = .idle) (a : Args) (addr : Addr) :
    ∃ u, run step s (alone t a addr) = some u ∧ u.returned = (t, addr) :: s.returned ∧
      u.constructions = [(t, a, addr)] := by
  cases holds.absent_of_free free null
  have nowhere : s.heap addr = none := by rw [holds.heap]; rfl
  have unmade : s.constructions = [] := holds.constructions
  simp [alone, run, step, call, fastLoad, LazySingleton.lock, slowLoad, new, constructed, store,
    LazySingleton.unlock, leave, State.at, Atomic.load_latest, idle, free, null, nowhere, unmade]

/-- A call whose constructor may throw, or has thrown: the pointer is null, the mutex is given
back, and the exception is what the call ends with. -/
def ThrowIsClean (s : State Thread Addr Args Err) (t : Thread) : Prop :=
  (∀ a addr e, s.pc t = .construct a addr → ∃ u, step s (.constructorThrows t e) = some u ∧
      u.pc t = .unlock (.error e)) ∧
    (∀ e, s.pc t = .unlock (.error e) → s.sInstance.current = none ∧
      ∃ u, step s (.unlock t) = some u ∧ u.sInstance.current = none ∧ u.sMutex = none ∧
        u.pc t = .leave (.error e)) ∧
    ∀ e, s.pc t = .leave (.error e) → ∃ u, step s (.leave t) = some u ∧
      u.raised = (t, e) :: s.raised ∧ u.returned = s.returned ∧ u.pc t = .idle

theorem Inv.throw_clean (holds : Inv life s) (t : Thread) : ThrowIsClean s t := by
  refine ⟨?_, ?_, ?_⟩
  · intro a addr e pc
    refine ⟨_, by simp only [step, constructorThrows, pc]; rfl, ?_⟩
    simp [State.at]
  · intro e pc
    have absent := holds.allows t
    rw [pc] at absent
    cases absent
    have moved : step s (.unlock t) = some
        ({ s with
          sInstance := s.sInstance.join .mutex (.thread t)
          sMutex := none }.at t (.leave (.error e))) := by
      simp only [step, LazySingleton.unlock, pc]
    exact ⟨holds.current, _, moved, holds.current, rfl, by simp [State.at]⟩
  · intro e pc
    have moved : step s (.leave t) = some ({ s with raised := (t, e) :: s.raised }.at t .idle) := by
      simp only [step, leave, pc]
    exact ⟨_, moved, rfl, rfl, by simp [State.at]⟩

omit [DecidableEq Thread] in
theorem Inv.returned_complete (holds : Inv life s) {r : Thread × Addr} (member : r ∈ s.returned) :
    ∃ t a, (t, a) ∈ s.calls ∧ s.constructions = [(t, a, r.2)] ∧ s.heap r.2 = some ⟨a, true⟩ := by
  have current := holds.returned r member
  cases life with
  | absent | building | built => cases current
  | published t a addr =>
    cases current
    refine ⟨t, a, holds.maker _ rfl, holds.constructions, ?_⟩
    rw [holds.heap, Life.heap, Function.update_self]

/-- Any number of threads, calls, stale reads and failing constructors: one construction
succeeds at most; every call that returned gave that object, complete and made from the
arguments of the call that constructed it; a constructor that throws leaves the pointer
null and the mutex free for others, and its call reports the exception. -/
theorem double_checked_locking (s : State Thread Addr Args Err)
    (reached : Reachable step initial s) :
    s.constructions.length ≤ 1 ∧
      (∀ r ∈ s.returned, ∃ t a,
        (t, a) ∈ s.calls ∧ s.constructions = [(t, a, r.2)] ∧ s.heap r.2 = some ⟨a, true⟩) ∧
      (∀ r ∈ s.returned, ∀ r' ∈ s.returned, r.2 = r'.2) ∧
      (∀ t, ThrowIsClean s t) ∧
      (s.sMutex = none → s.sInstance.current = none → ∀ t a addr, s.pc t = .idle →
        ∃ u, run step s (alone t a addr) = some u ∧ u.returned = (t, addr) :: s.returned ∧
          u.constructions = [(t, a, addr)]) := by
  obtain ⟨life, holds⟩ := reached.invariant inv_preserved ⟨.absent, inv_initial⟩
  refine ⟨?_, fun r => holds.returned_complete, ?_, holds.throw_clean, ?_⟩
  · rw [holds.constructions]
    cases life with
    | absent | building => exact Nat.zero_le 1
    | built | published => exact Nat.le_refl 1
  · intro r first r' second
    exact Option.some.inj ((holds.returned r first).symm.trans (holds.returned r' second))
  · exact fun free null t a addr idle => holds.constructs free null idle a addr

/-- The first constructor throws, the second call reuses its address, and the third takes
the slow path after a stale load. -/
def retried : List (Action Bool Nat Nat String) :=
  [.call false 1, .fastLoad false 0, .lock false, .slowLoad false 0, .new false 10,
    .call true 2, .fastLoad true 0, .constructorThrows false "full", .unlock false,
    .lock true, .slowLoad true 0, .new true 10, .constructed true, .store true, .unlock true,
    .leave false, .leave true,
    .call false 3, .fastLoad false 1, .lock false, .slowLoad false 0, .unlock false, .leave false]

theorem double_checked_locking_retried :
    ∃ s : State Bool Nat Nat String, run step initial retried = some s ∧
      s.returned = [(false, 10), (true, 10)] ∧ s.raised = [(false, "full")] ∧
      s.constructions = [(true, 2, 10)] ∧ s.constructions.length ≤ 1 ∧
      (∀ r ∈ s.returned, ∃ t a,
        (t, a) ∈ s.calls ∧ s.constructions = [(t, a, r.2)] ∧ s.heap r.2 = some ⟨a, true⟩) ∧
      (∀ r ∈ s.returned, ∀ r' ∈ s.returned, r.2 = r'.2) ∧
      (∀ t, ThrowIsClean s t) ∧
      (s.sMutex = none → s.sInstance.current = none → ∀ t a addr, s.pc t = .idle →
        ∃ u, run step s (alone t a addr) = some u ∧ u.returned = (t, addr) :: s.returned ∧
          u.constructions = [(t, a, addr)]) := by
  have runs : run step (initial : State Bool Nat Nat String) retried = some _ := rfl
  exact ⟨_, runs, rfl, rfl, rfl, double_checked_locking _ ⟨_, runs⟩⟩

end Cpp20Showcase.AtomicModel.SingletonLife
