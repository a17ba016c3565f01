import Cpp20Showcase.AtomicModel.SingletonLife
import Cpp20Showcase.Lib.HappensBefore

/-! The memory orders of `LazySingleton::instance` in `07_atomic_model/atomic_model.h`. The
object is not atomic: its constructor writes to it, and whoever got the reference reads it. -/

namespace Cpp20Showcase.AtomicModel.SingletonHappensBefore
open Lib Lib.TransitionSystem LazySingleton SingletonLife

/-- The calls with the clocks of threads and mutex, the clocks released with the stores to
`s_instance`, and the accesses to the objects; `used` lists what threads have read there. -/
structure Clocked (Thread Addr Args Err : Type) where
  state : State Thread Addr Args Err
  clocks : View Thread → Clock (View Thread)
  released : List (Clock (View Thread))
  objects : Addr → Plain (View Thread) (Option Args)
  used : List (Thread × Option Args)

/-- `use` reads through a reference that a call of the thread has returned. -/
inductive ClockedAction (Thread Addr Args Err : Type) where
  | access (a : Action Thread Addr Args Err)
  | use (t : Thread) (addr : Addr)

variable {Thread Addr Args Err : Type}

def initialClocked : Clocked Thread Addr Args Err where
  state := initial
  clocks := fun _ _ => 0
  released := [fun _ => 0]
  objects := fun _ => .make none
  used := []

variable [DecidableEq Thread] [DecidableEq Addr] {c : Clocked Thread Addr Args Err}
  {s : State Thread Addr Args Err} {a : Action Thread Addr Args Err} {t : Thread} {addr : Addr}
  {q : Pc Addr Args Err} {life : Life Thread Addr Args} {clocks : View Thread → Clock (View Thread)}

/-- The `memory_order` of each access, and what the mutex orders. The load under the mutex is
relaxed; memory that is allocated anew has no accesses to race with. -/
def Clocked.order (c : Clocked Thread Addr Args Err) (s : State Thread Addr Args Err) :
    Action Thread Addr Args Err → Clocked Thread Addr Args Err
  | .fastLoad t lag =>
      { c with
        state := s
        clocks := acquire c.clocks (.thread t) (c.released[lag]?.getD fun _ => 0) }
  | .lock t => { c with state := s, clocks := acquire c.clocks (.thread t) (c.clocks .mutex) }
  | .new _ addr => { c with state := s, objects := Function.update c.objects addr (.make none) }
  | .constructed t =>
      match c.state.pc t with
      | .construct args addr =>
          { c with
            state := s
            clocks := tick c.clocks (.thread t)
            objects := Function.update c.objects addr
              ((c.objects addr).write c.clocks (.thread t) (some args)) }
      | _ => { c with state := s }
  | .store t => { c with state := s, released := c.clocks (.thread t) :: c.released }
  | .unlock t => { c with state := s, clocks := acquire c.clocks .mutex (c.clocks (.thread t)) }
  | .call _ _ | .slowLoad _ _ | .constructorThrows _ _ | .leave _ => { c with state := s }

def use (c : Clocked Thread Addr Args Err) (t : Thread) (addr : Addr) : Option (Clocked Thread Addr Args Err) :=
  if (t, addr) ∈ c.state.returned then
    some
      { c with
        clocks := tick c.clocks (.thread t)
        objects := Function.update c.objects addr ((c.objects addr).read c.clocks (.thread t))
        used := (t, (c.objects addr).value) :: c.used }
  else none

def stepClocked (c : Clocked Thread Addr Args Err) :
    ClockedAction Thread Addr Args Err → Option (Clocked Thread Addr Args Err)
  | .access a => (step c.state a).map fun s => c.order s a
  | .use t addr => use c t addr

def Racy (c : Clocked Thread Addr Args Err) : Prop :=
  (∃ t args addr, c.state.pc t = .construct args addr ∧ ¬(c.objects addr).Writable (c.clocks (.thread t))) ∨
    ∃ t addr, (t, addr) ∈ c.state.returned ∧ ¬(c.objects addr).Readable (c.clocks (.thread t))

def Found (s : State Thread Addr Args Err) (t : Thread) (addr : Addr) : Prop :=
  s.pc t = .unlock (.ok addr) ∨ s.pc t = .leave (.ok addr) ∨ (t, addr) ∈ s.returned

/-- Whoever knows the last store to `s_instance`, and whoever found a pointer, knows of the
construction. -/
structure Ordered (c : Clocked Thread Addr Args Err) : Prop where
  life : ∃ life, Inv life c.state
  blank : ∀ t args addr, c.state.pc t = .construct args addr → c.objects addr = .make none
  built : ∀ t addr, c.state.pc t = .store addr → (c.objects addr).Readable (c.clocks (.thread t))
  values : ∀ r ∈ c.state.constructions, (c.objects r.2.2).value = some r.2.1
  released : ∀ (lag : Nat) addr, c.state.sInstance.history[lag]? = some (some addr) →
    ∃ k, c.released[lag]? = some k ∧ (c.objects addr).Readable k
  informed : ∀ v addr, c.state.sInstance.current = some addr →
    c.state.sInstance.seen v = c.state.sInstance.stores → (c.objects addr).Readable (c.clocks v)
  found : ∀ t addr, Found c.state t addr → (c.objects addr).Readable (c.clocks (.thread t))
  used : ∀ r ∈ c.used, ∃ t args addr, (t, args, addr) ∈ c.state.constructions ∧ r.2 = some args

omit [DecidableEq Thread] in
theorem ordered_initial : Ordered (initialClocked : Clocked Thread Addr Args Err) where
  life := ⟨.absent, inv_initial⟩
  blank := nofun
  built := nofun
  values := nofun
  released := by
    intro lag addr found
    have member := List.mem_of_getElem? found
    simp [initialClocked, initial, Atomic.make, Atomic.history] at member
  informed := nofun
  found := by
    rintro t addr (impossible | impossible | impossible) <;> cases impossible
  used := nofun

omit [DecidableEq Thread] in
theorem unpublished (holds : Inv life s) (making : (∃ args, s.pc t = .new args) ∨ Making (s.pc t)) :
    s.sInstance.current = none ∧ ∀ i addr, ¬Found s i addr := by
  have unborn : life.current = none := by
    have allowed := holds.allows t
    obtain ⟨args, pc⟩ | making := making
    · rw [pc] at allowed
      exact congrArg Life.current allowed
    · cases pc : s.pc t with
      | construct args addr =>
        rw [pc] at allowed
        exact congrArg Life.current allowed
      | store addr =>
        rw [pc] at allowed
        obtain ⟨args, same⟩ := allowed
        exact congrArg Life.current same
      | _ =>
        rw [pc] at making
        exact making.elim
  refine ⟨holds.current.trans unborn, ?_⟩
  intro i addr found
  have allowed := holds.allows i
  obtain pc | pc | member := found
  · rw [pc, Life.Allows, unborn] at allowed
    cases allowed
  · rw [pc, Life.Allows, unborn] at allowed
    cases allowed
  · have current := holds.returned _ member
    rw [unborn] at current
    cases current

omit [DecidableEq Thread] in
theorem Ordered.walk (holds : Ordered c) (life : ∃ life, Inv life s)
    (history : s.sInstance.history = c.state.sInstance.history)
    (constructions : s.constructions = c.state.constructions)
    (le : ∀ v w, c.clocks v w ≤ clocks v w)
    (making : ∀ t, Making (s.pc t) → s.pc t = c.state.pc t)
    (informed : ∀ v addr, s.sInstance.current = some addr → s.sInstance.seen v = s.sInstance.stores →
      c.state.sInstance.seen v = c.state.sInstance.stores ∨ (c.objects addr).Readable (clocks v))
    (found : ∀ t addr, Found s t addr → Found c.state t addr ∨ (c.objects addr).Readable (clocks (.thread t))) :
    Ordered { c with state := s, clocks := clocks } where
  life := life
  blank := by
    intro t args addr pc
    have kept := making t (by rw [pc]; trivial)
    exact holds.blank t args addr (kept.symm.trans pc)
  built := by
    intro t addr pc
    have kept := making t (by rw [pc]; trivial)
    exact (holds.built t addr (kept.symm.trans pc)).mono (le _)
  values := by
    rw [constructions]
    exact holds.values
  released := by
    rw [history]
    exact holds.released
  informed := by
    intro v addr current latest
    obtain before | known := informed v addr current latest
    · have same : s.sInstance.current = c.state.sInstance.current := (List.cons.inj history).1
      exact (holds.informed v addr (same.symm.trans current) before).mono (le _)
    · exact known
  found := by
    intro t addr here
    obtain before | known := found t addr here
    · exact (holds.found t addr before).mono (le _)
    · exact known
  used := by
    rw [constructions]
    exact holds.used

section At

variable {pcs : Thread → Pc Addr Args Err} {u : State Thread Addr Args Err} {i : Thread}

omit [DecidableEq Addr] in
theorem making_at (waits : ¬Making q) (making : Making (Function.update pcs t q i)) :
    Function.update pcs t q i = pcs i := by
  by_cases same : i = t
  · subst same
    rw [Function.update_self] at making
    exact absurd making waits
  · exact Function.update_of_ne same _ _

omit [DecidableEq Addr] in
theorem point_at {r : Pc Addr Args Err} (here : Function.update pcs t q i = r) : pcs i = r ∨ i = t ∧ q = r := by
  by_cases same : i = t
  · subst same
    rw [Function.update_self] at here
    exact .inr ⟨rfl, here⟩
  · rw [Function.update_of_ne same] at here
    exact .inl here

omit [DecidableEq Addr] in
theorem found_at (pc : u.pc = Function.update s.pc t q)
    (returned : ∀ r ∈ u.returned, r ∈ s.returned ∨ Found s r.1 r.2) (here : Found u i addr) :
    Found s i addr ∨ i = t ∧ (q = .unlock (.ok addr) ∨ q = .leave (.ok addr)) := by
  rw [Found, pc] at here
  obtain unlocks | leaves | member := here
  · obtain before | ⟨same, now⟩ := point_at unlocks
    · exact .inl (.inl before)
    · exact .inr ⟨same, .inl now⟩
  · obtain before | ⟨same, now⟩ := point_at leaves
    · exact .inl (.inr (.inl before))
    · exact .inr ⟨same, .inr now⟩
  · obtain earlier | before := returned _ member
    · exact .inl (.inr (.inr earlier))
    · exact .inl before

omit [DecidableEq Addr] in
theorem alone_at (owned : Owned InSection pcs (some t)) (making : Making (Function.update pcs t q i)) :
    i = t := by
  by_contra other
  rw [Function.update_of_ne other] at making
  exact other (Option.some.inj (owned.owner_eq making.inSection)).symm

end At

theorem Ordered.moves {u : State Thread Addr Args Err} (holds : Ordered c) (life : ∃ life, Inv life (u.at t q))
    (pc : u.pc = c.state.pc) (returned : ∀ r ∈ u.returned, r ∈ c.state.returned ∨ Found c.state r.1 r.2)
    (constructions : u.constructions = c.state.constructions)
    (history : u.sInstance.history = c.state.sInstance.history) (waits : ¬Making q)
    (le : ∀ v w, c.clocks v w ≤ clocks v w)
    (informed : ∀ v addr, u.sInstance.current = some addr → u.sInstance.seen v = u.sInstance.stores →
      c.state.sInstance.seen v = c.state.sInstance.stores ∨ (c.objects addr).Readable (clocks v))
    (found : ∀ addr, q = .unlock (.ok addr) ∨ q = .leave (.ok addr) →
      Found c.state t addr ∨ (c.objects addr).Readable (clocks (.thread t))) :
    Ordered { c with state := u.at t q, clocks := clocks } := by
  have pcs : (u.at t q).pc = Function.update c.state.pc t q := by rw [← pc, State.at]
  refine holds.walk life history constructions le ?_ informed ?_
  · intro i making
    rw [pcs] at making ⊢
    exact making_at waits making
  · intro i addr here
    obtain before | ⟨rfl, now⟩ := found_at pcs returned here
    · exact .inl before
    · exact found addr now

theorem Ordered.loads {lag : Nat} {v : Option Addr} {b : Atomic (View Thread) (Option Addr)}
    (holds : Ordered c) (read : c.state.sInstance.load (.thread t) lag = some (v, b)) :
    (∀ addr, v = some addr → (c.objects addr).Readable
      (acquire c.clocks (.thread t) (c.released[lag]?.getD fun _ => 0) (.thread t))) ∧
    ∀ w addr, b.current = some addr → b.seen w = b.stores →
      c.state.sInstance.seen w = c.state.sInstance.stores ∨
        w = .thread t ∧ v = some addr := by
  obtain ⟨found, -, rfl⟩ := Atomic.load_cases read
  constructor
  · rintro addr rfl
    obtain ⟨k, released, readable⟩ := holds.released lag addr found
    rw [released, Option.getD_some]
    exact readable.mono fun _ => released_le_acquire
  · intro w addr current latest
    obtain rfl | other := eq_or_ne w (.thread t)
    · have inside := (List.getElem?_eq_some_iff.mp found).1
      rw [Atomic.seen_observe_self, Atomic.stores_observe] at latest
      rw [Atomic.history, List.length_cons] at inside
      have fresh : lag = 0 := by
        simp only [Atomic.stores] at latest
        omega
      subst fresh
      rw [Atomic.history, List.getElem?_cons_zero, Atomic.current_observe.symm.trans current] at found
      exact .inr ⟨rfl, (Option.some.inj found).symm⟩
    · rw [Atomic.seen_observe_of_ne other] at latest
      exact .inl latest

theorem Ordered.fastLoad {lag : Nat} {v : Option Addr} {b : Atomic (View Thread) (Option Addr)}
    (holds : Ordered c) (read : c.state.sInstance.load (.thread t) lag = some (v, b))
    (next : (v = none ∧ ∃ args, q = .lock args) ∨ ∃ addr, v = some addr ∧ q = .leave (.ok addr))
    (life : ∃ life, Inv life ({ c.state with sInstance := b }.at t q)) :
    Ordered
      { c with
        state := { c.state with sInstance := b }.at t q
        clocks := acquire c.clocks (.thread t) (c.released[lag]?.getD fun _ => 0) } := by
  obtain ⟨known, latest⟩ := holds.loads read
  refine holds.moves life rfl (fun _ => .inl) rfl (Atomic.load_history read) ?_ (fun _ _ => le_acquire) ?_ ?_
  · obtain ⟨-, args, rfl⟩ | ⟨addr, -, rfl⟩ := next <;> exact id
  · intro w addr current seen
    obtain before | ⟨rfl, same⟩ := latest w addr current seen
    · exact .inl before
    · exact .inr (known addr same)
  · rintro addr (rfl | rfl)
    · obtain ⟨-, args, impossible⟩ | ⟨addr', -, impossible⟩ := next <;> cases impossible
    · obtain ⟨-, args, impossible⟩ | ⟨addr', same, now⟩ := next
      · cases impossible
      · cases now
        exact .inr (known addr same)

/-- The load under the mutex acquires nothing: locking has told the thread everything. -/
theorem Ordered.slowLoad {lag : Nat} {args : Args} {v : Option Addr} {b : Atomic (View Thread) (Option Addr)}
    (holds : Ordered c) (pc : c.state.pc t = .slowLoad args)
    (read : c.state.sInstance.load (.thread t) lag = some (v, b))
    (next : (v = none ∧ q = .new args) ∨ ∃ addr, v = some addr ∧ q = .unlock (.ok addr))
    (life : ∃ life, Inv life ({ c.state with sInstance := b }.at t q)) :
    Ordered { c with state := { c.state with sInstance := b }.at t q } := by
  obtain ⟨before, inv⟩ := holds.life
  have latest := inv.latest
  rw [inv.owned.owner_eq (by rw [pc]; trivial)] at latest
  obtain ⟨rfl, -⟩ := Atomic.load_own read latest
  refine holds.moves life rfl (fun _ => .inl) rfl (Atomic.load_history read) ?_ (fun _ _ => le_rfl) ?_ ?_
  · obtain ⟨-, rfl⟩ | ⟨addr, -, rfl⟩ := next <;> exact id
  · intro w addr current seen
    obtain before | ⟨rfl, -⟩ := (holds.loads read).2 w addr current seen
    · exact .inl before
    · exact .inl latest
  · rintro addr (rfl | rfl)
    · obtain ⟨-, impossible⟩ | ⟨addr', same, now⟩ := next
      · cases impossible
      · cases now
        exact .inr (holds.informed _ addr same latest)
    · obtain ⟨-, impossible⟩ | ⟨addr', -, impossible⟩ := next <;> cases impossible

theorem Ordered.lock {args : Args} (holds : Ordered c) (free : c.state.sMutex = none)
    (life : ∃ life, Inv life ({ c.state with
      sInstance := c.state.sInstance.join (.thread t) .mutex
      sMutex := some t }.at t (.slowLoad args))) :
    Ordered
      { c with
        state := { c.state with
          sInstance := c.state.sInstance.join (.thread t) .mutex
          sMutex := some t }.at t (.slowLoad args)
        clocks := acquire c.clocks (.thread t) (c.clocks .mutex) } := by
  obtain ⟨before, inv⟩ := holds.life
  have latest := inv.latest
  rw [free] at latest
  refine holds.moves life rfl (fun _ => .inl) rfl rfl id (fun _ _ => le_acquire) ?_ ?_
  · intro w addr current seen
    obtain rfl | other := eq_or_ne w (.thread t)
    · exact .inr ((holds.informed .mutex addr current latest).mono fun _ => released_le_acquire)
    · exact .inl ((Atomic.seen_join_of_ne other).symm.trans seen)
  · rintro addr (impossible | impossible) <;> cases impossible

theorem Ordered.unlock {outcome : Except Err Addr} (holds : Ordered c) (pc : c.state.pc t = .unlock outcome)
    (life : ∃ life, Inv life ({ c.state with
      sInstance := c.state.sInstance.join .mutex (.thread t)
      sMutex := none }.at t (.leave outcome))) :
    Ordered
      { c with
        state := { c.state with
          sInstance := c.state.sInstance.join .mutex (.thread t)
          sMutex := none }.at t (.leave outcome)
        clocks := acquire c.clocks .mutex (c.clocks (.thread t)) } := by
  obtain ⟨before, inv⟩ := holds.life
  have latest := inv.latest
  rw [inv.owned.owner_eq (by rw [pc]; trivial)] at latest
  refine holds.moves life rfl (fun _ => .inl) rfl rfl id (fun _ _ => le_acquire) ?_ ?_
  · intro w addr current seen
    obtain rfl | other := eq_or_ne w .mutex
    · exact .inr ((holds.informed _ addr current latest).mono fun _ => released_le_acquire)
    · exact .inl ((Atomic.seen_join_of_ne other).symm.trans seen)
  · rintro addr (impossible | same)
    · cases impossible
    · cases same
      exact .inl (.inl pc)

theorem Ordered.makes {u : State Thread Addr Args Err} {objects : Addr → Plain (View Thread) (Option Args)}
    (holds : Ordered c) (life : ∃ life, Inv life (u.at t q))
    (making : (∃ args, c.state.pc t = .new args) ∨ Making (c.state.pc t)) (pc : u.pc = c.state.pc)
    (returned : ∀ r ∈ u.returned, r ∈ c.state.returned) (pointer : u.sInstance = c.state.sInstance)
    (unfound : ∀ addr, ¬(q = .unlock (.ok addr) ∨ q = .leave (.ok addr)))
    (blank : ∀ args addr, q = .construct args addr → objects addr = .make none)
    (built : ∀ addr, q = .store addr → (objects addr).Readable (clocks (.thread t)))
    (values : ∀ r ∈ u.constructions, (objects r.2.2).value = some r.2.1)
    (kept : ∀ r ∈ c.state.constructions, r ∈ u.constructions) :
    Ordered { c with state := u.at t q, clocks := clocks, objects := objects } := by
  obtain ⟨before, inv⟩ := holds.life
  obtain ⟨null, nobody⟩ := unpublished inv making
  have pcs : (u.at t q).pc = Function.update c.state.pc t q := by rw [← pc, State.at]
  have owned : Owned InSection c.state.pc (some t) := by
    have owned := inv.owned
    obtain ⟨args, new⟩ | made := making
    · rwa [owned.owner_eq (by rw [new]; trivial)] at owned
    · rwa [owned.owner_eq made.inSection] at owned
  have null' : (u.at t q).sInstance.current = none := by
    rw [State.at, pointer]
    exact null
  constructor
  · exact life
  · intro i args addr here
    change (u.at t q).pc i = _ at here
    rw [pcs] at here
    obtain rfl := alone_at owned (by rw [here]; trivial)
    rw [Function.update_self] at here
    exact blank args addr here
  · intro i addr here
    change (u.at t q).pc i = _ at here
    rw [pcs] at here
    obtain rfl := alone_at owned (by rw [here]; trivial)
    rw [Function.update_self] at here
    exact built addr here
  · exact values
  · intro lag addr found
    obtain ⟨after, inv'⟩ := life
    obtain impossible | current := inv'.history _ (List.mem_of_getElem? found)
    · cases impossible
    · rw [null'] at current
      cases current
  · intro v addr current
    rw [null'] at current
    cases current
  · intro i addr here
    obtain earlier | ⟨-, now⟩ := found_at pcs (fun r member => .inl (returned r member)) here
    · exact absurd earlier (nobody i addr)
    · exact absurd now (unfound addr)
  · intro r member
    obtain ⟨i, args, addr, made, value⟩ := holds.used r member
    exact ⟨i, args, addr, kept _ made, value⟩

theorem Ordered.new {args : Args} (holds : Ordered c) (pc : c.state.pc t = .new args)
    (life : ∃ life, Inv life ({ c.state with
      heap := Function.update c.state.heap addr (some ⟨args, false⟩) }.at t (.construct args addr))) :
    Ordered
      { c with
        state := { c.state with
          heap := Function.update c.state.heap addr (some ⟨args, false⟩) }.at t (.construct args addr)
        objects := Function.update c.objects addr (.make none) } := by
  obtain ⟨before, inv⟩ := holds.life
  have absent := inv.allows t
  rw [pc] at absent
  cases absent
  have unmade : c.state.constructions = [] := inv.constructions
  refine holds.makes life (.inl ⟨args, pc⟩) rfl (fun _ => id) rfl (by simp) ?_ (by simp) ?_ fun _ => id
  · intro args' addr' same
    cases same
    exact Function.update_self _ _ _
  · intro r member
    rw [unmade] at member
    cases member

theorem Ordered.constructed {args : Args} (holds : Ordered c) (pc : c.state.pc t = .construct args addr)
    (life : ∃ life, Inv life ({ c.state with
      heap := Function.update c.state.heap addr (some ⟨args, true⟩)
      constructions := (t, args, addr) :: c.state.constructions }.at t (.store addr))) :
    Ordered
      { c with
        state := { c.state with
          heap := Function.update c.state.heap addr (some ⟨args, true⟩)
          constructions := (t, args, addr) :: c.state.constructions }.at t (.store addr)
        clocks := tick c.clocks (.thread t)
        objects := Function.update c.objects addr
          ((c.objects addr).write c.clocks (.thread t) (some args)) } := by
  obtain ⟨before, inv⟩ := holds.life
  have building := inv.allows t
  rw [pc] at building
  cases building
  have unmade : c.state.constructions = [] := inv.constructions
  have fresh : (c.objects addr).Writable (c.clocks (.thread t)) := by
    rw [holds.blank t args addr pc]
    nofun
  refine holds.makes life (.inr (by rw [pc]; trivial)) rfl (fun _ => id) rfl (by simp) (by simp) ?_ ?_ ?_
  · intro addr' same
    cases same
    rw [Function.update_self]
    exact fresh.write.readable
  · intro r member
    rw [unmade, List.mem_singleton] at member
    subst member
    rw [Function.update_self]
    rfl
  · exact fun r => List.mem_cons_of_mem _

theorem Ordered.constructorThrows {args : Args} {e : Err} (holds : Ordered c)
    (pc : c.state.pc t = .construct args addr)
    (life : ∃ life, Inv life ({ c.state with
      heap := Function.update c.state.heap addr none }.at t (.unlock (.error e)))) :
    Ordered
      { c with
        state := { c.state with heap := Function.update c.state.heap addr none }.at t (.unlock (.error e)) } :=
  holds.makes life (.inr (by rw [pc]; trivial)) rfl (fun _ => id) rfl (by simp) (by simp) (by simp)
    holds.values fun _ => id

theorem Ordered.store (holds : Ordered c) (pc : c.state.pc t = .store addr)
    (life : ∃ life, Inv life ({ c.state with
      sInstance := c.state.sInstance.store (.thread t) (some addr) }.at t (.unlock (.ok addr)))) :
    Ordered
      { c with
        state := { c.state with
          sInstance := c.state.sInstance.store (.thread t) (some addr) }.at t (.unlock (.ok addr))
        released := c.clocks (.thread t) :: c.released } := by
  obtain ⟨before, inv⟩ := holds.life
  obtain ⟨null, nobody⟩ := unpublished inv (t := t) (.inr (by rw [pc]; trivial))
  have built := holds.built t addr pc
  have owned := inv.owned
  rw [owned.owner_eq (by rw [pc]; trivial)] at owned
  have nothing : ∀ i, ¬Making (Function.update c.state.pc t (.unlock (.ok addr)) i) := by
    intro i making
    obtain rfl := alone_at owned making
    rw [Function.update_self] at making
    exact making
  constructor
  · exact life
  · intro i args addr' here
    change Function.update c.state.pc t (.unlock (.ok addr)) i = _ at here
    exact absurd (by rw [here]; trivial) (nothing i)
  · intro i addr' here
    change Function.update c.state.pc t (.unlock (.ok addr)) i = _ at here
    exact absurd (by rw [here]; trivial) (nothing i)
  · exact holds.values
  · intro lag addr' found
    cases lag with
    | zero =>
      cases found
      exact ⟨_, rfl, built⟩
    | succ lag =>
      obtain impossible | current := inv.history _ (List.mem_of_getElem? found)
      · cases impossible
      · rw [null] at current
        cases current
  · intro v addr' current latest
    cases current
    obtain rfl | other := eq_or_ne v (.thread t)
    · exact built
    · have known := c.state.sInstance.seen_le v
      have latest' : (c.state.sInstance.store (.thread t) (some addr)).seen v = c.state.sInstance.stores + 1 := latest
      rw [Atomic.seen_store_of_ne other] at latest'
      omega
  · intro i addr' here
    have pcs : ({ c.state with sInstance := c.state.sInstance.store (.thread t) (some addr) }.at t
        (.unlock (.ok addr))).pc = Function.update c.state.pc t (.unlock (.ok addr)) := rfl
    obtain earlier | ⟨rfl, now | now⟩ := found_at pcs (fun _ => .inl) here
    · exact absurd earlier (nobody i addr')
    · cases now
      exact built
    · cases now
  · exact holds.used

theorem ordered_step (holds : Ordered c) (moved : step c.state a = some s) : Ordered (c.order s a) := by
  have life := inv_preserved _ a s holds.life moved
  cases a with
  | call t args =>
    simp only [step, LazySingleton.call] at moved
    split at moved
    next pc =>
      cases moved
      exact holds.moves life rfl (fun _ => .inl) rfl rfl id (fun _ _ => le_rfl) (fun _ _ _ => .inl) (by simp)
    next => cases moved
  | fastLoad t lag =>
    simp only [step, LazySingleton.fastLoad] at moved
    split at moved
    next args pc =>
      obtain ⟨⟨ptr, b⟩, read, rfl⟩ := Option.map_eq_some_iff.mp moved
      cases ptr with
      | none => exact holds.fastLoad read (.inl ⟨rfl, args, rfl⟩) life
      | some addr => exact holds.fastLoad read (.inr ⟨addr, rfl, rfl⟩) life
    next => cases moved
  | lock t =>
    simp only [step, LazySingleton.lock] at moved
    split at moved
    next args pc free =>
      cases moved
      exact holds.lock free life
    next => cases moved
  | slowLoad t lag =>
    simp only [step, LazySingleton.slowLoad] at moved
    split at moved
    next args pc =>
      obtain ⟨⟨ptr, b⟩, read, rfl⟩ := Option.map_eq_some_iff.mp moved
      cases ptr with
      | none => exact holds.slowLoad pc read (.inl ⟨rfl, rfl⟩) life
      | some addr => exact holds.slowLoad pc read (.inr ⟨addr, rfl, rfl⟩) life
    next => cases moved
  | new t addr =>
    simp only [step, LazySingleton.new] at moved
    split at moved
    next args pc free =>
      cases moved
      exact holds.new pc life
    next => cases moved
  | constructed t =>
    simp only [step, LazySingleton.constructed] at moved
    split at moved
    next args addr pc =>
      cases moved
      simp only [Clocked.order, pc]
      exact holds.constructed pc life
    next => cases moved
  | constructorThrows t e =>
    simp only [step, LazySingleton.constructorThrows] at moved
    split at moved
    next args addr pc =>
      cases moved
      exact holds.constructorThrows pc life
    next => cases moved
  | store t =>
    simp only [step, LazySingleton.store] at moved
    split at moved
    next addr pc =>
      cases moved
      exact holds.store pc life
    next => cases moved
  | unlock t =>
    simp only [step, LazySingleton.unlock] at moved
    split at moved
    next outcome pc =>
      cases moved
      exact holds.unlock pc life
    next => cases moved
  | leave t =>
    simp only [step, LazySingleton.leave] at moved
    split at moved
    next addr pc =>
      cases moved
      refine holds.moves life rfl ?_ rfl rfl id (fun _ _ => le_rfl) (fun _ _ _ => .inl) (by simp)
      intro r member
      obtain rfl | earlier := List.mem_cons.mp member
      · exact .inr (.inr (.inl pc))
      · exact .inl earlier
    next e pc =>
      cases moved
      exact holds.moves life rfl (fun _ => .inl) rfl rfl id (fun _ _ => le_rfl) (fun _ _ _ => .inl) (by simp)
    next => cases moved

theorem ordered_use (holds : Ordered c) (got : (t, addr) ∈ c.state.returned) :
    Ordered
      { c with
        clocks := tick c.clocks (.thread t)
        objects := Function.update c.objects addr ((c.objects addr).read c.clocks (.thread t))
        used := (t, (c.objects addr).value) :: c.used } := by
  obtain ⟨life, inv⟩ := holds.life
  have same (addr' : Addr) (p : Plain (View Thread) (Option Args))
      (now : Function.update c.objects addr ((c.objects addr).read c.clocks (.thread t)) addr' = p) :
      p.writes = (c.objects addr').writes ∧ p.value = (c.objects addr').value := by
    subst now
    by_cases here : addr' = addr
    · subst here
      rw [Function.update_self]
      exact ⟨rfl, rfl⟩
    · rw [Function.update_of_ne here]
      exact ⟨rfl, rfl⟩
  have readable {addr' : Addr} {k : Clock (View Thread)} (before : (c.objects addr').Readable k) :
      (Function.update c.objects addr ((c.objects addr).read c.clocks (.thread t)) addr').Readable k := by
    rw [Plain.Readable, (same addr' _ rfl).1]
    exact before
  have unmaking : ∀ i, ¬Making (c.state.pc i) :=
    fun i making => (unpublished inv (.inr making)).2 t addr (.inr (.inr got))
  exact
    { life := ⟨life, inv⟩
      blank := fun i args addr' pc => absurd (by rw [pc]; trivial) (unmaking i)
      built := fun i addr' pc => absurd (by rw [pc]; trivial) (unmaking i)
      values := fun r member => (same _ _ rfl).2.trans (holds.values r member)
      released := by
        intro lag addr' found
        obtain ⟨k, released, before⟩ := holds.released lag addr' found
        exact ⟨k, released, readable before⟩
      informed := fun v addr' current latest =>
        readable ((holds.informed v addr' current latest).mono fun _ => le_tick)
      found := fun i addr' here => readable ((holds.found i addr' here).mono fun _ => le_tick)
      used := by
        intro r member
        obtain rfl | earlier := List.mem_cons.mp member
        · obtain ⟨maker, args, -, made, -⟩ := inv.returned_complete got
          have member : (maker, args, addr) ∈ c.state.constructions := by
            rw [made]
            exact List.mem_cons_self
          exact ⟨maker, args, addr, member, holds.values _ member⟩
        · exact holds.used r earlier }

theorem ordered_preserved : Preserved stepClocked fun c : Clocked Thread Addr Args Err => Ordered c := by
  intro c action d holds moved
  cases action with
  | access a =>
    obtain ⟨s, moved', rfl⟩ := Option.map_eq_some_iff.mp moved
    exact ordered_step holds moved'
  | use t addr =>
    simp only [stepClocked, use] at moved
    split at moved
    next got =>
      cases moved
      exact ordered_use holds got
    next => cases moved

omit [DecidableEq Thread] in
theorem Ordered.not_racy (holds : Ordered c) : ¬Racy c := by
  intro racy
  obtain ⟨t, args, addr, pc, races⟩ | ⟨t, addr, got, races⟩ := racy
  · apply races
    rw [holds.blank t args addr pc]
    nofun
  · exact races (holds.found t addr (.inr (.inr got)))

/-- The orders restrict no run of the calls, and in no reachable state is there a race between
the construction of the object and what is read through the references returned, however the
pointer was found; what is read is always the object as it was constructed. -/
theorem object_race_free :
    (∀ acts (s : State Thread Addr Args Err), run step initial acts = some s →
      ∃ c, run stepClocked initialClocked (acts.map .access) = some c ∧ c.state = s) ∧
    ∀ c : Clocked Thread Addr Args Err, Reachable stepClocked initialClocked c →
      ¬Racy c ∧
        ∀ r ∈ c.used, ∃ t args addr, c.state.constructions = [(t, args, addr)] ∧ r.2 = some args := by
  constructor
  · intro acts s runs
    have behind : ∀ (c : Clocked Thread Addr Args Err) a s, step c.state a = some s →
        ∃ d, stepClocked c (.access a) = some d ∧ d.state = s := by
      intro c a s moved
      refine ⟨c.order s a, by rw [stepClocked, moved]; rfl, ?_⟩
      unfold Clocked.order
      split
      case h_4 => split <;> rfl
      all_goals rfl
    obtain ⟨c, clocked, same⟩ := run_lift (s := initialClocked) behind runs
    exact ⟨c, run_map.trans clocked, same⟩
  · intro c reached
    have holds := reached.invariant ordered_preserved ordered_initial
    refine ⟨holds.not_racy, ?_⟩
    intro r member
    obtain ⟨t, args, addr, made, value⟩ := holds.used r member
    obtain ⟨life, inv⟩ := holds.life
    refine ⟨t, args, addr, ?_, value⟩
    rw [inv.constructions] at made ⊢
    cases life with
    | absent | building => cases made
    | built | published =>
      rw [List.mem_singleton.mp made]
      rfl

end Cpp20Showcase.AtomicModel.SingletonHappensBefore
