import Cpp20Showcase.Lib.Atomic
import Cpp20Showcase.Lib.Exclusion
import Cpp20Showcase.Lib.TransitionSystem

/-! `LazySingleton::instance` from `07_atomic_model/atomic_model.h`, called by any number
of threads. The fast path may read any value of `s_instance` that coherence allows; the
mutex hands on what the thread that released it knew. -/

namespace Cpp20Showcase.AtomicModel.LazySingleton
open Lib Lib.TransitionSystem

/-- What `new T(args...)` allocates; `complete` once the constructor has finished. -/
structure Object (Args : Type) where
  args : Args
  complete : Bool

/-- The next step of a call: the reference it is about to return, or the exception of
the constructor, is its `outcome`. -/
inductive Pc (Addr Args Err : Type) where
  | idle
  | fastLoad (args : Args)
  | lock (args : Args)
  | slowLoad (args : Args)
  | new (args : Args)
  | construct (args : Args) (addr : Addr)
  | store (addr : Addr)
  | unlock (outcome : Except Err Addr)
  | leave (outcome : Except Err Addr)

variable {Thread Addr Args Err : Type}

def InSection : Pc Addr Args Err → Prop
  | .slowLoad _ | .new _ | .construct _ _ | .store _ | .unlock _ => True
  | .idle | .fastLoad _ | .lock _ | .leave _ => False

/-- Who knows about stores to `s_instance`: a thread, or whoever locks the mutex next. -/
inductive View (Thread : Type) where
  | thread (t : Thread)
  | mutex
  deriving DecidableEq

/-- The heap holds the objects of this type; the four lists record the calls made, the
constructions that succeeded, and what the calls returned or threw, latest first. -/
structure State (Thread Addr Args Err : Type) where
  sInstance : Atomic (View Thread) (Option Addr)
  sMutex : Option Thread
  heap : Addr → Option (Object Args)
  pc : Thread → Pc Addr Args Err
  calls : List (Thread × Args)
  constructions : List (Thread × Args × Addr)
  returned : List (Thread × Addr)
  raised : List (Thread × Err)

/-- Each action is one step of the named thread. A load misses `lag` stores, and `new`
takes any address that is free. -/
inductive Action (Thread Addr Args Err : Type) where
  | call (t : Thread) (args : Args)
  | fastLoad (t : Thread) (lag : Nat)
  | lock (t : Thread)
  | slowLoad (t : Thread) (lag : Nat)
  | new (t : Thread) (addr : Addr)
  | constructed (t : Thread)
  | constructorThrows (t : Thread) (e : Err)
  | store (t : Thread)
  | unlock (t : Thread)
  | leave (t : Thread)

def initial : State Thread Addr Args Err where
  sInstance := .make none
  sMutex := none
  heap := fun _ => none
  pc := fun _ => .idle
  calls := []
  constructions := []
  returned := []
  raised := []

variable [DecidableEq Thread] [DecidableEq Addr]

section Accesses

variable (s : State Thread Addr Args Err) (t : Thread)

def State.at (q : Pc Addr Args Err) : State Thread Addr Args Err :=
  { s with pc := Function.update s.pc t q }

def call (args : Args) : Option (State Thread Addr Args Err) :=
  match s.pc t with
  | .idle => some ({ s with calls := (t, args) :: s.calls }.at t (.fastLoad args))
  | _ => none

/-- `ptr = s_instance.load(acquire)` and the first test. -/
def fastLoad (lag : Nat) : Option (State Thread Addr Args Err) :=
  match s.pc t with
  | .fastLoad args => (s.sInstance.load (.thread t) lag).map fun (ptr, sInstance) =>
      { s with sInstance := sInstance }.at t (match ptr with
        | none => .lock args
        | some addr => .leave (.ok addr))
  | _ => none

/-- `std::lock_guard lock{s_mutex}`, which waits while the mutex is held. -/
def lock : Option (State Thread Addr Args Err) :=
  match s.pc t, s.sMutex with
  | .lock args, none => some
      ({ s with
        sInstance := s.sInstance.join (.thread t) .mutex
        sMutex := some t }.at t (.slowLoad args))
  | _, _ => none

/-- `ptr = s_instance.load(relaxed)` and the second test. -/
def slowLoad (lag : Nat) : Option (State Thread Addr Args Err) :=
  match s.pc t with
  | .slowLoad args => (s.sInstance.load (.thread t) lag).map fun (ptr, sInstance) =>
      { s with sInstance := sInstance }.at t (match ptr with
        | none => .new args
        | some addr => .unlock (.ok addr))
  | _ => none

def new (addr : Addr) : Option (State Thread Addr Args Err) :=
  match s.pc t, s.heap addr with
  | .new args, none => some
      ({ s with heap := Function.update s.heap addr (some ⟨args, false⟩) }.at t (.construct args addr))
  | _, _ => none

def constructed : Option (State Thread Addr Args Err) :=
  match s.pc t with
  | .construct args addr => some
      ({ s with
        heap := Function.update s.heap addr (some ⟨args, true⟩)
        constructions := (t, args, addr) :: s.constructions }.at t (.store addr))
  | _ => none

/-- `new` gives the memory back, and the exception unwinds to the lock guard. -/
def constructorThrows (e : Err) : Option (State Thread Addr Args Err) :=
  match s.pc t with
  | .construct _ addr => some
      ({ s with heap := Function.update s.heap addr none }.at t (.unlock (.error e)))
  | _ => none

/-- `s_instance.store(ptr, release)`. -/
def store : Option (State Thread Addr Args Err) :=
  match s.pc t with
  | .store addr => some
      ({ s with sInstance := s.sInstance.store (.thread t) (some addr) }.at t (.unlock (.ok addr)))
  | _ => none

/-- The destructor of the lock guard. -/
def unlock : Option (State Thread Addr Args Err) :=
  match s.pc t with
  | .unlock outcome => some
      ({ s with
        sInstance := s.sInstance.join .mutex (.thread t)
        sMutex := none }.at t (.leave outcome))
  | _ => none

/-- `return *ptr`, or the exception leaves the call. -/
def leave : Option (State Thread Addr Args Err) :=
  match s.pc t with
  | .leave (.ok addr) => some ({ s with returned := (t, addr) :: s.returned }.at t .idle)
  | .leave (.error e) => some ({ s with raised := (t, e) :: s.raised }.at t .idle)
  | _ => none

end Accesses

def step (s : State Thread Addr Args Err) :
    Action Thread Addr Args Err → Option (State Thread Addr Args Err)
  | .call t args => call s t args
  | .fastLoad t lag => fastLoad s t lag
  | .lock t => lock s t
  | .slowLoad t lag => slowLoad s t lag
  | .new t addr => new s t addr
  | .constructed t => constructed s t
  | .constructorThrows t e => constructorThrows s t e
  | .store t => store s t
  | .unlock t => unlock s t
  | .leave t => leave s t

variable {s u : State Thread Addr Args Err} {t : Thread} {a : Action Thread Addr Args Err}

inductive Move (s : State Thread Addr Args Err) : State Thread Addr Args Err → Prop where
  | call {t args} (pc : s.pc t = .idle) :
      Move s ({ s with calls := (t, args) :: s.calls }.at t (.fastLoad args))
  | fastNull {t args lag b} (pc : s.pc t = .fastLoad args)
      (read : s.sInstance.load (.thread t) lag = some (none, b)) :
      Move s ({ s with sInstance := b }.at t (.lock args))
  | fastFound {t args lag addr b} (pc : s.pc t = .fastLoad args)
      (read : s.sInstance.load (.thread t) lag = some (some addr, b)) :
      Move s ({ s with sInstance := b }.at t (.leave (.ok addr)))
  | lock {t args} (pc : s.pc t = .lock args) (free : s.sMutex = none) :
      Move s
        ({ s with
          sInstance := s.sInstance.join (.thread t) .mutex
          sMutex := some t }.at t (.slowLoad args))
  | slowNull {t args lag b} (pc : s.pc t = .slowLoad args)
      (read : s.sInstance.load (.thread t) lag = some (none, b)) :
      Move s ({ s with sInstance := b }.at t (.new args))
  | slowFound {t args lag addr b} (pc : s.pc t = .slowLoad args)
      (read : s.sInstance.load (.thread t) lag = some (some addr, b)) :
      Move s ({ s with sInstance := b }.at t (.unlock (.ok addr)))
  | new {t args addr} (pc : s.pc t = .new args) (free : s.heap addr = none) :
      Move s
        ({ s with heap := Function.update s.heap addr (some ⟨args, false⟩) }.at t (.construct args addr))
  | constructed {t args addr} (pc : s.pc t = .construct args addr) :
      Move s
        ({ s with
          heap := Function.update s.heap addr (some ⟨args, true⟩)
          constructions := (t, args, addr) :: s.constructions }.at t (.store addr))
  | constructorThrows {t args addr e} (pc : s.pc t = .construct args addr) :
      Move s ({ s with heap := Function.update s.heap addr none }.at t (.unlock (.error e)))
  | store {t addr} (pc : s.pc t = .store addr) :
      Move s
        ({ s with sInstance := s.sInstance.store (.thread t) (some addr) }.at t (.unlock (.ok addr)))
  | unlock {t outcome} (pc : s.pc t = .unlock outcome) :
      Move s
        ({ s with
          sInstance := s.sInstance.join .mutex (.thread t)
          sMutex := none }.at t (.leave outcome))
  | returns {t addr} (pc : s.pc t = .leave (.ok addr)) :
      Move s ({ s with returned := (t, addr) :: s.returned }.at t .idle)
  | raises {t e} (pc : s.pc t = .leave (.error e)) :
      Move s ({ s with raised := (t, e) :: s.raised }.at t .idle)

theorem step_move (move : step s a = some u) : Move s u := by
  cases a with
  | call t args =>
    simp only [step, LazySingleton.call] at move
    split at move
    next pc => cases move; exact .call pc
    next => cases move
  | fastLoad t lag =>
    simp only [step, LazySingleton.fastLoad] at move
    split at move
    next args pc =>
      obtain ⟨⟨ptr, b⟩, read, same⟩ := Option.map_eq_some_iff.mp move
      cases same
      cases ptr with
      | none => exact .fastNull pc read
      | some addr => exact .fastFound pc read
    next => cases move
  | lock t =>
    simp only [step, LazySingleton.lock] at move
    split at move
    next args pc free => cases move; exact .lock pc free
    next => cases move
  | slowLoad t lag =>
    simp only [step, LazySingleton.slowLoad] at move
    split at move
    next args pc =>
      obtain ⟨⟨ptr, b⟩, read, same⟩ := Option.map_eq_some_iff.mp move
      cases same
      cases ptr with
      | none => exact .slowNull pc read
      | some addr => exact .slowFound pc read
    next => cases move
  | new t addr =>
    simp only [step, LazySingleton.new] at move
    split at move
    next args pc free => cases move; exact .new pc free
    next => cases move
  | constructed t =>
    simp only [step, LazySingleton.constructed] at move
    split at move
    next args addr pc => cases move; exact .constructed pc
    next => cases move
  | constructorThrows t e =>
    simp only [step, LazySingleton.constructorThrows] at move
    split at move
    next args addr pc => cases move; exact .constructorThrows pc
    next => cases move
  | store t =>
    simp only [step, LazySingleton.store] at move
    split at move
    next addr pc => cases move; exact .store pc
    next => cases move
  | unlock t =>
    simp only [step, LazySingleton.unlock] at move
    split at move
    next outcome pc => cases move; exact .unlock pc
    next => cases move
  | leave t =>
    simp only [step, LazySingleton.leave] at move
    split at move
    next addr pc => cases move; exact .returns pc
    next e pc => cases move; exact .raises pc
    next => cases move

end Cpp20Showcase.AtomicModel.LazySingleton
