import Cpp20Showcase.Lib.Traced

/-! `Task<T>` and `Task<void>` from `03_coroutines/task.h`. A tree of task bodies is data;
frames are what an eagerly started body leaves behind when it suspends or finishes. -/

namespace Cpp20Showcase.Coroutines.Task
open Lib

inductive Kind where
  | value
  | void

def Kind.Result (V : Type) : Kind → Type
  | .value => V
  | .void => Unit

/-- The body of a coroutine, step by step. `suspend` awaits `std::suspend_always`;
`await` creates a task, awaits it, and goes on with its result or, in a handler around
the `co_await`, with its exception. A task that is stored and awaited later has no body
here. -/
inductive Body (V E L : Type) : Kind → Type where
  | coReturn {k : Kind} (r : k.Result V) : Body V E L k
  | throw {k : Kind} (e : E) : Body V E L k
  | effect {k : Kind} (l : L) (next : Body V E L k) : Body V E L k
  | suspend {k : Kind} (next : Body V E L k) : Body V E L k
  | await {k c : Kind} (child : Body V E L c) (next : c.Result V → Body V E L k)
      (handler : E → Body V E L k) : Body V E L k

variable {V E L : Type} {k c : Kind}

/-- `promise_type`; that of `Task<void>` has no result, and its unit is never read. -/
structure Promise (V E : Type) (k : Kind) where
  result : Option (k.Result V)
  exception : Option E

def returnValue (r : k.Result V) : Promise V E k := ⟨some r, none⟩

def unhandledException (e : E) : Promise V E k := ⟨none, some e⟩

/-- A frame at `final_suspend`, at an awaitable that suspended, or at the `co_await` of
a task that was not done. The awaited task lives in the frame that awaits it; the caller
stored by `await_suspend` is never read. -/
inductive Frame (V E L : Type) : Kind → Type where
  | done {k : Kind} (promise : Promise V E k) : Frame V E L k
  | suspended {k : Kind} (rest : Body V E L k) : Frame V E L k
  | awaiting {k c : Kind} (task : Frame V E L c) (next : c.Result V → Body V E L k)
      (handler : E → Body V E L k) : Frame V E L k

/-- `m_handle.done()`. -/
def Frame.awaitReady : Frame V E L k → Bool
  | .done _ => true
  | .suspended _ | .awaiting _ _ _ => false

def Frame.promise : Frame V E L k → Promise V E k
  | .done promise => promise
  | .suspended _ | .awaiting _ _ _ => ⟨none, none⟩

/-- `received` is the return of a coroutine call to its caller; the flags say whether
the task concerned was done. `resume` is an iteration of the loop in `sync_wait`. -/
inductive Event (L : Type) where
  | effect (l : L)
  | received (done : Bool)
  | awaitSuspend
  | awaitResume (done : Bool)
  | resume

/-- `Task<void>` looks only for an exception; `Task<T>` then takes the result, which
must be there. -/
def takeResult : (k : Kind) → Promise V E k → Traced (Event L) (Except E (k.Result V))
  | .value, ⟨some r, none⟩ => pure (.ok r)
  | .value, ⟨none, none⟩ => Traced.undefined
  | .void, ⟨_, none⟩ => pure (.ok ())
  | .value, ⟨_, some e⟩ => pure (.error e)
  | .void, ⟨_, some e⟩ => pure (.error e)

def awaitResume (task : Frame V E L k) : Traced (Event L) (Except E (k.Result V)) := do
  Traced.emit (.awaitResume task.awaitReady)
  takeResult k task.promise

/-- From `initial_suspend`, which does not suspend, until the body suspends or ends. -/
def start : {k : Kind} → Body V E L k → Traced (Event L) (Frame V E L k)
  | _, .coReturn r => pure (.done (returnValue r))
  | _, .throw e => pure (.done (unhandledException e))
  | _, .effect l next => do
      Traced.emit (.effect l)
      start next
  | _, .suspend next => pure (.suspended next)
  | _, .await child next handler => do
      let task ← start child
      Traced.emit (.received task.awaitReady)
      if task.awaitReady then
        match ← awaitResume task with
        | .ok r => start (next r)
        | .error e => start (handler e)
      else
        Traced.emit .awaitSuspend
        pure (.awaiting task next handler)

/-- `m_handle.resume()`, undefined for a finished coroutine. A frame that awaits goes on
in `await_resume`, whether or not the awaited task has finished. -/
def resume : Frame V E L k → Traced (Event L) (Frame V E L k)
  | .done _ => Traced.undefined
  | .suspended rest => start rest
  | .awaiting task next handler => do
      match ← awaitResume task with
      | .ok r => start (next r)
      | .error e => start (handler e)

/-- `while (!m_handle.done()) m_handle.resume();`, or `none` after `fuel` iterations. -/
def pump (fuel : Nat) (f : Frame V E L k) : Traced (Event L) (Option (Frame V E L k)) :=
  if f.awaitReady then pure (some f)
  else match fuel with
    | 0 => pure none
    | fuel + 1 => do
        Traced.emit .resume
        let next ← resume f
        pump fuel next

inductive Thrown (E : Type) where
  | rethrown (e : E)
  | runtimeError (what : String)

def outcome : (k : Kind) → Promise V E k → Except (Thrown E) (k.Result V)
  | .value, ⟨_, some e⟩ => .error (.rethrown e)
  | .value, ⟨none, none⟩ => .error (.runtimeError "Task completed without a value")
  | .value, ⟨some r, none⟩ => .ok r
  | .void, ⟨_, some e⟩ => .error (.rethrown e)
  | .void, ⟨_, none⟩ => .ok ()

def syncWait (fuel : Nat) (f : Frame V E L k) :
    Traced (Event L) (Option (Except (Thrown E) (k.Result V))) := do
  let finished ← pump fuel f
  pure (finished.map fun f => outcome k f.promise)

/-- Call the root coroutine, then `sync_wait()` on the task it returns. -/
def callAndWait (fuel : Nat) (root : Body V E L k) :
    Traced (Event L) (Option (Except (Thrown E) (k.Result V))) := do
  let task ← start root
  Traced.emit (.received task.awaitReady)
  syncWait fuel task

/-- The same tree as ordinary nested function calls: effects in order, and what comes
out. A suspension is no event there. -/
def direct : {k : Kind} → Body V E L k → List L × Except E (k.Result V)
  | _, .coReturn r => ([], .ok r)
  | _, .throw e => ([], .error e)
  | _, .effect l next => (l :: (direct next).1, (direct next).2)
  | _, .suspend next => direct next
  | _, .await child next handler =>
      let rest := match (direct child).2 with
        | .ok r => direct (next r)
        | .error e => direct (handler e)
      ((direct child).1 ++ rest.1, rest.2)

end Cpp20Showcase.Coroutines.Task
