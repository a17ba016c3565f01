import Cpp20Showcase.Coroutines.TaskTransparency

/-! Trees of tasks that await nothing but tasks run to the end in the call of the root, in
the order of plain function calls. -/

namespace Cpp20Showcase.Coroutines.TaskEager
open Lib Coroutines.Task TaskTransparency

variable {V E L : Type} {k c : Kind} {b : Body V E L k} {child : Body V E L c}
variable {next : c.Result V → Body V E L k} {handler : E → Body V E L k} {e : E}

/-- Nothing in the tree awaits anything but a task. -/
def Plain : {k : Kind} → Body V E L k → Prop
  | _, .coReturn _ => True
  | _, .throw _ => True
  | _, .effect _ next => Plain next
  | _, .suspend _ => False
  | _, .await child next handler => Plain child ∧ (∀ r, Plain (next r)) ∧ ∀ e, Plain (handler e)

def effects (events : List (Event L)) : List L :=
  events.filterMap fun
    | .effect l => some l
    | _ => none

/-- At this `co_await` the task is done, and gives what the function call would give; an
exception that the body does not catch here ends it, with no more events. -/
structure AwaitsDone (child : Body V E L c) (next : c.Result V → Body V E L k)
    (handler : E → Body V E L k) : Prop where
  done : start child = ⟨callTrace child, some (.done (promiseOf (direct child).2))⟩
  surfaces : awaitResume (.done (promiseOf (direct child).2) : Frame V E L c) =
    ⟨[.awaitResume true], some (direct child).2⟩
  uncaught : ∀ e, (direct child).2 = .error e → handler e = .throw e →
    start (.await child next handler) =
      ⟨callTrace child ++ [.received true, .awaitResume true], some (.done (unhandledException e))⟩

def EveryAwaitDone : {k : Kind} → Body V E L k → Prop
  | _, .coReturn _ => True
  | _, .throw _ => True
  | _, .effect _ next => EveryAwaitDone next
  | _, .suspend next => EveryAwaitDone next
  | _, .await child next handler =>
      AwaitsDone child next handler ∧ EveryAwaitDone child ∧
        match (direct child).2 with
        | .ok r => EveryAwaitDone (next r)
        | .error e => EveryAwaitDone (handler e)

theorem Plain.continuation (plain : Plain (.await child next handler)) (o : Except E (c.Result V)) :
    Plain (continuation next handler o) := by
  obtain ⟨-, nextPlain, handlerPlain⟩ := plain
  cases o with
  | ok r => exact nextPlain r
  | error e => exact handlerPlain e

theorem Plain.not_passes (plain : Plain b) : passesSuspension b = false := by
  induction b using evaluation_induction with
  | coReturn r | throw e => rfl
  | effect l next ih => exact ih plain
  | suspend next => cases plain
  | await child next handler ihChild ihRest =>
    rw [passesSuspension_await, ihChild plain.1, ihRest (plain.continuation _)]
    rfl

theorem start_plain (plain : Plain b) :
    start b = ⟨callTrace b, some (.done (promiseOf (direct b).2))⟩ :=
  start_of_not_passes b plain.not_passes

theorem awaitResume_done (o : Except E (k.Result V)) :
    awaitResume (.done (promiseOf o) : Frame V E L k) = ⟨[.awaitResume true], some o⟩ := by
  rw [awaitResume, Traced.bind_eq rfl]
  simp only [Frame.promise, takeResult_promiseOf]
  rfl

theorem AwaitsDone.of_plain (plain : Plain child) : AwaitsDone child next handler where
  done := start_plain plain
  surfaces := awaitResume_done _
  uncaught := by
    intro e failed passed
    have started := start_plain plain
    rw [failed] at started
    rw [start_await_done started, Traced.bind_eq rfl, continuation, passed]
    simp [start]

theorem everyAwaitDone_await :
    EveryAwaitDone (.await child next handler) ↔
      AwaitsDone child next handler ∧ EveryAwaitDone child ∧
        EveryAwaitDone (continuation next handler (direct child).2) := by
  cases result : (direct child).2 <;> simp only [EveryAwaitDone, result, continuation]

theorem EveryAwaitDone.of_plain (plain : Plain b) : EveryAwaitDone b := by
  induction b using evaluation_induction with
  | coReturn r | throw e => trivial
  | effect l next ih => exact ih plain
  | suspend next => cases plain
  | await child next handler ihChild ihRest =>
    rw [everyAwaitDone_await]
    exact ⟨.of_plain plain.1, ihChild plain.1, ihRest (plain.continuation _)⟩

theorem effects_append (left right : List (Event L)) :
    effects (left ++ right) = effects left ++ effects right :=
  List.filterMap_append

theorem effects_callTrace (b : Body V E L k) : effects (callTrace b) = (direct b).1 := by
  induction b using evaluation_induction with
  | coReturn r | throw e => rfl
  | effect l next ih => exact congrArg (l :: ·) ih
  | suspend next ih => exact ih
  | await child next handler ihChild ihRest =>
    have calls : effects [Event.received true, .awaitResume true] = ([] : List L) := rfl
    rw [callTrace_await, effects_append, effects_append, calls, List.append_nil, ihChild, ihRest,
      direct_await_effects]

theorem pump_done (fuel : Nat) (promise : Promise V E k) :
    (pump fuel (.done promise) : Traced (Event L) _) = pure (some (.done promise)) := by
  cases fuel with
  | zero => rfl
  | succ fuel => rfl

theorem callAndWait_plain (plain : Plain b) (fuel : Nat) :
    callAndWait fuel b =
      ⟨callTrace b ++ [.received true], some (some (waited (direct b).2))⟩ := by
  rw [callAndWait, start_plain plain, Traced.bind_eq rfl, Traced.bind_eq rfl, syncWait, pump_done, pure_bind]
  simp [Frame.awaitReady, Frame.promise]

/-- A tree of tasks without other suspensions: done when it is received, nothing suspended
or resumed, the effects of plain calls, and every exception where its task is awaited. -/
theorem eager_in_call_order (root : Body V E L k) (plain : Plain root) (fuel : Nat) :
    callAndWait fuel root =
        ⟨callTrace root ++ [.received true], some (some (waited (direct root).2))⟩ ∧
      effects (callAndWait fuel root).events = (direct root).1 ∧
      .received false ∉ (callAndWait fuel root).events ∧
      .awaitSuspend ∉ (callAndWait fuel root).events ∧
      .resume ∉ (callAndWait fuel root).events ∧
      EveryAwaitDone root := by
  have waitedFor := callAndWait_plain plain fuel
  have calls : ∀ event ∈ callTrace root ++ [.received true], ofCall event = true := by
    simp only [List.forall_mem_append]
    exact ⟨ofCall_callTrace root, by simp [ofCall]⟩
  have logged : effects (callTrace root ++ [.received true]) = (direct root).1 := by
    rw [effects_append, effects_callTrace]
    exact List.append_nil _
  rw [waitedFor]
  refine ⟨rfl, logged, ?_, ?_, ?_, .of_plain plain⟩
  · intro member
    cases calls _ member
  · intro member
    cases calls _ member
  · intro member
    cases calls _ member

/-- A task fails below one that does not catch the exception, and the root does. -/
def caught : Body Nat String String .value :=
  .effect "root" (.await (c := .void)
    (.effect "middle" (.await (c := .value) (.effect "inner" (.throw "lost")) (fun _ => .coReturn ()) .throw))
    (fun _ => .effect "skipped" (.coReturn (1 : Nat)))
    fun _ => .effect "handled" (.coReturn (2 : Nat)))

theorem eager_in_call_order_caught :
    callAndWait 0 caught =
        ⟨[.effect "root", .effect "middle", .effect "inner", .received true, .awaitResume true,
          .received true, .awaitResume true, .effect "handled", .received true],
          some (some (.ok (2 : Nat)))⟩ ∧
      effects (callAndWait 0 caught).events = ["root", "middle", "inner", "handled"] ∧
      EveryAwaitDone caught := by
  have plain : Plain caught := by simp [caught, Plain]
  obtain ⟨run, logged, -, -, -, every⟩ := eager_in_call_order caught plain 0
  exact ⟨run.trans rfl, logged.trans rfl, every⟩

end Cpp20Showcase.Coroutines.TaskEager
