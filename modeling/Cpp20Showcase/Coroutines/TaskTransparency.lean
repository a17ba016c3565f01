import Cpp20Showcase.Coroutines.Task

/-! When `sync_wait` on the root of a tree of tasks gives what evaluating the tree as
plain function calls gives: exactly when no awaited task suspends. -/

namespace Cpp20Showcase.Coroutines.TaskTransparency
open Lib Coroutines.Task

variable {V E L : Type} {k c : Kind} {b : Body V E L k} {child : Body V E L c}
variable {next : c.Result V → Body V E L k} {handler : E → Body V E L k}
variable {o : Except E (c.Result V)} {ev : List (Event L)}

/-- Direct evaluation passes a suspension of the body or of a task it awaits. -/
def passesSuspension : {k : Kind} → Body V E L k → Bool
  | _, .coReturn _ => false
  | _, .throw _ => false
  | _, .effect _ next => passesSuspension next
  | _, .suspend _ => true
  | _, .await child next handler =>
      passesSuspension child ||
        match (direct child).2 with
        | .ok r => passesSuspension (next r)
        | .error e => passesSuspension (handler e)

/-- Direct evaluation passes a suspension of a task that the body awaits. -/
def awaitsSuspension : {k : Kind} → Body V E L k → Bool
  | _, .coReturn _ => false
  | _, .throw _ => false
  | _, .effect _ next => awaitsSuspension next
  | _, .suspend next => awaitsSuspension next
  | _, .await child next handler =>
      passesSuspension child ||
        match (direct child).2 with
        | .ok r => awaitsSuspension (next r)
        | .error e => awaitsSuspension (handler e)

/-- The events of a body none of whose tasks suspends. -/
def callTrace : {k : Kind} → Body V E L k → List (Event L)
  | _, .coReturn _ => []
  | _, .throw _ => []
  | _, .effect l next => .effect l :: callTrace next
  | _, .suspend next => callTrace next
  | _, .await child next handler =>
      callTrace child ++ [.received true, .awaitResume true] ++
        match (direct child).2 with
        | .ok r => callTrace (next r)
        | .error e => callTrace (handler e)

def ofCall : Event L → Bool
  | .effect _ => true
  | .received done => done
  | .awaitResume done => done
  | .awaitSuspend | .resume => false

def promiseOf : Except E (k.Result V) → Promise V E k
  | .ok r => returnValue r
  | .error e => unhandledException e

def waited : Except E (k.Result V) → Except (Thrown E) (k.Result V)
  | .ok r => .ok r
  | .error e => .error (.rethrown e)

/-- No `await_resume` on a task that had not finished. -/
def Orderly (events : List (Event L)) : Prop := .awaitResume false ∉ events

/-- `sync_wait` terminates with what direct evaluation gives, and nothing is resumed
past a task that has not finished. -/
def Transparent (root : Body V E L k) : Prop :=
  ∃ fuel, (callAndWait fuel root).value = some (some (waited (direct root).2)) ∧
    Orderly (callAndWait fuel root).events

@[simp] theorem takeResult_promiseOf (o : Except E (k.Result V)) :
    (takeResult k (promiseOf o) : Traced (Event L) _) = pure o := by
  cases k <;> cases o <;> rfl

@[simp] theorem outcome_promiseOf (o : Except E (k.Result V)) : outcome k (promiseOf o) = waited o := by
  cases k <;> cases o <;> rfl

def continuation (next : c.Result V → Body V E L k) (handler : E → Body V E L k) :
    Except E (c.Result V) → Body V E L k
  | .ok r => next r
  | .error e => handler e

/-- Induction along direct evaluation: at a `co_await` only the way the body goes on counts. -/
theorem evaluation_induction {motive : (k : Kind) → Body V E L k → Prop}
    (coReturn : ∀ {k} (r : k.Result V), motive k (.coReturn r))
    (throw : ∀ {k} (e : E), motive k (.throw e))
    (effect : ∀ {k} (l : L) (next : Body V E L k), motive k next → motive k (.effect l next))
    (suspend : ∀ {k} (next : Body V E L k), motive k next → motive k (.suspend next))
    (await : ∀ {k c} (child : Body V E L c) (next : c.Result V → Body V E L k)
      (handler : E → Body V E L k), motive c child →
      motive k (continuation next handler (direct child).2) → motive k (.await child next handler))
    {k : Kind} (b : Body V E L k) : motive k b := by
  induction b with
  | coReturn r => exact coReturn r
  | throw e => exact throw e
  | effect l next ih => exact effect l next ih
  | suspend next ih => exact suspend next ih
  | await child next handler ihChild ihNext ihHandler =>
    apply await child next handler ihChild
    cases (direct child).2 with
    | ok r => exact ihNext r
    | error e => exact ihHandler e

theorem direct_await :
    (direct (.await child next handler)).2 = (direct (continuation next handler (direct child).2)).2 := by
  cases result : (direct child).2 <;> simp only [direct, result, continuation]

theorem direct_await_effects :
    (direct (.await child next handler)).1 =
      (direct child).1 ++ (direct (continuation next handler (direct child).2)).1 := by
  cases result : (direct child).2 <;> simp only [direct, result, continuation]

theorem passesSuspension_await :
    passesSuspension (.await child next handler) =
      (passesSuspension child || passesSuspension (continuation next handler (direct child).2)) := by
  cases result : (direct child).2 <;> simp only [passesSuspension, result, continuation]

theorem awaitsSuspension_await :
    awaitsSuspension (.await child next handler) =
      (passesSuspension child || awaitsSuspension (continuation next handler (direct child).2)) := by
  cases result : (direct child).2 <;> simp only [awaitsSuspension, result, continuation]

theorem callTrace_await :
    callTrace (.await child next handler) =
      callTrace child ++ [.received true, .awaitResume true] ++
        callTrace (continuation next handler (direct child).2) := by
  cases result : (direct child).2 <;> simp only [callTrace, result, continuation]

theorem ofCall_callTrace (b : Body V E L k) : ∀ event ∈ callTrace b, ofCall event = true := by
  induction b using evaluation_induction with
  | coReturn r | throw e => simp [callTrace]
  | effect l next ih =>
    intro event member
    cases member with
    | head => rfl
    | tail _ later => exact ih event later
  | suspend next ih => exact ih
  | await child next handler ihChild ihRest =>
    rw [callTrace_await]
    simp only [List.forall_mem_append]
    exact ⟨⟨ihChild, by simp [ofCall]⟩, ihRest⟩

theorem orderly_callTrace (b : Body V E L k) : Orderly (callTrace b) := by
  intro member
  cases ofCall_callTrace b _ member

theorem start_await_done (finished : start child = ⟨ev, some (.done (promiseOf o))⟩) :
    start (.await child next handler) =
      (⟨ev ++ [.received true, .awaitResume true], some ()⟩ >>= fun _ => start (continuation next handler o)) := by
  rw [start, finished, Traced.bind_eq rfl, Traced.bind_eq rfl]
  cases o with
  | ok r => simp [Frame.awaitReady, awaitResume, Frame.promise, Traced.bind_eq, continuation]
  | error e => simp [Frame.awaitReady, awaitResume, Frame.promise, Traced.bind_eq, continuation]

theorem start_await_suspended {task : Frame V E L c} (suspended : start child = ⟨ev, some task⟩)
    (unfinished : task.awaitReady = false) :
    start (.await child next handler) =
      ⟨ev ++ [.received false, .awaitSuspend], some (.awaiting task next handler)⟩ := by
  rw [start, suspended, Traced.bind_eq rfl]
  simp [unfinished, Traced.bind_eq]

theorem start_of_not_passes (b : Body V E L k) (smooth : passesSuspension b = false) :
    start b = ⟨callTrace b, some (.done (promiseOf (direct b).2))⟩ := by
  induction b using evaluation_induction with
  | coReturn r => rfl
  | throw e => rfl
  | effect l next ih =>
    rw [start, Traced.bind_eq rfl, ih smooth]
    rfl
  | suspend next ih => cases smooth
  | await child next handler ihChild ihRest =>
    rw [passesSuspension_await, Bool.or_eq_false_iff] at smooth
    rw [start_await_done (ihChild smooth.1), Traced.bind_eq rfl, ihRest smooth.2, direct_await,
      callTrace_await]

theorem start_of_passes (b : Body V E L k) (rough : passesSuspension b = true) :
    ∃ ev f, start b = ⟨ev, some f⟩ ∧ f.awaitReady = false := by
  induction b using evaluation_induction with
  | coReturn r => cases rough
  | throw e => cases rough
  | effect l next ih =>
    obtain ⟨ev, f, started, unfinished⟩ := ih rough
    refine ⟨.effect l :: ev, f, ?_, unfinished⟩
    rw [start, Traced.bind_eq rfl, started]
    rfl
  | suspend next ih => exact ⟨[], .suspended next, rfl, rfl⟩
  | await child next handler ihChild ihRest =>
    cases inner : passesSuspension child with
    | true =>
      obtain ⟨ev, task, started, unfinished⟩ := ihChild inner
      exact ⟨_, _, start_await_suspended started unfinished, rfl⟩
    | false =>
      have started := start_of_not_passes child inner
      rw [passesSuspension_await, inner, Bool.false_or] at rough
      obtain ⟨ev', f, started', unfinished⟩ := ihRest rough
      refine ⟨callTrace child ++ [.received true, .awaitResume true] ++ ev', f, ?_, unfinished⟩
      rw [start_await_done started, Traced.bind_eq rfl, started']

/-- Start a body and resume it until it has finished. -/
def drive (fuel : Nat) (b : Body V E L k) : Traced (Event L) (Option (Frame V E L k)) :=
  start b >>= pump fuel

theorem drive_effect (fuel : Nat) (l : L) (next : Body V E L k) :
    drive fuel (.effect l next) = (Traced.emit (.effect l) >>= fun _ => drive fuel next) := by
  rw [drive, start, bind_assoc]
  rfl

theorem drive_suspend (fuel : Nat) (next : Body V E L k) :
    drive (fuel + 1) (.suspend next) = (Traced.emit .resume >>= fun _ => drive fuel next) := by
  rw [drive, start, pure_bind, pump]
  rfl

theorem drive_await (fuel : Nat) (started : start child = ⟨ev, some (.done (promiseOf o))⟩) :
    drive fuel (.await child next handler) =
      (⟨ev ++ [.received true, .awaitResume true], some ()⟩ >>=
        fun _ => drive fuel (continuation next handler o)) := by
  rw [drive, start_await_done started, bind_assoc]
  rfl

theorem drive_of_not_awaits (b : Body V E L k) (alone : awaitsSuspension b = false) :
    ∃ fuel ev, drive fuel b = ⟨ev, some (some (.done (promiseOf (direct b).2)))⟩ ∧ Orderly ev := by
  induction b using evaluation_induction with
  | coReturn r => exact ⟨0, [], rfl, List.not_mem_nil⟩
  | throw e => exact ⟨0, [], rfl, List.not_mem_nil⟩
  | effect l next ih =>
    obtain ⟨fuel, ev, driven, orderly⟩ := ih alone
    refine ⟨fuel, .effect l :: ev, ?_, by simpa [Orderly] using orderly⟩
    rw [drive_effect, Traced.bind_eq rfl, driven]
    rfl
  | suspend next ih =>
    obtain ⟨fuel, ev, driven, orderly⟩ := ih alone
    refine ⟨fuel + 1, .resume :: ev, ?_, by simpa [Orderly] using orderly⟩
    rw [drive_suspend, Traced.bind_eq rfl, driven]
    rfl
  | await child next handler ihChild ihRest =>
    rw [awaitsSuspension_await, Bool.or_eq_false_iff] at alone
    have started := start_of_not_passes child alone.1
    have orderly := orderly_callTrace child
    obtain ⟨fuel, ev', driven, orderly'⟩ := ihRest alone.2
    refine ⟨fuel, callTrace child ++ [.received true, .awaitResume true] ++ ev', ?_, ?_⟩
    · rw [drive_await fuel started, Traced.bind_eq rfl, driven, direct_await]
    · simp only [Orderly, List.mem_append, not_or] at orderly orderly' ⊢
      exact ⟨⟨orderly, by simp⟩, orderly'⟩

/-- The pump resumes a body that awaits an unfinished task past its `co_await`. -/
theorem pump_awaiting {task : Frame V E L c} (unfinished : task.awaitReady = false) (fuel : Nat) :
    .awaitResume false ∈ (pump (fuel + 1) (.awaiting task next handler)).events := by
  rw [pump, if_neg (by simp [Frame.awaitReady]), Traced.events_bind rfl]
  apply List.mem_append_right
  apply Traced.mem_events_bind_left
  rw [resume, awaitResume, unfinished]
  apply Traced.mem_events_bind_left
  apply Traced.mem_events_bind_left
  exact List.mem_singleton_self _

/-- If an awaited task suspends, the loop does not finish before it has gone past it. -/
theorem drive_of_awaits (b : Body V E L k) (abandons : awaitsSuspension b = true) (fuel : Nat)
    (f : Frame V E L k) (finished : (drive fuel b).value = some (some f)) :
    .awaitResume false ∈ (drive fuel b).events := by
  induction b using evaluation_induction generalizing fuel with
  | coReturn r => cases abandons
  | throw e => cases abandons
  | effect l next ih =>
    rw [drive_effect] at finished ⊢
    rw [Traced.value_bind rfl] at finished
    rw [Traced.events_bind rfl]
    exact List.mem_append_right _ (ih abandons fuel f finished)
  | suspend next ih =>
    cases fuel with
    | zero => cases finished
    | succ fuel =>
      rw [drive_suspend] at finished ⊢
      rw [Traced.value_bind rfl] at finished
      rw [Traced.events_bind rfl]
      exact List.mem_append_right _ (ih abandons fuel f finished)
  | await child next handler ihChild ihRest =>
    cases inner : passesSuspension child with
    | true =>
      obtain ⟨ev, task, started, unfinished⟩ := start_of_passes child inner
      rw [drive, start_await_suspended started unfinished] at finished ⊢
      rw [Traced.value_bind rfl] at finished
      rw [Traced.events_bind rfl]
      cases fuel with
      | zero => cases finished
      | succ fuel => exact List.mem_append_right _ (pump_awaiting unfinished fuel)
    | false =>
      have started := start_of_not_passes child inner
      rw [awaitsSuspension_await, inner, Bool.false_or] at abandons
      rw [drive_await fuel started] at finished ⊢
      rw [Traced.value_bind rfl] at finished
      rw [Traced.events_bind rfl]
      apply List.mem_append_right
      exact ihRest abandons fuel f finished

theorem start_value (b : Body V E L k) : ∃ ev f, start b = ⟨ev, some f⟩ := by
  cases passes : passesSuspension b with
  | false => exact ⟨_, _, start_of_not_passes b passes⟩
  | true =>
    obtain ⟨ev, f, started, -⟩ := start_of_passes b passes
    exact ⟨ev, f, started⟩

theorem callAndWait_eq (fuel : Nat) (b : Body V E L k) :
    (callAndWait fuel b).value =
        (drive fuel b).value.map (fun finished => finished.map fun f => outcome k f.promise) ∧
      ∀ done, .awaitResume done ∈ (callAndWait fuel b).events ↔
        .awaitResume done ∈ (drive fuel b).events := by
  obtain ⟨ev, f, started⟩ := start_value b
  rw [callAndWait, drive, started, Traced.bind_eq rfl, Traced.bind_eq rfl, Traced.bind_eq rfl]
  refine ⟨Traced.value_bind_pure _, fun done => ?_⟩
  rw [syncWait, Traced.events_bind_pure]
  simp

theorem transparent_of_not_awaits {root : Body V E L k} (alone : awaitsSuspension root = false) :
    Transparent root := by
  obtain ⟨fuel, ev, driven, orderly⟩ := drive_of_not_awaits root alone
  obtain ⟨value, events⟩ := callAndWait_eq fuel root
  refine ⟨fuel, ?_, ?_⟩
  · rw [value, driven]
    simp only [Option.map_some, Frame.promise, outcome_promiseOf]
  · rw [Orderly, events false, driven]
    exact orderly

theorem not_transparent_of_awaits {root : Body V E L k} (abandons : awaitsSuspension root = true) :
    ¬Transparent root := by
  intro transparent
  obtain ⟨fuel, returned, orderly⟩ := transparent
  obtain ⟨value, events⟩ := callAndWait_eq fuel root
  rw [value, Option.map_eq_some_iff] at returned
  obtain ⟨finished, driven, mapped⟩ := returned
  obtain ⟨f, rfl, -⟩ := Option.map_eq_some_iff.mp mapped
  exact orderly ((events false).mpr (drive_of_awaits root abandons fuel f driven))

/-- `sync_wait` on the root of a tree of tasks agrees with direct evaluation, and nothing
runs ahead of an awaited task, exactly when no awaited task passes a suspension. -/
theorem transparent_iff (root : Body V E L k) : Transparent root ↔ awaitsSuspension root = false := by
  cases awaits : awaitsSuspension root with
  | false => exact iff_of_true (transparent_of_not_awaits awaits) rfl
  | true => exact iff_of_false (not_transparent_of_awaits awaits) (by decide)

/-- The root returns what a task returns that suspends once before it returns 1. -/
def awaitsPaused : Body Nat String String .value :=
  .await (c := .value) (.suspend (.coReturn (1 : Nat))) (fun r => .coReturn r) .throw

/-- The first resumption of the root reads a result that is not there. -/
theorem awaited_suspension_not_transparent :
    (direct awaitsPaused).2 = .ok (1 : Nat) ∧ ¬Transparent awaitsPaused ∧
      callAndWait 1 awaitsPaused =
        ⟨[.received false, .awaitSuspend, .received false, .resume, .awaitResume false], none⟩ := by
  refine ⟨rfl, not_transparent_of_awaits rfl, ?_⟩
  rw [awaitsPaused, callAndWait, start]
  rfl

/-- With `Task<void>` the code after the `co_await` runs, and the awaited task never ends. -/
example :
    callAndWait 1 (.await (c := .void) (.suspend (.effect "child" (.coReturn ())))
      (fun _ => .effect "after" (.coReturn (1 : Nat))) .throw : Body Nat String String .value) =
        ⟨[.received false, .awaitSuspend, .received false, .resume, .awaitResume false, .effect "after"],
          some (some (.ok (1 : Nat)))⟩ := by
  rw [callAndWait, start]
  rfl

end Cpp20Showcase.Coroutines.TaskTransparency
