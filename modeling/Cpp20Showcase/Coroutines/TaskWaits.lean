import Cpp20Showcase.Coroutines.TaskEager
import Cpp20Showcase.Lib.TransitionSystem
import Cpp20Showcase.Lib.UniqueHandle
import Mathlib.Logic.Function.Iterate

/-! `sync_wait` from `03_coroutines/task.h`, any number of times and on whichever object has the
coroutine by then. The result is moved out of the promise and stays there, moved from. -/

namespace Cpp20Showcase.Coroutines.TaskWaits
open Lib Lib.TransitionSystem Coroutines.Task TaskTransparency TaskEager

/-- A frame with its body, the events of the body so far, and what each wait has given. -/
structure Coroutine (V E L : Type) (k : Kind) where
  body : Body V E L k
  frame : Frame V E L k
  events : List (Event L)
  results : List (Except (Thrown E) (k.Result V))

/-- `fuel` bounds the iterations of the loop in `sync_wait`. -/
inductive Action (Var V E L : Type) (k : Kind) where
  | call (x : Var) (body : Body V E L k)
  | special (m : SpecialMember Var)
  | syncWait (x : Var) (fuel : Nat)

abbrev Tasks (Var V E L : Type) (k : Kind) := Owners Var (Coroutine V E L k)

variable {Var V E L : Type} {k : Kind}

/-- What `std::move(*result)` leaves; an exception is thrown again before that. -/
def take (moved : k.Result V → k.Result V) : Promise V E k → Promise V E k
  | ⟨result, none⟩ => ⟨result.map moved, none⟩
  | ⟨result, some e⟩ => ⟨result, some e⟩

/-- The rest of `sync_wait`, when the loop has ended. -/
def Coroutine.returned (r : Coroutine V E L k) (moved : k.Result V → k.Result V) (events : List (Event L))
    (promise : Promise V E k) : Coroutine V E L k :=
  { r with
    frame := .done (take moved promise)
    events := r.events ++ events
    results := r.results ++ [outcome k promise] }

/-- `sync_wait()`, which may only be called on an object with a handle. -/
def syncWait (moved : k.Result V → k.Result V) (s : Tasks Var V E L k) (x : Var) (fuel : Nat) :
    Option (Tasks Var V E L k) :=
  match s.object x with
  | some (some h) =>
    match s.live h with
    | none => none
    | some r =>
      match pump fuel r.frame with
      | ⟨events, some (some f)⟩ => some (s.put h (r.returned moved events f.promise))
      | _ => none
  | _ => none

variable [DecidableEq Var]

/-- A coroutine runs when it is called, and the new object gets what that leaves. -/
def call (s : Tasks Var V E L k) (x : Var) (body : Body V E L k) : Option (Tasks Var V E L k) :=
  match start body with
  | ⟨events, some frame⟩ => s.create x ⟨body, frame, events, []⟩
  | _ => none

def step (moved : k.Result V → k.Result V) (s : Tasks Var V E L k) :
    Action Var V E L k → Option (Tasks Var V E L k)
  | .call x body => call s x body
  | .special m => s.special m
  | .syncWait x fuel => syncWait moved s x fuel

variable {moved : k.Result V → k.Result V} {s t : Tasks Var V E L k} {b : Body V E L k} {f g : Frame V E L k}
  {p : Promise V E k} {ev ev' : List (Event L)} {m n : Nat}

def Consistent (moved : k.Result V → k.Result V) (r : Coroutine V E L k) : Prop :=
  (r.results = [] ∧ start r.body = ⟨r.events, some r.frame⟩) ∨
    ∃ fuel p, drive fuel r.body = ⟨r.events, some (some (.done p))⟩ ∧ r.results ≠ [] ∧
      r.frame = .done ((take moved)^[r.results.length] p) ∧
      r.results = (List.range r.results.length).map fun n => outcome k ((take moved)^[n] p)

structure Inv (moved : k.Result V → k.Result V) (s : Tasks Var V E L k) : Prop where
  unique : s.Unique
  consistent : ∀ (h : Nat) (c : Cell (Coroutine V E L k)), s.cells[h]? = some c → Consistent moved c.resource

omit [DecidableEq Var] in
theorem inv_initial : Inv moved (Owners.empty : Tasks Var V E L k) where
  unique := .empty
  consistent := nofun

omit [DecidableEq Var] in
theorem awaitReady_eq_true (ready : f.awaitReady = true) : ∃ p, f = .done p := by
  cases f with
  | done p => exact ⟨p, rfl⟩
  | suspended | awaiting => cases ready

theorem pump_unfinished (unfinished : f.awaitReady = false) :
    pump (n + 1) f = (Traced.emit .resume >>= fun _ => resume f >>= pump n) := by
  rw [pump, if_neg (by simp [unfinished])]

theorem pump_eq_some {fuel : Nat} (pumped : pump fuel f = ⟨ev, some (some g)⟩) :
    (f.awaitReady = true ∧ ev = [] ∧ g = f) ∨
      ∃ rest ev₁ next ev₂, fuel = rest + 1 ∧ f.awaitReady = false ∧ resume f = ⟨ev₁, some next⟩ ∧
        pump rest next = ⟨ev₂, some (some g)⟩ ∧ ev = .resume :: (ev₁ ++ ev₂) := by
  cases ready : f.awaitReady with
  | true =>
    obtain ⟨p, rfl⟩ := awaitReady_eq_true ready
    rw [pump_done] at pumped
    cases pumped
    exact .inl ⟨rfl, rfl, rfl⟩
  | false =>
    cases fuel with
    | zero =>
      rw [pump, if_neg (by simp [ready])] at pumped
      cases pumped
    | succ rest =>
      rw [pump_unfinished ready, Traced.bind_eq rfl] at pumped
      cases resumed : resume f with
      | mk ev₁ value =>
        cases value with
        | none =>
          rw [resumed] at pumped
          cases pumped
        | some next =>
          rw [resumed, Traced.bind_eq rfl] at pumped
          cases later : pump rest next with
          | mk ev₂ value =>
            rw [later] at pumped
            cases pumped
            exact .inr ⟨rest, ev₁, next, ev₂, rfl, rfl, rfl, later, rfl⟩

theorem pump_finished {fuel : Nat} (pumped : pump fuel f = ⟨ev, some (some g)⟩) : ∃ p, g = .done p := by
  induction fuel generalizing f ev with
  | zero =>
    obtain ⟨ready, -, rfl⟩ | ⟨_, _, _, _, impossible, -⟩ := pump_eq_some pumped
    · exact awaitReady_eq_true ready
    · cases impossible
  | succ fuel ih =>
    obtain ⟨ready, -, rfl⟩ | ⟨rest, _, next, ev₂, same, -, -, later, -⟩ := pump_eq_some pumped
    · exact awaitReady_eq_true ready
    · cases same
      exact ih later

theorem pump_more (pumped : pump m f = ⟨ev, some (some g)⟩) (more : m ≤ n) : pump n f = ⟨ev, some (some g)⟩ := by
  induction m generalizing n f ev with
  | zero =>
    obtain ⟨ready, rfl, rfl⟩ | ⟨_, _, _, _, impossible, -⟩ := pump_eq_some pumped
    · obtain ⟨p, rfl⟩ := awaitReady_eq_true ready
      rw [pump_done]
      rfl
    · cases impossible
  | succ m ih =>
    obtain ⟨ready, rfl, rfl⟩ | ⟨rest, ev₁, next, ev₂, same, unfinished, resumed, later, rfl⟩ := pump_eq_some pumped
    · obtain ⟨p, rfl⟩ := awaitReady_eq_true ready
      rw [pump_done]
      rfl
    · cases same
      obtain ⟨n, rfl⟩ : ∃ n', n = n' + 1 := ⟨n - 1, by omega⟩
      rw [pump_unfinished unfinished, Traced.bind_eq rfl, resumed, Traced.bind_eq rfl, ih later (by omega)]
      rfl

theorem drive_eq_some {fuel : Nat} :
    drive fuel b = ⟨ev, some (some f)⟩ ↔
      ∃ ev₁ frame ev₂, start b = ⟨ev₁, some frame⟩ ∧ pump fuel frame = ⟨ev₂, some (some f)⟩ ∧ ev = ev₁ ++ ev₂ := by
  obtain ⟨ev₁, frame, started⟩ := start_value b
  rw [drive, started, Traced.bind_eq rfl]
  constructor
  · intro driven
    cases pumped : pump fuel frame with
    | mk ev₂ value =>
      rw [pumped] at driven
      cases driven
      exact ⟨ev₁, frame, ev₂, rfl, pumped, rfl⟩
  · rintro ⟨_, _, ev₂, same, pumped, rfl⟩
    cases same
    rw [pumped]

theorem drive_unique (first : drive m b = ⟨ev, some (some f)⟩) (second : drive n b = ⟨ev', some (some g)⟩) :
    ev = ev' ∧ f = g := by
  obtain ⟨ev₁, frame, ev₂, started, pumped, rfl⟩ := drive_eq_some.mp first
  obtain ⟨_, _, ev₃, same, pumped', rfl⟩ := drive_eq_some.mp second
  rw [started] at same
  cases same
  have both := (pump_more pumped (Nat.le_max_left m n)).symm.trans (pump_more pumped' (Nat.le_max_right m n))
  cases both
  exact ⟨rfl, rfl⟩

theorem iterate_take (n : Nat) : (take moved)^[n + 1] p = take moved ((take moved)^[n] p) :=
  Function.iterate_succ_apply' _ _ _

theorem Consistent.wait {r : Coroutine V E L k} {fuel : Nat} (holds : Consistent moved r)
    (pumped : pump fuel r.frame = ⟨ev, some (some f)⟩) : Consistent moved (r.returned moved ev f.promise) := by
  obtain ⟨p, rfl⟩ := pump_finished pumped
  obtain ⟨unwaited, started⟩ | ⟨before, q, driven, waited, frame, results⟩ := holds
  · have driven := drive_eq_some.mpr ⟨_, _, _, started, pumped, rfl⟩
    refine .inr ⟨fuel, p, driven, by simp [Coroutine.returned], ?_, ?_⟩
    · rw [Coroutine.returned, unwaited]
      rfl
    · rw [Coroutine.returned, unwaited]
      rfl
  · rw [frame, pump_done] at pumped
    cases pumped
    have again : drive before r.body = ⟨r.events ++ [], some (some (.done q))⟩ := by rwa [List.append_nil]
    refine .inr ⟨before, q, again, by simp [Coroutine.returned], ?_, ?_⟩
    · rw [Coroutine.returned, List.length_append, List.length_singleton, iterate_take]
      rfl
    · rw [Coroutine.returned, List.length_append, List.length_singleton, List.range_succ, List.map_append, ← results]
      rfl

omit [DecidableEq Var] in
theorem inv_wait {x : Var} {fuel : Nat} (holds : Inv moved s) (done : syncWait moved s x fuel = some t) :
    Inv moved t := by
  unfold TaskWaits.syncWait at done
  split at done
  next h held =>
    split at done
    next => cases done
    next r alive =>
      split at done
      next events f pumped =>
        cases done
        refine ⟨holds.unique.put, ?_⟩
        intro i c found
        rw [Owners.getElem?_put] at found
        split at found
        next same =>
          obtain ⟨before, old, rfl⟩ := Option.map_eq_some_iff.mp found
          have cell := Owners.live_eq_some_iff.mp alive
          rw [same] at cell
          exact (holds.consistent i _ cell).wait pumped
        next => exact holds.consistent i c found
      next => cases done
  next => cases done

theorem inv_call {x : Var} {body : Body V E L k} (holds : Inv moved s) (done : call s x body = some t) :
    Inv moved t := by
  unfold call at done
  split at done
  next events frame started =>
    refine ⟨holds.unique.create done, ?_⟩
    unfold Owners.create at done
    split at done
    next =>
      cases done
      intro i c found
      obtain earlier | new := Nat.lt_or_ge i s.cells.length
      · rw [List.getElem?_append_left earlier] at found
        exact holds.consistent i c found
      · rw [List.getElem?_append_right new] at found
        rw [List.mem_singleton.mp (List.mem_of_getElem? found)]
        exact .inl ⟨rfl, started⟩
    next => cases done
  next => cases done

theorem inv_special {m : SpecialMember Var} (holds : Inv moved s) (done : s.special m = some t) : Inv moved t := by
  refine ⟨holds.unique.special done, ?_⟩
  intro i c found
  rw [Owners.special_destroys done, Owners.getElem?_destroy] at found
  split at found
  next =>
    obtain ⟨before, old, rfl⟩ := Option.map_eq_some_iff.mp found
    exact holds.consistent i before old
  next => exact holds.consistent i c found

theorem inv_preserved : Preserved (step moved) fun s : Tasks Var V E L k => Inv moved s := by
  intro s a t holds done
  cases a with
  | call x body => exact inv_call holds done
  | special m => exact inv_special holds done
  | syncWait x fuel => exact inv_wait holds done

theorem outcome_take (p : Promise V E k) : outcome k (take moved p) = (outcome k p).map moved := by
  obtain ⟨result, exception⟩ := p
  cases k with
  | value =>
    cases exception with
    | some e => rfl
    | none =>
      cases result with
      | none => rfl
      | some r => rfl
  | void =>
    cases exception with
    | some e => rfl
    | none => rfl

theorem outcome_iterate (p : Promise V E k) (n : Nat) :
    outcome k ((take moved)^[n] p) = (outcome k p).map moved^[n] := by
  induction n with
  | zero =>
    rw [Function.iterate_zero, Function.iterate_zero, id]
    cases outcome k p <;> rfl
  | succ n ih =>
    rw [iterate_take, outcome_take, ih]
    cases outcome k p with
    | ok r => exact congrArg Except.ok (Function.iterate_succ_apply' moved n r).symm
    | error e => rfl

theorem drive_effects (b : Body V E L k) (alone : awaitsSuspension b = false) :
    ∃ fuel ev, drive fuel b = ⟨ev, some (some (.done (promiseOf (direct b).2)))⟩ ∧ effects ev = (direct b).1 := by
  induction b using evaluation_induction with
  | coReturn r => exact ⟨0, [], rfl, rfl⟩
  | throw e => exact ⟨0, [], rfl, rfl⟩
  | effect l next ih =>
    obtain ⟨fuel, ev, driven, made⟩ := ih alone
    refine ⟨fuel, .effect l :: ev, ?_, congrArg (l :: ·) made⟩
    rw [drive_effect, Traced.bind_eq rfl, driven]
    rfl
  | suspend next ih =>
    obtain ⟨fuel, ev, driven, made⟩ := ih alone
    refine ⟨fuel + 1, .resume :: ev, ?_, made⟩
    rw [drive_suspend, Traced.bind_eq rfl, driven]
    rfl
  | await child next handler ihChild ihRest =>
    rw [awaitsSuspension_await, Bool.or_eq_false_iff] at alone
    have started := start_of_not_passes child alone.1
    obtain ⟨fuel, ev, driven, made⟩ := ihRest alone.2
    have calls : effects [Event.received true, .awaitResume true] = ([] : List L) := rfl
    refine ⟨fuel, callTrace child ++ [.received true, .awaitResume true] ++ ev, ?_, ?_⟩
    · rw [drive_await fuel started, Traced.bind_eq rfl, driven, direct_await]
    · rw [effects_append, effects_append, calls, List.append_nil, effects_callTrace, made, direct_await_effects]

theorem Consistent.waited {r : Coroutine V E L k} (holds : Consistent moved r)
    (alone : awaitsSuspension r.body = false) :
    r.results = (List.range r.results.length).map (fun n => (waited (direct r.body).2).map moved^[n]) ∧
      (r.results ≠ [] → effects r.events = (direct r.body).1) := by
  obtain ⟨fuel, ev, driven, made⟩ := drive_effects r.body alone
  obtain ⟨unwaited, -⟩ | ⟨fuel', p, driven', -, -, results⟩ := holds
  · rw [unwaited]
    exact ⟨rfl, fun impossible => absurd rfl impossible⟩
  · obtain ⟨same, final⟩ := drive_unique driven' driven
    cases final
    constructor
    · simp only [outcome_iterate, outcome_promiseOf] at results
      exact results
    · intro _
      rw [same, made]

theorem Consistent.finishes {r : Coroutine V E L k} (holds : Consistent moved r)
    (alone : awaitsSuspension r.body = false) :
    ∃ fuel ev p, pump fuel r.frame = ⟨ev, some (some (.done p))⟩ := by
  obtain ⟨fuel, ev, driven, -⟩ := drive_effects r.body alone
  obtain ⟨-, started⟩ | ⟨-, p, -, -, frame, -⟩ := holds
  · obtain ⟨ev₁, frame, ev₂, same, pumped, -⟩ := drive_eq_some.mp driven
    rw [started] at same
    cases same
    exact ⟨fuel, ev₂, _, pumped⟩
  · rw [frame]
    exact ⟨0, [], _, pump_done 0 _⟩

/-- Whatever was done with the objects before: the body of a coroutine that an object has does its
effects once, however often it was waited for, and each wait so far gave what the plain call
gives, with a result moved from as often as it was waited for. So does the next one. -/
theorem waits_agree (moved : k.Result V → k.Result V) (s : Tasks Var V E L k)
    (reached : Reachable (step moved) .empty s) (x : Var) (h : Nat) (held : s.Holds x h) :
    ∃ r, s.live h = some r ∧ (awaitsSuspension r.body = false →
      r.results = (List.range r.results.length).map (fun n => (waited (direct r.body).2).map moved^[n]) ∧
      (r.results ≠ [] → effects r.events = (direct r.body).1) ∧
      ∃ fuel t r', step moved s (.syncWait x fuel) = some t ∧ t.live h = some r' ∧ r'.body = r.body ∧
        r'.results = r.results ++ [(waited (direct r.body).2).map moved^[r.results.length]] ∧
        effects r'.events = (direct r.body).1) := by
  have holds := reached.invariant inv_preserved inv_initial
  obtain ⟨c, cell, undestroyed⟩ := holds.unique.alive x h held
  obtain ⟨r, destroyed⟩ := c
  cases undestroyed
  have alive := Owners.live_eq_some_iff.mpr cell
  have consistent : Consistent moved r := holds.consistent h _ cell
  refine ⟨r, alive, ?_⟩
  intro alone
  obtain ⟨results, made⟩ := consistent.waited alone
  obtain ⟨fuel, ev, p, pumped⟩ := consistent.finishes alone
  obtain ⟨results', made'⟩ := (consistent.wait pumped).waited alone
  have next : outcome k p = (waited (direct r.body).2).map moved^[r.results.length] := by
    simp only [Coroutine.returned, Frame.promise] at results'
    rw [List.length_append, List.length_singleton, List.range_succ, List.map_append, ← results] at results'
    exact (List.cons.inj (List.append_cancel_left results')).1
  refine ⟨results, made, fuel, _, r.returned moved ev p, ?_, Owners.live_put alive, rfl, ?_, ?_⟩
  · simp only [step, TaskWaits.syncWait, show s.object x = some (some h) from held, alive, pumped]
    rfl
  · rw [← next]
    rfl
  · exact made' (by simp [Coroutine.returned])

def paused : Body (List Nat) String String .value := .suspend (.effect "ran" (.coReturn [7]))

def emptied : Kind.value.Result (List Nat) → Kind.value.Result (List Nat) := fun _ => ([] : List Nat)

/-- The second wait, after a move of the task, gets the vector that the first one has left. -/
theorem waits_agree_twice :
    ∃ s : Tasks Nat (List Nat) String String .value,
      run (step emptied) .empty [.call 0 paused, .syncWait 0 1, .special (.moveConstruct 1 0), .syncWait 1 0] =
        some s ∧
      ∃ r, s.live 0 = some r ∧ r.results = [.ok [7], .ok []] ∧ effects r.events = ["ran"] ∧
        ∃ fuel t r', step emptied s (.syncWait 1 fuel) = some t ∧ t.live 0 = some r' ∧
          r'.results = [.ok [7], .ok [], .ok []] ∧ effects r'.events = ["ran"] := by
  have runs : run (step emptied) (.empty : Tasks Nat (List Nat) String String .value)
      [.call 0 paused, .syncWait 0 1, .special (.moveConstruct 1 0), .syncWait 1 0] = some _ := rfl
  obtain ⟨r, alive, agrees⟩ := waits_agree emptied _ ⟨_, runs⟩ 1 0 rfl
  cases alive
  obtain ⟨-, made, fuel, t, r', waited, alive', -, results, made'⟩ := agrees rfl
  exact ⟨_, runs, _, rfl, rfl, made (List.cons_ne_nil _ _), fuel, t, r', waited, alive', results, made'⟩

end Cpp20Showcase.Coroutines.TaskWaits
