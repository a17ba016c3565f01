import Cpp20Showcase.Lib.Atomic
import Cpp20Showcase.Lib.TransitionSystem
import Cpp20Showcase.Lib.UniqueHandle

/-! `StoppableWorker` from `05_jthread/jthread_demo.h`, any number of them in one thread. Its
`std::jthread` requests a stop and joins before it gives up a thread it still holds. -/

namespace Cpp20Showcase.Jthread.StoppableWorker
open Lib Lib.TransitionSystem

/-- Who looks at a stop state: the thread with the objects, or the worker by its token. -/
inductive Side where
  | owner
  | worker
  deriving DecidableEq

variable {Var W : Type}

/-- A stop state and the thread that shares it; `running` is `none` once `work` has returned. -/
structure Worker (W : Type) where
  stop : Atomic Side Bool
  running : Option W

/-- `pending` is a special member that waits in `join()`. -/
structure State (Var W : Type) where
  workers : Owners Var (Worker W)
  pending : Option (SpecialMember Var)

inductive Action (Var W : Type) where
  | construct (x : Var) (w : W)
  | special (m : SpecialMember Var)
  | join
  | stop (x : Var)
  | stopRequested (x : Var) (lag : Nat) (answer : Bool)
  | poll (h : Nat) (lag : Nat)

def initial : State Var W where
  workers := .empty
  pending := none

/-- Of several requests only the first makes a store. -/
def Worker.request_stop (r : Worker W) : Worker W :=
  if r.stop.current then r else { r with stop := r.stop.store .owner true }

/-- `request_stop()` of a `std::jthread` with the stop state `h`. -/
def requestStop (w : Owners Var (Worker W)) (h : Nat) : Option (Owners Var (Worker W)) :=
  (w.live h).map fun r => w.put h r.request_stop

/-- Without a stop state `request_stop()` does nothing. -/
def stop (s : State Var W) (x : Var) : Option (State Var W) :=
  match s.pending, s.workers.object x with
  | none, some none => some s
  | none, some (some h) => (requestStop s.workers h).map fun workers => { s with workers := workers }
  | _, _ => none

/-- `stop_requested()`, which is false without a stop state. -/
def stopRequested (s : State Var W) (x : Var) (lag : Nat) (answer : Bool) : Option (State Var W) :=
  match s.pending, s.workers.object x with
  | none, some none => if answer = false then some s else none
  | none, some (some h) =>
    match s.workers.live h with
    | none => none
    | some r =>
      match r.stop.load .owner lag with
      | none => none
      | some (read, stop) =>
        if answer = read then some { s with workers := s.workers.put h { r with stop := stop } } else none
  | _, _ => none

variable [DecidableEq Var]

/-- A new thread starts with its own stop state. -/
def construct (s : State Var W) (x : Var) (w : W) : Option (State Var W) :=
  match s.pending with
  | none => (s.workers.create x ⟨.make false, some w⟩).map fun workers => { s with workers := workers }
  | some _ => none

/-- The destructor and the assignment first request a stop of the thread they give up;
there is no default constructor. -/
def special (s : State Var W) (m : SpecialMember Var) : Option (State Var W) :=
  match s.pending, m, s.workers.releases m with
  | none, .construct _, _ => none
  | none, m, none => (s.workers.special m).map fun workers => { s with workers := workers }
  | none, m, some h => (requestStop s.workers h).map fun workers => { workers := workers, pending := some m }
  | some _, _, _ => none

/-- `join()` blocks until the thread has ended. -/
def join (s : State Var W) : Option (State Var W) :=
  match s.pending with
  | none => none
  | some m =>
    match (s.workers.releases m).bind s.workers.live with
    | some ⟨_, none⟩ => (s.workers.special m).map fun workers => { workers := workers, pending := none }
    | _ => none

/-- The thread asks its token and goes on; it does so whether or not anybody still owns it. -/
def poll (work : W → Bool → Option W) (s : State Var W) (h lag : Nat) : Option (State Var W) :=
  match s.workers.cells[h]? with
  | some ⟨⟨stop, some w⟩, _⟩ => (stop.load .worker lag).map fun (read, stop) =>
      { s with workers := s.workers.put h ⟨stop, work w read⟩ }
  | _ => none

def step (work : W → Bool → Option W) (s : State Var W) : Action Var W → Option (State Var W)
  | .construct x w => construct s x w
  | .special m => special s m
  | .join => join s
  | .stop x => stop s x
  | .stopRequested x lag answer => stopRequested s x lag answer
  | .poll h lag => poll work s h lag

variable {work : W → Bool → Option W} {s t : State Var W} {a : Action Var W} {w w' : Owners Var (Worker W)}
variable {h : Nat} {r r' : Worker W} {c : Cell (Worker W)}

inductive Move (work : W → Bool → Option W) (s : State Var W) : Action Var W → State Var W → Prop where
  | construct {x u w} (idle : s.pending = none) (made : s.workers.create x ⟨.make false, some u⟩ = some w) :
      Move work s (.construct x u) { s with workers := w }
  | special {m w} (idle : s.pending = none) (quiet : s.workers.releases m = none)
      (done : s.workers.special m = some w) : Move work s (.special m) { s with workers := w }
  | release {m h r} (idle : s.pending = none) (released : s.workers.releases m = some h)
      (alive : s.workers.live h = some r) :
      Move work s (.special m) { workers := s.workers.put h r.request_stop, pending := some m }
  | join {m h stop w} (waiting : s.pending = some m) (released : s.workers.releases m = some h)
      (ended : s.workers.live h = some ⟨stop, none⟩) (done : s.workers.special m = some w) :
      Move work s .join { workers := w, pending := none }
  | stop {x h r} (idle : s.pending = none) (held : s.workers.Holds x h) (alive : s.workers.live h = some r) :
      Move work s (.stop x) { s with workers := s.workers.put h r.request_stop }
  | stopNull {x} (idle : s.pending = none) (null : s.workers.object x = some none) : Move work s (.stop x) s
  | answer {x h r lag read stop} (idle : s.pending = none) (held : s.workers.Holds x h)
      (alive : s.workers.live h = some r) (load : r.stop.load .owner lag = some (read, stop)) :
      Move work s (.stopRequested x lag read) { s with workers := s.workers.put h { r with stop := stop } }
  | answerNull {x lag} (idle : s.pending = none) (null : s.workers.object x = some none) :
      Move work s (.stopRequested x lag false) s
  | poll {h lag stop u destroyed read stop'} (found : s.workers.cells[h]? = some ⟨⟨stop, some u⟩, destroyed⟩)
      (load : stop.load .worker lag = some (read, stop')) :
      Move work s (.poll h lag) { s with workers := s.workers.put h ⟨stop', work u read⟩ }

theorem special_move {m : SpecialMember Var} (moved : special s m = some t) : Move work s (.special m) t := by
  unfold StoppableWorker.special at moved
  split at moved
  next => cases moved
  next idle _ quiet =>
    obtain ⟨w, done, rfl⟩ := Option.map_eq_some_iff.mp moved
    exact .special idle quiet done
  next h idle _ released =>
    obtain ⟨w, requested, rfl⟩ := Option.map_eq_some_iff.mp moved
    obtain ⟨r, alive, rfl⟩ := Option.map_eq_some_iff.mp requested
    exact .release idle released alive
  next => cases moved

theorem stopRequested_move {x : Var} {lag : Nat} {answer : Bool}
    (moved : stopRequested s x lag answer = some t) : Move work s (.stopRequested x lag answer) t := by
  unfold StoppableWorker.stopRequested at moved
  split at moved
  next idle null =>
    split at moved
    next no => cases moved; subst no; exact .answerNull idle null
    next => cases moved
  next h idle held =>
    split at moved
    next => cases moved
    next r alive =>
      split at moved
      next => cases moved
      next read stop load =>
        split at moved
        next same => cases moved; subst same; exact .answer idle held alive load
        next => cases moved
  next => cases moved

theorem step_move (moved : step work s a = some t) : Move work s a t := by
  cases a with
  | construct x u =>
    simp only [step, StoppableWorker.construct] at moved
    split at moved
    next idle =>
      obtain ⟨w, made, rfl⟩ := Option.map_eq_some_iff.mp moved
      exact .construct idle made
    next => cases moved
  | special m => exact special_move moved
  | join =>
    simp only [step, StoppableWorker.join] at moved
    split at moved
    next => cases moved
    next m waiting =>
      split at moved
      next stop alive =>
        obtain ⟨w, done, rfl⟩ := Option.map_eq_some_iff.mp moved
        obtain ⟨h, released, ended⟩ := Option.bind_eq_some_iff.mp alive
        exact .join waiting released ended done
      next => cases moved
  | stop x =>
    simp only [step, StoppableWorker.stop] at moved
    split at moved
    next idle null => cases moved; exact .stopNull idle null
    next h idle held =>
      obtain ⟨w, requested, rfl⟩ := Option.map_eq_some_iff.mp moved
      obtain ⟨r, alive, rfl⟩ := Option.map_eq_some_iff.mp requested
      exact .stop idle held alive
    next => cases moved
  | stopRequested x lag answer => exact stopRequested_move moved
  | poll h lag =>
    simp only [step, StoppableWorker.poll] at moved
    split at moved
    next stop u destroyed found =>
      obtain ⟨⟨read, stop'⟩, load, rfl⟩ := Option.map_eq_some_iff.mp moved
      exact .poll found load
    next => cases moved

/-- What holds of every thread: all stores to its stop state are the owner's, and it is
joined only after a request and its end. -/
structure Sound (c : Cell (Worker W)) : Prop where
  own : c.resource.stop.seen .owner = c.resource.stop.stores
  joined : 0 < c.destroyed → c.resource.stop.current = true ∧ c.resource.running = none

structure Later (r r' : Worker W) : Prop where
  own : r.stop.seen .owner = r.stop.stores → r'.stop.seen .owner = r'.stop.stores
  sticky : r.stop.current = true → r'.stop.current = true
  ended : r.running = none → r'.running = none

def Requested (w : Owners Var (Worker W)) (h : Nat) : Prop :=
  ∃ c, w.cells[h]? = some c ∧ c.resource.stop.current = true

structure Inv (s : State Var W) : Prop where
  unique : s.workers.Unique
  sound : ∀ (h : Nat) (c : Cell (Worker W)), s.workers.cells[h]? = some c → Sound c
  pending : ∀ m, s.pending = some m → ∃ h, s.workers.releases m = some h ∧ Requested s.workers h

theorem later_request_stop (r : Worker W) : Later r r.request_stop := by
  unfold Worker.request_stop
  split
  · exact ⟨id, id, id⟩
  · exact ⟨fun _ => Atomic.seen_store_self, fun _ => rfl, id⟩

theorem request_stop_requests (r : Worker W) : r.request_stop.stop.current = true := by
  unfold Worker.request_stop
  split
  next requested => exact requested
  next => rfl

theorem later_load {side : Side} {lag : Nat} {read : Bool} {stop : Atomic Side Bool} {running : Option W}
    (load : r.stop.load side lag = some (read, stop)) (ended : r.running = none → running = none) :
    Later r ⟨stop, running⟩ := by
  have stores := Atomic.load_stores load
  obtain ⟨-, fresh, rfl⟩ := Atomic.load_cases load
  refine ⟨fun own => ?_, id, ended⟩
  by_cases same : side = .owner
  · subst same
    have least := own ▸ fresh
    rw [Atomic.seen_observe_self, Atomic.stores_observe]
    exact Nat.le_antisymm (Nat.sub_le _ _) least
  · rw [Atomic.seen_observe_of_ne (Ne.symm same)]
    exact own

omit [DecidableEq Var] in
theorem requested_put (found : w.cells[h]? = some c) (later : Later c.resource r') {i : Nat}
    (requested : Requested w i) : Requested (w.put h r') i := by
  obtain ⟨d, there, current⟩ := requested
  by_cases same : h = i
  · subst same
    cases found.symm.trans there
    exact ⟨⟨r', c.destroyed⟩, by rw [Owners.getElem?_put, if_pos rfl, found]; rfl, later.sticky current⟩
  · exact ⟨d, by rw [Owners.getElem?_put, if_neg same, there], current⟩

omit [DecidableEq Var] in
theorem sound_put (found : w.cells[h]? = some c) (later : Later c.resource r')
    (sound : ∀ (i : Nat) (d : Cell (Worker W)), w.cells[i]? = some d → Sound d) :
    ∀ (i : Nat) (d : Cell (Worker W)), (w.put h r').cells[i]? = some d → Sound d := by
  intro i d there
  rw [Owners.getElem?_put] at there
  split at there
  next same =>
    subst same
    rw [found] at there
    cases there
    have before := sound h c found
    exact ⟨later.own before.own, fun gone => ⟨later.sticky (before.joined gone).1, later.ended (before.joined gone).2⟩⟩
  next => exact sound i d there

theorem Inv.put (holds : Inv s) (found : s.workers.cells[h]? = some c) (later : Later c.resource r') :
    Inv { s with workers := s.workers.put h r' } where
  unique := holds.unique.put
  sound := sound_put found later holds.sound
  pending := by
    intro m waiting
    obtain ⟨i, released, requested⟩ := holds.pending m waiting
    exact ⟨i, released, requested_put found later requested⟩

theorem Inv.special {m : SpecialMember Var} (holds : Inv s) (done : s.workers.special m = some w')
    (gone : ∀ h, s.workers.releases m = some h → ∃ stop, s.workers.live h = some ⟨stop, none⟩ ∧ stop.current = true) :
    Inv { workers := w', pending := none } where
  unique := holds.unique.special done
  sound := by
    intro i d there
    have there' : w'.cells[i]? = some d := there
    rw [Owners.special_destroys done, Owners.getElem?_destroy] at there'
    split at there'
    next released =>
      obtain ⟨stop, alive, requested⟩ := gone i released
      rw [Owners.live_eq_some_iff.mp alive] at there'
      cases there'
      exact ⟨(holds.sound i _ (Owners.live_eq_some_iff.mp alive)).own, fun _ => ⟨requested, rfl⟩⟩
    next => exact holds.sound i d there'
  pending := nofun

theorem inv_move (holds : Inv s) (move : Move work s a t) : Inv t := by
  cases move with
  | @construct x u w idle made =>
    refine ⟨holds.unique.create made, fun i d there => ?_, fun m waiting => ?_⟩
    · have there' : w.cells[i]? = some d := there
      unfold Owners.create at made
      split at made
      next =>
        cases made
        rcases Nat.lt_or_ge i s.workers.cells.length with old | new
        · rw [List.getElem?_append_left old] at there'
          exact holds.sound i d there'
        · rw [List.getElem?_append_right new, List.getElem?_singleton] at there'
          split at there'
          next => cases there'; exact ⟨rfl, fun impossible => absurd impossible (Nat.lt_irrefl 0)⟩
          next => cases there'
      next => cases made
    · exact by cases idle.symm.trans waiting
  | @special m w idle quiet done =>
    have after := holds.special done fun h released => absurd (quiet.symm.trans released) nofun
    rwa [← idle] at after
  | @release m h r idle released alive =>
    have found := Owners.live_eq_some_iff.mp alive
    have requested : Requested (s.workers.put h r.request_stop) h :=
      ⟨⟨_, 0⟩, by rw [Owners.getElem?_put, if_pos rfl, found]; rfl, request_stop_requests r⟩
    refine ⟨holds.unique.put, sound_put found (later_request_stop r) holds.sound, fun n waiting => ?_⟩
    cases waiting
    exact ⟨h, released, requested⟩
  | @join m h stop w waiting released ended done =>
    refine holds.special done fun i also => ?_
    cases released.symm.trans also
    obtain ⟨j, same, c, found, requested⟩ := holds.pending m waiting
    cases released.symm.trans same
    cases found.symm.trans (Owners.live_eq_some_iff.mp ended)
    exact ⟨stop, ended, requested⟩
  | @stop x h r idle held alive =>
    exact holds.put (Owners.live_eq_some_iff.mp alive) (later_request_stop r)
  | stopNull => exact holds
  | @answer x h r lag read stop idle held alive load =>
    exact holds.put (Owners.live_eq_some_iff.mp alive) (later_load load id)
  | answerNull => exact holds
  | @poll h lag stop u destroyed read stop' found load =>
    exact holds.put found (later_load (r := ⟨stop, some u⟩) load nofun)

theorem inv_initial : Inv (initial : State Var W) where
  unique := .empty
  sound := nofun
  pending := nofun

theorem inv_preserved : Preserved (step work : State Var W → Action Var W → Option (State Var W)) Inv :=
  fun _ _ _ holds moved => inv_move holds (step_move moved)

theorem inv_reachable (reached : Reachable (step work) initial s) : Inv s :=
  reached.invariant inv_preserved inv_initial

/-- Each thread is one object's until it is joined, once, after a request to stop and its own end;
a destructor or assignment waits for one that its object holds. `destroyed` counts the joins. -/
structure JoinedOnce (s : State Var W) : Prop where
  single : ∀ x y h, s.workers.Holds x h → s.workers.Holds y h → x = y
  held : ∀ x h, s.workers.Holds x h → ∃ c, s.workers.cells[h]? = some c ∧ c.destroyed = 0
  kept : ∀ (h : Nat) (c : Cell (Worker W)), s.workers.cells[h]? = some c →
    (c.destroyed = 0 ∧ ∃ x, s.workers.Holds x h) ∨
      (c.destroyed = 1 ∧ c.resource.running = none ∧ c.resource.stop.current = true)
  waiting : ∀ m, s.pending = some m → ∃ x h c, s.workers.Holds x h ∧ s.workers.releases m = some h ∧
    s.workers.cells[h]? = some c ∧ c.destroyed = 0 ∧ c.resource.stop.current = true

theorem workers_joined_once (work : W → Bool → Option W) (s : State Var W)
    (reached : Reachable (step work) initial s) : JoinedOnce s := by
  have holds := inv_reachable reached
  constructor
  · exact holds.unique.single
  · exact holds.unique.alive
  · intro h c found
    refine (holds.unique.kept h c found).imp_right ?_
    intro once
    obtain ⟨requested, ended⟩ := (holds.sound h c found).joined (by omega)
    exact ⟨once, ended, requested⟩
  · intro m pending
    obtain ⟨h, released, c, found, requested⟩ := holds.pending m pending
    obtain ⟨x, held⟩ := Owners.releases_held released
    obtain ⟨d, same, unjoined⟩ := holds.unique.alive x h held
    cases found.symm.trans same
    exact ⟨x, h, c, held, released, found, unjoined, requested⟩

/-- The second worker is moved over the first, whose thread has to end before; then the object is
destroyed and waits for the thread it holds now. -/
theorem workers_joined_once_assigned :
    ∃ s : State Nat Nat,
      run (step fun w stopped => if stopped then none else some (w + 1)) initial
        [.construct 0 0, .construct 1 0, .poll 0 0, .special (.moveAssign 0 1), .poll 0 0, .join,
          .stop 1, .stopRequested 1 0 false, .poll 1 0, .special (.destruct 0)] = some s ∧
      s.workers.object 0 = some (some 1) ∧ s.workers.cells.map (fun c => c.destroyed) = [1, 0] ∧
      s.pending = some (.destruct 0) ∧ JoinedOnce s := by
  have runs : run (step fun w stopped => if stopped then none else some (w + 1)) (initial : State Nat Nat)
      [.construct 0 0, .construct 1 0, .poll 0 0, .special (.moveAssign 0 1), .poll 0 0, .join,
        .stop 1, .stopRequested 1 0 false, .poll 1 0, .special (.destruct 0)] = some _ := rfl
  exact ⟨_, runs, rfl, rfl, rfl, workers_joined_once _ _ ⟨_, runs⟩⟩

theorem requested_move (requested : Requested s.workers h) (move : Move work s a t) : Requested t.workers h := by
  have special {m : SpecialMember Var} {w : Owners Var (Worker W)} (done : s.workers.special m = some w) :
      Requested w h := by
    obtain ⟨c, found, current⟩ := requested
    unfold Requested
    rw [Owners.special_destroys done, Owners.getElem?_destroy]
    split
    · exact ⟨⟨c.resource, c.destroyed + 1⟩, by rw [found]; rfl, current⟩
    · exact ⟨c, found, current⟩
  cases move with
  | @construct x u w idle made =>
    obtain ⟨c, found, current⟩ := requested
    unfold Owners.create at made
    split at made
    next =>
      cases made
      exact ⟨c, List.getElem?_append_left (List.getElem?_eq_some_iff.mp found).1 ▸ found, current⟩
    next => cases made
  | special idle quiet done => exact special done
  | release idle released alive =>
    exact requested_put (Owners.live_eq_some_iff.mp alive) (later_request_stop _) requested
  | join waiting released ended done => exact special done
  | stop idle held alive =>
    exact requested_put (Owners.live_eq_some_iff.mp alive) (later_request_stop _) requested
  | stopNull => exact requested
  | answer idle held alive load =>
    exact requested_put (Owners.live_eq_some_iff.mp alive) (later_load load id) requested
  | answerNull => exact requested
  | @poll h lag stop u destroyed read stop' found load =>
    exact requested_put found (later_load (r := ⟨stop, some u⟩) load (by rintro ⟨⟩)) requested

/-- Every request so far was one of a destructor or an assignment. -/
def Unstopped (s : State Var W) : Prop :=
  ∀ (h : Nat) (c : Cell (Worker W)), s.workers.cells[h]? = some c → c.resource.stop.current = true →
    c.destroyed = 1 ∨ ∃ m, s.pending = some m ∧ s.workers.releases m = some h

theorem unstopped_put (unstopped : Unstopped s) (found : s.workers.cells[h]? = some c)
    (same : r'.stop.current = c.resource.stop.current) :
    Unstopped { s with workers := s.workers.put h r' } := by
  intro i d there requested
  rw [Owners.getElem?_put] at there
  split at there
  next equal =>
    subst equal
    rw [found] at there
    cases there
    exact unstopped h c found (same.symm.trans requested)
  next => exact unstopped i d there requested

theorem unstopped_special {m : SpecialMember Var} (holds : Inv s) (unstopped : Unstopped s)
    (done : s.workers.special m = some w') (last : ∀ n, s.pending = some n → n = m) :
    Unstopped { workers := w', pending := none } := by
  intro i d there requested
  have there' : w'.cells[i]? = some d := there
  rw [Owners.special_destroys done, Owners.getElem?_destroy] at there'
  split at there'
  next released =>
    obtain ⟨c, found, rfl⟩ := Option.map_eq_some_iff.mp there'
    obtain ⟨x, held⟩ := Owners.releases_held released
    obtain ⟨e, same, whole⟩ := holds.unique.alive x i held
    cases found.symm.trans same
    exact .inl (congrArg (· + 1) whole)
  next kept =>
    rcases unstopped i d there' requested with joined | ⟨n, waiting, released⟩
    · exact .inl joined
    · exact absurd (last n waiting ▸ released) kept

theorem unstopped_move (holds : Inv s) (unstopped : Unstopped s) (move : Move work s a t)
    (other : ∀ x, a ≠ .stop x) : Unstopped t := by
  cases move with
  | @construct x u w idle made =>
    intro i d there requested
    have there' : w.cells[i]? = some d := there
    unfold Owners.create at made
    split at made
    next =>
      cases made
      rcases Nat.lt_or_ge i s.workers.cells.length with old | new
      · rw [List.getElem?_append_left old] at there'
        rcases unstopped i d there' requested with joined | ⟨m, waiting, -⟩
        · exact .inl joined
        · exact by cases idle.symm.trans waiting
      · rw [List.getElem?_append_right new, List.getElem?_singleton] at there'
        split at there'
        next => cases there'; cases requested
        next => cases there'
    next => cases made
  | @special m w idle quiet done =>
    have after := unstopped_special holds unstopped done fun n waiting => by cases idle.symm.trans waiting
    rwa [← idle] at after
  | @release m h r idle released alive =>
    intro i d there requested
    have there' : (s.workers.put h r.request_stop).cells[i]? = some d := there
    rw [Owners.getElem?_put] at there'
    split at there'
    next same =>
      subst same
      exact .inr ⟨m, rfl, released⟩
    next =>
      rcases unstopped i d there' requested with joined | ⟨n, waiting, -⟩
      · exact .inl joined
      · exact by cases idle.symm.trans waiting
  | join waiting released ended done =>
    exact unstopped_special holds unstopped done fun n also => Option.some.inj (also.symm.trans waiting)
  | stop => exact absurd rfl (other _)
  | stopNull => exact unstopped
  | answer idle held alive load =>
    obtain ⟨-, -, rfl⟩ := Atomic.load_cases load
    exact unstopped_put unstopped (Owners.live_eq_some_iff.mp alive) rfl
  | answerNull => exact unstopped
  | poll found load =>
    obtain ⟨-, -, rfl⟩ := Atomic.load_cases load
    exact unstopped_put unstopped found rfl

theorem answer_iff {x : Var} {lag : Nat} {answer : Bool} (holds : Inv s)
    (asked : step work s (.stopRequested x lag answer) = some t) :
    s.pending = none ∧ (answer = true ↔ ∃ h, s.workers.Holds x h ∧ Requested s.workers h) := by
  have move := step_move asked
  cases move with
  | @answer x h r lag read stop idle held alive load =>
    refine ⟨idle, ?_⟩
    have found := Owners.live_eq_some_iff.mp alive
    obtain ⟨current, -⟩ := Atomic.load_own load (holds.sound h _ found).own
    subst current
    constructor
    · exact fun requested => ⟨h, held, _, found, requested⟩
    · rintro ⟨i, also, c, there, requested⟩
      cases held.symm.trans also
      cases found.symm.trans there
      exact requested
  | answerNull idle null =>
    refine ⟨idle, iff_of_false nofun ?_⟩
    rintro ⟨h, held, -⟩
    cases null.symm.trans held

theorem stop_requests {x : Var} (held : s.workers.Holds x h) (stopped : step work s (.stop x) = some t) :
    Requested t.workers h := by
  have move := step_move stopped
  cases move with
  | stop idle also alive =>
    cases held.symm.trans also
    have found := Owners.live_eq_some_iff.mp alive
    exact ⟨⟨_, 0⟩, by rw [Owners.getElem?_put, if_pos rfl, found]; rfl, request_stop_requests _⟩
  | stopNull idle null => cases held.symm.trans null

/-- Once `stop()` was called on an object, `stop_requested()` stays true of its thread, in
whichever object that is; where `stop()` is never called it is false. -/
theorem stop_is_final (work : W → Bool → Option W) (start u v : State Var W) (y : Var) (lag : Nat)
    (answer : Bool) (acts : List (Action Var W)) (reached : Reachable (step work) initial start)
    (runs : run (step work) start acts = some u) (asked : step work u (.stopRequested y lag answer) = some v) :
    (∀ s x h, step work s (.stop x) = some start → s.workers.Holds x h → u.workers.Holds y h → answer = true) ∧
      (start = initial → (∀ x, .stop x ∉ acts) → answer = false) := by
  have holds := inv_reachable (reached.trans ⟨acts, runs⟩)
  obtain ⟨idle, precise⟩ := answer_iff holds asked
  constructor
  · intro s x h stopped held now
    refine precise.mpr ⟨h, now, ?_⟩
    refine Preserved.run (I := fun s => Requested s.workers h) ?_ (stop_requests held stopped) runs
    exact fun s a t requested moved => requested_move requested (step_move moved)
  · rintro rfl never
    have kept : Inv u ∧ Unstopped u := by
      refine run_keeps (I := fun s => Inv s ∧ Unstopped s) ?_ ⟨inv_initial, nofun⟩ runs
      intro s a t member both moved
      have move := step_move moved
      refine ⟨inv_move both.1 move, unstopped_move both.1 both.2 move ?_⟩
      rintro x rfl
      exact never x member
    by_contra yes
    obtain ⟨h, held, c, found, requested⟩ := precise.mp (by simpa using yes)
    rcases kept.2 h c found requested with joined | ⟨m, waiting, -⟩
    · obtain ⟨d, same, whole⟩ := holds.unique.alive y h held
      cases found.symm.trans same
      omega
    · exact by cases idle.symm.trans waiting

/-- `stop()`, then the worker is moved and asked where it is now: it cannot answer false. -/
theorem stop_is_final_moved :
    ∃ s start u : State Nat Nat,
      step (fun w _ => some w) initial (.construct 0 0) = some s ∧
      step (fun w _ => some w) s (.stop 0) = some start ∧
      run (step fun w _ => some w) start [.poll 0 1, .special (.moveConstruct 1 0)] = some u ∧
      (∃ answer v, step (fun w _ => some w) u (.stopRequested 1 0 answer) = some v ∧ answer = true) ∧
      step (fun w _ => some w) u (.stopRequested 1 0 false) = none := by
  let s : State Nat Nat := (step (fun w _ => some w) initial (.construct 0 0)).get rfl
  have stopped : run (step fun w _ => some w) (initial : State Nat Nat) [.construct 0 0, .stop 0] = some _ := rfl
  have final {u v : State Nat Nat} {answer : Bool} := stop_is_final (fun w _ => some w) _ u v 1 0 answer
    [.poll 0 1, .special (.moveConstruct 1 0)] ⟨_, stopped⟩
  refine ⟨s, _, _, rfl, rfl, rfl, ⟨true, _, rfl, (final rfl rfl).1 s 0 0 rfl rfl rfl⟩, ?_⟩
  refine Option.eq_none_iff_forall_ne_some.mpr ?_
  intro v asked
  exact Bool.false_ne_true ((final rfl asked).1 s 0 0 rfl rfl rfl)

/-- The worker's state after it has read `n` times that a stop was requested. -/
def heeded (work : W → Bool → Option W) : Nat → W → Option W
  | 0, u => some u
  | n + 1, u => (work u true).bind (heeded work n)

theorem heeded_succ {n : Nat} {u : W} : heeded work (n + 1) u = (heeded work n u).bind fun v => work v true := by
  induction n generalizing u with
  | zero => simp [heeded]
  | succ n ih =>
    rw [heeded, heeded]
    cases work u true with
    | none => rfl
    | some v => exact ih

theorem ends {n : Nat} {u : W} {stop : Atomic Side Bool}
    (found : s.workers.cells[h]? = some ⟨⟨stop, some u⟩, 0⟩) (requested : stop.current = true)
    (heeds : heeded work n u = none) :
    ∃ t stop, Reachable (step work) s t ∧ t.pending = s.pending ∧ t.workers.object = s.workers.object ∧
      t.workers.cells[h]? = some ⟨⟨stop, none⟩, 0⟩ := by
  induction n generalizing s u stop with
  | zero => cases heeds
  | succ n ih =>
    obtain ⟨stop', polled, same⟩ : ∃ stop', step work s (.poll h 0) =
        some { s with workers := s.workers.put h ⟨stop', work u true⟩ } ∧ stop'.current = true := by
      refine ⟨stop.observe .worker stop.stores (Nat.le_refl _), ?_, requested⟩
      simp only [step, StoppableWorker.poll, found, Atomic.load_latest, Option.map_some, requested]
    have after : (s.workers.put h ⟨stop', work u true⟩).cells[h]? = some ⟨⟨stop', work u true⟩, 0⟩ := by
      rw [Owners.getElem?_put, if_pos rfl, found]
      rfl
    cases next : work u true with
    | none => exact ⟨_, stop', .of_step polled, rfl, rfl, next ▸ after⟩
    | some v =>
      rw [heeded, next, Option.bind_some] at heeds
      rw [next] at after polled
      obtain ⟨t, stop'', reached, pending, object, ended⟩ :=
        ih (s := { s with workers := s.workers.put h ⟨stop', some v⟩ }) after same heeds
      exact ⟨t, stop'', (Reachable.of_step polled).trans reached, pending, object, ended⟩

/-- `join()` in the special member `m` has returned, and `m` with it. -/
def Completed (s : State Var W) (m : SpecialMember Var) (t : State Var W) : Prop :=
  t.pending = none ∧ ∃ w, s.workers.special m = some w ∧ t.workers.object = w.object

theorem completes {m : SpecialMember Var} (heeds : ∀ u, ∃ n, heeded work n u = none) (holds : Inv s)
    (waiting : s.pending = some m) : ∃ t, Reachable (step work) s t ∧ Completed s m t := by
  obtain ⟨h, released, ⟨⟨stop, running⟩, destroyed⟩, found, requested⟩ := holds.pending m waiting
  obtain ⟨x, held⟩ := Owners.releases_held released
  obtain ⟨c, same, whole⟩ := holds.unique.alive x h held
  cases found.symm.trans same
  cases whole
  obtain ⟨t, stop', reached, pending, object, ended⟩ : ∃ t stop, Reachable (step work) s t ∧
      t.pending = s.pending ∧ t.workers.object = s.workers.object ∧
      t.workers.cells[h]? = some ⟨⟨stop, none⟩, 0⟩ := by
    cases running with
    | none => exact ⟨s, stop, .refl, rfl, rfl, found⟩
    | some u =>
      obtain ⟨n, ended⟩ := heeds u
      exact ends found requested ended
  have released' := (Owners.releases_congr object m).trans released
  obtain ⟨w, done⟩ := Owners.special_of_releases released'
  obtain ⟨w', planned⟩ := Owners.special_of_releases released
  have joined : step work t .join = some { workers := w, pending := none } := by
    simp only [step, StoppableWorker.join, pending, waiting, released', Option.bind_some,
      Owners.live_eq_some_iff.mpr ended, done, Option.map_some]
  have agree := Owners.special_congr object m
  rw [done, planned] at agree
  exact ⟨_, reached.next joined, rfl, w', planned, Option.some.inj agree⟩

/-- The destructor of `x` waits for a thread that knows of the request and will not end. -/
structure Stuck (work : W → Bool → Option W) (x : Var) (u : W) (s : State Var W) : Prop where
  pending : s.pending = some (.destruct x)
  held : s.workers.Holds x 0
  running : ∃ n v stop, heeded work n u = some v ∧ s.workers.cells = [⟨⟨stop, some v⟩, 0⟩] ∧
    stop.current = true ∧ stop.seen .worker = stop.stores

theorem stuck_move {x : Var} {u : W} (never : ∀ n, heeded work n u ≠ none) (stuck : Stuck work x u s)
    (move : Move work s a t) : Stuck work x u t := by
  obtain ⟨n, v, stop, heeds, only, requested, aware⟩ := stuck.running
  have busy : s.pending ≠ none := fun idle => absurd (idle.symm.trans stuck.pending) nofun
  cases move with
  | construct idle | special idle | release idle | stop idle | stopNull idle | answer idle | answerNull idle =>
    exact absurd idle busy
  | @join m h stop' w waiting released ended done =>
    cases waiting.symm.trans stuck.pending
    have here : h = 0 := by
      have owner : s.workers.Holds x h := Option.join_eq_some_iff.mp released
      exact Option.some.inj (Option.some.inj (owner.symm.trans stuck.held))
    rw [Owners.live_eq_some_iff, only, here] at ended
    cases ended
  | @poll h lag stop' w destroyed read stop'' found load =>
    rw [only] at found
    cases h with
    | succ h => cases found
    | zero =>
      cases found
      obtain ⟨current, rfl⟩ := Atomic.load_own load aware
      rw [requested] at current
      subst current
      refine ⟨stuck.pending, stuck.held, ?_⟩
      cases next : heeded work (n + 1) u with
      | none => exact absurd next (never _)
      | some w' =>
        rw [heeded_succ, heeds, Option.bind_some] at next
        have further : heeded work (n + 1) u = some w' := by rw [heeded_succ, heeds, Option.bind_some, next]
        refine ⟨n + 1, w', stop.observe .worker stop.stores (Nat.le_refl _), further, ?_, requested, ?_⟩
        · rw [Owners.put, only, next]
          rfl
        · rw [Atomic.seen_observe_self, Atomic.stores_observe]

theorem reaches_stuck (work : W → Bool → Option W) (x : Var) {u : W} (never : ∀ n, heeded work n u ≠ none) :
    ∃ s, Reachable (step work) initial s ∧ Stuck work x u s := by
  cases next : work u true with
  | none => exact absurd (show heeded work 1 u = none by rw [heeded, next]; rfl) (never 1)
  | some v =>
    let r : Worker W := ⟨.make false, some u⟩
    let started : State Var W :=
      { workers := { cells := [⟨r, 0⟩], object := Function.update (fun _ => none) x (some (some 0)) }
        pending := none }
    let leaving : State Var W := { workers := started.workers.put 0 r.request_stop, pending := some (.destruct x) }
    let stop := r.request_stop.stop.observe .worker 1 (Nat.le_refl _)
    have held : started.workers.object x = some (some 0) := by simp only [started, Function.update_self]
    have constructed : step work initial (.construct x u) = some started := rfl
    have released : step work started (.special (.destruct x)) = some leaving := by
      have gives : started.workers.releases (.destruct x) = some 0 := by rw [Owners.releases, held, Option.join_some]
      simp only [step, StoppableWorker.special, gives]
      rfl
    have polled : step work leaving (.poll 0 0) =
        some { leaving with workers := leaving.workers.put 0 ⟨stop, some v⟩ } := by
      rw [← next]
      rfl
    refine ⟨_, (Reachable.of_step constructed).next released |>.next polled, rfl, held, ?_⟩
    exact ⟨1, v, stop, by rw [heeded, next]; rfl, rfl, rfl, rfl⟩

/-- A destructor or an assignment that waits in `join()` can always return if and only if
`work` ends when it keeps reading that a stop was requested. -/
theorem destructors_return_iff (work : W → Bool → Option W) (x : Var) :
    (∀ (s : State Var W) m, Reachable (step work) initial s → s.pending = some m →
        ∃ t, Reachable (step work) s t ∧ Completed s m t) ↔
      ∀ u, ∃ n, heeded work n u = none := by
  constructor
  · intro returns u
    by_contra never
    have endless : ∀ n, heeded work n u ≠ none := fun n ended => never ⟨n, ended⟩
    obtain ⟨s, reached, stuck⟩ := reaches_stuck work x endless
    obtain ⟨t, later, idle, -⟩ := returns s _ reached stuck.pending
    have kept : Preserved (step work) (Stuck work x u) :=
      fun _ _ _ stuck moved => stuck_move endless stuck (step_move moved)
    have waiting := (later.invariant kept stuck).pending
    exact by cases idle.symm.trans waiting
  · intro heeds s m reached waiting
    exact completes heeds (inv_reachable reached) waiting

end Cpp20Showcase.Jthread.StoppableWorker
