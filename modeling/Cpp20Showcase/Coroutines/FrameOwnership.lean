import Cpp20Showcase.Coroutines.Generator
import Cpp20Showcase.Coroutines.Task

/-! Who owns the coroutine frames of `Generator<T>`, `Task<T>` and `Task<void>`. The three
classes have the same special members, each its own; handles are typed by the promise, so
each class has frames of its own. -/

namespace Cpp20Showcase.Coroutines.FrameOwnership
open Lib Lib.TransitionSystem

variable {Var T E V L R : Type}

structure Objects (Var T E V L : Type) where
  generators : Owners Var (Generator.Frame T E)
  tasks : Owners Var (Task.Frame V E L .value)
  voidTasks : Owners Var (Task.Frame V E L .void)

/-- A generator's frame waits at `initial_suspend`; a task's is what its eager start left. -/
inductive Action (Var T E V L : Type) where
  | createGenerator (x : Var) (body : Nat → Generator.Signal T E)
  | generator (m : SpecialMember Var)
  | begin (x : Var)
  | createTask (x : Var) (frame : Task.Frame V E L .value)
  | task (m : SpecialMember Var)
  | createVoidTask (x : Var) (frame : Task.Frame V E L .void)
  | voidTask (m : SpecialMember Var)

/-- The only handle there is moves, so that no frame is destroyed twice, none is lost, and
none remains without objects. -/
structure OwnedOnce (w : Owners Var R) : Prop where
  distinct : ∀ x y h, w.Holds x h → w.Holds y h → x = y
  alive : ∀ x h, w.Holds x h → ∃ r, w.live h = some r
  owner : ∀ h r, w.live h = some r → ∃! x, w.Holds x h
  once : ∀ (h : Nat) (c : Cell R), w.cells[h]? = some c → c.destroyed ≤ 1
  released : (∀ x, w.object x = none) → ∀ (h : Nat) (c : Cell R), w.cells[h]? = some c → c.destroyed = 1

/-- `auto it = x.begin()`; an exception goes to the caller. -/
def begin (w : Generator.World Var T E) (x : Var) : Option (Generator.World Var T E) :=
  match w.object x with
  | none => none
  | some it => (Generator.advance w it).map Prod.fst

/-- What `begin()` does to the frame of `x`: nothing if there is none or it has ended, and
otherwise one resumption of a live one. -/
def BeginsSafely (w : Generator.World Var T E) (x : Var) : Generator.Iterator → Prop
  | none => Generator.advance w none = some (w, none) ∧ begin w x = some w
  | some h => ∃ f, w.live h = some f ∧
      Generator.advance w (some h) =
        (if f.done then some (w, none) else some (w.put h f.resume, f.resume.exception)) ∧
      begin w x = some (if f.done then w else w.put h f.resume)

def step [DecidableEq Var] (s : Objects Var T E V L) : Action Var T E V L → Option (Objects Var T E V L)
  | .createGenerator x body =>
      (s.generators.create x (.start body)).map fun w => { s with generators := w }
  | .generator m => (s.generators.special m).map fun w => { s with generators := w }
  | .begin x => (begin s.generators x).map fun w => { s with generators := w }
  | .createTask x frame => (s.tasks.create x frame).map fun w => { s with tasks := w }
  | .task m => (s.tasks.special m).map fun w => { s with tasks := w }
  | .createVoidTask x frame => (s.voidTasks.create x frame).map fun w => { s with voidTasks := w }
  | .voidTask m => (s.voidTasks.special m).map fun w => { s with voidTasks := w }

def initial : Objects Var T E V L where
  generators := .empty
  tasks := .empty
  voidTasks := .empty

structure Inv (s : Objects Var T E V L) : Prop where
  generators : s.generators.Unique
  tasks : s.tasks.Unique
  voidTasks : s.voidTasks.Unique

variable {w : Owners Var R} {g g' : Generator.World Var T E} {it : Generator.Iterator} {x : Var}

theorem holds_live (unique : w.Unique) {h : Nat} (holds : w.Holds x h) : ∃ r, w.live h = some r := by
  obtain ⟨c, found, undestroyed⟩ := unique.alive x h holds
  obtain ⟨r, destroyed⟩ := c
  cases undestroyed
  exact ⟨r, Owners.live_eq_some_iff.mpr found⟩

theorem OwnedOnce.of_unique (unique : w.Unique) : OwnedOnce w where
  distinct := unique.single
  alive := by
    intro x h holds
    exact holds_live unique holds
  owner := by
    intro h r alive
    have found := Owners.live_eq_some_iff.mp alive
    rcases unique.kept h _ found with ⟨-, x, holds⟩ | destroyed
    · exact ⟨x, holds, fun y other => unique.single y x h other holds⟩
    · cases destroyed
  once := by
    intro h c found
    rcases unique.kept h c found with ⟨undestroyed, -⟩ | destroyed
    · omega
    · omega
  released := by
    intro none_left h c found
    rcases unique.kept h c found with ⟨-, x, holds⟩ | destroyed
    · rw [Owners.Holds, none_left x] at holds
      cases holds
    · exact destroyed

theorem BeginsSafely.of_unique (unique : g.Unique) (held : g.object x = some it) : BeginsSafely g x it := by
  have begins : begin g x = (Generator.advance g it).map Prod.fst := by rw [begin, held]
  cases it with
  | none => exact ⟨rfl, begins⟩
  | some h =>
    obtain ⟨f, alive⟩ := holds_live unique held
    have advances : Generator.advance g (some h) =
        if f.done then some (g, none) else some (g.put h f.resume, f.resume.exception) := by
      rw [Generator.advance, alive, Option.map_some]
      split
      · rfl
      · rfl
    refine ⟨f, alive, advances, ?_⟩
    rw [begins, advances]
    split
    · rfl
    · rfl

theorem inv_initial : Inv (initial : Objects Var T E V L) where
  generators := .empty
  tasks := .empty
  voidTasks := .empty

theorem unique_begin (unique : g.Unique) (begun : begin g x = some g') : g'.Unique := by
  cases held : g.object x with
  | none =>
    rw [begin, held] at begun
    cases begun
  | some it =>
    have safe := BeginsSafely.of_unique unique held
    cases it with
    | none =>
      cases safe.2.symm.trans begun
      exact unique
    | some h =>
      obtain ⟨f, -, -, begins⟩ := safe
      rw [begins] at begun
      split at begun
      · cases begun
        exact unique
      · cases begun
        exact unique.put

variable [DecidableEq Var] {s t : Objects Var T E V L} {a : Action Var T E V L}

theorem inv_step (holds : Inv s) (moved : step s a = some t) : Inv t := by
  cases a with
  | createGenerator x body =>
    obtain ⟨w, done, rfl⟩ := Option.map_eq_some_iff.mp moved
    exact { holds with generators := holds.generators.create done }
  | generator m =>
    obtain ⟨w, done, rfl⟩ := Option.map_eq_some_iff.mp moved
    exact { holds with generators := holds.generators.special done }
  | begin x =>
    obtain ⟨w, done, rfl⟩ := Option.map_eq_some_iff.mp moved
    exact { holds with generators := unique_begin holds.generators done }
  | createTask x frame =>
    obtain ⟨w, done, rfl⟩ := Option.map_eq_some_iff.mp moved
    exact { holds with tasks := holds.tasks.create done }
  | task m =>
    obtain ⟨w, done, rfl⟩ := Option.map_eq_some_iff.mp moved
    exact { holds with tasks := holds.tasks.special done }
  | createVoidTask x frame =>
    obtain ⟨w, done, rfl⟩ := Option.map_eq_some_iff.mp moved
    exact { holds with voidTasks := holds.voidTasks.create done }
  | voidTask m =>
    obtain ⟨w, done, rfl⟩ := Option.map_eq_some_iff.mp moved
    exact { holds with voidTasks := holds.voidTasks.special done }

end Cpp20Showcase.Coroutines.FrameOwnership
