import Mathlib.Data.List.Basic
import Mathlib.Logic.Function.Basic

/-! One atomic object under coherence. Its stores are totally ordered; a load may
return any store that is not older than the newest one its thread has already
read or made, and a read-modify-write or a fresh load returns the last store. -/

namespace Cpp20Showcase.Lib

/-- The modification order of one atomic object, split into the last store and
the ones it overwrote (newest first), with how many overwrites each thread knows. -/
structure Atomic (ι V : Type*) where
  current : V
  overwritten : List V
  seen : ι → Nat
  coherent : ∀ t, seen t ≤ overwritten.length

namespace Atomic

variable {ι V : Type*} {a b : Atomic ι V} {t u : ι} {v : V} {lag n : Nat}

/-- How many stores followed the initialisation. -/
def stores (a : Atomic ι V) : Nat := a.overwritten.length

def history (a : Atomic ι V) : List V := a.current :: a.overwritten

def make (v : V) : Atomic ι V where
  current := v
  overwritten := []
  seen := fun _ => 0
  coherent := fun _ => Nat.le_refl _

theorem seen_le (a : Atomic ι V) (t : ι) : a.seen t ≤ a.stores := a.coherent t

variable [DecidableEq ι]

def observe (a : Atomic ι V) (t : ι) (n : Nat) (known : n ≤ a.stores) : Atomic ι V where
  current := a.current
  overwritten := a.overwritten
  seen := Function.update a.seen t n
  coherent := by
    intro u
    by_cases same : u = t
    · subst same
      simpa using (show n ≤ a.overwritten.length from known)
    · simpa [same] using a.coherent u

/-- A load by `t` that misses the last `lag` stores. -/
def load (a : Atomic ι V) (t : ι) (lag : Nat) : Option (V × Atomic ι V) :=
  if a.seen t + lag ≤ a.stores then
    a.history[lag]?.map fun v => (v, a.observe t (a.stores - lag) (Nat.sub_le _ _))
  else none

/-- A store by `t`, which knows its own store from then on. -/
def store (a : Atomic ι V) (t : ι) (v : V) : Atomic ι V where
  current := v
  overwritten := a.history
  seen := Function.update a.seen t (a.stores + 1)
  coherent := by
    intro u
    by_cases same : u = t
    · subst same
      simp [history, stores]
    · simpa [same, history] using Nat.le_succ_of_le (a.coherent u)

@[simp] theorem stores_store : (a.store t v).stores = a.stores + 1 := rfl

@[simp] theorem stores_observe {known : n ≤ a.stores} : (a.observe t n known).stores = a.stores := rfl

@[simp] theorem current_observe {known : n ≤ a.stores} :
    (a.observe t n known).current = a.current := rfl

@[simp] theorem history_store : (a.store t v).history = v :: a.history := rfl

@[simp] theorem seen_store_self : (a.store t v).seen t = a.stores + 1 := by simp [store]

@[simp] theorem seen_store_of_ne (other : u ≠ t) : (a.store t v).seen u = a.seen u := by
  simp [store, other]

@[simp] theorem seen_observe_self {known : n ≤ a.stores} : (a.observe t n known).seen t = n := by
  simp [observe]

@[simp] theorem seen_observe_of_ne {known : n ≤ a.stores} (other : u ≠ t) :
    (a.observe t n known).seen u = a.seen u := by
  simp [observe, other]

theorem load_cases (read : a.load t lag = some (v, b)) :
    a.history[lag]? = some v ∧ a.seen t ≤ a.stores - lag ∧
      b = a.observe t (a.stores - lag) (Nat.sub_le _ _) := by
  unfold load at read
  split at read
  next allowed =>
    obtain ⟨w, found, same⟩ := Option.map_eq_some_iff.mp read
    cases same
    exact ⟨found, by omega, rfl⟩
  next => cases read

theorem load_stores (read : a.load t lag = some (v, b)) : b.stores = a.stores := by
  obtain ⟨-, -, rfl⟩ := load_cases read
  rfl

theorem load_history (read : a.load t lag = some (v, b)) : b.history = a.history := by
  obtain ⟨-, -, rfl⟩ := load_cases read
  rfl

theorem load_seen_of_ne (read : a.load t lag = some (v, b)) (other : u ≠ t) : b.seen u = a.seen u := by
  obtain ⟨-, -, rfl⟩ := load_cases read
  exact seen_observe_of_ne other

theorem load_seen_le (read : a.load t lag = some (v, b)) : a.seen u ≤ b.seen u := by
  obtain ⟨-, fresh, rfl⟩ := load_cases read
  by_cases own : u = t
  · rw [own, seen_observe_self]
    exact fresh
  · exact Nat.le_of_eq (seen_observe_of_ne own).symm

theorem load_latest (a : Atomic ι V) (t : ι) :
    a.load t 0 = some (a.current, a.observe t a.stores (Nat.le_refl _)) := by
  simp [load, history, a.seen_le t]

theorem load_own (read : a.load t lag = some (v, b)) (own : a.seen t = a.stores) :
    v = a.current ∧ b = a.observe t a.stores (Nat.le_refl _) := by
  unfold load at read
  split at read
  next allowed =>
    obtain rfl : lag = 0 := by omega
    simpa [history, eq_comm] using read
  next => cases read

/-- `t` learns what `u` knows: a lock acquired after the unlock that `u` stands for. -/
def join (a : Atomic ι V) (t u : ι) : Atomic ι V :=
  a.observe t (max (a.seen t) (a.seen u)) (Nat.max_le.mpr ⟨a.seen_le t, a.seen_le u⟩)

@[simp] theorem current_join : (a.join t u).current = a.current := rfl

@[simp] theorem stores_join : (a.join t u).stores = a.stores := rfl

theorem seen_join_of_ne {w : ι} (other : w ≠ t) : (a.join t u).seen w = a.seen w := seen_observe_of_ne other

theorem seen_join_self : (a.join t u).seen t = max (a.seen t) (a.seen u) := seen_observe_self

theorem seen_le_join {w : ι} : a.seen w ≤ (a.join t u).seen w := by
  by_cases own : w = t
  · rw [own, seen_join_self]
    exact Nat.le_max_left _ _
  · exact Nat.le_of_eq (seen_join_of_ne own).symm

theorem seen_join_latest (latest : a.seen u = a.stores) : (a.join t u).seen t = a.stores := by
  rw [join, seen_observe_self, latest]
  exact Nat.max_eq_right (a.seen_le t)

end Atomic

end Cpp20Showcase.Lib
