import Mathlib.Logic.Function.Basic
import Mathlib.Order.Lattice

/-! Plain objects under happens-before. A clock counts, for each thread, the accesses that
happened before; a release hands a clock on and an acquire takes it in. -/

namespace Cpp20Showcase.Lib

abbrev Clock (ι : Type*) := ι → Nat

/-- An access by its thread and its number among the accesses of that thread. -/
structure Access (ι : Type*) where
  thread : ι
  number : Nat

/-- An object that is not atomic. -/
structure Plain (ι V : Type*) where
  value : V
  writes : List (Access ι)
  reads : List (Access ι)

variable {ι V : Type*} {a : Access ι} {c d : Clock ι} {clocks : ι → Clock ι} {p : Plain ι V} {t u w : ι} {v : V}

def Access.Before (a : Access ι) (c : Clock ι) : Prop := a.number ≤ c a.thread

theorem Access.Before.mono (before : a.Before c) (le : c a.thread ≤ d a.thread) : a.Before d :=
  Nat.le_trans before le

namespace Plain

def make (v : V) : Plain ι V where
  value := v
  writes := []
  reads := []

/-- A read that races with no write. -/
def Readable (p : Plain ι V) (c : Clock ι) : Prop := ∀ a ∈ p.writes, a.Before c

/-- A write that races with no access. -/
def Writable (p : Plain ι V) (c : Clock ι) : Prop := ∀ a ∈ p.writes ++ p.reads, a.Before c

def write (p : Plain ι V) (clocks : ι → Clock ι) (t : ι) (v : V) : Plain ι V where
  value := v
  writes := ⟨t, clocks t t + 1⟩ :: p.writes
  reads := p.reads

def read (p : Plain ι V) (clocks : ι → Clock ι) (t : ι) : Plain ι V where
  value := p.value
  writes := p.writes
  reads := ⟨t, clocks t t + 1⟩ :: p.reads

end Plain

variable [DecidableEq ι]

def tick (clocks : ι → Clock ι) (t : ι) : ι → Clock ι :=
  Function.update clocks t (Function.update (clocks t) t (clocks t t + 1))

/-- The clocks after `t` has read what was released with `c`. -/
def acquire (clocks : ι → Clock ι) (t : ι) (c : Clock ι) : ι → Clock ι :=
  Function.update clocks t (clocks t ⊔ c)

@[simp] theorem tick_self : tick clocks t t t = clocks t t + 1 := by simp [tick]

theorem tick_of_ne (other : u ≠ t) : tick clocks t u = clocks u := by simp [tick, other]

theorem tick_other (other : w ≠ t) : tick clocks t u w = clocks u w := by
  by_cases own : u = t
  · subst own
    simp [tick, other]
  · rw [tick_of_ne own]

theorem le_tick : clocks u w ≤ tick clocks t u w := by
  by_cases own : w = t
  · subst own
    by_cases same : u = w
    · subst same
      rw [tick_self]
      exact Nat.le_succ _
    · rw [tick_of_ne same]
  · rw [tick_other own]

theorem acquire_of_ne (other : u ≠ t) : acquire clocks t c u = clocks u := by simp [acquire, other]

theorem acquire_self : acquire clocks t c t w = max (clocks t w) (c w) := by simp [acquire]

theorem le_acquire : clocks u w ≤ acquire clocks t c u w := by
  by_cases own : u = t
  · subst own
    rw [acquire_self]
    exact Nat.le_max_left _ _
  · rw [acquire_of_ne own]

theorem released_le_acquire : c w ≤ acquire clocks t c t w := by
  rw [acquire_self]
  exact Nat.le_max_right _ _

namespace Plain

omit [DecidableEq ι] in
theorem Writable.readable (writable : p.Writable c) : p.Readable c :=
  fun a member => writable a (List.mem_append_left _ member)

omit [DecidableEq ι] in
theorem Readable.mono (readable : p.Readable c) (le : ∀ w, c w ≤ d w) : p.Readable d :=
  fun a member => (readable a member).mono (le _)

omit [DecidableEq ι] in
theorem Writable.mono (writable : p.Writable c) (le : ∀ w, c w ≤ d w) : p.Writable d :=
  fun a member => (writable a member).mono (le _)

theorem Writable.write (writable : p.Writable (clocks t)) : (p.write clocks t v).Writable (tick clocks t t) := by
  intro a member
  obtain rfl | earlier := List.mem_cons.mp member
  · exact tick_self.ge
  · exact (writable a earlier).mono le_tick

theorem Writable.read (writable : p.Writable (clocks t)) : (p.read clocks t).Writable (tick clocks t t) := by
  intro a member
  rw [Plain.read, List.mem_append, List.mem_cons] at member
  obtain earlier | rfl | earlier := member
  · exact (writable a (List.mem_append_left _ earlier)).mono le_tick
  · exact tick_self.ge
  · exact (writable a (List.mem_append_right _ earlier)).mono le_tick

end Plain

def Bounded (clocks : ι → Clock ι) (c : Clock ι) : Prop := ∀ w, c w ≤ clocks w w

omit [DecidableEq ι] in
theorem Bounded.mono {clocks' : ι → Clock ι} (bounded : Bounded clocks c)
    (le : ∀ w, clocks w w ≤ clocks' w w) : Bounded clocks' c :=
  fun w => (bounded w).trans (le w)

theorem Bounded.acquire_own (bounded : Bounded clocks c) : acquire clocks t c u u = clocks u u := by
  by_cases own : u = t
  · subst own
    rw [acquire_self]
    exact Nat.max_eq_left (bounded u)
  · rw [acquire_of_ne own]

theorem Bounded.acquire (bounded : Bounded clocks c) (known : ∀ u, Bounded clocks (clocks u)) :
    ∀ u, Bounded (acquire clocks t c) (Lib.acquire clocks t c u) := by
  intro u w
  rw [bounded.acquire_own]
  by_cases own : u = t
  · subst own
    rw [acquire_self]
    exact Nat.max_le.mpr ⟨known u w, bounded w⟩
  · rw [acquire_of_ne own]
    exact known u w

theorem Bounded.tick (known : ∀ u, Bounded clocks (clocks u)) :
    ∀ u, Bounded (tick clocks t) (Lib.tick clocks t u) := by
  intro u w
  by_cases own : w = t
  · subst own
    by_cases same : u = w
    · rw [same]
    · rw [tick_of_ne same]
      exact (known u w).trans le_tick
  · rw [tick_other own, tick_other own]
    exact known u w

/-- The clocks that `t` released with its stores to one atomic object, the newest first:
before store number `n` it has made at least `n` accesses. -/
structure Releases (clocks : ι → Clock ι) (t : ι) (stores : Nat) (released : List (Clock ι)) : Prop where
  aligned : released.length = stores + 1
  bounded : ∀ c ∈ released, Bounded clocks c
  due : ∀ lag c, released[lag]? = some c → stores ≤ c t + lag

omit [DecidableEq ι]

variable {stores lag : Nat} {released : List (Clock ι)} {clocks' : ι → Clock ι}

theorem releases_initial : Releases clocks t 0 [fun _ => 0] where
  aligned := rfl
  bounded := by
    intro c member w
    rw [List.mem_singleton.mp member]
    exact Nat.zero_le _
  due := fun _ _ _ => Nat.zero_le _

theorem Releases.mono (releases : Releases clocks t stores released) (le : ∀ w, clocks w w ≤ clocks' w w) :
    Releases clocks' t stores released where
  aligned := releases.aligned
  bounded := fun c member => (releases.bounded c member).mono le
  due := releases.due

theorem Releases.store (releases : Releases clocks t stores released) (known : Bounded clocks (clocks t))
    (due : stores + 1 ≤ clocks t t) : Releases clocks t (stores + 1) (clocks t :: released) where
  aligned := congrArg (· + 1) releases.aligned
  bounded := by
    intro c member
    obtain rfl | earlier := List.mem_cons.mp member
    · exact known
    · exact releases.bounded c earlier
  due := by
    intro lag c found
    cases lag with
    | zero =>
      cases found
      exact due
    | succ lag =>
      have earlier := releases.due lag c found
      omega

theorem Releases.load (releases : Releases clocks t stores released) (present : lag ≤ stores) :
    ∃ c, released[lag]? = some c ∧ Bounded clocks c ∧ stores ≤ c t + lag := by
  have inside : lag < released.length := by
    rw [releases.aligned]
    omega
  have found := List.getElem?_eq_getElem inside
  exact ⟨_, found, releases.bounded _ (List.getElem_mem inside), releases.due lag _ found⟩

end Cpp20Showcase.Lib
