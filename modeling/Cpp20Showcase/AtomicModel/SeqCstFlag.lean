import Cpp20Showcase.Lib.Exclusion
import Cpp20Showcase.Lib.TransitionSystem

/-! `SeqCstFlag` from `07_atomic_model/atomic_model.h`, driven by two threads as in its
test: retry `try_enter`, count the threads inside and record the maximum, `exit`. Every
step is one atomic access; all of them fall into a single order. -/

namespace Cpp20Showcase.AtomicModel.SeqCstFlag
open Lib Lib.TransitionSystem

inductive Thread where
  | t0
  | t1
  deriving DecidableEq

def Thread.other : Thread → Thread
  | .t0 => .t1
  | .t1 => .t0

inductive Pc where
  | storeTrue
  | loadOther
  | storeFalse
  | fetchAdd
  | loadMax (c : Int)
  | exchange (c curMax : Int)
  | fetchSub
  | exit
  deriving DecidableEq

/-- From a `try_enter` that returned true to the store in `exit`. -/
def Inside : Pc → Prop
  | .storeTrue | .loadOther | .storeFalse => False
  | .fetchAdd | .loadMax _ | .exchange _ _ | .fetchSub | .exit => True

/-- `observed` lists what the calls of `fetch_add` returned, the latest first. -/
structure State where
  wantsEnter : Thread → Bool
  concurrentCount : Int
  maxConcurrent : Int
  observed : List Int
  pc : Thread → Pc

/-- The thread that makes its next access; `spurious` matters to
`compare_exchange_weak` alone. -/
structure Action where
  thread : Thread
  spurious : Bool

def initial : State where
  wantsEnter := fun _ => false
  concurrentCount := 0
  maxConcurrent := 0
  observed := []
  pc := fun _ => .storeTrue

variable {s s' : State} {t u : Thread} {q : Pc}

def State.at (s : State) (t : Thread) (q : Pc) : State := { s with pc := Function.update s.pc t q }

def State.flag (s : State) (t : Thread) (v : Bool) : State :=
  { s with wantsEnter := Function.update s.wantsEnter t v }

/-- `while (c > cur_max && ...)`, up to the exchange. -/
def whileMax (c curMax : Int) : Pc :=
  if curMax < c then .exchange c curMax else .fetchSub

/-- A failed exchange leaves the value it found in `cur_max`. -/
def compareExchangeWeak (s : State) (t : Thread) (c curMax : Int) (spurious : Bool) : State :=
  if s.maxConcurrent = curMax ∧ spurious = false then
    { s with maxConcurrent := c }.at t .fetchSub
  else s.at t (whileMax c s.maxConcurrent)

/-- `try_enter` is the first three accesses; a thread that is refused starts over. -/
def access (s : State) (t : Thread) (spurious : Bool) : State :=
  match s.pc t with
  | .storeTrue => (s.flag t true).at t .loadOther
  | .loadOther => s.at t (if s.wantsEnter t.other then .storeFalse else .fetchAdd)
  | .storeFalse => (s.flag t false).at t .storeTrue
  | .fetchAdd =>
      { s with
        concurrentCount := s.concurrentCount + 1
        observed := s.concurrentCount :: s.observed }.at t (.loadMax (s.concurrentCount + 1))
  | .loadMax c => s.at t (whileMax c s.maxConcurrent)
  | .exchange c curMax => compareExchangeWeak s t c curMax spurious
  | .fetchSub => { s with concurrentCount := s.concurrentCount - 1 }.at t .exit
  | .exit => (s.flag t false).at t .storeTrue

def step (s : State) (a : Action) : Option State := some (access s a.thread a.spurious)

def weight : Pc → Int
  | .loadMax _ | .exchange _ _ | .fetchSub => 1
  | .storeTrue | .loadOther | .storeFalse | .fetchAdd | .exit => 0

def Alone : Pc → Prop
  | .loadMax c | .exchange c _ => c = 1
  | .storeTrue | .loadOther | .storeFalse | .fetchAdd | .fetchSub | .exit => True

structure Inv (s : State) : Prop where
  raised : ∀ t, s.wantsEnter t = true ↔ s.pc t ≠ .storeTrue
  owned : ∃ owner, Owned Inside s.pc owner
  counted : ∀ t, s.concurrentCount = weight (s.pc t) + weight (s.pc t.other)
  alone : ∀ t, Alone (s.pc t)
  observed : ∀ v ∈ s.observed, v = 0
  max : s.maxConcurrent ≤ 1

theorem inv_initial : Inv initial where
  raised := fun _ => by simp [initial]
  owned := ⟨none, Owned.start fun _ => id⟩
  counted := fun _ => rfl
  alone := fun _ => trivial
  observed := fun _ impossible => by cases impossible
  max := by decide

theorem other_ne : t.other ≠ t := by cases t <;> decide

theorem eq_or_other (t u : Thread) : u = t ∨ u = t.other := by cases t <;> cases u <;> decide

theorem weight_outside {q : Pc} (out : ¬Inside q) : weight q = 0 := by
  cases q with
  | storeTrue | loadOther | storeFalse => rfl
  | fetchAdd | loadMax | exchange | fetchSub | exit => exact absurd trivial out

theorem Inv.alone_at (holds : Inv s) (own : Alone q) : ∀ u, Alone (Function.update s.pc t q u) := by
  intro u
  by_cases same : u = t
  · subst same
    rwa [Function.update_self]
  · rw [Function.update_of_ne same]
    exact holds.alone u

theorem Inv.raised_at {v : Bool} (holds : Inv s) (own : v = true ↔ q ≠ .storeTrue) :
    ∀ u, Function.update s.wantsEnter t v u = true ↔ Function.update s.pc t q u ≠ .storeTrue := by
  intro u
  by_cases same : u = t
  · subst same
    simpa only [Function.update_self] using own
  · simpa only [Function.update_of_ne same] using holds.raised u

theorem Inv.keeps_raised (holds : Inv s) (up : s.pc t ≠ .storeTrue) (stays : q ≠ .storeTrue) :
    ∀ u, s.wantsEnter u = true ↔ Function.update s.pc t q u ≠ .storeTrue := by
  have own : s.wantsEnter t = true ↔ q ≠ .storeTrue := iff_of_true ((holds.raised t).mpr up) stays
  have all := holds.raised_at (t := t) own
  rwa [Function.update_eq_self] at all

theorem Inv.counted_at {n : Int} (holds : Inv s)
    (changed : n = s.concurrentCount + weight q - weight (s.pc t)) :
    ∀ u, n = weight (Function.update s.pc t q u) + weight (Function.update s.pc t q u.other) := by
  intro u
  have before := holds.counted t
  cases t <;> cases u <;> simp [Thread.other] at before ⊢ <;> omega

theorem Inv.counted_same (holds : Inv s) (same : weight q = weight (s.pc t)) :
    ∀ u, s.concurrentCount =
      weight (Function.update s.pc t q u) + weight (Function.update s.pc t q u.other) :=
  holds.counted_at (by rw [same, Int.add_sub_cancel])

theorem Inv.stay (holds : Inv s) (up : s.pc t ≠ .storeTrue) (stays : q ≠ .storeTrue)
    (inside : Inside q ↔ Inside (s.pc t)) (same : weight q = weight (s.pc t)) (own : Alone q) :
    Inv (s.at t q) := by
  obtain ⟨owner, owned⟩ := holds.owned
  constructor
  · exact holds.keeps_raised up stays
  · exact ⟨owner, owned.stay inside⟩
  · exact holds.counted_same same
  · exact holds.alone_at own
  · exact holds.observed
  · exact holds.max

theorem whileMax_facts (c curMax : Int) (one : c = 1) :
    whileMax c curMax ≠ .storeTrue ∧ Inside (whileMax c curMax) ∧ weight (whileMax c curMax) = 1 ∧
      Alone (whileMax c curMax) := by
  unfold whileMax
  split
  · exact ⟨by simp, trivial, rfl, one⟩
  · exact ⟨by decide, trivial, rfl, trivial⟩

theorem Inv.loop {c : Int} (holds : Inv s) (here : Inside (s.pc t)) (one : c = 1)
    (counts : weight (s.pc t) = 1) : Inv (s.at t (whileMax c s.maxConcurrent)) := by
  obtain ⟨up, inside, same, own⟩ := whileMax_facts c s.maxConcurrent one
  have raised : s.pc t ≠ .storeTrue := by
    intro out
    rw [out] at here
    exact here
  exact holds.stay raised up (iff_of_true inside here) (same.trans counts.symm) own

theorem Inv.enter (holds : Inv s) (pc : s.pc t = .loadOther) (down : s.wantsEnter t.other = false) :
    Inv (s.at t .fetchAdd) := by
  have away : s.pc t.other = .storeTrue := by
    by_contra up
    rw [(holds.raised t.other).mpr up] at down
    cases down
  obtain ⟨owner, owned⟩ := holds.owned
  obtain rfl : owner = none := by
    cases owner with
    | none => rfl
    | some u =>
      have inside : Inside (s.pc u) := (owned u).mpr rfl
      rcases eq_or_other t u with rfl | rfl
      · rw [pc] at inside
        exact inside.elim
      · rw [away] at inside
        exact inside.elim
  constructor
  · exact holds.keeps_raised (by rw [pc]; decide) (by decide)
  · exact ⟨some t, owned.enter trivial⟩
  · exact holds.counted_same (by rw [pc]; rfl)
  · exact holds.alone_at trivial
  · exact holds.observed
  · exact holds.max

theorem Inv.count_zero (holds : Inv s) (pc : s.pc t = .fetchAdd) : s.concurrentCount = 0 := by
  obtain ⟨owner, owned⟩ := holds.owned
  have out : ¬Inside (s.pc t.other) := fun inside =>
    other_ne (owned.exclusive inside (by rw [pc]; trivial))
  rw [holds.counted t, pc, weight_outside out]
  rfl

theorem Inv.fetchAdd (holds : Inv s) (pc : s.pc t = .fetchAdd) :
    Inv ({ s with
      concurrentCount := s.concurrentCount + 1
      observed := s.concurrentCount :: s.observed }.at t (.loadMax (s.concurrentCount + 1))) := by
  have zero := holds.count_zero pc
  obtain ⟨owner, owned⟩ := holds.owned
  constructor
  · exact holds.keeps_raised (by rw [pc]; decide) (by simp)
  · exact ⟨owner, owned.stay (by rw [pc]; exact Iff.rfl)⟩
  · exact holds.counted_at (n := s.concurrentCount + 1) (by rw [pc, weight, weight, Int.sub_zero])
  · exact holds.alone_at (by rw [zero]; rfl)
  · intro v member
    rcases List.mem_cons.mp member with rfl | earlier
    · exact zero
    · exact holds.observed v earlier
  · exact holds.max

theorem Inv.compareExchangeWeak {c curMax : Int} (holds : Inv s) (pc : s.pc t = .exchange c curMax)
    (spurious : Bool) : Inv (compareExchangeWeak s t c curMax spurious) := by
  have one : c = 1 := by
    have own := holds.alone t
    rwa [pc] at own
  unfold SeqCstFlag.compareExchangeWeak
  split
  · have recorded : Inv { s with maxConcurrent := c } :=
      { holds with max := Int.le_of_eq one }
    exact recorded.stay (by rw [pc]; simp) (by decide) (by rw [pc]; exact Iff.rfl) (by rw [pc]; rfl) trivial
  · exact holds.loop (by rw [pc]; trivial) one (by rw [pc]; rfl)

theorem Inv.lower (holds : Inv s) (same : weight (s.pc t) = 0) :
    Inv ((s.flag t false).at t .storeTrue) := by
  obtain ⟨owner, owned⟩ := holds.owned
  constructor
  · exact holds.raised_at (by simp)
  · by_cases here : Inside (s.pc t)
    · exact ⟨none, owned.leave here id⟩
    · exact ⟨owner, owned.stay (iff_of_false id here)⟩
  · exact holds.counted_same (by rw [same]; rfl)
  · exact holds.alone_at trivial
  · exact holds.observed
  · exact holds.max

theorem inv_access (holds : Inv s) (t : Thread) (spurious : Bool) : Inv (access s t spurious) := by
  obtain ⟨owner, owned⟩ := holds.owned
  cases pc : s.pc t with
  | storeTrue =>
    simp only [access, pc]
    constructor
    · exact holds.raised_at (by simp)
    · exact ⟨owner, owned.stay (by rw [pc]; exact Iff.rfl)⟩
    · exact holds.counted_same (by rw [pc]; rfl)
    · exact holds.alone_at trivial
    · exact holds.observed
    · exact holds.max
  | loadOther =>
    simp only [access, pc]
    cases other : s.wantsEnter t.other with
    | false => exact holds.enter pc other
    | true =>
      exact holds.stay (by rw [pc]; decide) (by decide) (by rw [pc]; exact Iff.rfl) (by rw [pc]; rfl) trivial
  | storeFalse =>
    simp only [access, pc]
    exact holds.lower (by rw [pc]; rfl)
  | fetchAdd =>
    simp only [access, pc]
    exact holds.fetchAdd pc
  | loadMax c =>
    have one : c = 1 := by
      have own := holds.alone t
      rwa [pc] at own
    simp only [access, pc]
    exact holds.loop (by rw [pc]; trivial) one (by rw [pc]; rfl)
  | exchange c curMax =>
    simp only [access, pc]
    exact holds.compareExchangeWeak pc spurious
  | fetchSub =>
    simp only [access, pc]
    constructor
    · exact holds.keeps_raised (by rw [pc]; decide) (by decide)
    · exact ⟨owner, owned.stay (by rw [pc]; exact Iff.rfl)⟩
    · exact holds.counted_at (n := s.concurrentCount - 1) (by rw [pc, weight, weight, Int.add_zero])
    · exact holds.alone_at trivial
    · exact holds.observed
    · exact holds.max
  | exit =>
    simp only [access, pc]
    exact holds.lower (by rw [pc]; rfl)

theorem inv_preserved : Preserved step Inv := by
  intro s a t holds moved
  cases moved
  exact inv_access holds a.thread a.spurious

/-- However often the two threads retry and enter, they are never inside together, every
`fetch_add` in the section finds zero, and the recorded maximum never exceeds one. -/
theorem no_dual_entry (s : State) (reached : Reachable step initial s) :
    ¬(Inside (s.pc .t0) ∧ Inside (s.pc .t1)) ∧ (∀ v ∈ s.observed, v = 0) ∧ s.maxConcurrent ≤ 1 := by
  have holds := reached.invariant inv_preserved inv_initial
  obtain ⟨owner, owned⟩ := holds.owned
  refine ⟨fun both => ?_, holds.observed, holds.max⟩
  exact absurd (owned.exclusive both.1 both.2) (by decide)

/-- Thread `t1` is refused while `t0` is inside, where an exchange fails spuriously. -/
theorem no_dual_entry_refused :
    ∃ s : State,
      run step initial [⟨.t0, false⟩, ⟨.t0, false⟩, ⟨.t1, false⟩, ⟨.t0, false⟩, ⟨.t1, false⟩, ⟨.t0, false⟩,
        ⟨.t0, true⟩, ⟨.t1, false⟩, ⟨.t0, false⟩, ⟨.t1, false⟩] = some s ∧
      s.pc .t0 = .fetchSub ∧ s.pc .t1 = .loadOther ∧ s.observed = [0] ∧ s.maxConcurrent = 1 ∧
      ¬(Inside (s.pc .t0) ∧ Inside (s.pc .t1)) ∧ (∀ v ∈ s.observed, v = 0) ∧ s.maxConcurrent ≤ 1 := by
  have runs : run step initial [⟨.t0, false⟩, ⟨.t0, false⟩, ⟨.t1, false⟩, ⟨.t0, false⟩, ⟨.t1, false⟩,
      ⟨.t0, false⟩, ⟨.t0, true⟩, ⟨.t1, false⟩, ⟨.t0, false⟩, ⟨.t1, false⟩] = some _ := rfl
  exact ⟨_, runs, rfl, rfl, rfl, rfl, no_dual_entry _ ⟨_, runs⟩⟩

end Cpp20Showcase.AtomicModel.SeqCstFlag
