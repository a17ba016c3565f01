import Mathlib.Algebra.Ring.Nat
import Cpp20Showcase.Lib.Exclusion
import Cpp20Showcase.Lib.TransitionSystem

/-! An iteration of `BM_MutexQueue` from `benchmarks/bench_queue.cpp`: one thread pushes
`0 .. items - 1` under a mutex, the other takes what it finds under the same mutex until it has
counted `items` values. -/

namespace Cpp20Showcase.Benchmarks.MutexQueue

open Lib Lib.TransitionSystem

inductive Thread where
  | producer
  | consumer
  deriving DecidableEq

/-- What a thread does next. The number is its loop variable, `i` or `count`. -/
inductive Pc where
  | lock (n : Nat)
  | push (i : Nat)
  | look (count : Nat)
  | front (count : Nat)
  | pop (count : Nat)
  | unlock (n : Nat)
  | join
  | returned
  deriving DecidableEq

def InSection : Pc → Prop
  | .push _ | .look _ | .front _ | .pop _ | .unlock _ => True
  | .lock _ | .join | .returned => False

def Accesses : Pc → Prop
  | .push _ | .look _ | .front _ | .pop _ => True
  | .lock _ | .unlock _ | .join | .returned => False

/-- `fronts` lists what `q.front()` has returned. -/
structure State where
  q : List Int
  mtx : Option Thread
  fronts : List Int
  pc : Thread → Pc

/-- `static_cast<int>(i)`. -/
def toInt (i : Nat) : Int := (i : Int).bmod (2 ^ 32)

/-- The test of the loop. After it the consumer joins the producer, in the destructor of `producer`. -/
def test (items : Nat) (t : Thread) (n : Nat) : Pc :=
  if n < items then .lock n
  else match t with
    | .producer => .returned
    | .consumer => .join

def initial (items : Nat) : State where
  q := []
  mtx := none
  fronts := []
  pc := fun t => test items t 0

def State.at (s : State) (t : Thread) (p : Pc) : State := { s with pc := Function.update s.pc t p }

def entry : Thread → Nat → Pc
  | .producer, i => .push i
  | .consumer, count => .look count

variable {items : Nat} {s s' : State} {t u : Thread} {p : Pc} {n : Nat} {v : Int}

/-- The next access of a thread; `none` if it waits, has returned, or has no behaviour. -/
def step (items : Nat) (s : State) (t : Thread) : Option State :=
  match s.pc t with
  | .lock n => if s.mtx = none then some ({ s with mtx := some t }.at t (entry t n)) else none
  | .push i => some ({ s with q := s.q ++ [toInt i] }.at t (.unlock (i + 1)))
  | .look count => some (s.at t (if s.q.isEmpty then .unlock count else .front count))
  | .front count => s.q.head?.map fun v => { s with fronts := s.fronts ++ [v] }.at t (.pop count)
  | .pop count => s.q.tail?.map fun rest => { s with q := rest }.at t (.unlock (count + 1))
  | .unlock n => some ({ s with mtx := none }.at t (test items t n))
  | .join => if s.pc .producer = .returned then some (s.at t .returned) else none
  | .returned => none

def moved (items : Nat) : Pc → Nat
  | .lock n | .push n | .look n | .front n | .pop n | .unlock n => n
  | .join | .returned => items

def Reaches (items : Nat) : Thread → Pc → Prop
  | .producer, .lock i | .producer, .push i => i < items
  | .consumer, .lock n | .consumer, .look n | .consumer, .front n | .consumer, .pop n => n < items
  | _, .unlock n => n ≤ items
  | .consumer, .join | _, .returned => True
  | .producer, _ | .consumer, .push _ => False

def viewed : Pc → Nat
  | .pop _ => 1
  | _ => 0

structure Inv (items : Nat) (s : State) : Prop where
  owned : Owned InSection s.pc s.mtx
  reaches : ∀ t, Reaches items t (s.pc t)
  ahead : moved items (s.pc .consumer) ≤ moved items (s.pc .producer)
  queue : s.q = ((List.range (moved items (s.pc .producer))).map toInt).drop (moved items (s.pc .consumer))
  fronts : s.fronts = (List.range (moved items (s.pc .consumer) + viewed (s.pc .consumer))).map toInt
  found : ∀ n, s.pc .consumer = .front n ∨ s.pc .consumer = .pop n → s.q ≠ []
  joined : s.pc .consumer = .returned → s.pc .producer = .returned

theorem moved_test (short : n ≤ items) : moved items (test items t n) = n := by
  unfold test
  split
  next => rfl
  next full =>
    have same : n = items := by omega
    cases t <;> exact same.symm

theorem reaches_test (items : Nat) (t : Thread) (n : Nat) : Reaches items t (test items t n) := by
  unfold test
  split
  next more => cases t <;> exact more
  next => cases t <;> trivial

theorem test_cases (items : Nat) (t : Thread) (n : Nat) :
    test items t n = .lock n ∨ (t = .producer ∧ test items t n = .returned) ∨
      (t = .consumer ∧ test items t n = .join) := by
  unfold test
  split
  · exact .inl rfl
  · cases t
    · exact .inr (.inl ⟨rfl, rfl⟩)
    · exact .inr (.inr ⟨rfl, rfl⟩)

theorem outside_test (items : Nat) (t : Thread) (n : Nat) : ¬InSection (test items t n) := by
  rcases test_cases items t n with next | ⟨-, next⟩ | ⟨-, next⟩ <;> rw [next] <;> exact id

theorem viewed_test (items : Nat) (t : Thread) (n : Nat) : viewed (test items t n) = 0 := by
  rcases test_cases items t n with next | ⟨-, next⟩ | ⟨-, next⟩ <;> rw [next] <;> rfl

theorem inv_initial : Inv items (initial items) where
  owned := Owned.start fun t => outside_test items t 0
  reaches := fun t => reaches_test items t 0
  ahead := by
    simp only [initial, moved_test (Nat.zero_le items)]
    exact Nat.le_refl 0
  queue := by
    simp only [initial, moved_test (Nat.zero_le items)]
    rfl
  fronts := by
    simp only [initial, moved_test (Nat.zero_le items), viewed_test]
    rfl
  found := by
    intro n there
    have outside := outside_test items .consumer 0
    simp only [initial] at there
    rcases there with there | there <;> exact absurd (by rw [there]; trivial) outside
  joined := by
    intro there
    rcases test_cases items .consumer 0 with next | ⟨next, -⟩ | ⟨-, next⟩
    · cases there.symm.trans next
    · cases next
    · cases there.symm.trans next

theorem Inv.quiet {mtx : Option Thread} (holds : Inv items s) (alive : s.pc t ≠ .returned)
    (owned : Owned InSection (Function.update s.pc t p) mtx) (reaches : Reaches items t p)
    (same : moved items p = moved items (s.pc t)) (view : viewed p = viewed (s.pc t))
    (found : ∀ n, t = .consumer → p = .front n ∨ p = .pop n → s.q ≠ [])
    (joined : t = .consumer → p = .returned → s.pc .producer = .returned) :
    Inv items ({ s with mtx := mtx }.at t p) := by
  have movedSame (u : Thread) : moved items (Function.update s.pc t p u) = moved items (s.pc u) := by
    by_cases own : u = t
    · subst own
      rw [Function.update_self, same]
    · rw [Function.update_of_ne own]
  have viewedSame (u : Thread) : viewed (Function.update s.pc t p u) = viewed (s.pc u) := by
    by_cases own : u = t
    · subst own
      rw [Function.update_self, view]
    · rw [Function.update_of_ne own]
  constructor
  · exact owned
  · intro u
    by_cases own : u = t
    · subst own
      simpa [State.at] using reaches
    · simpa [State.at, own] using holds.reaches u
  · simpa only [State.at, movedSame] using holds.ahead
  · simpa only [State.at, movedSame] using holds.queue
  · simpa only [State.at, movedSame, viewedSame] using holds.fronts
  · intro n there
    by_cases own : Thread.consumer = t
    · subst own
      exact found n rfl (by simpa [State.at] using there)
    · exact holds.found n (by simpa [State.at, own] using there)
  · intro there
    cases t with
    | producer => exact absurd (holds.joined (by simpa [State.at] using there)) alive
    | consumer => simpa [State.at] using joined rfl (by simpa [State.at] using there)

theorem Inv.quietly {mtx : Option Thread} (holds : Inv items s) (alive : s.pc t ≠ .returned)
    (owned : Owned InSection (Function.update s.pc t p) mtx) (reaches : Reaches items t p)
    (same : moved items p = moved items (s.pc t)) (view : viewed p = viewed (s.pc t))
    (unaware : ∀ n, p ≠ .front n ∧ p ≠ .pop n) (running : p ≠ .returned) :
    Inv items ({ s with mtx := mtx }.at t p) := by
  refine holds.quiet alive owned reaches same view ?_ ?_
  · intro n _ there
    exact (there.elim (unaware n).1 (unaware n).2).elim
  · intro _ ended
    exact absurd ended running

theorem Inv.push {i : Nat} (holds : Inv items s) (pc : s.pc .producer = .push i) :
    Inv items ({ s with q := s.q ++ [toInt i] }.at .producer (.unlock (i + 1))) := by
  have less : i < items := by
    have reaches := holds.reaches .producer
    rwa [pc] at reaches
  have outside : ¬InSection (s.pc .consumer) := by
    intro inside
    cases holds.owned.exclusive inside (by rw [pc]; trivial)
  have here : moved items (s.pc .producer) = i := by
    rw [pc]
    rfl
  have ahead := here ▸ holds.ahead
  have queue := here ▸ holds.queue
  constructor
  · exact holds.owned.stay (by rw [pc]; exact Iff.rfl)
  · intro u
    cases u with
    | producer => exact (less : Reaches items .producer (.unlock (i + 1)))
    | consumer => exact holds.reaches .consumer
  · exact Nat.le_succ_of_le ahead
  · change s.q ++ [toInt i] = ((List.range (i + 1)).map toInt).drop (moved items (s.pc .consumer))
    rw [List.range_succ, List.map_append, List.drop_append_of_le_length (by simpa using ahead), ← queue]
    rfl
  · exact holds.fronts
  · intro n there
    have inside : InSection (s.pc .consumer) := by
      rcases there with there | there
      · exact (show s.pc .consumer = .front n from there) ▸ trivial
      · exact (show s.pc .consumer = .pop n from there) ▸ trivial
    exact absurd inside outside
  · intro there
    have ended := holds.joined there
    cases pc.symm.trans ended

theorem Inv.head (holds : Inv items s) (first : s.q.head? = some v) :
    moved items (s.pc .consumer) < moved items (s.pc .producer) ∧ v = toInt (moved items (s.pc .consumer)) := by
  rw [holds.queue, List.head?_drop, List.getElem?_map, Option.map_eq_some_iff] at first
  obtain ⟨n, there, rfl⟩ := first
  obtain ⟨inside, rfl⟩ := List.getElem?_eq_some_iff.mp there
  rw [List.length_range] at inside
  exact ⟨inside, by rw [List.getElem_range]⟩

theorem Inv.front {count : Nat} (holds : Inv items s) (pc : s.pc .consumer = .front count)
    (first : s.q.head? = some v) :
    Inv items ({ s with fronts := s.fronts ++ [v] }.at .consumer (.pop count)) := by
  have less : count < items := by
    have reaches := holds.reaches .consumer
    rwa [pc] at reaches
  have here : moved items (s.pc .consumer) = count := by
    rw [pc]
    rfl
  have value : v = toInt count := here ▸ (holds.head first).2
  have fronts : s.fronts = (List.range count).map toInt := by
    have fronts := holds.fronts
    rwa [here, pc] at fronts
  constructor
  · exact holds.owned.stay (by rw [pc]; exact Iff.rfl)
  · intro u
    cases u with
    | producer => exact holds.reaches .producer
    | consumer => exact (less : Reaches items .consumer (.pop count))
  · exact here ▸ holds.ahead
  · exact here ▸ holds.queue
  · change s.fronts ++ [v] = (List.range (count + 1)).map toInt
    rw [List.range_succ, List.map_append, value, fronts]
    rfl
  · intro _ _ empty
    rw [show s.q = [] from empty] at first
    cases first
  · intro there
    cases there

theorem Inv.pop {count : Nat} {rest : List Int} (holds : Inv items s) (pc : s.pc .consumer = .pop count)
    (others : s.q.tail? = some rest) :
    Inv items ({ s with q := rest }.at .consumer (.unlock (count + 1))) := by
  have less : count < items := by
    have reaches := holds.reaches .consumer
    rwa [pc] at reaches
  obtain ⟨v, split⟩ : ∃ v, s.q = v :: rest := by
    cases same : s.q with
    | nil => rw [same] at others; cases others
    | cons v l => rw [same] at others; cases others; exact ⟨v, rfl⟩
  have here : moved items (s.pc .consumer) = count := by
    rw [pc]
    rfl
  have ahead := here ▸ (holds.head (v := v) (by rw [split]; rfl)).1
  have queue := here ▸ holds.queue
  have fronts := holds.fronts
  rw [here, pc] at fronts
  constructor
  · exact holds.owned.stay (by rw [pc]; exact Iff.rfl)
  · intro u
    cases u with
    | producer => exact holds.reaches .producer
    | consumer => exact (less : Reaches items .consumer (.unlock (count + 1)))
  · exact ahead
  · have tail := congrArg List.tail queue
    rwa [split, List.tail_cons, List.tail_drop] at tail
  · exact fronts
  · intro n there
    rcases there with there | there <;> cases there
  · intro there
    cases there

theorem inv_step (holds : Inv items s) (moves : step items s t = some s') : Inv items s' := by
  have reaches := holds.reaches t
  have alive : s.pc t ≠ .returned := by
    intro ended
    simp [step, ended] at moves
  cases pc : s.pc t with
  | lock n =>
    simp only [step, pc] at moves
    split at moves
    next free =>
      cases moves
      rw [pc] at reaches
      have owned : Owned InSection s.pc none := free ▸ holds.owned
      cases t with
      | producer =>
        exact holds.quietly alive (owned.enter trivial) reaches (by rw [pc]; rfl) (by rw [pc]; rfl)
          (by simp [entry]) (by simp [entry])
      | consumer =>
        exact holds.quietly alive (owned.enter trivial) reaches (by rw [pc]; rfl) (by rw [pc]; rfl)
          (by simp [entry]) (by simp [entry])
    next => cases moves
  | push i =>
    simp only [step, pc] at moves
    cases moves
    cases t with
    | producer => exact holds.push pc
    | consumer => exact (pc ▸ reaches : Reaches items .consumer (.push i)).elim
  | look count =>
    simp only [step, pc] at moves
    cases moves
    rw [pc] at reaches
    cases t with
    | producer => exact reaches.elim
    | consumer =>
      by_cases empty : s.q.isEmpty = true
      · rw [if_pos empty]
        exact holds.quietly alive (holds.owned.stay (by rw [pc]; exact Iff.rfl)) (Nat.le_of_lt reaches)
          (by rw [pc]; rfl) (by rw [pc]; rfl) (by simp) (by simp)
      · rw [if_neg empty]
        refine holds.quiet alive (holds.owned.stay (by rw [pc]; exact Iff.rfl)) reaches (by rw [pc]; rfl)
          (by rw [pc]; rfl) ?_ ?_
        · rintro _ - - none_there
          exact empty (List.isEmpty_iff.mpr none_there)
        · rintro - there
          cases there
  | front count =>
    simp only [step, pc] at moves
    obtain ⟨v, first, rfl⟩ := Option.map_eq_some_iff.mp moves
    cases t with
    | producer => exact (pc ▸ reaches : Reaches items .producer (.front count)).elim
    | consumer => exact holds.front pc first
  | pop count =>
    simp only [step, pc] at moves
    obtain ⟨rest, others, rfl⟩ := Option.map_eq_some_iff.mp moves
    cases t with
    | producer => exact (pc ▸ reaches : Reaches items .producer (.pop count)).elim
    | consumer => exact holds.pop pc others
  | unlock n =>
    simp only [step, pc] at moves
    cases moves
    have short : n ≤ items := by
      rw [pc] at reaches
      cases t <;> exact reaches
    refine holds.quiet alive (holds.owned.leave (by rw [pc]; trivial) (outside_test items t n))
      (reaches_test items t n) (by rw [pc, moved_test short]; rfl) (by rw [pc, viewed_test]; rfl) ?_ ?_
    · intro _ _ there
      have outside := outside_test items t n
      rcases there with there | there <;> exact absurd (by rw [there]; trivial) outside
    · rintro rfl there
      rcases test_cases items .consumer n with next | ⟨next, -⟩ | ⟨-, next⟩
      · cases there.symm.trans next
      · cases next
      · cases there.symm.trans next
  | join =>
    simp only [step, pc] at moves
    split at moves
    next ended =>
      cases moves
      cases t with
      | producer => exact (pc ▸ reaches : Reaches items .producer .join).elim
      | consumer =>
        refine holds.quiet alive (holds.owned.stay (by rw [pc]; exact Iff.rfl)) trivial (by rw [pc]; rfl)
          (by rw [pc]; rfl) ?_ fun _ _ => ended
        rintro _ - (there | there) <;> cases there
    next => cases moves
  | returned => exact absurd pc alive

theorem inv_reachable (reached : Reachable (step items) (initial items) s) : Inv items s :=
  reached.invariant (fun _ _ _ => inv_step) inv_initial

theorem Inv.fronts_le (holds : Inv items s) : moved items (s.pc .consumer) + viewed (s.pc .consumer) ≤ items := by
  have reaches := holds.reaches .consumer
  cases pc : s.pc .consumer with
  | join | returned => exact Nat.le_refl items
  | push => exact (pc ▸ reaches : Reaches items .consumer (.push _)).elim
  | lock | look | front =>
    rw [pc] at reaches
    exact Nat.le_of_lt reaches
  | pop | unlock =>
    rw [pc] at reaches
    exact reaches

theorem Inv.waits (holds : Inv items s) (stuck : step items s t = none) :
    (∃ n, s.pc t = .lock n ∧ s.mtx ≠ none) ∨ (s.pc t = .join ∧ s.pc .producer ≠ .returned) ∨ s.pc t = .returned := by
  have reaches := holds.reaches t
  have found {n : Nat} (there : s.pc t = .front n ∨ s.pc t = .pop n) : s.q ≠ [] := by
    cases t with
    | consumer => exact holds.found n there
    | producer =>
      rcases there with there | there <;> rw [there] at reaches <;> exact reaches.elim
  cases pc : s.pc t with
  | lock n =>
    simp only [step, pc] at stuck
    split at stuck
    next => cases stuck
    next busy => exact .inl ⟨n, rfl, busy⟩
  | push | look | unlock =>
    simp only [step, pc] at stuck
    cases stuck
  | front n =>
    simp only [step, pc, Option.map_eq_none_iff, List.head?_eq_none_iff] at stuck
    exact absurd stuck (found (.inl pc))
  | pop n =>
    simp only [step, pc, Option.map_eq_none_iff] at stuck
    cases same : s.q with
    | nil => exact absurd same (found (.inr pc))
    | cons v rest =>
      rw [same] at stuck
      cases stuck
  | join =>
    simp only [step, pc] at stuck
    split at stuck
    next => cases stuck
    next early => exact .inr (.inl ⟨rfl, early⟩)
  | returned => exact .inr (.inr rfl)

theorem Inv.finished (holds : Inv items s) (ended : s.pc .consumer = .returned) :
    s.pc .producer = .returned ∧ s.fronts = (List.range items).map toInt ∧ s.q = [] ∧ s.mtx = none := by
  have joined := holds.joined ended
  have queue := holds.queue
  have fronts := holds.fronts
  rw [ended, joined] at queue
  rw [ended] at fronts
  refine ⟨joined, fronts, ?_, ?_⟩
  · rw [queue, List.drop_eq_nil_iff]
    simp [moved]
  · apply holds.owned.vacant
    intro t
    cases t with
    | producer => rw [joined]; exact id
    | consumer => rw [ended]; exact id

/-- The threads never access the queue at the same time, each access has a behaviour, the values
come out in the order they were put in, none lost and none twice, and when the iteration ends all
of them have. -/
theorem transferred_in_order (reached : Reachable (step items) (initial items) s) :
    (∀ t u, Accesses (s.pc t) → Accesses (s.pc u) → t = u) ∧
    (∀ t, step items s t = none → (∃ n, s.pc t = .lock n ∧ s.mtx ≠ none) ∨
      (s.pc t = .join ∧ s.pc .producer ≠ .returned) ∨ s.pc t = .returned) ∧
    (∃ k ≤ items, s.fronts = (List.range k).map toInt) ∧
    (s.pc .consumer = .returned →
      s.pc .producer = .returned ∧ s.fronts = (List.range items).map toInt ∧ s.q = [] ∧ s.mtx = none) := by
  have holds := inv_reachable reached
  have inside {p : Pc} (accesses : Accesses p) : InSection p := by
    cases p with
    | push | look | front | pop => trivial
    | lock | unlock | join | returned => exact accesses.elim
  refine ⟨fun t u first second => holds.owned.exclusive (inside first) (inside second), fun t => holds.waits, ?_,
    holds.finished⟩
  exact ⟨_, holds.fronts_le, holds.fronts⟩

theorem transferred_in_order_one :
    ∃ s, run (step 1) (initial 1) [.producer, .producer, .producer, .consumer, .consumer, .consumer, .consumer,
        .consumer, .consumer] = some s ∧
      s.pc .consumer = .returned ∧ s.fronts = [0] ∧ s.q = [] := by
  have runs : run (step 1) (initial 1) [.producer, .producer, .producer, .consumer, .consumer, .consumer, .consumer,
      .consumer, .consumer] = some _ := rfl
  obtain ⟨-, -, -, ended⟩ := transferred_in_order ⟨_, runs⟩
  obtain ⟨-, fronts, queue, -⟩ := ended rfl
  exact ⟨_, runs, rfl, fronts.trans (by decide), queue⟩

def producerLeft (items : Nat) : Pc → Nat
  | .lock i => 3 * (items - i)
  | .push i => 3 * (items - i) - 1
  | .unlock i => 3 * (items - i) + 1
  | _ => 0

def consumerLeft (items : Nat) (empty : Bool) : Pc → Nat
  | .lock n => 5 * (items - n) + 1
  | .look n => 5 * (items - n) + if empty then 3 else 0
  | .front n => 5 * (items - n) - 1
  | .pop n => 5 * (items - n) - 2
  | .unlock n => 5 * (items - n) + 2
  | .join => 1
  | _ => 0

def left (items : Nat) (s : State) : Nat :=
  producerLeft items (s.pc .producer) + consumerLeft items s.q.isEmpty (s.pc .consumer)

theorem producerLeft_test (n : Nat) :
    producerLeft items (test items .producer n) < producerLeft items (.unlock n) := by
  unfold test
  split <;> simp [producerLeft]

theorem consumerLeft_test {empty : Bool} (n : Nat) :
    consumerLeft items empty (test items .consumer n) < consumerLeft items empty (.unlock n) := by
  unfold test
  split <;> simp [consumerLeft]

theorem left_consumer {q : List Int} {mtx : Option Thread} {fronts : List Int} {p : Pc}
    (less : consumerLeft items q.isEmpty p < consumerLeft items s.q.isEmpty (s.pc .consumer)) :
    left items (State.at ⟨q, mtx, fronts, s.pc⟩ .consumer p) < left items s :=
  Nat.add_lt_add_left less _

theorem Inv.inside_lt (holds : Inv items s) (inside : InSection (s.pc .consumer)) :
    ∃ s', step items s .consumer = some s' ∧ left items s' < left items s := by
  have reaches := holds.reaches .consumer
  cases pc : s.pc .consumer with
  | lock | join | returned =>
    rw [pc] at inside
    exact inside.elim
  | push => exact (pc ▸ reaches : Reaches items .consumer (.push _)).elim
  | look n =>
    rw [pc] at reaches
    refine ⟨_, by simp only [step, pc]; rfl, left_consumer ?_⟩
    rw [pc]
    have more : n < items := reaches
    cases s.q.isEmpty
    all_goals
      simp only [consumerLeft, if_true]
      simp
    omega
  | front n =>
    rw [pc] at reaches
    obtain ⟨v, rest, there⟩ := List.exists_cons_of_ne_nil (holds.found n (.inl pc))
    refine ⟨_, by simp only [step, pc, there]; rfl, left_consumer ?_⟩
    rw [pc]
    simp only [consumerLeft]
    have more : n < items := reaches
    omega
  | pop n =>
    rw [pc] at reaches
    obtain ⟨v, rest, there⟩ := List.exists_cons_of_ne_nil (holds.found n (.inr pc))
    refine ⟨_, by simp only [step, pc, there]; rfl, left_consumer ?_⟩
    rw [pc]
    simp only [consumerLeft]
    have more : n < items := reaches
    omega
  | unlock n =>
    refine ⟨_, by simp only [step, pc]; rfl, left_consumer ?_⟩
    rw [pc]
    exact consumerLeft_test n

theorem consumerLeft_outside {first second : Bool} (outside : ¬InSection p) :
    consumerLeft items first p = consumerLeft items second p := by
  cases p with
  | lock | join | returned => rfl
  | push | look | front | pop | unlock => exact absurd trivial outside

theorem left_producer {q : List Int} {mtx : Option Thread} {fronts : List Int} {p : Pc}
    (less : producerLeft items p < producerLeft items (s.pc .producer))
    (quiet : q = s.q ∨ ¬InSection (s.pc .consumer)) :
    left items (State.at ⟨q, mtx, fronts, s.pc⟩ .producer p) < left items s := by
  have same : consumerLeft items q.isEmpty (s.pc .consumer) = consumerLeft items s.q.isEmpty (s.pc .consumer) := by
    rcases quiet with rfl | outside
    · rfl
    · exact consumerLeft_outside outside
  exact Nat.add_lt_add_of_lt_of_le less (Nat.le_of_eq same)

theorem Inv.producer_lt (holds : Inv items s) (alive : s.pc .producer ≠ .returned)
    (outside : ¬InSection (s.pc .consumer)) :
    ∃ s', step items s .producer = some s' ∧ left items s' < left items s := by
  have reaches := holds.reaches .producer
  cases pc : s.pc .producer with
  | returned => exact absurd pc alive
  | look | front | pop | join =>
    rw [pc] at reaches
    exact reaches.elim
  | lock i =>
    have more : i < items := by rwa [pc] at reaches
    have free : s.mtx = none := by
      apply holds.owned.vacant
      intro t
      cases t with
      | producer => rw [pc]; exact id
      | consumer => exact outside
    refine ⟨_, by simp only [step, pc, free]; rfl, left_producer ?_ (.inl rfl)⟩
    rw [pc]
    simp only [producerLeft, entry]
    omega
  | push i =>
    have more : i < items := by rwa [pc] at reaches
    refine ⟨_, by simp only [step, pc]; rfl, left_producer ?_ (.inr outside)⟩
    rw [pc]
    simp only [producerLeft]
    omega
  | unlock i =>
    refine ⟨_, by simp only [step, pc]; rfl, left_producer ?_ (.inl rfl)⟩
    rw [pc]
    exact producerLeft_test i

theorem Inv.drain_lt (holds : Inv items s) (ended : s.pc .producer = .returned)
    (outside : ¬InSection (s.pc .consumer)) (running : s.pc .consumer ≠ .returned) :
    ∃ s', step items s .consumer = some s' ∧ left items s' < left items s := by
  have reaches := holds.reaches .consumer
  cases pc : s.pc .consumer with
  | push | look | front | pop | unlock =>
    rw [pc] at outside
    exact absurd trivial outside
  | returned => exact absurd pc running
  | join =>
    refine ⟨_, by simp only [step, pc, ended]; rfl, left_consumer ?_⟩
    rw [pc]
    exact Nat.zero_lt_one
  | lock n =>
    have more : n < items := by rwa [pc] at reaches
    have free : s.mtx = none := by
      apply holds.owned.vacant
      intro t
      cases t with
      | producer => rw [ended]; exact id
      | consumer => exact outside
    have filled : s.q.isEmpty = false := by
      have queue := holds.queue
      rw [ended, pc] at queue
      rw [queue, List.isEmpty_eq_false_iff, ne_eq, List.drop_eq_nil_iff]
      simpa [moved] using more
    refine ⟨_, by simp only [step, pc, free]; rfl, left_consumer ?_⟩
    rw [pc, filled]
    exact Nat.lt_succ_self _

theorem Inv.progress (holds : Inv items s) (running : s.pc .consumer ≠ .returned) :
    ∃ t s', step items s t = some s' ∧ left items s' < left items s := by
  by_cases inside : InSection (s.pc .consumer)
  · exact ⟨.consumer, holds.inside_lt inside⟩
  by_cases ended : s.pc .producer = .returned
  · exact ⟨.consumer, holds.drain_lt ended inside running⟩
  · exact ⟨.producer, holds.producer_lt ended inside⟩

theorem run_poll (positive : 0 < items) :
    run (step items) (initial items) [.consumer, .consumer, .consumer] = some (initial items) := by
  have start : (initial items).pc .consumer = .lock 0 := if_pos positive
  have locked : step items (initial items) .consumer =
      some ({ initial items with mtx := some .consumer }.at .consumer (.look 0)) := by
    simp only [step, start]
    rfl
  rw [run, locked]
  refine congrArg some (congrArg (State.mk _ _ _) ?_)
  funext t
  cases t <;> rfl

/-- The threads never wait for one another for ever: one of them can go on until the iteration ends,
and it can always still end. But the consumer may find the queue empty any number of times. -/
theorem completion_possible (items : Nat) :
    (∀ s, Reachable (step items) (initial items) s →
      (s.pc .consumer ≠ .returned → ∃ t s', step items s t = some s') ∧
      ∃ s', Reachable (step items) s s' ∧ s'.pc .consumer = .returned) ∧
    (0 < items → ∀ n, run (step items) (initial items) (List.replicate (3 * n) .consumer) = some (initial items)) := by
  constructor
  · intro s reached
    have holds := inv_reachable reached
    constructor
    · intro running
      obtain ⟨t, s', moves, -⟩ := holds.progress running
      exact ⟨t, s', moves⟩
    · have progress (s : State) (holds : Inv items s) (running : ¬s.pc .consumer = .returned) :
          ∃ s', Reachable (step items) s s' ∧ Inv items s' ∧ left items s' < left items s := by
        obtain ⟨t, s', moves, less⟩ := holds.progress running
        exact ⟨s', .of_step moves, inv_step holds moves, less⟩
      obtain ⟨s', later, -, ended⟩ := Reachable.of_rank (left items) progress holds
      exact ⟨s', later, ended⟩
  · intro positive n
    induction n with
    | zero => rfl
    | succ n ih =>
      rw [Nat.mul_succ, Nat.add_comm, ← List.replicate_append_replicate]
      exact run_append.mpr ⟨_, run_poll positive, ih⟩

end Cpp20Showcase.Benchmarks.MutexQueue
