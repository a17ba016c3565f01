import Cpp20Showcase.Lib.Linearizable
import Cpp20Showcase.Lockfree.SpscInvariant
import Mathlib.Data.List.Induction

/-! Under sequential consistency the ring is a bounded first-in first-out queue. A
successful call takes effect when it stores its own counter, a failing one when it
loads the counter of the other side. -/

namespace Cpp20Showcase.Lockfree.SpscLinearizable
open Lib Lib.WrappingCounter Lib.TransitionSystem Lib.Linearizable SpscQueue SpscInvariant

inductive QueueOp (T : Type) where
  | push (x : T)
  | pop

inductive QueueRes (T : Type) where
  | pushed (ok : Bool)
  | popped (x : Option T)

/-- What the ring is meant to be: a list of at most `bound` items, oldest first. -/
def boundedQueue (T : Type) (bound : Nat) : Sequential (List T) (QueueOp T) (QueueRes T) where
  apply
    | q, .push x => if q.length < bound then (q ++ [x], .pushed true) else (q, .pushed false)
    | [], .pop => ([], .popped none)
    | x :: q, .pop => (q, .popped (some x))

variable {S : Shape} {T : Type} {E : Element T} {start : S.Size} {s t u : State S T} {a : Action T}
  {acts : List (Action T)}

/-- The call or return a step shows to the caller. -/
def event (s : State S T) : Action T → Option (Event Thread (QueueOp T) (QueueRes T))
  | .push _ => some (.call .producer (.push s.item))
  | .pushReturn =>
      match s.producer with
      | .ret pushed _ => some (.ret .producer (.pushed pushed))
      | _ => none
  | .pop _ => some (.call .consumer .pop)
  | .popReturn =>
      match s.consumer with
      | .ret result => some (.ret .consumer (.popped (result.value s.out)))
      | _ => none
  | _ => none

def history (E : Element T) : State S T → List (Action T) → History Thread (QueueOp T) (QueueRes T)
  | _, [] => []
  | s, a :: rest => event s a ::
      match step E s a with
      | some t => history E t rest
      | none => []

theorem history_snoc (runs : run (step E) s acts = some t) :
    history E s (acts ++ [a]) = history E s acts ++ [event t a] := by
  induction acts generalizing s with
  | nil =>
    cases runs
    simp only [List.nil_append, history]
    cases step E t a with
    | none => rfl
    | some u => rfl
  | cons b acts ih =>
    obtain ⟨v, first, rest⟩ := run_cons.mp runs
    simp only [List.cons_append, history, first, ih rest]

theorem history_length (runs : run (step E) s acts = some t) :
    (history E s acts).length = acts.length := by
  induction acts generalizing s with
  | nil => rfl
  | cons b acts ih =>
    obtain ⟨v, first, rest⟩ := run_cons.mp runs
    simp only [history, first, List.length_cons, ih rest]

def ProducerPhase : ProducerPc S T → Phase (QueueOp T) (QueueRes T) → Prop
  | .idle, phase => phase = .idle
  | .loadHead _ x, phase => ∃ since, phase = .called since (.push x)
  | .loadTail _ x _, phase => ∃ since, phase = .called since (.push x)
  | .write _ x _, phase => ∃ since, phase = .called since (.push x)
  | .storeHead x _, phase => ∃ since, phase = .called since (.push x)
  | .ret pushed _, phase => ∃ since, phase = .committed since (.pushed pushed)

def ConsumerPhase (out : T) : ConsumerPc S T → Phase (QueueOp T) (QueueRes T) → Prop
  | .idle, phase => phase = .idle
  | .ret result, phase => ∃ since, phase = .committed since (.popped (result.value out))
  | _, phase => ∃ since, phase = .called since .pop

/-- The simulation relation between the ring and the atomic bounded queue. -/
structure Matches (s : State S T) (c : Config (List T) Thread (QueueOp T) (QueueRes T)) : Prop where
  object : c.object = s.queued
  producer : ProducerPhase s.producer (c.phase .producer)
  consumer : ConsumerPhase s.out s.consumer (c.phase .consumer)

theorem queued_le (holds : Inv start s) : s.queued.length ≤ S.cap - 1 := by
  have length := holds.queued_length
  have near := holds.counters.head_lt
  omega

theorem queued_full {how : Passing} {x : T} {h v : S.Size} {tail : Atomic Thread S.Size}
    (holds : Inv start s) (pc : s.producer = .loadTail how x h)
    (read : s.tail.load .producer 0 = some (v, tail)) (full : h - v = S.capacity - 1#S.bits) :
    s.queued.length = S.cap - 1 := by
  obtain ⟨-, rfl⟩ : s.item = x ∧ h = nth start s.head.stores := by
    simpa only [ProducerOk, pc] using holds.producer
  rw [Atomic.load_latest] at read
  cases read
  rw [holds.counters.tailCounts.current] at full
  have count := (holds.counters.full_iff le_rfl (s.tail.seen_le .producer)).mp full
  have length := holds.queued_length
  omega

theorem queued_room {x : T} {h : S.Size} (holds : Inv start s) (pc : s.producer = .storeHead x h) :
    s.queued.length < S.cap - 1 := by
  obtain ⟨-, -, room⟩ : s.buffer (S.slot h) = x ∧ h = nth start s.head.stores ∧
      s.head.stores + 1 < s.tail.seen .producer + S.cap := by
    simpa only [ProducerOk, pc] using holds.producer
  have known := s.tail.seen_le .producer
  have length := holds.queued_length
  have ordered := holds.counters.tail_le_head
  omega

theorem queued_push {x : T} (holds : Inv start s) :
    (s.accepted ++ [x]).drop s.delivered.length = s.queued ++ [x] := by
  have ordered := holds.counters.tail_le_head
  have length := holds.accepted
  rw [List.drop_append_of_le_length (by rw [holds.delivered_length]; omega), State.queued]

theorem queued_empty {into : Into} {v : S.Size} {head : Atomic Thread S.Size} (holds : Inv start s)
    (pc : s.consumer = .loadHead into v) (read : s.head.load .consumer 0 = some (v, head)) :
    s.queued = [] := by
  have here : v = nth start s.tail.stores := by simpa only [ConsumerOk, pc] using holds.consumer
  rw [Atomic.load_latest] at read
  have current : v = nth start s.head.stores := by
    rw [← holds.counters.headCounts.current]
    cases read
    rfl
  have ordered := holds.counters.tail_le_head
  have near := holds.counters.head_lt
  have below := cap_lt S
  have same := (nth_eq_iff start s.head.stores s.tail.stores ordered (by omega)).mp
    (here.symm.trans current)
  rw [← List.length_eq_zero_iff, holds.queued_length]
  omega

theorem queued_pop {c : S.Size} {result : PopResult T} (holds : Inv start s)
    (pc : s.consumer = .storeTail c result) :
    ∃ v, result.value s.out = some v ∧
      s.queued = v :: s.accepted.drop (s.delivered ++ (result.value s.out).toList).length := by
  obtain ⟨-, nonempty, value⟩ : c = nth start s.tail.stores ∧ s.tail.stores < s.head.seen .consumer ∧
      s.accepted[s.tail.stores]? = result.value s.out := by
    simpa only [ConsumerOk, pc] using holds.consumer
  have inside := holds.tail_lt_accepted nonempty
  have present := List.getElem?_eq_getElem inside
  refine ⟨s.accepted[s.tail.stores], value ▸ present, ?_⟩
  rw [← value, present, State.queued, List.length_append, holds.delivered_length]
  exact List.drop_eq_getElem_cons inside

theorem matches_move {c : Config (List T) Thread (QueueOp T) (QueueRes T)} (holds : Inv start s)
    (related : Matches s c) (move : Move E s a t) (current : lag a = 0) :
    ∃ c', AtomicStep (boundedQueue T (S.cap - 1)) c (event s a) c' ∧ Matches t c' := by
  obtain ⟨object, producer, consumer⟩ := related
  cases move with
  | setItem pc => exact ⟨_, .internal, object, producer, consumer⟩
  | push pc free =>
    rw [pc] at producer
    exact ⟨_, .call producer, object, ⟨c.clock, by simp⟩, by simpa using consumer⟩
  | pushLoadHead pc read =>
    rw [pc] at producer
    exact ⟨_, .internal, object, producer, consumer⟩
  | pushFull pc read full =>
    cases current
    have bound := queued_full holds pc read full
    rw [pc] at producer
    obtain ⟨since, called⟩ := producer
    refine ⟨_, .commit called, ?_, ⟨since, ?_⟩, ?_⟩
    · simp only [boundedQueue, object, bound, Nat.lt_irrefl, ↓reduceIte]
      rfl
    · simp only [boundedQueue, object, bound, Nat.lt_irrefl, ↓reduceIte, Function.update_self]
    · simpa using consumer
  | pushRoom pc read room =>
    rw [pc] at producer
    exact ⟨_, .internal, object, producer, consumer⟩
  | pushWrite pc =>
    rw [pc] at producer
    exact ⟨_, .internal, object, producer, consumer⟩
  | pushStoreHead pc =>
    have bound := queued_room holds pc
    rw [pc] at producer
    obtain ⟨since, called⟩ := producer
    refine ⟨_, .commit called, ?_, ⟨since, ?_⟩, ?_⟩
    · simp only [boundedQueue, object, bound, ↓reduceIte]
      exact (queued_push holds).symm
    · simp only [boundedQueue, object, bound, ↓reduceIte, Function.update_self]
    · simpa using consumer
  | pushReturn pc =>
    rw [pc] at producer
    obtain ⟨since, committed⟩ := producer
    simp only [event, pc]
    exact ⟨_, .ret committed, object, by simp [ProducerPhase], by simpa using consumer⟩
  | setOut pc =>
    rw [pc] at consumer
    exact ⟨_, .internal, object, producer, by simpa only [pc, ConsumerPhase] using consumer⟩
  | pop pc free =>
    rw [pc] at consumer
    exact ⟨_, .call consumer, object, by simpa using producer, ⟨c.clock, by simp⟩⟩
  | popLoadTail pc read =>
    rw [pc] at consumer
    exact ⟨_, .internal, object, producer, consumer⟩
  | @popEmpty n into v head pc read =>
    cases current
    have empty := queued_empty holds pc read
    rw [pc] at consumer
    obtain ⟨since, called⟩ := consumer
    refine ⟨_, .commit called, ?_, ?_, ⟨since, ?_⟩⟩
    · simp only [boundedQueue, object, empty]
      exact empty.symm
    · simpa using producer
    · simp only [boundedQueue, object, empty, Function.update_self]
      cases into <;> rfl
  | popSome pc read nonempty =>
    rw [pc] at consumer
    exact ⟨_, .internal, object, producer, consumer⟩
  | popReference pc =>
    rw [pc] at consumer
    exact ⟨_, .internal, object, producer, consumer⟩
  | popOptional pc =>
    rw [pc] at consumer
    exact ⟨_, .internal, object, producer, consumer⟩
  | popStoreTail pc =>
    obtain ⟨v, value, oldest⟩ := queued_pop holds pc
    rw [pc] at consumer
    obtain ⟨since, called⟩ := consumer
    refine ⟨_, .commit called, ?_, ?_, ⟨since, ?_⟩⟩
    · simp only [boundedQueue, object, oldest]
      rfl
    · simpa using producer
    · simp only [boundedQueue, object, oldest, Function.update_self, value]
  | popReturn pc =>
    rw [pc] at consumer
    obtain ⟨since, committed⟩ := consumer
    simp only [event, pc]
    exact ⟨_, .ret committed, object, by simpa using producer, by simp [ConsumerPhase]⟩
  | size pc free => exact ⟨_, .internal, object, producer, consumer⟩
  | sizeLoadHead pc read => exact ⟨_, .internal, object, producer, consumer⟩
  | sizeLoadTail pc read => exact ⟨_, .internal, object, producer, consumer⟩
  | sizeReturn pc => exact ⟨_, .internal, object, producer, consumer⟩

/-- Along a sequentially consistent run the atomic queue runs in step with the ring,
and at every instant holds what the ring holds. -/
theorem atomic_run (runs : run (step E) (initial E start) acts = some s)
    (current : ∀ a ∈ acts, lag a = 0) :
    ∃ c, AtomicRun (boundedQueue T (S.cap - 1)) [] (history E (initial E start) acts) c ∧
      Matches s c ∧
      ∀ n u, run (step E) (initial E start) (acts.take n) = some u →
        u.queued = after (boundedQueue T (S.cap - 1)) [] (c.points.filter fun p => p.instant < n) := by
  induction acts using List.reverseRecOn generalizing s with
  | nil =>
    cases runs
    refine ⟨.start [], .start, ⟨rfl, rfl, rfl⟩, ?_⟩
    intro n u runs
    rw [List.take_nil] at runs
    cases runs
    rfl
  | append_singleton acts a ih =>
    obtain ⟨v, before, last⟩ := run_snoc.mp runs
    obtain ⟨c, atomicRun, related, contents⟩ :=
      ih before (fun b member => current b (List.mem_append_left _ member))
    have holds : Inv start v := inv_reachable ⟨acts, before⟩
    obtain ⟨c', next, related'⟩ := matches_move holds related (step_move last)
      (current a (List.mem_append_right _ (List.mem_singleton_self a)))
    have atomicRun' := history_snoc (a := a) before ▸ atomicRun.next next
    have length := history_length runs
    rw [List.length_append, List.length_singleton] at length
    refine ⟨c', atomicRun', related', ?_⟩
    intro n u runs'
    by_cases past : n ≤ acts.length
    · rw [List.take_append_of_le_length past] at runs'
      have clock := atomicRun.tracks.clock.trans (history_length before)
      rw [contents n u runs', next.earlier_points (by omega)]
    · rw [List.take_of_length_le (by rw [List.length_append, List.length_singleton]; omega),
        runs] at runs'
      cases runs'
      rw [atomicRun'.tracks.all_points (by omega), atomicRun'.tracks.object, related'.object]

/-- Every sequentially consistent run has a linearization on a queue bounded by
`Capacity - 1`. At each instant the operations applied so far leave exactly the items
then in the ring; so a failing push takes effect while `Capacity - 1` items are
queued, and a failing pop while none is. -/
theorem linearizable (E : Element T) (start : S.Size) (acts : List (Action T)) (s : State S T)
    (runs : run (step E) (initial E start) acts = some s) (current : ∀ a ∈ acts, lag a = 0) :
    ∃ points, Linearization (boundedQueue T (S.cap - 1)) [] (history E (initial E start) acts) points ∧
      (∀ n u, run (step E) (initial E start) (acts.take n) = some u →
        u.queued = after (boundedQueue T (S.cap - 1)) [] (points.filter fun p => p.instant < n)) ∧
      ∀ p ∈ points, ∀ u, run (step E) (initial E start) (acts.take p.instant) = some u →
        (p.res = .pushed false → u.queued.length = S.cap - 1) ∧
          (p.res = .popped none → u.queued = []) := by
  obtain ⟨c, atomicRun, -, contents⟩ := atomic_run runs current
  have linear := atomicRun.tracks.linear
  refine ⟨c.points, linear, contents, ?_⟩
  intro p member u before
  have result := result_at linear.ordered linear.legal member
  rw [← contents p.instant u before] at result
  have bound := queued_le (inv_reachable ⟨_, before⟩ : Inv start u)
  constructor
  · intro failed
    rw [failed] at result
    cases op : p.op with
    | push x =>
      simp only [op, boundedQueue] at result
      split at result
      next => cases result
      next full => omega
    | pop =>
      rw [op] at result
      cases items : u.queued with
      | nil => rw [items] at result; cases result
      | cons x rest => rw [items] at result; cases result
  · intro failed
    rw [failed] at result
    cases op : p.op with
    | push x =>
      simp only [op, boundedQueue] at result
      split at result <;> cases result
    | pop =>
      rw [op] at result
      cases items : u.queued with
      | nil => rfl
      | cons x rest => rw [items] at result; cases result

/-- A push that finds the queue full and a pop overlap on `SPSCQueue<int, 4>`. -/
def overlapping : List (Action Int) :=
  pushCall 1 .copy ++ pushCall 2 .copy ++ pushCall 3 .copy ++
    ([.push .copy, .pop .reference, .popLoadTail 0, .pushLoadHead 0, .popLoadHead 0, .popRead,
      .pushLoadTail 0, .popStoreTail, .pushReturn, .popReturn] : List (Action Int))

theorem linearizable_overlapping :
    (∃ s, run (step ints) (initial ints 0 : State fourSlots Int) overlapping = some s) ∧
    ∃ points, Linearization (boundedQueue Int 3) []
        (history ints (initial ints 0 : State fourSlots Int) overlapping) points ∧
      (∀ n u, run (step ints) (initial ints 0 : State fourSlots Int) (overlapping.take n) = some u →
        u.queued = after (boundedQueue Int 3) [] (points.filter fun p => p.instant < n)) ∧
      ∀ p ∈ points, ∀ u,
        run (step ints) (initial ints 0 : State fourSlots Int) (overlapping.take p.instant) = some u →
        (p.res = .pushed false → u.queued.length = 3) ∧ (p.res = .popped none → u.queued = []) := by
  have runs : run (step ints) (initial ints 0 : State fourSlots Int) overlapping = some _ := rfl
  exact ⟨⟨_, runs⟩, linearizable ints 0 overlapping _ runs (by decide)⟩

end Cpp20Showcase.Lockfree.SpscLinearizable
