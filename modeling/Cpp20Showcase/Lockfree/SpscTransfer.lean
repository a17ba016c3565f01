import Cpp20Showcase.Lockfree.SpscInvariant

/-! The transfer loops of the stress tests and of the benchmark: one thread retries
`push(i)` for `i = 0 .. N - 1`, the other retries `pop(v)` until it has `N` values. The
element type holds all of `0 .. N - 1`: the `static_cast<int>` of `BM_SPSCQueue`, which
wraps from `2 ^ 31` on, is not modelled. -/

namespace Cpp20Showcase.Lockfree.SpscTransfer
open Lib Lib.WrappingCounter Lib.TransitionSystem SpscQueue SpscInvariant

variable {S : Shape} {E : Element Nat} {start : S.Size} {N : Nat}

/-- `sent` is the loop variable of the producer. -/
structure Transfer (S : Shape) where
  queue : State S Nat
  sent : Nat
  received : List Nat

inductive TransferAction where
  | produce
  | consume
  | access (a : Action Nat)
  | pushReturn
  | popReturn

def isAccess : Action Nat → Bool
  | .pushLoadHead _ | .pushLoadTail _ | .pushWrite | .pushStoreHead => true
  | .popLoadTail _ | .popLoadHead _ | .popRead | .popStoreTail => true
  | _ => false

def Transfer.initial (E : Element Nat) (start : S.Size) : Transfer S where
  queue := SpscQueue.initial E start
  sent := 0
  received := []

/-- `while (!q.push(i)) yield;`, the next call of `push`. -/
def produce (E : Element Nat) (N : Nat) (t : Transfer S) : Option (Transfer S) :=
  if t.sent < N then
    (run (step E) t.queue [.setItem t.sent, .push .copy]).map fun q => { t with queue := q }
  else none

/-- `while (received < N) if (q.pop(v))`, the next call of `pop`. -/
def consume (E : Element Nat) (N : Nat) (t : Transfer S) : Option (Transfer S) :=
  if t.received.length < N then
    (step E t.queue (.pop .reference)).map fun q => { t with queue := q }
  else none

def afterPush (t : Transfer S) : Option (Transfer S) :=
  match t.queue.producer with
  | .ret pushed _ => (pushReturn t.queue).map fun q =>
      { t with queue := q, sent := if pushed then t.sent + 1 else t.sent }
  | _ => none

def afterPop (t : Transfer S) : Option (Transfer S) :=
  match t.queue.consumer with
  | .ret result => (popReturn t.queue).map fun q =>
      { t with queue := q, received := t.received ++ (result.value t.queue.out).toList }
  | _ => none

def transferStep (E : Element Nat) (N : Nat) (t : Transfer S) : TransferAction → Option (Transfer S)
  | .produce => produce E N t
  | .consume => consume E N t
  | .access a => if isAccess a then (step E t.queue a).map fun q => { t with queue := q } else none
  | .pushReturn => afterPush t
  | .popReturn => afterPop t

/-- Steps in which every load reads the last store. -/
def currentStep (E : Element Nat) (N : Nat) (t : Transfer S) : TransferAction → Option (Transfer S)
  | .access a => if lag a = 0 then transferStep E N t (.access a) else none
  | a => transferStep E N t a

def Finished (N : Nat) (t : Transfer S) : Prop :=
  t.sent = N ∧ t.received.length = N ∧ t.queue.producer = .idle ∧ t.queue.consumer = .idle

/-- The full check the producer makes next, on the current `m_tail`. -/
def FullForProducer (t : Transfer S) : Prop :=
  match t.queue.producer with
  | .loadTail _ _ h => h - t.queue.tail.current = S.capacity - 1#S.bits
  | _ => t.queue.head.current - t.queue.tail.current = S.capacity - 1#S.bits

/-- The empty check the consumer makes next, on the current `m_head`. -/
def EmptyForConsumer (t : Transfer S) : Prop :=
  match t.queue.consumer with
  | .loadHead _ c => c = t.queue.head.current
  | _ => t.queue.tail.current = t.queue.head.current

def Sending (N : Nat) (t : Transfer S) : Prop :=
  match t.queue.producer with
  | .idle => t.queue.accepted.length = t.sent ∧ t.sent ≤ N
  | .loadHead _ x => x = t.sent ∧ t.queue.accepted.length = t.sent ∧ t.sent < N
  | .loadTail _ x _ => x = t.sent ∧ t.queue.accepted.length = t.sent ∧ t.sent < N
  | .write _ x _ => x = t.sent ∧ t.queue.accepted.length = t.sent ∧ t.sent < N
  | .storeHead x _ => x = t.sent ∧ t.queue.accepted.length = t.sent ∧ t.sent < N
  | .ret pushed _ => t.queue.accepted.length = (if pushed then t.sent + 1 else t.sent) ∧ t.sent < N

def Receiving (N : Nat) (t : Transfer S) : Prop :=
  match t.queue.consumer with
  | .idle => t.queue.delivered = t.received ∧ t.received.length ≤ N
  | .ret result => t.queue.delivered = t.received ++ (result.value t.queue.out).toList ∧
      t.received.length < N
  | _ => t.queue.delivered = t.received ∧ t.received.length < N

structure TransferInv (N : Nat) (start : S.Size) (t : Transfer S) : Prop where
  queue : Inv start t.queue
  quiet : ∀ u, t.queue.size u = .idle
  counted : t.queue.accepted = List.range t.queue.accepted.length
  sending : Sending N t
  receiving : Receiving N t

variable {t u : Transfer S} {q : State S Nat} {a : Action Nat}

theorem transferInv_initial : TransferInv N start (Transfer.initial E start) where
  queue := inv_initial
  quiet := fun _ => rfl
  counted := rfl
  sending := ⟨rfl, Nat.zero_le N⟩
  receiving := ⟨rfl, Nat.zero_le N⟩

theorem TransferInv.access (holds : TransferInv N start t) (allowed : isAccess a = true)
    (move : Move E t.queue a q) : TransferInv N start { t with queue := q } := by
  have queue := inv_move holds.queue move
  obtain ⟨-, quiet, counted, sending, receiving⟩ := holds
  cases move with
  | pushLoadHead pc read | pushRoom pc read room | pushWrite pc =>
    simp only [Sending, pc] at sending
    exact ⟨queue, quiet, counted, sending, receiving⟩
  | pushFull pc read full =>
    simp only [Sending, pc] at sending
    exact ⟨queue, quiet, counted, sending.2, receiving⟩
  | pushStoreHead pc =>
    simp only [Sending, pc] at sending
    obtain ⟨rfl, length, more⟩ := sending
    refine ⟨queue, quiet, ?_, ⟨by simp [length], more⟩, receiving⟩
    change t.queue.accepted ++ [t.sent] = List.range (t.queue.accepted ++ [t.sent]).length
    rw [List.length_append, List.length_singleton, List.range_succ, ← counted, length]
  | popLoadTail pc read | popSome pc read nonempty | popReference pc | popOptional pc =>
    simp only [Receiving, pc] at receiving
    exact ⟨queue, quiet, counted, sending, receiving⟩
  | @popEmpty n into v head pc read =>
    simp only [Receiving, pc] at receiving
    refine ⟨queue, quiet, counted, sending, ?_, receiving.2⟩
    cases into <;> simpa [Into.nothing, PopResult.value] using receiving.1
  | popStoreTail pc =>
    simp only [Receiving, pc] at receiving
    exact ⟨queue, quiet, counted, sending, receiving.1 ▸ rfl, receiving.2⟩
  | _ => cases allowed

theorem TransferInv.produce (holds : TransferInv N start t)
    (move : SpscTransfer.produce E N t = some u) : TransferInv N start u := by
  unfold SpscTransfer.produce at move
  split at move
  next more =>
    obtain ⟨q, runs, rfl⟩ := Option.map_eq_some_iff.mp move
    have queue := inv_preserved.run holds.queue runs
    obtain ⟨r, assigned, called⟩ := run_cons.mp runs
    have sending := holds.sending
    cases step_move assigned with
    | setItem idle =>
      cases step_move (run_single.mp called) with
      | push pc free =>
        simp only [Sending, idle] at sending
        exact ⟨queue, holds.quiet, holds.counted, ⟨rfl, sending.1, more⟩, holds.receiving⟩
  next => cases move

theorem TransferInv.consume (holds : TransferInv N start t)
    (move : SpscTransfer.consume E N t = some u) : TransferInv N start u := by
  unfold SpscTransfer.consume at move
  split at move
  next more =>
    obtain ⟨q, called, rfl⟩ := Option.map_eq_some_iff.mp move
    have receiving := holds.receiving
    cases step_move called with
    | pop pc free =>
      simp only [Receiving, pc] at receiving
      exact ⟨inv_move holds.queue (step_move called), holds.quiet, holds.counted, holds.sending,
        receiving.1, more⟩
  next => cases move

theorem TransferInv.afterPush (holds : TransferInv N start t)
    (move : SpscTransfer.afterPush t = some u) : TransferInv N start u := by
  unfold SpscTransfer.afterPush at move
  split at move
  next pushed x pc =>
    simp only [pushReturn, pc, Option.map_some, Option.some.injEq] at move
    subst move
    have sending := holds.sending
    simp only [Sending, pc] at sending
    refine ⟨holds.queue.atProducer _ trivial, holds.quiet, holds.counted, ⟨sending.1, ?_⟩,
      holds.receiving⟩
    have more := sending.2
    change (if pushed then t.sent + 1 else t.sent) ≤ N
    split <;> omega
  next => cases move

theorem TransferInv.afterPop (holds : TransferInv N start t)
    (move : SpscTransfer.afterPop t = some u) : TransferInv N start u := by
  unfold SpscTransfer.afterPop at move
  split at move
  next result pc =>
    simp only [popReturn, pc, Option.map_some, Option.some.injEq] at move
    subst move
    have receiving := holds.receiving
    simp only [Receiving, pc] at receiving
    refine ⟨holds.queue.atConsumer _ (by simp only [taken, pc]) trivial, holds.quiet, holds.counted,
      holds.sending, receiving.1, ?_⟩
    have more := receiving.2
    rw [List.length_append]
    cases result.value t.queue.out <;> simp only [Option.toList, List.length_cons, List.length_nil] <;> omega
  next => cases move

theorem transferInv_preserved : Preserved (transferStep E N) (TransferInv N start) := by
  intro t action u holds move
  cases action with
  | produce => exact holds.produce move
  | consume => exact holds.consume move
  | access a =>
    simp only [transferStep] at move
    split at move
    next allowed =>
      obtain ⟨q, moved, rfl⟩ := Option.map_eq_some_iff.mp move
      exact holds.access allowed (step_move moved)
    next => cases move
  | pushReturn => exact holds.afterPush move
  | popReturn => exact holds.afterPop move

theorem current_preserved : Preserved (currentStep E N) (TransferInv N start) := by
  intro t action u holds move
  cases action with
  | access a =>
    simp only [currentStep] at move
    split at move
    next => exact transferInv_preserved t (.access a) u holds move
    next => cases move
  | produce => exact holds.produce move
  | consume => exact holds.consume move
  | pushReturn => exact holds.afterPush move
  | popReturn => exact holds.afterPop move

/-- Full and empty at once would need `Capacity - 1 = 0`. -/
theorem not_full_and_empty (holds : TransferInv N start t) :
    ¬(FullForProducer t ∧ EmptyForConsumer t) := by
  intro both
  obtain ⟨full, empty⟩ := both
  have counters := holds.queue.counters
  have head := counters.headCounts.current
  have tail := counters.tailCounts.current
  have isFull : nth start t.queue.head.stores - nth start t.queue.tail.stores =
      S.capacity - 1#S.bits := by
    have facts := holds.queue.producer
    unfold FullForProducer at full
    split at full
    next how x h pc =>
      simp only [ProducerOk, pc] at facts
      rwa [facts.2, tail] at full
    next => rwa [head, tail] at full
  have isEmpty : nth start t.queue.tail.stores = nth start t.queue.head.stores := by
    have facts := holds.queue.consumer
    unfold EmptyForConsumer at empty
    split at empty
    next into c pc =>
      simp only [ConsumerOk, pc] at facts
      rwa [facts, head] at empty
    next => rwa [head, tail] at empty
  have ordered := counters.tail_le_head
  have near := counters.head_lt
  have below := cap_lt S
  have two := two_le_cap S
  have count := (counters.full_iff le_rfl (t.queue.tail.seen_le .producer)).mp isFull
  have same := (nth_eq_iff start _ _ ordered (by omega)).mp isEmpty
  omega

theorem finished_received (holds : TransferInv N start t) (finished : Finished N t) :
    t.received = List.range N := by
  obtain ⟨-, length, -, idle⟩ := finished
  have receiving := holds.receiving
  simp only [Receiving, idle] at receiving
  have delivered := holds.queue.delivered
  rw [receiving.1, holds.counted, List.take_range] at delivered
  rw [delivered, List.length_range] at length
  rw [delivered, length]

def producerRank : ProducerPc S Nat → Nat
  | .ret false _ => 7
  | .idle => 6
  | .loadHead _ _ => 5
  | .loadTail _ _ _ => 4
  | .write _ _ _ => 3
  | .storeHead _ _ => 2
  | .ret true _ => 1

def consumerRank (out : Nat) : ConsumerPc S Nat → Nat
  | .ret result => if (result.value out).isSome then 1 else 7
  | .idle => 6
  | .loadTail _ => 5
  | .loadHead _ _ => 4
  | .read _ _ => 3
  | .storeTail _ _ => 2

def rank (N : Nat) (t : Transfer S) : Nat :=
  8 * (N - t.sent) + 8 * (N - t.received.length) + producerRank t.queue.producer +
    consumerRank t.queue.out t.queue.consumer

theorem access_reachable (allowed : isAccess a = true) (current : lag a = 0)
    (enabled : step E t.queue a = some q) :
    Reachable (currentStep E N) t { t with queue := q } :=
  .of_step (a := .access a) (by
    simp only [currentStep, current, ↓reduceIte, transferStep, allowed, enabled, Option.map_some])

theorem accepted_le (holds : TransferInv N start t) : t.queue.accepted.length ≤ N := by
  have sending := holds.sending
  cases pc : t.queue.producer with
  | ret pushed x =>
    simp only [Sending, pc] at sending
    split at sending <;> omega
  | _ =>
    simp only [Sending, pc] at sending
    omega

/-- While the queue holds an item, or once its call has returned, the consumer can
take a step that brings the transfer closer to its end. -/
theorem consumer_progress (holds : TransferInv N start t)
    (ready : t.queue.tail.stores < t.queue.head.stores ∨ ∃ result, t.queue.consumer = .ret result) :
    ∃ u, Reachable (currentStep E N) t u ∧ rank N u < rank N t := by
  have receiving := holds.receiving
  have facts := holds.queue.consumer
  cases pc : t.queue.consumer with
  | idle =>
    have nonempty := ready.resolve_right (by simp [pc])
    simp only [Receiving, pc] at receiving
    have more : t.received.length < N := by
      have bound := accepted_le holds
      have delivered := holds.queue.delivered_length
      rw [receiving.1] at delivered
      have length := holds.queue.accepted
      omega
    refine ⟨{ t with queue := { t.queue with consumer := .loadTail .reference } }, .of_step (a := .consume) ?_, ?_⟩
    · simp only [currentStep, transferStep, consume, more, ↓reduceIte, step, pop, pc, holds.quiet,
        Option.map_some]
    · simp only [rank, pc, consumerRank]
      omega
  | loadTail into =>
    have moved : step E t.queue (.popLoadTail 0) = some
        { t.queue with
          tail := t.queue.tail.observe .consumer t.queue.tail.stores (Nat.le_refl _)
          consumer := .loadHead into t.queue.tail.current } := by
      simp only [step, popLoadTail, pc, Atomic.load_latest, Option.map_some]
    refine ⟨_, access_reachable rfl rfl moved, ?_⟩
    simp only [rank, pc, consumerRank]
    omega
  | loadHead into c =>
    have nonempty := ready.resolve_right (by simp [pc])
    simp only [ConsumerOk, pc] at facts
    have differs : c ≠ t.queue.head.current := by
      have ordered := holds.queue.counters.tail_le_head
      have near := holds.queue.counters.head_lt
      have below := cap_lt S
      rw [facts, holds.queue.counters.headCounts.current]
      exact fun same => nonempty.ne ((nth_eq_iff start _ _ ordered (by omega)).mp same)
    have moved : step E t.queue (.popLoadHead 0) = some
        { t.queue with
          head := t.queue.head.observe .consumer t.queue.head.stores (Nat.le_refl _)
          consumer := .read into c } := by
      simp only [step, popLoadHead, pc, Atomic.load_latest, Option.map_some, differs, ↓reduceIte]
    refine ⟨_, access_reachable rfl rfl moved, ?_⟩
    simp only [rank, pc, consumerRank]
    omega
  | read into c =>
    obtain ⟨out, result, moved⟩ : ∃ out result, step E t.queue .popRead = some
        { t.queue with
          buffer := Function.update t.queue.buffer (S.slot c) (E.moved (t.queue.buffer (S.slot c)))
          out := out
          consumer := .storeTail c result } := by
      cases into with
      | reference => exact ⟨_, _, by simp only [step, popRead, pc]; rfl⟩
      | optional => exact ⟨_, _, by simp only [step, popRead, pc]; rfl⟩
    refine ⟨_, access_reachable rfl rfl moved, ?_⟩
    simp only [rank, pc, consumerRank]
    omega
  | storeTail c result =>
    simp only [ConsumerOk, pc] at facts
    obtain ⟨-, known, value⟩ := facts
    have present := List.getElem?_eq_getElem (holds.queue.tail_lt_accepted known)
    have moved : step E t.queue .popStoreTail = some
        { t.queue with
          tail := t.queue.tail.store .consumer (c + 1#S.bits)
          consumer := .ret result
          delivered := t.queue.delivered ++ (result.value t.queue.out).toList } := by
      simp only [step, popStoreTail, pc]
    refine ⟨_, access_reachable rfl rfl moved, ?_⟩
    simp only [rank, pc, consumerRank, ← value, present, Option.isSome_some, ↓reduceIte]
    omega
  | ret result =>
    simp only [Receiving, pc] at receiving
    have more := receiving.2
    refine ⟨{ t with
        queue := { t.queue with consumer := .idle }
        received := t.received ++ (result.value t.queue.out).toList }, .of_step (a := .popReturn) ?_, ?_⟩
    · simp only [currentStep, transferStep, afterPop, pc, popReturn, Option.map_some]
    · cases value : result.value t.queue.out with
      | none =>
        simp only [rank, pc, consumerRank, value, Option.toList, List.append_nil, Option.isSome_none,
          Bool.false_eq_true, ↓reduceIte]
        omega
      | some v =>
        simp only [rank, pc, consumerRank, value, Option.toList, List.length_append,
          List.length_singleton, Option.isSome_some, ↓reduceIte]
        omega

theorem producer_progress (holds : TransferInv N start t)
    (ready : t.queue.tail.stores = t.queue.head.stores ∨ ∃ pushed x, t.queue.producer = .ret pushed x)
    (left : t.sent < N) : ∃ u, Reachable (currentStep E N) t u ∧ rank N u < rank N t := by
  have facts := holds.queue.producer
  cases pc : t.queue.producer with
  | idle =>
    refine ⟨{ t with queue := { t.queue with item := t.sent, producer := .loadHead .copy t.sent } },
      .of_step (a := .produce) ?_, ?_⟩
    · simp only [currentStep, transferStep, produce, left, ↓reduceIte, run, step, setItem, push, pc,
        holds.quiet, Option.bind_some, Option.map_some]
    · simp only [rank, pc, producerRank]
      omega
  | loadHead how x =>
    have moved : step E t.queue (.pushLoadHead 0) = some
        { t.queue with
          head := t.queue.head.observe .producer t.queue.head.stores (Nat.le_refl _)
          producer := .loadTail how x t.queue.head.current } := by
      simp only [step, pushLoadHead, pc, Atomic.load_latest, Option.map_some]
    refine ⟨_, access_reachable rfl rfl moved, ?_⟩
    simp only [rank, pc, producerRank]
    omega
  | loadTail how x h =>
    have empty := ready.resolve_right (by simp [pc])
    simp only [ProducerOk, pc] at facts
    have room : h - t.queue.tail.current ≠ S.capacity - 1#S.bits := by
      have two := two_le_cap S
      rw [facts.2, holds.queue.counters.tailCounts.current]
      intro full
      have count := (holds.queue.counters.full_iff le_rfl (t.queue.tail.seen_le .producer)).mp full
      omega
    have moved : step E t.queue (.pushLoadTail 0) = some
        { t.queue with
          tail := t.queue.tail.observe .producer t.queue.tail.stores (Nat.le_refl _)
          producer := .write how x h } := by
      simp only [step, pushLoadTail, pc, Atomic.load_latest, Option.map_some, room, ↓reduceIte]
    refine ⟨_, access_reachable rfl rfl moved, ?_⟩
    simp only [rank, pc, producerRank]
    omega
  | write how x h =>
    have moved : step E t.queue .pushWrite = some
        { t.queue with
          buffer := Function.update t.queue.buffer (S.slot h) t.queue.item
          item := E.forwarded how t.queue.item
          producer := .storeHead x h } := by
      simp only [step, pushWrite, pc]
    refine ⟨_, access_reachable rfl rfl moved, ?_⟩
    simp only [rank, pc, producerRank]
    omega
  | storeHead x h =>
    have moved : step E t.queue .pushStoreHead = some
        { t.queue with
          head := t.queue.head.store .producer (h + 1#S.bits)
          producer := .ret true x
          accepted := t.queue.accepted ++ [x] } := by
      simp only [step, pushStoreHead, pc]
    refine ⟨_, access_reachable rfl rfl moved, ?_⟩
    simp only [rank, pc, producerRank]
    omega
  | ret pushed x =>
    refine ⟨{ t with
        queue := { t.queue with producer := .idle }
        sent := if pushed then t.sent + 1 else t.sent }, .of_step (a := .pushReturn) ?_, ?_⟩
    · simp only [currentStep, transferStep, afterPush, pc, pushReturn, Option.map_some]
    · cases pushed with
      | true =>
        simp only [rank, pc, producerRank, ↓reduceIte]
        omega
      | false =>
        simp only [rank, pc, producerRank, Bool.false_eq_true, ↓reduceIte]
        omega

theorem transfer_progress (holds : TransferInv N start t) (unfinished : ¬Finished N t) :
    ∃ u, Reachable (currentStep E N) t u ∧ TransferInv N start u ∧ rank N u < rank N t := by
  suffices closer : ∃ u, Reachable (currentStep E N) t u ∧ rank N u < rank N t by
    obtain ⟨u, reached, less⟩ := closer
    exact ⟨u, reached, reached.invariant current_preserved holds, less⟩
  have ordered := holds.queue.counters.tail_le_head
  rcases Nat.lt_or_eq_of_le ordered with nonempty | empty
  · exact consumer_progress holds (.inl nonempty)
  · by_cases left : t.sent < N
    · exact producer_progress holds (.inl empty) left
    · have sending := holds.sending
      have receiving := holds.receiving
      have length := holds.queue.accepted
      have delivered := holds.queue.delivered_length
      have idle : t.queue.producer = .idle := by
        cases pc : t.queue.producer with
        | idle => rfl
        | _ =>
          simp only [Sending, pc] at sending
          omega
      simp only [Sending, idle] at sending
      cases pc : t.queue.consumer with
      | idle =>
        simp only [Receiving, pc] at receiving
        rw [receiving.1] at delivered
        exact absurd ⟨by omega, by omega, idle, pc⟩ unfinished
      | ret result => exact consumer_progress holds (.inr ⟨result, pc⟩)
      | _ =>
        simp only [Receiving, pc] at receiving
        rw [receiving.1] at delivered
        omega

/-- In every reachable state, with any stale views and calls in flight: the queue is
not both full for the producer and empty for the consumer, some schedule whose loads
are all current finishes the transfer, and a finished transfer received `0 .. N - 1`. -/
theorem transfer_completes (E : Element Nat) (N : Nat) (start : S.Size) (t : Transfer S)
    (reached : Reachable (transferStep E N) (Transfer.initial E start) t) :
    ¬(FullForProducer t ∧ EmptyForConsumer t) ∧
      (∃ u, Reachable (currentStep E N) t u ∧ Finished N u) ∧
      (Finished N t → t.received = List.range N) := by
  have holds := reached.invariant transferInv_preserved (transferInv_initial (N := N))
  obtain ⟨u, finishes, -, finished⟩ :=
    Reachable.of_rank (rank N) (fun _ => transfer_progress (E := E)) holds
  exact ⟨not_full_and_empty holds, ⟨u, finishes, finished⟩, finished_received holds⟩

/-- One value sent and one pop that missed it, with counters about to wrap. -/
theorem transfer_completes_in_flight :
    ∃ t : Transfer fourSlots,
      run (transferStep ⟨0, id⟩ 9) (Transfer.initial ⟨0, id⟩ (-2 : BitVec 64))
        [.produce, .access (.pushLoadHead 0), .consume, .access (.popLoadTail 0), .access (.pushLoadTail 0),
          .access .pushWrite, .access .pushStoreHead, .access (.popLoadHead 1), .popReturn] = some t ∧
      ¬(FullForProducer t ∧ EmptyForConsumer t) ∧
      (∃ u, Reachable (currentStep ⟨0, id⟩ 9) t u ∧ Finished 9 u) ∧
      (Finished 9 t → t.received = List.range 9) := by
  have runs : run (transferStep ⟨0, id⟩ 9) (Transfer.initial (S := fourSlots) ⟨0, id⟩ (-2 : BitVec 64))
      [.produce, .access (.pushLoadHead 0), .consume, .access (.popLoadTail 0), .access (.pushLoadTail 0),
        .access .pushWrite, .access .pushStoreHead, .access (.popLoadHead 1), .popReturn] = some _ := rfl
  exact ⟨_, runs, transfer_completes ⟨0, id⟩ 9 _ _ ⟨_, runs⟩⟩

end Cpp20Showcase.Lockfree.SpscTransfer
