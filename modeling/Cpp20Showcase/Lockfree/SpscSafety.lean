import Cpp20Showcase.Lockfree.SpscInvariant

/-! First-in first-out delivery and exclusive slots, in every reachable state of
the ring: any schedule, any stale view coherence allows, any number of wraps. -/

namespace Cpp20Showcase.Lockfree.SpscSafety
open Lib Lib.WrappingCounter Lib.TransitionSystem SpscQueue SpscInvariant

variable {S : Shape} {T : Type} {E : Element T} {start : S.Size} {s : State S T}

/-- What successful pops delivered is a prefix of what successful pushes accepted,
and at most `Capacity - 1` accepted values are still inside. -/
theorem delivered_prefix_accepted (E : Element T) (start : S.Size) (s : State S T)
    (reached : Reachable (step E) (initial E start) s) :
    s.delivered <+: s.accepted ∧ s.accepted.length - s.delivered.length ≤ S.cap - 1 := by
  have holds := inv_reachable reached
  have near := holds.counters.head_lt
  refine ⟨⟨s.queued, holds.accepted_eq.symm⟩, ?_⟩
  rw [holds.accepted, holds.delivered_length]
  omega

theorem delivered_prefix_accepted_run :
    ∃ s : State fourSlots Int,
      run (step ints) (initial ints 0) (pushCall 7 .copy ++ pushCall 8 .move ++ popCall .reference) =
        some s ∧
      s.accepted = [7, 8] ∧ s.delivered = [7] ∧
      s.delivered <+: s.accepted ∧ s.accepted.length - s.delivered.length ≤ fourSlots.cap - 1 := by
  have runs : run (step ints) (initial ints 0 : State fourSlots Int)
      (pushCall 7 .copy ++ pushCall 8 .move ++ popCall .reference) = some _ := rfl
  exact ⟨_, runs, rfl, rfl, delivered_prefix_accepted ints 0 _ ⟨_, runs⟩⟩

/-- The slot of a producer that has passed its full check and not yet stored `m_head`. -/
def producerSlot (s : State S T) : Option (Fin S.cap) :=
  match s.producer with
  | .write _ _ h => some (S.slot h)
  | .storeHead _ h => some (S.slot h)
  | _ => none

/-- The slot of a consumer that has passed its empty check and not yet stored `m_tail`. -/
def consumerSlot (s : State S T) : Option (Fin S.cap) :=
  match s.consumer with
  | .read _ c => some (S.slot c)
  | .storeTail c _ => some (S.slot c)
  | _ => none

theorem producerSlot_eq {i : Fin S.cap} (holds : Inv start s) (reserved : producerSlot s = some i) :
    i = S.slot (nth start s.head.stores) ∧ s.head.stores + 1 < s.tail.seen .producer + S.cap := by
  have facts := holds.producer
  unfold producerSlot at reserved
  split at reserved
  next how x h pc =>
    cases reserved
    simp only [ProducerOk, pc] at facts
    exact ⟨facts.2.1 ▸ rfl, facts.2.2⟩
  next x h pc =>
    cases reserved
    simp only [ProducerOk, pc] at facts
    exact ⟨facts.2.1 ▸ rfl, facts.2.2⟩
  next => cases reserved

theorem consumerSlot_eq {i : Fin S.cap} (holds : Inv start s) (reserved : consumerSlot s = some i) :
    i = S.slot (nth start s.tail.stores) ∧ s.tail.stores < s.head.seen .consumer := by
  have facts := holds.consumer
  unfold consumerSlot at reserved
  split at reserved
  next into c pc =>
    cases reserved
    simp only [ConsumerOk, pc] at facts
    exact ⟨facts.1 ▸ rfl, facts.2⟩
  next c result pc =>
    cases reserved
    simp only [ConsumerOk, pc] at facts
    exact ⟨facts.1 ▸ rfl, facts.2.1⟩
  next => cases reserved

theorem rewritten_after_pop {n : Nat} {i : Fin S.cap} (holds : Inv start s)
    (reserved : producerSlot s = some i) (earlier : n < s.head.stores)
    (same : S.slot (nth start n) = i) : n < s.tail.seen .producer := by
  obtain ⟨here, room⟩ := producerSlot_eq holds reserved
  by_contra recent
  have equal := slot_injective n s.head.stores earlier.le (by omega) (same.trans here)
  omega

/-- Producer and consumer never hold the same slot, and a slot is rewritten only
after every item it held before has been popped and the pop published. -/
theorem slots_exclusive (E : Element T) (start : S.Size) (s : State S T)
    (reached : Reachable (step E) (initial E start) s) :
    (∀ i, ¬(producerSlot s = some i ∧ consumerSlot s = some i)) ∧
      ∀ i n, producerSlot s = some i → n < s.accepted.length → S.slot (nth start n) = i →
        n < s.tail.seen .producer ∧ s.tail.seen .producer ≤ s.delivered.length := by
  have holds := inv_reachable reached
  constructor
  · intro i both
    obtain ⟨writing, reading⟩ := both
    obtain ⟨written, room⟩ := producerSlot_eq holds writing
    obtain ⟨read, nonempty⟩ := consumerSlot_eq holds reading
    have viewHead := s.head.seen_le .consumer
    have viewTail := s.tail.seen_le .producer
    have equal := slot_injective s.tail.stores s.head.stores (by omega) (by omega)
      (read.symm.trans written)
    omega
  · intro i n writing earlier same
    rw [holds.accepted] at earlier
    rw [holds.delivered_length]
    exact ⟨rewritten_after_pop holds writing earlier same, s.tail.seen_le .producer⟩

theorem slots_exclusive_run :
    ∃ s : State fourSlots Int,
      run (step ints) (initial ints 0) (pushCall 7 .copy ++ ([.push .move, .pushLoadHead 0, .pushLoadTail 0,
        .pop .optional, .popLoadTail 0, .popLoadHead 0] : List (Action Int))) = some s ∧
      producerSlot s = some (fourSlots.slot 1) ∧ consumerSlot s = some (fourSlots.slot 0) ∧
      (∀ i, ¬(producerSlot s = some i ∧ consumerSlot s = some i)) ∧
      ∀ i n, producerSlot s = some i → n < s.accepted.length → fourSlots.slot (nth 0 n) = i →
        n < s.tail.seen .producer ∧ s.tail.seen .producer ≤ s.delivered.length := by
  have runs : run (step ints) (initial ints 0 : State fourSlots Int)
      (pushCall 7 .copy ++ ([.push .move, .pushLoadHead 0, .pushLoadTail 0,
        .pop .optional, .popLoadTail 0, .popLoadHead 0] : List (Action Int))) = some _ := rfl
  exact ⟨_, runs, rfl, rfl, slots_exclusive ints 0 _ ⟨_, runs⟩⟩

end Cpp20Showcase.Lockfree.SpscSafety
