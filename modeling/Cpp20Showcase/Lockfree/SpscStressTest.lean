import Cpp20Showcase.Lockfree.SpscTransfer
import Mathlib.Algebra.BigOperators.Intervals

/-! `StressTest_1M_Items` from `06_lockfree/test_lockfree.cpp`: both sides of the transfer
keep a checksum, the producer of what it has pushed and the consumer of what it has popped. -/

namespace Cpp20Showcase.Lockfree.SpscStressTest
open Lib Lib.TransitionSystem SpscQueue SpscTransfer

/-- `adding` and `summing` are the arguments of a `fetch_add` that is due. -/
structure Stress (S : Shape) where
  transfer : Transfer S
  sum_produced : BitVec 64
  sum_consumed : BitVec 64
  adding : Option Nat
  summing : Option Nat

inductive StressAction where
  | transfer (a : TransferAction)
  | addProduced
  | addConsumed

variable {S : Shape} {E : Element Nat} {N : Nat} {start : S.Size} {s t : Stress S} {w : Transfer S}
variable {a : TransferAction}

def initial (E : Element Nat) (start : S.Size) : Stress S where
  transfer := .initial E start
  sum_produced := 0
  sum_consumed := 0
  adding := none
  summing := none

/-- What `push` is about to return, if it has succeeded. -/
def pushed (t : Transfer S) : Option Nat :=
  match t.queue.producer with
  | .ret true _ => some t.sent
  | _ => none

def popped (t : Transfer S) : Option Nat :=
  match t.queue.consumer with
  | .ret result => result.value t.queue.out
  | _ => none

/-- A thread goes on with its loop once its `fetch_add` is done. -/
def ready (s : Stress S) : TransferAction → Bool
  | .produce | .pushReturn => s.adding.isNone
  | .consume | .popReturn => s.summing.isNone
  | .access _ => true

/-- The step with what it leaves to add. -/
def after (s : Stress S) (w : Transfer S) : TransferAction → Stress S
  | .pushReturn => { s with transfer := w, adding := pushed s.transfer }
  | .popReturn => { s with transfer := w, summing := popped s.transfer }
  | _ => { s with transfer := w }

def stressStep (E : Element Nat) (N : Nat) (s : Stress S) : StressAction → Option (Stress S)
  | .transfer a => if ready s a then (transferStep E N s.transfer a).map fun w => after s w a else none
  | .addProduced => s.adding.map fun i =>
      { s with sum_produced := s.sum_produced + BitVec.ofNat 64 i, adding := none }
  | .addConsumed => s.summing.map fun v =>
      { s with sum_consumed := s.sum_consumed + BitVec.ofNat 64 v, summing := none }

def Joined (N : Nat) (s : Stress S) : Prop := Finished N s.transfer ∧ s.adding = none ∧ s.summing = none

/-- `sum` has counted all of `total` but what is still due. -/
def Counted (sum : BitVec 64) (due : Option Nat) (total : Nat) : Prop :=
  ∃ n, sum = BitVec.ofNat 64 n ∧ n + due.getD 0 = total

structure Inv (N : Nat) (start : S.Size) (s : Stress S) : Prop where
  transfer : TransferInv N start s.transfer
  produced : Counted s.sum_produced s.adding (∑ i ∈ Finset.range s.transfer.sent, i)
  consumed : Counted s.sum_consumed s.summing s.transfer.received.sum

theorem Counted.later {sum : BitVec 64} {total i : Nat} (counted : Counted sum none total) :
    Counted sum (some i) (total + i) := by
  obtain ⟨n, same, rfl⟩ := counted
  exact ⟨n, same, rfl⟩

theorem Counted.add {sum : BitVec 64} {total i : Nat} (counted : Counted sum (some i) total) :
    Counted (sum + BitVec.ofNat 64 i) none total := by
  obtain ⟨n, rfl, rfl⟩ := counted
  exact ⟨n + i, by rw [BitVec.ofNat_add], rfl⟩

theorem Counted.total {sum : BitVec 64} {total : Nat} (counted : Counted sum none total) :
    sum = BitVec.ofNat 64 total := by
  obtain ⟨n, rfl, rfl⟩ := counted
  rfl

theorem inv_initial : Inv N start (initial E start) where
  transfer := transferInv_initial
  produced := ⟨0, rfl, rfl⟩
  consumed := ⟨0, rfl, rfl⟩

theorem pushReturn_sent (returned : afterPush s.transfer = some w) :
    w.received = s.transfer.received ∧
      ((pushed s.transfer = none ∧ w.sent = s.transfer.sent) ∨
        (pushed s.transfer = some s.transfer.sent ∧ w.sent = s.transfer.sent + 1)) := by
  unfold afterPush at returned
  split at returned
  next flag x pc =>
    obtain ⟨q, -, rfl⟩ := Option.map_eq_some_iff.mp returned
    cases flag with
    | false => exact ⟨rfl, .inl ⟨by simp only [pushed, pc], rfl⟩⟩
    | true => exact ⟨rfl, .inr ⟨by simp only [pushed, pc], rfl⟩⟩
  next => cases returned

theorem popReturn_received (returned : afterPop s.transfer = some w) :
    w.sent = s.transfer.sent ∧ w.received = s.transfer.received ++ (popped s.transfer).toList := by
  unfold afterPop at returned
  split at returned
  next result pc =>
    obtain ⟨q, -, rfl⟩ := Option.map_eq_some_iff.mp returned
    exact ⟨rfl, by simp only [popped, pc]⟩
  next => cases returned

theorem other_unchanged (moved : transferStep E N s.transfer a = some w) (push : a ≠ .pushReturn)
    (pop : a ≠ .popReturn) : w.sent = s.transfer.sent ∧ w.received = s.transfer.received := by
  cases a with
  | produce =>
    simp only [transferStep, produce] at moved
    split at moved
    next => obtain ⟨q, -, rfl⟩ := Option.map_eq_some_iff.mp moved; exact ⟨rfl, rfl⟩
    next => cases moved
  | consume =>
    simp only [transferStep, consume] at moved
    split at moved
    next => obtain ⟨q, -, rfl⟩ := Option.map_eq_some_iff.mp moved; exact ⟨rfl, rfl⟩
    next => cases moved
  | access b =>
    simp only [transferStep] at moved
    split at moved
    next => obtain ⟨q, -, rfl⟩ := Option.map_eq_some_iff.mp moved; exact ⟨rfl, rfl⟩
    next => cases moved
  | pushReturn => exact absurd rfl push
  | popReturn => exact absurd rfl pop

theorem Inv.transferStep (holds : Inv N start s) (free : ready s a = true)
    (moved : SpscTransfer.transferStep E N s.transfer a = some w) : Inv N start (after s w a) := by
  have transfer := transferInv_preserved s.transfer a w holds.transfer moved
  have other (push : a ≠ .pushReturn) (pop : a ≠ .popReturn) : Inv N start { s with transfer := w } := by
    obtain ⟨sent, received⟩ := other_unchanged moved push pop
    refine ⟨transfer, ?_, ?_⟩
    · rw [sent]
      exact holds.produced
    · rw [received]
      exact holds.consumed
  cases a with
  | produce => exact other nofun nofun
  | consume => exact other nofun nofun
  | access b => exact other nofun nofun
  | pushReturn =>
    obtain ⟨received, sent⟩ := pushReturn_sent moved
    have produced := holds.produced
    rw [Option.isNone_iff_eq_none.mp free] at produced
    refine ⟨transfer, ?_, by rw [after, received]; exact holds.consumed⟩
    simp only [after]
    obtain ⟨failed, same⟩ | ⟨succeeded, next⟩ := sent
    · rwa [failed, same]
    · rw [succeeded, next, Finset.sum_range_succ]
      exact produced.later
  | popReturn =>
    obtain ⟨sent, received⟩ := popReturn_received moved
    have consumed := holds.consumed
    rw [Option.isNone_iff_eq_none.mp free] at consumed
    refine ⟨transfer, by rw [after, sent]; exact holds.produced, ?_⟩
    simp only [after, received, List.sum_append]
    cases popped s.transfer with
    | none => exact consumed
    | some v => exact consumed.later

theorem inv_preserved : Preserved (stressStep E N) (Inv N start) := by
  intro s a t holds moved
  cases a with
  | transfer a =>
    simp only [stressStep] at moved
    split at moved
    next free =>
      obtain ⟨w, transferred, rfl⟩ := Option.map_eq_some_iff.mp moved
      exact holds.transferStep free transferred
    next => cases moved
  | addProduced =>
    obtain ⟨i, due, rfl⟩ := Option.map_eq_some_iff.mp moved
    have produced := holds.produced
    rw [due] at produced
    exact ⟨holds.transfer, produced.add, holds.consumed⟩
  | addConsumed =>
    obtain ⟨v, due, rfl⟩ := Option.map_eq_some_iff.mp moved
    have consumed := holds.consumed
    rw [due] at consumed
    exact ⟨holds.transfer, holds.produced, consumed.add⟩

def Settled (s : Stress S) : Prop := s.adding = none ∧ s.summing = none

theorem settles (s : Stress S) :
    ∃ t, Reachable (stressStep E N) s t ∧ Settled t ∧ t.transfer = s.transfer := by
  obtain ⟨t, first, none_left, same, transfer⟩ : ∃ t, Reachable (stressStep E N) s t ∧ t.adding = none ∧
      t.summing = s.summing ∧ t.transfer = s.transfer := by
    cases due : s.adding with
    | none => exact ⟨s, .refl, due, rfl, rfl⟩
    | some i =>
      have added : stressStep E N s .addProduced =
          some { s with sum_produced := s.sum_produced + BitVec.ofNat 64 i, adding := none } := by
        rw [stressStep, due, Option.map_some]
      exact ⟨_, .of_step added, rfl, rfl, rfl⟩
  cases due : t.summing with
  | none => exact ⟨t, first, ⟨none_left, due⟩, transfer⟩
  | some v =>
    have added : stressStep E N t .addConsumed =
        some { t with sum_consumed := t.sum_consumed + BitVec.ofNat 64 v, summing := none } := by
      rw [stressStep, due, Option.map_some]
    exact ⟨_, first.next added, ⟨none_left, rfl⟩, transfer⟩

theorem settled_step (settled : Settled s) (moved : currentStep E N s.transfer a = some w) :
    ∃ t, Reachable (stressStep E N) s t ∧ Settled t ∧ t.transfer = w := by
  have moved' : SpscTransfer.transferStep E N s.transfer a = some w := by
    cases a with
    | access b =>
      simp only [currentStep] at moved
      split at moved
      next => exact moved
      next => cases moved
    | _ => exact moved
  have free : ready s a = true := by
    cases a with
    | produce | pushReturn => exact Option.isNone_iff_eq_none.mpr settled.1
    | consume | popReturn => exact Option.isNone_iff_eq_none.mpr settled.2
    | access b => rfl
  have stepped : stressStep E N s (.transfer a) = some (after s w a) := by
    simp only [stressStep, free, ↓reduceIte, moved', Option.map_some]
  obtain ⟨t, reached, up, same⟩ := settles (E := E) (N := N) (after s w a)
  refine ⟨t, (Reachable.of_step stepped).trans reached, up, ?_⟩
  rw [same]
  cases a <;> rfl

theorem sum_range_list (n : Nat) : (List.range n).sum = ∑ i ∈ Finset.range n, i := by
  induction n with
  | zero => rfl
  | succ n ih => rw [List.range_succ, List.sum_append, List.sum_singleton, ih, Finset.sum_range_succ]

/-- Whatever the schedule and the views, the test can come to its end, and when it does both
checksums are what the assertions expect. -/
theorem stress_test_sums (E : Element Nat) (N : Nat) (start : S.Size) (s : Stress S)
    (reached : Reachable (stressStep E N) (initial E start) s) :
    (∃ t, Reachable (stressStep E N) s t ∧ Joined N t) ∧
      (Joined N s → s.sum_produced = s.sum_consumed ∧
        s.sum_consumed = BitVec.ofNat 64 (N * (N - 1) / 2)) := by
  have holds := reached.invariant inv_preserved inv_initial
  constructor
  · obtain ⟨u, up, settled, same⟩ := settles (E := E) (N := N) s
    obtain ⟨w, transferred, -, finished⟩ :=
      Reachable.of_rank (rank N) (fun _ => transfer_progress (E := E)) (same ▸ holds.transfer)
    obtain ⟨t, later, none_due, rfl⟩ := Reachable.lift (fun _ _ _ => settled_step) settled transferred
    exact ⟨t, up.trans later, finished, none_due⟩
  · intro joined
    obtain ⟨finished, adding, summing⟩ := joined
    have produced := holds.produced
    have consumed := holds.consumed
    rw [adding, finished.1] at produced
    rw [summing, finished_received holds.transfer finished, sum_range_list] at consumed
    refine ⟨produced.total.trans consumed.total.symm, ?_⟩
    rw [consumed.total, Finset.sum_range_id]

theorem stress_test_sums_retry :
    ∃ s : Stress fourSlots,
      run (stressStep ⟨0, id⟩ 5) (initial ⟨0, id⟩ 0)
        [.transfer .consume, .transfer .produce, .transfer (.access (.popLoadTail 0)),
          .transfer (.access (.popLoadHead 0)), .transfer .popReturn, .transfer .consume] = some s ∧
      (∃ t, Reachable (stressStep ⟨0, id⟩ 5) s t ∧ Joined 5 t) ∧
      (Joined 5 s → s.sum_produced = s.sum_consumed ∧ s.sum_consumed = BitVec.ofNat 64 (5 * (5 - 1) / 2)) := by
  have runs : run (stressStep ⟨0, id⟩ 5) (initial (S := fourSlots) ⟨0, id⟩ 0)
      [.transfer .consume, .transfer .produce, .transfer (.access (.popLoadTail 0)),
        .transfer (.access (.popLoadHead 0)), .transfer .popReturn, .transfer .consume] = some _ := rfl
  exact ⟨_, runs, stress_test_sums ⟨0, id⟩ 5 0 _ ⟨_, runs⟩⟩

end Cpp20Showcase.Lockfree.SpscStressTest
