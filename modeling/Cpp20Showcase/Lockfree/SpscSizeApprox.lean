import Cpp20Showcase.Lockfree.SpscInvariant

/-! `size_approx` reads `m_head` and then `m_tail`. Pops published between the two
loads make the second count too new for the first; once they overtake it, the
unsigned difference wraps. -/

namespace Cpp20Showcase.Lockfree.SpscSizeApprox
open Lib Lib.WrappingCounter Lib.TransitionSystem SpscQueue SpscInvariant

variable {S : Shape} {T : Type} {E : Element T} {start : S.Size} {s t : State S T} {a : Action T}

def publishesPop : Action T → Bool
  | .popStoreTail => true
  | _ => false

def popsPublished (acts : List (Action T)) : Nat := acts.countP publishesPop

def sizeCaller : Action T → Option Thread
  | .size u => some u
  | .sizeLoadHead u _ => some u
  | .sizeLoadTail u _ => some u
  | .sizeReturn u => some u
  | _ => none

theorem tail_stores_move (move : Move E s a t) :
    t.tail.stores = s.tail.stores + if publishesPop a then 1 else 0 := by
  cases move with
  | pushFull pc read | pushRoom pc read | popLoadTail pc read | sizeLoadTail pc read =>
    exact Atomic.load_stores read
  | _ => rfl

theorem tail_stores_run {acts : List (Action T)} (runs : run (step E) s acts = some t) :
    t.tail.stores = s.tail.stores + popsPublished acts := by
  induction acts generalizing s with
  | nil =>
    cases runs
    rfl
  | cons a acts ih =>
    obtain ⟨u, first, rest⟩ := run_cons.mp runs
    rw [ih rest, tail_stores_move (step_move first), popsPublished, popsPublished, List.countP_cons]
    omega

theorem size_move {u : Thread} (move : Move E s a t) (other : sizeCaller a ≠ some u) :
    t.size u = s.size u := by
  cases move with
  | size | sizeLoadHead | sizeLoadTail | sizeReturn =>
    exact Function.update_of_ne (fun same => other (congrArg some same.symm)) _ _
  | _ => rfl

theorem size_run {u : Thread} {acts : List (Action T)} (runs : run (step E) s acts = some t)
    (others : ∀ a ∈ acts, sizeCaller a ≠ some u) : t.size u = s.size u := by
  induction acts generalizing s with
  | nil =>
    cases runs
    rfl
  | cons a acts ih =>
    obtain ⟨v, first, rest⟩ := run_cons.mp runs
    have kept := ih rest (fun b member => others b (List.mem_cons_of_mem _ member))
    exact kept.trans (size_move (step_move first) (others a List.mem_cons_self))

theorem sizeLoadHead_latest {u : Thread} (move : step E s (.sizeLoadHead u 0) = some t) :
    t.size u = .loadTail s.head.current ∧ t.tail = s.tail := by
  cases step_move move with
  | sizeLoadHead pc read =>
    rw [Atomic.load_latest] at read
    cases read
    exact ⟨Function.update_self _ _ _, rfl⟩

theorem sizeLoadTail_latest {u : Thread} {h : S.Size} (pc : s.size u = .loadTail h)
    (move : step E s (.sizeLoadTail u 0) = some t) : t.size u = .ret (h - s.tail.current) := by
  cases step_move move with
  | sizeLoadTail pc' read =>
    rw [Atomic.load_latest] at read
    cases read
    cases pc.symm.trans pc'
    exact Function.update_self _ _ _

/-- For a call that loads `m_head` in `s` and `m_tail` after `acts`, and reads the latest
store both times, the size is at most `Capacity - 1` exactly if, counted modulo the counter's range, the pops
published in between do not exceed what was queued in `s`, or exceed it by all but
fewer than `Capacity` of a whole turn of the counter. -/
theorem size_approx_bounded_iff (E : Element T) (start : S.Size) (u : Thread)
    (s first last t : State S T) (acts : List (Action T))
    (reached : Reachable (step E) (initial E start) s)
    (loadsHead : step E s (.sizeLoadHead u 0) = some first)
    (between : run (step E) first acts = some last)
    (others : ∀ a ∈ acts, sizeCaller a ≠ some u)
    (loadsTail : step E last (.sizeLoadTail u 0) = some t) :
    ∃ size, t.size u = .ret size ∧
      (size.toNat ≤ S.cap - 1 ↔
        popsPublished acts % 2 ^ S.bits ≤ s.queued.length ∨
          2 ^ S.bits + s.queued.length < popsPublished acts % 2 ^ S.bits + S.cap) := by
  have holds := inv_reachable reached
  have middle := reached.next loadsHead
  have later := inv_reachable (middle.trans ⟨acts, between⟩)
  obtain ⟨waits, sameTail⟩ := sizeLoadHead_latest loadsHead
  have pc := (size_run between others).trans waits
  have popped := tail_stores_run between
  rw [sameTail] at popped
  have ordered := holds.counters.tail_le_head
  have near := holds.counters.head_lt
  have below := cap_lt S
  refine ⟨_, sizeLoadTail_latest pc loadsTail, ?_⟩
  have counted : s.head.current - last.tail.current =
      nth start (s.tail.stores + s.queued.length) -
        nth start (s.tail.stores + popsPublished acts) := by
    rw [holds.counters.headCounts.current, later.counters.tailCounts.current, popped,
      holds.queued_length, Nat.add_sub_cancel' ordered]
  have rest := Nat.mod_lt (popsPublished acts) (Nat.two_pow_pos S.bits)
  have length := holds.queued_length
  rw [counted, toNat_nth_sub start _ _ _ (by omega)]
  split <;> omega

/-- An observer that is overtaken by one pop. -/
def overtaking : List (Action Int) :=
  ([.size (.observer 0), .sizeLoadHead (.observer 0) 0] : List (Action Int)) ++ pushCall 7 .copy ++
    popCall .reference ++ ([.sizeLoadTail (.observer 0) 0] : List (Action Int))

/-- Between the two loads of the observer one item goes in and out; it is told that
`2 ^ 64 - 1` items are queued. -/
theorem size_approx_overtaken :
    ∃ t : State fourSlots Int, run (step ints) (initial ints 0) overtaking = some t ∧
      t.size (.observer 0) = .ret (BitVec.ofNat 64 (2 ^ 64 - 1)) ∧
      ¬(BitVec.ofNat 64 (2 ^ 64 - 1)).toNat ≤ fourSlots.cap - 1 := by
  have runs : run (step ints) (initial ints 0 : State fourSlots Int) overtaking = some _ := rfl
  exact ⟨_, runs, rfl, by decide⟩

theorem size_approx_bounded_iff_overtaken :
    ∃ (s t : State fourSlots Int) (size : fourSlots.Size),
      Reachable (step ints) (initial ints 0) s ∧ t.size (.observer 0) = .ret size ∧
      (size.toNat ≤ fourSlots.cap - 1 ↔ 1 % 2 ^ 64 ≤ s.queued.length ∨
          2 ^ 64 + s.queued.length < 1 % 2 ^ 64 + fourSlots.cap) := by
  have called : step ints (initial ints 0 : State fourSlots Int) (.size (.observer 0)) = some _ := rfl
  have reached := Reachable.of_step called
  obtain ⟨size, returned, bounded⟩ := size_approx_bounded_iff ints 0 (.observer 0) _ _ _ _
    (pushCall 7 .copy ++ popCall .reference) reached rfl rfl (by decide) rfl
  exact ⟨_, _, size, reached, returned, bounded⟩

end Cpp20Showcase.Lockfree.SpscSizeApprox
