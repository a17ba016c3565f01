import Cpp20Showcase.Lib.HappensBefore
import Cpp20Showcase.Lockfree.SpscInvariant

/-! The slots are not atomic: what orders the accesses to them are the release stores and
acquire loads of the counters. Relaxed loads, such as those of `size_approx`, order nothing. -/

namespace Cpp20Showcase.Lockfree.SpscHappensBefore
open Lib Lib.WrappingCounter Lib.TransitionSystem SpscQueue SpscInvariant

/-- The queue with the clocks that each store released, in the order of the histories, and
with the accesses to each slot. -/
structure Clocked (S : Shape) (T : Type) where
  queue : State S T
  clocks : Thread → Clock Thread
  headReleased : List (Clock Thread)
  tailReleased : List (Clock Thread)
  slots : Fin S.cap → Plain Thread T

variable {S : Shape} {T : Type} {E : Element T} {start : S.Size} {s t : Clocked S T} {q r : State S T}
variable {a : Action T} {clocks : Thread → Clock Thread}

def initialClocked (E : Element T) (start : S.Size) : Clocked S T where
  queue := initial E start
  clocks := fun _ _ => 0
  headReleased := [fun _ => 0]
  tailReleased := [fun _ => 0]
  slots := fun _ => .make E.fresh

/-- An access of `t` to slot `i` that leaves `v` there, in a step to `q`. -/
def Clocked.access (s : Clocked S T) (t : Thread) (i : Fin S.cap) (v : T) (q : State S T) : Clocked S T :=
  { s with
    queue := q
    clocks := tick s.clocks t
    slots := Function.update s.slots i ((s.slots i).write s.clocks t v) }

/-- The `memory_order` of each access; moving out of a slot writes to it. -/
def Clocked.order (E : Element T) (s : Clocked S T) (q : State S T) : Action T → Clocked S T
  | .pushLoadTail lag =>
      { s with queue := q, clocks := acquire s.clocks .producer (s.tailReleased[lag]?.getD fun _ => 0) }
  | .pushWrite =>
      match s.queue.producer with
      | .write _ _ head => s.access .producer (S.slot head) s.queue.item q
      | _ => { s with queue := q }
  | .pushStoreHead => { s with queue := q, headReleased := s.clocks .producer :: s.headReleased }
  | .popLoadHead lag =>
      { s with queue := q, clocks := acquire s.clocks .consumer (s.headReleased[lag]?.getD fun _ => 0) }
  | .popRead =>
      match s.queue.consumer with
      | .read _ tail => s.access .consumer (S.slot tail) (E.moved (s.slots (S.slot tail)).value) q
      | _ => { s with queue := q }
  | .popStoreTail => { s with queue := q, tailReleased := s.clocks .consumer :: s.tailReleased }
  | _ => { s with queue := q }

def stepClocked (E : Element T) (s : Clocked S T) (a : Action T) : Option (Clocked S T) :=
  (step E s.queue a).map fun q => s.order E q a

/-- A side is about to access its slot while an access of the other did not happen before. -/
def Racy (s : Clocked S T) : Prop :=
  (∃ how x h, s.queue.producer = .write how x h ∧ ¬(s.slots (S.slot h)).Writable (s.clocks .producer)) ∨
    ∃ into c, s.queue.consumer = .read into c ∧ ¬(s.slots (S.slot c)).Writable (s.clocks .consumer)

def written (q : State S T) : Nat :=
  match q.producer with
  | .storeHead _ _ => q.head.stores + 1
  | _ => q.head.stores

/-- What the full check has shown by an acquired store. -/
def Room (clocks : Thread → Clock Thread) (q : State S T) : Prop :=
  ∀ how x h, q.producer = .write how x h → q.head.stores + 1 < clocks .producer .consumer + S.cap

/-- What the empty check has shown by an acquired store. -/
def Present (clocks : Thread → Clock Thread) (q : State S T) : Prop :=
  ∀ into c, q.consumer = .read into c → q.tail.stores < clocks .consumer .producer

/-- Access number `n + 1` of either side is that to the slot of item `n`. -/
def Accessed (start : S.Size) (q : State S T) (i : Fin S.cap) (a : Access Thread) : Prop :=
  ∃ n, a.number = n + 1 ∧ S.slot (nth start n) = i ∧
    ((a.thread = .producer ∧ n < written q) ∨ (a.thread = .consumer ∧ n < taken q))

structure Ordered (start : S.Size) (s : Clocked S T) : Prop where
  queue : Inv start s.queue
  written : s.clocks .producer .producer = written s.queue
  taken : s.clocks .consumer .consumer = taken s.queue
  known : ∀ u, Bounded s.clocks (s.clocks u)
  head : Releases s.clocks .producer s.queue.head.stores s.headReleased
  tail : Releases s.clocks .consumer s.queue.tail.stores s.tailReleased
  room : Room s.clocks s.queue
  present : Present s.clocks s.queue
  accessed : ∀ i, ∀ a ∈ (s.slots i).writes ++ (s.slots i).reads, Accessed start s.queue i a
  value : ∀ i, (s.slots i).value = s.queue.buffer i

theorem room_mono {clocks' : Thread → Clock Thread} (room : Room clocks q) (pc : r.producer = q.producer)
    (head : r.head.stores = q.head.stores) (le : ∀ u w, clocks u w ≤ clocks' u w) : Room clocks' r := by
  intro how x h here
  rw [head]
  exact (room how x h (pc ▸ here)).trans_le (Nat.add_le_add_right (le _ _) _)

theorem present_mono {clocks' : Thread → Clock Thread} (present : Present clocks q)
    (pc : r.consumer = q.consumer) (tail : r.tail.stores = q.tail.stores)
    (le : ∀ u w, clocks u w ≤ clocks' u w) : Present clocks' r := by
  intro into c here
  rw [tail]
  exact (present into c (pc ▸ here)).trans_le (le _ _)

structure Unmoved (q r : State S T) : Prop where
  head : r.head.stores = q.head.stores
  tail : r.tail.stores = q.tail.stores
  written : written r = written q
  taken : taken r = taken q
  buffer : r.buffer = q.buffer

theorem Ordered.unmoved (holds : Ordered start s) (queue : Inv start q) (same : Unmoved s.queue q)
    (own : ∀ u, clocks u u = s.clocks u u) (known : ∀ u, Bounded clocks (clocks u)) (room : Room clocks q)
    (present : Present clocks q) : Ordered start { s with queue := q, clocks := clocks } where
  queue := queue
  written := (own _).trans (holds.written.trans same.written.symm)
  taken := (own _).trans (holds.taken.trans same.taken.symm)
  known := known
  head := same.head ▸ holds.head.mono fun w => (own w).ge
  tail := same.tail ▸ holds.tail.mono fun w => (own w).ge
  room := room
  present := present
  accessed := by
    intro i a member
    rw [Accessed, same.written, same.taken]
    exact holds.accessed i a member
  value := fun i => (holds.value i).trans (congrFun same.buffer i).symm

theorem Ordered.quiet (holds : Ordered start s) (queue : Inv start q) (same : Unmoved s.queue q)
    (room : Room s.clocks q) (present : Present s.clocks q) : Ordered start { s with queue := q } :=
  holds.unmoved queue same (fun _ => rfl) holds.known room present

theorem Ordered.acquired {u : Thread} {c : Clock Thread} (holds : Ordered start s)
    (queue : Inv start q) (same : Unmoved s.queue q) (bounded : Bounded s.clocks c)
    (room : Room (acquire s.clocks u c) q) (present : Present (acquire s.clocks u c) q) :
    Ordered start { s with queue := q, clocks := acquire s.clocks u c } :=
  holds.unmoved queue same (fun _ => bounded.acquire_own) (bounded.acquire holds.known) room present

theorem accessed_mono {i : Fin S.cap} {b : Access Thread} (accessed : Accessed start q i b)
    (more : written q ≤ written r) (later : taken q ≤ taken r) : Accessed start r i b := by
  obtain ⟨n, number, slot, producer | consumer⟩ := accessed
  · exact ⟨n, number, slot, .inl ⟨producer.1, producer.2.trans_le more⟩⟩
  · exact ⟨n, number, slot, .inr ⟨consumer.1, consumer.2.trans_le later⟩⟩

theorem Ordered.access {u : Thread} {i : Fin S.cap} {v : T} (holds : Ordered start s)
    (queue : Inv start q) (head : q.head.stores = s.queue.head.stores)
    (tail : q.tail.stores = s.queue.tail.stores)
    (more : SpscHappensBefore.written q = tick s.clocks u .producer .producer)
    (later : SpscInvariant.taken q = tick s.clocks u .consumer .consumer)
    (fresh : Accessed start q i ⟨u, s.clocks u u + 1⟩)
    (value : v = q.buffer i) (others : ∀ j, j ≠ i → q.buffer j = s.queue.buffer j) (room : Room s.clocks q)
    (present : Present s.clocks q) : Ordered start (s.access u i v q) where
  queue := queue
  written := more.symm
  taken := later.symm
  known := Bounded.tick holds.known
  head := head ▸ holds.head.mono fun w => le_tick
  tail := tail ▸ holds.tail.mono fun w => le_tick
  room := room_mono room rfl rfl fun _ _ => le_tick
  present := present_mono present rfl rfl fun _ _ => le_tick
  accessed := by
    have earlier : ∀ j, ∀ b ∈ (s.slots j).writes ++ (s.slots j).reads, Accessed start q j b := by
      intro j b member
      apply accessed_mono (holds.accessed j b member)
      · rw [more, ← holds.written]
        exact le_tick
      · rw [later, ← holds.taken]
        exact le_tick
    intro j b member
    by_cases same : j = i
    · subst same
      simp only [Clocked.access, Function.update_self, Plain.write, List.cons_append, List.mem_cons] at member
      obtain rfl | before := member
      · exact fresh
      · exact earlier j b before
    · simp only [Clocked.access, Function.update_of_ne same] at member
      exact earlier j b member
  value := by
    intro j
    by_cases same : j = i
    · subst same
      simp only [Clocked.access, Function.update_self, Plain.write, value]
    · simp only [Clocked.access, Function.update_of_ne same, holds.value j, others j same]

theorem Ordered.pushWrite {how : Passing} {x : T} {h : S.Size} (holds : Ordered start s)
    (pc : s.queue.producer = .write how x h) (queue : Inv start q)
    (same : q = { s.queue with
      buffer := Function.update s.queue.buffer (S.slot h) s.queue.item
      item := E.forwarded how s.queue.item
      producer := .storeHead x h }) : Ordered start (s.access .producer (S.slot h) s.queue.item q) := by
  have facts := holds.queue.producer
  simp only [ProducerOk, pc] at facts
  obtain ⟨-, rfl, -⟩ := facts
  have count := holds.written
  simp only [SpscHappensBefore.written, pc] at count
  subst same
  refine holds.access queue rfl rfl ?_ ?_ ?_ ?_ ?_ (by rintro _ _ _ ⟨⟩) ?_
  · rw [tick_self, count]
    rfl
  · rw [tick_other (by decide), holds.taken]
    rfl
  · exact ⟨_, congrArg (· + 1) count, rfl, .inl ⟨rfl, Nat.lt_succ_self _⟩⟩
  · simp only [Function.update_self]
  · exact fun j other => Function.update_of_ne other _ _
  · exact present_mono holds.present rfl rfl fun _ _ => le_rfl

theorem Ordered.popRead {into : Into} {c : S.Size} {out : T} {result : PopResult T} (holds : Ordered start s)
    (pc : s.queue.consumer = .read into c) (queue : Inv start q)
    (same : q = { s.queue with
      buffer := Function.update s.queue.buffer (S.slot c) (E.moved (s.queue.buffer (S.slot c)))
      out := out
      consumer := .storeTail c result }) :
    Ordered start (s.access .consumer (S.slot c) (E.moved (s.slots (S.slot c)).value) q) := by
  have facts := holds.queue.consumer
  simp only [ConsumerOk, pc] at facts
  obtain ⟨rfl, -⟩ := facts
  have count := holds.taken
  simp only [SpscInvariant.taken, pc] at count
  subst same
  refine holds.access queue rfl rfl ?_ ?_ ?_ ?_ ?_ ?_ (by rintro _ _ ⟨⟩)
  · rw [tick_other (by decide), holds.written]
    rfl
  · rw [tick_self, count]
    rfl
  · exact ⟨_, congrArg (· + 1) count, rfl, .inr ⟨rfl, Nat.lt_succ_self _⟩⟩
  · simp only [holds.value, Function.update_self]
  · exact fun j other => Function.update_of_ne other _ _
  · exact room_mono holds.room rfl rfl fun _ _ => le_rfl

theorem Ordered.pushStoreHead {x : T} {h : S.Size} (holds : Ordered start s)
    (pc : s.queue.producer = .storeHead x h) (queue : Inv start q)
    (same : q = { s.queue with
      head := s.queue.head.store .producer (h + 1#S.bits)
      producer := .ret true x
      accepted := s.queue.accepted ++ [x] }) :
    Ordered start { s with queue := q, headReleased := s.clocks .producer :: s.headReleased } := by
  have count := holds.written
  simp only [SpscHappensBefore.written, pc] at count
  subst same
  exact
    { queue := queue
      written := count
      taken := holds.taken
      known := holds.known
      head := holds.head.store (holds.known .producer) count.ge
      tail := holds.tail
      room := by rintro _ _ _ ⟨⟩
      present := present_mono holds.present rfl rfl fun _ _ => le_rfl
      accessed := by
        intro i b member
        refine accessed_mono (holds.accessed i b member) ?_ le_rfl
        simp only [SpscHappensBefore.written, pc]
        exact le_rfl
      value := holds.value }

theorem Ordered.popStoreTail {c : S.Size} {result : PopResult T} (holds : Ordered start s)
    (pc : s.queue.consumer = .storeTail c result) (queue : Inv start q)
    (same : q = { s.queue with
      tail := s.queue.tail.store .consumer (c + 1#S.bits)
      consumer := .ret result
      delivered := s.queue.delivered ++ (result.value s.queue.out).toList }) :
    Ordered start { s with queue := q, tailReleased := s.clocks .consumer :: s.tailReleased } := by
  have count := holds.taken
  simp only [SpscInvariant.taken, pc] at count
  subst same
  exact
    { queue := queue
      written := holds.written
      taken := count
      known := holds.known
      head := holds.head
      tail := holds.tail.store (holds.known .consumer) count.ge
      room := room_mono holds.room rfl rfl fun _ _ => le_rfl
      present := by rintro _ _ ⟨⟩
      accessed := by
        intro i b member
        refine accessed_mono (holds.accessed i b member) le_rfl ?_
        simp only [SpscInvariant.taken, pc]
        exact le_rfl
      value := holds.value }

theorem load_lag {head tail : Atomic Thread S.Size} {u : Thread} {lag : Nat} {v : S.Size}
    (counts : head.Counts start) (read : head.load u lag = some (v, tail)) :
    lag ≤ head.stores ∧ head.seen u ≤ head.stores - lag ∧ v = nth start (head.stores - lag) := by
  obtain ⟨found, fresh, -⟩ := Atomic.load_cases read
  have inside := (List.getElem?_eq_some_iff.mp found).1
  rw [Atomic.history, List.length_cons] at inside
  exact ⟨Nat.le_of_lt_succ inside, fresh, counts lag v found⟩

/-- The full check of `push_impl` acquires what its answer rests on. -/
theorem Ordered.pushLoadTail {lag : Nat} {how : Passing} {x : T} {h v : S.Size} {tail : Atomic Thread S.Size}
    {pc : ProducerPc S T} (holds : Ordered start s) (before : s.queue.producer = .loadTail how x h)
    (read : s.queue.tail.load .producer lag = some (v, tail))
    (checked : pc = .ret false x ∨ pc = .write how x h ∧ h - v ≠ S.capacity - 1#S.bits)
    (queue : Inv start { s.queue with tail := tail, producer := pc }) :
    Ordered start
      { s with
        queue := { s.queue with tail := tail, producer := pc }
        clocks := acquire s.clocks .producer (s.tailReleased[lag]?.getD fun _ => 0) } := by
  obtain ⟨present, fresh, rfl⟩ := load_lag holds.queue.counters.tailCounts read
  obtain ⟨c, released, bounded, due⟩ := holds.tail.load present
  have facts := holds.queue.producer
  simp only [ProducerOk, before] at facts
  obtain ⟨-, rfl⟩ := facts
  rw [released, Option.getD_some]
  refine holds.acquired queue ⟨rfl, Atomic.load_stores read, ?_, ?_, rfl⟩ bounded ?_ ?_
  · obtain rfl | ⟨rfl, -⟩ := checked <;> simp only [SpscHappensBefore.written, before]
  · simp only [SpscInvariant.taken, Atomic.load_stores read]
  · intro how' x' h' here
    obtain rfl | ⟨rfl, room⟩ := checked
    · cases here
    · have far := holds.queue.counters.room_of_ne (Nat.sub_le _ _) fresh room
      have gained : c .consumer ≤ acquire s.clocks .producer c .producer .consumer := released_le_acquire
      change s.queue.head.stores + 1 < _
      omega
  · exact present_mono holds.present rfl (Atomic.load_stores read) fun _ _ => le_acquire

theorem Ordered.popLoadHead {lag : Nat} {into : Into} {c v : S.Size} {head : Atomic Thread S.Size}
    {pc : ConsumerPc S T} (holds : Ordered start s) (before : s.queue.consumer = .loadHead into c)
    (read : s.queue.head.load .consumer lag = some (v, head))
    (checked : pc = .ret into.nothing ∨ pc = .read into c ∧ c ≠ v)
    (queue : Inv start { s.queue with head := head, consumer := pc }) :
    Ordered start
      { s with
        queue := { s.queue with head := head, consumer := pc }
        clocks := acquire s.clocks .consumer (s.headReleased[lag]?.getD fun _ => 0) } := by
  obtain ⟨present, fresh, rfl⟩ := load_lag holds.queue.counters.headCounts read
  obtain ⟨d, released, bounded, due⟩ := holds.head.load present
  have facts := holds.queue.consumer
  simp only [ConsumerOk, before] at facts
  subst facts
  rw [released, Option.getD_some]
  refine holds.acquired queue ⟨Atomic.load_stores read, rfl, ?_, ?_, rfl⟩ bounded ?_ ?_
  · simp only [SpscHappensBefore.written, Atomic.load_stores read]
  · obtain rfl | ⟨rfl, -⟩ := checked <;> simp only [SpscInvariant.taken, before]
  · exact room_mono holds.room rfl (Atomic.load_stores read) fun _ _ => le_acquire
  · intro into' c' here
    obtain rfl | ⟨rfl, nonempty⟩ := checked
    · cases here
    · have ahead := holds.queue.counters.ahead
      have different : s.queue.tail.stores ≠ s.queue.head.stores - lag := fun same => nonempty (same ▸ rfl)
      have gained : d .producer ≤ acquire s.clocks .consumer d .consumer .producer := released_le_acquire
      change s.queue.tail.stores < _
      omega

theorem taken_le_head (holds : Inv start q) : SpscInvariant.taken q ≤ q.head.stores := by
  have ordered := holds.counters.tail_le_head
  have published := q.head.seen_le .consumer
  have facts := holds.consumer
  unfold SpscInvariant.taken
  split
  next c result pc =>
    simp only [ConsumerOk, pc] at facts
    omega
  next => exact ordered

theorem written_le (holds : Inv start q) : written q ≤ q.tail.stores + S.cap := by
  have near := holds.counters.head_lt
  unfold written
  split <;> omega

theorem ordered_move (holds : Ordered start s) (move : Move E s.queue a q) :
    Ordered start (s.order E q a) := by
  have room {r : State S T} := fun pc head => room_mono (r := r) holds.room pc head fun _ _ => le_rfl
  have present {r : State S T} := fun pc tail => present_mono (r := r) holds.present pc tail fun _ _ => le_rfl
  have queue := inv_move holds.queue move
  cases move with
  | setItem pc => exact holds.quiet queue ⟨rfl, rfl, rfl, rfl, rfl⟩ (room rfl rfl) (present rfl rfl)
  | push pc free =>
    exact holds.quiet queue ⟨rfl, rfl, by simp only [SpscHappensBefore.written, pc], rfl, rfl⟩
      (by rintro _ _ _ ⟨⟩) (present rfl rfl)
  | pushLoadHead pc read =>
    have stores := Atomic.load_stores read
    exact holds.quiet queue
      ⟨stores, rfl, by simp only [SpscHappensBefore.written, pc, stores], rfl, rfl⟩
      (by rintro _ _ _ ⟨⟩) (present rfl rfl)
  | pushFull pc read full => exact holds.pushLoadTail pc read (.inl rfl) queue
  | pushRoom pc read more =>
    exact holds.pushLoadTail pc read (.inr ⟨rfl, more⟩) queue
  | pushWrite pc =>
    simp only [Clocked.order, pc]
    exact holds.pushWrite pc queue rfl
  | pushStoreHead pc => exact holds.pushStoreHead pc queue rfl
  | pushReturn pc =>
    exact holds.quiet queue ⟨rfl, rfl, by simp only [SpscHappensBefore.written, pc], rfl, rfl⟩
      (by rintro _ _ _ ⟨⟩) (present rfl rfl)
  | setOut pc => exact holds.quiet queue ⟨rfl, rfl, rfl, rfl, rfl⟩ (room rfl rfl) (present rfl rfl)
  | pop pc free =>
    exact holds.quiet queue ⟨rfl, rfl, rfl, by simp only [SpscInvariant.taken, pc], rfl⟩
      (room rfl rfl) (by rintro _ _ ⟨⟩)
  | popLoadTail pc read =>
    have stores := Atomic.load_stores read
    exact holds.quiet queue
      ⟨rfl, stores, rfl, by simp only [SpscInvariant.taken, pc, stores], rfl⟩
      (room rfl rfl) (by rintro _ _ ⟨⟩)
  | popEmpty pc read => exact holds.popLoadHead pc read (.inl rfl) queue
  | popSome pc read more => exact holds.popLoadHead pc read (.inr ⟨rfl, more⟩) queue
  | popReference pc =>
    simp only [Clocked.order, pc]
    exact holds.popRead pc queue rfl
  | popOptional pc =>
    simp only [Clocked.order, pc]
    exact holds.popRead pc queue rfl
  | popStoreTail pc => exact holds.popStoreTail pc queue rfl
  | popReturn pc =>
    exact holds.quiet queue ⟨rfl, rfl, rfl, by simp only [SpscInvariant.taken, pc], rfl⟩
      (room rfl rfl) (by rintro _ _ ⟨⟩)
  | size pc free =>
    exact holds.quiet queue ⟨rfl, rfl, rfl, rfl, rfl⟩ (room rfl rfl) (present rfl rfl)
  | sizeLoadHead pc read =>
    have stores := Atomic.load_stores read
    exact holds.quiet queue
      ⟨stores, rfl, by simp only [SpscHappensBefore.written, stores], rfl, rfl⟩ (room rfl stores) (present rfl rfl)
  | sizeLoadTail pc read =>
    have stores := Atomic.load_stores read
    exact holds.quiet queue
      ⟨rfl, stores, rfl, by simp only [SpscInvariant.taken, stores], rfl⟩ (room rfl rfl) (present rfl stores)
  | sizeReturn pc =>
    exact holds.quiet queue ⟨rfl, rfl, rfl, rfl, rfl⟩ (room rfl rfl) (present rfl rfl)

theorem ordered_preserved : Preserved (stepClocked E) (Ordered (T := T) start) := by
  intro s a t holds moved
  obtain ⟨q, queued, rfl⟩ := Option.map_eq_some_iff.mp moved
  exact ordered_move holds (step_move queued)

theorem ordered_initial : Ordered start (initialClocked E start) where
  queue := inv_initial
  written := rfl
  taken := rfl
  known := fun _ _ => le_rfl
  head := releases_initial
  tail := releases_initial
  room := nofun
  present := nofun
  accessed := nofun
  value := fun _ => rfl

theorem Ordered.not_racy (holds : Ordered start s) : ¬Racy s := by
  have near := holds.queue.counters.head_lt
  intro racy
  obtain ⟨how, x, h, pc, races⟩ | ⟨into, c, pc, races⟩ := racy
  · have facts := holds.queue.producer
    simp only [ProducerOk, pc] at facts
    obtain ⟨-, rfl, -⟩ := facts
    have count := holds.written
    simp only [SpscHappensBefore.written, pc] at count
    have room := holds.room how x _ pc
    have popped := taken_le_head holds.queue
    apply races
    intro b member
    obtain ⟨n, number, slot, ⟨thread, earlier⟩ | ⟨thread, earlier⟩⟩ := holds.accessed _ b member
    · simp only [SpscHappensBefore.written, pc] at earlier
      rw [Access.Before, thread, number, count]
      exact earlier
    · rw [Access.Before, thread, number]
      by_contra later
      have equal := slot_injective n s.queue.head.stores (by omega) (by omega) slot
      omega
  · have facts := holds.queue.consumer
    simp only [ConsumerOk, pc] at facts
    obtain ⟨rfl, -⟩ := facts
    have count := holds.taken
    simp only [SpscInvariant.taken, pc] at count
    have present := holds.present into _ pc
    have pushed := written_le holds.queue
    apply races
    intro b member
    obtain ⟨n, number, slot, ⟨thread, earlier⟩ | ⟨thread, earlier⟩⟩ := holds.accessed _ b member
    · rw [Access.Before, thread, number]
      by_contra later
      have equal := slot_injective s.queue.tail.stores n (by omega) (by omega) slot.symm
      omega
    · simp only [SpscInvariant.taken, pc] at earlier
      rw [Access.Before, thread, number, count]
      exact earlier

/-- Whatever stores the loads miss, every state that the queue reaches is one in which the
orders of its accesses keep the slots free of races, with the clocks of the same steps. -/
theorem slots_race_free (E : Element T) (start : S.Size) (acts : List (Action T)) (q : State S T)
    (runs : run (step E) (initial E start) acts = some q) :
    ∃ s, run (stepClocked E) (initialClocked E start) acts = some s ∧ s.queue = q ∧ ¬Racy s ∧
      ∀ i, (s.slots i).value = q.buffer i := by
  have behind : ∀ (s : Clocked S T) a r, step E s.queue a = some r →
      ∃ t, stepClocked E s a = some t ∧ t.queue = r := by
    intro s a r queued
    refine ⟨s.order E r a, by rw [stepClocked, queued]; rfl, ?_⟩
    unfold Clocked.order
    split
    case h_2 | h_5 => split <;> rfl
    all_goals rfl
  obtain ⟨s, clocked, rfl⟩ := run_lift (s := initialClocked E start) behind runs
  have holds := ordered_preserved.run ordered_initial clocked
  exact ⟨s, clocked, rfl, holds.not_racy, holds.value⟩

/-- Once around the ring, up to the write of slot 0 by a push that has missed the last pop. -/
def lap : List (Action Int) :=
  List.flatten [pushCall 7 .copy, pushCall 8 .move, pushCall 9 .copy, popCall .optional, pushCall 10 .move,
    popCall .reference, popCall .optional, [.push .move, .pushLoadHead 0, .pushLoadTail 1]]

theorem slots_race_free_lap :
    ∃ q : State fourSlots Int,
      run (step ints) (initial ints 0) lap = some q ∧ q.producer = .write .move 10 4#64 ∧
      ∃ s, run (stepClocked ints) (initialClocked ints 0) lap = some s ∧ s.queue = q ∧ ¬Racy s ∧
        ∀ i, (s.slots i).value = q.buffer i := by
  have runs : run (step ints) (initial ints 0 : State fourSlots Int) lap = some _ := rfl
  exact ⟨_, runs, rfl, slots_race_free ints 0 lap _ runs⟩

end Cpp20Showcase.Lockfree.SpscHappensBefore
