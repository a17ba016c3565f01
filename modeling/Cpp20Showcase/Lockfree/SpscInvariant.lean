import Cpp20Showcase.Lockfree.SpscQueue

/-! What every reachable state of the ring satisfies. The counters are read as the
numbers of stores made to them, which do not wrap: `tail ≤` the consumer's view of
`head ≤ head <` the producer's view of `tail + Capacity`. -/

namespace Cpp20Showcase.Lockfree.SpscInvariant
open Lib Lib.WrappingCounter Lib.TransitionSystem SpscQueue

variable {S : Shape} {T : Type} {E : Element T} {start : S.Size} {s t : State S T} {a : Action T}

theorem cap_lt (S : Shape) : S.cap < 2 ^ S.bits := S.capacity.isLt

theorem two_le_cap (S : Shape) : 2 ≤ S.cap := S.atLeastTwo

theorem slot_injective (m n : Nat) (ordered : m ≤ n) (near : n < m + S.cap)
    (same : S.slot (nth start m) = S.slot (nth start n)) : m = n := by
  obtain ⟨k, single⟩ := S.singleBit
  have narrow : k ≤ S.bits := by
    have below := cap_lt S
    rw [Shape.cap, single] at below
    exact (Nat.pow_lt_pow_iff_right (by decide)).mp below |>.le
  have remainders := congrArg Fin.val same
  simp only [Shape.slot, S.toNat_and_kMask] at remainders
  rw [Shape.cap, single] at remainders near
  exact nth_mod_injective start m n k narrow ordered near remainders

/-- The order between the counters and what each side knows of the other. -/
structure Counters (S : Shape) (start : S.Size) (head tail : Atomic Thread S.Size) : Prop where
  headCounts : head.Counts start
  tailCounts : tail.Counts start
  headOwn : head.seen .producer = head.stores
  tailOwn : tail.seen .consumer = tail.stores
  ahead : tail.stores ≤ head.seen .consumer
  room : head.stores < tail.seen .producer + S.cap

/-- Every accepted item from number `taken` on is still in its slot. -/
def Filled (start : S.Size) (buffer : Fin S.cap → T) (accepted : List T) (taken : Nat) : Prop :=
  ∀ n, taken ≤ n → ∀ x, accepted[n]? = some x → buffer (S.slot (nth start n)) = x

def taken (s : State S T) : Nat :=
  match s.consumer with
  | .storeTail _ _ => s.tail.stores + 1
  | _ => s.tail.stores

def ProducerOk (start : S.Size) (s : State S T) : Prop :=
  match s.producer with
  | .idle => True
  | .loadHead _ x => s.item = x
  | .loadTail _ x h => s.item = x ∧ h = nth start s.head.stores
  | .write _ x h => s.item = x ∧ h = nth start s.head.stores ∧
      s.head.stores + 1 < s.tail.seen .producer + S.cap
  | .storeHead x h => s.buffer (S.slot h) = x ∧ h = nth start s.head.stores ∧
      s.head.stores + 1 < s.tail.seen .producer + S.cap
  | .ret pushed x => pushed = false → s.item = x

def ConsumerOk (start : S.Size) (s : State S T) : Prop :=
  match s.consumer with
  | .loadHead _ c => c = nth start s.tail.stores
  | .read _ c => c = nth start s.tail.stores ∧ s.tail.stores < s.head.seen .consumer
  | .storeTail c result => c = nth start s.tail.stores ∧ s.tail.stores < s.head.seen .consumer ∧
      s.accepted[s.tail.stores]? = result.value s.out
  | _ => True

structure Inv (start : S.Size) (s : State S T) : Prop where
  counters : Counters S start s.head s.tail
  accepted : s.accepted.length = s.head.stores
  delivered : s.delivered = s.accepted.take s.tail.stores
  filled : Filled start s.buffer s.accepted (taken s)
  producer : ProducerOk start s
  consumer : ConsumerOk start s

section counters

variable {head tail : Atomic Thread S.Size} {u : Thread} {n : Nat}

theorem Counters.tail_le_head (counters : Counters S start head tail) : tail.stores ≤ head.stores :=
  counters.ahead.trans (head.seen_le .consumer)

theorem Counters.head_lt (counters : Counters S start head tail) :
    head.stores < tail.stores + S.cap := by
  have known := tail.seen_le .producer
  have room := counters.room
  omega

theorem Counters.observeHead (counters : Counters S start head tail) (known : n ≤ head.stores)
    (fresh : head.seen u ≤ n) : Counters S start (head.observe u n known) tail where
  headCounts := counters.headCounts.observe
  tailCounts := counters.tailCounts
  headOwn := by
    by_cases own : u = .producer
    · subst own
      rw [Atomic.seen_observe_self, Atomic.stores_observe]
      exact known.antisymm (counters.headOwn ▸ fresh)
    · rw [Atomic.seen_observe_of_ne (Ne.symm own)]
      exact counters.headOwn
  tailOwn := counters.tailOwn
  ahead := by
    by_cases other : u = .consumer
    · subst other
      rw [Atomic.seen_observe_self]
      exact counters.ahead.trans fresh
    · rw [Atomic.seen_observe_of_ne (Ne.symm other)]
      exact counters.ahead
  room := counters.room

theorem Counters.observeTail (counters : Counters S start head tail) (known : n ≤ tail.stores)
    (fresh : tail.seen u ≤ n) : Counters S start head (tail.observe u n known) where
  headCounts := counters.headCounts
  tailCounts := counters.tailCounts.observe
  headOwn := counters.headOwn
  tailOwn := by
    by_cases own : u = .consumer
    · subst own
      rw [Atomic.seen_observe_self, Atomic.stores_observe]
      exact known.antisymm (counters.tailOwn ▸ fresh)
    · rw [Atomic.seen_observe_of_ne (Ne.symm own)]
      exact counters.tailOwn
  ahead := counters.ahead
  room := by
    by_cases other : u = .producer
    · subst other
      rw [Atomic.seen_observe_self]
      exact counters.room.trans_le (Nat.add_le_add_right fresh _)
    · rw [Atomic.seen_observe_of_ne (Ne.symm other)]
      exact counters.room

theorem Counters.push (counters : Counters S start head tail)
    (room : head.stores + 1 < tail.seen .producer + S.cap) :
    Counters S start (head.store .producer (nth start (head.stores + 1))) tail where
  headCounts := counters.headCounts.store rfl
  tailCounts := counters.tailCounts
  headOwn := Atomic.seen_store_self
  tailOwn := counters.tailOwn
  ahead := by
    rw [Atomic.seen_store_of_ne (by decide)]
    exact counters.ahead
  room := room

theorem Counters.pop (counters : Counters S start head tail)
    (nonempty : tail.stores < head.seen .consumer) :
    Counters S start head (tail.store .consumer (nth start (tail.stores + 1))) where
  headCounts := counters.headCounts
  tailCounts := counters.tailCounts.store rfl
  headOwn := counters.headOwn
  tailOwn := Atomic.seen_store_self
  ahead := nonempty
  room := by
    rw [Atomic.seen_store_of_ne (by decide)]
    exact counters.room

end counters

theorem producerOk_frame (ok : ProducerOk start s) (pc : t.producer = s.producer)
    (item : t.item = s.item) (head : t.head.stores = s.head.stores)
    (seen : s.tail.seen .producer ≤ t.tail.seen .producer)
    (slot : ∀ x h, s.producer = .storeHead x h → t.buffer (S.slot h) = s.buffer (S.slot h)) :
    ProducerOk start t := by
  unfold ProducerOk at ok ⊢
  rw [pc]
  cases at_ : s.producer with
  | idle => trivial
  | loadHead how x => simpa only [at_, item] using ok
  | loadTail how x h => simpa only [at_, item, head] using ok
  | write how x h =>
    simp only [at_] at ok
    exact ⟨item.trans ok.1, head ▸ ok.2.1, by have := ok.2.2; omega⟩
  | storeHead x h =>
    simp only [at_] at ok
    exact ⟨(slot x h at_).trans ok.1, head ▸ ok.2.1, by have := ok.2.2; omega⟩
  | ret pushed x => simpa only [at_, item] using ok

theorem consumerOk_frame (ok : ConsumerOk start s) (pc : t.consumer = s.consumer)
    (out : t.out = s.out) (tail : t.tail.stores = s.tail.stores)
    (seen : s.head.seen .consumer ≤ t.head.seen .consumer)
    (front : ∀ x, s.accepted[s.tail.stores]? = some x → t.accepted[s.tail.stores]? = some x)
    (held : s.tail.stores < s.head.seen .consumer → s.tail.stores < s.accepted.length) :
    ConsumerOk start t := by
  unfold ConsumerOk at ok ⊢
  rw [pc]
  cases at_ : s.consumer with
  | idle => trivial
  | loadTail into => trivial
  | loadHead into c => simpa only [at_, tail] using ok
  | read into c =>
    simp only [at_] at ok
    exact ⟨tail ▸ ok.1, by have := ok.2; omega⟩
  | storeTail c result =>
    simp only [at_] at ok
    obtain ⟨here, nonempty, value⟩ := ok
    obtain ⟨x, present⟩ : ∃ x, s.accepted[s.tail.stores]? = some x :=
      ⟨_, List.getElem?_eq_getElem (held nonempty)⟩
    exact ⟨tail ▸ here, by omega, by rw [tail, front x present, out, ← value, present]⟩
  | ret result => trivial

theorem Inv.tail_lt_accepted (holds : Inv start s) (nonempty : s.tail.stores < s.head.seen .consumer) :
    s.tail.stores < s.accepted.length := by
  have known := s.head.seen_le .consumer
  have length := holds.accepted
  omega

theorem Inv.tail_le_taken (s : State S T) : s.tail.stores ≤ taken s := by
  unfold taken
  split <;> omega

theorem inv_initial : Inv start (initial E start) where
  counters :=
    { headCounts := Atomic.counts_make
      tailCounts := Atomic.counts_make
      headOwn := rfl
      tailOwn := rfl
      ahead := le_rfl
      room := by
        have positive := two_le_cap S
        change 0 < 0 + S.cap
        omega }
  accepted := rfl
  delivered := rfl
  filled := by
    intro n _ x found
    simp [initial] at found
  producer := trivial
  consumer := trivial

theorem Inv.loadHead {u : Thread} {lag : Nat} {v : S.Size} {head : Atomic Thread S.Size}
    (holds : Inv start s) (read : s.head.load u lag = some (v, head)) :
    Inv start { s with head := head } ∧ head.stores = s.head.stores ∧
      ∃ n ≤ s.head.stores, s.head.seen u ≤ n ∧ head.seen u = n ∧ v = nth start n := by
  obtain ⟨n, known, fresh, value, rfl⟩ := holds.counters.headCounts.load read
  refine ⟨⟨holds.counters.observeHead known fresh, holds.accepted, holds.delivered, holds.filled, ?_, ?_⟩,
    rfl, n, known, fresh, Atomic.seen_observe_self, value⟩
  · exact producerOk_frame holds.producer rfl rfl rfl le_rfl (fun _ _ _ => rfl)
  · refine consumerOk_frame holds.consumer rfl rfl rfl ?_ (fun _ found => found) holds.tail_lt_accepted
    by_cases own : u = .consumer
    · subst own
      simpa using fresh
    · simp [Ne.symm own]

theorem Inv.loadTail {u : Thread} {lag : Nat} {v : S.Size} {tail : Atomic Thread S.Size}
    (holds : Inv start s) (read : s.tail.load u lag = some (v, tail)) :
    Inv start { s with tail := tail } ∧ tail.stores = s.tail.stores ∧
      ∃ n ≤ s.tail.stores, s.tail.seen u ≤ n ∧ tail.seen u = n ∧ v = nth start n := by
  obtain ⟨n, known, fresh, value, rfl⟩ := holds.counters.tailCounts.load read
  refine ⟨⟨holds.counters.observeTail known fresh, holds.accepted, holds.delivered, holds.filled, ?_, ?_⟩,
    rfl, n, known, fresh, Atomic.seen_observe_self, value⟩
  · refine producerOk_frame holds.producer rfl rfl rfl ?_ (fun _ _ _ => rfl)
    by_cases own : u = .producer
    · subst own
      simpa using fresh
    · simp [Ne.symm own]
  · exact consumerOk_frame holds.consumer rfl rfl rfl le_rfl (fun _ found => found)
      holds.tail_lt_accepted

theorem Inv.atProducer (holds : Inv start s) (pc : ProducerPc S T)
    (ok : ProducerOk start { s with producer := pc }) : Inv start { s with producer := pc } where
  counters := holds.counters
  accepted := holds.accepted
  delivered := holds.delivered
  filled := holds.filled
  producer := ok
  consumer := holds.consumer

theorem Inv.atConsumer (holds : Inv start s) (pc : ConsumerPc S T)
    (unmoved : taken { s with consumer := pc } = taken s)
    (ok : ConsumerOk start { s with consumer := pc }) : Inv start { s with consumer := pc } where
  counters := holds.counters
  accepted := holds.accepted
  delivered := holds.delivered
  filled := by rw [unmoved]; exact holds.filled
  producer := holds.producer
  consumer := ok

theorem Inv.atSize (holds : Inv start s) (size : Thread → SizePc S) :
    Inv start { s with size := size } where
  counters := holds.counters
  accepted := holds.accepted
  delivered := holds.delivered
  filled := holds.filled
  producer := holds.producer
  consumer := holds.consumer

/-- The full check of `push_impl` is exact for the count of pops it read. -/
theorem Counters.full_iff {n : Nat} {head tail : Atomic Thread S.Size}
    (counters : Counters S start head tail) (known : n ≤ tail.stores)
    (fresh : tail.seen .producer ≤ n) :
    nth start head.stores - nth start n = S.capacity - 1#S.bits ↔
      head.stores = n + (S.cap - 1) := by
  have below := cap_lt S
  have two := two_le_cap S
  have ordered := counters.tail_le_head
  have bound := counters.room
  have last : S.capacity - 1#S.bits = BitVec.ofNat S.bits (S.cap - 1) := by
    apply BitVec.eq_of_toNat_eq
    have one : 1#S.bits ≤ S.capacity := by
      rw [BitVec.le_def, BitVec.toNat_ofNat]
      exact (Nat.mod_le _ _).trans (Nat.le_of_lt S.atLeastTwo)
    rw [BitVec.toNat_sub_of_le one, BitVec.toNat_ofNat, BitVec.toNat_ofNat,
      Nat.mod_eq_of_lt (by omega : 1 < 2 ^ S.bits), Nat.mod_eq_of_lt (by omega)]
  rw [last]
  exact nth_sub_eq_iff start head.stores n (S.cap - 1) (by omega) (by omega) (by omega)

theorem Counters.room_of_ne {n : Nat} {head tail : Atomic Thread S.Size}
    (counters : Counters S start head tail) (known : n ≤ tail.stores)
    (fresh : tail.seen .producer ≤ n)
    (room : nth start head.stores - nth start n ≠ S.capacity - 1#S.bits) :
    head.stores + 1 < n + S.cap := by
  have differs := (not_congr (counters.full_iff known fresh)).mp room
  have bound := counters.room
  have two := two_le_cap S
  omega

theorem Inv.pushWrite {how : Passing} {x : T} {h : S.Size} (holds : Inv start s)
    (pc : s.producer = .write how x h) :
    Inv start
      { s with
        buffer := Function.update s.buffer (S.slot h) s.item
        item := E.forwarded how s.item
        producer := .storeHead x h } where
  counters := holds.counters
  accepted := holds.accepted
  delivered := holds.delivered
  filled := by
    obtain ⟨-, rfl, room⟩ : s.item = x ∧ h = nth start s.head.stores ∧
        s.head.stores + 1 < s.tail.seen .producer + S.cap := by
      simpa only [ProducerOk, pc] using holds.producer
    intro n bound y found
    have inside : n < s.head.stores := by
      rw [← holds.accepted]
      exact (List.getElem?_eq_some_iff.mp found).1
    have below := Inv.tail_le_taken s
    have known := s.tail.seen_le .producer
    change taken s ≤ n at bound
    have apart : S.slot (nth start n) ≠ S.slot (nth start s.head.stores) := fun same =>
      inside.ne (slot_injective n _ inside.le (by omega) same)
    exact (Function.update_of_ne apart _ _).trans (holds.filled n bound y found)
  producer := by
    obtain ⟨item, here, room⟩ : s.item = x ∧ h = nth start s.head.stores ∧
        s.head.stores + 1 < s.tail.seen .producer + S.cap := by
      simpa only [ProducerOk, pc] using holds.producer
    exact ⟨(Function.update_self _ _ _).trans item, here, room⟩
  consumer := holds.consumer

theorem Inv.pushStoreHead {x : T} {h : S.Size} (holds : Inv start s)
    (pc : s.producer = .storeHead x h) :
    Inv start
      { s with
        head := s.head.store .producer (h + 1#S.bits)
        producer := .ret true x
        accepted := s.accepted ++ [x] } := by
  obtain ⟨written, rfl, room⟩ : s.buffer (S.slot h) = x ∧ h = nth start s.head.stores ∧
      s.head.stores + 1 < s.tail.seen .producer + S.cap := by
    simpa only [ProducerOk, pc] using holds.producer
  have length := holds.accepted
  have ordered := holds.counters.tail_le_head
  refine ⟨?_, ?_, ?_, ?_, ?_, ?_⟩
  · simpa only [nth_succ] using holds.counters.push room
  · simp [length]
  · change s.delivered = (s.accepted ++ [x]).take s.tail.stores
    rw [holds.delivered, List.take_append_of_le_length (by omega)]
  · intro n bound y found
    by_cases last : n = s.head.stores
    · subst last
      rw [List.getElem?_append_right length.le, length, Nat.sub_self] at found
      cases found
      exact written
    · refine holds.filled n bound y ?_
      have inside := (List.getElem?_eq_some_iff.mp found).1
      rw [List.length_append, List.length_singleton] at inside
      rwa [List.getElem?_append_left (by omega)] at found
  · intro impossible
    cases impossible
  · refine consumerOk_frame holds.consumer rfl rfl rfl ?_ (fun y found => ?_) holds.tail_lt_accepted
    · exact (Atomic.seen_store_of_ne (by decide)).ge
    · exact List.getElem?_append_left (List.getElem?_eq_some_iff.mp found).1 ▸ found

theorem Inv.popRead {into : Into} {c : S.Size} {result : PopResult T} {out : T} (holds : Inv start s)
    (pc : s.consumer = .read into c) (value : result.value out = some (s.buffer (S.slot c))) :
    Inv start
      { s with
        buffer := Function.update s.buffer (S.slot c) (E.moved (s.buffer (S.slot c)))
        out := out
        consumer := .storeTail c result } := by
  obtain ⟨rfl, nonempty⟩ : c = nth start s.tail.stores ∧ s.tail.stores < s.head.seen .consumer := by
    simpa only [ConsumerOk, pc] using holds.consumer
  have inside := holds.tail_lt_accepted nonempty
  have length := holds.accepted
  have near := holds.counters.head_lt
  have present := List.getElem?_eq_getElem inside
  have here : taken s = s.tail.stores := by simp only [taken, pc]
  refine ⟨holds.counters, length, holds.delivered, ?_, ?_, rfl, nonempty, ?_⟩
  · intro n bound y found
    change s.tail.stores + 1 ≤ n at bound
    have below := (List.getElem?_eq_some_iff.mp found).1
    change n < s.accepted.length at below
    have apart : S.slot (nth start n) ≠ S.slot (nth start s.tail.stores) := fun same =>
      absurd (slot_injective _ n (by omega) (by omega) same.symm) (by omega)
    exact (Function.update_of_ne apart _ _).trans (holds.filled n (by omega) y found)
  · refine producerOk_frame holds.producer rfl rfl rfl le_rfl (fun x h at_ => ?_)
    obtain ⟨-, rfl, -⟩ : s.buffer (S.slot h) = x ∧ h = nth start s.head.stores ∧
        s.head.stores + 1 < s.tail.seen .producer + S.cap := by
      simpa only [ProducerOk, at_] using holds.producer
    refine Function.update_of_ne (fun same => ?_) _ _
    exact absurd (slot_injective _ _ (by omega) near same.symm) (by omega)
  · change s.accepted[s.tail.stores]? = result.value out
    rw [value, present, holds.filled s.tail.stores here.le _ present]

theorem Inv.popStoreTail {c : S.Size} {result : PopResult T} (holds : Inv start s)
    (pc : s.consumer = .storeTail c result) :
    Inv start
      { s with
        tail := s.tail.store .consumer (c + 1#S.bits)
        consumer := .ret result
        delivered := s.delivered ++ (result.value s.out).toList } := by
  obtain ⟨rfl, nonempty, value⟩ : c = nth start s.tail.stores ∧ s.tail.stores < s.head.seen .consumer ∧
      s.accepted[s.tail.stores]? = result.value s.out := by
    simpa only [ConsumerOk, pc] using holds.consumer
  refine ⟨?_, holds.accepted, ?_, ?_, ?_, trivial⟩
  · simpa only [nth_succ] using holds.counters.pop nonempty
  · change s.delivered ++ _ = s.accepted.take (s.tail.stores + 1)
    rw [List.take_add_one, holds.delivered, value]
  · have passed : taken s = s.tail.stores + 1 := by simp only [taken, pc]
    have filled := holds.filled
    rw [passed] at filled
    exact filled
  · exact producerOk_frame holds.producer rfl rfl rfl (Atomic.seen_store_of_ne (by decide)).ge
      (fun _ _ _ => rfl)

theorem inv_move (holds : Inv start s) (move : Move E s a t) : Inv start t := by
  cases move with
  | @setItem x pc =>
    refine ⟨holds.counters, holds.accepted, holds.delivered, holds.filled, ?_, holds.consumer⟩
    simp only [ProducerOk, pc]
  | push pc free => exact holds.atProducer _ rfl
  | @pushLoadHead lag how x v head pc read =>
    obtain ⟨kept, stores, n, known, fresh, -, rfl⟩ := holds.loadHead read
    refine kept.atProducer _ ⟨by simpa only [ProducerOk, pc] using holds.producer, ?_⟩
    have own := holds.counters.headOwn
    rw [show n = head.stores by omega]
  | @pushFull lag how x h v tail pc read full =>
    obtain ⟨kept, -⟩ := holds.loadTail read
    have facts := holds.producer
    simp only [ProducerOk, pc] at facts
    exact kept.atProducer _ (fun _ => facts.1)
  | @pushRoom lag how x h v tail pc read room =>
    obtain ⟨kept, -, n, known, fresh, seen, rfl⟩ := holds.loadTail read
    have facts := holds.producer
    simp only [ProducerOk, pc] at facts
    obtain ⟨item, rfl⟩ := facts
    exact kept.atProducer _ ⟨item, rfl, seen ▸ holds.counters.room_of_ne known fresh room⟩
  | pushWrite pc => exact holds.pushWrite pc
  | pushStoreHead pc => exact holds.pushStoreHead pc
  | pushReturn pc => exact holds.atProducer _ trivial
  | @setOut x pc =>
    refine ⟨holds.counters, holds.accepted, holds.delivered, ?_, holds.producer, ?_⟩
    · simpa only [taken, pc] using holds.filled
    · simp only [ConsumerOk, pc]
  | pop pc free => exact holds.atConsumer _ (by simp only [taken, pc]) trivial
  | @popLoadTail lag into v tail pc read =>
    obtain ⟨kept, stores, n, known, fresh, -, rfl⟩ := holds.loadTail read
    refine kept.atConsumer _ (by simp only [taken, pc]) ?_
    have own := holds.counters.tailOwn
    change nth start n = nth start tail.stores
    rw [show n = tail.stores by omega]
  | popEmpty pc read => exact (holds.loadHead read).1.atConsumer _ (by simp only [taken, pc]) trivial
  | @popSome lag into c v head pc read nonempty =>
    obtain ⟨kept, -, n, known, fresh, seen, rfl⟩ := holds.loadHead read
    obtain rfl : c = nth start s.tail.stores := by simpa only [ConsumerOk, pc] using holds.consumer
    refine kept.atConsumer _ (by simp only [taken, pc]) ⟨rfl, ?_⟩
    have ahead := holds.counters.ahead
    have different : s.tail.stores ≠ n := fun same => nonempty (same ▸ rfl)
    change s.tail.stores < head.seen .consumer
    omega
  | popReference pc => exact holds.popRead pc rfl
  | popOptional pc => exact holds.popRead pc rfl
  | popStoreTail pc => exact holds.popStoreTail pc
  | popReturn pc => exact holds.atConsumer _ (by simp only [taken, pc]) trivial
  | size pc free => exact holds.atSize _
  | sizeLoadHead pc read => exact (holds.loadHead read).1.atSize _
  | sizeLoadTail pc read => exact (holds.loadTail read).1.atSize _
  | sizeReturn pc => exact holds.atSize _

theorem inv_preserved : Preserved (step E) (Inv (T := T) start) :=
  fun _ _ _ holds move => inv_move holds (step_move move)

theorem Inv.until {P : State S T → Prop} {last : Action T} {acts : List (Action T)}
    (kept : ∀ s a t, a ≠ last → Inv start s → P s → Move E s a t → P t) (holds : Inv start s) (first : P s)
    (runs : run (step E) s acts = some t) (ongoing : last ∉ acts) : Inv start t ∧ P t := by
  apply run_avoids (I := fun s => Inv start s ∧ P s) _ ⟨holds, first⟩ runs ongoing
  intro s a t inside both moved
  have move := step_move moved
  exact ⟨inv_move both.1 move, kept s a t inside both.1 both.2 move⟩

theorem inv_reachable (reached : Reachable (step E) (initial E start) s) : Inv start s :=
  reached.invariant inv_preserved inv_initial

theorem Inv.delivered_length (holds : Inv start s) : s.delivered.length = s.tail.stores := by
  have ordered := holds.counters.tail_le_head
  have length := holds.accepted
  rw [holds.delivered, List.length_take]
  omega

theorem Inv.queued_length (holds : Inv start s) : s.queued.length = s.head.stores - s.tail.stores := by
  rw [State.queued, List.length_drop, holds.accepted, holds.delivered_length]

theorem Inv.accepted_eq (holds : Inv start s) : s.accepted = s.delivered ++ s.queued := by
  rw [State.queued, holds.delivered_length, holds.delivered, List.take_append_drop]

end Cpp20Showcase.Lockfree.SpscInvariant
