import Cpp20Showcase.Lib.TransitionSystem
import Cpp20Showcase.Lib.WrappingCounter

/-! The lock-free single-producer single-consumer ring of `06_lockfree/spsc_queue.h`.
Every call is cut into the accesses it makes to shared memory. Loads of the two
counters follow coherence, so a thread may miss recent stores of the other side;
the slots are plain objects. `accepted` and `delivered` record, at the store that
makes a call successful, what has gone in and what has come out. -/

namespace Cpp20Showcase.Lockfree.SpscQueue
open Lib Lib.WrappingCounter

/-- The template argument `Capacity` as the two static assertions of the class
admit it, with the width of `std::size_t`. -/
structure Shape where
  bits : Nat
  capacity : BitVec bits
  atLeastTwo : 2 ≤ capacity.toNat
  singleBit : ∃ k, capacity.toNat = 2 ^ k

abbrev Shape.Size (S : Shape) : Type := BitVec S.bits

abbrev Shape.cap (S : Shape) : Nat := S.capacity.toNat

def Shape.kMask (S : Shape) : S.Size := S.capacity - 1#S.bits

theorem Shape.toNat_and_kMask (S : Shape) (c : S.Size) : (c &&& S.kMask).toNat = c.toNat % S.cap := by
  obtain ⟨k, single⟩ := S.singleBit
  rw [Shape.cap, single]
  exact toNat_and_mask c S.capacity k single

/-- `m_buffer[c & kMask]` never leaves the array. -/
theorem Shape.slot_lt (S : Shape) (c : S.Size) : (c &&& S.kMask).toNat < S.cap := by
  rw [S.toNat_and_kMask]
  exact Nat.mod_lt _ (Nat.lt_of_lt_of_le (by decide) S.atLeastTwo)

def Shape.slot (S : Shape) (c : S.Size) : Fin S.cap := ⟨(c &&& S.kMask).toNat, S.slot_lt c⟩

/-- The element type: the value `T{}` that fills the ring, and the value that
moving from an object leaves in it. -/
structure Element (T : Type) where
  fresh : T
  moved : T → T

inductive Thread where
  | producer
  | consumer
  | observer (id : Nat)
  deriving DecidableEq

/-- `push(const T&)` or `push(T&&)`. -/
inductive Passing where
  | copy
  | move
  deriving DecidableEq

/-- What `std::forward<U>(item)` leaves in the caller's argument. -/
def Element.forwarded {T : Type} (E : Element T) : Passing → T → T
  | .copy, x => x
  | .move, x => E.moved x

/-- `pop(T& out)` or `pop()`. -/
inductive Into where
  | reference
  | optional
  deriving DecidableEq

/-- What a pop returns: a `bool`, or a `std::optional<T>`. -/
inductive PopResult (T : Type) where
  | flag (popped : Bool)
  | opt (popped : Option T)
  deriving DecidableEq

/-- The value handed to the caller, given what its output argument holds. -/
def PopResult.value {T : Type} (out : T) : PopResult T → Option T
  | .flag true => some out
  | .flag false => none
  | .opt popped => popped

def Into.nothing {T : Type} : Into → PopResult T
  | .reference => .flag false
  | .optional => .opt none

/-- Next access of a push; `x` is what the argument held when the call began. -/
inductive ProducerPc (S : Shape) (T : Type) where
  | idle
  | loadHead (how : Passing) (x : T)
  | loadTail (how : Passing) (x : T) (head : S.Size)
  | write (how : Passing) (x : T) (head : S.Size)
  | storeHead (x : T) (head : S.Size)
  | ret (pushed : Bool) (x : T)

inductive ConsumerPc (S : Shape) (T : Type) where
  | idle
  | loadTail (into : Into)
  | loadHead (into : Into) (tail : S.Size)
  | read (into : Into) (tail : S.Size)
  | storeTail (tail : S.Size) (result : PopResult T)
  | ret (result : PopResult T)

inductive SizePc (S : Shape) where
  | idle
  | loadHead
  | loadTail (h : S.Size)
  | ret (size : S.Size)
  deriving DecidableEq

/-- `item` is the object the producer passes to push, `out` the one the consumer
passes to `pop(T&)`. -/
structure State (S : Shape) (T : Type) where
  head : Atomic Thread S.Size
  tail : Atomic Thread S.Size
  buffer : Fin S.cap → T
  item : T
  out : T
  producer : ProducerPc S T
  consumer : ConsumerPc S T
  size : Thread → SizePc S
  accepted : List T
  delivered : List T

/-- One access or one call or return; `lag` is how many stores a load misses. -/
inductive Action (T : Type) where
  | setItem (x : T)
  | push (how : Passing)
  | pushLoadHead (lag : Nat)
  | pushLoadTail (lag : Nat)
  | pushWrite
  | pushStoreHead
  | pushReturn
  | setOut (x : T)
  | pop (into : Into)
  | popLoadTail (lag : Nat)
  | popLoadHead (lag : Nat)
  | popRead
  | popStoreTail
  | popReturn
  | size (t : Thread)
  | sizeLoadHead (t : Thread) (lag : Nat)
  | sizeLoadTail (t : Thread) (lag : Nat)
  | sizeReturn (t : Thread)
  deriving DecidableEq

variable {S : Shape} {T : Type} {E : Element T}

/-- How many stores a load misses; under sequential consistency none. -/
def lag : Action T → Nat
  | .pushLoadHead n | .pushLoadTail n | .popLoadTail n | .popLoadHead n => n
  | .sizeLoadHead _ n | .sizeLoadTail _ n => n
  | _ => 0

def actor : Action T → Thread
  | .setItem _ | .push _ | .pushLoadHead _ | .pushLoadTail _ => .producer
  | .pushWrite | .pushStoreHead | .pushReturn => .producer
  | .setOut _ | .pop _ | .popLoadTail _ | .popLoadHead _ => .consumer
  | .popRead | .popStoreTail | .popReturn => .consumer
  | .size t | .sizeLoadHead t _ | .sizeLoadTail t _ | .sizeReturn t => t

/-- The steps of a call of `u`; between its calls it may still assign to its object. -/
def within (u : Thread) : Action T → Bool
  | .setItem _ | .setOut _ => false
  | a => actor a = u

/-- A queue whose counters both start at `start`; the class starts them at zero. -/
def initial (E : Element T) (start : S.Size) : State S T where
  head := .make start
  tail := .make start
  buffer := fun _ => E.fresh
  item := E.fresh
  out := E.fresh
  producer := .idle
  consumer := .idle
  size := fun _ => .idle
  accepted := []
  delivered := []

def State.inCall (s : State S T) : Thread → Bool
  | .producer => match s.producer with | .idle => false | _ => true
  | .consumer => match s.consumer with | .idle => false | _ => true
  | .observer _ => false

/-- `push` forwards its argument to `push_impl`, whose accesses follow. -/
def push (s : State S T) (how : Passing) : Option (State S T) :=
  match s.producer, s.size .producer with
  | .idle, .idle => some { s with producer := .loadHead how s.item }
  | _, _ => none

def pushLoadHead (s : State S T) (lag : Nat) : Option (State S T) :=
  match s.producer with
  | .loadHead how x => (s.head.load .producer lag).map fun (v, head) =>
      { s with head := head, producer := .loadTail how x v }
  | _ => none

def pushLoadTail (s : State S T) (lag : Nat) : Option (State S T) :=
  match s.producer with
  | .loadTail how x head => (s.tail.load .producer lag).map fun (v, tail) =>
      { s with
        tail := tail
        producer := if head - v = S.capacity - 1#S.bits then .ret false x else .write how x head }
  | _ => none

def pushWrite (E : Element T) (s : State S T) : Option (State S T) :=
  match s.producer with
  | .write how x head => some
      { s with
        buffer := Function.update s.buffer (S.slot head) s.item
        item := E.forwarded how s.item
        producer := .storeHead x head }
  | _ => none

def pushStoreHead (s : State S T) : Option (State S T) :=
  match s.producer with
  | .storeHead x head => some
      { s with
        head := s.head.store .producer (head + 1#S.bits)
        producer := .ret true x
        accepted := s.accepted ++ [x] }
  | _ => none

def pushReturn (s : State S T) : Option (State S T) :=
  match s.producer with
  | .ret _ _ => some { s with producer := .idle }
  | _ => none

def pop (s : State S T) (into : Into) : Option (State S T) :=
  match s.consumer, s.size .consumer with
  | .idle, .idle => some { s with consumer := .loadTail into }
  | _, _ => none

def popLoadTail (s : State S T) (lag : Nat) : Option (State S T) :=
  match s.consumer with
  | .loadTail into => (s.tail.load .consumer lag).map fun (v, tail) =>
      { s with tail := tail, consumer := .loadHead into v }
  | _ => none

def popLoadHead (s : State S T) (lag : Nat) : Option (State S T) :=
  match s.consumer with
  | .loadHead into tail => (s.head.load .consumer lag).map fun (v, head) =>
      { s with
        head := head
        consumer := if tail = v then .ret into.nothing else .read into tail }
  | _ => none

/-- The two overloads differ in where the value moved out of the slot goes. -/
def popRead (E : Element T) (s : State S T) : Option (State S T) :=
  match s.consumer with
  | .read into tail =>
      let v := s.buffer (S.slot tail)
      let buffer := Function.update s.buffer (S.slot tail) (E.moved v)
      match into with
      | .reference => some
          { s with buffer := buffer, out := v, consumer := .storeTail tail (.flag true) }
      | .optional => some { s with buffer := buffer, consumer := .storeTail tail (.opt (some v)) }
  | _ => none

def popStoreTail (s : State S T) : Option (State S T) :=
  match s.consumer with
  | .storeTail tail result => some
      { s with
        tail := s.tail.store .consumer (tail + 1#S.bits)
        consumer := .ret result
        delivered := s.delivered ++ (result.value s.out).toList }
  | _ => none

def popReturn (s : State S T) : Option (State S T) :=
  match s.consumer with
  | .ret _ => some { s with consumer := .idle }
  | _ => none

/-- `size_approx`, which any thread may call between its other calls. -/
def size (s : State S T) (t : Thread) : Option (State S T) :=
  match s.size t, s.inCall t with
  | .idle, false => some { s with size := Function.update s.size t .loadHead }
  | _, _ => none

def sizeLoadHead (s : State S T) (t : Thread) (lag : Nat) : Option (State S T) :=
  match s.size t with
  | .loadHead => (s.head.load t lag).map fun (h, head) =>
      { s with head := head, size := Function.update s.size t (.loadTail h) }
  | _ => none

def sizeLoadTail (s : State S T) (t : Thread) (lag : Nat) : Option (State S T) :=
  match s.size t with
  | .loadTail h => (s.tail.load t lag).map fun (v, tail) =>
      { s with tail := tail, size := Function.update s.size t (.ret (h - v)) }
  | _ => none

def sizeReturn (s : State S T) (t : Thread) : Option (State S T) :=
  match s.size t with
  | .ret _ => some { s with size := Function.update s.size t .idle }
  | _ => none

/-- Between its calls a thread may assign to the object it passes. -/
def setItem (s : State S T) (x : T) : Option (State S T) :=
  match s.producer with
  | .idle => some { s with item := x }
  | _ => none

def setOut (s : State S T) (x : T) : Option (State S T) :=
  match s.consumer with
  | .idle => some { s with out := x }
  | _ => none

def step (E : Element T) (s : State S T) : Action T → Option (State S T)
  | .setItem x => setItem s x
  | .push how => push s how
  | .pushLoadHead lag => pushLoadHead s lag
  | .pushLoadTail lag => pushLoadTail s lag
  | .pushWrite => pushWrite E s
  | .pushStoreHead => pushStoreHead s
  | .pushReturn => pushReturn s
  | .setOut x => setOut s x
  | .pop into => pop s into
  | .popLoadTail lag => popLoadTail s lag
  | .popLoadHead lag => popLoadHead s lag
  | .popRead => popRead E s
  | .popStoreTail => popStoreTail s
  | .popReturn => popReturn s
  | .size t => size s t
  | .sizeLoadHead t lag => sizeLoadHead s t lag
  | .sizeLoadTail t lag => sizeLoadTail s t lag
  | .sizeReturn t => sizeReturn s t

theorem inCall_enabled {s : State S T} {u : Thread} (busy : s.inCall u = true) :
    ∃ a t, within u a = true ∧ step E s a = some t := by
  cases u with
  | producer =>
    cases pc : s.producer with
    | idle => simp [State.inCall, pc] at busy
    | loadHead how x =>
      exact ⟨.pushLoadHead 0, _, rfl, by simp only [step, pushLoadHead, pc, Atomic.load_latest, Option.map_some]; rfl⟩
    | loadTail how x h =>
      exact ⟨.pushLoadTail 0, _, rfl, by simp only [step, pushLoadTail, pc, Atomic.load_latest, Option.map_some]; rfl⟩
    | write how x h => exact ⟨.pushWrite, _, rfl, by simp only [step, pushWrite, pc]; rfl⟩
    | storeHead x h => exact ⟨.pushStoreHead, _, rfl, by simp only [step, pushStoreHead, pc]; rfl⟩
    | ret pushed x => exact ⟨.pushReturn, _, rfl, by simp only [step, pushReturn, pc]; rfl⟩
  | consumer =>
    cases pc : s.consumer with
    | idle => simp [State.inCall, pc] at busy
    | loadTail into =>
      exact ⟨.popLoadTail 0, _, rfl, by simp only [step, popLoadTail, pc, Atomic.load_latest, Option.map_some]; rfl⟩
    | loadHead into c =>
      exact ⟨.popLoadHead 0, _, rfl, by simp only [step, popLoadHead, pc, Atomic.load_latest, Option.map_some]; rfl⟩
    | read into c =>
      cases into with
      | reference => exact ⟨.popRead, _, rfl, by simp only [step, popRead, pc]; rfl⟩
      | optional => exact ⟨.popRead, _, rfl, by simp only [step, popRead, pc]; rfl⟩
    | storeTail c result => exact ⟨.popStoreTail, _, rfl, by simp only [step, popStoreTail, pc]; rfl⟩
    | ret result => exact ⟨.popReturn, _, rfl, by simp only [step, popReturn, pc]; rfl⟩
  | observer id => cases busy

/-- What is in the queue: accepted and not yet delivered. -/
def State.queued (s : State S T) : List T := s.accepted.drop s.delivered.length

def pushCall (x : T) (how : Passing) : List (Action T) :=
  [.setItem x, .push how, .pushLoadHead 0, .pushLoadTail 0, .pushWrite, .pushStoreHead, .pushReturn]

def popCall (into : Into) : List (Action T) :=
  [.pop into, .popLoadTail 0, .popLoadHead 0, .popRead, .popStoreTail, .popReturn]

/-- `SPSCQueue<int, 4>` with a 64-bit `std::size_t`; moving from an `int` copies it. -/
def fourSlots : Shape where
  bits := 64
  capacity := 4#64
  atLeastTwo := by decide
  singleBit := ⟨2, by decide⟩

def ints : Element Int where
  fresh := 0
  moved := id

inductive Move (E : Element T) (s : State S T) : Action T → State S T → Prop where
  | setItem {x} (pc : s.producer = .idle) : Move E s (.setItem x) { s with item := x }
  | push {how} (pc : s.producer = .idle) (free : s.size .producer = .idle) :
      Move E s (.push how) { s with producer := .loadHead how s.item }
  | pushLoadHead {lag how x v head} (pc : s.producer = .loadHead how x)
      (read : s.head.load .producer lag = some (v, head)) :
      Move E s (.pushLoadHead lag) { s with head := head, producer := .loadTail how x v }
  | pushFull {lag how x h v tail} (pc : s.producer = .loadTail how x h)
      (read : s.tail.load .producer lag = some (v, tail)) (full : h - v = S.capacity - 1#S.bits) :
      Move E s (.pushLoadTail lag) { s with tail := tail, producer := .ret false x }
  | pushRoom {lag how x h v tail} (pc : s.producer = .loadTail how x h)
      (read : s.tail.load .producer lag = some (v, tail)) (room : h - v ≠ S.capacity - 1#S.bits) :
      Move E s (.pushLoadTail lag) { s with tail := tail, producer := .write how x h }
  | pushWrite {how x h} (pc : s.producer = .write how x h) :
      Move E s .pushWrite
        { s with
          buffer := Function.update s.buffer (S.slot h) s.item
          item := E.forwarded how s.item
          producer := .storeHead x h }
  | pushStoreHead {x h} (pc : s.producer = .storeHead x h) :
      Move E s .pushStoreHead
        { s with
          head := s.head.store .producer (h + 1#S.bits)
          producer := .ret true x
          accepted := s.accepted ++ [x] }
  | pushReturn {pushed x} (pc : s.producer = .ret pushed x) :
      Move E s .pushReturn { s with producer := .idle }
  | setOut {x} (pc : s.consumer = .idle) : Move E s (.setOut x) { s with out := x }
  | pop {into} (pc : s.consumer = .idle) (free : s.size .consumer = .idle) :
      Move E s (.pop into) { s with consumer := .loadTail into }
  | popLoadTail {lag into v tail} (pc : s.consumer = .loadTail into)
      (read : s.tail.load .consumer lag = some (v, tail)) :
      Move E s (.popLoadTail lag) { s with tail := tail, consumer := .loadHead into v }
  | popEmpty {lag into v head} (pc : s.consumer = .loadHead into v)
      (read : s.head.load .consumer lag = some (v, head)) :
      Move E s (.popLoadHead lag) { s with head := head, consumer := .ret into.nothing }
  | popSome {lag into c v head} (pc : s.consumer = .loadHead into c)
      (read : s.head.load .consumer lag = some (v, head)) (nonempty : c ≠ v) :
      Move E s (.popLoadHead lag) { s with head := head, consumer := .read into c }
  | popReference {c} (pc : s.consumer = .read .reference c) :
      Move E s .popRead
        { s with
          buffer := Function.update s.buffer (S.slot c) (E.moved (s.buffer (S.slot c)))
          out := s.buffer (S.slot c)
          consumer := .storeTail c (.flag true) }
  | popOptional {c} (pc : s.consumer = .read .optional c) :
      Move E s .popRead
        { s with
          buffer := Function.update s.buffer (S.slot c) (E.moved (s.buffer (S.slot c)))
          consumer := .storeTail c (.opt (some (s.buffer (S.slot c)))) }
  | popStoreTail {c result} (pc : s.consumer = .storeTail c result) :
      Move E s .popStoreTail
        { s with
          tail := s.tail.store .consumer (c + 1#S.bits)
          consumer := .ret result
          delivered := s.delivered ++ (result.value s.out).toList }
  | popReturn {result} (pc : s.consumer = .ret result) :
      Move E s .popReturn { s with consumer := .idle }
  | size {t} (pc : s.size t = .idle) (free : s.inCall t = false) :
      Move E s (.size t) { s with size := Function.update s.size t .loadHead }
  | sizeLoadHead {t lag h head} (pc : s.size t = .loadHead)
      (read : s.head.load t lag = some (h, head)) :
      Move E s (.sizeLoadHead t lag)
        { s with head := head, size := Function.update s.size t (.loadTail h) }
  | sizeLoadTail {t lag h v tail} (pc : s.size t = .loadTail h)
      (read : s.tail.load t lag = some (v, tail)) :
      Move E s (.sizeLoadTail t lag)
        { s with tail := tail, size := Function.update s.size t (.ret (h - v)) }
  | sizeReturn {t r} (pc : s.size t = .ret r) :
      Move E s (.sizeReturn t) { s with size := Function.update s.size t .idle }

theorem pushLoadTail_move {s t : State S T} {lag : Nat} (move : pushLoadTail s lag = some t) :
    Move E s (.pushLoadTail lag) t := by
  unfold pushLoadTail at move
  split at move
  next how x h pc =>
    obtain ⟨⟨v, tail⟩, read, rfl⟩ := Option.map_eq_some_iff.mp move
    by_cases full : h - v = S.capacity - 1#S.bits
    · simpa only [if_pos full] using Move.pushFull pc read full
    · simpa only [if_neg full] using Move.pushRoom pc read full
  next => cases move

theorem popLoadHead_move {s t : State S T} {lag : Nat} (move : popLoadHead s lag = some t) :
    Move E s (.popLoadHead lag) t := by
  unfold popLoadHead at move
  split at move
  next into c pc =>
    obtain ⟨⟨v, head⟩, read, rfl⟩ := Option.map_eq_some_iff.mp move
    by_cases empty : c = v
    · subst empty
      simpa only [↓reduceIte] using Move.popEmpty pc read
    · simpa only [if_neg empty] using Move.popSome pc read empty
  next => cases move

theorem step_move {s t : State S T} {a : Action T} (move : step E s a = some t) : Move E s a t := by
  cases a with
  | setItem x =>
    simp only [step, setItem] at move
    split at move
    next pc => cases move; exact .setItem pc
    next => cases move
  | push how =>
    simp only [step, SpscQueue.push] at move
    split at move
    next pc free => cases move; exact .push pc free
    next => cases move
  | pushLoadHead lag =>
    simp only [step, SpscQueue.pushLoadHead] at move
    split at move
    next how x pc =>
      obtain ⟨⟨v, head⟩, read, rfl⟩ := Option.map_eq_some_iff.mp move
      exact .pushLoadHead pc read
    next => cases move
  | pushLoadTail lag => exact pushLoadTail_move move
  | pushWrite =>
    simp only [step, SpscQueue.pushWrite] at move
    split at move
    next how x h pc => cases move; exact .pushWrite pc
    next => cases move
  | pushStoreHead =>
    simp only [step, SpscQueue.pushStoreHead] at move
    split at move
    next x h pc => cases move; exact .pushStoreHead pc
    next => cases move
  | pushReturn =>
    simp only [step, SpscQueue.pushReturn] at move
    split at move
    next pushed x pc => cases move; exact .pushReturn pc
    next => cases move
  | setOut x =>
    simp only [step, setOut] at move
    split at move
    next pc => cases move; exact .setOut pc
    next => cases move
  | pop into =>
    simp only [step, SpscQueue.pop] at move
    split at move
    next pc free => cases move; exact .pop pc free
    next => cases move
  | popLoadTail lag =>
    simp only [step, SpscQueue.popLoadTail] at move
    split at move
    next into pc =>
      obtain ⟨⟨v, tail⟩, read, rfl⟩ := Option.map_eq_some_iff.mp move
      exact .popLoadTail pc read
    next => cases move
  | popLoadHead lag => exact popLoadHead_move move
  | popRead =>
    simp only [step, SpscQueue.popRead] at move
    split at move
    next into c pc =>
      cases into with
      | reference => cases move; exact .popReference pc
      | optional => cases move; exact .popOptional pc
    next => cases move
  | popStoreTail =>
    simp only [step, SpscQueue.popStoreTail] at move
    split at move
    next c result pc => cases move; exact .popStoreTail pc
    next => cases move
  | popReturn =>
    simp only [step, SpscQueue.popReturn] at move
    split at move
    next result pc => cases move; exact .popReturn pc
    next => cases move
  | size t =>
    simp only [step, SpscQueue.size] at move
    split at move
    next pc free => cases move; exact .size pc free
    next => cases move
  | sizeLoadHead t lag =>
    simp only [step, SpscQueue.sizeLoadHead] at move
    split at move
    next pc =>
      obtain ⟨⟨h, head⟩, read, rfl⟩ := Option.map_eq_some_iff.mp move
      exact .sizeLoadHead pc read
    next => cases move
  | sizeLoadTail t lag =>
    simp only [step, SpscQueue.sizeLoadTail] at move
    split at move
    next h pc =>
      obtain ⟨⟨v, tail⟩, read, rfl⟩ := Option.map_eq_some_iff.mp move
      exact .sizeLoadTail pc read
    next => cases move
  | sizeReturn t =>
    simp only [step, SpscQueue.sizeReturn] at move
    split at move
    next r pc => cases move; exact .sizeReturn pc
    next => cases move

end Cpp20Showcase.Lockfree.SpscQueue
