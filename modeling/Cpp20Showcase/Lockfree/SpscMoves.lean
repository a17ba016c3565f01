import Cpp20Showcase.Lockfree.SpscInvariant

/-! What a push takes from its argument and a pop puts into its own: nothing when they fail,
and when they succeed the value the argument had when the push was called. Moving from an
object may leave anything in it, and slots are reused as pops left them. -/

namespace Cpp20Showcase.Lockfree.SpscMoves
open Lib Lib.WrappingCounter Lib.TransitionSystem SpscQueue SpscInvariant

variable {S : Shape} {T : Type} {E : Element T} {start : S.Size} {s t : State S T} {a : Action T}
variable {x : T} {accepted : List T} {stored : List S.Size}

/-- The producer has `x` to push: it is in the caller's object until it is in its slot, and
counts as accepted with the store of `m_head`. -/
def Trying (x : T) (accepted : List T) (stored : List S.Size) (s : State S T) : Prop :=
  match s.producer with
  | .ret true y => y = x ∧ s.accepted = accepted ++ [x]
  | .storeHead y _ => y = x ∧ s.accepted = accepted ∧ s.head.history = stored
  | _ => s.item = x ∧ s.accepted = accepted ∧ s.head.history = stored

/-- The push has found room, so that it will succeed. -/
def Committed (s : State S T) : Prop :=
  match s.producer with
  | .write _ _ _ | .storeHead _ _ | .ret true _ => True
  | _ => False

structure Untouched (s t : State S T) : Prop where
  buffer : t.buffer = s.buffer
  head : t.head.history = s.head.history
  tail : t.tail.history = s.tail.history
  item : t.item = s.item

/-- The consumer's object is changed and an item delivered by successful pops alone. -/
def Popping (out : T) (delivered : List T) (s : State S T) : Prop :=
  match s.consumer with
  | .storeTail _ result => s.delivered = delivered ∧ ∃ v, result.value s.out = some v
  | .ret result =>
      match result.value s.out with
      | some v => s.delivered = delivered ++ [v]
      | none => s.out = out ∧ s.delivered = delivered
  | _ => s.out = out ∧ s.delivered = delivered

theorem trying_frame (trying : Trying x accepted stored s) (pc : t.producer = s.producer)
    (item : t.item = s.item) (log : t.accepted = s.accepted)
    (history : t.head.history = s.head.history) : Trying x accepted stored t := by
  unfold Trying at trying ⊢
  rwa [pc, item, log, history]

theorem trying_move (holds : Inv start s) (trying : Trying x accepted stored s) (move : Move E s a t)
    (same : ∀ y, a ≠ .setItem y) (tried : a = .pushReturn → ∀ y, s.producer ≠ .ret true y) :
    Trying x accepted stored t := by
  cases move with
  | setItem => exact absurd rfl (same _)
  | push pc => rwa [Trying, pc] at trying
  | pushLoadHead pc read =>
    rw [Trying, pc] at trying
    exact ⟨trying.1, trying.2.1, (Atomic.load_history read).trans trying.2.2⟩
  | pushFull pc | pushRoom pc => rwa [Trying, pc] at trying
  | pushWrite pc =>
    have facts := holds.producer
    simp only [ProducerOk, pc] at facts
    rw [Trying, pc] at trying
    exact ⟨facts.1.symm.trans trying.1, trying.2⟩
  | pushStoreHead pc =>
    rw [Trying, pc] at trying
    obtain ⟨rfl, log, -⟩ := trying
    exact ⟨rfl, congrArg (· ++ [_]) log⟩
  | @pushReturn pushed y pc =>
    rw [Trying, pc] at trying
    cases pushed with
    | true => exact absurd pc (tried rfl y)
    | false => exact trying
  | popEmpty pc read | popSome pc read | sizeLoadHead pc read =>
    exact trying_frame trying rfl rfl rfl (Atomic.load_history read)
  | _ => exact trying

theorem busy_move (busy : s.producer ≠ .idle) (move : Move E s a t) (ongoing : a ≠ .pushReturn) :
    t.producer ≠ .idle := by
  cases move with
  | pushReturn => exact absurd rfl ongoing
  | push | pushLoadHead | pushFull | pushRoom | pushWrite | pushStoreHead =>
    intro impossible
    cases impossible
  | _ => exact busy

theorem untried_move (untried : ∀ y, s.producer ≠ .ret true y) (move : Move E s a t)
    (before : a ≠ .pushStoreHead) : ∀ y, t.producer ≠ .ret true y := by
  cases move with
  | pushStoreHead => exact absurd rfl before
  | push | pushLoadHead | pushFull | pushRoom | pushWrite | pushReturn =>
    intro y impossible
    cases impossible
  | _ => exact untried

theorem committed_move (committed : Committed s) (move : Move E s a t) (ongoing : a ≠ .pushReturn) :
    Committed t := by
  cases move with
  | pushReturn => exact absurd rfl ongoing
  | push pc | pushLoadHead pc | pushFull pc => rw [Committed, pc] at committed; cases committed
  | pushRoom | pushWrite | pushStoreHead => trivial
  | _ => exact committed

theorem untouched_move (move : Move E s a t) (own : actor a = .producer) (busy : s.producer ≠ .idle)
    (ongoing : a ≠ .pushReturn) (failing : ¬Committed t) : Untouched s t := by
  cases move with
  | setItem pc | push pc => exact absurd pc busy
  | pushLoadHead pc read => exact ⟨rfl, Atomic.load_history read, rfl, rfl⟩
  | pushFull pc read => exact ⟨rfl, rfl, Atomic.load_history read, rfl⟩
  | pushRoom | pushWrite | pushStoreHead => exact absurd trivial failing
  | pushReturn => exact absurd rfl ongoing
  | sizeLoadHead pc read => exact ⟨rfl, Atomic.load_history read, rfl, rfl⟩
  | sizeLoadTail pc read => exact ⟨rfl, rfl, Atomic.load_history read, rfl⟩
  | size | sizeReturn => exact ⟨rfl, rfl, rfl, rfl⟩
  | _ => cases own

variable {out : T} {delivered : List T}

theorem popping_frame (popping : Popping out delivered s) (pc : t.consumer = s.consumer)
    (held : t.out = s.out) (log : t.delivered = s.delivered) : Popping out delivered t := by
  unfold Popping at popping ⊢
  rwa [pc, held, log]

theorem popping_move (popping : Popping out delivered s) (busy : s.consumer ≠ .idle)
    (move : Move E s a t) (ongoing : a ≠ .popReturn) : Popping out delivered t := by
  cases move with
  | setOut pc | pop pc => exact absurd pc busy
  | popLoadTail pc => rwa [Popping, pc] at popping
  | @popEmpty lag into v head pc read =>
    rw [Popping, pc] at popping
    cases into with
    | reference => exact popping
    | optional => exact popping
  | popSome pc => rwa [Popping, pc] at popping
  | popReference pc | popOptional pc =>
    rw [Popping, pc] at popping
    exact ⟨popping.2, _, rfl⟩
  | @popStoreTail c result pc =>
    rw [Popping, pc] at popping
    obtain ⟨log, v, value⟩ := popping
    simp only [Popping, value, log]
    rfl
  | popReturn => exact absurd rfl ongoing
  | _ => exact popping_frame popping rfl rfl rfl

theorem popBusy_move (busy : s.consumer ≠ .idle) (move : Move E s a t) (ongoing : a ≠ .popReturn) :
    t.consumer ≠ .idle := by
  cases move with
  | popReturn => exact absurd rfl ongoing
  | pop | popLoadTail | popEmpty | popSome | popReference | popOptional | popStoreTail =>
    intro impossible
    cases impossible
  | _ => exact busy

variable {acts : List (Action T)} {how : Passing} {into : Into} {called : State S T}

theorem push_called (moved : step E s (.push how) = some called) :
    called = { s with producer := .loadHead how s.item } := by
  cases step_move moved with
  | push => rfl

theorem pop_called (moved : step E s (.pop into) = some called) :
    called = { s with consumer := .loadTail into } := by
  cases step_move moved with
  | pop => rfl

theorem trying_run (holds : Inv start s) (trying : Trying x accepted stored s) (busy : s.producer ≠ .idle)
    (runs : run (step E) s acts = some t) (ongoing : .pushReturn ∉ acts) :
    Inv start t ∧ Trying x accepted stored t ∧ t.producer ≠ .idle := by
  have kept : ∀ u a v, a ≠ .pushReturn → Inv start u →
      Trying x accepted stored u ∧ u.producer ≠ .idle → Move E u a v →
      Trying x accepted stored v ∧ v.producer ≠ .idle := by
    intro u a v inside holds facts move
    obtain ⟨trying, busy⟩ := facts
    have same : ∀ y, a ≠ .setItem y := by
      intro y assigns
      subst assigns
      cases move with
      | setItem pc => exact busy pc
    exact ⟨trying_move holds trying move same (absurd · inside), busy_move busy move inside⟩
  exact Inv.until kept holds ⟨trying, busy⟩ runs ongoing

theorem committed_run (committed : Committed s) (runs : run (step E) s acts = some t)
    (ongoing : .pushReturn ∉ acts) : Committed t := by
  apply run_avoids _ committed runs ongoing
  intro u a v inside committed moved
  exact committed_move committed (step_move moved) inside

theorem retrying_run (holds : Inv start s) (trying : Trying x accepted stored s)
    (untried : ∀ y, s.producer ≠ .ret true y) (runs : run (step E) s acts = some t)
    (same : ∀ y, .setItem y ∉ acts) (before : .pushStoreHead ∉ acts) :
    Inv start t ∧ Trying x accepted stored t ∧ ∀ y, t.producer ≠ .ret true y := by
  refine run_keeps
    (I := fun u => Inv start u ∧ Trying x accepted stored u ∧ ∀ y, u.producer ≠ .ret true y)
    ?_ ⟨holds, trying, untried⟩ runs
  intro u a v member facts moved
  obtain ⟨holds, trying, untried⟩ := facts
  have move := step_move moved
  have keeps : ∀ y, a ≠ .setItem y := fun y assigns => same y (assigns ▸ member)
  have unstored : a ≠ .pushStoreHead := fun stores => before (stores ▸ member)
  exact ⟨inv_move holds move, trying_move holds trying move keeps (fun _ => untried),
    untried_move untried move unstored⟩

theorem popping_run (popping : Popping out delivered s) (busy : s.consumer ≠ .idle)
    (runs : run (step E) s acts = some t) (ongoing : .popReturn ∉ acts) : Popping out delivered t := by
  have kept : ∀ (u : State S T) a v, a ≠ .popReturn → Popping out delivered u ∧ u.consumer ≠ .idle →
      step E u a = some v → Popping out delivered v ∧ v.consumer ≠ .idle := by
    intro u a v inside facts moved
    have move := step_move moved
    exact ⟨popping_move facts.1 facts.2 move inside, popBusy_move facts.2 move inside⟩
  exact (run_avoids kept ⟨popping, busy⟩ runs ongoing).1

/-- A push that returned false: the argument is as the call found it, and nothing that the
call itself did touched the counters or a slot. -/
structure Refused (E : Element T) (s called t : State S T) (acts : List (Action T)) : Prop where
  item : t.item = s.item
  accepted : t.accepted = s.accepted
  head : t.head.history = s.head.history
  own : ∀ front a back u v, acts = front ++ a :: back → run (step E) called front = some u →
    step E u a = some v → actor a = .producer → Untouched u v

theorem push_call {pushed : Bool} (holds : Inv start s) (moved : step E s (.push how) = some called)
    (runs : run (step E) called acts = some t) (ongoing : .pushReturn ∉ acts)
    (pc : t.producer = .ret pushed x) :
    x = s.item ∧ (pushed = true → t.accepted = s.accepted ++ [s.item]) ∧
      (pushed = false → Refused E s called t acts) := by
  have holdsCalled := inv_move holds (step_move moved)
  obtain rfl := push_called moved
  have trying : Trying s.item s.accepted s.head.history { s with producer := .loadHead how s.item } :=
    ⟨rfl, rfl, rfl⟩
  have busy : ({ s with producer := .loadHead how s.item } : State S T).producer ≠ .idle := by
    intro impossible
    cases impossible
  obtain ⟨holdsEnd, ended, -⟩ := trying_run holdsCalled trying busy runs ongoing
  rw [Trying, pc] at ended
  cases pushed with
  | true => exact ⟨ended.1, fun _ => ended.2, fun impossible => absurd impossible (by decide)⟩
  | false =>
    obtain ⟨item, log, history⟩ := ended
    have facts := holdsEnd.producer
    rw [ProducerOk, pc] at facts
    refine ⟨(facts rfl).symm.trans item, fun impossible => absurd impossible (by decide), fun _ => ?_⟩
    refine ⟨item, log, history, ?_⟩
    intro front a back u v split runsFront step own
    subst split
    simp only [List.mem_append, List.mem_cons, not_or] at ongoing
    obtain ⟨notFront, notHere, notBack⟩ := ongoing
    obtain ⟨-, -, busyThere⟩ := trying_run holdsCalled trying busy runsFront notFront
    obtain ⟨u', runsFront', rest⟩ := run_append.mp runs
    obtain ⟨v', step', runsBack⟩ := run_cons.mp rest
    cases runsFront.symm.trans runsFront'
    cases step.symm.trans step'
    have failing : ¬Committed v := by
      intro committed
      have late := committed_run committed runsBack notBack
      rw [Committed, pc] at late
      exact late
    exact untouched_move (step_move step) own busyThere (Ne.symm notHere) failing

theorem pop_call {result : PopResult T} (holds : Inv start s) (moved : step E s (.pop into) = some called)
    (runs : run (step E) called acts = some t) (ongoing : .popReturn ∉ acts)
    (pc : t.consumer = .ret result) :
    match result.value t.out with
    | some v => t.delivered = s.delivered ++ [v] ∧ t.accepted[s.delivered.length]? = some v
    | none => t.out = s.out ∧ t.delivered = s.delivered := by
  have holdsEnd := inv_preserved.run (inv_move holds (step_move moved)) runs
  obtain rfl := pop_called moved
  have popping : Popping s.out s.delivered { s with consumer := .loadTail into } := ⟨rfl, rfl⟩
  have busy : ({ s with consumer := .loadTail into } : State S T).consumer ≠ .idle := by
    intro impossible
    cases impossible
  have ended := popping_run popping busy runs ongoing
  simp only [Popping, pc] at ended
  cases value : result.value t.out with
  | none => simpa only [value] using ended
  | some v =>
    simp only [value] at ended ⊢
    refine ⟨ended, ?_⟩
    rw [holdsEnd.accepted_eq, ended]
    simp

/-- However many pushes fail, and whatever the others do meanwhile, the producer's object
keeps its value, and the first push that succeeds hands over that value. -/
theorem retry (holds : Inv start s) (idle : s.producer = .idle) {tries : List (Action T)} {u : State S T}
    (same : ∀ y, .setItem y ∉ tries) (before : .pushStoreHead ∉ tries)
    (runs : run (step E) s tries = some u) :
    u.accepted = s.accepted ∧ (u.producer = .idle → u.item = s.item) ∧
      ∀ t, step E u .pushStoreHead = some t →
        t.accepted = s.accepted ++ [s.item] ∧ t.producer = .ret true s.item := by
  have trying : Trying s.item s.accepted s.head.history s := by
    rw [Trying, idle]
    exact ⟨rfl, rfl, rfl⟩
  have untried : ∀ y, s.producer ≠ .ret true y := by
    intro y impossible
    cases idle.symm.trans impossible
  obtain ⟨-, tried, pending⟩ := retrying_run holds trying untried runs same before
  refine ⟨?_, ?_, ?_⟩
  · unfold Trying at tried
    split at tried
    next y pc => exact absurd pc (pending y)
    next => exact tried.2.1
    next => exact tried.2.1
  · intro idle
    rw [Trying, idle] at tried
    exact tried.1
  · intro t stored
    cases step_move stored with
    | pushStoreHead pc =>
      rw [Trying, pc] at tried
      obtain ⟨rfl, log, -⟩ := tried
      exact ⟨congrArg (· ++ [_]) log, rfl⟩

/-- Failed calls change nothing of their caller's, and what a successful pop delivers is what
the argument of the matching push held when that push was called. -/
theorem values_handed_over (E : Element T) (start : S.Size) (s : State S T)
    (reached : Reachable (step E) (initial E start) s) :
    (∀ how called acts t pushed x, step E s (.push how) = some called →
      run (step E) called acts = some t → .pushReturn ∉ acts → t.producer = .ret pushed x →
      x = s.item ∧ (pushed = true → t.accepted = s.accepted ++ [s.item]) ∧
        (pushed = false → Refused E s called t acts)) ∧
    (∀ into called acts t result, step E s (.pop into) = some called →
      run (step E) called acts = some t → .popReturn ∉ acts → t.consumer = .ret result →
      match result.value t.out with
      | some v => t.delivered = s.delivered ++ [v] ∧ t.accepted[s.delivered.length]? = some v
      | none => t.out = s.out ∧ t.delivered = s.delivered) ∧
    (∀ tries u, s.producer = .idle → (∀ y, .setItem y ∉ tries) → .pushStoreHead ∉ tries →
      run (step E) s tries = some u →
      u.accepted = s.accepted ∧ (u.producer = .idle → u.item = s.item) ∧
        ∀ t, step E u .pushStoreHead = some t →
          t.accepted = s.accepted ++ [s.item] ∧ t.producer = .ret true s.item) := by
  have holds := inv_reachable reached
  refine ⟨?_, ?_, ?_⟩
  · intro how called acts t pushed x moved runs ongoing pc
    exact push_call holds moved runs ongoing pc
  · intro into called acts t result moved runs ongoing pc
    exact pop_call holds moved runs ongoing pc
  · intro tries u idle same before runs
    exact retry holds idle same before runs

/-- Boxes that moving leaves empty. -/
def boxes : Element (Option Nat) where
  fresh := none
  moved := fun _ => none

/-- The ring is full when the fourth box is pushed; the consumer takes one before the
producer tries again. -/
def refusedOnce : List (Action (Option Nat)) :=
  ([.pushLoadHead 0, .pushLoadTail 0, .pushReturn] : List (Action (Option Nat))) ++ popCall .optional ++
    ([.push .move, .pushLoadHead 0, .pushLoadTail 0, .pushWrite] : List (Action (Option Nat)))

theorem values_handed_over_refused :
    ∃ s : State fourSlots (Option Nat),
      run (step boxes) (initial boxes 0) (pushCall (some 1) .move ++ pushCall (some 2) .move ++
        pushCall (some 3) .move ++ ([.setItem (some 4)] : List (Action (Option Nat)))) = some s ∧
      (∃ called t, step boxes s (.push .move) = some called ∧
        run (step boxes) called [.pushLoadHead 0, .pushLoadTail 0] = some t ∧
        t.producer = .ret false (some 4) ∧ Refused boxes s called t [.pushLoadHead 0, .pushLoadTail 0]) ∧
      (∃ called t, step boxes s (.pop .optional) = some called ∧
        run (step boxes) called [.popLoadTail 0, .popLoadHead 0, .popRead, .popStoreTail] = some t ∧
        t.delivered = [some 1] ∧ t.accepted[0]? = some (some 1)) ∧
      ∃ called u t, step boxes s (.push .move) = some called ∧ run (step boxes) called refusedOnce = some u ∧
        step boxes u .pushStoreHead = some t ∧ u.item = none ∧
        t.accepted = [some 1, some 2, some 3, some 4] ∧ t.producer = .ret true (some 4) := by
  have filled : run (step boxes) (initial boxes 0 : State fourSlots (Option Nat))
      (pushCall (some 1) .move ++ pushCall (some 2) .move ++ pushCall (some 3) .move ++
        ([.setItem (some 4)] : List (Action (Option Nat)))) = some _ := rfl
  obtain ⟨pushed, popped, retried⟩ := values_handed_over boxes 0 _ ⟨_, filled⟩
  obtain ⟨-, -, refused⟩ := pushed .move _ [.pushLoadHead 0, .pushLoadTail 0] _ false (some 4) rfl rfl
    (by decide) rfl
  have taken := popped .optional _ [.popLoadTail 0, .popLoadHead 0, .popRead, .popStoreTail] _
    (.opt (some (some 1))) rfl rfl (by decide) rfl
  obtain ⟨-, -, handed⟩ := retried (.push .move :: refusedOnce) _ rfl (by simp [refusedOnce, popCall])
    (by decide) rfl
  obtain ⟨accepted, returned⟩ := handed _ rfl
  exact ⟨_, filled, ⟨_, _, rfl, rfl, rfl, refused rfl⟩, ⟨_, _, rfl, rfl, taken.1, taken.2⟩,
    _, _, _, rfl, rfl, rfl, rfl, accepted, returned⟩

end Cpp20Showcase.Lockfree.SpscMoves
