import Cpp20Showcase.Lockfree.SpscQueue

/-! A call of the queue never waits: whatever the other threads do or fail to do, the caller
can take its next step, and after at most five steps of its own the call has returned. -/

namespace Cpp20Showcase.Lockfree.SpscWaitFree
open Lib Lib.TransitionSystem SpscQueue

variable {S : Shape} {T : Type} {E : Element T} {start : S.Size} {s t : State S T} {a : Action T} {u : Thread}

/-- Steps that a push has left at most, with its return. -/
def pushLeft : ProducerPc S T → Nat
  | .idle => 0
  | .loadHead _ _ => 5
  | .loadTail _ _ _ => 4
  | .write _ _ _ => 3
  | .storeHead _ _ => 2
  | .ret _ _ => 1

def popLeft : ConsumerPc S T → Nat
  | .idle => 0
  | .loadTail _ => 5
  | .loadHead _ _ => 4
  | .read _ _ => 3
  | .storeTail _ _ => 2
  | .ret _ => 1

def sizeLeft : SizePc S → Nat
  | .idle => 0
  | .loadHead => 3
  | .loadTail _ => 2
  | .ret _ => 1

def callLeft (s : State S T) : Thread → Nat
  | .producer => pushLeft s.producer
  | .consumer => popLeft s.consumer
  | .observer _ => 0

def left (s : State S T) (u : Thread) : Nat := callLeft s u + sizeLeft (s.size u)

def returns : Action T → Bool
  | .pushReturn | .popReturn | .sizeReturn _ => true
  | _ => false

def OneCall (s : State S T) : Prop := ∀ u, callLeft s u = 0 ∨ s.size u = .idle

/-- What a step means to a thread that is in a call. -/
def Counts (a : Action T) (before after : Nat) (own : Prop) : Prop :=
  before ≠ 0 → (own → after < before ∧ (returns a = false → after ≠ 0)) ∧ (¬own → after = before)

theorem counts_own {v : Thread} (others : ∀ u, u ≠ v → left t u = left s u)
    (fewer : left s v ≠ 0 → left t v < left s v ∧ (returns a = false → left t v ≠ 0)) :
    Counts a (left s u) (left t u) (u = v) := by
  intro busy
  constructor
  · rintro rfl
    exact fewer busy
  · exact others u

theorem left_push (pop : t.consumer = s.consumer) (size : t.size = s.size) (other : u ≠ .producer) :
    left t u = left s u := by
  cases u with
  | producer => exact absurd rfl other
  | consumer => simp only [left, callLeft, pop, size]
  | observer id => simp only [left, callLeft, size]

theorem left_pop (push : t.producer = s.producer) (size : t.size = s.size) (other : u ≠ .consumer) :
    left t u = left s u := by
  cases u with
  | producer => simp only [left, callLeft, push, size]
  | consumer => exact absurd rfl other
  | observer id => simp only [left, callLeft, size]

theorem left_size {v : Thread} {q : SizePc S} (push : t.producer = s.producer) (pop : t.consumer = s.consumer)
    (size : t.size = Function.update s.size v q) (other : u ≠ v) : left t u = left s u := by
  have same : t.size u = s.size u := by rw [size, Function.update_of_ne other]
  cases u with
  | producer => simp only [left, callLeft, push, same]
  | consumer => simp only [left, callLeft, pop, same]
  | observer id => simp only [left, callLeft, same]

theorem callLeft_idle (free : s.inCall u = false) : callLeft s u = 0 := by
  cases u with
  | producer =>
    simp only [State.inCall] at free
    split at free
    next idle => simp only [callLeft, idle, pushLeft]
    next => cases free
  | consumer =>
    simp only [State.inCall] at free
    split at free
    next idle => simp only [callLeft, idle, popLeft]
    next => cases free
  | observer id => rfl

theorem counts_move (move : Move E s a t) : Counts a (left s u) (left t u) (within u a = true) := by
  have push (pop : t.consumer = s.consumer) (size : t.size = s.size) (here : within u a = true ↔ u = .producer)
      (fewer : left s .producer ≠ 0 → pushLeft t.producer < pushLeft s.producer ∧
        (returns a = false → pushLeft t.producer ≠ 0)) :
      Counts a (left s u) (left t u) (within u a = true) := by
    rw [here]
    refine counts_own (fun u other => left_push pop size other) fun busy => ?_
    have less := fewer busy
    simp only [left, callLeft, size]
    exact ⟨by omega, fun stays => by have := less.2 stays; omega⟩
  have pop (push : t.producer = s.producer) (size : t.size = s.size) (here : within u a = true ↔ u = .consumer)
      (fewer : left s .consumer ≠ 0 → popLeft t.consumer < popLeft s.consumer ∧
        (returns a = false → popLeft t.consumer ≠ 0)) :
      Counts a (left s u) (left t u) (within u a = true) := by
    rw [here]
    refine counts_own (fun u other => left_pop push size other) fun busy => ?_
    have less := fewer busy
    simp only [left, callLeft, size]
    exact ⟨by omega, fun stays => by have := less.2 stays; omega⟩
  have size {v : Thread} {q : SizePc S} (push : t.producer = s.producer) (pop : t.consumer = s.consumer)
      (size : t.size = Function.update s.size v q) (here : within u a = true ↔ u = v)
      (fewer : left s v ≠ 0 → sizeLeft q < sizeLeft (s.size v) ∧ (returns a = false → sizeLeft q ≠ 0)) :
      Counts a (left s u) (left t u) (within u a = true) := by
    rw [here]
    refine counts_own (fun u other => left_size push pop size other) fun busy => ?_
    have less := fewer busy
    have same : callLeft t v = callLeft s v := by cases v <;> simp only [callLeft, push, pop]
    rw [left, left, same, size, Function.update_self]
    exact ⟨by omega, fun stays => by have := less.2 stays; omega⟩
  cases move with
  | setItem => exact fun _ => ⟨nofun, fun _ => rfl⟩
  | setOut => exact fun _ => ⟨nofun, fun _ => rfl⟩
  | push pc free =>
    exact push rfl rfl (by simp [within, actor, eq_comm]) fun busy =>
      absurd (by simp only [left, callLeft, pc, free, pushLeft, sizeLeft]) busy
  | pushLoadHead pc | pushFull pc | pushRoom pc | pushWrite pc | pushStoreHead pc | pushReturn pc =>
    exact push rfl rfl (by simp [within, actor, eq_comm]) fun _ => by simp [pc, pushLeft, returns]
  | pop pc free =>
    exact pop rfl rfl (by simp [within, actor, eq_comm]) fun busy =>
      absurd (by simp only [left, callLeft, pc, free, popLeft, sizeLeft]) busy
  | popLoadTail pc | popEmpty pc | popSome pc | popReference pc | popOptional pc | popStoreTail pc | popReturn pc =>
    exact pop rfl rfl (by simp [within, actor, eq_comm]) fun _ => by simp [pc, popLeft, returns]
  | size pc free =>
    exact size rfl rfl rfl (by simp [within, actor, eq_comm]) fun busy =>
      absurd (by rw [left, callLeft_idle free, pc]; rfl) busy
  | sizeLoadHead pc | sizeLoadTail pc | sizeReturn pc =>
    exact size rfl rfl rfl (by simp [within, actor, eq_comm]) fun _ => by simp [pc, sizeLeft, returns]

theorem oneCall_move (one : OneCall s) (move : Move E s a t) : OneCall t := by
  have push (pop : t.consumer = s.consumer) (size : t.size = s.size) (quiet : s.size .producer = .idle) :
      OneCall t := by
    intro u
    rw [size]
    cases u with
    | producer => exact .inr quiet
    | consumer =>
      have same : callLeft t .consumer = callLeft s .consumer := congrArg popLeft pop
      rw [same]
      exact one .consumer
    | observer id => exact .inl rfl
  have pop (push : t.producer = s.producer) (size : t.size = s.size) (quiet : s.size .consumer = .idle) :
      OneCall t := by
    intro u
    rw [size]
    cases u with
    | producer =>
      have same : callLeft t .producer = callLeft s .producer := congrArg pushLeft push
      rw [same]
      exact one .producer
    | consumer => exact .inr quiet
    | observer id => exact .inl rfl
  have size {v : Thread} {q : SizePc S} (same : ∀ u, callLeft t u = callLeft s u)
      (size : t.size = Function.update s.size v q) (free : callLeft s v = 0) : OneCall t := by
    intro u
    rw [same, size]
    by_cases own : u = v
    · subst own
      exact .inl free
    · rw [Function.update_of_ne own]
      exact one u
  cases move with
  | setItem => exact one
  | setOut => exact one
  | push pc free => exact push rfl rfl free
  | pushLoadHead pc | pushFull pc | pushRoom pc | pushWrite pc | pushStoreHead pc | pushReturn pc =>
    exact push rfl rfl ((one .producer).resolve_left (by simp [callLeft, pc, pushLeft]))
  | pop pc free => exact pop rfl rfl free
  | popLoadTail pc | popEmpty pc | popSome pc | popReference pc | popOptional pc | popStoreTail pc | popReturn pc =>
    exact pop rfl rfl ((one .consumer).resolve_left (by simp [callLeft, pc, popLeft]))
  | size pc free => exact size (fun u => by cases u <;> rfl) rfl (callLeft_idle free)
  | sizeLoadHead pc | sizeLoadTail pc | sizeReturn pc =>
    exact size (fun u => by cases u <;> rfl) rfl ((one _).resolve_right (by simp [pc]))

theorem oneCall_reachable (reached : Reachable (step E) (initial E start) s) : OneCall s := by
  refine reached.invariant (fun s a t one moved => oneCall_move one (step_move moved)) ?_
  intro u
  exact .inr rfl

theorem left_le (one : OneCall s) (u : Thread) : left s u ≤ 5 := by
  have push (pc : ProducerPc S T) : pushLeft pc ≤ 5 := by cases pc <;> simp [pushLeft]
  have pop (pc : ConsumerPc S T) : popLeft pc ≤ 5 := by cases pc <;> simp [popLeft]
  have size (pc : SizePc S) : sizeLeft pc ≤ 3 := by cases pc <;> simp [sizeLeft]
  have call : callLeft s u ≤ 5 := by
    cases u with
    | producer => exact push _
    | consumer => exact pop _
    | observer id => exact Nat.zero_le 5
  have inside := size (s.size u)
  rcases one u with free | idle
  · rw [left, free]
    omega
  · rw [left, idle]
    exact call

theorem size_enabled (busy : sizeLeft (s.size u) ≠ 0) : ∃ a t, within u a = true ∧ step E s a = some t := by
  cases pc : s.size u with
  | idle => simp [pc, sizeLeft] at busy
  | loadHead =>
    exact ⟨.sizeLoadHead u 0, _, decide_eq_true rfl,
      by simp only [step, sizeLoadHead, pc, Atomic.load_latest, Option.map_some]; rfl⟩
  | loadTail h =>
    exact ⟨.sizeLoadTail u 0, _, decide_eq_true rfl,
      by simp only [step, sizeLoadTail, pc, Atomic.load_latest, Option.map_some]; rfl⟩
  | ret r => exact ⟨.sizeReturn u, _, decide_eq_true rfl, by simp only [step, sizeReturn, pc]; rfl⟩

theorem call_enabled (busy : left s u ≠ 0) : ∃ a t, within u a = true ∧ step E s a = some t := by
  by_cases size : sizeLeft (s.size u) = 0
  · have call : callLeft s u ≠ 0 := by
      rw [left] at busy
      omega
    cases busy' : s.inCall u with
    | false => exact absurd (callLeft_idle busy') call
    | true => exact inCall_enabled busy'
  · exact size_enabled size

theorem steps_add_up {acts : List (Action T)} (busy : left s u ≠ 0) (runs : run (step E) s acts = some t)
    (lasts : ∀ a ∈ acts, within u a = true → returns a = false) :
    left t u ≠ 0 ∧ (acts.filter (within u)).length + left t u ≤ left s u := by
  induction acts generalizing s with
  | nil =>
    cases runs
    exact ⟨busy, (Nat.zero_add _).le⟩
  | cons a acts ih =>
    obtain ⟨v, first, rest⟩ := run_cons.mp runs
    obtain ⟨own, other⟩ := counts_move (u := u) (step_move first) busy
    have later : ∀ b ∈ acts, within u b = true → returns b = false :=
      fun b member => lasts b (List.mem_cons_of_mem a member)
    by_cases here : within u a = true
    · obtain ⟨less, stays⟩ := own here
      obtain ⟨ongoing, shorter⟩ := ih (stays (lasts a List.mem_cons_self here)) rest later
      rw [List.filter_cons_of_pos here, List.length_cons]
      exact ⟨ongoing, by omega⟩
    · have same := other here
      obtain ⟨ongoing, shorter⟩ := ih (same ▸ busy) rest later
      rw [List.filter_cons_of_neg here]
      exact ⟨ongoing, same ▸ shorter⟩

/-- In any run and between any steps of the others, a push, a pop or a `size_approx` that has
not returned can go on, and has made at most four steps of its own. -/
theorem calls_wait_free (E : Element T) (start : S.Size) (s t : State S T) (u : Thread)
    (acts : List (Action T)) (reached : Reachable (step E) (initial E start) s) (busy : left s u ≠ 0)
    (runs : run (step E) s acts = some t) (lasts : ∀ a ∈ acts, within u a = true → returns a = false) :
    (acts.filter (within u)).length ≤ 4 ∧ ∃ a v, within u a = true ∧ step E t a = some v := by
  obtain ⟨ongoing, spent⟩ := steps_add_up busy runs lasts
  have most := left_le (oneCall_reachable reached) u
  exact ⟨by omega, call_enabled ongoing⟩

/-- Two values are pushed, and a third push begins. -/
def begun : List (Action Int) := List.flatten [pushCall 7 .copy, pushCall 8 .copy, [.push .copy]]

/-- The consumer pops twice while the producer is inside one push. -/
def overtaken : List (Action Int) :=
  List.flatten
    [[.pushLoadHead 0], popCall .optional, [.pushLoadTail 1, .pushWrite], popCall .optional, [.pushStoreHead]]

theorem calls_wait_free_run :
    ∃ s t : State fourSlots Int,
      run (step ints) (initial ints 0) begun = some s ∧ run (step ints) s overtaken = some t ∧
      (overtaken.filter (within .producer)).length ≤ 4 ∧
      ∃ a v, within .producer a = true ∧ step ints t a = some v := by
  have first : run (step ints) (initial ints 0 : State fourSlots Int) begun = some _ := rfl
  refine ⟨_, _, first, rfl, ?_⟩
  exact calls_wait_free ints 0 _ _ .producer _ ⟨_, first⟩ (by decide) rfl (by decide)

end Cpp20Showcase.Lockfree.SpscWaitFree
