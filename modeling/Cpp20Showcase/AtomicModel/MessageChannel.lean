import Cpp20Showcase.Lib.Atomic
import Cpp20Showcase.Lib.HappensBefore
import Cpp20Showcase.Lib.TransitionSystem

/-! `MessageChannel` from `07_atomic_model/atomic_model.h`, with one producer and any number
of consumers. The flag may be read stale; a load that finds it set takes in what the store
released. -/

namespace Cpp20Showcase.AtomicModel.MessageChannel
open Lib Lib.TransitionSystem

inductive Thread (ι : Type) where
  | producer
  | consumer (i : ι)
  deriving DecidableEq

/-- Before the call of `produce` with `left` calls to make, or before an access of one. -/
inductive ProducerPc where
  | idle (left : Nat)
  | write (left : Nat) (value : Int)
  | store (left : Nat)

inductive ConsumerPc where
  | idle
  | load
  | read

variable {ι : Type}

/-- A store to the flag carries the clock it released. `produced` and `returned` list the
arguments of `produce` and the results of `consume`, the latest first. -/
structure State (ι : Type) where
  flag : Atomic (Thread ι) (Bool × Clock (Thread ι))
  data : Plain (Thread ι) Int
  clocks : Thread ι → Clock (Thread ι)
  producer : ProducerPc
  consumer : ι → ConsumerPc
  produced : List Int
  returned : List (ι × Int)

inductive Action (ι : Type) where
  | produce (value : Int)
  | write
  | store
  | consume (i : ι)
  | load (i : ι) (lag : Nat)
  | read (i : ι)

def initial (calls : Nat) : State ι where
  flag := .make (false, fun _ => 0)
  data := .make 0
  clocks := fun _ _ => 0
  producer := .idle calls
  consumer := fun _ => .idle
  produced := []
  returned := []

variable [DecidableEq ι]

def produce (s : State ι) (value : Int) : Option (State ι) :=
  match s.producer with
  | .idle (left + 1) => some { s with producer := .write left value, produced := value :: s.produced }
  | _ => none

/-- `data = value;` -/
def write (s : State ι) : Option (State ι) :=
  match s.producer with
  | .write left value => some
      { s with
        data := s.data.write s.clocks .producer value
        clocks := tick s.clocks .producer
        producer := .store left }
  | _ => none

/-- `flag.store(true, release);` -/
def store (s : State ι) : Option (State ι) :=
  match s.producer with
  | .store left => some
      { s with
        flag := s.flag.store .producer (true, s.clocks .producer)
        producer := .idle left }
  | _ => none

def consume (s : State ι) (i : ι) : Option (State ι) :=
  match s.consumer i with
  | .idle => some { s with consumer := Function.update s.consumer i .load }
  | _ => none

/-- One round of `while (!flag.load(acquire)) yield;` -/
def load (s : State ι) (i : ι) (lag : Nat) : Option (State ι) :=
  match s.consumer i with
  | .load => (s.flag.load (.consumer i) lag).map fun ((set, released), flag) =>
      { s with
        flag := flag
        clocks := acquire s.clocks (.consumer i) released
        consumer := if set then Function.update s.consumer i .read else s.consumer }
  | _ => none

/-- `return data;` -/
def read (s : State ι) (i : ι) : Option (State ι) :=
  match s.consumer i with
  | .read => some
      { s with
        data := s.data.read s.clocks (.consumer i)
        clocks := tick s.clocks (.consumer i)
        consumer := Function.update s.consumer i .idle
        returned := (i, s.data.value) :: s.returned }
  | _ => none

def step (s : State ι) : Action ι → Option (State ι)
  | .produce value => produce s value
  | .write => write s
  | .store => store s
  | .consume i => consume s i
  | .load i lag => load s i lag
  | .read i => read s i

def Racy (s : State ι) : Prop :=
  (∃ left value, s.producer = .write left value ∧ ¬s.data.Writable (s.clocks .producer)) ∨
    ∃ i, s.consumer i = .read ∧ ¬s.data.Readable (s.clocks (.consumer i))

variable {s t : State ι} {a : Action ι}

inductive Move (s : State ι) : State ι → Prop where
  | produce {left value} (pc : s.producer = .idle (left + 1)) :
      Move s { s with producer := .write left value, produced := value :: s.produced }
  | write {left value} (pc : s.producer = .write left value) :
      Move s
        { s with
          data := s.data.write s.clocks .producer value
          clocks := tick s.clocks .producer
          producer := .store left }
  | store {left} (pc : s.producer = .store left) :
      Move s
        { s with
          flag := s.flag.store .producer (true, s.clocks .producer)
          producer := .idle left }
  | consume {i} (pc : s.consumer i = .idle) :
      Move s { s with consumer := Function.update s.consumer i .load }
  | spin {i lag released flag} (pc : s.consumer i = .load)
      (read : s.flag.load (.consumer i) lag = some ((false, released), flag)) :
      Move s { s with flag := flag, clocks := acquire s.clocks (.consumer i) released }
  | subscribe {i lag released flag} (pc : s.consumer i = .load)
      (read : s.flag.load (.consumer i) lag = some ((true, released), flag)) :
      Move s
        { s with
          flag := flag
          clocks := acquire s.clocks (.consumer i) released
          consumer := Function.update s.consumer i .read }
  | read {i} (pc : s.consumer i = .read) :
      Move s
        { s with
          data := s.data.read s.clocks (.consumer i)
          clocks := tick s.clocks (.consumer i)
          consumer := Function.update s.consumer i .idle
          returned := (i, s.data.value) :: s.returned }

theorem step_move (moved : step s a = some t) : Move s t := by
  cases a with
  | produce value =>
    simp only [step, MessageChannel.produce] at moved
    split at moved
    next left pc => cases moved; exact .produce pc
    next => cases moved
  | write =>
    simp only [step, MessageChannel.write] at moved
    split at moved
    next left value pc => cases moved; exact .write pc
    next => cases moved
  | store =>
    simp only [step, MessageChannel.store] at moved
    split at moved
    next left pc => cases moved; exact .store pc
    next => cases moved
  | consume i =>
    simp only [step, MessageChannel.consume] at moved
    split at moved
    next pc => cases moved; exact .consume pc
    next => cases moved
  | load i lag =>
    simp only [step, MessageChannel.load] at moved
    split at moved
    next pc =>
      obtain ⟨⟨⟨set, released⟩, flag⟩, read, rfl⟩ := Option.map_eq_some_iff.mp moved
      cases set with
      | false => exact .spin pc read
      | true => exact .subscribe pc read
    next => cases moved
  | read i =>
    simp only [step, MessageChannel.read] at moved
    split at moved
    next pc => cases moved; exact .read pc
    next => cases moved

omit [DecidableEq ι] in
theorem producer_ne {i : ι} : Thread.producer ≠ .consumer i := nofun

structure Written (s : State ι) (v : Int) : Prop where
  produced : s.produced = [v]
  value : s.data.value = v
  writes : s.data.writes = [⟨.producer, 1⟩]
  known : 1 ≤ s.clocks .producer .producer

def Untouched (s : State ι) : Prop := s.data = .make 0 ∧ s.clocks .producer .producer = 0

def Stage (s : State ι) : Prop :=
  match s.producer with
  | .idle left => (left ≤ 1 ∧ s.produced = [] ∧ Untouched s) ∨
      (left = 0 ∧ (∃ v, Written s v) ∧ s.flag.current.1 = true)
  | .write left v => left = 0 ∧ s.produced = [v] ∧ Untouched s
  | .store left => left = 0 ∧ ∃ v, Written s v

structure Inv (s : State ι) : Prop where
  stage : Stage s
  published : ∀ m ∈ s.flag.history, m.1 = true → (∃ v, Written s v) ∧ 1 ≤ m.2 .producer
  reading : ∀ i, s.consumer i = .read → (∃ v, Written s v) ∧ 1 ≤ s.clocks (.consumer i) .producer
  returned : ∀ i v, (i, v) ∈ s.returned → s.produced = [v]

omit [DecidableEq ι] in
theorem inv_initial {calls : Nat} (once : calls ≤ 1) : Inv (initial calls : State ι) where
  stage := .inl ⟨once, rfl, rfl, rfl⟩
  published := by
    intro m member set
    rw [List.mem_singleton.mp member] at set
    cases set
  reading := nofun
  returned := nofun

omit [DecidableEq ι] in
theorem Untouched.not_written {v : Int} (untouched : Untouched s) : ¬Written s v := by
  intro written
  have writes := written.writes
  rw [untouched.1] at writes
  cases writes

omit [DecidableEq ι] in
theorem Written.mono {v : Int} (written : Written s v) (produced : t.produced = s.produced)
    (value : t.data.value = s.data.value) (writes : t.data.writes = s.data.writes)
    (known : s.clocks .producer .producer ≤ t.clocks .producer .producer) : Written t v where
  produced := produced.trans written.produced
  value := value.trans written.value
  writes := writes.trans written.writes
  known := written.known.trans known

structure ConsumerStep (i : ι) (s t : State ι) : Prop where
  producer : t.producer = s.producer
  produced : t.produced = s.produced
  history : t.flag.history = s.flag.history
  data : t.data = s.data ∨ s.consumer i = .read ∧ t.data = s.data.read s.clocks (.consumer i)
  own : t.clocks .producer = s.clocks .producer
  clocks : ∀ u w, s.clocks u w ≤ t.clocks u w
  others : ∀ j, j ≠ i → t.consumer j = s.consumer j
  reading : t.consumer i = .read → (∃ v, Written s v) ∧ 1 ≤ t.clocks (.consumer i) .producer
  returned : ∀ j v, (j, v) ∈ t.returned → (j, v) ∈ s.returned ∨ s.data.value = v ∧ ∃ w, Written s w

theorem Inv.consumer {i : ι} (holds : Inv s) (move : ConsumerStep i s t) : Inv t := by
  have written {v : Int} (before : Written s v) : Written t v := by
    obtain same | ⟨-, same⟩ := move.data
    · exact before.mono move.produced (by rw [same]) (by rw [same]) (move.clocks _ _)
    · exact before.mono move.produced (by rw [same]; rfl) (by rw [same]; rfl) (move.clocks _ _)
  have untouched (before : Untouched s) : Untouched t := by
    obtain same | ⟨here, -⟩ := move.data
    · exact ⟨same.trans before.1, (congrFun move.own _).trans before.2⟩
    · obtain ⟨⟨v, contrary⟩, -⟩ := holds.reading i here
      exact absurd contrary before.not_written
  have current : t.flag.current = s.flag.current := (List.cons.inj move.history).1
  constructor
  · have stage := holds.stage
    unfold Stage at stage ⊢
    rw [move.producer, move.produced, current]
    split at stage
    · obtain ⟨few, none_yet, fresh⟩ | ⟨zero, ⟨v, before⟩, set⟩ := stage
      · exact .inl ⟨few, none_yet, untouched fresh⟩
      · exact .inr ⟨zero, ⟨v, written before⟩, set⟩
    · exact ⟨stage.1, stage.2.1, untouched stage.2.2⟩
    · obtain ⟨zero, v, before⟩ := stage
      exact ⟨zero, v, written before⟩
  · intro m member set
    obtain ⟨⟨v, before⟩, known⟩ := holds.published m (move.history ▸ member) set
    exact ⟨⟨v, written before⟩, known⟩
  · intro j here
    by_cases same : j = i
    · subst same
      obtain ⟨⟨v, before⟩, known⟩ := move.reading here
      exact ⟨⟨v, written before⟩, known⟩
    · rw [move.others j same] at here
      obtain ⟨⟨v, before⟩, known⟩ := holds.reading j here
      exact ⟨⟨v, written before⟩, known.trans (move.clocks _ _)⟩
  · intro j v member
    rw [move.produced]
    obtain earlier | ⟨rfl, w, before⟩ := move.returned j v member
    · exact holds.returned j v earlier
    · rw [before.value]
      exact before.produced

theorem inv_move (holds : Inv s) (move : Move s t) : Inv t := by
  have stage := holds.stage
  cases move with
  | @produce left value pc =>
    simp only [Stage, pc] at stage
    obtain ⟨few, none_yet, fresh⟩ | ⟨impossible, -⟩ := stage
    · refine ⟨⟨by omega, congrArg (value :: ·) none_yet, fresh⟩, ?_, ?_, ?_⟩
      · intro m member set
        obtain ⟨⟨v, before⟩, -⟩ := holds.published m member set
        exact absurd before fresh.not_written
      · intro i here
        obtain ⟨⟨v, before⟩, -⟩ := holds.reading i here
        exact absurd before fresh.not_written
      · intro i v member
        have contrary := holds.returned i v member
        rw [none_yet] at contrary
        cases contrary
    · cases impossible
  | @write left value pc =>
    simp only [Stage, pc] at stage
    obtain ⟨zero, only, fresh⟩ := stage
    have written : Written { s with
        data := s.data.write s.clocks .producer value
        clocks := tick s.clocks .producer
        producer := .store left } value := by
      refine ⟨only, rfl, ?_, ?_⟩
      · simp only [Plain.write, fresh.1, fresh.2, Plain.make]
      · change 1 ≤ tick s.clocks .producer .producer .producer
        rw [tick_self]
        exact Nat.le_add_left 1 _
    refine ⟨⟨zero, value, written⟩, ?_, ?_, holds.returned⟩
    · intro m member set
      obtain ⟨⟨v, before⟩, -⟩ := holds.published m member set
      exact absurd before fresh.not_written
    · intro i here
      obtain ⟨⟨v, before⟩, -⟩ := holds.reading i here
      exact absurd before fresh.not_written
  | @store left pc =>
    simp only [Stage, pc] at stage
    obtain ⟨zero, v, before⟩ := stage
    have written : Written { s with
        flag := s.flag.store .producer (true, s.clocks .producer)
        producer := .idle left } v := before.mono rfl rfl rfl le_rfl
    refine ⟨.inr ⟨zero, ⟨v, written⟩, rfl⟩, ?_, ?_, holds.returned⟩
    · intro m member set
      rw [Atomic.history_store] at member
      obtain rfl | earlier := List.mem_cons.mp member
      · exact ⟨⟨v, written⟩, before.known⟩
      · exact ⟨⟨v, written⟩, (holds.published m earlier set).2⟩
    · intro i here
      exact ⟨⟨v, written⟩, (holds.reading i here).2⟩
  | @consume i pc =>
    exact holds.consumer (i := i)
      { producer := rfl
        produced := rfl
        history := rfl
        data := .inl rfl
        own := rfl
        clocks := fun _ _ => le_rfl
        others := fun j other => Function.update_of_ne other _ _
        reading := by simp
        returned := fun j v member => .inl member }
  | @spin i lag released flag pc read =>
    have own : acquire s.clocks (.consumer i) released .producer = s.clocks .producer :=
      acquire_of_ne producer_ne
    exact holds.consumer (i := i)
      { producer := rfl
        produced := rfl
        history := Atomic.load_history read
        data := .inl rfl
        own := own
        clocks := fun _ _ => le_acquire
        others := fun _ _ => rfl
        reading := by simp [pc]
        returned := fun j v member => .inl member }
  | @subscribe i lag released flag pc read =>
    obtain ⟨found, -, -⟩ := Atomic.load_cases read
    obtain ⟨written, known⟩ := holds.published _ (List.mem_of_getElem? found) rfl
    have own : acquire s.clocks (.consumer i) released .producer = s.clocks .producer :=
      acquire_of_ne producer_ne
    exact holds.consumer (i := i)
      { producer := rfl
        produced := rfl
        history := Atomic.load_history read
        data := .inl rfl
        own := own
        clocks := fun _ _ => le_acquire
        others := fun j other => Function.update_of_ne other _ _
        reading := fun _ => ⟨written, known.trans released_le_acquire⟩
        returned := fun j v member => .inl member }
  | @read i pc =>
    have due := holds.reading i pc
    have own : tick s.clocks (.consumer i) .producer = s.clocks .producer := tick_of_ne producer_ne
    exact holds.consumer (i := i)
      { producer := rfl
        produced := rfl
        history := rfl
        data := .inr ⟨pc, rfl⟩
        own := own
        clocks := fun _ _ => le_tick
        others := fun j other => Function.update_of_ne other _ _
        reading := by simp
        returned := by
          intro j v member
          obtain latest | earlier := List.mem_cons.mp member
          · cases latest
            exact .inr ⟨rfl, due.1⟩
          · exact .inl earlier }

theorem inv_preserved : Preserved step (Inv (ι := ι)) :=
  fun _ _ _ holds moved => inv_move holds (step_move moved)

omit [DecidableEq ι] in
theorem Inv.not_racy (holds : Inv s) : ¬Racy s := by
  intro racy
  obtain ⟨left, value, pc, races⟩ | ⟨i, pc, races⟩ := racy
  · have stage := holds.stage
    simp only [Stage, pc] at stage
    apply races
    intro access member
    rw [stage.2.2.1] at member
    cases member
  · obtain ⟨⟨v, written⟩, known⟩ := holds.reading i pc
    apply races
    intro access member
    rw [written.writes, List.mem_singleton] at member
    subst member
    exact known

theorem subscribes {i : ι} (pc : s.consumer i = .load) (set : s.flag.current.1 = true) :
    ∃ flag, step s (.load i 0) = some
      { s with
        flag := flag
        clocks := acquire s.clocks (.consumer i) s.flag.current.2
        consumer := Function.update s.consumer i .read } := by
  refine ⟨s.flag.observe (.consumer i) s.flag.stores le_rfl, ?_⟩
  simp only [step, MessageChannel.load, pc, Atomic.load_latest, Option.map_some, set, ↓reduceIte]

theorem Inv.consumes {i : ι} {v : Int} (holds : Inv s) (through : s.producer = .idle 0)
    (produced : s.produced = [v]) (calling : s.consumer i ≠ .idle) :
    ∃ t, Reachable step s t ∧ t.consumer i = .idle ∧ t.returned = (i, v) :: s.returned := by
  have stage := holds.stage
  simp only [Stage, through] at stage
  obtain ⟨-, none_yet, -⟩ | ⟨-, ⟨w, written⟩, set⟩ := stage
  · rw [produced] at none_yet
    cases none_yet
  have same : s.data.value = v := by
    have only := written.produced
    rw [produced] at only
    cases only
    exact written.value
  have returns {u : State ι} (pc : u.consumer i = .read) (value : u.data.value = v) :
      ∃ t, step u (.read i) = some t ∧ t.consumer i = .idle ∧ t.returned = (i, v) :: u.returned := by
    refine ⟨_, by simp only [step, MessageChannel.read, pc]; rfl, Function.update_self _ _ _, ?_⟩
    rw [value]
  cases pc : s.consumer i with
  | idle => exact absurd pc calling
  | read =>
    obtain ⟨t, moved, after⟩ := returns pc same
    exact ⟨t, .of_step moved, after⟩
  | load =>
    obtain ⟨flag, subscribed⟩ := subscribes pc set
    obtain ⟨t, moved, after⟩ := returns (u := { s with
      flag := flag
      clocks := acquire s.clocks (.consumer i) s.flag.current.2
      consumer := Function.update s.consumer i .read }) (Function.update_self _ _ _) same
    exact ⟨t, (Reachable.of_step subscribed).next moved, after⟩

/-- A second `produce` may write between the load that finds the flag set and the read. -/
theorem races {calls : Nat} (again : 2 ≤ calls) (i : ι) :
    ∃ s : State ι, Reachable step (initial calls) s ∧ Racy s := by
  obtain ⟨left, rfl⟩ : ∃ left, calls = left + 2 := ⟨calls - 2, by omega⟩
  obtain ⟨s, published, pc, flag, producer, clocks⟩ : ∃ s : State ι,
      run step (initial (left + 2)) [.produce 0, .write, .store, .consume i] = some s ∧
        s.consumer i = .load ∧ s.flag.current = (true, tick (fun _ _ => 0) .producer .producer) ∧
        s.producer = .idle (left + 1) ∧ s.clocks = tick (fun _ _ => 0) .producer :=
    ⟨_, rfl, Function.update_self _ _ _, rfl, rfl, rfl⟩
  obtain ⟨taken, subscribed⟩ := subscribes pc (congrArg Prod.fst flag)
  have overwritten (u : State ι) (idle : u.producer = .idle (left + 1)) :
      run step u [.produce 0, .write] = some
        { u with
          data := u.data.write u.clocks .producer 0
          clocks := tick u.clocks .producer
          producer := .store left
          produced := 0 :: u.produced } := by
    simp only [run, step, MessageChannel.produce, MessageChannel.write, idle, Option.bind_some]
  refine ⟨_, (Reachable.next ⟨_, published⟩ subscribed).trans ⟨_, overwritten _ producer⟩, .inr ⟨i, ?_, ?_⟩⟩
  · exact Function.update_self _ _ _
  · intro readable
    have known := readable _ List.mem_cons_self
    simp [Access.Before, tick, acquire, flag, clocks] at known

/-- Exactly with one call of `produce` no access to `data` can ever race. Then, in every
reachable state, each `consume` that has returned gave the value produced, and those still
in progress can return it once the flag is set. -/
theorem message_passing (i : ι) (calls : Nat) :
    ((∀ s : State ι, Reachable step (initial calls) s → ¬Racy s) ↔ calls ≤ 1) ∧
      ∀ s : State ι, Reachable step (initial 1) s →
        (∀ j v, (j, v) ∈ s.returned → s.produced = [v]) ∧
        ∀ v, s.producer = .idle 0 → s.produced = [v] → ∀ j, s.consumer j ≠ .idle →
          ∃ t, Reachable step s t ∧ t.consumer j = .idle ∧ t.returned = (j, v) :: s.returned := by
  refine ⟨⟨fun free => ?_, fun once s reached => ?_⟩, fun s reached => ?_⟩
  · by_contra again
    have more : 2 ≤ calls := by omega
    obtain ⟨s, reached, racy⟩ := races more i
    exact free s reached racy
  · exact (reached.invariant inv_preserved (inv_initial once)).not_racy
  · have holds := reached.invariant inv_preserved (inv_initial le_rfl)
    exact ⟨holds.returned, fun v through produced j calling => holds.consumes through produced calling⟩

end Cpp20Showcase.AtomicModel.MessageChannel
