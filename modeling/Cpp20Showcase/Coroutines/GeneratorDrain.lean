import Cpp20Showcase.Coroutines.GeneratorDelivery

/-! Loops that drain a new generator into a list, with `++it` or with `*it++`. A copy of an
iterator is a copy of the handle, so `*it++` reads what the increment left in the frame. -/

namespace Cpp20Showcase.Coroutines.GeneratorDrain
open Lib Generator GeneratorDelivery

variable {T E Var : Type}

/-- What a draining loop comes to; undefined behaviour included. -/
inductive Drained (T E : Type) where
  | unfinished
  | undefined
  | returned (out : List T)
  | threw (out : List T) (e : E)

/-- What is in the braces of the loop: the world after it, what was collected, and the
exception that left it, if any. -/
abbrev Round (Var T E : Type) :=
  World Var T E → Iterator → List T → Option (World Var T E × List T × Option E)

/-- `out.push_back(*it); ++it;` -/
def pushThenIncrement : Round Var T E := fun w it out => do
  let v ← deref w it
  let (w', raised) ← advance w it
  some (w', out ++ [v], raised)

/-- `auto tmp = *this; ++(*this); return tmp;` -/
def postIncrement (w : World Var T E) (it : Iterator) : Option (World Var T E × Except E Iterator) :=
  let tmp := it
  (advance w it).map fun
    | (w', none) => (w', .ok tmp)
    | (w', some e) => (w', .error e)

/-- `out.push_back(*it++);` -/
def pushPostIncremented : Round Var T E := fun w it out => do
  match ← postIncrement w it with
  | (w', .ok tmp) =>
      let v ← deref w' tmp
      some (w', out ++ [v], none)
  | (w', .error e) => some (w', out, some e)

/-- `while (it != end)`, for a number of rounds. -/
def drainLoop (round : Round Var T E) : Nat → World Var T E → Iterator → List T → Drained T E
  | 0, _, _, _ => .unfinished
  | rounds + 1, w, it, out =>
    match equalsEnd w it with
    | none => .undefined
    | some true => .returned out
    | some false =>
      match round w it out with
      | none => .undefined
      | some (w', out', none) => drainLoop round rounds w' it out'
      | some (_, out', some e) => .threw out' e

/-- A new generator, and the loop from its `begin()`. -/
def drain (round : Round Unit T E) (body : Nat → Signal T E) (rounds : Nat) : Drained T E :=
  let w := (initial body ()).world
  match advance w (some 0) with
  | none => .undefined
  | some (w', none) => drainLoop round rounds w' (some 0) []
  | some (_, some e) => .threw [] e

def Collects (round : Round Unit T E) (body : Nat → Signal T E) (result : Drained T E) : Prop :=
  ∃ bound, ∀ rounds, bound ≤ rounds → drain round body rounds = result

theorem Collects.unique {round : Round Unit T E} {body : Nat → Signal T E} {a b : Drained T E}
    (left : Collects round body a) (right : Collects round body b) : a = b := by
  obtain ⟨m, left⟩ := left
  obtain ⟨n, right⟩ := right
  calc a = drain round body (max m n) := (left _ (Nat.le_max_left m n)).symm
    _ = b := right _ (Nat.le_max_right m n)

/-- A body that yields a finite sequence and then returns or throws. -/
structure FiniteBody (T E : Type) where
  body : Nat → Signal T E
  values : List T
  yields : Yields body values
  stops : ∀ v, body values.length ≠ .yield v

def FiniteBody.ended (b : FiniteBody T E) (out : List T) : Drained T E :=
  match b.body b.values.length with
  | .throw e => .threw out e
  | _ => .returned out

theorem FiniteBody.ended_injective (b : FiniteBody T E) : Function.Injective b.ended := by
  intro left right same
  unfold ended at same
  split at same
  · cases same
    rfl
  · cases same
    rfl

def FiniteBody.repeated (b : FiniteBody T E) : List T :=
  match b.body b.values.length with
  | .throw _ => []
  | _ => b.values.getLast?.toList

variable {body : Nat → Signal T E} {f : Frame T E} {vs rest out : List T} {v u : T} {e : E}
variable {w : World Var T E} {b : FiniteBody T E}

theorem advance_live (alive : w.live 0 = some f) (more : f.done = false) :
    advance w (some 0) = some (w.put 0 f.resume, f.resume.exception) := by
  rw [advance, alive, Option.map_some, more]
  rfl

theorem pushThenIncrement_live (out : List T) (alive : w.live 0 = some f) (more : f.done = false)
    (current : f.currentValue = some v) :
    pushThenIncrement w (some 0) out = some (w.put 0 f.resume, out ++ [v], f.resume.exception) := by
  rw [pushThenIncrement, deref, alive, Option.bind_some, current, advance_live alive more]
  rfl

theorem pushPostIncremented_live (out : List T) (alive : w.live 0 = some f) (more : f.done = false)
    (quiet : f.resume.exception = none) (current : f.resume.currentValue = some v) :
    pushPostIncremented w (some 0) out = some (w.put 0 f.resume, out ++ [v], none) := by
  have after : (w.put 0 f.resume).live 0 = some f.resume := Owners.live_put alive
  rw [pushPostIncremented, postIncrement, advance_live alive more, quiet]
  simp only [Option.map_some, Option.bind_eq_bind, Option.bind_some, deref, after, current]

theorem pushPostIncremented_throw (out : List T) (alive : w.live 0 = some f) (more : f.done = false)
    (raised : f.resume.exception = some e) :
    pushPostIncremented w (some 0) out = some (w.put 0 f.resume, out, some e) := by
  rw [pushPostIncremented, postIncrement, advance_live alive more, raised]
  rfl

def running (body : Nat → Signal T E) (vs : List T) : Frame T E :=
  ⟨body, vs.length, false, vs.getLast?, none⟩

theorem resume_yield (next : body vs.length = .yield v) :
    (running body vs).resume = running body (vs ++ [v]) := by
  simp [Frame.resume, running, next, Frame.yieldValue]

theorem resume_finish (next : body vs.length = .finish) :
    (running body vs).resume = { running body vs with resumed := vs.length + 1, done := true } := by
  simp [Frame.resume, running, next]

theorem resume_throw (next : body vs.length = .throw e) :
    (running body vs).resume =
      { running body vs with resumed := vs.length + 1, done := true, exception := some e } := by
  simp [Frame.resume, running, next, Frame.unhandledException]

theorem FiniteBody.next (same : b.values = vs ++ u :: rest) : b.body vs.length = .yield u := by
  apply b.yields
  rw [same]
  simp

theorem drainLoop_running {round : Round Var T E} {rounds : Nat}
    (alive : w.live 0 = some (running body vs)) :
    drainLoop round (rounds + 1) w (some 0) out =
      match round w (some 0) out with
      | none => .undefined
      | some (w', out', none) => drainLoop round rounds w' (some 0) out'
      | some (_, out', some e) => .threw out' e := by
  rw [drainLoop, equalsEnd, alive]
  rfl

theorem drainLoop_done {round : Round Var T E} {rounds : Nat} (alive : w.live 0 = some f)
    (stopped : f.done = true) : drainLoop round (rounds + 1) w (some 0) out = .returned out := by
  rw [drainLoop, equalsEnd, alive, Option.map_some, stopped]

theorem drainLoop_pushThenIncrement {rounds : Nat} (same : b.values = vs ++ v :: rest)
    (alive : w.live 0 = some (running b.body (vs ++ [v]))) (enough : rest.length + 2 ≤ rounds) :
    drainLoop pushThenIncrement rounds w (some 0) out = b.ended (out ++ v :: rest) := by
  induction rest generalizing rounds w vs v out with
  | nil =>
    obtain ⟨rounds, rfl⟩ : ∃ n, rounds = n + 2 := ⟨rounds - 2, by simp at enough; omega⟩
    have length : b.values.length = (vs ++ [v]).length := by rw [same]
    have pushed := pushThenIncrement_live out alive rfl (v := v) (by simp [running])
    have after : (w.put 0 _).live 0 = some (running b.body (vs ++ [v])).resume := Owners.live_put alive
    rw [drainLoop_running alive, pushed]
    cases next : b.body (vs ++ [v]).length with
    | yield u => exact absurd (length ▸ next) (b.stops u)
    | finish =>
      rw [resume_finish next] at after ⊢
      simp only [running, FiniteBody.ended, length, next]
      exact drainLoop_done after rfl
    | throw e =>
      rw [resume_throw next]
      simp only [FiniteBody.ended, length, next]
  | cons u rest tail =>
    obtain ⟨rounds, rfl⟩ : ∃ n, rounds = n + 1 := ⟨rounds - 1, by omega⟩
    have later : b.values = (vs ++ [v]) ++ u :: rest := by rw [same]; simp
    have pushed := pushThenIncrement_live out alive rfl (v := v) (by simp [running])
    have after : (w.put 0 _).live 0 = some (running b.body (vs ++ [v])).resume := Owners.live_put alive
    rw [resume_yield (b.next later)] at pushed after
    rw [drainLoop_running alive, pushed]
    have collected : drainLoop pushThenIncrement rounds _ (some 0) (out ++ [v]) = _ :=
      tail later after (by simp at enough; omega)
    simpa [running] using collected

theorem drainLoop_pushPostIncremented {rounds : Nat} (same : b.values = vs ++ v :: rest)
    (alive : w.live 0 = some (running b.body (vs ++ [v]))) (enough : rest.length + 2 ≤ rounds) :
    drainLoop pushPostIncremented rounds w (some 0) out = b.ended (out ++ rest ++ b.repeated) := by
  induction rest generalizing rounds w vs v out with
  | nil =>
    obtain ⟨rounds, rfl⟩ : ∃ n, rounds = n + 2 := ⟨rounds - 2, by simp at enough; omega⟩
    have length : b.values.length = (vs ++ [v]).length := by rw [same]
    have last : b.values.getLast? = some v := by simp [same]
    have after : (w.put 0 _).live 0 = some (running b.body (vs ++ [v])).resume := Owners.live_put alive
    rw [drainLoop_running alive]
    cases next : b.body (vs ++ [v]).length with
    | yield u => exact absurd (length ▸ next) (b.stops u)
    | finish =>
      have pushed := pushPostIncremented_live out alive rfl (v := v)
        (by rw [resume_finish next]; rfl) (by rw [resume_finish next]; simp [running])
      rw [resume_finish next] at after pushed
      rw [pushed]
      simp only [FiniteBody.ended, FiniteBody.repeated, length, next, last, Option.toList_some,
        List.append_nil]
      exact drainLoop_done after rfl
    | throw e =>
      have pushed := pushPostIncremented_throw out alive rfl (e := e) (by rw [resume_throw next])
      rw [pushed]
      simp only [FiniteBody.ended, FiniteBody.repeated, length, next, List.append_nil]
  | cons u rest tail =>
    obtain ⟨rounds, rfl⟩ : ∃ n, rounds = n + 1 := ⟨rounds - 1, by omega⟩
    have later : b.values = (vs ++ [v]) ++ u :: rest := by rw [same]; simp
    have after : (w.put 0 _).live 0 = some (running b.body (vs ++ [v])).resume := Owners.live_put alive
    have pushed := pushPostIncremented_live out alive rfl (v := u)
      (by rw [resume_yield (b.next later)]; rfl) (by rw [resume_yield (b.next later)]; simp [running])
    rw [resume_yield (b.next later)] at pushed after
    rw [drainLoop_running alive, pushed]
    have collected : drainLoop pushPostIncremented rounds _ (some 0) (out ++ [u]) = _ :=
      tail later after (by simp at enough; omega)
    simpa using collected

theorem collects_of_loop {round : Round Unit T E} {result : List T}
    (empty : b.values = [] → result = [])
    (loop : ∀ v rest w rounds, b.values = v :: rest → w.live 0 = some (running b.body [v]) →
      rest.length + 2 ≤ rounds → drainLoop round rounds w (some 0) [] = b.ended result) :
    Collects round b.body (b.ended result) := by
  refine ⟨b.values.length + 1, ?_⟩
  intro rounds enough
  have alive : (initial b.body ()).world.live 0 = some (running b.body []) := rfl
  have after : ((initial b.body ()).world.put 0 _).live 0 = some (running b.body []).resume :=
    Owners.live_put alive
  rw [drain, advance_live alive rfl]
  cases values : b.values with
  | nil =>
    rw [empty values]
    cases next : b.body 0 with
    | yield u => exact absurd (by rwa [values]) (b.stops u)
    | finish =>
      obtain ⟨rounds, rfl⟩ : ∃ n, rounds = n + 1 := ⟨rounds - 1, by omega⟩
      rw [resume_finish next] at after ⊢
      simp only [running, FiniteBody.ended, values, List.length_nil, next]
      exact drainLoop_done after rfl
    | throw e =>
      rw [resume_throw next]
      simp only [FiniteBody.ended, values, List.length_nil, next]
  | cons v rest =>
    have first : b.body ([] : List T).length = .yield v := b.next (show b.values = [] ++ v :: rest from values)
    rw [resume_yield first] at after ⊢
    exact loop v rest _ rounds values after (by simp [values] at enough; omega)

theorem collects_values (b : FiniteBody T E) :
    Collects pushThenIncrement b.body (b.ended b.values) := by
  apply collects_of_loop id
  intro v rest w rounds values alive enough
  rw [drainLoop_pushThenIncrement (show b.values = [] ++ v :: rest from values) alive enough, values]
  rfl

theorem collects_shifted (b : FiniteBody T E) :
    Collects pushPostIncremented b.body (b.ended (b.values.tail ++ b.repeated)) := by
  apply collects_of_loop
  · intro values
    unfold FiniteBody.repeated
    split
    · simp [values]
    · simp [values]
  · intro v rest w rounds values alive enough
    rw [drainLoop_pushPostIncremented (show b.values = [] ++ v :: rest from values) alive enough, values]
    rfl

theorem shift_eq_iff {a : T} : rest ++ [a] = v :: rest ↔ ∀ x ∈ v :: rest, x = a := by
  induction rest generalizing v with
  | nil => simp [eq_comm]
  | cons u rest tail =>
    rw [List.cons_append, List.cons.injEq, tail, List.forall_mem_cons (l := u :: rest)]
    constructor
    · intro same
      exact ⟨same.1 ▸ same.2 u List.mem_cons_self, same.2⟩
    · intro same
      exact ⟨(same.2 u List.mem_cons_self).trans same.1.symm, same.2⟩

theorem shifted_iff (b : FiniteBody T E) :
    b.values.tail ++ b.repeated = b.values ↔
      b.values = [] ∨
        (b.body b.values.length = .finish ∧ ∀ v ∈ b.values, b.values.getLast? = some v) := by
  cases next : b.body b.values.length with
  | yield u => exact absurd next (b.stops u)
  | finish =>
    simp only [FiniteBody.repeated, next, true_and]
    cases values : b.values with
    | nil => simp
    | cons v rest =>
      have last : (v :: rest).getLast? = some ((v :: rest).getLast (List.cons_ne_nil v rest)) :=
        List.getLast?_eq_some_getLast _
      rw [last, List.tail_cons, Option.toList_some, shift_eq_iff]
      simp [eq_comm]
  | throw e =>
    simp only [FiniteBody.repeated, next, List.append_nil]
    cases values : b.values with
    | nil => simp
    | cons v rest =>
      constructor
      · intro same
        have lengths := congrArg List.length same
        simp at lengths
      · intro either
        simp at either

/-- The two loops agree just when the body yields nothing, or returns and yields one value
all the time. -/
theorem post_increment_agrees_iff (b : FiniteBody T E) :
    (∃ result, Collects pushPostIncremented b.body result ∧ Collects pushThenIncrement b.body result) ↔
      b.values = [] ∨
        (b.body b.values.length = .finish ∧ ∀ v ∈ b.values, b.values.getLast? = some v) := by
  rw [← shifted_iff]
  constructor
  · intro agree
    obtain ⟨result, post, pre⟩ := agree
    have shifted := post.unique (collects_shifted b)
    have values := pre.unique (collects_values b)
    exact b.ended_injective (shifted.symm.trans values)
  · intro same
    have post := collects_shifted b
    rw [same] at post
    exact ⟨_, post, collects_values b⟩

def oneTwo : Nat → Signal Nat Empty
  | 0 => .yield 1
  | 1 => .yield 2
  | _ => .finish

/-- `*it++` skips the first value and repeats the last. -/
theorem post_increment_skips :
    (∀ rounds, 3 ≤ rounds → drain pushThenIncrement oneTwo rounds = .returned [1, 2]) ∧
      ∀ rounds, 3 ≤ rounds → drain pushPostIncremented oneTwo rounds = .returned [2, 2] := by
  constructor
  · intro rounds enough
    obtain ⟨more, rfl⟩ : ∃ n, rounds = n + 3 := ⟨rounds - 3, by omega⟩
    rfl
  · intro rounds enough
    obtain ⟨more, rfl⟩ : ∃ n, rounds = n + 3 := ⟨rounds - 3, by omega⟩
    rfl

end Cpp20Showcase.Coroutines.GeneratorDrain
