import Cpp20Showcase.Coroutines.GeneratorDrain

/-! `generator | std::views::take(n)`, as the tests of `03_coroutines/generator.h` use it. The
counted iterator of the view is incremented after the last element too, so every loop resumes
the body once more than it visits values. -/

namespace Cpp20Showcase.Coroutines.GeneratorTake
open Lib Generator GeneratorDelivery GeneratorDrain

variable {T E Var : Type}

/-- What a loop leaves: the world, the values visited, and the exception that ended it. -/
abbrev Visit (Var T E : Type) := World Var T E × List T × Option E

/-- `count() == 0 || base() == end`, the body of the loop with `*it`, and `++it`. -/
def takeLoop (w : World Var T E) (it : Iterator) : Nat → List T → Option (Visit Var T E)
  | 0, out => some (w, out, none)
  | count + 1, out => do
      if ← equalsEnd w it then some (w, out, none)
      else
        let v ← deref w it
        match ← advance w it with
        | (w', some e) => some (w', out ++ [v], some e)
        | (w', none) => takeLoop w' it count (out ++ [v])

/-- `for (auto v : x | views::take(n))`; the view's `begin()` is that of the generator. -/
def take (w : World Var T E) (x : Var) (n : Nat) : Option (Visit Var T E) :=
  match w.object x with
  | none => none
  | some it => do
      match ← advance w it with
      | (w', some e) => some (w', [], some e)
      | (w', none) => takeLoop w' it n []

/-- One such loop after the other over one generator. -/
def takes (w : World Var T E) (x : Var) : List Nat → Option (List (List T × Option E))
  | [] => some []
  | n :: ns => do
      let (w', visited, raised) ← take w x n
      let later ← takes w' x ns
      some ((visited, raised) :: later)

def yielded (body : Nat → Signal T E) : Nat → List T
  | 0 => []
  | m + 1 =>
    if (yielded body m).length = m then
      match body m with
      | .yield v => yielded body m ++ [v]
      | _ => yielded body m
    else yielded body m

def raisedAt (body : Nat → Signal T E) (m : Nat) : Option E :=
  if (yielded body m).length = m then
    match body m with
    | .throw e => some e
    | _ => none
  else none

def raisedIn (body : Nat → Signal T E) (m : Nat) : Nat → Option E
  | 0 => none
  | n + 1 => (raisedAt body m).or (raisedIn body (m + 1) n)

/-- The loops over consecutive pieces of the sequence, each followed by a value left out. -/
def pieces (body : Nat → Signal T E) (m : Nat) : List Nat → List (List T × Option E)
  | [] => []
  | n :: ns => ((yielded body (m + n)).drop m, raisedIn body m (n + 1)) :: pieces body (m + n + 1) ns

variable {body : Nat → Signal T E} {f : Frame T E} {m n : Nat} {v : T} {e : E} {w : World Var T E} {l : List T}

theorem yielded_length_le (m : Nat) : (yielded body m).length ≤ m := by
  induction m with
  | zero => exact Nat.le_refl 0
  | succ m ih =>
    rw [yielded]
    split
    · split
      · simpa using ih
      · exact Nat.le_succ_of_le ih
    · exact Nat.le_succ_of_le ih

theorem yielded_succ_yield (reached : (yielded body m).length = m) (next : body m = .yield v) :
    yielded body (m + 1) = yielded body m ++ [v] := by
  rw [yielded, if_pos reached, next]

theorem yielded_succ_end (next : ∀ v, body m ≠ .yield v) : yielded body (m + 1) = yielded body m := by
  rw [yielded]
  split
  · split
    next v yields => exact absurd yields (next v)
    next => rfl
  · rfl

theorem yielded_stopped (stopped : (yielded body m).length < m) (n : Nat) :
    yielded body (m + n) = yielded body m := by
  induction n with
  | zero => rfl
  | succ n ih =>
    have short : (yielded body (m + n)).length ≠ m + n := by
      rw [ih]
      omega
    rw [← Nat.add_assoc, yielded, if_neg short, ih]

theorem raisedIn_stopped (stopped : (yielded body m).length < m) (n : Nat) : raisedIn body m n = none := by
  induction n generalizing m with
  | zero => rfl
  | succ n ih =>
    have later : (yielded body (m + 1)).length < m + 1 := by
      rw [yielded_stopped stopped 1]
      omega
    rw [raisedIn, raisedAt, if_neg (by omega), Option.none_or, ih later]

theorem yielded_prefix (m n : Nat) : ∃ rest, yielded body (m + n) = yielded body m ++ rest := by
  induction n with
  | zero => exact ⟨[], (List.append_nil _).symm⟩
  | succ n ih =>
    obtain ⟨rest, same⟩ := ih
    rw [← Nat.add_assoc, yielded]
    split
    · split
      next v yields => exact ⟨rest ++ [v], by rw [same, List.append_assoc]⟩
      next => exact ⟨rest, same⟩
    · exact ⟨rest, same⟩

theorem yielded_ended (ended : ∀ v, body m ≠ .yield v) (n : Nat) : yielded body (m + n) = yielded body m := by
  have further := yielded_succ_end ended
  cases n with
  | zero => rfl
  | succ n =>
    have short : (yielded body (m + 1)).length < m + 1 := by
      rw [further]
      exact Nat.lt_succ_of_le (yielded_length_le m)
    rw [show m + (n + 1) = m + 1 + n by omega, yielded_stopped short, further]

theorem yielded_last (reached : (yielded body (m + 1)).length = m + 1) :
    ∃ v, yielded body (m + 1) = yielded body m ++ [v] ∧ (yielded body m).length = m := by
  have most : (yielded body m).length ≤ m := yielded_length_le m
  rw [yielded] at reached ⊢
  split at reached
  next before =>
    rw [if_pos before]
    split at reached
    next v yields => exact ⟨v, rfl, before⟩
    next => omega
  next => omega

structure At (body : Nat → Signal T E) (m : Nat) (f : Frame T E) : Prop where
  produced : Produced body f (yielded body m)
  done : f.done = true ↔ (yielded body m).length < m

theorem at_start : At body 0 (.start body) where
  produced := .start body
  done := by simp [Frame.start]

theorem At.stays (here : At body m f) (stopped : f.done = true) (n : Nat) : At body (m + n) f := by
  have short := here.done.mp stopped
  constructor
  · rw [yielded_stopped short]
    exact here.produced
  · rw [yielded_stopped short]
    exact iff_of_true stopped (by omega)

theorem At.running (here : At body m f) (more : f.done = false) :
    f = GeneratorDrain.running body (yielded body m) ∧ (yielded body m).length = m := by
  have short : ¬(yielded body m).length < m := fun short => by
    rw [here.done.mpr short] at more
    cases more
  have most : (yielded body m).length ≤ m := yielded_length_le m
  refine ⟨?_, by omega⟩
  cases here.produced with
  | running => rfl
  | finished => cases more
  | threw => cases more

theorem raisedAt_reached (reached : (yielded body m).length = m) :
    raisedAt body m = match body m with | .throw e => some e | _ => none := if_pos reached

theorem At.resume (here : At body m f) (more : f.done = false) :
    At body (m + 1) f.resume ∧ f.resume.exception = raisedAt body m := by
  obtain ⟨rfl, reached⟩ := here.running more
  have yields := here.produced.yields
  have same : body (yielded body m).length = body m := congrArg body reached
  have raised := raisedAt_reached reached
  cases next : body m with
  | yield v =>
    have further := yielded_succ_yield reached next
    rw [next] at same raised
    rw [resume_yield same, raised, ← further]
    refine ⟨⟨.running (further ▸ yields.snoc same), ?_⟩, rfl⟩
    refine iff_of_false nofun ?_
    rw [further, List.length_append, List.length_singleton]
    omega
  | finish =>
    have further : yielded body (m + 1) = yielded body m := yielded_succ_end (by simp [next])
    rw [next] at same raised
    rw [resume_finish same, raised]
    refine ⟨⟨by rw [further]; exact .finished yields same, ?_⟩, rfl⟩
    rw [further]
    exact iff_of_true rfl (by omega)
  | throw e =>
    have further : yielded body (m + 1) = yielded body m := yielded_succ_end (by simp [next])
    rw [next] at same raised
    rw [resume_throw same, raised]
    refine ⟨⟨by rw [further]; exact .threw yields same, ?_⟩, rfl⟩
    rw [further]
    exact iff_of_true rfl (by omega)

theorem At.stopped_quiet (here : At body m f) (stopped : f.done = true) : raisedAt body m = none := by
  have short := here.done.mp stopped
  exact if_neg (by omega)

theorem advance_at (alive : w.live 0 = some f) (here : At body m f) :
    ∃ w' f', advance w (some 0) = some (w', raisedAt body m) ∧ w'.live 0 = some f' ∧
      w'.object = w.object ∧ At body (m + 1) f' := by
  cases stopped : f.done with
  | true =>
    refine ⟨w, f, ?_, alive, rfl, here.stays stopped 1⟩
    rw [advance, alive, Option.map_some, if_pos stopped, here.stopped_quiet stopped]
  | false =>
    obtain ⟨next, raised⟩ := here.resume stopped
    exact ⟨_, f.resume, raised ▸ advance_live alive stopped, Owners.live_put alive, rfl, next⟩

/-- From its first element on, the loop visits what there is of `n` values; in any case the
body has then been asked for the one after. -/
theorem takeLoop_at (alive : w.live 0 = some f) (here : At body (m + 1) f) :
    ∃ w' f', takeLoop w (some 0) n l =
        some (w', l ++ (yielded body (m + n)).drop m, raisedIn body (m + 1) n) ∧
      w'.live 0 = some f' ∧ w'.object = w.object ∧ At body (m + 1 + n) f' := by
  induction n generalizing m w f l with
  | zero =>
    refine ⟨w, f, ?_, alive, rfl, here⟩
    rw [takeLoop, Nat.add_zero, List.drop_of_length_le (yielded_length_le _), List.append_nil]
    rfl
  | succ n ih =>
    cases stopped : f.done with
    | true =>
      have short := here.done.mp stopped
      refine ⟨w, f, ?_, alive, rfl, here.stays stopped _⟩
      have nothing : (yielded body (m + (n + 1))).drop m = [] := by
        apply List.drop_of_length_le
        rw [show m + (n + 1) = m + 1 + n by omega, yielded_stopped short]
        omega
      rw [takeLoop, equalsEnd, alive, nothing, raisedIn_stopped short, List.append_nil]
      simp only [Option.map_some, Option.bind_eq_bind, Option.bind_some, stopped, if_true]
    | false =>
      obtain ⟨rfl, reached⟩ := here.running stopped
      obtain ⟨v, last, before⟩ := yielded_last reached
      obtain ⟨w', f', advanced, alive', object, here'⟩ := advance_at alive here
      have current : (running body (yielded body (m + 1))).currentValue = some v := by simp [running, last]
      have visited : takeLoop w (some 0) (n + 1) l =
          (raisedAt body (m + 1)).elim (takeLoop w' (some 0) n (l ++ [v])) fun e => some (w', l ++ [v], some e) := by
        rw [takeLoop, equalsEnd, deref, alive, advanced]
        simp only [Option.map_some, Option.bind_eq_bind, Option.bind_some, stopped, current]
        cases raisedAt body (m + 1) with
        | none => rfl
        | some e => rfl
      rw [visited, raisedIn]
      cases raised : raisedAt body (m + 1) with
      | some e =>
        have ended : ∀ u, body (m + 1) ≠ .yield u := by
          intro u yields
          rw [raisedAt_reached reached, yields] at raised
          cases raised
        have short : (yielded body (m + 1 + 1)).length < m + 1 + 1 := by
          rw [yielded_succ_end ended]
          omega
        refine ⟨w', f', ?_, alive', object, ?_⟩
        · have only : (yielded body (m + (n + 1))).drop m = [v] := by
            rw [show m + (n + 1) = m + 1 + n by omega, yielded_ended ended, last, List.drop_left' before]
          rw [only]
          rfl
        · have stays := here'.stays (here'.done.mpr short) n
          rwa [show m + 1 + (n + 1) = m + 1 + 1 + n by omega]
      | none =>
        obtain ⟨w'', f'', looped, alive'', object', here''⟩ := ih (l := l ++ [v]) alive' here'
        refine ⟨w'', f'', ?_, alive'', object'.trans object, ?_⟩
        · obtain ⟨rest, whole⟩ : ∃ rest, yielded body (m + 1 + n) = _ ++ rest := yielded_prefix (m + 1) n
          have drops : (yielded body (m + (n + 1))).drop m = v :: (yielded body (m + 1 + n)).drop (m + 1) := by
            rw [show m + (n + 1) = m + 1 + n by omega, whole, List.drop_left' reached, last,
              List.append_assoc, List.drop_left' before]
            rfl
          rw [drops]
          simpa using looped
        · rwa [show m + 1 + (n + 1) = m + 1 + 1 + n by omega]

variable {x : Var}

theorem take_at (alive : w.live 0 = some f) (held : w.object x = some (some 0)) (here : At body m f) (n : Nat) :
    ∃ w' f', take w x n = some (w', (yielded body (m + n)).drop m, raisedIn body m (n + 1)) ∧
      w'.live 0 = some f' ∧ w'.object = w.object ∧ At body (m + n + 1) f' := by
  obtain ⟨w', f', advanced, alive', object, here'⟩ := advance_at alive here
  have begun : take w x n =
      (raisedAt body m).elim (takeLoop w' (some 0) n []) fun e => some (w', [], some e) := by
    rw [take, held]
    simp only [advanced, Option.bind_eq_bind, Option.bind_some]
    cases raisedAt body m with
    | none => rfl
    | some e => rfl
  rw [begun, raisedIn]
  cases raised : raisedAt body m with
  | some e =>
    have reached : (yielded body m).length = m := by
      by_contra short
      rw [raisedAt, if_neg short] at raised
      cases raised
    have ended : ∀ u, body m ≠ .yield u := by
      intro u yields
      rw [raisedAt_reached reached, yields] at raised
      cases raised
    have short : (yielded body (m + 1)).length < m + 1 := by
      rw [yielded_succ_end ended]
      omega
    refine ⟨w', f', ?_, alive', object, ?_⟩
    · rw [yielded_ended ended, List.drop_of_length_le (Nat.le_of_eq reached)]
      rfl
    · have stays := here'.stays (here'.done.mpr short) n
      rwa [show m + n + 1 = m + 1 + n by omega]
  | none =>
    obtain ⟨w'', f'', looped, alive'', object', here''⟩ := takeLoop_at (n := n) (l := []) alive' here'
    refine ⟨w'', f'', looped, alive'', object'.trans object, ?_⟩
    rwa [show m + n + 1 = m + 1 + n by omega]

theorem takes_at (alive : w.live 0 = some f) (held : w.object x = some (some 0)) (here : At body m f)
    (ns : List Nat) : takes w x ns = some (pieces body m ns) := by
  induction ns generalizing m w f with
  | nil => rfl
  | cons n ns ih =>
    obtain ⟨w', f', taken, alive', object, here'⟩ := take_at alive held here n
    rw [takes, taken]
    simp only [Option.bind_eq_bind, Option.bind_some, ih alive' (object ▸ held) here', pieces]

/-- Loops over `g | take(n)`, one after the other, visit consecutive pieces of what the body
yields, except that each piece is followed by a value which no loop visits. An exception goes
to the loop that asked for the value in its place, also when that is the one left out. -/
theorem takes_pieces [DecidableEq Var] (body : Nat → Signal T E) (x : Var) (ns : List Nat) :
    takes (initial body x).world x ns = some (pieces body 0 ns) := by
  have held : (initial body x).world.object x = some (some 0) := by simp only [initial, Function.update_self]
  exact takes_at rfl held at_start ns

example : (takes (initial (fun n => if n < 5 then .yield n else .throw true) 0).world 0 [2, 0, 2, 3]) =
    some [([0, 1], none), ([], none), ([4], some true), ([], none)] := by decide

theorem FiniteBody.yielded_eq (b : FiniteBody T E) (m : Nat) : yielded b.body m = b.values.take m := by
  induction m with
  | zero => rfl
  | succ m ih =>
    rw [yielded, ih, List.length_take]
    split
    next reached =>
      by_cases inside : m < b.values.length
      · have next := b.yields m _ (List.getElem?_eq_getElem inside)
        rw [next, List.take_add_one, List.getElem?_eq_getElem inside]
        rfl
      · have last : m = b.values.length := by omega
        have whole : b.values.take (m + 1) = b.values.take m := by
          rw [List.take_of_length_le (by omega), List.take_of_length_le (by omega)]
        split
        next v yields => exact absurd (last ▸ yields) (b.stops v)
        next => exact whole.symm
    next => rw [List.take_of_length_le (by omega), List.take_of_length_le (by omega)]

theorem FiniteBody.raisedIn_eq (b : FiniteBody T E) (m n : Nat) :
    raisedIn b.body m n =
      if m ≤ b.values.length ∧ b.values.length < m + n then
        match b.body b.values.length with
        | .throw e => some e
        | _ => none
      else none := by
  induction n generalizing m with
  | zero => rw [raisedIn, if_neg (by omega)]
  | succ n ih =>
    rw [raisedIn, raisedAt, FiniteBody.yielded_eq, List.length_take, ih]
    rcases Nat.lt_trichotomy m b.values.length with before | rfl | after
    · have next := b.yields m _ (List.getElem?_eq_getElem before)
      have reached : min m b.values.length = m := by omega
      simp only [reached, if_true, next, Option.none_or]
      congr 1
      apply propext
      omega
    · rw [if_pos (Nat.min_self _), if_neg (by omega), if_pos (by omega), Option.or_none]
    · rw [if_neg (by omega), if_neg (by omega), if_neg (by omega), Option.none_or]

/-- `for (const auto& v : rng) co_yield v;`, over a range that outlives the generator and
is not changed while it runs. -/
def from_range (rng : List T) (n : Nat) : Signal T E :=
  match rng[n]? with
  | some v => .yield v
  | none => .finish

def rangeBody (rng : List T) : FiniteBody T E where
  body := from_range rng
  values := rng
  yields := fun n v found => by rw [from_range, found]
  stops := fun v yields => by
    rw [from_range, List.getElem?_eq_none (Nat.le_refl _)] at yields
    cases yields

def rangePieces (rng : List T) (m : Nat) : List Nat → List (List T × Option E)
  | [] => []
  | n :: ns => ((rng.drop m).take n, none) :: rangePieces rng (m + n + 1) ns

/-- A loop over all of `from_range(rng)` gets back `rng`, and loops over parts of it get the
parts of `rng`, up to the values left out. -/
theorem from_range_takes [DecidableEq Var] (rng : List T) (x : Var) (ns : List Nat) :
    Collects pushThenIncrement (from_range (E := E) rng) (.returned rng) ∧
      takes (initial (from_range (E := E) rng) x).world x ns = some (rangePieces rng 0 ns) := by
  have finish : (rangeBody (E := E) rng).body (rangeBody (E := E) rng).values.length = .finish := by
    simp only [rangeBody, from_range, List.getElem?_eq_none (Nat.le_refl _)]
  constructor
  · have collected := collects_values (rangeBody (E := E) rng)
    rw [FiniteBody.ended, finish] at collected
    exact collected
  · rw [takes_pieces]
    have same (m : Nat) : pieces (from_range (E := E) rng) m ns = rangePieces rng m ns := by
      induction ns generalizing m with
      | nil => rfl
      | cons n ns ih =>
        have yields : yielded (from_range (E := E) rng) (m + n) = rng.take (m + n) :=
          FiniteBody.yielded_eq (rangeBody rng) (m + n)
        have quiet : raisedIn (from_range (E := E) rng) m (n + 1) = none := by
          have raised := FiniteBody.raisedIn_eq (rangeBody (E := E) rng) m (n + 1)
          rw [finish] at raised
          exact raised.trans (ite_self none)
        rw [pieces, rangePieces, yields, quiet, ih, List.drop_take, Nat.add_sub_cancel_left]
    rw [same]

end Cpp20Showcase.Coroutines.GeneratorTake
