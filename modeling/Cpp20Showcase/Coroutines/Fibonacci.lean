import Cpp20Showcase.Coroutines.GeneratorTake
import Cpp20Showcase.Coroutines.Irange
import Mathlib.Data.Nat.Fib.Basic

/-! `fibonacci` from `03_coroutines/generator.h`. The sum that a resumption forms is the value
of the resumption after the next, so it overflows before the value to be yielded does. -/

namespace Cpp20Showcase.Coroutines.Fibonacci
open Lib Generator GeneratorDelivery GeneratorDrain GeneratorTake Irange

def locals : Nat → Option (LongLong × LongLong)
  | 0 => some (0, ⟨1, by decide⟩)
  | n + 1 => do
      let (a, b) ← locals n
      let tmp ← a.add b
      some (b, tmp)

def fibonacci (n : Nat) : Signal LongLong Overflow :=
  match locals n with
  | none => .throw .overflow
  | some (a, _) => .yield a

variable {n k : Nat} {a b : LongLong}

theorem locals_succ (before : locals n = some (a, b)) (first : a.value = Nat.fib n)
    (second : b.value = Nat.fib (n + 1)) :
    locals (n + 1) = if fits : Fits 64 (Nat.fib (n + 2) : Int) then some (b, ⟨_, fits⟩) else none := by
  have sum : a.value + b.value = (Nat.fib (n + 2) : Int) := by
    rw [first, second, Nat.fib_add_two]
    exact (Int.natCast_add _ _).symm
  rw [locals, before]
  simp only [Option.bind_eq_bind, Option.bind_some]
  split
  next fits =>
    have added : a.add b = some ⟨_, fits⟩ := Signed.add_eq_some_iff.mpr sum.symm
    rw [added, Option.bind_some]
  next unfit =>
    have overflows : a.add b = none := Signed.add_eq_none_iff.mpr (sum ▸ unfit)
    rw [overflows, Option.bind_none]

theorem fits_fib (small : n ≤ 92) : Fits 64 (Nat.fib n : Int) := by
  have most : Nat.fib n ≤ Nat.fib 92 := Nat.fib_mono small
  have last : Nat.fib 92 < 2 ^ 63 := by decide
  constructor
  · have least := Int.natCast_nonneg (Nat.fib n)
    omega
  · omega

theorem locals_eq (small : n ≤ 91) :
    locals n = some (⟨Nat.fib n, fits_fib (by omega)⟩, ⟨Nat.fib (n + 1), fits_fib (by omega)⟩) := by
  induction n with
  | zero => rfl
  | succ n ih =>
    rw [locals_succ (ih (by omega)) rfl rfl, dif_pos (fits_fib (by omega))]

theorem locals_overflow : locals 92 = none := by
  rw [locals_succ (locals_eq (n := 91) le_rfl) rfl rfl]
  exact dif_neg (by decide)

theorem fibonacci_overflow : fibonacci 92 = .throw .overflow := by
  rw [fibonacci, locals_overflow]

def finiteBody : FiniteBody LongLong Overflow where
  body := fibonacci
  values := List.ofFn fun k : Fin 92 => ⟨Nat.fib k, fits_fib (by omega)⟩
  yields := by
    intro k v found
    rw [List.getElem?_ofFn] at found
    split at found
    next inside =>
      cases found
      rw [fibonacci, locals_eq (by omega)]
    next => cases found
  stops := by
    intro v yields
    rw [List.length_ofFn, fibonacci_overflow] at yields
    cases yields

theorem finiteBody_body : finiteBody.body = fibonacci := rfl

/-- `fibonacci() | views::take(n)` visits the first `n` Fibonacci numbers just for `n ≤ 91`:
`fib 91` can be yielded and `fib 92` is a `long long`, but a view that ends with `fib 91` asks
for the next value, and with it the sum `fib 93`. -/
theorem fibonacci_take {Var : Type} [DecidableEq Var] (x : Var) (n : Nat) :
    (∃ visited, takes (initial fibonacci x).world x [n] = some [(visited, none)] ∧
        visited.map Signed.value = (List.range n).map fun k => (Nat.fib k : Int)) ↔
      n ≤ 91 := by
  have length : finiteBody.values.length = 92 := List.length_ofFn
  have raised : raisedIn fibonacci 0 (n + 1) = if 92 < n + 1 then some .overflow else none := by
    have eq := FiniteBody.raisedIn_eq finiteBody 0 (n + 1)
    rw [finiteBody_body, length, fibonacci_overflow] at eq
    simpa only [Nat.zero_le, true_and, Nat.zero_add] using eq
  have values : yielded fibonacci n = finiteBody.values.take n := FiniteBody.yielded_eq finiteBody n
  rw [takes_pieces, pieces, pieces, Nat.zero_add, List.drop_zero, raised, values]
  constructor
  · intro all
    obtain ⟨visited, same, -⟩ := all
    by_contra many
    rw [if_pos (by omega)] at same
    cases same
  · intro few
    rw [if_neg (by omega)]
    refine ⟨_, rfl, ?_⟩
    apply List.ext_getElem
    · simp only [List.length_map, List.length_take, length, List.length_range]
      omega
    · intro k left right
      simp only [List.getElem_map, List.getElem_take, finiteBody, List.getElem_ofFn, List.getElem_range]

end Cpp20Showcase.Coroutines.Fibonacci
