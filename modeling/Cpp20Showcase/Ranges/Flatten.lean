import Cpp20Showcase.Ranges.StableUnique

/-! `flatten` and `zip_to_pairs` from `02_ranges/ranges_demo.h`, and how the range functions work
on a range that is put together from parts. -/

namespace Cpp20Showcase.Ranges.Flatten

open Lib Lib.Representatives StableUnique

variable {α β : Type*}

/-- The loop of `std::ranges::copy` into a `std::back_inserter`. -/
def copyBack (result : List α) (inner : List α) : List α := inner.foldl (fun result v => result ++ [v]) result

def flatten (outer : List (List α)) : List α := outer.foldl copyBack []

/-- The loop of `zip_to_pairs`; the lists are what is left from `it1` and `it2` on. -/
def zipLoop (result : List (α × β)) : List α → List β → List (α × β)
  | v :: rest1, w :: rest2 => zipLoop (result ++ [(v, w)]) rest1 rest2
  | _, _ => result

def zipToPairs (a : List α) (b : List β) : List (α × β) := zipLoop [] a b

theorem copyBack_eq (result inner : List α) : copyBack result inner = result ++ inner := by
  induction inner generalizing result with
  | nil => simp [copyBack]
  | cons v inner ih =>
    calc copyBack result (v :: inner)
      _ = copyBack (result ++ [v]) inner := rfl
      _ = result ++ v :: inner := by rw [ih, List.append_assoc, List.singleton_append]

theorem foldl_copyBack (result : List α) (outer : List (List α)) :
    outer.foldl copyBack result = result ++ outer.foldl copyBack [] := by
  induction outer generalizing result with
  | nil => simp
  | cons inner outer ih =>
    rw [List.foldl_cons, List.foldl_cons, ih, ih (copyBack [] inner), copyBack_eq, copyBack_eq, List.nil_append,
      List.append_assoc]

@[simp] theorem flatten_nil : flatten ([] : List (List α)) = [] := rfl

@[simp] theorem flatten_cons (inner : List α) (outer : List (List α)) :
    flatten (inner :: outer) = inner ++ flatten outer := by
  rw [flatten, List.foldl_cons, foldl_copyBack, copyBack_eq, List.nil_append, flatten]

theorem zipLoop_eq (result : List (α × β)) (a : List α) (b : List β) : zipLoop result a b = result ++ a.zip b := by
  induction a generalizing result b with
  | nil => simp [zipLoop]
  | cons v a ih =>
    cases b with
    | nil => simp [zipLoop]
    | cons w b => simp [zipLoop, ih]

theorem zipToPairs_eq (a : List α) (b : List β) : zipToPairs a b = a.zip b := zipLoop_eq [] a b

section Unique

variable [BEq α] [EquivBEq α]

/-- Removing repetitions from the parts first removes nothing that would have been kept. -/
theorem stableUnique_flatten (outer : List (List α)) :
    stableUnique (flatten outer) = stableUnique (flatten (outer.map stableUnique)) := by
  induction outer with
  | nil => rfl
  | cons inner outer ih =>
    rw [flatten_cons, List.map_cons, flatten_cons, stableUnique_append, stableUnique_append, stableUnique_idem, ih]
    congr 1
    apply List.filter_congr
    intro y _
    rw [decide_eq_decide, ← absent_iff, ← absent_iff, stableUnique_eq, absent_firsts]

theorem stableUnique_flatten_parts :
    stableUnique (flatten [[1, 1], [2, 1]]) = stableUnique (flatten [[1], [2, 1]]) :=
  stableUnique_flatten [[1, 1], [2, 1]]

end Unique

/-- Zipping parts of equal lengths and putting the pairs together is zipping the whole ranges. -/
theorem zipToPairs_flatten {a : List (List α)} {b : List (List β)}
    (matched : List.Forall₂ (fun l r => l.length = r.length) a b) :
    zipToPairs (flatten a) (flatten b) = flatten (List.zipWith zipToPairs a b) := by
  induction matched with
  | nil => rfl
  | cons same _ ih =>
    rw [zipToPairs_eq] at ih ⊢
    simp [ih, List.zip_append same, zipToPairs_eq]

theorem zipToPairs_flatten_rows :
    zipToPairs (flatten [[1, 2], [], [3]]) (flatten [["a", "b"], [], ["c"]]) =
      flatten [[(1, "a"), (2, "b")], [], [(3, "c")]] :=
  zipToPairs_flatten (.cons rfl (.cons rfl (.cons rfl .nil)))

end Cpp20Showcase.Ranges.Flatten
