import Cpp20Showcase.Lib.Representatives

/-! `stable_unique` from `02_ranges/ranges_demo.h` keeps the first representative of each
class of equal elements. Equality is any equivalence, so equal elements may differ. -/

namespace Cpp20Showcase.Ranges.StableUnique
open Lib Lib.Representatives

/-- The two vectors of `stable_unique`. -/
structure Vectors (α : Type*) where
  seen : List α
  result : List α

variable {α : Type*} [BEq α]

/-- `std::ranges::find`: the position of the first equal element, or that of the end. -/
def find (range : List α) (value : α) : Nat := range.findIdx fun x => x == value

/-- The body of the loop. -/
def visit (s : Vectors α) (v : α) : Vectors α :=
  if find s.seen v = s.seen.length then
    { seen := s.seen ++ [v]
      result := s.result ++ [v] }
  else s

def stableUnique (r : List α) : List α := (r.foldl visit ⟨[], []⟩).result

def firstPositions (r : List α) : List (Fin r.length) :=
  (List.finRange r.length).filter fun k => ∀ j < k, (r.get j == r.get k) = false

variable {r before : List α} {v : α}

theorem find_end_iff : find r v = r.length ↔ absent r v = true := by
  rw [find, List.findIdx_eq_length, absent_iff]

theorem absent_take_iff (k : Fin r.length) :
    absent (r.take k) (r.get k) = true ↔ ∀ j < k, (r.get j == r.get k) = false := by
  rw [absent_iff]
  constructor
  · intro apart j earlier
    exact apart (r.get j) (List.mem_take_iff_getElem.mpr ⟨j, by omega, rfl⟩)
  · intro apart x member
    obtain ⟨j, bound, rfl⟩ := List.mem_take_iff_getElem.mp member
    have inside := k.isLt
    exact apart ⟨j, by omega⟩ (show j < k.val by omega)

variable [EquivBEq α]

theorem visit_firsts :
    visit ⟨firsts [] before, firsts [] before⟩ v =
      ⟨firsts [] (before ++ [v]), firsts [] (before ++ [v])⟩ := by
  rw [firsts_append, List.nil_append, visit]
  simp only [find_end_iff, absent_firsts, firsts]
  split
  · rfl
  · simp

theorem loop_firsts (before r : List α) :
    r.foldl visit ⟨firsts [] before, firsts [] before⟩ =
      ⟨firsts [] (before ++ r), firsts [] (before ++ r)⟩ := by
  induction r generalizing before with
  | nil => simp
  | cons v rest tail =>
    rw [List.foldl_cons, visit_firsts, tail, List.append_assoc]
    rfl

theorem stableUnique_eq : stableUnique r = firsts [] r := by
  have loop := loop_firsts [] r
  rw [firsts_nil, List.nil_append] at loop
  rw [stableUnique, loop]

theorem positions_eq : stableUnique r = (firstPositions r).map r.get := by
  rw [stableUnique_eq, firsts_positions, firstPositions]
  congr 1
  apply List.filter_congr
  intro k _
  rw [List.nil_append, Bool.eq_iff_iff, absent_take_iff, decide_eq_true_iff]

theorem class_eq (member : v ∈ r) :
    ∃ first, r.find? (fun x => x == v) = some first ∧
      (stableUnique r).filter (fun x => x == v) = [first] := by
  have there : (r.find? fun x => x == v).isSome = true :=
    List.find?_isSome.mpr ⟨v, member, BEq.refl v⟩
  obtain ⟨first, found⟩ := Option.isSome_iff_exists.mp there
  have kept := firsts_class [] r v
  rw [absent_nil, if_pos rfl, ← stableUnique_eq, found] at kept
  exact ⟨first, found, kept⟩

theorem pairwise_unequal : (stableUnique r).Pairwise fun x y => (x == y) = false := by
  rw [stableUnique_eq]
  exact firsts_pairwise

theorem stableUnique_idem : stableUnique (stableUnique r) = stableUnique r := by
  rw [stableUnique_eq (r := stableUnique r)]
  apply firsts_of_pairwise pairwise_unequal
  intro v _
  exact absent_nil

theorem stableUnique_append (a b : List α) :
    stableUnique (a ++ b) =
      stableUnique a ++ (stableUnique b).filter fun y => ∀ x ∈ a, (x == y) = false := by
  have later : firsts a b = (firsts [] b).filter (absent a) := by
    rw [← firsts_before, List.append_nil]
  rw [stableUnique_eq, stableUnique_eq, stableUnique_eq, firsts_append, List.nil_append, later]
  congr 1
  apply List.filter_congr
  intro y _
  rw [Bool.eq_iff_iff, absent_iff, decide_eq_true_iff]

/-- `stable_unique` keeps the elements that equal no earlier one and nothing else. -/
theorem keeps_first_representatives (r : List α) :
    stableUnique r = (firstPositions r).map r.get ∧
    (stableUnique r).Sublist r ∧
    ((stableUnique r).Pairwise fun x y => (x == y) = false) ∧
    (∀ v ∈ r, ∃ first, r.find? (fun x => x == v) = some first ∧
      (stableUnique r).filter (fun x => x == v) = [first]) ∧
    stableUnique (stableUnique r) = stableUnique r ∧
    ∀ b, stableUnique (r ++ b) =
      stableUnique r ++ (stableUnique b).filter fun y => ∀ x ∈ r, (x == y) = false := by
  have subsequence : (stableUnique r).Sublist r := by
    rw [stableUnique_eq]
    exact firsts_sublist
  have classes : ∀ v ∈ r, ∃ first, r.find? (fun x => x == v) = some first ∧
      (stableUnique r).filter (fun x => x == v) = [first] := by
    intro v member
    exact class_eq member
  exact ⟨positions_eq, subsequence, pairwise_unequal, classes, stableUnique_idem,
    stableUnique_append r⟩

/-- A key with a label that equality ignores. -/
structure Labelled where
  key : Nat
  label : Nat

instance : BEq Labelled where
  beq x y := x.key == y.key

instance : EquivBEq Labelled where
  rfl := by
    intro a
    exact BEq.refl a.key
  symm := by
    intro a b same
    exact BEq.symm (α := Nat) same
  trans := by
    intro a b c same next
    exact BEq.trans (α := Nat) same next

theorem keeps_first_labels :
    stableUnique [⟨1, 0⟩, ⟨2, 0⟩, ⟨1, 1⟩] = [(⟨1, 0⟩ : Labelled), ⟨2, 0⟩] ∧
    ∃ first, [(⟨1, 0⟩ : Labelled), ⟨2, 0⟩, ⟨1, 1⟩].find? (fun x => x == ⟨1, 1⟩) = some first ∧
      (stableUnique [(⟨1, 0⟩ : Labelled), ⟨2, 0⟩, ⟨1, 1⟩]).filter (fun x => x == ⟨1, 1⟩) = [first] := by
  obtain ⟨kept, -, -, classes, -⟩ :=
    keeps_first_representatives [(⟨1, 0⟩ : Labelled), ⟨2, 0⟩, ⟨1, 1⟩]
  constructor
  · exact kept.trans rfl
  · exact classes ⟨1, 1⟩ (by simp)

end Cpp20Showcase.Ranges.StableUnique
