import Mathlib.Data.List.FinRange
import Mathlib.Data.List.Basic

/-! The first representative of each class of an equality test, in the order of a list. -/

namespace Cpp20Showcase.Lib.Representatives

variable {α : Type*} [BEq α] {before l a b : List α} {v w : α}

def absent (before : List α) (v : α) : Bool := before.all fun x => !(x == v)

/-- The elements that equal none of `before` and none that stands earlier in the list. -/
def firsts (before : List α) : List α → List α
  | [] => []
  | v :: rest =>
      if absent before v then v :: firsts (before ++ [v]) rest else firsts (before ++ [v]) rest

@[simp] theorem absent_nil : absent [] v = true := rfl

@[simp] theorem absent_append : absent (a ++ b) v = (absent a v && absent b v) :=
  List.all_append

theorem absent_singleton : absent [w] v = !(w == v) := by
  simp [absent]

theorem absent_iff : absent before v = true ↔ ∀ x ∈ before, (x == v) = false := by
  simp [absent]

@[simp] theorem firsts_nil : firsts before [] = [] := rfl

theorem firsts_append : firsts before (a ++ b) = firsts before a ++ firsts (before ++ a) b := by
  induction a generalizing before with
  | nil => simp
  | cons v rest tail =>
    simp only [List.cons_append, firsts, tail, List.append_assoc, List.nil_append]
    split
    · rfl
    · rfl

theorem firsts_before : firsts (a ++ before) l = (firsts before l).filter (absent a) := by
  induction l generalizing before with
  | nil => rfl
  | cons v rest tail =>
    rw [firsts, firsts, List.append_assoc, tail, absent_append]
    cases first : absent before v with
    | false => simp
    | true => simp [List.filter_cons]

theorem firsts_absent (member : v ∈ firsts before l) : absent before v = true := by
  rw [← List.append_nil before, firsts_before] at member
  exact (List.mem_filter.mp member).2

theorem firsts_sublist : (firsts before l).Sublist l := by
  induction l generalizing before with
  | nil => exact .slnil
  | cons v rest tail =>
    rw [firsts]
    split
    · exact tail.cons_cons v
    · exact tail.cons v

theorem firsts_pairwise : (firsts before l).Pairwise fun x y => (x == y) = false := by
  induction l generalizing before with
  | nil => exact .nil
  | cons v rest tail =>
    rw [firsts]
    split
    · have fresh : ∀ y ∈ firsts (before ++ [v]) rest, (v == y) = false := by
        intro y member
        have apart := firsts_absent member
        rw [absent_iff] at apart
        exact apart v (by simp)
      exact .cons fresh tail
    · exact tail

theorem firsts_of_pairwise (apart : l.Pairwise fun x y => (x == y) = false)
    (fresh : ∀ v ∈ l, absent before v = true) : firsts before l = l := by
  induction l generalizing before with
  | nil => rfl
  | cons v rest tail =>
    obtain ⟨head, others⟩ := List.pairwise_cons.mp apart
    have later : ∀ y ∈ rest, absent (before ++ [v]) y = true := by
      intro y member
      have outside := fresh y (List.mem_cons_of_mem v member)
      rw [absent_append, outside, absent_singleton, head y member]
      rfl
    rw [firsts, if_pos (fresh v List.mem_cons_self), tail others later]

/-- By position: what is kept stands where nothing before it is equal. -/
theorem firsts_positions : firsts before l =
    ((List.finRange l.length).filter fun k : Fin _ => absent (before ++ l.take k) (l.get k)).map l.get := by
  induction l generalizing before with
  | nil => rfl
  | cons v rest tail =>
    have shifted : ((List.finRange rest.length).map Fin.succ).filter
          (fun k : Fin _ => absent (before ++ (v :: rest).take k) ((v :: rest).get k)) =
        ((List.finRange rest.length).filter
          fun k : Fin _ => absent (before ++ [v] ++ rest.take k) (rest.get k)).map Fin.succ := by
      rw [List.filter_map]
      congr 1
      apply List.filter_congr
      intro k _
      simp
    have positions : List.finRange (v :: rest).length = 0 :: (List.finRange rest.length).map Fin.succ :=
      List.finRange_succ
    rw [firsts, positions, List.filter_cons, shifted, tail]
    simp only [Fin.val_zero, List.take_zero, List.append_nil, List.get_cons_zero]
    by_cases first : absent before v = true
    · rw [if_pos first, if_pos first, List.map_cons, List.map_map]
      rfl
    · rw [if_neg first, if_neg first, List.map_map]
      rfl

section Equivalence

variable [EquivBEq α]

theorem absent_congr (before : List α) (same : (v == w) = true) : absent before v = absent before w := by
  unfold absent
  congr 1
  funext x
  rw [BEq.congr_right same]

/-- Of the elements equal to `v`, the first one is kept and no other. -/
theorem firsts_class (before l : List α) (v : α) :
    (firsts before l).filter (fun x => x == v) =
      if absent before v then (l.find? fun x => x == v).toList else [] := by
  induction l generalizing before with
  | nil => simp
  | cons w rest tail =>
    by_cases same : (w == v) = true
    · have here := absent_congr before same
      have hidden : absent (before ++ [w]) v = false := by
        rw [absent_append, absent_singleton, same]
        simp
      rw [firsts, List.find?_cons_of_pos (p := fun x => x == v) same, here]
      split
      · rw [List.filter_cons_of_pos (p := fun x => x == v) same, tail, hidden]
        rfl
      · rw [tail, hidden]
        rfl
    · have apart : absent (before ++ [w]) v = absent before v := by
        rw [absent_append, absent_singleton]
        simp [same]
      rw [firsts, List.find?_cons_of_neg (p := fun x => x == v) same, ← apart]
      split
      · rw [List.filter_cons_of_neg (p := fun x => x == v) same, tail]
      · exact tail _

theorem absent_firsts : absent (firsts [] l) v = absent l v := by
  have kept := firsts_class [] l v
  rw [absent_nil, if_pos rfl] at kept
  rw [Bool.eq_iff_iff, absent_iff, absent_iff]
  calc (∀ x ∈ firsts [] l, (x == v) = false)
      ↔ (firsts [] l).filter (fun x => x == v) = [] := by simp
    _ ↔ l.find? (fun x => x == v) = none := by rw [kept, Option.toList_eq_nil_iff]
    _ ↔ ∀ x ∈ l, (x == v) = false := by simp

end Equivalence

end Cpp20Showcase.Lib.Representatives
