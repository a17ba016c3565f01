import Mathlib.Algebra.BigOperators.Group.Finset.Piecewise
import Mathlib.Data.Fintype.Card

/-! Sums and counts over the program points of finitely many threads, and how
the move of one thread changes them. -/

namespace Cpp20Showcase.Lib

variable {ι Pc : Type*} [Fintype ι] {pc : ι → Pc} {i : ι} {q : Pc}
  {here : Pc → Prop} [DecidablePred here]

theorem sum_update [DecidableEq ι] (f : Pc → Nat) (pc : ι → Pc) (i : ι) (q : Pc) :
    ∑ j, f (Function.update pc i q j) + f (pc i) = ∑ j, f (pc j) + f q := by
  have after := Finset.add_sum_erase Finset.univ (fun j => f (Function.update pc i q j)) (Finset.mem_univ i)
  have before := Finset.add_sum_erase Finset.univ (fun j => f (pc j)) (Finset.mem_univ i)
  have others : ∑ j ∈ Finset.univ.erase i, f (Function.update pc i q j) =
      ∑ j ∈ Finset.univ.erase i, f (pc j) := by
    apply Finset.sum_congr rfl
    intro j member
    rw [Function.update_of_ne (Finset.ne_of_mem_erase member)]
  simp only [Function.update_self] at after before
  omega

/-- How many threads stand where `here` holds. -/
def headcount (here : Pc → Prop) [DecidablePred here] (pc : ι → Pc) : Nat :=
  (Finset.univ.filter fun i => here (pc i)).card

theorem headcount_le : headcount here pc ≤ Fintype.card ι :=
  Finset.card_filter_le _ _

theorem headcount_eq_card_iff : headcount here pc = Fintype.card ι ↔ ∀ i, here (pc i) := by
  simp [headcount, ← Finset.card_univ, Finset.card_filter_eq_iff]

theorem headcount_eq_zero_iff : headcount here pc = 0 ↔ ∀ i, ¬here (pc i) := by
  simp [headcount, Finset.card_eq_zero, Finset.filter_eq_empty_iff]

section
variable [DecidableEq ι]

theorem headcount_update (here : Pc → Prop) [DecidablePred here] (pc : ι → Pc) (i : ι) (q : Pc) :
    headcount here (Function.update pc i q) + (if here (pc i) then 1 else 0) =
      headcount here pc + (if here q then 1 else 0) := by
  simp only [headcount, Finset.card_filter]
  exact sum_update (fun p => if here p then 1 else 0) pc i q

theorem headcount_enter (outside : ¬here (pc i)) (enters : here q) :
    headcount here (Function.update pc i q) = headcount here pc + 1 := by
  simpa [outside, enters] using headcount_update here pc i q

theorem headcount_leave (inside : here (pc i)) (leaves : ¬here q) :
    headcount here (Function.update pc i q) + 1 = headcount here pc := by
  simpa [inside, leaves] using headcount_update here pc i q

theorem headcount_stay (stays : here q ↔ here (pc i)) :
    headcount here (Function.update pc i q) = headcount here pc := by
  have moved := headcount_update here pc i q
  simp only [stays] at moved
  omega

end

end Cpp20Showcase.Lib
