import Mathlib.Logic.Function.Basic

/-! Exclusive ownership among any number of threads. `inside` says which program
points lie in the section; `owner` is the one thread, if any, that is at one. -/

namespace Cpp20Showcase.Lib

variable {ι Pc : Type*} {inside : Pc → Prop} {pc : ι → Pc} {owner : Option ι} {i j : ι} {q : Pc}

/-- The threads inside the section are exactly the owner. -/
def Owned (inside : Pc → Prop) (pc : ι → Pc) (owner : Option ι) : Prop :=
  ∀ i, inside (pc i) ↔ owner = some i

namespace Owned

theorem exclusive (owned : Owned inside pc owner) (first : inside (pc i)) (second : inside (pc j)) :
    i = j :=
  Option.some.inj (((owned i).mp first).symm.trans ((owned j).mp second))

theorem isSome_iff (owned : Owned inside pc owner) : owner.isSome = true ↔ ∃ i, inside (pc i) := by
  rw [Option.isSome_iff_exists]
  exact exists_congr fun i => (owned i).symm

theorem owner_eq (owned : Owned inside pc owner) (here : inside (pc i)) : owner = some i :=
  (owned i).mp here

theorem vacant (owned : Owned inside pc owner) (outside : ∀ i, ¬inside (pc i)) : owner = none := by
  cases owner with
  | none => rfl
  | some i => exact absurd ((owned i).mpr rfl) (outside i)

theorem start (outside : ∀ i, ¬inside (pc i)) : Owned inside pc none :=
  fun i => ⟨fun here => absurd here (outside i), fun impossible => by cases impossible⟩

variable [DecidableEq ι]

theorem enter (owned : Owned inside pc none) (enters : inside q) :
    Owned inside (Function.update pc i q) (some i) := by
  intro j
  by_cases same : j = i
  · subst same
    simp [enters]
  · have out : ¬inside (pc j) := fun here => by cases owned.owner_eq here
    simp [same, out, Ne.symm same]

theorem leave (owned : Owned inside pc owner) (here : inside (pc i)) (leaves : ¬inside q) :
    Owned inside (Function.update pc i q) none := by
  intro j
  by_cases same : j = i
  · subst same
    simp [leaves]
  · have out : ¬inside (pc j) := fun there => same (owned.exclusive there here)
    simp [same, out]

theorem stay (owned : Owned inside pc owner) (stays : inside q ↔ inside (pc i)) :
    Owned inside (Function.update pc i q) owner := by
  intro j
  by_cases same : j = i
  · subst same
    rw [Function.update_self, stays]
    exact owned j
  · rw [Function.update_of_ne same]
    exact owned j

end Owned

end Cpp20Showcase.Lib
