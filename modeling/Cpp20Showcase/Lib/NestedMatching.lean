import Mathlib.Data.List.Induction

/-! Histories of openings and closings: a closing ends the last opening that nothing has ended
yet, and one that finds no such opening is lost. -/

namespace Cpp20Showcase.Lib.NestedMatching

inductive Event (T : Type) where
  | push (value : T)
  | pop

/-- Each opening has its closing, and each closing its opening. -/
inductive Balanced {T : Type} : List (Event T) → Prop where
  | nil : Balanced []
  | nest {a b : List (Event T)} {v : T} (inner : Balanced a) (later : Balanced b) :
      Balanced (.push v :: a ++ .pop :: b)

/-- Each opening has its closing; between the balanced parts closings are lost. -/
inductive Drained {T : Type} : List (Event T) → Prop where
  | balanced {a : List (Event T)} (whole : Balanced a) : Drained a
  | lost {a b : List (Event T)} (earlier : Drained a) (later : Balanced b) : Drained (a ++ .pop :: b)

/-- The openings without a closing, the first of them first. -/
inductive Leaves {T : Type} : List (Event T) → List T → Prop where
  | drained {a : List (Event T)} (whole : Drained a) : Leaves a []
  | opened {a b : List (Event T)} {l : List T} {v : T} (earlier : Leaves a l) (later : Balanced b) :
      Leaves (a ++ .push v :: b) (l ++ [v])

variable {T : Type} {a b : List (Event T)} {l : List T} {v : T}

/-- What one event does to the openings without a closing. -/
def advance (l : List T) : Event T → List T
  | .push v => l ++ [v]
  | .pop => l.dropLast

def content (a : List (Event T)) : List T := a.foldl advance []

@[simp] theorem content_concat (a : List (Event T)) (e : Event T) :
    content (a ++ [e]) = advance (content a) e := by
  simp [content]

theorem content_append (a b : List (Event T)) : content (a ++ b) = b.foldl advance (content a) :=
  List.foldl_append

theorem Balanced.foldl_advance (balanced : Balanced a) (l : List T) : a.foldl advance l = l := by
  induction balanced generalizing l with
  | nil => rfl
  | @nest a b v inner later ihInner ihLater =>
    calc (.push v :: a ++ .pop :: b).foldl advance l
      _ = b.foldl advance (advance (a.foldl advance (l ++ [v])) .pop) := by
        simp [advance]
      _ = b.foldl advance l := by
        rw [ihInner, advance, List.dropLast_concat]
      _ = l := ihLater l

theorem Drained.content_eq (drained : Drained a) : content a = [] := by
  induction drained with
  | balanced whole => exact whole.foldl_advance []
  | lost earlier later ih =>
    rw [content_append, ih]
    exact later.foldl_advance []

theorem Leaves.content_eq (leaves : Leaves a l) : content a = l := by
  induction leaves with
  | drained whole => exact whole.content_eq
  | opened earlier later ih =>
    rw [content_append, ih]
    exact later.foldl_advance _

theorem Balanced.append (balanced : Balanced a) (later : Balanced b) : Balanced (a ++ b) := by
  induction balanced with
  | nil => exact later
  | nest inner _ _ ih => simpa using inner.nest ih

theorem Drained.append (drained : Drained a) (later : Balanced b) : Drained (a ++ b) := by
  cases drained with
  | balanced whole => exact .balanced (whole.append later)
  | lost earlier between => simpa using earlier.lost (between.append later)

theorem Leaves.append (leaves : Leaves a l) (later : Balanced b) : Leaves (a ++ b) l := by
  cases leaves with
  | drained whole => exact .drained (whole.append later)
  | opened earlier between => simpa using earlier.opened (between.append later)

theorem Leaves.drained_of_nil (leaves : Leaves a []) : Drained a := by
  generalize same : ([] : List T) = l at leaves
  cases leaves with
  | drained whole => exact whole
  | opened earlier later => simp at same

theorem Leaves.pop (leaves : Leaves a (l ++ [v])) : Leaves (a ++ [.pop]) l := by
  generalize same : l ++ [v] = l' at leaves
  cases leaves with
  | drained whole => simp at same
  | @opened a b l' v' earlier later =>
    obtain ⟨rfl, -⟩ := List.append_inj' same rfl
    have whole : Balanced (.push v' :: b ++ .pop :: []) := later.nest .nil
    simpa using earlier.append whole

theorem leaves_content (a : List (Event T)) : Leaves a (content a) := by
  induction a using List.reverseRecOn with
  | nil => exact .drained (.balanced .nil)
  | append_singleton a e ih =>
    rw [content_concat]
    cases e with
    | push v => exact ih.opened .nil
    | pop =>
      rcases List.eq_nil_or_concat (content a) with empty | ⟨l, v, full⟩
      · rw [empty] at ih ⊢
        exact .drained (ih.drained_of_nil.lost .nil)
      · rw [full, List.concat_eq_append] at ih ⊢
        rw [advance, List.dropLast_concat]
        exact ih.pop

/-- What is left open is what the events, taken one by one, leave open. -/
theorem leaves_iff : Leaves a l ↔ content a = l := by
  constructor
  · exact Leaves.content_eq
  · rintro rfl
    exact leaves_content a

end Cpp20Showcase.Lib.NestedMatching
