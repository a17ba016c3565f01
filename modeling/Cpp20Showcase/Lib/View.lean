import Mathlib.Data.List.Basic

/-! Finite ranges that are read through iterators, and lazy views over them. A read or a move
without behaviour is `none`. -/

namespace Cpp20Showcase.Lib

structure View (σ α : Type) where
  start : Option σ
  atEnd : σ → Bool
  deref : σ → Option α
  next : σ → Option σ
  /-- A bound for the moves that are left. -/
  left : σ → Nat
  next_left : ∀ s s', next s = some s' → left s' < left s

namespace View

variable {σ α β : Type}

/-- The elements of a list; a position is what is left of it. -/
def ofList (l : List α) : View (List α) α where
  start := some l
  atEnd := List.isEmpty
  deref := List.head?
  next := List.tail?
  left := List.length
  next_left := by
    intro s s' moved
    cases s with
    | nil => cases moved
    | cons a s =>
      cases moved
      exact Nat.lt_succ_self _

/-- `f` is called at each read, and not before. -/
def transform (f : α → Option β) (v : View σ α) : View σ β where
  start := v.start
  atEnd := v.atEnd
  deref s := (v.deref s).bind f
  next := v.next
  left := v.left
  next_left := v.next_left

/-- The first position from `s` on with an element that satisfies `p`, or the end. -/
def findIf (p : α → Bool) (v : View σ α) : Nat → σ → Option σ
  | 0, s => if v.atEnd s then some s else none
  | n + 1, s =>
      if v.atEnd s then some s
      else (v.deref s).bind fun a => if p a then some s else (v.next s).bind (findIf p v n)

theorem findIf_left {p : α → Bool} {v : View σ α} {n : Nat} {s s' : σ} (found : findIf p v n s = some s') :
    v.left s' ≤ v.left s := by
  induction n generalizing s with
  | zero =>
    rw [findIf] at found
    split at found
    · cases found
      exact Nat.le_refl _
    · cases found
  | succ n ih =>
    rw [findIf] at found
    split at found
    · cases found
      exact Nat.le_refl _
    · obtain ⟨a, -, found⟩ := Option.bind_eq_some_iff.mp found
      split at found
      · cases found
        exact Nat.le_refl _
      · obtain ⟨t, moved, found⟩ := Option.bind_eq_some_iff.mp found
        exact Nat.le_of_lt (Nat.lt_of_le_of_lt (ih found) (v.next_left _ _ moved))

/-- The first element is looked for at the start, each other one when the one before is left. -/
def filter (p : α → Bool) (v : View σ α) : View σ α where
  start := v.start.bind fun s => findIf p v (v.left s) s
  atEnd := v.atEnd
  deref := v.deref
  next s := (v.next s).bind fun s' => findIf p v (v.left s') s'
  left := v.left
  next_left := by
    intro s s' moved
    obtain ⟨t, moved, found⟩ := Option.bind_eq_some_iff.mp moved
    exact Nat.lt_of_le_of_lt (findIf_left found) (v.next_left _ _ moved)

/-- A position with the number of elements still to be taken. -/
def take (n : Nat) (v : View σ α) : View (σ × Nat) α where
  start := v.start.map fun s => (s, n)
  atEnd s := s.2 == 0 || v.atEnd s.1
  deref s := v.deref s.1
  next s := (v.next s.1).map fun s' => (s', s.2 - 1)
  left s := v.left s.1
  next_left := by
    intro s s' moved
    obtain ⟨t, moves, rfl⟩ := Option.map_eq_some_iff.mp moved
    exact v.next_left _ _ moves

/-- The loop of `std::ranges::copy`. -/
def copyLoop (v : View σ α) : Nat → σ → Option (List α)
  | 0, s => if v.atEnd s then some [] else none
  | n + 1, s =>
      if v.atEnd s then some []
      else (v.deref s).bind fun a => (v.next s).bind fun s' => (copyLoop v n s').map (a :: ·)

def copy (v : View σ α) : Option (List α) := v.start.bind fun s => v.copyLoop (v.left s) s

/-- What the reads give from a position on, when each position is left after its read. -/
inductive Shows (v : View σ α) : σ → List (Option α) → Prop where
  | done {s : σ} (ended : v.atEnd s = true) : Shows v s []
  | more {s s' : σ} {l : List (Option α)} (there : v.atEnd s = false) (moved : v.next s = some s')
      (rest : Shows v s' l) : Shows v s (v.deref s :: l)

/-- What the reads of a whole pass give. -/
def Displays (v : View σ α) (l : List (Option α)) : Prop := ∃ s, v.start = some s ∧ v.Shows s l

variable {v : View σ α} {s : σ} {l : List (Option α)}

theorem displays_ofList (l : List α) : (ofList l).Displays (l.map some) := by
  have shows (l r : List α) : (ofList l).Shows r (r.map some) := by
    induction r with
    | nil => exact .done rfl
    | cons a r ih => exact .more rfl rfl ih
  exact ⟨l, rfl, shows l l⟩

theorem Displays.transform {f : α → Option β} (displays : v.Displays l) :
    (v.transform f).Displays (l.map fun a => a.bind f) := by
  obtain ⟨s, start, shows⟩ := displays
  refine ⟨s, start, ?_⟩
  clear start
  induction shows with
  | done ended => exact .done ended
  | more there moved _ ih => exact .more there moved ih

theorem Shows.take {m n : Nat} (shows : v.Shows s l) : (v.take m).Shows (s, n) (l.take n) := by
  induction shows generalizing n with
  | done ended =>
    rw [List.take_nil]
    exact .done (by simp [View.take, ended])
  | @more s s' l there moved _ ih =>
    cases n with
    | zero => exact .done rfl
    | succ n =>
      have counted : (v.take m).next (s, n + 1) = some (s', n) := by simp [View.take, moved]
      exact .more there counted ih

theorem Displays.take {n : Nat} (displays : v.Displays l) : (v.take n).Displays (l.take n) := by
  obtain ⟨s, start, shows⟩ := displays
  exact ⟨(s, n), by simp [View.take, start], shows.take⟩

theorem Shows.findIf {p : α → Bool} {n : Nat} {l : List α} (shows : v.Shows s (l.map some)) (enough : v.left s ≤ n) :
    ∃ s', v.findIf p n s = some s' ∧ (v.filter p).Shows s' ((l.filter p).map some) := by
  generalize same : l.map some = reads at shows
  induction shows generalizing n l with
  | @done s ended =>
    rw [List.map_eq_nil_iff.mp same]
    refine ⟨s, ?_, .done ended⟩
    cases n with
    | zero => rw [View.findIf, if_pos ended]
    | succ n => rw [View.findIf, if_pos ended]
  | @more s s' reads there moved _ ih =>
    obtain ⟨a, l, rfl, read, rest⟩ := List.map_eq_cons_iff.mp same
    have less := v.next_left _ _ moved
    have one : v.findIf p n s = if p a then some s else v.findIf p (n - 1) s' := by
      cases n with
      | zero => exact absurd enough (by omega)
      | succ n => simp [View.findIf, there, moved, ← read]
    by_cases good : p a = true
    · obtain ⟨t, found, shows⟩ := ih (Nat.le_refl _) rest
      rw [one, if_pos good, List.filter_cons_of_pos good, List.map_cons, read]
      exact ⟨s, rfl, .more there (by simp [View.filter, moved, found]) shows⟩
    · obtain ⟨t, found, shows⟩ := ih (n := n - 1) (by omega) rest
      rw [one, if_neg good, List.filter_cons_of_neg good]
      exact ⟨t, found, shows⟩

theorem Displays.filter {p : α → Bool} {l : List α} (displays : v.Displays (l.map some)) :
    (v.filter p).Displays ((l.filter p).map some) := by
  obtain ⟨s, start, shows⟩ := displays
  obtain ⟨s', found, shows'⟩ := shows.findIf (Nat.le_refl _)
  exact ⟨s', by rw [View.filter, start]; exact found, shows'⟩

theorem Shows.copyLoop {n : Nat} (shows : v.Shows s l) (enough : v.left s ≤ n) : v.copyLoop n s = l.mapM id := by
  induction shows generalizing n with
  | done ended =>
    cases n with
    | zero => exact if_pos ended
    | succ n => exact if_pos ended
  | @more s s' l there moved _ ih =>
    have less := v.next_left _ _ moved
    cases n with
    | zero => exact absurd enough (by omega)
    | succ n =>
      rw [View.copyLoop, if_neg (by simp [there]), moved, List.mapM_cons]
      simp only [Option.bind_some, ih (Nat.le_of_lt_succ (Nat.lt_of_lt_of_le less enough))]
      cases v.deref s with
      | none => rfl
      | some a => cases l.mapM id with
        | none => rfl
        | some r => rfl

/-- A copy has all that a pass displays, if each read of it has a behaviour. -/
theorem Displays.copy (displays : v.Displays l) : v.copy = l.mapM id := by
  obtain ⟨s, start, shows⟩ := displays
  rw [View.copy, start]
  exact shows.copyLoop (Nat.le_refl _)

end View

end Cpp20Showcase.Lib
