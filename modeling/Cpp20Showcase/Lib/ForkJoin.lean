import Cpp20Showcase.Lib.Headcount

/-! A thread that starts `n` others one after the other, joins them one after the
other, and then returns a result it reads from what they share. -/

namespace Cpp20Showcase.Lib.ForkJoin

/-- The points of a thread's life that its owner knows of. -/
structure Life (Pc : Type) where
  absent : Pc
  start : Pc
  finished : Pc
  start_ne : start ≠ absent

inductive Owner (ρ : Type) where
  | create (i : Nat)
  | join (j : Nat)
  | returned (result : ρ)
  deriving DecidableEq

variable {Pc ρ : Type} {n : Nat} {life : Life Pc} {result : ρ} {pc pc' : Fin n → Pc} {owner owner' : Owner ρ}

/-- `for (i < n) threads.emplace_back(..); threads.clear(); return result;` -/
def step [DecidableEq Pc] (life : Life Pc) (result : ρ) (pc : Fin n → Pc) :
    Owner ρ → Option (Owner ρ × (Fin n → Pc))
  | .create i =>
    if room : i < n then some (.create (i + 1), Function.update pc ⟨i, room⟩ life.start)
    else some (.join 0, pc)
  | .join j =>
    if room : j < n then if pc ⟨j, room⟩ = life.finished then some (.join (j + 1), pc) else none
    else some (.returned result, pc)
  | .returned _ => none

inductive Move (life : Life Pc) (result : ρ) (pc : Fin n → Pc) : Owner ρ → Owner ρ → (Fin n → Pc) → Prop where
  | create {i} (room : i < n) :
      Move life result pc (.create i) (.create (i + 1)) (Function.update pc ⟨i, room⟩ life.start)
  | clear {i} (full : n ≤ i) : Move life result pc (.create i) (.join 0) pc
  | join {j} (room : j < n) (ended : pc ⟨j, room⟩ = life.finished) :
      Move life result pc (.join j) (.join (j + 1)) pc
  | ret {j} (empty : n ≤ j) : Move life result pc (.join j) (.returned result) pc

theorem step_move [DecidableEq Pc] (moved : step life result pc owner = some (owner', pc')) :
    Move life result pc owner owner' pc' := by
  cases owner with
  | create i =>
    simp only [step] at moved
    split at moved
    next room => cases moved; exact .create room
    next full => cases moved; exact .clear (Nat.le_of_not_lt full)
  | join j =>
    simp only [step] at moved
    split at moved
    next room =>
      split at moved
      next ended => cases moved; exact .join room ended
      next => cases moved
    next empty => cases moved; exact .ret (Nat.le_of_not_lt empty)
  | returned r => cases moved

def Owner.Sound (life : Life Pc) (pc : Fin n → Pc) : Owner ρ → Prop
  | .create i => i ≤ n ∧ ∀ k, pc k = life.absent ↔ i ≤ k.val
  | .join j => (∀ k, pc k ≠ life.absent) ∧ ∀ k, k.val < j → pc k = life.finished
  | .returned _ => ∀ k, pc k = life.finished

theorem sound_start : Owner.Sound life (fun _ : Fin n => life.absent) (.create 0 : Owner ρ) :=
  ⟨Nat.zero_le n, fun k => iff_of_true rfl (Nat.zero_le k)⟩

theorem Move.sound (move : Move life result pc owner owner' pc') (sound : owner.Sound life pc) :
    owner'.Sound life pc' := by
  cases move with
  | @create i room =>
    refine ⟨room, fun k => ?_⟩
    by_cases same : k = ⟨i, room⟩
    · subst same
      rw [Function.update_self]
      exact iff_of_false life.start_ne (by simp)
    · have apart : k.val ≠ i := fun equal => same (Fin.ext equal)
      rw [Function.update_of_ne same, sound.2 k]
      omega
  | clear full =>
    constructor
    · intro k absent
      have above := (sound.2 k).mp absent
      omega
    · intro k below
      exact absurd below (Nat.not_lt_zero _)
  | @join j room ended =>
    refine ⟨sound.1, fun k below => ?_⟩
    by_cases same : k = ⟨j, room⟩
    · rw [same, ended]
    · have apart : k.val ≠ j := fun equal => same (Fin.ext equal)
      exact sound.2 k (by omega)
  | ret empty => exact fun k => sound.2 k (by omega)

theorem Move.threads (move : Move life result pc owner owner' pc') (sound : owner.Sound life pc) :
    pc' = pc ∨ ∃ i, pc i = life.absent ∧ pc' = Function.update pc i life.start := by
  cases move with
  | create room => exact .inr ⟨_, (sound.2 _).mpr le_rfl, rfl⟩
  | clear => exact .inl rfl
  | join => exact .inl rfl
  | ret => exact .inl rfl

theorem Move.returned {r : ρ} (move : Move life result pc owner (.returned r) pc')
    (sound : owner.Sound life pc) : r = result ∧ pc' = pc ∧ ∀ k, pc k = life.finished := by
  cases move with
  | ret empty => exact ⟨rfl, rfl, fun k => sound.2 k (by omega)⟩

theorem Owner.Sound.all_finished {r : ρ} (sound : owner.Sound life pc) (returned : owner = .returned r) :
    ∀ k, pc k = life.finished := by
  subst returned
  exact sound

theorem Move.headcount_eq {here : Pc → Prop} [DecidablePred here] (move : Move life result pc owner owner' pc')
    (sound : owner.Sound life pc) (same : here life.start ↔ here life.absent) :
    headcount here pc' = headcount here pc := by
  obtain rfl | ⟨i, absent, rfl⟩ := move.threads sound
  · rfl
  · exact headcount_stay (by rw [absent]; exact same)

theorem Move.sum_eq {f : Pc → Nat} (move : Move life result pc owner owner' pc') (sound : owner.Sound life pc)
    (same : f life.start = f life.absent) : ∑ i, f (pc' i) = ∑ i, f (pc i) := by
  obtain rfl | ⟨i, absent, rfl⟩ := move.threads sound
  · rfl
  · have started := sum_update f pc i life.start
    rw [absent] at started
    omega

theorem Owner.Sound.move {i : Fin n} {here q : Pc} (sound : owner.Sound life pc) (point : pc i = here)
    (present : here ≠ life.absent) (running : here ≠ life.finished) (stays : q ≠ life.absent) :
    owner.Sound life (Function.update pc i q) := by
  subst point
  cases owner with
  | create m =>
    refine ⟨sound.1, fun k => ?_⟩
    by_cases same : k = i
    · subst same
      rw [Function.update_self]
      exact iff_of_false stays fun above => present ((sound.2 k).mpr above)
    · rw [Function.update_of_ne same, sound.2 k]
  | join j =>
    constructor
    · intro k
      by_cases same : k = i
      · subst same
        rwa [Function.update_self]
      · rw [Function.update_of_ne same]
        exact sound.1 k
    · intro k below
      by_cases same : k = i
      · subst same
        exact absurd (sound.2 k below) running
      · rw [Function.update_of_ne same, sound.2 k below]
  | returned r => exact absurd (sound i) running

theorem Owner.Sound.enabled [DecidableEq Pc] (result : ρ) (sound : owner.Sound life pc)
    (unreturned : ∀ r, owner ≠ .returned r) :
    (∃ owner' pc', ForkJoin.step life result pc owner = some (owner', pc')) ∨
      (∀ k, pc k ≠ life.absent) ∧ ∃ i, pc i ≠ life.finished := by
  cases owner with
  | create i =>
    by_cases room : i < n
    · exact .inl ⟨_, _, by simp only [step, room, ↓reduceDIte]; rfl⟩
    · exact .inl ⟨_, _, by simp only [step, room, ↓reduceDIte]; rfl⟩
  | join j =>
    by_cases room : j < n
    · by_cases ended : pc ⟨j, room⟩ = life.finished
      · exact .inl ⟨_, _, by simp only [step, room, ended, ↓reduceDIte, ↓reduceIte]; rfl⟩
      · exact .inr ⟨sound.1, _, ended⟩
    · exact .inl ⟨_, _, by simp only [step, room, ↓reduceDIte]; rfl⟩
  | returned r => exact absurd rfl (unreturned r)

def Owner.work (n : Nat) : Owner ρ → Nat
  | .create i => (n - i) + n + 2
  | .join j => (n - j) + 1
  | .returned _ => 0

theorem Move.work_lt (move : Move life result pc owner owner' pc') : owner'.work n < owner.work n := by
  cases move with
  | create => simp only [Owner.work]; omega
  | clear => simp only [Owner.work]; omega
  | join => simp only [Owner.work]; omega
  | ret => simp only [Owner.work]; omega

theorem Move.total_lt {f : Pc → Nat} (move : Move life result pc owner owner' pc') (sound : owner.Sound life pc)
    (bound : f life.start ≤ f life.absent) :
    owner'.work n + ∑ i, f (pc' i) < owner.work n + ∑ i, f (pc i) := by
  have less := move.work_lt
  obtain rfl | ⟨i, absent, rfl⟩ := move.threads sound
  · omega
  · have started := sum_update f pc i life.start
    rw [absent] at started
    omega

end Cpp20Showcase.Lib.ForkJoin
