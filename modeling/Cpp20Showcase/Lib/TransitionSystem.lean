import Mathlib.Data.List.Basic
import Mathlib.Logic.Relation

/-! Runs of a system whose every step is one labelled move. A move that is not
enabled in a state is `none`, so a schedule is a list of labels and the run it
drives is a partial function of the starting state. -/

namespace Cpp20Showcase.Lib.TransitionSystem

variable {σ α : Type*} {step : σ → α → Option σ} {s t u : σ} {front back acts : List α}

/-- Follow a whole schedule; a label that is not enabled stops the run. -/
def run (step : σ → α → Option σ) (s : σ) : List α → Option σ
  | [] => some s
  | a :: rest => (step s a).bind fun t => run step t rest

@[simp] theorem run_nil : run step s [] = some s := rfl

theorem run_cons {a : α} :
    run step s (a :: acts) = some t ↔ ∃ u, step s a = some u ∧ run step u acts = some t := by
  simp only [run, Option.bind_eq_some_iff]

theorem run_append :
    run step s (front ++ back) = some t ↔
      ∃ u, run step s front = some u ∧ run step u back = some t := by
  induction front generalizing s with
  | nil => simp
  | cons a front ih =>
    simp only [List.cons_append, run_cons, ih]
    constructor
    · intro joined
      obtain ⟨u, first, v, middle, last⟩ := joined
      exact ⟨v, ⟨u, first, middle⟩, last⟩
    · intro parts
      obtain ⟨v, ⟨u, first, middle⟩, last⟩ := parts
      exact ⟨u, first, v, middle, last⟩

theorem run_single {a : α} : run step s [a] = some t ↔ step s a = some t := by
  simp [run_cons]

theorem run_snoc {a : α} :
    run step s (acts ++ [a]) = some t ↔ ∃ u, run step s acts = some u ∧ step u a = some t := by
  simp only [run_append, run_single]

theorem run_map {β : Type*} {label : β → α} {acts : List β} :
    run step s (acts.map label) = run (fun s b => step s (label b)) s acts := by
  induction acts generalizing s with
  | nil => rfl
  | cons b acts ih => simp only [List.map_cons, run, ih]

theorem run_keeps {I : σ → Prop} (kept : ∀ s a t, a ∈ acts → I s → step s a = some t → I t)
    (holds : I s) (runs : run step s acts = some t) : I t := by
  induction acts generalizing s with
  | nil =>
    cases runs
    exact holds
  | cons a acts ih =>
    obtain ⟨u, first, rest⟩ := run_cons.mp runs
    have later : ∀ s b t, b ∈ acts → I s → step s b = some t → I t := by
      intro s b t member
      exact kept s b t (List.mem_cons_of_mem a member)
    exact ih later (kept s a u List.mem_cons_self holds first) rest

theorem run_avoids {I : σ → Prop} {b : α} (kept : ∀ s a t, a ≠ b → I s → step s a = some t → I t)
    (holds : I s) (runs : run step s acts = some t) (avoids : b ∉ acts) : I t := by
  apply run_keeps _ holds runs
  intro s a t member
  exact kept s a t fun same => avoids (same ▸ member)

section Refinement

variable {τ : Type*} {coarse : τ → α → Option τ} {f : σ → τ} {w : τ}

theorem run_lift (behind : ∀ s a w, coarse (f s) a = some w → ∃ t, step s a = some t ∧ f t = w)
    (runs : run coarse (f s) acts = some w) : ∃ t, run step s acts = some t ∧ f t = w := by
  induction acts generalizing s with
  | nil =>
    cases runs
    exact ⟨s, rfl, rfl⟩
  | cons a acts ih =>
    obtain ⟨v, first, rest⟩ := run_cons.mp runs
    obtain ⟨u, moved, rfl⟩ := behind s a v first
    obtain ⟨t, runs, same⟩ := ih rest
    exact ⟨t, run_cons.mpr ⟨u, moved, runs⟩, same⟩

end Refinement

def Preserved (step : σ → α → Option σ) (I : σ → Prop) : Prop :=
  ∀ s a t, I s → step s a = some t → I t

theorem Preserved.run {I : σ → Prop} (kept : Preserved step I) (holds : I s)
    (runs : run step s acts = some t) : I t :=
  run_keeps (fun s a t _ => kept s a t) holds runs

/-- Where every step lowers a rank, no schedule is longer than the rank. -/
theorem run_length_le {I : σ → Prop} (rank : σ → Nat) (kept : Preserved step I)
    (less : ∀ s a t, I s → step s a = some t → rank t < rank s) (holds : I s)
    (runs : run step s acts = some t) : acts.length + rank t ≤ rank s := by
  induction acts generalizing s with
  | nil =>
    cases runs
    exact Nat.le_of_eq (Nat.zero_add _)
  | cons a acts ih =>
    obtain ⟨u, first, rest⟩ := run_cons.mp runs
    have lower := less s a u holds first
    have shorter := ih (kept s a u holds first) rest
    rw [List.length_cons]
    omega

def Reachable (step : σ → α → Option σ) (start s : σ) : Prop :=
  ∃ acts, run step start acts = some s

theorem Reachable.refl : Reachable step s s := ⟨[], rfl⟩

theorem Reachable.trans (first : Reachable step s t) (second : Reachable step t u) :
    Reachable step s u := by
  obtain ⟨front, runsFront⟩ := first
  obtain ⟨back, runsBack⟩ := second
  exact ⟨front ++ back, run_append.mpr ⟨t, runsFront, runsBack⟩⟩

theorem Reachable.of_step {a : α} (move : step s a = some t) : Reachable step s t :=
  ⟨[a], run_single.mpr move⟩

theorem Reachable.next {a : α} (reached : Reachable step s t) (move : step t a = some u) :
    Reachable step s u :=
  reached.trans (.of_step move)

/-- An invariant of the start that every step keeps holds in every reachable state. -/
theorem Reachable.invariant {I : σ → Prop} (reached : Reachable step s t)
    (kept : Preserved step I) (holds : I s) : I t := by
  obtain ⟨acts, runs⟩ := reached
  exact kept.run holds runs

theorem Reachable.lift {τ β : Type*} {coarse : τ → β → Option τ} {f : σ → τ} {I : σ → Prop} {w : τ}
    (behind : ∀ s a w, I s → coarse (f s) a = some w → ∃ t, Reachable step s t ∧ I t ∧ f t = w)
    (holds : I s) (reached : Reachable coarse (f s) w) : ∃ t, Reachable step s t ∧ I t ∧ f t = w := by
  obtain ⟨acts, runs⟩ := reached
  induction acts generalizing s with
  | nil =>
    cases runs
    exact ⟨s, .refl, holds, rfl⟩
  | cons a acts ih =>
    obtain ⟨v, first, rest⟩ := run_cons.mp runs
    obtain ⟨u, moved, holds', rfl⟩ := behind s a v holds first
    obtain ⟨t, later, holds'', same⟩ := ih holds' rest
    exact ⟨t, moved.trans later, holds'', same⟩

/-- A rank that some schedule can always lower, short of the goal, leads to the goal. -/
theorem Reachable.of_rank {I goal : σ → Prop} (rank : σ → Nat)
    (progress : ∀ s, I s → ¬goal s → ∃ t, Reachable step s t ∧ I t ∧ rank t < rank s)
    (holds : I s) : ∃ t, Reachable step s t ∧ I t ∧ goal t := by
  induction size : rank s using Nat.strongRecOn generalizing s with
  | ind n ih =>
    by_cases done : goal s
    · exact ⟨s, .refl, holds, done⟩
    · obtain ⟨t, reached, holds', less⟩ := progress s holds done
      obtain ⟨u, reached', finished⟩ := ih (rank t) (size ▸ less) holds' rfl
      exact ⟨u, reached.trans reached', finished⟩

/-- Where every step lowers a rank and only the goal is without a step, all steps lead to it. -/
theorem Reachable.of_decreasing {I goal : σ → Prop} (rank : σ → Nat) (kept : Preserved step I)
    (less : ∀ s a t, I s → step s a = some t → rank t < rank s)
    (enabled : ∀ s, I s → ¬goal s → ∃ a t, step s a = some t) (holds : I s) :
    ∃ t, Reachable step s t ∧ I t ∧ goal t := by
  apply Reachable.of_rank rank _ holds
  intro s holds short
  obtain ⟨a, t, moved⟩ := enabled s holds short
  exact ⟨t, .of_step moved, kept s a t holds moved, less s a t holds moved⟩

/-- Where an allowed label lowers the rank short of the goal, some schedule of these labels that is
no longer than the rank leads to the goal. -/
theorem run_of_rank {I goal : σ → Prop} {allowed : α → Prop} (rank : σ → Nat)
    (progress : ∀ s, I s → ¬goal s → ∃ a t, allowed a ∧ step s a = some t ∧ I t ∧ rank t < rank s) (holds : I s) :
    ∃ acts t, (∀ a ∈ acts, allowed a) ∧ acts.length ≤ rank s ∧ run step s acts = some t ∧ I t ∧ goal t := by
  induction size : rank s using Nat.strongRecOn generalizing s with
  | ind n ih =>
    by_cases done : goal s
    · exact ⟨[], s, nofun, Nat.zero_le _, rfl, holds, done⟩
    · obtain ⟨a, t, may, moved, holds', less⟩ := progress s holds done
      obtain ⟨acts, u, all, short, runs, holds'', reached⟩ := ih (rank t) (size ▸ less) holds' rfl
      refine ⟨a :: acts, u, List.forall_mem_cons.mpr ⟨may, all⟩, ?_, run_cons.mpr ⟨t, moved, runs⟩, holds'', reached⟩
      rw [List.length_cons]
      omega

end Cpp20Showcase.Lib.TransitionSystem
