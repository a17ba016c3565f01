import Cpp20Showcase.AtomicModel.SeqCstFlag

/-! What becomes of the threads that retry `SeqCstFlag::try_enter`: each of them can still get in,
but two that retry in step can refuse one another without end. -/

namespace Cpp20Showcase.AtomicModel.SeqCstProgress

open Lib Lib.TransitionSystem SeqCstFlag

variable {s : State} {t : Thread}

/-- Accesses that a thread makes at most until its flag is down, if it makes them alone. -/
def leaving (s : State) (t : Thread) : Nat :=
  match s.pc t with
  | .storeTrue => 0
  | .exit | .storeFalse => 1
  | .fetchSub => 2
  | .exchange _ curMax => if s.maxConcurrent = curMax then 3 else 4
  | .loadMax _ => 4
  | .fetchAdd => 5
  | .loadOther => 6

/-- Accesses that a thread makes at most until it is inside, if the other one's flag is down. -/
def entering (s : State) (t : Thread) : Nat :=
  match s.pc t with
  | .storeFalse => 3
  | .storeTrue => 2
  | .loadOther => 1
  | .fetchAdd | .loadMax _ | .exchange _ _ | .fetchSub | .exit => 0

theorem leaving_le (s : State) (t : Thread) : leaving s t ≤ 6 := by
  unfold leaving
  split
  all_goals (try split) <;> decide

theorem entering_le (s : State) (t : Thread) : entering s t ≤ 3 := by
  unfold entering
  split <;> decide

@[simp] theorem at_pc_self (s : State) (q : Pc) : (s.at t q).pc t = q := by
  simp [State.at]

@[simp] theorem at_pc_other (s : State) (q : Pc) : (s.at t q).pc t.other = s.pc t.other := by
  simp [State.at, other_ne]

theorem access_pc_other (s : State) (t : Thread) (spurious : Bool) :
    (access s t spurious).pc t.other = s.pc t.other := by
  unfold access
  split
  case h_6 c curMax pc =>
    unfold compareExchangeWeak
    split
    · exact at_pc_other _ _
    · exact at_pc_other _ _
  all_goals exact at_pc_other _ _

theorem leaving_whileMax (c : Int) : leaving (s.at t (whileMax c s.maxConcurrent)) t ≤ 3 := by
  unfold leaving whileMax
  rw [at_pc_self]
  by_cases more : s.maxConcurrent < c
  · rw [if_pos more]
    exact Nat.le_of_eq (if_pos rfl)
  · rw [if_neg more]
    exact Nat.le_succ 2

theorem leaving_lt (trying : s.pc t ≠ .storeTrue) : leaving (access s t false) t < leaving s t := by
  cases pc : s.pc t with
  | storeTrue => exact absurd pc trying
  | storeFalse | fetchAdd | fetchSub | exit => simp [access, pc, leaving]
  | loadOther =>
    have before : leaving s t = 6 := by simp [leaving, pc]
    rw [before]
    simp only [access, pc]
    split <;> simp [leaving]
  | loadMax c =>
    have before : leaving s t = 4 := by simp [leaving, pc]
    rw [before]
    simp only [access, pc]
    exact Nat.lt_succ_of_le (leaving_whileMax c)
  | exchange c curMax =>
    simp only [access, pc, compareExchangeWeak, and_true]
    by_cases current : s.maxConcurrent = curMax
    · simp [leaving, pc, current]
    · have before : leaving s t = 4 := by simp [leaving, pc, current]
      rw [before, if_neg current]
      exact Nat.lt_succ_of_le (leaving_whileMax c)

theorem entering_lt (holds : Inv s) (away : s.pc t.other = .storeTrue) (outside : ¬Inside (s.pc t)) :
    entering (access s t false) t < entering s t := by
  have down : s.wantsEnter t.other = false := by
    by_contra up
    exact (holds.raised t.other).mp (eq_true_of_ne_false up) away
  cases pc : s.pc t with
  | storeTrue | storeFalse => simp [access, pc, entering]
  | loadOther => simp [access, pc, entering, down]
  | fetchAdd | loadMax | exchange | fetchSub | exit =>
    rw [pc] at outside
    exact absurd trivial outside

theorem leaves_alone (holds : Inv s) (t : Thread) :
    ∃ acts s', (∀ a ∈ acts, a.thread = t) ∧ acts.length ≤ 6 ∧ run step s acts = some s' ∧ Inv s' ∧
      s'.pc t = .storeTrue := by
  have progress (s : State) (holds : Inv s) (trying : ¬s.pc t = .storeTrue) :
      ∃ a s', a.thread = t ∧ step s a = some s' ∧ Inv s' ∧ leaving s' t < leaving s t :=
    ⟨⟨t, false⟩, _, rfl, rfl, inv_access holds t false, leaving_lt trying⟩
  obtain ⟨acts, s', own, short, runs, left⟩ := run_of_rank (fun s => leaving s t) progress holds
  exact ⟨acts, s', own, Nat.le_trans short (leaving_le s t), runs, left⟩

theorem enters_alone (holds : Inv s) (away : s.pc t.other = .storeTrue) :
    ∃ acts s', (∀ a ∈ acts, a.thread = t) ∧ acts.length ≤ 3 ∧ run step s acts = some s' ∧ Inside (s'.pc t) := by
  have progress (s : State) (holds : Inv s ∧ s.pc t.other = .storeTrue) (outside : ¬Inside (s.pc t)) :
      ∃ a s', a.thread = t ∧ step s a = some s' ∧ (Inv s' ∧ s'.pc t.other = .storeTrue) ∧
        entering s' t < entering s t := by
    refine ⟨⟨t, false⟩, _, rfl, rfl, ⟨inv_access holds.1 t false, ?_⟩, entering_lt holds.1 holds.2 outside⟩
    exact (access_pc_other s t false).trans holds.2
  obtain ⟨acts, s', own, short, runs, -, inside⟩ := run_of_rank (fun s => entering s t) progress ⟨holds, away⟩
  exact ⟨acts, s', own, Nat.le_trans short (entering_le s t), runs, inside⟩

/-- Both threads raise their flags, find the flag of the other one up and take theirs down. -/
def refusals : List Action :=
  [⟨.t0, false⟩, ⟨.t1, false⟩, ⟨.t0, false⟩, ⟨.t1, false⟩, ⟨.t0, false⟩, ⟨.t1, false⟩]

theorem run_refusals : run step initial refusals = some initial := by
  have ends : run step initial refusals = some ⟨_, _, _, _, _⟩ := rfl
  rw [ends]
  congr 2 <;> funext t <;> cases t <;> rfl

theorem outside_refusals {k : Nat} (runs : run step initial (refusals.take k) = some s) : ¬Inside (s.pc t) := by
  match k with
  | 0 | 1 | 2 | 3 | 4 | 5 =>
    cases runs
    cases t <;> exact id
  | k + 6 =>
    rw [List.take_of_length_le (by simp [refusals]), run_refusals] at runs
    cases runs
    exact id

theorem outside_rounds (n : Nat) :
    run step initial (List.replicate n refusals).flatten = some initial ∧
      ∀ k s t, run step initial ((List.replicate n refusals).flatten.take k) = some s → ¬Inside (s.pc t) := by
  induction n with
  | zero =>
    refine ⟨rfl, ?_⟩
    intro k s t runs
    rw [List.replicate_zero, List.flatten_nil, List.take_nil] at runs
    cases runs
    exact id
  | succ n ih =>
    obtain ⟨whole, outside⟩ := ih
    rw [List.replicate_succ, List.flatten_cons]
    refine ⟨run_append.mpr ⟨initial, run_refusals, whole⟩, ?_⟩
    intro k s t runs
    rw [List.take_append, run_append] at runs
    obtain ⟨u, first, rest⟩ := runs
    rcases Nat.lt_or_ge k refusals.length with early | late
    · rw [Nat.sub_eq_zero_of_le (Nat.le_of_lt early), List.take_zero] at rest
      cases rest
      exact outside_refusals first
    · rw [List.take_of_length_le late, run_refusals] at first
      cases first
      exact outside _ s t rest

/-- Whatever the threads have done, each of them can get in: within three accesses of its own when the
other one's flag is down, and within nine in any case. Yet they can refuse one another any number
of times in turn, with no thread inside at any time. -/
theorem entry_possible :
    (∀ s, Reachable step initial s → ∀ t,
      (s.pc t.other = .storeTrue → ∃ acts s', (∀ a ∈ acts, a.thread = t) ∧ acts.length ≤ 3 ∧
        run step s acts = some s' ∧ Inside (s'.pc t)) ∧
      ∃ acts s', acts.length ≤ 9 ∧ run step s acts = some s' ∧ Inside (s'.pc t)) ∧
    ∀ n, ∃ acts, acts.length = 6 * n ∧ run step initial acts = some initial ∧
      ∀ k s t, run step initial (acts.take k) = some s → ¬Inside (s.pc t) := by
  constructor
  · intro s reached t
    have holds := reached.invariant inv_preserved inv_initial
    refine ⟨enters_alone holds, ?_⟩
    obtain ⟨front, s', -, first, runs, holds', away⟩ := leaves_alone holds t.other
    obtain ⟨back, u, -, second, runs', inside⟩ := enters_alone holds' away
    refine ⟨front ++ back, u, ?_, run_append.mpr ⟨s', runs, runs'⟩, inside⟩
    rw [List.length_append]
    omega
  · intro n
    obtain ⟨runs, outside⟩ := outside_rounds n
    refine ⟨_, ?_, runs, outside⟩
    simp [refusals, Nat.mul_comm]

end Cpp20Showcase.AtomicModel.SeqCstProgress
