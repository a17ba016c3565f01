import Mathlib.Data.List.Basic
import Mathlib.Data.List.Nodup
import Mathlib.Logic.Function.Basic
import Mathlib.Data.Nat.Basic

/-! Linearizability. A history lists, step by step, the call or return each step
shows to the outside. The atomic object is the machine in which a call takes
effect in a single step somewhere between its call and its return; every history
of it has a linearization, so a program is linearizable once its steps are
matched by steps of the atomic object. -/

namespace Cpp20Showcase.Lib.Linearizable

/-- A sequential object: what an operation leaves behind and what it returns. -/
structure Sequential (σ Op Res : Type*) where
  apply : σ → Op → σ × Res

inductive Event (ι Op Res : Type*) where
  | call (t : ι) (op : Op)
  | ret (t : ι) (r : Res)

def Event.thread {ι Op Res : Type*} : Event ι Op Res → ι
  | .call t _ => t
  | .ret t _ => t

/-- The instant (a step number) at which the call made in step `call` takes effect. -/
structure Point (ι Op Res : Type*) where
  call : Nat
  instant : Nat
  thread : ι
  op : Op
  res : Res

variable {σ ι Op Res : Type*}

abbrev History (ι Op Res : Type*) := List (Option (Event ι Op Res))

def after (O : Sequential σ Op Res) (s : σ) (points : List (Point ι Op Res)) : σ :=
  points.foldl (fun s p => (O.apply s p.op).1) s

/-- Run one after the other, the operations return what the points say. -/
def Legal (O : Sequential σ Op Res) : σ → List (Point ι Op Res) → Prop
  | _, [] => True
  | s, p :: rest => (O.apply s p.op).2 = p.res ∧ Legal O (O.apply s p.op).1 rest

/-- Thread `t` shows nothing strictly between steps `i` and `j`. -/
def Quiet (history : History ι Op Res) (t : ι) (i j : Nat) : Prop :=
  ∀ m, i < m → m < j → ∀ e, history[m]? = some (some e) → e.thread ≠ t

/-- Points in increasing order of instants, legal for the object, each inside its
own call, at most one for a call, and one with the same result for every call
that has returned. -/
structure Linearization (O : Sequential σ Op Res) (init : σ) (history : History ι Op Res)
    (points : List (Point ι Op Res)) : Prop where
  ordered : points.Pairwise fun p q => p.instant < q.instant
  legal : Legal O init points
  inside : ∀ p ∈ points, history[p.call]? = some (some (.call p.thread p.op)) ∧
    p.call < p.instant ∧ p.instant < history.length ∧ Quiet history p.thread p.call (p.instant + 1)
  once : (points.map Point.call).Nodup
  returned : ∀ j t r, history[j]? = some (some (.ret t r)) →
    ∃ p ∈ points, p.thread = t ∧ p.res = r ∧ p.instant < j ∧ Quiet history t p.call j

section sequential

variable {O : Sequential σ Op Res} {s : σ} {p : Point ι Op Res} {points : List (Point ι Op Res)}

theorem after_snoc : after O s (points ++ [p]) = (O.apply (after O s points) p.op).1 := by
  simp [after]

theorem legal_snoc :
    Legal O s (points ++ [p]) ↔ Legal O s points ∧ (O.apply (after O s points) p.op).2 = p.res := by
  induction points generalizing s with
  | nil => simp [Legal, after]
  | cons q points ih => simp only [List.cons_append, Legal, ih, and_assoc, after, List.foldl_cons]

theorem result_at (ordered : points.Pairwise fun p q => p.instant < q.instant)
    (legal : Legal O s points) (member : p ∈ points) :
    (O.apply (after O s (points.filter fun q => q.instant < p.instant)) p.op).2 = p.res := by
  induction points generalizing s with
  | nil => cases member
  | cons q points ih =>
    obtain ⟨first, rest⟩ := List.pairwise_cons.mp ordered
    rcases List.mem_cons.mp member with same | later
    · subst same
      have none : (p :: points).filter (fun r => r.instant < p.instant) = [] := by
        rw [List.filter_eq_nil_iff]
        intro r inside
        rcases List.mem_cons.mp inside with same | inside
        · simp [same]
        · simpa using Nat.le_of_lt (first r inside)
      rw [none]
      exact legal.1
    · rw [List.filter_cons_of_pos (by simpa using first p later)]
      exact ih rest legal.2 later

end sequential

section quiet

variable {history : History ι Op Res} {e : Option (Event ι Op Res)} {t : ι} {i j : Nat}

theorem Quiet.append (quiet : Quiet history t i j) (inside : j ≤ history.length) :
    Quiet (history ++ [e]) t i j := by
  intro m above below f found
  rw [List.getElem?_append_left (by omega)] at found
  exact quiet m above below f found

theorem Quiet.snoc (quiet : Quiet history t i history.length)
    (other : ∀ f, e = some f → f.thread ≠ t) :
    Quiet (history ++ [e]) t i (history ++ [e]).length := by
  intro m above below f found
  rw [List.length_append, List.length_singleton] at below
  by_cases last : m = history.length
  · subst last
    rw [List.getElem?_append_right le_rfl, Nat.sub_self] at found
    exact other f (by simpa using found)
  · rw [List.getElem?_append_left (by omega)] at found
    exact quiet m above (by omega) f found

theorem Quiet.silent (quiet : Quiet history t i history.length) :
    Quiet (history ++ [none]) t i (history ++ [none]).length := by
  apply quiet.snoc
  intro f impossible
  cases impossible

theorem Quiet.other {f : Event ι Op Res} (quiet : Quiet history t i history.length)
    (other : f.thread ≠ t) : Quiet (history ++ [some f]) t i (history ++ [some f]).length := by
  apply quiet.snoc
  intro g same
  cases same
  exact other

theorem getElem?_snoc_some {f : Option (Event ι Op Res)} (found : history[i]? = some f) :
    (history ++ [e])[i]? = some f := by
  rw [List.getElem?_append_left (List.getElem?_eq_some_iff.mp found).1]
  exact found

end quiet

/-- Where a thread of the atomic object stands; `since` is the step of its call. -/
inductive Phase (Op Res : Type*) where
  | idle
  | called (since : Nat) (op : Op)
  | committed (since : Nat) (r : Res)

structure Config (σ ι Op Res : Type*) where
  clock : Nat
  object : σ
  phase : ι → Phase Op Res
  points : List (Point ι Op Res)

def Config.start (init : σ) : Config σ ι Op Res where
  clock := 0
  object := init
  phase := fun _ => .idle
  points := []

variable [DecidableEq ι]

/-- The atomic object: between call and return there is one step in which the
operation is applied. -/
inductive AtomicStep (O : Sequential σ Op Res) (c : Config σ ι Op Res) :
    Option (Event ι Op Res) → Config σ ι Op Res → Prop where
  | call {t op} (idle : c.phase t = .idle) :
      AtomicStep O c (some (.call t op))
        { c with clock := c.clock + 1, phase := Function.update c.phase t (.called c.clock op) }
  | commit {t since op} (called : c.phase t = .called since op) :
      AtomicStep O c none
        { clock := c.clock + 1
          object := (O.apply c.object op).1
          phase := Function.update c.phase t (.committed since (O.apply c.object op).2)
          points := c.points ++ [⟨since, c.clock, t, op, (O.apply c.object op).2⟩] }
  | ret {t since r} (committed : c.phase t = .committed since r) :
      AtomicStep O c (some (.ret t r))
        { c with clock := c.clock + 1, phase := Function.update c.phase t .idle }
  | internal : AtomicStep O c none { c with clock := c.clock + 1 }

inductive AtomicRun (O : Sequential σ Op Res) (init : σ) :
    History ι Op Res → Config σ ι Op Res → Prop where
  | start : AtomicRun O init [] (.start init)
  | next {history c e c'} (before : AtomicRun O init history c) (step : AtomicStep O c e c') :
      AtomicRun O init (history ++ [e]) c'

/-- What a run of the atomic object knows about its history. -/
structure Tracks (O : Sequential σ Op Res) (init : σ) (history : History ι Op Res)
    (c : Config σ ι Op Res) : Prop where
  clock : c.clock = history.length
  linear : Linearization O init history c.points
  object : after O init c.points = c.object
  called : ∀ t since op, c.phase t = .called since op →
    history[since]? = some (some (.call t op)) ∧ Quiet history t since history.length ∧
      ∀ p ∈ c.points, p.call ≠ since
  committed : ∀ t since r, c.phase t = .committed since r →
    ∃ p ∈ c.points, p.call = since ∧ p.thread = t ∧ p.res = r ∧ Quiet history t since history.length

variable {O : Sequential σ Op Res} {init : σ} {history : History ι Op Res} {c c' : Config σ ι Op Res}
  {e : Option (Event ι Op Res)}

omit [DecidableEq ι] in
theorem Linearization.grow {points : List (Point ι Op Res)}
    (linear : Linearization O init history points)
    (last : ∀ t r, e = some (.ret t r) → ∃ p ∈ points, p.thread = t ∧ p.res = r ∧
      Quiet history t p.call history.length) :
    Linearization O init (history ++ [e]) points where
  ordered := linear.ordered
  legal := linear.legal
  inside := by
    intro p member
    obtain ⟨called, above, below, quiet⟩ := linear.inside p member
    refine ⟨getElem?_snoc_some called, above, ?_, quiet.append below⟩
    rw [List.length_append]
    omega
  once := linear.once
  returned := by
    intro j t r found
    by_cases old : j < history.length
    · rw [List.getElem?_append_left old] at found
      obtain ⟨p, member, thread, result, before, quiet⟩ := linear.returned j t r found
      exact ⟨p, member, thread, result, before, quiet.append (Nat.le_of_lt old)⟩
    · have here : j = history.length := by
        have bound := (List.getElem?_eq_some_iff.mp found).1
        rw [List.length_append, List.length_singleton] at bound
        omega
      subst here
      rw [List.getElem?_append_right le_rfl, Nat.sub_self] at found
      obtain ⟨p, member, thread, result, quiet⟩ := last t r (by simpa using found)
      exact ⟨p, member, thread, result, (linear.inside p member).2.2.1, quiet.append le_rfl⟩

theorem Tracks.call {t : ι} {op : Op} (tracks : Tracks O init history c) :
    Tracks O init (history ++ [some (.call t op)])
      { c with clock := c.clock + 1, phase := Function.update c.phase t (.called c.clock op) } where
  clock := by simp [tracks.clock]
  linear := tracks.linear.grow (fun _ _ impossible => by cases impossible)
  object := tracks.object
  called := by
    intro u since op' phase
    by_cases same : u = t
    · subst same
      simp only [Function.update_self, Phase.called.injEq] at phase
      obtain ⟨rfl, rfl⟩ := phase
      rw [tracks.clock]
      refine ⟨by simp, ?_, fun p member => ?_⟩
      · intro m above below
        rw [List.length_append, List.length_singleton] at below
        omega
      · have inside := tracks.linear.inside p member
        omega
    · simp only [Function.update_of_ne same] at phase
      obtain ⟨called, quiet, free⟩ := tracks.called u since op' phase
      exact ⟨getElem?_snoc_some called, quiet.other (Ne.symm same), free⟩
  committed := by
    intro u since r phase
    by_cases same : u = t
    · subst same
      simp only [Function.update_self, reduceCtorEq] at phase
    · simp only [Function.update_of_ne same] at phase
      obtain ⟨p, member, call, thread, result, quiet⟩ := tracks.committed u since r phase
      exact ⟨p, member, call, thread, result, quiet.other (Ne.symm same)⟩

theorem Tracks.commit {t : ι} {since : Nat} {op : Op} (tracks : Tracks O init history c)
    (phase : c.phase t = .called since op) :
    Tracks O init (history ++ [none])
      { clock := c.clock + 1
        object := (O.apply c.object op).1
        phase := Function.update c.phase t (.committed since (O.apply c.object op).2)
        points := c.points ++ [⟨since, c.clock, t, op, (O.apply c.object op).2⟩] } := by
  obtain ⟨called, quiet, free⟩ := tracks.called t since op phase
  have grown := tracks.linear.grow (e := none) (fun _ _ impossible => by cases impossible)
  have early : since < history.length := (List.getElem?_eq_some_iff.mp called).1
  refine ⟨by simp [tracks.clock], ⟨?_, ?_, ?_, ?_, ?_⟩, ?_, ?_, ?_⟩
  · refine List.pairwise_append.mpr ⟨grown.ordered, List.pairwise_singleton _ _, ?_⟩
    intro p member q last
    rw [List.mem_singleton.mp last, tracks.clock]
    exact (tracks.linear.inside p member).2.2.1
  · exact legal_snoc.mpr ⟨grown.legal, by rw [tracks.object]⟩
  · intro p member
    rcases List.mem_append.mp member with old | last
    · exact grown.inside p old
    · rw [List.mem_singleton.mp last, tracks.clock]
      refine ⟨getElem?_snoc_some called, early, by simp, ?_⟩
      simpa using quiet.silent
  · rw [List.map_append, List.nodup_append]
    refine ⟨grown.once, List.nodup_singleton _, ?_⟩
    intro i old j last same
    obtain ⟨p, member, rfl⟩ := List.mem_map.mp old
    rw [List.map_singleton, List.mem_singleton] at last
    exact free p member (same.trans last)
  · intro j u r found
    obtain ⟨p, member, rest⟩ := grown.returned j u r found
    exact ⟨p, List.mem_append_left _ member, rest⟩
  · rw [after_snoc, tracks.object]
  · intro u since' op' phase'
    by_cases same : u = t
    · subst same
      simp only [Function.update_self, reduceCtorEq] at phase'
    · simp only [Function.update_of_ne same] at phase'
      obtain ⟨called', quiet', free'⟩ := tracks.called u since' op' phase'
      refine ⟨getElem?_snoc_some called', quiet'.silent, fun p member => ?_⟩
      rcases List.mem_append.mp member with old | last
      · exact free' p old
      · rw [List.mem_singleton.mp last]
        intro again
        rw [← again, called, Option.some.injEq, Option.some.injEq] at called'
        cases called'
        exact same rfl
  · intro u since' r phase'
    by_cases same : u = t
    · subst same
      simp only [Function.update_self, Phase.committed.injEq] at phase'
      obtain ⟨rfl, rfl⟩ := phase'
      exact ⟨_, List.mem_append_right _ (List.mem_singleton_self _), rfl, rfl, rfl,
        quiet.silent⟩
    · simp only [Function.update_of_ne same] at phase'
      obtain ⟨p, member, call, thread, result, quiet'⟩ := tracks.committed u since' r phase'
      exact ⟨p, List.mem_append_left _ member, call, thread, result, quiet'.silent⟩

theorem Tracks.ret {t : ι} {since : Nat} {r : Res} (tracks : Tracks O init history c)
    (phase : c.phase t = .committed since r) :
    Tracks O init (history ++ [some (.ret t r)])
      { c with clock := c.clock + 1, phase := Function.update c.phase t .idle } where
  clock := by simp [tracks.clock]
  linear := by
    apply tracks.linear.grow
    intro u r' returns
    cases returns
    obtain ⟨p, member, rfl, thread, result, quiet⟩ := tracks.committed _ since _ phase
    exact ⟨p, member, thread, result, quiet⟩
  object := tracks.object
  called := by
    intro u since' op phase'
    by_cases same : u = t
    · subst same
      simp only [Function.update_self, reduceCtorEq] at phase'
    · simp only [Function.update_of_ne same] at phase'
      obtain ⟨called, quiet, free⟩ := tracks.called u since' op phase'
      exact ⟨getElem?_snoc_some called, quiet.other (Ne.symm same), free⟩
  committed := by
    intro u since' r' phase'
    by_cases same : u = t
    · subst same
      simp only [Function.update_self, reduceCtorEq] at phase'
    · simp only [Function.update_of_ne same] at phase'
      obtain ⟨p, member, call, thread, result, quiet⟩ := tracks.committed u since' r' phase'
      exact ⟨p, member, call, thread, result, quiet.other (Ne.symm same)⟩

omit [DecidableEq ι] in
theorem Tracks.internal (tracks : Tracks O init history c) :
    Tracks O init (history ++ [none]) { c with clock := c.clock + 1 } where
  clock := by simp [tracks.clock]
  linear := tracks.linear.grow (fun _ _ impossible => by cases impossible)
  object := tracks.object
  called := by
    intro u since op phase
    obtain ⟨called, quiet, free⟩ := tracks.called u since op phase
    exact ⟨getElem?_snoc_some called, quiet.silent, free⟩
  committed := by
    intro u since r phase
    obtain ⟨p, member, call, thread, result, quiet⟩ := tracks.committed u since r phase
    exact ⟨p, member, call, thread, result, quiet.silent⟩

/-- Every history of the atomic object is linearized by the points of its run. -/
theorem AtomicRun.tracks (atomicRun : AtomicRun O init history c) : Tracks O init history c := by
  induction atomicRun with
  | start =>
    refine ⟨rfl, ⟨.nil, trivial, ?_, .nil, ?_⟩, rfl, ?_, ?_⟩
    · intro p member
      cases member
    · intro j t r found
      cases found
    · intro t since op phase
      cases phase
    · intro t since r phase
      cases phase
  | next before step ih =>
    cases step with
    | call idle => exact ih.call
    | commit called => exact ih.commit called
    | ret committed => exact ih.ret committed
    | internal => exact ih.internal

theorem AtomicStep.earlier_points {n : Nat} (step : AtomicStep O c e c') (past : n ≤ c.clock) :
    c'.points.filter (fun p => p.instant < n) = c.points.filter (fun p => p.instant < n) := by
  cases step with
  | commit called =>
    have late : ¬c.clock < n := Nat.not_lt.mpr past
    rw [List.filter_append, List.filter_cons_of_neg (by simpa using late), List.filter_nil,
      List.append_nil]
  | call | ret | internal => rfl

omit [DecidableEq ι] in
theorem Tracks.all_points {n : Nat} (tracks : Tracks O init history c) (present : history.length ≤ n) :
    c.points.filter (fun p => p.instant < n) = c.points := by
  rw [List.filter_eq_self]
  intro p member
  have inside := (tracks.linear.inside p member).2.2.1
  simpa using Nat.lt_of_lt_of_le inside present

end Cpp20Showcase.Lib.Linearizable
