import Cpp20Showcase.Coroutines.Generator

/-! Range-for loops over a generator visit what its body yields, in order, and get the
exception that ends it once. -/

namespace Cpp20Showcase.Coroutines.GeneratorDelivery
open Lib Lib.TransitionSystem Generator

variable {T E Var : Type} {body : Nat → Signal T E} {f : Frame T E} {vs : List T} {v : T} {e : E}
variable {d h : Nat} {it : Iterator} {x : Var}

def Yields (body : Nat → Signal T E) (vs : List T) : Prop :=
  ∀ n v, vs[n]? = some v → body n = .yield v

theorem Yields.snoc (yields : Yields body vs) (next : body vs.length = .yield v) :
    Yields body (vs ++ [v]) := by
  intro n u found
  rw [List.getElem?_append] at found
  split at found
  next => exact yields n u found
  next past =>
    rw [List.getElem?_singleton] at found
    split at found
    next zero =>
      cases found
      rwa [show n = vs.length by omega]
    next => cases found

theorem Yields.init (yields : Yields body (vs ++ [v])) : Yields body vs := by
  intro n u found
  apply yields n u
  obtain ⟨inside, -⟩ := List.getElem?_eq_some_iff.mp found
  rw [List.getElem?_append_left inside, found]

/-- A frame whose body has yielded `vs` and then, if it is done, has ended. -/
inductive Produced (body : Nat → Signal T E) : Frame T E → List T → Prop where
  | running {vs : List T} (yields : Yields body vs) :
      Produced body ⟨body, vs.length, false, vs.getLast?, none⟩ vs
  | finished {vs : List T} (yields : Yields body vs) (ends : body vs.length = .finish) :
      Produced body ⟨body, vs.length + 1, true, vs.getLast?, none⟩ vs
  | threw {vs : List T} {e : E} (yields : Yields body vs) (ends : body vs.length = .throw e) :
      Produced body ⟨body, vs.length + 1, true, vs.getLast?, some e⟩ vs

namespace Produced

theorem start (body : Nat → Signal T E) : Produced body (.start body) [] := by
  have nothing : Yields body [] := by
    intro n v impossible
    simp at impossible
  exact .running nothing

theorem yields (produced : Produced body f vs) : Yields body vs := by
  cases produced with
  | running yields | finished yields | threw yields => exact yields

theorem resume (produced : Produced body f vs) (more : f.done = false) :
    ∃ vs', Produced body f.resume vs' ∧
      ((∃ v, vs' = vs ++ [v] ∧ f.resume.done = false ∧ f.resume.exception = none) ∨
        (vs' = vs ∧ f.resume.done = true)) := by
  cases produced with
  | running yields =>
    cases next : body vs.length with
    | yield v =>
      refine ⟨vs ++ [v], ?_, .inl ⟨v, rfl, ?_⟩⟩
      · have running := Produced.running (yields.snoc next)
        simpa [Frame.resume, next, Frame.yieldValue] using running
      · simp [Frame.resume, next, Frame.yieldValue]
    | finish =>
      refine ⟨vs, ?_, .inr ⟨rfl, ?_⟩⟩
      · simpa [Frame.resume, next] using Produced.finished yields next
      · simp [Frame.resume, next]
    | throw e =>
      refine ⟨vs, ?_, .inr ⟨rfl, ?_⟩⟩
      · simpa [Frame.resume, next, Frame.unhandledException] using Produced.threw yields next
      · simp [Frame.resume, next, Frame.unhandledException]
  | finished | threw => cases more

theorem exception_none (produced : Produced body f vs) (more : f.done = false) :
    f.exception = none := by
  cases produced with
  | running => rfl
  | finished | threw => cases more

theorem last (produced : Produced body f vs) : f.currentValue = vs.getLast? := by
  cases produced with
  | running | finished | threw => rfl

theorem throws (produced : Produced body f vs) (raised : f.exception = some e) :
    f.done = true ∧ body vs.length = .throw e := by
  cases produced with
  | running | finished => cases raised
  | threw yields ends => cases raised; exact ⟨rfl, ends⟩

theorem ends (produced : Produced body f vs) (stopped : f.done = true) : ∀ v, body vs.length ≠ .yield v := by
  intro v
  cases produced with
  | running => cases stopped
  | finished yields ends => rw [ends]; simp
  | threw yields ends => rw [ends]; simp

end Produced

/-- What the loops have visited of the values yielded: all, or all but the one that a
comparison is about to hand over. -/
def Visited (f : Frame T E) (d : Nat) (vs visited : List T) : Option Loop → Prop
  | none => vs = visited
  | some ⟨it, .body⟩ => it = some 0 ∧ d = 0 ∧ vs = visited
  | some ⟨none, .compare⟩ => vs = visited
  | some ⟨some h, .compare⟩ => h = 0 ∧ d = 0 ∧
      if f.done = true then vs = visited else ∃ v, vs = visited ++ [v]

structure Inv (body : Nat → Signal T E) (f : Frame T E) (d : Nat) (vs : List T)
    (s : Consumer Var T E) : Prop where
  unique : s.world.Unique
  cells : s.world.cells = [⟨f, d⟩]
  produced : Produced body f vs
  visited : Visited f d vs s.visited s.loop
  thrown : s.thrown = f.exception.toList

variable {s t : Consumer Var T E} {a : Action Var}

theorem Inv.live (holds : Inv body f 0 vs s) : s.world.live 0 = some f := by
  simp [Owners.live, holds.cells]

theorem pull_still (still : advance s.world it = some (s.world, none)) :
    pull s it = some { s with loop := some ⟨it, .compare⟩ } := by
  rw [pull, still]
  rfl

theorem advance_done (holds : Inv body f d vs s) (stopped : f.done = true)
    (iterator : it = none ∨ it = some 0 ∧ d = 0) : advance s.world it = some (s.world, none) := by
  rcases iterator with rfl | ⟨rfl, rfl⟩
  · rfl
  · rw [advance, holds.live, Option.map_some, if_pos stopped]

theorem advance_running (holds : Inv body f 0 vs s) (more : f.done = false) :
    advance s.world (some 0) = some (s.world.put 0 f.resume, f.resume.exception) := by
  rw [advance, holds.live, Option.map_some, more]
  rfl

theorem Inv.handle (holds : Inv body f d vs s) (held : s.world.object x = some it) :
    it = none ∨ it = some 0 ∧ d = 0 := by
  cases it with
  | none => exact .inl rfl
  | some h =>
    obtain ⟨c, found, undestroyed⟩ := holds.unique.alive x h held
    rw [holds.cells, List.getElem?_singleton] at found
    split at found
    next zero =>
      cases found
      exact .inr ⟨congrArg some zero, undestroyed⟩
    next => cases found

theorem Inv.pull (holds : Inv body f d vs s) (iterator : it = none ∨ it = some 0 ∧ d = 0)
    (caught : vs = s.visited) :
    ∃ t f' vs', Generator.pull s it = some t ∧ Inv body f' d vs' t ∧
      (f.done = true → f' = f ∧ t.visited = s.visited ∧ t.thrown = s.thrown) := by
  have stays (now : Visited f d vs s.visited (some ⟨it, .compare⟩)) :
      Inv body f d vs { s with loop := some ⟨it, .compare⟩ } := { holds with visited := now }
  rcases iterator with rfl | ⟨rfl, rfl⟩
  · exact ⟨_, f, vs, pull_still rfl, stays caught, fun _ => ⟨rfl, rfl, rfl⟩⟩
  cases stopped : f.done with
  | true =>
    have still := advance_done holds stopped (.inr ⟨rfl, rfl⟩)
    have now : Visited f 0 vs s.visited (some ⟨some 0, .compare⟩) := ⟨rfl, rfl, by rwa [if_pos stopped]⟩
    exact ⟨_, f, vs, pull_still still, stays now, fun _ => ⟨rfl, rfl, rfl⟩⟩
  | false =>
    have moved := advance_running holds stopped
    obtain ⟨vs', produced, resumed⟩ := holds.produced.resume stopped
    have unique : (s.world.put 0 f.resume).Unique := holds.unique.put
    have cells : (s.world.put 0 f.resume).cells = [⟨f.resume, 0⟩] := by
      simp [Owners.put, holds.cells]
    have fresh : s.thrown = [] := by rw [holds.thrown, holds.produced.exception_none stopped]; rfl
    have now : Visited f.resume 0 vs' s.visited (some ⟨some 0, .compare⟩) := by
      refine ⟨rfl, rfl, ?_⟩
      rcases resumed with ⟨v, rfl, more, -⟩ | ⟨rfl, ended⟩
      · rw [more, if_neg (by decide)]
        exact ⟨v, by rw [caught]⟩
      · rwa [if_pos ended]
    cases raised : f.resume.exception with
    | none =>
      refine ⟨{ s with world := s.world.put 0 f.resume, loop := some ⟨some 0, .compare⟩ }, f.resume, vs',
        by rw [Generator.pull, moved, raised]; rfl, ?_, by simp⟩
      exact ⟨unique, cells, produced, now, by rw [fresh, raised]; rfl⟩
    | some e =>
      refine ⟨{ s with world := s.world.put 0 f.resume, loop := none, thrown := s.thrown ++ [e] },
        f.resume, vs', by rw [Generator.pull, moved, raised]; rfl, ?_, by simp⟩
      refine ⟨unique, cells, produced, ?_, by rw [fresh, raised]; rfl⟩
      rcases resumed with ⟨v, -, -, quiet⟩ | ⟨rfl, -⟩
      · rw [raised] at quiet
        cases quiet
      · exact caught

theorem Inv.compare (holds : Inv body f d vs s) (here : s.loop = some ⟨it, .compare⟩) :
    ∃ t, Generator.compare s = some t ∧ Inv body f d vs t ∧
      (f.done = true → t.visited = s.visited) ∧ t.thrown = s.thrown := by
  have visited := holds.visited
  rw [here] at visited
  cases it with
  | none =>
    refine ⟨{ s with loop := none }, by simp [Generator.compare, here, equalsEnd], ?_, fun _ => rfl, rfl⟩
    exact { holds with visited := visited }
  | some h =>
    obtain ⟨rfl, rfl, due⟩ := visited
    cases stopped : f.done with
    | true =>
      rw [if_pos stopped] at due
      refine ⟨{ s with loop := none }, ?_, { holds with visited := due }, fun _ => rfl, rfl⟩
      simp [Generator.compare, here, equalsEnd, holds.live, stopped]
    | false =>
      rw [stopped, if_neg (by decide)] at due
      obtain ⟨v, due⟩ := due
      have last : f.currentValue = some v := by rw [holds.produced.last, due]; simp
      refine ⟨{ s with loop := some ⟨some 0, .body⟩, visited := s.visited ++ [v] }, ?_, ?_, by simp, rfl⟩
      · simp [Generator.compare, here, equalsEnd, deref, holds.live, stopped, last]
      · exact { holds with visited := ⟨rfl, rfl, due⟩ }

variable [DecidableEq Var]

theorem inv_initial (body : Nat → Signal T E) (x : Var) :
    Inv body (.start body) 0 [] (initial body x) where
  unique := Owners.Unique.empty.create (x := x) (r := .start body) rfl
  cells := rfl
  produced := .start body
  visited := rfl
  thrown := rfl

theorem inv_step (holds : Inv body f d vs s) (moved : step s a = some t) :
    ∃ f' d' vs', Inv body f' d' vs' t ∧
      (f.done = true → f' = f ∧ t.visited = s.visited ∧ t.thrown = s.thrown) := by
  have visited := holds.visited
  cases a with
  | begin x =>
    simp only [step, Generator.begin] at moved
    split at moved
    next it idle held =>
      rw [idle] at visited
      obtain ⟨u, f', vs', pulled, holds', kept⟩ := holds.pull (holds.handle held) visited
      cases pulled.symm.trans moved
      exact ⟨f', d, vs', holds', kept⟩
    next => cases moved
  | compare =>
    have here : ∃ it, s.loop = some ⟨it, .compare⟩ := by
      simp only [step, Generator.compare] at moved
      split at moved
      next it here => exact ⟨it, here⟩
      next => cases moved
    obtain ⟨it, here⟩ := here
    obtain ⟨u, compared, holds', kept, same⟩ := holds.compare here
    cases compared.symm.trans moved
    exact ⟨f, d, vs, holds', fun stopped => ⟨rfl, kept stopped, same⟩⟩
  | increment =>
    simp only [step, Generator.increment] at moved
    split at moved
    next it here =>
      rw [here] at visited
      obtain ⟨handle, alive, caught⟩ := visited
      obtain ⟨u, f', vs', pulled, holds', kept⟩ := holds.pull (.inr ⟨handle, alive⟩) caught
      cases pulled.symm.trans moved
      exact ⟨f', d, vs', holds', kept⟩
    next => cases moved
  | leave =>
    simp only [step, Generator.leave] at moved
    split at moved
    next it here =>
      cases moved
      rw [here] at visited
      exact ⟨f, d, vs, { holds with visited := visited.2.2 }, fun _ => ⟨rfl, rfl, rfl⟩⟩
    next => cases moved
  | special m =>
    simp only [step, Generator.special] at moved
    split at moved
    next idle =>
      obtain ⟨w, done, same⟩ := Option.map_eq_some_iff.mp moved
      cases same
      obtain ⟨gone, cells⟩ := Owners.special_cells done
      obtain ⟨d', left⟩ : ∃ d', w.cells = [⟨f, d'⟩] := by
        rw [cells, holds.cells]
        rcases gone with - | - | h
        · exact ⟨d, rfl⟩
        · exact ⟨d + 1, rfl⟩
        · exact ⟨d, by simp [Owners.destroy]⟩
      rw [idle] at visited
      refine ⟨f, d', vs, ⟨holds.unique.special done, left, holds.produced, ?_, holds.thrown⟩,
        fun _ => ⟨rfl, rfl, rfl⟩⟩
      rw [idle]
      exact visited
    next => cases moved

theorem inv_reachable (reached : Reachable step (initial body x) s) : ∃ f d vs, Inv body f d vs s := by
  refine reached.invariant (I := fun s => ∃ f d vs, Inv body f d vs s) ?_ ⟨_, _, _, inv_initial body x⟩
  intro s a t holds moved
  obtain ⟨f, d, vs, holds⟩ := holds
  obtain ⟨f', d', vs', holds', -⟩ := inv_step holds moved
  exact ⟨f', d', vs', holds'⟩

theorem Inv.ended (holds : Inv body f d vs s) (stopped : f.done = true) (reached : Reachable step s t) :
    ∃ d', t.world.cells = [⟨f, d'⟩] ∧ t.visited = s.visited ∧ t.thrown = s.thrown := by
  have all : ∃ d' vs', Inv body f d' vs' t ∧ t.visited = s.visited ∧ t.thrown = s.thrown := by
    refine reached.invariant
      (I := fun t => ∃ d' vs', Inv body f d' vs' t ∧ t.visited = s.visited ∧ t.thrown = s.thrown)
      ?_ ⟨d, vs, holds, rfl, rfl⟩
    intro u a v before moved
    obtain ⟨d', vs', holds', sameVisited, sameThrown⟩ := before
    obtain ⟨f'', d'', vs'', holds'', kept⟩ := inv_step holds' moved
    obtain ⟨rfl, visited, thrown⟩ := kept stopped
    exact ⟨d'', vs'', holds'', visited.trans sameVisited, thrown.trans sameThrown⟩
  obtain ⟨d', vs', holds', visited, thrown⟩ := all
  exact ⟨d', holds'.cells, visited, thrown⟩

theorem Inv.begin_ended (holds : Inv body f d vs s) (stopped : f.done = true) (idle : s.loop = none)
    (held : s.world.object x = some it) :
    ∃ t, step s (.begin x) = some t ∧ t.loop = some ⟨it, .compare⟩ ∧ t.world = s.world ∧
      equalsEnd t.world it = some true := by
  have iterator := holds.handle held
  have still := advance_done holds stopped iterator
  have begun : step s (.begin x) = some { s with loop := some ⟨it, .compare⟩ } := by
    rw [step, Generator.begin, idle, held]
    exact pull_still still
  refine ⟨_, begun, rfl, rfl, ?_⟩
  · rcases iterator with rfl | ⟨rfl, rfl⟩
    · rfl
    · rw [equalsEnd, holds.live, Option.map_some, stopped]

/-- Every operation of the loops is defined: no absent value is read and no destroyed
frame is touched. -/
def Defined (s : Consumer Var T E) : Prop :=
  (∀ x it, s.loop = none → s.world.object x = some it → ∃ t, step s (.begin x) = some t) ∧
    (∀ it, s.loop = some ⟨it, .compare⟩ → ∃ t, step s .compare = some t) ∧
    ∀ it, s.loop = some ⟨it, .body⟩ → ∃ t, step s .increment = some t

theorem Inv.defined (holds : Inv body f d vs s) : Defined s := by
  have visited := holds.visited
  refine ⟨?_, ?_, ?_⟩
  · intro x it idle held
    rw [idle] at visited
    obtain ⟨t, -, -, pulled, -⟩ := holds.pull (holds.handle held) visited
    exact ⟨t, by rw [step, Generator.begin, idle, held]; exact pulled⟩
  · intro it here
    obtain ⟨t, compared, -⟩ := holds.compare here
    exact ⟨t, compared⟩
  · intro it here
    rw [here] at visited
    obtain ⟨handle, alive, caught⟩ := visited
    obtain ⟨t, -, -, pulled, -⟩ := holds.pull (.inr ⟨handle, alive⟩) caught
    exact ⟨t, by rw [step, Generator.increment, here]; exact pulled⟩

theorem Visited.all {visited : List T} {loop : Option Loop} (due : Visited f d vs visited loop)
    (stopped : f.done = true) : vs = visited := by
  cases loop with
  | none => exact due
  | some l =>
    obtain ⟨it, point⟩ := l
    cases point with
    | body => exact due.2.2
    | compare =>
      cases it with
      | none => exact due
      | some h =>
        obtain ⟨-, -, due⟩ := due
        rwa [if_pos stopped] at due

theorem Visited.yields {visited : List T} {loop : Option Loop} (due : Visited f d vs visited loop)
    (yields : Yields body vs) : Yields body visited := by
  cases loop with
  | none => exact due ▸ yields
  | some l =>
    obtain ⟨it, point⟩ := l
    cases point with
    | body => exact due.2.2 ▸ yields
    | compare =>
      cases it with
      | none => exact due ▸ yields
      | some h =>
        obtain ⟨-, -, due⟩ := due
        split at due
        · exact due ▸ yields
        · obtain ⟨v, rfl⟩ := due
          exact yields.init

/-- Any number of loops, each left anywhere, with the generator moved in between: what
they visit is what the body yields, from its first value on; an exception that ends the
body is thrown at once, once, and after all its values; an ended body is never resumed,
and `begin()` equals `end()`. -/
theorem delivers_yields (body : Nat → Signal T E) (x : Var) (s : Consumer Var T E)
    (reached : Reachable step (initial body x) s) :
    ∃ f d, s.world.cells = [⟨f, d⟩] ∧ Yields body s.visited ∧ s.thrown = f.exception.toList ∧
      (∀ e, f.exception = some e → f.done = true ∧ body s.visited.length = .throw e) ∧
      (f.done = true → ∀ v, body s.visited.length ≠ .yield v) ∧
      (f.done = true → ∀ t, Reachable step s t →
        ∃ d', t.world.cells = [⟨f, d'⟩] ∧ t.visited = s.visited ∧ t.thrown = s.thrown) ∧
      (f.done = true → s.loop = none → ∀ y it, s.world.object y = some it →
        ∃ t, step s (.begin y) = some t ∧ t.loop = some ⟨it, .compare⟩ ∧ t.world = s.world ∧
          equalsEnd t.world it = some true) ∧
      Defined s := by
  obtain ⟨f, d, vs, holds⟩ := inv_reachable reached
  refine ⟨f, d, holds.cells, holds.visited.yields holds.produced.yields, holds.thrown, ?_, ?_, ?_, ?_,
    holds.defined⟩
  · intro e raised
    obtain ⟨stopped, ends⟩ := holds.produced.throws raised
    rw [holds.visited.all stopped] at ends
    exact ⟨stopped, ends⟩
  · intro stopped
    have ends := holds.produced.ends stopped
    rwa [holds.visited.all stopped] at ends
  · exact fun stopped t => holds.ended stopped
  · exact fun stopped idle y it => holds.begin_ended stopped idle

def failing : Nat → Signal Nat String
  | 0 => .yield 4
  | 1 => .yield 7
  | _ => .throw "out"

/-- The first loop is left at the first value, the generator moved from `false` to `true`,
and the second loop runs into the exception. -/
theorem delivers_yields_failing :
    ∃ s : Consumer Bool Nat String,
      run step (initial failing false) [.begin false, .compare, .leave,
        .special (.moveConstruct true false), .begin true, .compare, .increment, .begin true] = some s ∧
      s.visited = [4, 7] ∧ s.thrown = ["out"] ∧
      ∃ f d, s.world.cells = [⟨f, d⟩] ∧ Yields failing s.visited ∧ s.thrown = f.exception.toList ∧
        (∀ e, f.exception = some e → f.done = true ∧ failing s.visited.length = .throw e) ∧
        (f.done = true → ∀ v, failing s.visited.length ≠ .yield v) ∧
        (f.done = true → ∀ t, Reachable step s t →
          ∃ d', t.world.cells = [⟨f, d'⟩] ∧ t.visited = s.visited ∧ t.thrown = s.thrown) ∧
        (f.done = true → s.loop = none → ∀ y it, s.world.object y = some it →
          ∃ t, step s (.begin y) = some t ∧ t.loop = some ⟨it, .compare⟩ ∧ t.world = s.world ∧
            equalsEnd t.world it = some true) ∧
        Defined s := by
  have runs : run step (initial failing false) [.begin false, .compare, .leave,
      .special (.moveConstruct true false), .begin true, .compare, .increment, .begin true] = some _ := rfl
  exact ⟨_, runs, rfl, rfl, delivers_yields failing false _ ⟨_, runs⟩⟩

end Cpp20Showcase.Coroutines.GeneratorDelivery
