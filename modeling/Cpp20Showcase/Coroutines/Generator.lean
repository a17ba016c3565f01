import Cpp20Showcase.Lib.TransitionSystem
import Cpp20Showcase.Lib.UniqueHandle

/-! `Generator<T>` from `03_coroutines/generator.h` and a consumer that runs range-for
loops over it. Positions live in the coroutine frame; generators and iterators hold
handles to it. -/

namespace Cpp20Showcase.Coroutines.Generator
open Lib Lib.TransitionSystem

/-- Where a resumed body gets to: a `co_yield`, its end, or an exception that leaves it. -/
inductive Signal (T E : Type) where
  | yield (v : T)
  | finish
  | throw (e : E)

variable {T E Var : Type}

/-- The coroutine state with its promise; `body n` is what resumption number `n` gets to. -/
structure Frame (T E : Type) where
  body : Nat → Signal T E
  resumed : Nat
  done : Bool
  currentValue : Option T
  exception : Option E

/-- Suspended at `initial_suspend`. -/
def Frame.start (body : Nat → Signal T E) : Frame T E where
  body := body
  resumed := 0
  done := false
  currentValue := none
  exception := none

def Frame.yieldValue (f : Frame T E) (v : T) : Frame T E := { f with currentValue := some v }

def Frame.unhandledException (f : Frame T E) (e : E) : Frame T E := { f with exception := some e }

/-- Runs the body on; at its end, reached either way, it stays at `final_suspend`. -/
def Frame.resume (f : Frame T E) : Frame T E :=
  let next := { f with resumed := f.resumed + 1 }
  match f.body f.resumed with
  | .yield v => next.yieldValue v
  | .finish => { next with done := true }
  | .throw e => { next.unhandledException e with done := true }

/-- An iterator is a copy of the handle; null in a default-constructed generator's. -/
abbrev Iterator := Option Nat

abbrev World (Var T E : Type) := Owners Var (Frame T E)

/-- The world after `advance` and the exception it rethrows, if any. A destroyed frame
must not be asked whether it is done. -/
def advance (w : World Var T E) : Iterator → Option (World Var T E × Option E)
  | none => some (w, none)
  | some h => (w.live h).map fun f =>
      if f.done then (w, none) else (w.put h f.resume, f.resume.exception)

/-- `!m_handle || m_handle.done()`. -/
def equalsEnd (w : World Var T E) : Iterator → Option Bool
  | none => some true
  | some h => (w.live h).map fun f => f.done

/-- `*m_handle.promise().current_value`, which needs a value to be there. -/
def deref (w : World Var T E) : Iterator → Option T
  | none => none
  | some h => (w.live h).bind fun f => f.currentValue

inductive Point where
  | compare
  | body

/-- A range-for loop that is running: before `it != end()`, or in its body. -/
structure Loop where
  iterator : Iterator
  point : Point

/-- The values the loop bodies were given and the exceptions the loops got, in order. -/
structure Consumer (Var T E : Type) where
  world : World Var T E
  loop : Option Loop
  visited : List T
  thrown : List E

/-- Loops may be left at any element; between loops the generator objects may be moved,
assigned, created empty and destroyed. -/
inductive Action (Var : Type) where
  | begin (x : Var)
  | compare
  | increment
  | leave
  | special (m : SpecialMember Var)

variable [DecidableEq Var]

def initial (body : Nat → Signal T E) (x : Var) : Consumer Var T E where
  world :=
    { cells := [⟨.start body, 0⟩]
      object := Function.update (fun _ => none) x (some (some 0)) }
  loop := none
  visited := []
  thrown := []

def pull (s : Consumer Var T E) (it : Iterator) : Option (Consumer Var T E) :=
  (advance s.world it).map fun
    | (w, none) => { s with world := w, loop := some ⟨it, .compare⟩ }
    | (w, some e) => { s with world := w, loop := none, thrown := s.thrown ++ [e] }

/-- `auto it = x.begin()`; the iterator's constructor advances it. -/
def begin (s : Consumer Var T E) (x : Var) : Option (Consumer Var T E) :=
  match s.loop, s.world.object x with
  | none, some it => pull s it
  | _, _ => none

/-- `it != end()`, and then `*it` for the body of the loop. -/
def compare (s : Consumer Var T E) : Option (Consumer Var T E) :=
  match s.loop with
  | some ⟨it, .compare⟩ => do
      if ← equalsEnd s.world it then some { s with loop := none }
      else
        let v ← deref s.world it
        some { s with loop := some ⟨it, .body⟩, visited := s.visited ++ [v] }
  | _ => none

/-- `++it`. -/
def increment (s : Consumer Var T E) : Option (Consumer Var T E) :=
  match s.loop with
  | some ⟨it, .body⟩ => pull s it
  | _ => none

/-- `break`. -/
def leave (s : Consumer Var T E) : Option (Consumer Var T E) :=
  match s.loop with
  | some ⟨_, .body⟩ => some { s with loop := none }
  | _ => none

def special (s : Consumer Var T E) (m : SpecialMember Var) : Option (Consumer Var T E) :=
  match s.loop with
  | none => (s.world.special m).map fun w => { s with world := w }
  | some _ => none

def step (s : Consumer Var T E) : Action Var → Option (Consumer Var T E)
  | .begin x => begin s x
  | .compare => compare s
  | .increment => increment s
  | .leave => leave s
  | .special m => special s m

end Cpp20Showcase.Coroutines.Generator
