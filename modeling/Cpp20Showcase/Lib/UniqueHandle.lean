import Mathlib.Logic.Equiv.Basic
import Mathlib.Data.List.Basic

/-! Objects that own a resource through a handle and can be moved but not copied. A
resource keeps the number of times it was destroyed, so that nothing is assumed about
who destroys what. -/

namespace Cpp20Showcase.Lib

structure Cell (R : Type*) where
  resource : R
  destroyed : Nat

/-- Handles count the resources created. An object that does not exist is `none`, one
with a null handle is `some none`. -/
structure Owners (Var R : Type*) where
  cells : List (Cell R)
  object : Var → Option (Option Nat)

namespace Owners

variable {Var R : Type*} {w w' : Owners Var R} {x y : Var} {h : Nat} {r : R}

def Holds (w : Owners Var R) (x : Var) (h : Nat) : Prop := w.object x = some (some h)

def live (w : Owners Var R) (h : Nat) : Option R :=
  match w.cells[h]? with
  | some c => if c.destroyed = 0 then some c.resource else none
  | none => none

def put (w : Owners Var R) (h : Nat) (r : R) : Owners Var R :=
  { w with cells := w.cells.modify h fun c => { c with resource := r } }

/-- Destroy what a handle stands for; a null handle stands for nothing. -/
def destroy (cells : List (Cell R)) : Option Nat → List (Cell R)
  | none => cells
  | some h => cells.modify h fun c => { c with destroyed := c.destroyed + 1 }

variable [DecidableEq Var]

def create (w : Owners Var R) (x : Var) (r : R) : Option (Owners Var R) :=
  match w.object x with
  | none => some
      { cells := w.cells ++ [⟨r, 0⟩]
        object := Function.update w.object x (some (some w.cells.length)) }
  | some _ => none

def construct (w : Owners Var R) (x : Var) : Option (Owners Var R) :=
  match w.object x with
  | none => some { w with object := Function.update w.object x (some none) }
  | some _ => none

/-- The handle is exchanged for null in the source. -/
def moveConstruct (w : Owners Var R) (target source : Var) : Option (Owners Var R) :=
  match w.object target, w.object source with
  | none, some theirs => some
      { w with
        object := Function.update (Function.update w.object source (some none)) target (some theirs) }
  | _, _ => none

/-- Nothing happens on self-assignment; otherwise what the target held is destroyed. -/
def moveAssign (w : Owners Var R) (target source : Var) : Option (Owners Var R) :=
  match w.object target, w.object source with
  | some mine, some theirs =>
      if target = source then some w
      else some
        { cells := destroy w.cells mine
          object := Function.update (Function.update w.object source (some none)) target (some theirs) }
  | _, _ => none

def destruct (w : Owners Var R) (x : Var) : Option (Owners Var R) :=
  match w.object x with
  | some mine => some
      { cells := destroy w.cells mine
        object := Function.update w.object x none }
  | none => none

end Owners

inductive SpecialMember (Var : Type*) where
  | construct (x : Var)
  | moveConstruct (target source : Var)
  | moveAssign (target source : Var)
  | destruct (x : Var)

namespace Owners

variable {Var R : Type*} {w w' : Owners Var R} {x y : Var} {h : Nat} {r : R} {gone : Option Nat}

def special [DecidableEq Var] (w : Owners Var R) : SpecialMember Var → Option (Owners Var R)
  | .construct x => w.construct x
  | .moveConstruct target source => w.moveConstruct target source
  | .moveAssign target source => w.moveAssign target source
  | .destruct x => w.destruct x

/-- Every resource has one owner until it is destroyed, which happens once. -/
structure Unique (w : Owners Var R) : Prop where
  single : ∀ x y h, w.Holds x h → w.Holds y h → x = y
  alive : ∀ x h, w.Holds x h → ∃ c, w.cells[h]? = some c ∧ c.destroyed = 0
  kept : ∀ (h : Nat) (c : Cell R), w.cells[h]? = some c →
    (c.destroyed = 0 ∧ ∃ x, w.Holds x h) ∨ c.destroyed = 1

theorem getElem?_put (i : Nat) :
    (w.put h r).cells[i]? = if h = i then w.cells[i]?.map fun c => ⟨r, c.destroyed⟩ else w.cells[i]? := by
  rw [put, List.getElem?_modify]
  split
  · rfl
  · exact Option.map_id' ..

theorem live_eq_some_iff : w.live h = some r ↔ w.cells[h]? = some ⟨r, 0⟩ := by
  unfold live
  cases found : w.cells[h]? with
  | none => simp
  | some c =>
    obtain ⟨resource, destroyed⟩ := c
    simp [and_comm]

theorem live_put {old : R} (alive : w.live h = some old) : (w.put h r).live h = some r := by
  rw [live_eq_some_iff] at alive ⊢
  rw [getElem?_put, if_pos rfl, alive]
  rfl

theorem Unique.put (unique : w.Unique) : (w.put h r).Unique where
  single := unique.single
  alive := by
    intro x i holds
    obtain ⟨c, found, undestroyed⟩ := unique.alive x i holds
    rw [getElem?_put, found]
    split
    · exact ⟨_, rfl, undestroyed⟩
    · exact ⟨c, rfl, undestroyed⟩
  kept := by
    intro i c found
    rw [getElem?_put] at found
    split at found
    · obtain ⟨before, old, rfl⟩ := Option.map_eq_some_iff.mp found
      exact unique.kept i before old
    · exact unique.kept i c found

theorem getElem?_destroy (cells : List (Cell R)) (i : Nat) :
    (destroy cells gone)[i]? =
      if gone = some i then cells[i]?.map fun c => ⟨c.resource, c.destroyed + 1⟩ else cells[i]? := by
  cases gone with
  | none => rfl
  | some h =>
    rw [destroy, List.getElem?_modify]
    by_cases same : h = i
    · rw [if_pos (congrArg some same)]
      simp only [same, if_true, Option.map_eq_map]
    · rw [if_neg fun impossible => same (Option.some.inj impossible)]
      simp only [same, if_false]
      exact Option.map_id' ..

/-- The owners trade places, and one of them gives up what it held. -/
theorem Unique.permute (unique : w.Unique) (f : Equiv.Perm Var) (gone : Option Nat)
    (cells : w'.cells = destroy w.cells gone) (held : ∀ h, gone = some h → ∃ x, w.Holds x h)
    (holds : ∀ x h, w'.Holds x h ↔ w.Holds (f x) h ∧ gone ≠ some h) : w'.Unique where
  single := fun x y h first second =>
    f.injective (unique.single _ _ h ((holds x h).mp first).1 ((holds y h).mp second).1)
  alive := by
    intro x h here
    obtain ⟨before, stays⟩ := (holds x h).mp here
    rw [cells, getElem?_destroy, if_neg stays]
    exact unique.alive (f x) h before
  kept := by
    intro h c found
    rw [cells, getElem?_destroy] at found
    split at found
    next destroyed =>
      obtain ⟨before, old, rfl⟩ := Option.map_eq_some_iff.mp found
      obtain ⟨x, owner⟩ := held h destroyed
      obtain ⟨c, same, undestroyed⟩ := unique.alive x h owner
      cases old.symm.trans same
      exact .inr (congrArg (· + 1) undestroyed)
    next stays =>
      rcases unique.kept h c found with ⟨undestroyed, x, owner⟩ | once
      · refine .inl ⟨undestroyed, f.symm x, (holds _ h).mpr ⟨?_, stays⟩⟩
        rwa [f.apply_symm_apply]
      · exact .inr once

variable [DecidableEq Var]

def empty : Owners Var R where
  cells := []
  object := fun _ => none

omit [DecidableEq Var] in
theorem Unique.empty : (empty : Owners Var R).Unique where
  single := fun x y h impossible => by cases impossible
  alive := fun x h impossible => by cases impossible
  kept := fun h c impossible => by cases impossible

theorem Unique.create (unique : w.Unique) (made : w.create x r = some w') : w'.Unique := by
  unfold Owners.create at made
  split at made
  next vacant =>
    cases made
    have holds (y : Var) (h : Nat) :
        Function.update w.object x (some (some w.cells.length)) y = some (some h) ↔
          (y = x ∧ w.cells.length = h) ∨ w.Holds y h := by
      by_cases same : y = x
      · subst same
        simp [Holds, vacant]
      · simp [Holds, same]
    have below (y : Var) (h : Nat) (held : w.Holds y h) : h < w.cells.length := by
      obtain ⟨c, found, -⟩ := unique.alive y h held
      exact (List.getElem?_eq_some_iff.mp found).1
    constructor
    · intro y z h first second
      rcases (holds y h).mp first with ⟨atY, new⟩ | oldY
      · rcases (holds z h).mp second with ⟨atZ, -⟩ | oldZ
        · rw [atY, atZ]
        · exact absurd (below z h oldZ) (by omega)
      · rcases (holds z h).mp second with ⟨-, new⟩ | oldZ
        · exact absurd (below y h oldY) (by omega)
        · exact unique.single y z h oldY oldZ
    · intro y h held
      rcases (holds y h).mp held with ⟨rfl, rfl⟩ | held
      · exact ⟨⟨r, 0⟩, by simp, rfl⟩
      · obtain ⟨c, found, undestroyed⟩ := unique.alive y h held
        exact ⟨c, by rw [List.getElem?_append_left (below y h held), found], undestroyed⟩
    · intro h c found
      by_cases new : h = w.cells.length
      · subst new
        simp only [List.getElem?_concat_length, Option.some.injEq] at found
        subst found
        exact .inl ⟨rfl, x, (holds x _).mpr (.inl ⟨rfl, rfl⟩)⟩
      · have old : w.cells[h]? = some c := by
          have inside := (List.getElem?_eq_some_iff.mp found).1
          rw [List.length_append, List.length_singleton] at inside
          rwa [List.getElem?_append_left (by omega)] at found
        rcases unique.kept h c old with ⟨undestroyed, y, held⟩ | once
        · exact .inl ⟨undestroyed, y, (holds y h).mpr (.inr held)⟩
        · exact .inr once
  next => cases made

theorem Unique.construct (unique : w.Unique) (made : w.construct x = some w') : w'.Unique := by
  unfold Owners.construct at made
  split at made
  next vacant =>
    cases made
    refine unique.permute (Equiv.refl Var) none rfl (by simp) ?_
    intro y h
    by_cases same : y = x
    · subst same
      simp [Holds, vacant]
    · simp [Holds, same]
  next => cases made

theorem holds_move {theirs : Option Nat} (source : w.object y = some theirs) (other : x ≠ y)
    (mine : ∀ h, w.Holds x h ↔ gone = some h) (single : ∀ h, w.Holds y h → gone ≠ some h)
    (rest : ∀ z h, z ≠ x → z ≠ y → w.Holds z h → gone ≠ some h) (z : Var) (h : Nat) :
    Function.update (Function.update w.object y (some none)) x (some theirs) z = some (some h) ↔
      w.Holds (Equiv.swap x y z) h ∧ gone ≠ some h := by
  by_cases atTarget : z = x
  · subst atTarget
    rw [Function.update_self, Equiv.swap_apply_left, ← source]
    exact ⟨fun holds => ⟨holds, single h holds⟩, fun both => both.1⟩
  · rw [Function.update_of_ne atTarget]
    by_cases atSource : z = y
    · subst atSource
      rw [Function.update_self, Equiv.swap_apply_right, mine]
      simp
    · rw [Function.update_of_ne atSource, Equiv.swap_apply_of_ne_of_ne atTarget atSource]
      exact ⟨fun holds => ⟨holds, rest z h atTarget atSource holds⟩, fun both => both.1⟩

theorem Unique.moveConstruct (unique : w.Unique) (moved : w.moveConstruct x y = some w') :
    w'.Unique := by
  unfold Owners.moveConstruct at moved
  split at moved
  next theirs vacant source =>
    cases moved
    have other : x ≠ y := by
      intro same
      rw [← same, vacant] at source
      cases source
    refine unique.permute (Equiv.swap x y) none rfl (by simp) ?_
    exact holds_move source other (by simp [Holds, vacant]) (by simp) (by simp)
  next => cases moved

theorem Unique.moveAssign (unique : w.Unique) (moved : w.moveAssign x y = some w') : w'.Unique := by
  unfold Owners.moveAssign at moved
  split at moved
  next mine theirs target source =>
    split at moved
    next => cases moved; exact unique
    next other =>
      cases moved
      have held (h : Nat) : w.Holds x h ↔ mine = some h := by rw [Holds, target, Option.some.injEq]
      refine unique.permute (Equiv.swap x y) mine rfl (fun h same => ⟨x, (held h).mpr same⟩) ?_
      apply holds_move source other held
      · exact fun h holds same => other (unique.single x y h ((held h).mpr same) holds)
      · exact fun z h away _ holds same => away (unique.single z x h holds ((held h).mpr same))
  next => cases moved

theorem Unique.destruct (unique : w.Unique) (ended : w.destruct x = some w') : w'.Unique := by
  unfold Owners.destruct at ended
  split at ended
  next mine target =>
    cases ended
    have held (h : Nat) : w.Holds x h ↔ mine = some h := by rw [Holds, target, Option.some.injEq]
    refine unique.permute (Equiv.refl Var) mine rfl (fun h same => ⟨x, (held h).mpr same⟩) ?_
    intro y h
    by_cases same : y = x
    · subst same
      simp [Holds, target]
    · have away : w.Holds y h → mine ≠ some h := fun holds theirs =>
        same (unique.single y x h holds ((held h).mpr theirs))
      simpa [Holds, same] using away
  next => cases ended

theorem Unique.special {m : SpecialMember Var} (unique : w.Unique) (done : w.special m = some w') :
    w'.Unique := by
  cases m with
  | construct x => exact unique.construct done
  | moveConstruct target source => exact unique.moveConstruct done
  | moveAssign target source => exact unique.moveAssign done
  | destruct x => exact unique.destruct done

def releases (w : Owners Var R) : SpecialMember Var → Option Nat
  | .moveAssign target source =>
      match w.object target, w.object source with
      | some mine, some _ => if target = source then none else mine
      | _, _ => none
  | .destruct x => (w.object x).join
  | _ => none

theorem releases_held {m : SpecialMember Var} (released : w.releases m = some h) : ∃ x, w.Holds x h := by
  cases m with
  | construct x => cases released
  | moveConstruct target source => cases released
  | moveAssign target source =>
    simp only [releases] at released
    split at released
    next mine theirs held _ =>
      split at released
      · cases released
      · exact ⟨target, held.trans (congrArg some released)⟩
    next => cases released
  | destruct x => exact ⟨x, Option.join_eq_some_iff.mp released⟩

theorem releases_congr {v : Owners Var R} (same : v.object = w.object) (m : SpecialMember Var) :
    v.releases m = w.releases m := by
  cases m with
  | construct x => rfl
  | moveConstruct target source => rfl
  | moveAssign target source => simp only [releases, same]
  | destruct x => simp only [releases, same]

theorem special_congr {v : Owners Var R} (same : v.object = w.object) (m : SpecialMember Var) :
    (v.special m).map object = (w.special m).map object := by
  cases m with
  | construct x =>
    simp only [Owners.special, Owners.construct, same]
    split <;> rfl
  | moveConstruct target source =>
    simp only [Owners.special, Owners.moveConstruct, same]
    split <;> rfl
  | moveAssign target source =>
    simp only [Owners.special, Owners.moveAssign, same]
    split
    · split
      · exact congrArg some same
      · rfl
    · rfl
  | destruct x =>
    simp only [Owners.special, Owners.destruct, same]
    split <;> rfl

theorem special_of_releases {m : SpecialMember Var} (released : w.releases m = some h) :
    ∃ w', w.special m = some w' := by
  cases m with
  | construct x => cases released
  | moveConstruct target source => cases released
  | moveAssign target source =>
    simp only [releases] at released
    split at released
    next mine theirs held other =>
      simp only [Owners.special, Owners.moveAssign, held, other]
      split
      · exact ⟨_, rfl⟩
      · exact ⟨_, rfl⟩
    next => cases released
  | destruct x =>
    have held := Option.join_eq_some_iff.mp released
    exact ⟨_, by simp only [Owners.special, Owners.destruct, held]; rfl⟩

theorem special_destroys {m : SpecialMember Var} (done : w.special m = some w') :
    w'.cells = destroy w.cells (w.releases m) := by
  cases m with
  | construct x =>
    simp only [Owners.special, Owners.construct] at done
    split at done <;> cases done
    rfl
  | moveConstruct target source =>
    simp only [Owners.special, Owners.moveConstruct] at done
    split at done <;> cases done
    rfl
  | moveAssign target source =>
    simp only [Owners.special, Owners.moveAssign] at done
    split at done
    next mine theirs held other =>
      split at done <;> cases done
      next same => simp only [releases, other, same, if_true, destroy]
      next apart => simp only [releases, held, other, apart, if_false]
    next => cases done
  | destruct x =>
    simp only [Owners.special, Owners.destruct] at done
    split at done
    next mine held =>
      cases done
      simp only [releases, held, Option.join_some]
    next => cases done

theorem special_cells {m : SpecialMember Var} (done : w.special m = some w') :
    ∃ gone, w'.cells = destroy w.cells gone :=
  ⟨_, special_destroys done⟩

end Owners

end Cpp20Showcase.Lib
