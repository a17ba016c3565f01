import Mathlib.Data.List.Basic

/-! Computations that record events and may run into undefined behaviour. The events
before the undefined operation stay recorded. -/

namespace Cpp20Showcase.Lib

/-- `value` is `none` when the behaviour is undefined. -/
structure Traced (Ev α : Type*) where
  events : List Ev
  value : Option α

namespace Traced

variable {Ev α β : Type} {m : Traced Ev α} {f : α → Traced Ev β} {a : α} {b : β} {e : Ev}

def undefined : Traced Ev α := ⟨[], none⟩

def emit (e : Ev) : Traced Ev Unit := ⟨[e], some ()⟩

def andThen (m : Traced Ev α) (f : α → Traced Ev β) : Traced Ev β :=
  match m.value with
  | none => ⟨m.events, none⟩
  | some a => ⟨m.events ++ (f a).events, (f a).value⟩

instance : Monad (Traced Ev) where
  pure a := ⟨[], some a⟩
  bind := andThen

@[simp] theorem events_pure : (pure a : Traced Ev α).events = [] := rfl

@[simp] theorem value_pure : (pure a : Traced Ev α).value = some a := rfl

@[simp] theorem events_emit : (emit e).events = [e] := rfl

@[simp] theorem value_emit : (emit e).value = some () := rfl

theorem bind_eq (returned : m.value = some a) :
    m >>= f = ⟨m.events ++ (f a).events, (f a).value⟩ := by
  change andThen m f = _
  rw [andThen, returned]

theorem events_bind (returned : m.value = some a) : (m >>= f).events = m.events ++ (f a).events := by
  rw [bind_eq returned]

theorem value_bind (returned : m.value = some a) : (m >>= f).value = (f a).value := by
  rw [bind_eq returned]

theorem events_bind_pure (g : α → β) : (m >>= fun a => pure (g a)).events = m.events := by
  change (andThen m fun a => pure (g a)).events = _
  unfold andThen
  split
  · rfl
  · exact List.append_nil m.events

theorem value_bind_pure (g : α → β) : (m >>= fun a => pure (g a)).value = m.value.map g := by
  change (andThen m fun a => pure (g a)).value = _
  unfold andThen
  cases m.value <;> rfl

theorem mem_events_bind_left (recorded : e ∈ m.events) : e ∈ (m >>= f).events := by
  change e ∈ (andThen m f).events
  unfold andThen
  split
  · exact recorded
  · exact List.mem_append_left _ recorded

theorem id_map (m : Traced Ev α) : id <$> m = m := by
  obtain ⟨events, value⟩ := m
  cases value with
  | none => rfl
  | some a => exact congrArg (Traced.mk · (some a)) (List.append_nil events)

theorem andThen_assoc {γ : Type} (m : Traced Ev α) (f : α → Traced Ev β) (g : β → Traced Ev γ) :
    m >>= f >>= g = m >>= fun a => f a >>= g := by
  change andThen (andThen m f) g = andThen m fun a => andThen (f a) g
  obtain ⟨events, value⟩ := m
  cases value with
  | none => rfl
  | some a =>
    simp only [andThen]
    cases (f a).value with
    | none => rfl
    | some b => simp only [List.append_assoc]

instance : LawfulMonad (Traced Ev) :=
  LawfulMonad.mk' _ id_map (fun _ _ => rfl) andThen_assoc

end Traced

end Cpp20Showcase.Lib
