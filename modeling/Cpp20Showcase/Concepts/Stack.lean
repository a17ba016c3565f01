import Mathlib.Algebra.Order.Ring.Int
import Cpp20Showcase.Lib.NestedMatching
import Cpp20Showcase.Lib.Decimal

/-! `TypedStack` of `01_concepts/concepts.h`: a vector whose back is the top, and accessors that
throw on an empty one. A run of operations is set against the matching of its pushes and pops. -/

namespace Cpp20Showcase.Concepts.Stack

open Cpp20Showcase.Lib NestedMatching

structure TypedStack (T : Type) where
  m_data : List T

/-- The elements of a vector can be referred to, unless it is a `std::vector<bool>`: for `bool` the
references that `top`, `min` and `max` return would dangle. -/
class Referable (T : Type) : Prop where
  ne_bool : T ≠ Bool

instance : Referable Int where
  ne_bool := by
    intro same
    have two : ∀ u v w : Int, u = v ∨ v = w ∨ u = w := same ▸ by decide
    exact absurd (two 0 1 2) (by decide)

/-- `std::ranges::min_element` and `max_element`: a later element only replaces a worse one. -/
def element {T : Type} (better : T → T → Bool) : List T → Option T
  | [] => none
  | first :: rest => some (rest.foldl (fun result v => if better v result then v else result) first)

theorem element_of_ne_nil {T : Type} {l : List T} (better : T → T → Bool)
    (trans : ∀ u v w, better u v → better v w → better u w)
    (cotrans : ∀ u v w, better u w → better u v ∨ better v w) (filled : l ≠ []) :
    ∃ k v t, l = k ++ v :: t ∧ element better l = some v ∧
      (∀ u ∈ k, better v u) ∧ ∀ u ∈ t, better u v = false := by
  obtain ⟨first, rest, rfl⟩ := List.exists_cons_of_ne_nil filled
  rw [element]
  induction rest using List.reverseRecOn with
  | nil => exact ⟨[], first, [], rfl, rfl, nofun, nofun⟩
  | append_singleton rest v ih =>
    obtain ⟨k, r, t, split, found, before, behind⟩ := ih (List.cons_ne_nil _ _)
    obtain rfl := Option.some.inj found
    rw [List.foldl_append, List.foldl_cons, List.foldl_nil, ← List.cons_append, split]
    generalize rest.foldl _ first = r at before behind
    by_cases less : better v r = true
    · refine ⟨k ++ r :: t, v, [], rfl, by rw [if_pos less], ?_, nofun⟩
      intro u member
      rcases List.mem_append.mp member with early | late
      · exact trans _ _ _ less (before u early)
      · obtain rfl | later := List.mem_cons.mp late
        · exact less
        · refine (cotrans _ u _ less).resolve_right ?_
          rw [behind u later]
          exact Bool.false_ne_true
    · refine ⟨k, r, t ++ [v], by simp, by rw [if_neg less], before, ?_⟩
      intro u member
      rcases List.mem_append.mp member with early | late
      · exact behind u early
      · rw [List.mem_singleton.mp late]
        exact eq_false_of_ne_true less

def orThrow {T : Type} (message : String) : Option T → Except String T
  | none => .error message
  | some v => .ok v

namespace TypedStack

variable {T : Type}

def push (s : TypedStack T) (value : T) : TypedStack T := ⟨s.m_data ++ [value]⟩

def top [Referable T] (s : TypedStack T) : Except String T :=
  orThrow "TypedStack::top on empty stack" s.m_data.getLast?

def pop (s : TypedStack T) : Except String (TypedStack T) :=
  if s.m_data.isEmpty then .error "TypedStack::pop on empty stack"
  else .ok ⟨s.m_data.dropLast⟩

def empty (s : TypedStack T) : Bool := s.m_data.isEmpty

def size (s : TypedStack T) : Nat := s.m_data.length

def min [Referable T] [LinearOrder T] (s : TypedStack T) : Except String T :=
  orThrow "TypedStack::min on empty stack" (element (fun v result => v < result) s.m_data)

def max [Referable T] [LinearOrder T] (s : TypedStack T) : Except String T :=
  orThrow "TypedStack::max on empty stack" (element (fun v result => result < v) s.m_data)

/-- The loop of `print`; the separator is written while `i + 1 < m_data.size()`. -/
def printLoop (shown : T → List Char) : List T → List Char
  | [] => []
  | v :: rest => shown v ++ (if rest.isEmpty then [] else [',', ' ']) ++ printLoop shown rest

def print (shown : T → List Char) (s : TypedStack T) : List Char :=
  "TypedStack[".toList ++ printLoop shown s.m_data ++ "]\n".toList

end TypedStack

inductive Operation (T : Type) where
  | push (value : T)
  | top
  | pop
  | empty
  | size
  | min
  | max
  | print

inductive Answer (T : Type) where
  | done
  | value (v : T)
  | flag (b : Bool)
  | count (n : Nat)
  | text (written : List Char)

variable {T : Type} [Referable T] [LinearOrder T] (shown : T → List Char)

/-- The answer of a call, or the text of its exception, and the stack it leaves. -/
def step (s : TypedStack T) : Operation T → Except String (Answer T) × TypedStack T
  | .push value => (.ok .done, s.push value)
  | .top => (s.top.map .value, s)
  | .pop =>
    match s.pop with
    | .ok s' => (.ok .done, s')
    | .error message => (.error message, s)
  | .empty => (.ok (.flag s.empty), s)
  | .size => (.ok (.count s.size), s)
  | .min => (s.min.map .value, s)
  | .max => (s.max.map .value, s)
  | .print => (.ok (.text (s.print shown)), s)

def after (calls : List (Operation T)) : TypedStack T :=
  calls.foldl (fun s call => (step shown s call).2) ⟨[]⟩

def event : Operation T → Option (Event T)
  | .push value => some (.push value)
  | .pop => some .pop
  | _ => none

/-- A call that throws leaves the stack as it was. -/
theorem step_m_data (s : TypedStack T) (call : Operation T) :
    (step shown s call).2.m_data = (event call).elim s.m_data (advance s.m_data) := by
  cases call with
  | pop =>
    rw [step, TypedStack.pop]
    by_cases nothing : s.m_data.isEmpty
    · have none_left : s.m_data = [] := List.isEmpty_iff.mp nothing
      rw [if_pos nothing, event, Option.elim, none_left]
      rfl
    · rw [if_neg nothing]
      rfl
  | _ => rfl

theorem after_m_data (calls : List (Operation T)) : (after shown calls).m_data = content (calls.filterMap event) := by
  induction calls using List.reverseRecOn with
  | nil => rfl
  | append_singleton calls call ih =>
    rw [after, List.foldl_append, List.foldl_cons, List.foldl_nil, ← after, step_m_data, ih, List.filterMap_append]
    cases changes : event call with
    | none => simp [changes]
    | some e => simp [changes]

/-- What the calls on a stack with the elements `l` answer. -/
structure Answers (s : TypedStack T) (l : List T) : Prop where
  size : (step shown s .size).1 = .ok (.count l.length)
  empty : (step shown s .empty).1 = .ok (.flag l.isEmpty)
  thrown : l = [] →
    (step shown s .top).1 = .error "TypedStack::top on empty stack" ∧
    (step shown s .pop).1 = .error "TypedStack::pop on empty stack" ∧
    (step shown s .min).1 = .error "TypedStack::min on empty stack" ∧
    (step shown s .max).1 = .error "TypedStack::max on empty stack"
  top : ∀ k v, l = k ++ [v] → (step shown s .top).1 = .ok (.value v) ∧ (step shown s .pop).1 = .ok .done
  min : l ≠ [] → ∃ k v t, l = k ++ v :: t ∧ (step shown s .min).1 = .ok (.value v) ∧
    (∀ u ∈ k, v < u) ∧ ∀ u ∈ t, v ≤ u
  max : l ≠ [] → ∃ k v t, l = k ++ v :: t ∧ (step shown s .max).1 = .ok (.value v) ∧
    (∀ u ∈ k, u < v) ∧ ∀ u ∈ t, u ≤ v
  print : (step shown s .print).1 =
    .ok (.text ("TypedStack[".toList ++ [',', ' '].intercalate (l.map shown) ++ "]\n".toList))

omit [Referable T] in
theorem element_min {l : List T} (filled : l ≠ []) :
    ∃ k v t, l = k ++ v :: t ∧ element (fun v result => v < result) l = some v ∧
      (∀ u ∈ k, v < u) ∧ ∀ u ∈ t, v ≤ u := by
  have cotrans (u v w : T) (less : u < w) : u < v ∨ v < w :=
    (lt_or_ge u v).imp_right fun low => lt_of_le_of_lt low less
  have found := element_of_ne_nil (fun v result => decide (v < result))
    (by simpa using fun u v w => lt_trans) (by simpa using cotrans) filled
  simpa using found

omit [Referable T] in
theorem element_max {l : List T} (filled : l ≠ []) :
    ∃ k v t, l = k ++ v :: t ∧ element (fun v result => result < v) l = some v ∧
      (∀ u ∈ k, u < v) ∧ ∀ u ∈ t, u ≤ v := by
  have cotrans (u v w : T) (more : w < u) : v < u ∨ w < v :=
    (lt_or_ge v u).imp_right fun high => lt_of_lt_of_le more high
  have found := element_of_ne_nil (fun v result => decide (result < v))
    (by simpa using fun u v w more less => lt_trans less more) (by simpa using cotrans) filled
  simpa using found

omit [Referable T] [LinearOrder T] in
theorem printLoop_eq_intercalate (l : List T) :
    TypedStack.printLoop shown l = [',', ' '].intercalate (l.map shown) := by
  induction l with
  | nil => rfl
  | cons v rest ih =>
    rw [TypedStack.printLoop, ih]
    cases rest with
    | nil => simp
    | cons w rest => simp

omit [Referable T] [LinearOrder T] in
theorem print_eq (s : TypedStack T) :
    s.print shown = "TypedStack[".toList ++ [',', ' '].intercalate (s.m_data.map shown) ++ "]\n".toList :=
  congrArg (fun inside => "TypedStack[".toList ++ inside ++ "]\n".toList) (printLoop_eq_intercalate shown s.m_data)

theorem answers_m_data (s : TypedStack T) : Answers shown s s.m_data where
  size := rfl
  empty := rfl
  thrown := by
    intro nothing
    simp [step, TypedStack.top, TypedStack.pop, TypedStack.min, TypedStack.max, nothing, element, orThrow, Except.map]
  top := by
    intro k v split
    simp [step, TypedStack.top, TypedStack.pop, split, orThrow, Except.map]
  min := by
    intro filled
    obtain ⟨k, v, t, split, found, before, behind⟩ := element_min filled
    refine ⟨k, v, t, split, ?_, before, behind⟩
    rw [step, TypedStack.min, found]
    rfl
  max := by
    intro filled
    obtain ⟨k, v, t, split, found, before, behind⟩ := element_max filled
    refine ⟨k, v, t, split, ?_, before, behind⟩
    rw [step, TypedStack.max, found]
    rfl
  print := congrArg (fun written => Except.ok (Answer.text written)) (print_eq shown s)

/-- After any calls, exactly one list of values fits a matching of the pushes with the pops, and
every answer is that of a stack of these values. -/
theorem calls_matched (calls : List (Operation T)) :
    ∃ l, (∀ l', Leaves (calls.filterMap event) l' ↔ l' = l) ∧ Answers shown (after shown calls) l := by
  refine ⟨(after shown calls).m_data, ?_, answers_m_data shown _⟩
  intro l'
  rw [leaves_iff, after_m_data]
  exact eq_comm

/-- The first `pop` takes 5, the second one finds nothing to take. -/
theorem calls_matched_lost :
    Answers Decimal.text (after Decimal.text [.push 5, .pop, .pop, .push 1, .push 2]) [1, 2] ∧
      (step Decimal.text (after Decimal.text [.push 5, .pop, .pop, .push 1, .push 2]) .print).1 =
        .ok (.text "TypedStack[1, 2]\n".toList) := by
  obtain ⟨l, unique, answers⟩ := calls_matched Decimal.text [.push 5, .pop, .pop, .push 1, .push 2]
  obtain rfl : [1, 2] = l := (unique [1, 2]).mp (leaves_iff.mpr rfl)
  have written : "TypedStack[".toList ++ [',', ' '].intercalate ([1, 2].map Decimal.text) ++ "]\n".toList =
      "TypedStack[1, 2]\n".toList := by
    decide
  exact ⟨answers, written ▸ answers.print⟩

def readBack (written : List Char) : List Int :=
  let inside := (written.drop 11).dropLast.dropLast
  if inside.isEmpty then []
  else (inside.splitOn ',').map fun part => Decimal.read (part.dropWhile (· == ' '))

example : TypedStack.print Decimal.text ⟨[1, 2, 3]⟩ = "TypedStack[1, 2, 3]\n".toList := by decide

omit [Referable T] [LinearOrder T] in
theorem splitOn_printLoop {shown : T → List Char} (apart : ∀ v, ',' ∉ shown v) (v : T) (rest : List T) :
    (TypedStack.printLoop shown (v :: rest)).splitOn ',' = shown v :: rest.map fun u => ' ' :: shown u := by
  induction rest generalizing v with
  | nil =>
    rw [TypedStack.printLoop, TypedStack.printLoop, List.isEmpty_nil, if_pos rfl, List.append_nil, List.append_nil]
    exact List.splitOn_eq_singleton (apart v)
  | cons w rest ih =>
    calc (TypedStack.printLoop shown (v :: w :: rest)).splitOn ','
      _ = (shown v ++ ',' :: ' ' :: TypedStack.printLoop shown (w :: rest)).splitOn ',' := by
        simp [TypedStack.printLoop]
      _ = shown v :: (' ' :: TypedStack.printLoop shown (w :: rest)).splitOn ',' :=
        List.splitOn_append_cons_self_of_not_mem (apart v) _
      _ = shown v :: (shown w :: rest.map fun u => ' ' :: shown u).modifyHead (' ' :: ·) := by
        rw [List.splitOn_cons_eq_if_modifyHead, if_neg (by decide), ih]

theorem read_part (z : Int) : Decimal.read ((Decimal.text z).dropWhile (· == ' ')) = z := by
  have first : (Decimal.text z).dropWhile (· == ' ') = Decimal.text z := by
    cases digits : Decimal.text z with
    | nil => rfl
    | cons c cs =>
      have other : c ≠ ' ' := Decimal.ne_of_mem_text (digits ▸ List.mem_cons_self) (by decide) (by decide)
      exact List.dropWhile_cons_of_neg (by simpa using other)
  rw [first, Decimal.read_text]

theorem inside_brackets {opening inside closing : List Char} (front : opening.length = 11)
    (back : closing = [']', '\n']) : ((opening ++ inside ++ closing).drop 11).dropLast.dropLast = inside := by
  rw [List.append_assoc, List.drop_left' front, back, List.append_cons, List.dropLast_concat, List.dropLast_concat]

theorem readBack_print (s : TypedStack Int) : readBack (s.print Decimal.text) = s.m_data := by
  have inside : ((s.print Decimal.text).drop 11).dropLast.dropLast = TypedStack.printLoop Decimal.text s.m_data :=
    inside_brackets (by decide) rfl
  rw [readBack, inside]
  cases s.m_data with
  | nil => rfl
  | cons v rest =>
    have filled : (TypedStack.printLoop Decimal.text (v :: rest)).isEmpty = false := by
      simp [TypedStack.printLoop, Decimal.text_ne_nil]
    rw [filled, splitOn_printLoop fun _ => Decimal.not_mem_text (by decide) (by decide)]
    simp [read_part, Function.comp_def]

/-- The text of a stack of integers shows the pushes without a `pop`, and only these. -/
theorem printed_matched (calls : List (Operation Int)) (l : List Int) :
    readBack ((after Decimal.text calls).print Decimal.text) = l ↔ Leaves (calls.filterMap event) l := by
  rw [readBack_print, leaves_iff, after_m_data]

end Cpp20Showcase.Concepts.Stack
