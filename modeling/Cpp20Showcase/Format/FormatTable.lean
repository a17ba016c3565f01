import Mathlib.Data.List.DropRight
import Cpp20Showcase.Lib.Decimal

/-! `format_table` of `08_format/test_format.cpp`. What `std::format` takes for the width of a
text on the screen is a parameter. -/

namespace Cpp20Showcase.Format.FormatTable

open Cpp20Showcase.Lib

abbrev Text := List Char

variable (estimated : Text → Nat)

/-- What fills a text up to a width; a wider one is not cut. -/
def fill (width : Nat) (s : Text) : Text := List.replicate (width - estimated s) ' '

/-- `std::format("{:<20} {:>10}\n", left, right)`. -/
def formatLine (left right : Text) : Text :=
  left ++ fill estimated 20 left ++ [' '] ++ fill estimated 10 right ++ right ++ ['\n']

def formatTable (rows : List (Text × Int)) : Text :=
  let out := formatLine estimated "Name".toList "Count".toList
  let out := out ++ (List.replicate 31 '-' ++ ['\n'])
  rows.foldl (fun out row => out ++ formatLine estimated row.1 (Decimal.text row.2)) out

/-- The name, without the spaces at its end, and the count that a line shows. -/
def readLine (line : Text) : Text × Int :=
  ((line.rdropWhile (· != ' ')).rdropWhile (· == ' '), Decimal.read (line.rtakeWhile (· != ' ')))

def lines (out : Text) : List Text := (out.splitOn '\n').dropLast

def readTable (out : Text) : List (Text × Int) := ((lines out).drop 2).map readLine

example : formatLine List.length "Bob".toList (Decimal.text (-7)) = "Bob                          -7\n".toList := by
  decide

def lineText (left right : Text) : Text :=
  left ++ fill estimated 20 left ++ [' '] ++ fill estimated 10 right ++ right

variable {estimated} {rows : List (Text × Int)} {name : Text} {count : Int}

theorem lines_append {line : Text} (whole : '\n' ∉ line) (out : Text) :
    lines (line ++ ['\n'] ++ out) = line :: lines out := by
  rw [lines, List.append_assoc, List.singleton_append, List.splitOn_append_cons_self_of_not_mem whole]
  exact List.dropLast_cons_of_ne_nil (List.splitOn_ne_nil _ _)

theorem mem_fill {width : Nat} {s : Text} {c : Char} (member : c ∈ fill estimated width s) : c = ' ' :=
  List.eq_of_mem_replicate member

theorem whole_lineText {left right : Text} (first : '\n' ∉ left) (second : '\n' ∉ right) :
    '\n' ∉ lineText estimated left right := by
  have apart {width : Nat} {s : Text} : '\n' ∉ fill estimated width s := by
    intro member
    cases mem_fill member
  simp [lineText, first, second, apart]

theorem lines_formatLine {left right : Text} (first : '\n' ∉ left) (second : '\n' ∉ right) (out : Text) :
    lines (formatLine estimated left right ++ out) = lineText estimated left right :: lines out :=
  lines_append (whole_lineText first second) out

theorem lines_formatTable (names : ∀ row ∈ rows, '\n' ∉ row.1) :
    lines (formatTable estimated rows) =
      lineText estimated "Name".toList "Count".toList :: List.replicate 31 '-' ::
        rows.map fun row => lineText estimated row.1 (Decimal.text row.2) := by
  have loop (out : Text) : rows.foldl (fun out row => out ++ formatLine estimated row.1 (Decimal.text row.2)) out =
      out ++ rows.flatMap fun row => formatLine estimated row.1 (Decimal.text row.2) := by
    clear names
    induction rows generalizing out with
    | nil => simp
    | cons row rows ih => simp [ih]
  have body : lines (rows.flatMap fun row => formatLine estimated row.1 (Decimal.text row.2)) =
      rows.map fun row => lineText estimated row.1 (Decimal.text row.2) := by
    clear loop
    induction rows with
    | nil => rfl
    | cons row rows ih =>
      obtain ⟨first, rest⟩ := List.forall_mem_cons.mp names
      rw [List.flatMap_cons, List.map_cons, lines_formatLine first (Decimal.not_mem_text (by decide) (by decide)),
        ih rest]
  rw [formatTable, loop, List.append_assoc, lines_formatLine (by decide) (by decide), lines_append (by decide), body]

variable (estimated) in
theorem lineText_eq (left right : Text) :
    ∃ k, lineText estimated left right = left ++ List.replicate (k + 1) ' ' ++ right := by
  refine ⟨(20 - estimated left) + (10 - estimated right), ?_⟩
  rw [Nat.add_right_comm, ← List.replicate_append_replicate, List.replicate_succ', lineText, fill, fill]
  simp only [List.append_assoc]

theorem readLine_lineText (name : Text) (count : Int) :
    readLine (lineText estimated name (Decimal.text count)) = (name.rdropWhile (· == ' '), count) := by
  obtain ⟨k, same⟩ := lineText_eq estimated name (Decimal.text count)
  have digits : ∀ c ∈ (Decimal.text count).reverse, (c != ' ') = true := by
    intro c member
    have other : c ≠ ' ' := Decimal.ne_of_mem_text (List.mem_reverse.mp member) (by decide) (by decide)
    simpa using other
  have spaces : ∀ c ∈ List.replicate k ' ', (c == ' ') = true := by
    intro c member
    rw [List.eq_of_mem_replicate member]
    rfl
  have turned : (lineText estimated name (Decimal.text count)).reverse =
      (Decimal.text count).reverse ++ ' ' :: (List.replicate k ' ' ++ name.reverse) := by
    rw [same, List.reverse_append, List.reverse_append, List.reverse_replicate, List.replicate_succ]
    rfl
  have shown : (lineText estimated name (Decimal.text count)).rtakeWhile (· != ' ') = Decimal.text count := by
    rw [List.rtakeWhile, turned, List.takeWhile_append_of_pos digits, List.takeWhile_cons_of_neg (by decide),
      List.append_nil, List.reverse_reverse]
  have named : ((lineText estimated name (Decimal.text count)).rdropWhile (· != ' ')).rdropWhile (· == ' ') =
      name.rdropWhile (· == ' ') := by
    rw [List.rdropWhile, List.rdropWhile, List.reverse_reverse, turned, List.dropWhile_append_of_pos digits,
      List.dropWhile_cons_of_neg (by decide), List.dropWhile_cons_of_pos (by decide),
      List.dropWhile_append_of_pos spaces, List.rdropWhile]
  rw [readLine, shown, named, Decimal.read_text]

/-- Reading a table back gives its rows, up to spaces at the end of a name. -/
theorem readTable_formatTable (names : ∀ row ∈ rows, '\n' ∉ row.1) :
    readTable (formatTable estimated rows) = rows.map fun row => (row.1.rdropWhile (· == ' '), row.2) := by
  rw [readTable, lines_formatTable names]
  simp [readLine_lineText, Function.comp_def]

/-- Neither the name nor the count fits into its column. -/
theorem readTable_formatTable_wide :
    readTable (formatTable List.length [("twenty-one characters  ".toList, -2147483648)]) =
      [("twenty-one characters".toList, -2147483648)] := by
  have names : ∀ row ∈ [("twenty-one characters  ".toList, (-2147483648 : Int))], '\n' ∉ row.1 := by decide
  exact readTable_formatTable names

/-- A column is as wide as it should be if nothing in it is wider. -/
theorem length_lineText {left right : Text} (first : estimated left = left.length)
    (second : estimated right = right.length) :
    (lineText estimated left right).length = 31 ↔ left.length ≤ 20 ∧ right.length ≤ 10 := by
  simp only [lineText, fill, List.length_append, List.length_replicate, List.length_singleton, first, second]
  omega

theorem ascii_text (c : Char) (member : c ∈ Decimal.text count) : c.val < 128 ∧ c ≠ '\n' := by
  refine ⟨?_, Decimal.ne_of_mem_text member (by decide) (by decide)⟩
  obtain digit | rfl := Decimal.mem_text member
  · simp only [Char.isDigit, Bool.and_eq_true, decide_eq_true_eq] at digit
    exact UInt32.lt_of_le_of_lt digit.2 (by decide)
  · decide

/-- For texts in ASCII without line breaks, the lines of the table are as long as its rule unless a
name has more than 20 characters or a count more than 10, as the least `int` does. -/
theorem aligned_iff (ascii : ∀ s : Text, (∀ c ∈ s, c.val < 128 ∧ c ≠ '\n') → estimated s = s.length)
    (names : ∀ row ∈ rows, ∀ c ∈ row.1, c.val < 128 ∧ c ≠ '\n') :
    (∀ line ∈ lines (formatTable estimated rows), line.length = 31) ↔
      ∀ row ∈ rows, row.1.length ≤ 20 ∧ -10 ^ 9 < row.2 ∧ row.2 < 10 ^ 10 := by
  have unbroken : ∀ row ∈ rows, '\n' ∉ row.1 := fun row member broken => (names row member _ broken).2 rfl
  have head : (lineText estimated "Name".toList "Count".toList).length = 31 :=
    (length_lineText (ascii _ (by simp)) (ascii _ (by simp))).mpr (by decide)
  have each (row : Text × Int) (member : row ∈ rows) :
      (lineText estimated row.1 (Decimal.text row.2)).length = 31 ↔
        row.1.length ≤ 20 ∧ -10 ^ 9 < row.2 ∧ row.2 < 10 ^ 10 := by
    rw [length_lineText (ascii _ (names row member)) (ascii _ ascii_text), Decimal.length_text_le_iff (k := 8)]
  rw [lines_formatTable unbroken]
  simp only [List.forall_mem_cons, List.forall_mem_map, List.length_replicate, head, true_and]
  exact forall₂_congr each

theorem aligned_iff_least :
    ¬∀ line ∈ lines (formatTable List.length [("x".toList, -2147483648)]), line.length = 31 := by
  have names : ∀ row ∈ [("x".toList, (-2147483648 : Int))], ∀ c ∈ row.1, c.val < 128 ∧ c ≠ '\n' := by simp
  exact (aligned_iff (fun _ _ => rfl) names).not.mpr (by decide)

end Cpp20Showcase.Format.FormatTable
