import Mathlib.Tactic

/-!
# Text laid out on rows of fixed width

A character either ends its row or takes one column of it; a character in the
last column ends its row, too.  There is no bound on the number of rows.

A document is a list of lines.  After each line the cursor goes to the start of
the next row, so a line takes one row more than the rows that end inside it.
-/

namespace OsKernel
namespace Lib
namespace TextLayout

universe u

/-- A position on the rows. -/
structure Cursor where
  row : Nat
  col : Nat
  deriving DecidableEq, Repr

variable {α : Type u} (cols : Nat) (isBreak : α → Bool)

/-- The cursor after one character. -/
def put (p : Cursor) (c : α) : Cursor :=
  if isBreak c then ⟨p.row + 1, 0⟩
  else if cols ≤ p.col + 1 then ⟨p.row + 1, 0⟩
  else ⟨p.row, p.col + 1⟩

/-- The cursor after a text. -/
def putAll (p : Cursor) (text : List α) : Cursor :=
  text.foldl (put cols isBreak) p

/-- The rows that end inside a text that starts in the first column. -/
def ended (text : List α) : Nat := (putAll cols isBreak ⟨0, 0⟩ text).row

/-- The rows that the lines of a document take. -/
def rows (lines : List (List α)) : Nat :=
  (lines.map fun line => ended cols isBreak line + 1).sum

/-- The lines of a document that begins in the given row all begin below the
limit. -/
def StartBelow (limit : Nat) : Nat → List (List α) → Prop
  | _, [] => True
  | row, line :: rest =>
      row < limit ∧ StartBelow limit (row + (ended cols isBreak line + 1)) rest

variable {cols : Nat} {isBreak : α → Bool}

theorem put_col_lt (hcols : 0 < cols) (p : Cursor) (c : α) :
    (put cols isBreak p c).col < cols := by
  unfold put
  split
  · exact hcols
  · split
    · exact hcols
    next hlt => exact Nat.lt_of_not_le hlt

theorem put_add_row (p : Cursor) (c : α) (more : Nat) :
    put cols isBreak ⟨p.row + more, p.col⟩ c =
      ⟨(put cols isBreak p c).row + more, (put cols isBreak p c).col⟩ := by
  unfold put
  split
  · simp only [Nat.add_right_comm]
  · split
    · simp only [Nat.add_right_comm]
    · rfl

/-- A character does not move the cursor by more than one row. -/
theorem put_row_bounds (p : Cursor) (c : α) :
    p.row ≤ (put cols isBreak p c).row ∧
      (put cols isBreak p c).row ≤ p.row + 1 := by
  unfold put
  split
  · exact ⟨Nat.le_succ _, le_rfl⟩
  · split
    · exact ⟨Nat.le_succ _, le_rfl⟩
    · exact ⟨le_rfl, Nat.le_succ _⟩

/-- Where a text begins does not matter for how it is broken into rows. -/
theorem putAll_add_row (p : Cursor) (text : List α) (more : Nat) :
    putAll cols isBreak ⟨p.row + more, p.col⟩ text =
      ⟨(putAll cols isBreak p text).row + more,
        (putAll cols isBreak p text).col⟩ := by
  induction text generalizing p with
  | nil => rfl
  | cons c rest ih =>
      show putAll cols isBreak (put cols isBreak _ c) rest = _
      rw [put_add_row, ih]
      rfl

theorem putAll_row (row : Nat) (text : List α) :
    (putAll cols isBreak ⟨row, 0⟩ text).row =
      row + ended cols isBreak text := by
  have hshift : putAll cols isBreak ⟨0 + row, 0⟩ text = _ :=
    putAll_add_row ⟨0, 0⟩ text row
  rw [Nat.zero_add] at hshift
  rw [hshift, Nat.add_comm]
  rfl

/-- Text without breaks that is shorter than a row stays in its row. -/
theorem putAll_of_short {text : List α} (hbreak : ∀ c ∈ text, isBreak c = false)
    {p : Cursor} (hshort : p.col + text.length < cols) :
    putAll cols isBreak p text = ⟨p.row, p.col + text.length⟩ := by
  induction text generalizing p with
  | nil => rfl
  | cons c rest ih =>
      have hnext : put cols isBreak p c = ⟨p.row, p.col + 1⟩ := by
        unfold put
        rw [hbreak c List.mem_cons_self, if_neg (by decide), if_neg]
        rw [List.length_cons] at hshort
        omega
      show putAll cols isBreak (put cols isBreak p c) rest = _
      rw [List.length_cons] at hshort ⊢
      rw [hnext, ih (fun d hd => hbreak d (List.mem_cons_of_mem c hd))
        (by show p.col + 1 + rest.length < cols; omega)]
      simp only [Cursor.mk.injEq, true_and]
      omega

theorem ended_of_short {text : List α} (hbreak : ∀ c ∈ text, isBreak c = false)
    (hshort : text.length < cols) : ended cols isBreak text = 0 := by
  unfold ended
  rw [putAll_of_short hbreak (by simpa using hshort)]

@[simp] theorem rows_nil : rows cols isBreak ([] : List (List α)) = 0 := rfl

@[simp] theorem rows_cons (line : List α) (rest : List (List α)) :
    rows cols isBreak (line :: rest) =
      ended cols isBreak line + 1 + rows cols isBreak rest := by
  simp [rows]

@[simp] theorem rows_append (lines more : List (List α)) :
    rows cols isBreak (lines ++ more) =
      rows cols isBreak lines + rows cols isBreak more := by
  simp [rows]

/-- All lines begin below the limit if the last one does. -/
theorem startBelow_append_singleton {limit row : Nat}
    {lines : List (List α)} {last : List α} :
    StartBelow cols isBreak limit row (lines ++ [last]) ↔
      row + rows cols isBreak lines < limit := by
  induction lines generalizing row with
  | nil => simp [StartBelow]
  | cons line rest ih =>
      rw [List.cons_append, StartBelow, ih, rows_cons]
      omega

end TextLayout
end Lib
end OsKernel
