import OsKernel.Lib.Scrolling

/-!
# Documents on paper

A document is printed line by line; after each line the cursor goes to the start
of the next row.  Its rows on the paper are those of its lines, each laid out on
paper of its own, one below the other: a line writes nothing above the row it
starts in, and where it starts does not matter for how it is broken into rows.
-/

namespace OsKernel
namespace Lib
namespace TextLayout
namespace Paper

universe u v

variable {α : Type u} {β : Type v}

/-- The cursor goes to the start of the next row. -/
def newRow (paper : Paper β) : Paper β :=
  { paper with cursor := ⟨paper.cursor.row + 1, 0⟩ }

/-- The lines of a document. -/
def putLines (cols : Nat) (isBreak : α → Bool) (ink : α → β) (paper : Paper β)
    (lines : List (List α)) : Paper β :=
  lines.foldl (fun paper line => (paper.putAll cols isBreak ink line).newRow)
    paper

/-- The cursor is at the start of a row, and nothing is written from there on. -/
structure Awaits (blank : β) (paper : Paper β) : Prop where
  col : paper.cursor.col = 0
  blank : ∀ row, paper.cursor.row ≤ row → ∀ col, paper.cells row col = blank

variable {cols : Nat} {isBreak : α → Bool} {ink : α → β} {paper : Paper β}
  {blank : β}

theorem putAll_cursor (text : List α) :
    (paper.putAll cols isBreak ink text).cursor =
      TextLayout.putAll cols isBreak paper.cursor text := by
  induction text generalizing paper with
  | nil => rfl
  | cons c rest ih => exact ih

theorem Fresh.putAll (h : paper.Fresh blank) (text : List α) :
    (paper.putAll cols isBreak ink text).Fresh blank := by
  induction text generalizing paper with
  | nil => exact h
  | cons c rest ih => exact ih (h.put c)

/-- Text writes nothing above the row it starts in. -/
theorem putAll_cells_of_lt (text : List α) {row : Nat}
    (hrow : row < paper.cursor.row) (col : Nat) :
    (paper.putAll cols isBreak ink text).cells row col =
      paper.cells row col := by
  induction text generalizing paper with
  | nil => rfl
  | cons c rest ih =>
      have hnext : row < (paper.put cols isBreak ink c).cursor.row :=
        Nat.lt_of_lt_of_le hrow (put_row_bounds paper.cursor c).1
      refine (ih hnext).trans ?_
      unfold Paper.put
      simp only
      split
      · rfl
      · rw [mark, if_neg fun heq => by omega]

/-- Text without breaks that is shorter than the rest of the row is written cell
by cell. -/
theorem putAll_cells_of_short {text : List α}
    (hbreak : ∀ c ∈ text, isBreak c = false)
    (hshort : paper.cursor.col + text.length < cols) (row col : Nat) :
    (paper.putAll cols isBreak ink text).cells row col =
      if row = paper.cursor.row ∧ paper.cursor.col ≤ col then
        ((text.map ink)[col - paper.cursor.col]?).getD (paper.cells row col)
      else paper.cells row col := by
  induction text generalizing paper with
  | nil => simp [Paper.putAll]
  | cons c rest ih =>
      rw [List.length_cons] at hshort
      have hopen : isBreak c = false := hbreak c List.mem_cons_self
      have hput : paper.put cols isBreak ink c =
          ⟨⟨paper.cursor.row, paper.cursor.col + 1⟩,
            mark paper.cells paper.cursor (ink c)⟩ := by
        rw [Paper.put, TextLayout.put, hopen]
        simp only [Bool.false_eq_true, if_false]
        rw [if_neg (by omega)]
      show ((paper.put cols isBreak ink c).putAll cols isBreak ink rest).cells
        row col = _
      rw [hput, ih (fun d hd => hbreak d (List.mem_cons_of_mem c hd))
        (by simp only; omega)]
      simp only [mark]
      rcases Nat.lt_trichotomy col paper.cursor.col with hlt | rfl | hgt
      · rw [if_neg (by omega), if_neg (by omega), if_neg (by omega)]
      · -- the cell of the first character, which the rest leaves alone
        simp
      · have hindex : col - paper.cursor.col =
            col - (paper.cursor.col + 1) + 1 := by omega
        rw [hindex, List.map_cons, List.getElem?_cons_succ]
        split
        next hrow =>
          rw [if_neg (by omega), if_pos ⟨hrow.1, by omega⟩]
        next hrow =>
          rw [if_neg (by omega), if_neg (by omega)]

/-- Where a text starts does not matter for what it writes. -/
theorem putAll_cells_add (text : List α) {other : Paper β} {more : Nat}
    (hrow : paper.cursor.row = more + other.cursor.row)
    (hcol : paper.cursor.col = other.cursor.col)
    (hcells : ∀ row col, paper.cells (more + row) col = other.cells row col)
    (row col : Nat) :
    (paper.putAll cols isBreak ink text).cells (more + row) col =
      (other.putAll cols isBreak ink text).cells row col := by
  induction text generalizing paper other with
  | nil => exact hcells row col
  | cons c rest ih =>
      have hcursor : paper.cursor =
          ⟨other.cursor.row + more, other.cursor.col⟩ := by
        rw [← hcol, Nat.add_comm, ← hrow]
      have hput : TextLayout.put cols isBreak
          ⟨other.cursor.row + more, other.cursor.col⟩ c = _ :=
        put_add_row other.cursor c more
      show ((paper.put cols isBreak ink c).putAll cols isBreak ink rest).cells
          (more + row) col =
        ((other.put cols isBreak ink c).putAll cols isBreak ink rest).cells row col
      refine ih ?_ ?_ fun row col => ?_
      · show (TextLayout.put cols isBreak paper.cursor c).row = _
        rw [hcursor, hput, Nat.add_comm]
        rfl
      · show (TextLayout.put cols isBreak paper.cursor c).col = _
        rw [hcursor, hput]
        rfl
      · unfold Paper.put
        simp only
        split
        · exact hcells row col
        · simp only [mark, hcells, hrow, hcol, Nat.add_left_cancel_iff]

theorem Awaits.fresh (h : paper.Awaits blank) : paper.Fresh blank :=
  fun row hrow => h.blank row hrow.le

/-- After a line the next row is awaited. -/
theorem Awaits.newRow_putAll (h : paper.Awaits blank) (line : List α) :
    (paper.putAll cols isBreak ink line).newRow.Awaits blank where
  col := rfl
  blank row hrow := h.fresh.putAll line row hrow

theorem Awaits.putAll_row (h : paper.Awaits blank) (line : List α) :
    (paper.putAll cols isBreak ink line).cursor.row =
      paper.cursor.row + ended cols isBreak line := by
  have hcursor : paper.cursor = ⟨paper.cursor.row, 0⟩ := by rw [← h.col]
  rw [putAll_cursor, hcursor]
  exact TextLayout.putAll_row _ line

/-- A line that is awaited has the rows it has on paper of its own. -/
theorem Awaits.putAll_cells (h : paper.Awaits blank) (line : List α)
    (row col : Nat) :
    (paper.putAll cols isBreak ink line).cells (paper.cursor.row + row) col =
      ((empty blank).putAll cols isBreak ink line).cells row col :=
  putAll_cells_add line rfl h.col
    (fun row col => h.blank _ (Nat.le_add_right _ row) col) row col

@[simp] theorem putLines_nil :
    paper.putLines cols isBreak ink [] = paper := rfl

@[simp] theorem putLines_cons (line : List α) (rest : List (List α)) :
    paper.putLines cols isBreak ink (line :: rest) =
      (paper.putAll cols isBreak ink line).newRow.putLines cols isBreak ink
        rest := rfl

theorem putLines_append (lines more : List (List α)) :
    paper.putLines cols isBreak ink (lines ++ more) =
      (paper.putLines cols isBreak ink lines).putLines cols isBreak ink more :=
  List.foldl_append

/-- Lines write nothing above the row they start in. -/
theorem Awaits.putLines_cells_of_lt (h : paper.Awaits blank)
    (lines : List (List α)) {row : Nat} (hrow : row < paper.cursor.row)
    (col : Nat) :
    (paper.putLines cols isBreak ink lines).cells row col =
      paper.cells row col := by
  induction lines generalizing paper with
  | nil => rfl
  | cons line rest ih =>
      have hnext : row < (paper.putAll cols isBreak ink line).newRow.cursor.row := by
        show row < (paper.putAll cols isBreak ink line).cursor.row + 1
        rw [h.putAll_row]
        omega
      rw [putLines_cons, ih (h.newRow_putAll line) hnext]
      exact putAll_cells_of_lt line hrow col

/-- The row awaited after lines is below all their rows. -/
theorem Awaits.putLines (h : paper.Awaits blank) (lines : List (List α)) :
    (paper.putLines cols isBreak ink lines).Awaits blank ∧
      (paper.putLines cols isBreak ink lines).cursor.row =
        paper.cursor.row + rows cols isBreak lines := by
  induction lines generalizing paper with
  | nil => exact ⟨h, rfl⟩
  | cons line rest ih =>
      obtain ⟨hend, hrow⟩ := ih (h.newRow_putAll line)
      refine ⟨hend, ?_⟩
      rw [putLines_cons, hrow, rows_cons]
      show (paper.putAll cols isBreak ink line).cursor.row + 1 + _ = _
      rw [h.putAll_row]
      omega

/-- The rows of a line of a document are those of the line on paper of its own,
below the rows of the lines before it. -/
theorem Awaits.line_cells (h : paper.Awaits blank) (before : List (List α))
    (line : List α) (after : List (List α)) {row : Nat}
    (hrow : row ≤ ended cols isBreak line) (col : Nat) :
    (paper.putLines cols isBreak ink (before ++ line :: after)).cells
        (paper.cursor.row + rows cols isBreak before + row) col =
      ((empty blank).putAll cols isBreak ink line).cells row col := by
  obtain ⟨hline, hstart⟩ := h.putLines before
  rw [putLines_append, ← hstart, putLines_cons]
  rw [(hline.newRow_putAll line).putLines_cells_of_lt after ?_ col]
  · exact hline.putAll_cells line row col
  · show _ < (Paper.putAll _ _ _ _ line).cursor.row + 1
    rw [hline.putAll_row]
    omega

end Paper
end TextLayout
end Lib
end OsKernel
