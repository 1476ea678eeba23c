import OsKernel.Lib.TextLayout

/-!
# A screen that shows the last rows of a text

`Paper` is a text laid out on rows without bound, with the cursor behind its
last character.  A screen of `height` rows, its cells stored row by row, shows a
window of the paper: the rows from `top` on.

Writing a cell of the window writes that cell of the paper, and moving all rows
up by one shows the window one row further down, as long as nothing is written
there yet.
-/

namespace OsKernel
namespace Lib
namespace TextLayout

universe u v

/-! ## Text on paper -/

/-- The cells of rows without bound, and a cursor. -/
structure Paper (β : Type v) where
  cursor : Cursor
  cells : Nat → Nat → β

namespace Paper

variable {α : Type u} {β : Type v}

/-- Paper with nothing on it. -/
def empty (blank : β) : Paper β where
  cursor := ⟨0, 0⟩
  cells := fun _ _ => blank

/-- The cells after one of them is written. -/
def mark (cells : Nat → Nat → β) (p : Cursor) (value : β) : Nat → Nat → β :=
  fun row col => if row = p.row ∧ col = p.col then value else cells row col

/-- One character; a character that ends its row leaves no mark. -/
def put (cols : Nat) (isBreak : α → Bool) (ink : α → β) (paper : Paper β)
    (c : α) : Paper β where
  cursor := TextLayout.put cols isBreak paper.cursor c
  cells := if isBreak c then paper.cells
    else mark paper.cells paper.cursor (ink c)

/-- A text. -/
def putAll (cols : Nat) (isBreak : α → Bool) (ink : α → β) (paper : Paper β)
    (text : List α) : Paper β :=
  text.foldl (put cols isBreak ink) paper

/-- The first of the last `height` rows, or of all rows as long as there are no
more. -/
def top (height : Nat) (paper : Paper β) : Nat := paper.cursor.row + 1 - height

/-- Nothing is written below the row of the cursor. -/
def Fresh (blank : β) (paper : Paper β) : Prop :=
  ∀ row, paper.cursor.row < row → ∀ col, paper.cells row col = blank

variable {cols : Nat} {isBreak : α → Bool} {ink : α → β} {paper : Paper β}
  {blank : β}

/-- A character leaves the rows below the cursor blank. -/
theorem Fresh.cells_put (h : paper.Fresh blank) (c : α) {row : Nat}
    (hrow : paper.cursor.row < row) (col : Nat) :
    (paper.put cols isBreak ink c).cells row col = blank := by
  unfold Paper.put
  simp only
  split
  · exact h row hrow col
  · rw [mark, if_neg fun heq => by omega]
    exact h row hrow col

/-- Only the ink of the characters in the text matters. -/
theorem putAll_congr {ink' : α → β} {text : List α}
    (hsame : ∀ c ∈ text, ink c = ink' c) (paper : Paper β) :
    paper.putAll cols isBreak ink text = paper.putAll cols isBreak ink' text := by
  refine List.foldl_ext _ _ _ fun paper c hc => ?_
  rw [Paper.put, Paper.put, hsame c hc]

theorem Fresh.put (h : paper.Fresh blank) (c : α) :
    (paper.put cols isBreak ink c).Fresh blank := by
  intro row hrow col
  exact h.cells_put c
    (Nat.lt_of_le_of_lt (put_row_bounds paper.cursor c).1 hrow) col

end Paper

/-! ## Screens -/

section Screen

variable {β : Type v} {cols height : Nat}

/-- The screen shows the rows from `top` on. -/
structure Shows (cols height : Nat) (screen : List β) (top : Nat)
    (cells : Nat → Nat → β) : Prop where
  length_eq : screen.length = height * cols
  cell_eq : ∀ row < height, ∀ col < cols,
    screen[row * cols + col]? = some (cells (top + row) col)

variable {screen : List β} {top : Nat} {cells : Nat → Nat → β}

/-- The cells of different rows or columns are different. -/
theorem cell_index_inj {row row' col col' : Nat} (hcol : col < cols)
    (hcol' : col' < cols) :
    row * cols + col = row' * cols + col' ↔ row = row' ∧ col = col' := by
  constructor
  · intro heq
    have hrow : row = row' := by
      have hdiv := congrArg (· / cols) heq
      have hpos : 0 < cols := by omega
      simpa [Nat.add_div_of_dvd_right (Nat.dvd_mul_left cols _),
        Nat.mul_div_cancel _ hpos, Nat.div_eq_of_lt hcol,
        Nat.div_eq_of_lt hcol'] using hdiv
    subst hrow
    exact ⟨rfl, by omega⟩
  · rintro ⟨rfl, rfl⟩
    rfl

theorem cell_index_lt {row col : Nat} (hrow : row < height)
    (hcol : col < cols) : row * cols + col < height * cols := by
  have hnext : (row + 1) * cols ≤ height * cols :=
    Nat.mul_le_mul_right cols hrow
  rw [Nat.succ_mul] at hnext
  omega

theorem shows_replicate (blank : β) :
    Shows cols height (List.replicate (height * cols) blank) 0
      fun _ _ => blank where
  length_eq := List.length_replicate
  cell_eq := by
    intro row hrow col hcol
    exact List.getElem?_replicate_of_lt (cell_index_lt hrow hcol)

/-- Writing a cell of the screen writes the cell of the paper it shows. -/
theorem Shows.set (h : Shows cols height screen top cells) {row col : Nat}
    (hrow : row < height) (hcol : col < cols) (value : β) :
    Shows cols height (screen.set (row * cols + col) value) top
      (Paper.mark cells ⟨top + row, col⟩ value) where
  length_eq := by rw [List.length_set, h.length_eq]
  cell_eq := by
    intro r hr c hc
    have hlt : row * cols + col < screen.length := by
      rw [h.length_eq]
      exact cell_index_lt hrow hcol
    unfold Paper.mark
    by_cases hsame : row = r ∧ col = c
    · obtain ⟨rfl, rfl⟩ := hsame
      rw [List.getElem?_set_self hlt, if_pos ⟨rfl, rfl⟩]
    · rw [List.getElem?_set_ne fun heq =>
          hsame ((cell_index_inj hcol hc).mp heq), h.cell_eq r hr c hc,
        if_neg fun heq =>
          hsame ⟨(Nat.add_left_cancel heq.1).symm, heq.2.symm⟩]

/-- Moving all rows up by one shows the next row of the paper at the bottom, if
it is blank. -/
theorem Shows.scroll (h : Shows cols height screen top cells) {blank : β}
    (hpos : 0 < height) (hblank : ∀ col, cells (top + height) col = blank) :
    Shows cols height (screen.drop cols ++ List.replicate cols blank) (top + 1)
      cells where
  length_eq := by
    have hle : 1 * cols ≤ height * cols := Nat.mul_le_mul_right cols hpos
    rw [List.length_append, List.length_drop, List.length_replicate,
      h.length_eq]
    omega
  cell_eq := by
    intro row hrow col hcol
    have hdrop : (screen.drop cols).length = (height - 1) * cols := by
      rw [List.length_drop, h.length_eq, Nat.sub_one_mul]
    -- the bottom row is the new blank one, every other was one row lower
    rcases Nat.lt_or_ge (row + 1) height with hnext | hlast
    · have hlt : row * cols + col < (height - 1) * cols :=
        cell_index_lt (by omega) hcol
      have hindex : cols + (row * cols + col) = (row + 1) * cols + col := by
        rw [Nat.succ_mul]
        omega
      rw [List.getElem?_append_left (by rwa [hdrop]), List.getElem?_drop,
        hindex, h.cell_eq (row + 1) hnext col hcol]
      congr 2
      omega
    · obtain rfl : row = height - 1 := by omega
      rw [List.getElem?_append_right (by rw [hdrop]; omega), hdrop,
        Nat.add_sub_cancel_left, List.getElem?_replicate_of_lt hcol,
        ← hblank col]
      congr 2
      omega

end Screen

end TextLayout
end Lib
end OsKernel
