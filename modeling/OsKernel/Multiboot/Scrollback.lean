import OsKernel.Lib.Scrolling
import OsKernel.Multiboot.Vga

/-!
# The screen as the end of a longer text

The text printed so far is laid out on rows without bound; the screen shows the
last 25 of them.  `vga_putchar` writes the cell under the cursor, and when the
cursor goes to a row the screen does not show, the copying loop moves the window
down by one row.

The loop copies in place.  It reads each cell before it overwrites it, so the
rows move up as if they were copied from a second screen.
-/

namespace OsKernel
namespace Multiboot

open Lib.TextLayout

/-! ## What the loops write -/

namespace Terminal

theorem write_vga (t : Terminal) (index : Nat) (value : BitVec 16) :
    (t.write index value).vga = t.vga.set index value := rfl

theorem length_foldl_write {index : Nat → Nat}
    {value : Terminal → Nat → BitVec 16} (indices : List Nat) (t : Terminal) :
    (indices.foldl (fun t i => t.write (index i) (value t i)) t).vga.length =
      t.vga.length := by
  induction indices generalizing t with
  | nil => rfl
  | cons i rest ih => rw [List.foldl_cons, ih, write_vga, List.length_set]

/-- A loop that fills cells with one value. -/
theorem vga_foldl_fill (t : Terminal) (base : Nat) (value : BitVec 16)
    {n : Nat} (hlength : base + n ≤ t.vga.length) (j : Nat) :
    ((List.range n).foldl (fun t i => t.write (base + i) value) t).vga[j]? =
      if base ≤ j ∧ j < base + n then some value else t.vga[j]? := by
  induction n with
  | zero =>
      rw [if_neg (by omega)]
      rfl
  | succ n ih =>
      have hbefore := ih (by omega)
      have hsame : ((List.range n).foldl
          (fun t i => t.write (base + i) value) t).vga.length = t.vga.length :=
        length_foldl_write _ t
      rw [List.range_succ, List.foldl_append, List.foldl_cons, List.foldl_nil,
        write_vga]
      by_cases hj : base + n = j
      · rw [← hj, List.getElem?_set_self (by omega), if_pos (by omega)]
      · rw [List.getElem?_set_ne hj, hbefore]
        congr 1
        simp only [eq_iff_iff]
        omega

/-- The copying loop: the cells below `n` have what was one row further down,
the others are as they were. -/
theorem vga_foldl_copy (t : Terminal) {n : Nat}
    (hlength : n + cols ≤ t.vga.length) (j : Nat) :
    ((List.range n).foldl
        (fun t i => t.write i (t.vga.getD (i + cols) 0)) t).vga[j]? =
      if j < n then t.vga[j + cols]? else t.vga[j]? := by
  induction n generalizing j with
  | zero =>
      rw [if_neg (by omega)]
      rfl
  | succ n ih =>
      have hbefore := ih (by omega)
      have hsame : ((List.range n).foldl
          (fun t i => t.write i (t.vga.getD (i + cols) 0)) t).vga.length =
          t.vga.length :=
        length_foldl_write _ t
      rw [List.range_succ, List.foldl_append, List.foldl_cons, List.foldl_nil,
        write_vga]
      by_cases hj : n = j
      · subst hj
        -- the cell that is read has not been overwritten yet
        have hread := hbefore (n + cols)
        rw [if_neg (by omega)] at hread
        have hin : n + cols < t.vga.length := by omega
        rw [List.getElem?_set_self (by omega), if_pos (by omega),
          List.getD_eq_getElem?_getD, hread, List.getElem?_eq_getElem hin]
        rfl
      · rw [List.getElem?_set_ne hj, hbefore]
        congr 1
        simp only [eq_iff_iff]
        omega

/-- Scrolling drops the first row and puts a blank one at the end. -/
theorem vga_scroll {t : Terminal} (hlength : t.vga.length = screenRows * cols) :
    t.moveUp.blankLast.vga =
      t.vga.drop cols ++ List.replicate cols blank := by
  have hup : t.moveUp.vga.length = t.vga.length :=
    length_foldl_write (List.range (24 * cols)) t
  have hrows : screenRows * cols = 24 * cols + cols := by decide
  apply List.ext_getElem?
  intro j
  have hfill : t.moveUp.blankLast.vga[j]? =
      if 24 * cols ≤ j ∧ j < 24 * cols + cols then some blank
      else t.moveUp.vga[j]? :=
    vga_foldl_fill t.moveUp (24 * cols) blank (by omega) j
  have hcopy : t.moveUp.vga[j]? =
      if j < 24 * cols then t.vga[j + cols]? else t.vga[j]? :=
    vga_foldl_copy t (by omega) j
  rw [hfill, hcopy, List.getElem?_append, List.length_drop, List.getElem?_drop,
    List.getElem?_replicate]
  rcases Nat.lt_or_ge j (24 * cols) with hold | hlast
  · rw [if_neg (by omega), if_pos hold, if_pos (by omega), Nat.add_comm]
  · rcases Nat.lt_or_ge j (24 * cols + cols) with hnew | hout
    · rw [if_pos ⟨hlast, hnew⟩, if_neg (by omega), if_pos (by omega)]
    · rw [if_neg (by omega), if_neg (by omega), if_neg (by omega),
        if_neg (by omega), List.getElem?_eq_none (by omega)]

/-- Clearing blanks every cell. -/
theorem vga_clear {t : Terminal} (hlength : t.vga.length = screenRows * cols) :
    t.clear.vga = List.replicate (screenRows * cols) blank := by
  have hsize : cols * screenRows = screenRows * cols := by decide
  apply List.ext_getElem?
  intro j
  have hfill := vga_foldl_fill t 0 blank (n := cols * screenRows) (by omega) j
  simp only [Nat.zero_add, Nat.zero_le, true_and] at hfill
  rw [clear, hfill, List.getElem?_replicate, hsize]
  rcases Nat.lt_or_ge j (screenRows * cols) with hin | hout
  · rw [if_pos hin, if_pos hin]
  · rw [if_neg (by omega), if_neg (by omega),
      List.getElem?_eq_none (by omega)]

end Terminal

/-! ## The screen and the paper -/

/-- The cell `vga_putchar` writes for a glyph. -/
def Glyph.cell (g : Glyph) : BitVec 16 := Multiboot.cell g.2 g.1

/-- `(attr << 8) | c` for a character of seven bits. -/
def ink (g : Glyph) : BitVec 16 := g.2 ++ g.1

/-- The sign of `char` does not matter for seven bits. -/
theorem cell_eq_ink {g : Glyph} (hascii : g.1 < 128) : g.cell = ink g := by
  obtain ⟨c, attr⟩ := g
  have hmsb : c.msb = false := by
    rw [BitVec.msb_eq_false_iff_two_mul_lt]
    have hlt := BitVec.lt_def.mp hascii
    simp at hlt
    omega
  rw [Glyph.cell, cell, ink, BitVec.signExtend_eq_setWidth_of_msb_false hmsb]
  grind

/-- The screen shows the last rows of the paper, and the cursor is where it is
on the paper. -/
structure Terminal.Mirrors (t : Terminal) (paper : Paper (BitVec 16)) :
    Prop where
  on : t.On paper.cursor
  shows : Shows cols screenRows t.vga (paper.top screenRows) paper.cells
  fresh : paper.Fresh blank

namespace Terminal

variable {t : Terminal} {paper : Paper (BitVec 16)}

/-- The row of the cursor, counted from the first row the screen shows. -/
theorem Mirrors.top_add_y (h : t.Mirrors paper) :
    paper.top screenRows + t.y = paper.cursor.row := by
  rw [h.on.y, Paper.top]
  unfold screenRows
  omega

theorem place_vga (t : Terminal) (g : Glyph) :
    (t.place g.1 g.2).vga =
      if g.isBreak then t.vga
      else t.vga.set (t.y * cols + t.x) g.cell := by
  unfold place
  by_cases hbreak : g.1 = newline
  · have htrue : g.isBreak = true := beq_iff_eq.mpr hbreak
    rw [if_pos hbreak, if_pos htrue]
  · have hfalse : ¬ g.isBreak = true := by simpa [Glyph.isBreak] using hbreak
    rw [if_neg hbreak, if_neg hfalse]
    simp only
    split
    · rfl
    · rfl

/-- The first part of `vga_putchar` writes the cell of the paper under the
cursor. -/
theorem Mirrors.place (h : t.Mirrors paper) (g : Glyph) :
    Shows cols screenRows (t.place g.1 g.2).vga (paper.top screenRows)
      (paper.put cols Glyph.isBreak Glyph.cell g).cells := by
  rw [place_vga, Paper.put]
  simp only
  split
  · exact h.shows
  · have hy : t.y < screenRows := by
      rw [h.on.y]
      unfold screenRows
      omega
    have hx : t.x < cols := by
      rw [h.on.x]
      exact h.on.col
    have hset := h.shows.set hy hx g.cell
    rw [h.top_add_y, h.on.x] at hset
    rw [h.on.x]
    exact hset

/-- A row change that leaves the screen scrolls it; any other one keeps the
rows it shows. -/
theorem Mirrors.top_put (h : t.Mirrors paper) (g : Glyph) :
    (paper.put cols Glyph.isBreak Glyph.cell g).top screenRows =
      if (t.place g.1 g.2).y ≥ screenRows then paper.top screenRows + 1
      else paper.top screenRows := by
  have htop := h.top_add_y
  have hy : (t.place g.1 g.2).y = (put cols Glyph.isBreak ⟨t.y, t.x⟩ g).row :=
    congrArg Cursor.row (t.place_spec g).1
  -- the cursor moves on the paper as on the screen, `top` rows further down
  have hrow : (put cols Glyph.isBreak paper.cursor g).row =
      paper.top screenRows + (t.place g.1 g.2).y := by
    have hcursor : paper.cursor = ⟨t.y + paper.top screenRows, t.x⟩ := by
      rw [Nat.add_comm, htop, h.on.x]
    rw [hcursor, put_add_row ⟨t.y, t.x⟩ g, ← hy, Nat.add_comm]
  have hstep : t.y ≤ (t.place g.1 g.2).y ∧ (t.place g.1 g.2).y ≤ t.y + 1 := by
    rw [hy]
    exact put_row_bounds ⟨t.y, t.x⟩ g
  have hon := h.on.y
  show (put cols Glyph.isBreak paper.cursor g).row + 1 - screenRows = _
  rw [hrow]
  clear hrow hy
  unfold Paper.top screenRows at *
  split
  · omega
  · omega

/-- One character on the screen is one character on the paper. -/
theorem Mirrors.vgaPutchar (h : t.Mirrors paper) (g : Glyph) :
    (t.vgaPutchar g.1 g.2).Mirrors
      (paper.put cols Glyph.isBreak Glyph.cell g) := by
  have hplaced := h.place g
  refine ⟨(h.on.vgaPutchar g).1, ?_, h.fresh.put g⟩
  rw [h.top_put g, Terminal.vgaPutchar]
  simp only
  split
  next hscroll =>
    dsimp only
    rw [vga_scroll hplaced.length_eq]
    refine hplaced.scroll (by decide) fun col => ?_
    -- the row that comes up has not been written yet
    have hbelow : paper.cursor.row < paper.top screenRows + screenRows := by
      rw [← h.top_add_y, h.on.y]
      unfold screenRows
      omega
    exact h.fresh.cells_put g hbelow col
  next => exact hplaced

theorem Mirrors.print (h : t.Mirrors paper) (text : List Glyph) :
    (t.print text).Mirrors (paper.putAll cols Glyph.isBreak Glyph.cell text) := by
  induction text generalizing t paper with
  | nil => exact h
  | cons g rest ih => exact ih (h.vgaPutchar g)

/-- The cleared screen shows the paper nothing was written on. -/
theorem mirrors_clear (hlength : t.vga.length = screenRows * cols)
    (hx : t.x = 0) (hy : t.y = 0) : t.clear.Mirrors (Paper.empty blank) := by
  obtain ⟨hcol, hrow⟩ := clear_start hx hy
  refine ⟨⟨hcol, show 0 < cols by decide, ?_⟩, ?_, fun _ _ _ => rfl⟩
  · rw [hrow]
    rfl
  · rw [vga_clear hlength]
    exact shows_replicate blank

/-- Calls of `print_str`, each with its attribute. -/
def printStrs (t : Terminal) (calls : List (List (BitVec 8) × BitVec 8)) :
    Terminal :=
  calls.foldl (fun t call => t.printStr call.1 call.2) t

end Terminal

/-- The text that calls of `print_str` print. -/
def textOf (calls : List (List (BitVec 8) × BitVec 8)) : List Glyph :=
  calls.flatMap fun call => glyphs call.1 call.2

theorem Terminal.printStrs_eq (t : Terminal)
    (calls : List (List (BitVec 8) × BitVec 8)) :
    t.printStrs calls = t.print (textOf calls) := by
  induction calls generalizing t with
  | nil => rfl
  | cons call rest ih =>
      show (t.printStr call.1 call.2).printStrs rest = _
      rw [ih, printStr_eq, ← print_append]
      rfl

theorem ascii_textOf {calls : List (List (BitVec 8) × BitVec 8)}
    (hascii : ∀ call ∈ calls, ∀ c ∈ call.1, c < 128) :
    ∀ g ∈ textOf calls, g.1 < 128 := by
  intro g hg
  obtain ⟨call, hcall, hin⟩ := List.mem_flatMap.mp hg
  obtain ⟨c, hc, rfl⟩ := List.mem_map.mp hin
  exact hascii call hcall c (List.takeWhile_subset _ hc)

/-- The screen after `calls` on a cleared screen, the cursor at its start. -/
def printed (vga : List (BitVec 16))
    (calls : List (List (BitVec 8) × BitVec 8)) : Terminal :=
  (Terminal.clear ⟨0, 0, vga, []⟩).printStrs calls

/-- The text of `calls` on rows without bound. -/
def laidOut (calls : List (List (BitVec 8) × BitVec 8)) : Paper (BitVec 16) :=
  (Paper.empty blank).putAll cols Glyph.isBreak ink (textOf calls)

/-- Whatever is printed, the cursor is on the screen and the screen shows the
last 25 rows of the text. -/
theorem printed_shows_laidOut {vga : List (BitVec 16)}
    (hlength : vga.length = screenRows * cols)
    (calls : List (List (BitVec 8) × BitVec 8))
    (hascii : ∀ call ∈ calls, ∀ c ∈ call.1, c < 128) :
    (printed vga calls).x < cols ∧ (printed vga calls).y < screenRows ∧
      Shows cols screenRows (printed vga calls).vga
        ((laidOut calls).top screenRows) (laidOut calls).cells := by
  have hstart : (Terminal.clear ⟨0, 0, vga, []⟩).Mirrors (Paper.empty blank) :=
    Terminal.mirrors_clear hlength rfl rfl
  have hend : (printed vga calls).Mirrors (laidOut calls) := by
    have hink : ∀ g ∈ textOf calls, g.cell = ink g :=
      fun g hg => cell_eq_ink (ascii_textOf hascii g hg)
    rw [printed, Terminal.printStrs_eq, laidOut, ← Paper.putAll_congr hink]
    exact hstart.print (textOf calls)
  refine ⟨?_, ?_, hend.shows⟩
  · rw [hend.on.x]
    exact hend.on.col
  · rw [hend.on.y]
    unfold screenRows
    omega

/-- A text of 27 rows: after 20 line breaks a line of 81 characters, which
goes on in the next row, and after five more line breaks the last row. -/
def longText : List (List (BitVec 8) × BitVec 8) :=
  [(List.replicate 20 newline, 7), (List.replicate 81 120, 7),
    (List.replicate 5 newline, 7), (ascii "ok", 10)]

/-- The screen shows it from the third row on. -/
theorem printed_shows_laidOut_ok :
    (printed (List.replicate 2000 0) longText).y < screenRows ∧
      (printed (List.replicate 2000 0) longText).vga[18 * 80 + 79]? =
        some 0x0778 ∧
      (printed (List.replicate 2000 0) longText).vga[19 * 80 + 0]? =
        some 0x0778 ∧
      (printed (List.replicate 2000 0) longText).vga[19 * 80 + 1]? =
        some blank ∧
      (printed (List.replicate 2000 0) longText).vga[24 * 80 + 1]? =
        some 0x0A6B := by
  obtain ⟨_, hy, hshows⟩ := printed_shows_laidOut
    (List.length_replicate (n := 2000) (a := (0 : BitVec 16))) longText
    (by decide)
  have htop : (laidOut longText).top screenRows = 2 := by decide +kernel
  rw [htop] at hshows
  have hcell := hshows.cell_eq
  refine ⟨hy, (hcell 18 (by decide) 79 (by decide)).trans ?_,
    (hcell 19 (by decide) 0 (by decide)).trans ?_,
    (hcell 19 (by decide) 1 (by decide)).trans ?_,
    (hcell 24 (by decide) 1 (by decide)).trans ?_⟩
  all_goals exact congrArg some (by decide +kernel)

end Multiboot
end OsKernel
