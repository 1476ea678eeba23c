import OsKernel.Lib.Document
import OsKernel.Multiboot.KernelMain
import OsKernel.Multiboot.Scrollback
import Mathlib.Data.List.TakeWhile

/-!
# What `kernel_main` leaves on the screen

As long as all lines fit on the screen it does not scroll, and the moves of the
cursor in `kernel_main` and in `vga_putchar` agree.  Every line then stands on
the screen as it was laid out, below the lines before it.

The second row has the number `kernel_main` was called with.  It can be read
back from the cells: the digits of `print_hex` are those of the number.
-/

namespace OsKernel
namespace Multiboot

open Lib.TextLayout

/-! ## Lines on the screen -/

/-- Between two lines: the screen shows the first rows of the paper, and the
cursor is at the start of the next one, which may be the one below the last. -/
structure Terminal.Between (t : Terminal) (paper : Paper (BitVec 16)) :
    Prop where
  x : t.x = 0
  y : t.y = paper.cursor.row
  shows : Shows cols screenRows t.vga 0 paper.cells
  awaits : paper.Awaits blank

namespace Terminal

variable {t : Terminal} {paper : Paper (BitVec 16)}

theorem Between.mirrors (h : t.Between paper)
    (hrow : paper.cursor.row < screenRows) : t.Mirrors paper := by
  have htop : paper.top screenRows = 0 := by
    unfold Paper.top
    omega
  refine ⟨⟨h.x.trans h.awaits.col.symm, ?_, ?_⟩, ?_, h.awaits.fresh⟩
  · rw [h.awaits.col]
    decide
  · rw [h.y]
    unfold screenRows at hrow
    omega
  · rw [htop]
    exact h.shows

/-- A line that ends on the screen. -/
theorem Between.printLine (h : t.Between paper) {line : List Glyph}
    (hfits : paper.cursor.row + ended cols Glyph.isBreak line < screenRows) :
    (t.print line).nextLine.Between
      (paper.putAll cols Glyph.isBreak Glyph.cell line).newRow := by
  have hprinted := (h.mirrors (by omega)).print line
  have hrow : (paper.putAll cols Glyph.isBreak Glyph.cell line).cursor.row =
      paper.cursor.row + ended cols Glyph.isBreak line :=
    h.awaits.putAll_row line
  have htop : (paper.putAll cols Glyph.isBreak Glyph.cell line).top screenRows = 0 := by
    unfold Paper.top
    omega
  refine ⟨rfl, ?_, ?_, h.awaits.newRow_putAll line⟩
  · show (t.print line).y + 1 = (paper.putAll _ _ _ line).cursor.row + 1
    rw [hprinted.on.y]
    unfold screenRows at hfits
    omega
  · have hshows := hprinted.shows
    rw [htop] at hshows
    exact hshows

/-- Lines that end on the screen. -/
theorem Between.printLines (h : t.Between paper) {lines : List (List Glyph)}
    (hfits : paper.cursor.row + rows cols Glyph.isBreak lines ≤ screenRows) :
    (t.printLines lines).Between
      (paper.putLines cols Glyph.isBreak Glyph.cell lines) := by
  induction lines generalizing t paper with
  | nil => exact h
  | cons line rest ih =>
      rw [rows_cons] at hfits
      refine ih (h.printLine (by omega)) ?_
      show (paper.putAll cols Glyph.isBreak Glyph.cell line).cursor.row + 1 + _ ≤ _
      have hrow : (paper.putAll cols Glyph.isBreak Glyph.cell line).cursor.row =
          paper.cursor.row + ended cols Glyph.isBreak line :=
        h.awaits.putAll_row line
      omega

theorem nextLine_vga (t : Terminal) : t.nextLine.vga = t.vga := rfl

theorem between_cleared {vga : List (BitVec 16)}
    (hlength : vga.length = screenRows * cols) :
    (cleared vga).Between (Paper.empty blank) := by
  obtain ⟨hx, hy⟩ := clear_start
    (t := { x := 0, y := 0, vga := vga, written := [] }) rfl rfl
  refine ⟨hx, hy, ?_, rfl, fun _ _ _ => rfl⟩
  rw [cleared, vga_clear hlength]
  exact shows_replicate blank

end Terminal

/-! ## The lines of `kernel_main` -/

/-- The last line takes one row. -/
theorem rows_kernelLines (fuel : Nat) (magic : BitVec 32)
    (info : MultibootInfo) :
    rows cols Glyph.isBreak (kernelLines fuel magic info) =
      info.rowsBefore fuel + 1 := by
  obtain ⟨lines, last, hlines, hrows, hlast⟩ :=
    kernelLines_eq_append fuel magic info
  rw [hlines, rows_append, hrows, rows_cons, hlast, rows_nil]

theorem rows_titleLine : rows cols Glyph.isBreak [titleLine] = 1 := by
  have htitle : ended cols Glyph.isBreak titleLine = 0 :=
    ended_glyphs (by decide) (by decide) title
  rw [rows_cons, htitle, rows_nil]

/-- The last move of the cursor does not change the screen. -/
theorem kernelMain_vga (fuel : Nat) (vga : List (BitVec 16))
    (magic : BitVec 32) (info : MultibootInfo) :
    (kernelMain fuel vga magic info).1.vga =
      ((cleared vga).printLines (kernelLines fuel magic info)).vga := by
  rw [kernelMain_eq, kernelLines]
  cases (info.walk fuel).2 with
  | true =>
      simp only [if_true, ← List.append_assoc, Terminal.printLines_append,
        Terminal.printLines_cons, Terminal.printLines_nil]
      exact (Terminal.nextLine_vga _).symm
  | false => simp only [Bool.false_eq_true, if_false, List.append_nil]

/-- The cells of a line on rows of its own. -/
def lineCells (line : List Glyph) : Nat → Nat → BitVec 16 :=
  ((Paper.empty blank).putAll cols Glyph.isBreak Glyph.cell line).cells

/-- A short line without line breaks takes one row. -/
theorem Plain.lineCells {n : Nat} {line : List Glyph} (h : Plain n line)
    (hn : n < cols) (col : Nat) :
    lineCells line 0 col = ((line.map Glyph.cell)[col]?).getD blank := by
  have hlength := h.1
  have hcells : Multiboot.lineCells line 0 col = _ :=
    Paper.putAll_cells_of_short h.2
      (show 0 + line.length < cols by omega) 0 col
  rw [hcells, if_pos ⟨rfl, Nat.zero_le _⟩]
  rfl

/-- The screen shows the lines of `kernel_main`, one below the other. -/
theorem kernelMain_shows {info : MultibootInfo}
    {vga : List (BitVec 16)} (hlength : vga.length = screenRows * cols)
    {fuel : Nat} (hfits : info.rowsBefore fuel < screenRows)
    (magic : BitVec 32) :
    Shows cols screenRows (kernelMain fuel vga magic info).1.vga 0
      ((Paper.empty blank).putLines cols Glyph.isBreak Glyph.cell
        (kernelLines fuel magic info)).cells := by
  have hrows : (Paper.empty blank).cursor.row +
      rows cols Glyph.isBreak (kernelLines fuel magic info) ≤ screenRows := by
    rw [rows_kernelLines]
    show 0 + _ ≤ _
    omega
  have hbetween := (Terminal.between_cleared hlength).printLines hrows
  rw [kernelMain_vga]
  exact hbetween.shows

theorem awaits_empty : (Paper.empty blank).Awaits blank :=
  ⟨rfl, fun _ _ _ => rfl⟩

/-- A line of `kernel_main` on the screen. -/
theorem kernelMain_line {info : MultibootInfo}
    {vga : List (BitVec 16)} (hlength : vga.length = screenRows * cols)
    {fuel : Nat} (hfits : info.rowsBefore fuel < screenRows)
    {magic : BitVec 32} {before after : List (List Glyph)} {line : List Glyph}
    (hlines : kernelLines fuel magic info = before ++ line :: after)
    {row col : Nat} (hrow : row ≤ ended cols Glyph.isBreak line)
    (hcol : col < cols) :
    (kernelMain fuel vga magic info).1.vga[
        (rows cols Glyph.isBreak before + row) * cols + col]? =
      some (lineCells line row col) := by
  have hheight := rows_kernelLines fuel magic info
  rw [hlines, rows_append, rows_cons] at hheight
  have hcell := (kernelMain_shows hlength hfits magic).cell_eq
    (rows cols Glyph.isBreak before + row) (by omega) col hcol
  have hline : ((Paper.empty blank).putLines cols Glyph.isBreak Glyph.cell
        (before ++ line :: after)).cells
          (0 + rows cols Glyph.isBreak before + row) col =
      lineCells line row col :=
    awaits_empty.line_cells before line after hrow col
  rw [hlines, Nat.zero_add] at hcell
  rw [Nat.zero_add] at hline
  exact hcell.trans (congrArg some hline)

/-- If the lines before the last one take less than 25 rows, then after
`kernel_main`, or at any time in its walk through the memory map, every line
printed so far stands on the screen: its rows are below the rows of the lines
before it, and each of their 80 cells is the one the line has there when it is
laid out alone.  The rows below the last line are blank. -/
theorem report_on_screen {info : MultibootInfo}
    {vga : List (BitVec 16)} (hlength : vga.length = 25 * 80) {fuel : Nat}
    (hfits : info.rowsBefore fuel < 25) (magic : BitVec 32) :
    (∀ before line after,
      kernelLines fuel magic info = before ++ line :: after →
      ∀ row ≤ ended cols Glyph.isBreak line, ∀ col < 80,
        (kernelMain fuel vga magic info).1.vga[
            (rows cols Glyph.isBreak before + row) * 80 + col]? =
          some (lineCells line row col)) ∧
    ∀ row < 25, info.rowsBefore fuel < row → ∀ col < 80,
      (kernelMain fuel vga magic info).1.vga[row * 80 + col]? = some blank := by
  constructor
  · intro before line after hlines row hrow col hcol
    exact kernelMain_line hlength hfits hlines hrow hcol
  · intro row hrow hbelow col hcol
    have hcell := (kernelMain_shows hlength hfits magic).cell_eq row hrow
      col hcol
    have hend : (Paper.putLines cols Glyph.isBreak Glyph.cell (Paper.empty blank)
        (kernelLines fuel magic info)).Awaits blank ∧ _ :=
      awaits_empty.putLines (kernelLines fuel magic info)
    rw [rows_kernelLines] at hend
    rw [Nat.zero_add] at hcell
    refine hcell.trans (congrArg some (hend.1.blank row ?_ col))
    rw [hend.2]
    show 0 + _ ≤ row
    omega

/-- Boot information without any of the optional parts. -/
def bareInfo : MultibootInfo :=
  { flags := 0
    memLower := 0
    memUpper := 0
    cmdline := []
    modsCount := 0
    mmapLength := 0
    mmapAddr := 0
    bootLoaderName := []
    mmapAt := fun _ => ⟨0, 0, 0, 0⟩ }

/-- The first digit of the magic number, and the row below `Halted.`. -/
theorem report_on_screen_bare :
    (kernelMain 0 (List.replicate 2000 0) multibootMagic bareInfo).1.vga[
        1 * 80 + 9]? = some 0x0A32 ∧
    (kernelMain 0 (List.replicate 2000 0) multibootMagic bareInfo).1.vga[
        3 * 80 + 0]? = some blank := by
  obtain ⟨hlines, hbelow⟩ := report_on_screen
    (show (List.replicate 2000 (0 : BitVec 16)).length = 25 * 80 from
      List.length_replicate) (show bareInfo.rowsBefore 0 < 25 by decide)
    multibootMagic
  refine ⟨?_, hbelow 3 (by decide) (by decide) 0 (by decide)⟩
  have hcell := hlines [titleLine] (magicLine multibootMagic) [haltedLine] rfl 0
    (Nat.zero_le _) 9 (by decide)
  rw [rows_titleLine, (magicLine_plain multibootMagic).lineCells (by decide)]
    at hcell
  refine hcell.trans (congrArg some ?_)
  decide +kernel

/-! ## Reading the number back -/

/-- The characters in a part of the screen. -/
def readCells (vga : List (BitVec 16)) (start n : Nat) : List (BitVec 8) :=
  (List.range n).map fun i => (vga.getD (start + i) 0).setWidth 8

/-- The digits of `print_hex`. -/
def hexDigits : List (BitVec 8) := ascii "0123456789ABCDEF"

/-- The number that digits stand for, the highest digit first. -/
def hexValue (text : List (BitVec 8)) : Nat :=
  text.foldl (fun value c => 16 * value + hexDigits.idxOf c) 0

/-- The sign of a character changes the attribute only. -/
theorem setWidth_cell (g : Glyph) : g.cell.setWidth 8 = g.1 := by
  obtain ⟨c, attr⟩ := g
  unfold Glyph.cell cell
  grind

/-- One digit of a number. -/
theorem nibble_eq (val : BitVec 32) (i : Nat) :
    ((val >>> (4 * i)) &&& 0xF).toNat = val.toNat / 16 ^ i % 16 := by
  rw [BitVec.toNat_and, BitVec.toNat_ushiftRight, Nat.shiftRight_eq_div_pow,
    Nat.pow_mul]
  exact Nat.and_two_pow_sub_one_eq_mod _ 4

theorem idxOf_hexDigits : ∀ n < 16, hexDigits.idxOf (hexDigits.getD n 0) = n := by
  decide

/-- The lowest digits of a number, below the digits read before them. -/
theorem foldl_hexDigits (val : BitVec 32) (n above : Nat) :
    ((List.range n).reverse.map fun i =>
        hexDigits.getD ((val >>> (4 * i)) &&& 0xF).toNat 0).foldl
      (fun value c => 16 * value + hexDigits.idxOf c) above =
    above * 16 ^ n + val.toNat % 16 ^ n := by
  induction n generalizing above with
  | zero => simp [Nat.mod_one]
  | succ n ih =>
      rw [List.range_succ, List.reverse_append, List.reverse_singleton,
        List.singleton_append, List.map_cons, List.foldl_cons, ih, nibble_eq,
        idxOf_hexDigits _ (Nat.mod_lt _ (by decide)), Nat.mod_pow_succ,
        Nat.pow_succ]
      ring

theorem hexText_eq (val : BitVec 32) :
    hexText val = ascii "0x" ++ (List.range 8).reverse.map fun i =>
      hexDigits.getD ((val >>> (4 * i)) &&& 0xF).toNat 0 := rfl

/-- The digits of `print_hex` are those of the number. -/
theorem hexValue_hexText (val : BitVec 32) :
    hexValue ((hexText val).drop 2) = val.toNat := by
  have hdrop : (hexText val).drop 2 = (List.range 8).reverse.map fun i =>
      hexDigits.getD ((val >>> (4 * i)) &&& 0xF).toNat 0 := rfl
  rw [hdrop, hexValue, foldl_hexDigits, Nat.zero_mul, Nat.zero_add]
  exact Nat.mod_eq_of_lt val.isLt

/-- No character of `print_hex` ends its string. -/
theorem glyphs_hexText (val : BitVec 32) (attr : BitVec 8) :
    glyphs (hexText val) attr = (hexText val).map fun c => (c, attr) := by
  have hdigit : ∀ n < 16, hexDigits.getD n 0 ≠ 0 := by decide
  have hall : ∀ c ∈ hexText val, (c != 0) = true := by
    rw [hexText_eq, List.forall_mem_append]
    refine ⟨by decide, fun c hc => ?_⟩
    obtain ⟨i, _, rfl⟩ := List.mem_map.mp hc
    refine bne_iff_ne.mpr (hdigit _ ?_)
    rw [nibble_eq]
    exact Nat.mod_lt _ (by decide)
  rw [glyphs, List.takeWhile_eq_self_iff.mpr hall]

/-- The verdict `kernel_main` prints behind the number. -/
def verdict (magic : BitVec 32) : List (BitVec 8) :=
  if magic = multibootMagic then ascii " (OK)" else ascii " (BAD!)"

/-- The middle part of a list, read by index. -/
theorem map_range_append (x y z : List (BitVec 8)) (other : BitVec 8) :
    ((List.range y.length).map fun i =>
      ((x ++ (y ++ z))[x.length + i]?).getD other) = y := by
  apply List.ext_getElem
  · simp
  · intro i _ hi
    rw [List.getElem_map, List.getElem_range,
      List.getElem?_append_right (Nat.le_add_right _ i),
      Nat.add_sub_cancel_left, List.getElem?_append_left hi,
      List.getElem?_eq_getElem hi, Option.getD_some]

/-- The characters of the line with the number. -/
theorem magicLine_chars (magic : BitVec 32) :
    (magicLine magic).map Prod.fst =
      ascii "Magic: " ++ hexText magic ++ verdict magic := by
  have hhex : (glyphs (hexText magic) green).map Prod.fst = hexText magic := by
    rw [glyphs_hexText, List.map_map]
    exact List.map_id _
  rw [magicLine, List.map_append, List.map_append, hhex, verdict]
  congr 1
  split
  · decide
  · decide

/-- A part of a one-row line on the screen. -/
theorem readCells_line {info : MultibootInfo}
    {vga : List (BitVec 16)} (hlength : vga.length = screenRows * cols)
    {fuel : Nat} (hfits : info.rowsBefore fuel < screenRows)
    {magic : BitVec 32} {before after : List (List Glyph)} {line : List Glyph}
    (hlines : kernelLines fuel magic info = before ++ line :: after)
    {length : Nat} (hplain : Plain length line) (hshort : length < cols)
    (col n : Nat) (hroom : col + n ≤ cols) :
    readCells (kernelMain fuel vga magic info).1.vga
        (rows cols Glyph.isBreak before * cols + col) n =
      (List.range n).map fun i =>
        (((line.map Prod.fst)[col + i]?).getD 32) := by
  refine List.map_congr_left fun i hi => ?_
  have hi := List.mem_range.mp hi
  have hcell := kernelMain_line hlength hfits hlines
    (Nat.zero_le (ended cols Glyph.isBreak line))
    (show col + i < cols by omega)
  rw [Nat.add_zero, hplain.lineCells hshort, ← Nat.add_assoc] at hcell
  rw [List.getD_eq_getElem?_getD, hcell, Option.getD_some, List.getElem?_map,
    List.getElem?_map]
  generalize (line)[col + i]? = glyph
  cases glyph with
  | none => rfl
  | some g => exact setWidth_cell g

/-- The digits and the verdict in the second row of the screen. -/
theorem magic_row {info : MultibootInfo}
    {vga : List (BitVec 16)} (hlength : vga.length = screenRows * cols)
    {fuel : Nat} (hfits : info.rowsBefore fuel < screenRows)
    (magic : BitVec 32) :
    readCells (kernelMain fuel vga magic info).1.vga (1 * cols + 9) 8 =
        (hexText magic).drop 2 ∧
      readCells (kernelMain fuel vga magic info).1.vga (1 * cols + 17)
        (verdict magic).length = verdict magic := by
  have hrest : ∃ after, kernelLines fuel magic info =
      [titleLine] ++ magicLine magic :: after := ⟨_, rfl⟩
  obtain ⟨after, hlines⟩ := hrest
  have hverdict : (verdict magic).length ≤ 7 := by
    unfold verdict
    split <;> decide
  have hread := readCells_line hlength hfits hlines
    (magicLine_plain magic) (by decide)
  simp only [rows_titleLine, magicLine_chars] at hread
  constructor
  · rw [hread 9 8 (by decide)]
    exact map_range_append (ascii "Magic: 0x") ((hexText magic).drop 2)
      (verdict magic) 32
  · rw [hread 17 _ (by unfold cols; omega)]
    have hmiddle := map_range_append (ascii "Magic: " ++ hexText magic)
      (verdict magic) [] 32
    rw [List.append_nil] at hmiddle
    exact hmiddle

end Multiboot
end OsKernel
