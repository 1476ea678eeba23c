import OsKernel.Lib.TextLayout

/-!
# The VGA text screen of `demos/multiboot/main.c`

The screen is memory of 25 rows of 80 cells at `0xB8000`; the cursor is held by
the caller.  `vga_putchar` writes a cell, moves the cursor and scrolls when the
cursor has left the last row.  It does not look where the cursor was before it
wrote.

As long as the cursor is moved by `vga_putchar` alone it stays on the screen.
A caller that moves it to the next row by itself (`nextLine`) can put it below
the last row.  The next character then is written behind the screen, and the
screen scrolls afterwards (`Terminal.print_from_start`).
-/

namespace OsKernel
namespace Multiboot

open Lib.TextLayout

/-- `cols`. -/
def cols : Nat := 80

/-- The rows of the screen. -/
def screenRows : Nat := 25

/-- `'\n'`. -/
def newline : BitVec 8 := 10

/-- The bytes of a string constant. -/
def ascii (s : String) : List (BitVec 8) :=
  s.toList.map fun c => BitVec.ofNat 8 c.toNat

/-- `(attr << 8) | c`; `char` is signed. -/
def cell (attr c : BitVec 8) : BitVec 16 :=
  attr.zeroExtend 16 <<< 8 ||| c.signExtend 16

/-- `(7 << 8) | ' '`. -/
def blank : BitVec 16 := 0x0720

/-- The cursor and the video memory.  `written`, the indices of all cells
written so far, is a ghost.  A cell outside the memory is not kept. -/
structure Terminal where
  x : Nat
  y : Nat
  vga : List (BitVec 16)
  written : List Nat
  deriving DecidableEq, Repr

namespace Terminal

/-- `vga[index] = value`. -/
def write (t : Terminal) (index : Nat) (value : BitVec 16) : Terminal :=
  { t with
    vga := t.vga.set index value
    written := t.written ++ [index] }

@[simp] theorem write_x (t : Terminal) (index : Nat) (value : BitVec 16) :
    (t.write index value).x = t.x := rfl

/-- The loop that moves every row but the first one row up. -/
def moveUp (t : Terminal) : Terminal :=
  (List.range (24 * cols)).foldl
    (fun t i => t.write i (t.vga.getD (i + cols) 0)) t

/-- The loop that blanks the last row. -/
def blankLast (t : Terminal) : Terminal :=
  (List.range cols).foldl (fun t i => t.write (24 * cols + i) blank) t

/-- The first part of `vga_putchar`: write the character and move the cursor. -/
def place (t : Terminal) (c attr : BitVec 8) : Terminal :=
  if c = newline then { t with y := t.y + 1, x := 0 }
  else
    let t := t.write (t.y * cols + t.x) (cell attr c)
    let t := { t with x := t.x + 1 }
    if t.x ≥ cols then { t with x := 0, y := t.y + 1 } else t

/-- `vga_putchar`. -/
def vgaPutchar (t : Terminal) (c attr : BitVec 8) : Terminal :=
  let t := t.place c attr
  if t.y ≥ screenRows then { t.moveUp.blankLast with y := 24 } else t

/-- `print_str`; the string ends before its first NUL, at the latest with the
list. -/
def printStr (t : Terminal) (s : List (BitVec 8)) (attr : BitVec 8) :
    Terminal :=
  match s with
  | [] => t
  | c :: rest =>
      if c = 0 then t else (t.vgaPutchar c attr).printStr rest attr

/-- `y++; x = 0` in the caller. -/
def nextLine (t : Terminal) : Terminal :=
  { t with y := t.y + 1, x := 0 }

/-- The loop that clears the screen. -/
def clear (t : Terminal) : Terminal :=
  (List.range (cols * screenRows)).foldl (fun t i => t.write i blank) t

end Terminal

/-- The text `print_hex` builds in `buf`. -/
def hexText (val : BitVec 32) : List (BitVec 8) :=
  ascii "0x" ++ (List.range 8).reverse.map fun i =>
    (ascii "0123456789ABCDEF").getD ((val >>> (4 * i)) &&& 0xF).toNat 0

/-- `print_hex`. -/
def Terminal.printHex (t : Terminal) (val : BitVec 32) (attr : BitVec 8) :
    Terminal :=
  t.printStr (hexText val) attr

/-- The digits `print_int` puts in `buf`, the last digit first. -/
def intDigits (val : BitVec 32) : List (BitVec 8) :=
  (Nat.digits 10 val.toNat).map fun digit => BitVec.ofNat 8 (48 + digit)

/-- `print_int`. -/
def Terminal.printInt (t : Terminal) (val : BitVec 32) (attr : BitVec 8) :
    Terminal :=
  if val = 0 then t.vgaPutchar 48 attr
  else (intDigits val).reverse.foldl (fun t c => t.vgaPutchar c attr) t

/-! ## Printing as a sequence of characters -/

/-- A character and its attribute. -/
abbrev Glyph := BitVec 8 × BitVec 8

/-- The glyph ends its row. -/
def Glyph.isBreak (g : Glyph) : Bool := g.1 == newline

/-- Print glyphs one after the other. -/
def Terminal.print (t : Terminal) (text : List Glyph) : Terminal :=
  text.foldl (fun t g => t.vgaPutchar g.1 g.2) t

/-- The glyphs of a string: those before its first NUL. -/
def glyphs (s : List (BitVec 8)) (attr : BitVec 8) : List Glyph :=
  (s.takeWhile (· != 0)).map fun c => (c, attr)

/-- The text `print_int` prints. -/
def intText (val : BitVec 32) : List (BitVec 8) :=
  if val = 0 then [48] else (intDigits val).reverse

namespace Terminal

theorem print_append (t : Terminal) (text more : List Glyph) :
    t.print (text ++ more) = (t.print text).print more :=
  List.foldl_append

theorem printStr_eq (t : Terminal) (s : List (BitVec 8)) (attr : BitVec 8) :
    t.printStr s attr = t.print (glyphs s attr) := by
  induction s generalizing t with
  | nil => rfl
  | cons c rest ih =>
      by_cases hc : c = 0
      · simp [printStr, glyphs, print, hc]
      · rw [printStr, if_neg hc, ih, glyphs, glyphs,
          List.takeWhile_cons_of_pos (p := (· != 0)) (bne_iff_ne.mpr hc)]
        rfl

theorem printHex_eq (t : Terminal) (val : BitVec 32) (attr : BitVec 8) :
    t.printHex val attr = t.print (glyphs (hexText val) attr) :=
  t.printStr_eq _ _

theorem printInt_eq (t : Terminal) (val : BitVec 32) (attr : BitVec 8) :
    t.printInt val attr = t.print ((intText val).map fun c => (c, attr)) := by
  unfold printInt intText print
  split
  · rfl
  · rw [List.foldl_map]

/-! ## The cells that are written -/

/-- Every cell written so far is on the screen. -/
def InBounds (t : Terminal) : Prop :=
  ∀ index ∈ t.written, index < cols * screenRows

/-- Moving the cursor writes nothing. -/
theorem inBounds_move (t : Terminal) (x y : Nat) :
    InBounds { t with x := x, y := y } ↔ t.InBounds :=
  Iff.rfl

theorem inBounds_write (t : Terminal) (index : Nat) (value : BitVec 16) :
    (t.write index value).InBounds ↔
      t.InBounds ∧ index < cols * screenRows := by
  simp only [InBounds, write, List.mem_append, List.mem_singleton, or_imp,
    forall_and, forall_eq]

/-- A loop that writes cells of the screen. -/
theorem inBounds_foldl_write {indices : List Nat} {index : Nat → Nat}
    {value : Terminal → Nat → BitVec 16}
    (hindices : ∀ i ∈ indices, index i < cols * screenRows) (t : Terminal) :
    (indices.foldl (fun t i => t.write (index i) (value t i)) t).InBounds ↔
      t.InBounds := by
  induction indices generalizing t with
  | nil => rfl
  | cons i rest ih =>
      rw [List.foldl_cons, ih fun j hj => hindices j (List.mem_cons_of_mem i hj),
        inBounds_write]
      exact and_iff_left (hindices i List.mem_cons_self)

theorem inBounds_scroll (t : Terminal) :
    t.moveUp.blankLast.InBounds ↔ t.InBounds := by
  have hlast : ∀ i ∈ List.range cols, 24 * cols + i < cols * screenRows := by
    intro i hi
    have hlt := List.mem_range.mp hi
    unfold cols screenRows at *
    omega
  have hup : ∀ i ∈ List.range (24 * cols), i < cols * screenRows := by
    intro i hi
    have hlt := List.mem_range.mp hi
    unfold cols screenRows at *
    omega
  rw [blankLast, inBounds_foldl_write hlast, moveUp]
  exact inBounds_foldl_write hup t

theorem inBounds_clear (t : Terminal) : t.clear.InBounds ↔ t.InBounds :=
  inBounds_foldl_write (fun _ hi => List.mem_range.mp hi) t

/-! ## The cursor -/

/-- A loop that writes cells does not move the cursor. -/
theorem foldl_write_cursor {index : Nat → Nat}
    {value : Terminal → Nat → BitVec 16} (indices : List Nat) (t : Terminal) :
    (indices.foldl (fun t i => t.write (index i) (value t i)) t).x = t.x ∧
      (indices.foldl (fun t i => t.write (index i) (value t i)) t).y = t.y := by
  induction indices generalizing t with
  | nil => exact ⟨rfl, rfl⟩
  | cons i rest ih => exact ih (t.write (index i) (value t i))

theorem scroll_x (t : Terminal) : t.moveUp.blankLast.x = t.x := by
  have hup : t.moveUp.x = t.x :=
    (foldl_write_cursor (List.range (24 * cols)) t).1
  have hlast : t.moveUp.blankLast.x = t.moveUp.x :=
    (foldl_write_cursor (List.range cols) t.moveUp).1
  rw [hlast, hup]

theorem clear_start {t : Terminal} (hx : t.x = 0) (hy : t.y = 0) :
    t.clear.x = 0 ∧ t.clear.y = 0 := by
  have hclear : t.clear.x = t.x ∧ t.clear.y = t.y :=
    foldl_write_cursor (List.range (cols * screenRows)) t
  rw [hclear.1, hclear.2]
  exact ⟨hx, hy⟩

/-- `place` moves the cursor as in a text without bound, and writes the cell
the cursor was on. -/
theorem place_spec (t : Terminal) (g : Glyph) :
    (⟨(t.place g.1 g.2).y, (t.place g.1 g.2).x⟩ : Cursor) =
        put cols Glyph.isBreak ⟨t.y, t.x⟩ g ∧
      ((t.place g.1 g.2).InBounds ↔ t.InBounds ∧
        (g.isBreak = false → t.y * cols + t.x < cols * screenRows)) := by
  unfold place put
  by_cases hbreak : g.1 = newline
  · have htrue : g.isBreak = true := beq_iff_eq.mpr hbreak
    rw [if_pos hbreak, if_pos htrue, htrue]
    refine ⟨rfl, ?_⟩
    rw [inBounds_move]
    exact (and_iff_left fun hopen => absurd hopen (by decide)).symm
  · have hfalse : g.isBreak = false := beq_eq_false_iff_ne.mpr hbreak
    have hwrite := t.inBounds_write (t.y * cols + t.x) (cell g.2 g.1)
    simp only [if_neg hbreak, hfalse, Bool.false_eq_true, if_false,
      true_implies, ← hwrite, write_x, ge_iff_le]
    split
    · exact ⟨rfl, inBounds_move _ _ _⟩
    · exact ⟨rfl, inBounds_move _ _ _⟩

/-- `vga_putchar` brings the cursor back to the last row. -/
theorem vgaPutchar_spec (t : Terminal) (g : Glyph) :
    (t.vgaPutchar g.1 g.2).x =
        (put cols Glyph.isBreak ⟨t.y, t.x⟩ g).col ∧
      (t.vgaPutchar g.1 g.2).y =
        min 24 (put cols Glyph.isBreak ⟨t.y, t.x⟩ g).row ∧
      ((t.vgaPutchar g.1 g.2).InBounds ↔ t.InBounds ∧
        (g.isBreak = false → t.y * cols + t.x < cols * screenRows)) := by
  obtain ⟨hcursor, hbounds⟩ := t.place_spec g
  rw [← hcursor, ← hbounds]
  simp only [vgaPutchar]
  split
  next hscroll =>
    refine ⟨?_, ?_, (inBounds_move _ _ _).trans (inBounds_scroll _)⟩
    · simp only [scroll_x]
    · show 24 = min 24 (t.place g.1 g.2).y
      unfold screenRows at hscroll
      omega
  next hstay =>
    refine ⟨rfl, ?_, Iff.rfl⟩
    unfold screenRows at hstay
    omega

/-- The cursor is where the text without bound is, with all rows from the last
one on in the last row of the screen. -/
structure On (t : Terminal) (p : Cursor) : Prop where
  x : t.x = p.col
  col : p.col < cols
  y : t.y = min 24 p.row

/-- The cursor is at the start of a row that the caller has moved to. -/
structure Start (t : Terminal) (row : Nat) : Prop where
  x : t.x = 0
  y : t.y = min 25 row

theorem On.vgaPutchar {t : Terminal} {p : Cursor} (ht : t.On p) (g : Glyph) :
    (t.vgaPutchar g.1 g.2).On (put cols Glyph.isBreak p g) ∧
      ((t.vgaPutchar g.1 g.2).InBounds ↔ t.InBounds) := by
  obtain ⟨hx, hy, hbounds⟩ := t.vgaPutchar_spec g
  have hcol : 0 < cols := by decide
  have hput : (put cols Glyph.isBreak ⟨t.y, t.x⟩ g).col =
        (put cols Glyph.isBreak p g).col ∧
      min 24 (put cols Glyph.isBreak ⟨t.y, t.x⟩ g).row =
        min 24 (put cols Glyph.isBreak p g).row := by
    rw [ht.x, ht.y]
    unfold put
    split
    · exact ⟨rfl, by simp only; omega⟩
    · split
      · exact ⟨rfl, by simp only; omega⟩
      · exact ⟨rfl, by simp only; omega⟩
  refine ⟨⟨hx.trans hput.1, put_col_lt hcol p g, hy.trans hput.2⟩, ?_⟩
  rw [hbounds]
  refine and_iff_left fun _ => ?_
  have hlt := ht.col
  rw [ht.x, ht.y]
  unfold cols screenRows at *
  omega

/-- Text printed from a cursor on the screen stays on the screen. -/
theorem On.print {t : Terminal} {p : Cursor} (ht : t.On p)
    (text : List Glyph) :
    (t.print text).On (putAll cols Glyph.isBreak p text) ∧
      ((t.print text).InBounds ↔ t.InBounds) := by
  induction text generalizing t p with
  | nil => exact ⟨ht, Iff.rfl⟩
  | cons g rest ih =>
      obtain ⟨hnext, hbounds⟩ := ht.vgaPutchar g
      obtain ⟨hon, hrest⟩ := ih hnext
      exact ⟨hon, hrest.trans hbounds⟩

/-- The first glyph of the line is not a line break. -/
def Opens (line : List Glyph) : Prop :=
  ∃ g rest, line = g :: rest ∧ g.isBreak = false

/-- A line printed in a row that the caller has moved to writes only cells of
the screen exactly if that row is one of the first 25 rows of the text. -/
theorem Start.print {t : Terminal} {row : Nat} (ht : t.Start row)
    {line : List Glyph} (hline : Opens line) :
    (t.print line).On (putAll cols Glyph.isBreak ⟨row, 0⟩ line) ∧
      ((t.print line).InBounds ↔ t.InBounds ∧ row < screenRows) := by
  obtain ⟨g, rest, rfl, hopen⟩ := hline
  obtain ⟨hx, hy, hbounds⟩ := t.vgaPutchar_spec g
  have hput : ∀ row, put cols Glyph.isBreak ⟨row, 0⟩ g = ⟨row, 1⟩ := by
    intro row
    simp [put, hopen, cols]
  rw [ht.x, ht.y, hput] at hx hy
  have hfirst : (t.vgaPutchar g.1 g.2).On ⟨row, 1⟩ :=
    ⟨hx, show 1 < cols by decide, by rw [hy]; simp only; omega⟩
  obtain ⟨hon, hrest⟩ := hfirst.print rest
  refine ⟨?_, ?_⟩
  · show (_ : Terminal).On (putAll cols Glyph.isBreak (put _ _ _ g) rest)
    rw [hput]
    exact hon
  · refine hrest.trans (hbounds.trans (and_congr_right fun _ => ?_))
    rw [ht.x, ht.y]
    unfold cols screenRows
    constructor
    · intro hin
      have hlt := hin hopen
      omega
    · intro hlt _
      omega

theorem On.nextLine {t : Terminal} {p : Cursor} (ht : t.On p) :
    t.nextLine.Start (p.row + 1) where
  x := rfl
  y := by
    show t.y + 1 = min 25 (p.row + 1)
    rw [ht.y]
    omega

/-! ## Documents -/

/-- Print lines; the caller moves to the next row after each. -/
def printLines (t : Terminal) (lines : List (List Glyph)) : Terminal :=
  lines.foldl (fun t line => (t.print line).nextLine) t

@[simp] theorem printLines_nil (t : Terminal) : t.printLines [] = t := rfl

@[simp] theorem printLines_cons (t : Terminal) (line : List Glyph)
    (rest : List (List Glyph)) :
    t.printLines (line :: rest) = (t.print line).nextLine.printLines rest := rfl

@[simp] theorem printLines_append (t : Terminal) (lines more : List (List Glyph)) :
    t.printLines (lines ++ more) = (t.printLines lines).printLines more :=
  List.foldl_append

/-- All cells written by lines are on the screen exactly if every line begins
in one of the first 25 rows of the text. -/
theorem Start.printLines {t : Terminal} {row : Nat} (ht : t.Start row)
    {lines : List (List Glyph)} (hlines : ∀ line ∈ lines, Opens line) :
    (t.printLines lines).Start (row + rows cols Glyph.isBreak lines) ∧
      ((t.printLines lines).InBounds ↔ t.InBounds ∧
        StartBelow cols Glyph.isBreak screenRows row lines) := by
  induction lines generalizing t row with
  | nil => exact ⟨ht, (and_iff_left trivial).symm⟩
  | cons line rest ih =>
      obtain ⟨hon, hbounds⟩ := ht.print (hlines line List.mem_cons_self)
      have hnext := hon.nextLine
      rw [putAll_row, Nat.add_assoc] at hnext
      obtain ⟨hend, hrest⟩ :=
        ih hnext fun l hl => hlines l (List.mem_cons_of_mem line hl)
      refine ⟨?_, ?_⟩
      · rw [rows_cons, ← Nat.add_assoc]
        exact hend
      · rw [StartBelow, ← and_assoc, ← hbounds]
        exact hrest

end Terminal
end Multiboot
end OsKernel
