import OsKernel.Multiboot.Vga

/-!
# `kernel_main` of `demos/multiboot/main.c`

`kernel_main` prints what the boot loader passed, one line after the other, and
moves the cursor to the next row by itself after each line.  It does not scroll
then, so a line that begins after 25 rows are used is written behind the
screen.

The number of rows depends on the name of the boot loader and on the command
line, which are broken into rows where they have newlines or reach the last
column; every other line takes one row.  All cells written are on the screen
exactly if the lines before the last one take less than 25 rows
(`screen_in_bounds_iff`).

The boot information is what the pointers in it lead to: the two strings, and
the entry of the memory map at every address.  It is taken to be outside the
video memory.  The walk through the memory map need not end; `fuel` bounds the
number of its iterations, and with any bound the model has done what the code
has done by then.
-/

namespace OsKernel
namespace Multiboot

open Lib.TextLayout

/-- `struct multiboot_mmap_entry`. -/
structure MmapEntry where
  size : BitVec 32
  addr : BitVec 64
  len : BitVec 64
  type : BitVec 32
  deriving DecidableEq, Repr

/-- `struct multiboot_info`: the fields that are read, with the strings and the
entries at the addresses in place of pointers. -/
structure MultibootInfo where
  flags : BitVec 32
  memLower : BitVec 32
  memUpper : BitVec 32
  cmdline : List (BitVec 8)
  modsCount : BitVec 32
  mmapLength : BitVec 32
  mmapAddr : BitVec 32
  bootLoaderName : List (BitVec 8)
  mmapAt : BitVec 32 → MmapEntry

/-- `MULTIBOOT_MAGIC`. -/
def multibootMagic : BitVec 32 := 0x2BADB002

/-- `MB_FLAG_MEM`. -/
def mbFlagMem : BitVec 32 := 1 <<< 0

/-- `MB_FLAG_CMDLINE`. -/
def mbFlagCmdline : BitVec 32 := 1 <<< 2

/-- `MB_FLAG_MODS`. -/
def mbFlagMods : BitVec 32 := 1 <<< 3

/-- `MB_FLAG_MMAP`. -/
def mbFlagMmap : BitVec 32 := 1 <<< 6

/-- `MB_FLAG_LOADER`. -/
def mbFlagLoader : BitVec 32 := 1 <<< 9

/-- `MB_MEM_AVAILABLE`. -/
def mbMemAvailable : BitVec 32 := 1

/-- `title`. -/
def title : BitVec 8 := 0x0F

/-- `normal`. -/
def normal : BitVec 8 := 0x07

/-- `green`. -/
def green : BitVec 8 := 0x0A

/-- `yellow`. -/
def yellow : BitVec 8 := 0x0E

/-- `info->flags & flag`. -/
def MultibootInfo.has (info : MultibootInfo) (flag : BitVec 32) : Bool :=
  info.flags &&& flag != 0

/-- The line printed for an available entry of the memory map. -/
def Terminal.printMmapEntry (t : Terminal) (mmap : MmapEntry) : Terminal :=
  let t := t.printStr (ascii "  [FREE] ") green
  let t := t.printHex (mmap.addr.setWidth 32) yellow
  let t := t.printStr (ascii " - ") normal
  let t := t.printHex ((mmap.addr + mmap.len).setWidth 32) yellow
  let t := t.printStr (ascii " (") normal
  let t := t.printInt ((mmap.len / 1024 / 1024).setWidth 32) green
  let t := t.printStr (ascii " MB)") normal
  t.nextLine

/-- The condition of the loop over the memory map. -/
def MultibootInfo.walking (info : MultibootInfo) (mmap : BitVec 32)
    (count : Nat) : Bool :=
  mmap < info.mmapAddr + info.mmapLength && count < 4

/-- The address of the next entry. -/
def MultibootInfo.nextEntry (info : MultibootInfo) (mmap : BitVec 32) :
    BitVec 32 :=
  mmap + (info.mmapAt mmap).size + 4

/-- The loop over the memory map, for at most `fuel` iterations; also returns
whether it has ended. -/
def mmapLoop (info : MultibootInfo) :
    Nat → BitVec 32 → Nat → Terminal → Terminal × Bool
  | 0, mmap, count, t => (t, !info.walking mmap count)
  | fuel + 1, mmap, count, t =>
      if info.walking mmap count then
        let entry := info.mmapAt mmap
        if entry.type = mbMemAvailable then
          mmapLoop info fuel (info.nextEntry mmap) (count + 1)
            (t.printMmapEntry entry)
        else mmapLoop info fuel (info.nextEntry mmap) count t
      else (t, true)

/-- `kernel_main` up to the final `hlt`, with at most `fuel` iterations over
the memory map; also returns whether it gets to the `hlt`.  `vga` is what is on
the screen before. -/
def kernelMain (fuel : Nat) (vga : List (BitVec 16)) (magic : BitVec 32)
    (info : MultibootInfo) : Terminal × Bool :=
  let t : Terminal := { x := 0, y := 0, vga := vga, written := [] }
  let t := t.clear
  let t := t.printStr (ascii "=== Multiboot Kernel Demo ===") title
  let t := t.nextLine
  let t := t.printStr (ascii "Magic: ") normal
  let t := t.printHex magic green
  let t := t.printStr
    (if magic = multibootMagic then ascii " (OK)" else ascii " (BAD!)")
    (if magic = multibootMagic then green else 0x0C)
  let t := t.nextLine
  let t :=
    if info.has mbFlagLoader then
      let t := t.printStr (ascii "Loader: ") normal
      let t := t.printStr info.bootLoaderName green
      t.nextLine
    else t
  let t :=
    if info.has mbFlagCmdline then
      let t := t.printStr (ascii "Cmdline: ") normal
      let t := t.printStr info.cmdline yellow
      t.nextLine
    else t
  let t :=
    if info.has mbFlagMem then
      let t := t.printStr (ascii "Low mem: ") normal
      let t := t.printInt info.memLower green
      let t := t.printStr (ascii " KB  High: ") normal
      let t := t.printInt info.memUpper green
      let t := t.printStr (ascii " KB") normal
      t.nextLine
    else t
  let (t, ended) :=
    if info.has mbFlagMmap then
      let t := t.printStr (ascii "Memory map:") normal
      let t := t.nextLine
      mmapLoop info fuel info.mmapAddr 0 t
    else (t, true)
  if ended then
    let t :=
      if info.has mbFlagMods then
        let t := t.printStr (ascii "Modules: ") normal
        let t := t.printInt info.modsCount green
        t.nextLine
      else t
    (t.printStr (ascii "Halted.") normal, true)
  else (t, false)

/-! ## The lines that are printed -/

/-- The glyphs of a number printed by `print_int`. -/
def intGlyphs (val : BitVec 32) (attr : BitVec 8) : List Glyph :=
  (intText val).map fun c => (c, attr)

def titleLine : List Glyph := glyphs (ascii "=== Multiboot Kernel Demo ===") title

def magicLine (magic : BitVec 32) : List Glyph :=
  glyphs (ascii "Magic: ") normal ++ glyphs (hexText magic) green ++
    glyphs (if magic = multibootMagic then ascii " (OK)" else ascii " (BAD!)")
      (if magic = multibootMagic then green else 0x0C)

def loaderLine (info : MultibootInfo) : List Glyph :=
  glyphs (ascii "Loader: ") normal ++ glyphs info.bootLoaderName green

def cmdlineLine (info : MultibootInfo) : List Glyph :=
  glyphs (ascii "Cmdline: ") normal ++ glyphs info.cmdline yellow

def memLine (info : MultibootInfo) : List Glyph :=
  glyphs (ascii "Low mem: ") normal ++ intGlyphs info.memLower green ++
    glyphs (ascii " KB  High: ") normal ++ intGlyphs info.memUpper green ++
    glyphs (ascii " KB") normal

def mmapHeader : List Glyph := glyphs (ascii "Memory map:") normal

def mmapLine (mmap : MmapEntry) : List Glyph :=
  glyphs (ascii "  [FREE] ") green ++
    glyphs (hexText (mmap.addr.setWidth 32)) yellow ++
    glyphs (ascii " - ") normal ++
    glyphs (hexText ((mmap.addr + mmap.len).setWidth 32)) yellow ++
    glyphs (ascii " (") normal ++
    intGlyphs ((mmap.len / 1024 / 1024).setWidth 32) green ++
    glyphs (ascii " MB)") normal

def modsLine (info : MultibootInfo) : List Glyph :=
  glyphs (ascii "Modules: ") normal ++ intGlyphs info.modsCount green

def haltedLine : List Glyph := glyphs (ascii "Halted.") normal

/-- The available entries among the first `fuel` entries of the memory map that
the loop visits, and whether the loop has ended. -/
def mmapWalk (info : MultibootInfo) :
    Nat → BitVec 32 → Nat → List MmapEntry × Bool
  | 0, mmap, count => ([], !info.walking mmap count)
  | fuel + 1, mmap, count =>
      if info.walking mmap count then
        let entry := info.mmapAt mmap
        if entry.type = mbMemAvailable then
          let (entries, ended) :=
            mmapWalk info fuel (info.nextEntry mmap) (count + 1)
          (entry :: entries, ended)
        else mmapWalk info fuel (info.nextEntry mmap) count
      else ([], true)

theorem Terminal.printMmapEntry_eq (t : Terminal) (mmap : MmapEntry) :
    t.printMmapEntry mmap = (t.print (mmapLine mmap)).nextLine := by
  simp only [printMmapEntry, mmapLine, intGlyphs, print_append, printStr_eq,
    printHex_eq, printInt_eq]

theorem mmapLoop_eq (info : MultibootInfo) (fuel : Nat) (mmap : BitVec 32)
    (count : Nat) (t : Terminal) :
    mmapLoop info fuel mmap count t =
      (t.printLines ((mmapWalk info fuel mmap count).1.map mmapLine),
        (mmapWalk info fuel mmap count).2) := by
  induction fuel generalizing mmap count t with
  | zero => rfl
  | succ fuel ih =>
      simp only [mmapLoop, mmapWalk]
      split
      · split
        · rw [ih, Terminal.printMmapEntry_eq]
          rfl
        · rw [ih]
      · rfl

/-- A line that is printed if the flag is set. -/
def MultibootInfo.lineIf (info : MultibootInfo) (flag : BitVec 32)
    (line : List Glyph) : List (List Glyph) :=
  if info.has flag then [line] else []

/-- The lines before the memory map. -/
def openingLines (magic : BitVec 32) (info : MultibootInfo) :
    List (List Glyph) :=
  [titleLine, magicLine magic] ++ info.lineIf mbFlagLoader (loaderLine info) ++
    info.lineIf mbFlagCmdline (cmdlineLine info) ++
    info.lineIf mbFlagMem (memLine info)

/-- What the walk through the memory map finds, if there is one. -/
def MultibootInfo.walk (info : MultibootInfo) (fuel : Nat) :
    List MmapEntry × Bool :=
  if info.has mbFlagMmap then mmapWalk info fuel info.mmapAddr 0
  else ([], true)

/-- The lines up to the memory map. -/
def linesToMmap (fuel : Nat) (magic : BitVec 32) (info : MultibootInfo) :
    List (List Glyph) :=
  openingLines magic info ++ info.lineIf mbFlagMmap mmapHeader ++
    (info.walk fuel).1.map mmapLine

/-- All lines. -/
def kernelLines (fuel : Nat) (magic : BitVec 32) (info : MultibootInfo) :
    List (List Glyph) :=
  linesToMmap fuel magic info ++
    if (info.walk fuel).2 then
      info.lineIf mbFlagMods (modsLine info) ++ [haltedLine]
    else []

/-- The cleared screen. -/
def cleared (vga : List (BitVec 16)) : Terminal :=
  Terminal.clear { x := 0, y := 0, vga := vga, written := [] }

theorem Terminal.printLines_lineIf (t : Terminal) (info : MultibootInfo)
    (flag : BitVec 32) (line : List Glyph) :
    t.printLines (info.lineIf flag line) =
      if info.has flag then (t.print line).nextLine else t := by
  unfold MultibootInfo.lineIf
  split <;> rfl

/-- `kernel_main` prints its lines; it does not move the cursor after the last
one. -/
theorem kernelMain_eq (fuel : Nat) (vga : List (BitVec 16))
    (magic : BitVec 32) (info : MultibootInfo) :
    kernelMain fuel vga magic info =
      if (info.walk fuel).2 then
        (((cleared vga).printLines (linesToMmap fuel magic info ++
          info.lineIf mbFlagMods (modsLine info))).print haltedLine, true)
      else ((cleared vga).printLines (linesToMmap fuel magic info), false) := by
  -- Every print function is `print` of its glyphs.
  simp only [kernelMain, Terminal.printStr_eq, Terminal.printHex_eq,
    Terminal.printInt_eq, mmapLoop_eq]
  simp only [linesToMmap, openingLines, Terminal.printLines_append,
    Terminal.printLines_cons, Terminal.printLines_nil,
    Terminal.printLines_lineIf, titleLine, magicLine, loaderLine, cmdlineLine,
    memLine, mmapHeader, modsLine, haltedLine, intGlyphs,
    Terminal.print_append, MultibootInfo.walk, cleared]
  cases info.has mbFlagMmap with
  | false => rfl
  | true => rfl

/-! ## The rows that the lines take -/

/-- The text has no line break and at most the given length. -/
def Plain (length : Nat) (text : List Glyph) : Prop :=
  text.length ≤ length ∧ ∀ g ∈ text, g.isBreak = false

theorem Plain.append {m n : Nat} {text more : List Glyph} (h : Plain m text)
    (hmore : Plain n more) : Plain (m + n) (text ++ more) := by
  constructor
  · rw [List.length_append]
    exact Nat.add_le_add h.1 hmore.1
  · intro g hg
    rcases List.mem_append.mp hg with hleft | hright
    · exact h.2 g hleft
    · exact hmore.2 g hright

theorem plain_map {s : List (BitVec 8)} (hs : newline ∉ s)
    (attr : BitVec 8) : Plain s.length (s.map fun c => (c, attr)) := by
  constructor
  · rw [List.length_map]
  · intro g hg
    obtain ⟨c, hc, rfl⟩ := List.mem_map.mp hg
    exact beq_eq_false_iff_ne.mpr (ne_of_mem_of_not_mem hc hs)

theorem plain_glyphs {s : List (BitVec 8)} (hs : newline ∉ s)
    (attr : BitVec 8) : Plain s.length (glyphs s attr) := by
  have hstart := List.takeWhile_prefix (l := s) (p := (· != 0))
  have hplain := plain_map (fun hmem => hs (hstart.subset hmem)) attr
  exact ⟨hplain.1.trans hstart.length_le, hplain.2⟩

theorem plain_hex (val : BitVec 32) (attr : BitVec 8) :
    Plain 10 (glyphs (hexText val) attr) := by
  have hdigit : ∀ n < 16, (ascii "0123456789ABCDEF").getD n 0 ≠ newline := by
    decide
  refine plain_glyphs (s := hexText val) ?_ attr
  intro hmem
  rcases List.mem_append.mp hmem with hstart | hrest
  · exact absurd hstart (by decide)
  · obtain ⟨i, _, hi⟩ := List.mem_map.mp hrest
    refine hdigit _ ?_ hi
    rw [BitVec.toNat_and]
    exact Nat.lt_succ_of_le Nat.and_le_right

theorem intText_length_le (val : BitVec 32) : (intText val).length ≤ 10 := by
  unfold intText
  split
  · decide
  · rw [List.length_reverse, intDigits, List.length_map,
      Nat.digits_length_le_iff (by decide)]
    have hlt := val.isLt
    omega

theorem plain_int (val : BitVec 32) (attr : BitVec 8) :
    Plain 10 (intGlyphs val attr) := by
  have hdigit : ∀ n < 10, BitVec.ofNat 8 (48 + n) ≠ newline := by
    decide
  have hplain : Plain (intText val).length (intGlyphs val attr) := by
    refine plain_map (fun hmem => ?_) attr
    unfold intText at hmem
    split at hmem
    · exact absurd hmem (by decide)
    · rw [List.mem_reverse] at hmem
      obtain ⟨digit, hin, hbyte⟩ := List.mem_map.mp hmem
      exact hdigit digit (Nat.digits_lt_base (by decide) hin) hbyte
  exact ⟨hplain.1.trans (intText_length_le val), hplain.2⟩

theorem Plain.ended {n : Nat} {line : List Glyph} (h : Plain n line)
    (hn : n < cols) : ended cols Glyph.isBreak line = 0 :=
  ended_of_short h.2 (lt_of_le_of_lt h.1 hn)

/-- A string without line breaks that fits in one row. -/
theorem ended_glyphs {s : List (BitVec 8)} (hs : newline ∉ s)
    (hshort : s.length < cols) (attr : BitVec 8) :
    ended cols Glyph.isBreak (glyphs s attr) = 0 :=
  (plain_glyphs hs attr).ended hshort

/-- The line with the magic number fits in one row. -/
theorem magicLine_plain (magic : BitVec 32) : Plain 24 (magicLine magic) := by
  have hstart := plain_glyphs (s := ascii "Magic: ") (by decide) normal
  have hend : Plain 7 (glyphs
      (if magic = multibootMagic then ascii " (OK)" else ascii " (BAD!)")
      (if magic = multibootMagic then green else 0x0C)) := by
    split
    · have hok := plain_glyphs (s := ascii " (OK)") (by decide) green
      exact ⟨hok.1.trans (by decide), hok.2⟩
    · exact plain_glyphs (s := ascii " (BAD!)") (by decide) 0x0C
  exact (hstart.append (plain_hex magic green)).append hend

theorem magicLine_ended (magic : BitVec 32) :
    ended cols Glyph.isBreak (magicLine magic) = 0 :=
  (magicLine_plain magic).ended (by decide)

theorem memLine_ended (info : MultibootInfo) :
    ended cols Glyph.isBreak (memLine info) = 0 := by
  have hlow := plain_glyphs (s := ascii "Low mem: ") (by decide) normal
  have hhigh := plain_glyphs (s := ascii " KB  High: ") (by decide) normal
  have hend := plain_glyphs (s := ascii " KB") (by decide) normal
  exact ((((hlow.append (plain_int info.memLower green)).append hhigh).append
    (plain_int info.memUpper green)).append hend).ended (by decide)

theorem mmapLine_ended (mmap : MmapEntry) :
    ended cols Glyph.isBreak (mmapLine mmap) = 0 := by
  have hfree := plain_glyphs (s := ascii "  [FREE] ") (by decide) green
  have hto := plain_glyphs (s := ascii " - ") (by decide) normal
  have hopen := plain_glyphs (s := ascii " (") (by decide) normal
  have hend := plain_glyphs (s := ascii " MB)") (by decide) normal
  exact ((((((hfree.append (plain_hex _ yellow)).append hto).append
    (plain_hex _ yellow)).append hopen).append (plain_int _ green)).append
    hend).ended (by decide)

/-- The rows of a line that is printed if the flag is set. -/
def MultibootInfo.rowsIf (info : MultibootInfo) (flag : BitVec 32)
    (line : List Glyph) : Nat :=
  if info.has flag then ended cols Glyph.isBreak line + 1 else 0

@[simp] theorem rows_lineIf (info : MultibootInfo) (flag : BitVec 32)
    (line : List Glyph) :
    rows cols Glyph.isBreak (info.lineIf flag line) = info.rowsIf flag line := by
  unfold MultibootInfo.lineIf MultibootInfo.rowsIf
  split <;> simp

/-- The rows of the lines before the memory map: two for the title and the
magic number, those of the two strings, and one for the memory sizes. -/
def MultibootInfo.openingRows (info : MultibootInfo) : Nat :=
  2 + info.rowsIf mbFlagLoader (loaderLine info) +
    info.rowsIf mbFlagCmdline (cmdlineLine info) +
    (if info.has mbFlagMem then 1 else 0)

/-- The rows of the lines before the last one that is printed: `Halted.`, or
while the walk through the memory map has not ended the line of the last
available entry, or else the header. -/
def MultibootInfo.rowsBefore (info : MultibootInfo) (fuel : Nat) : Nat :=
  let (entries, ended) := info.walk fuel
  if ended then
    info.openingRows + (if info.has mbFlagMmap then 1 else 0) +
      entries.length + (if info.has mbFlagMods then 1 else 0)
  else info.openingRows + entries.length

theorem rows_openingLines (magic : BitVec 32) (info : MultibootInfo) :
    rows cols Glyph.isBreak (openingLines magic info) = info.openingRows := by
  simp (disch := decide) only [openingLines, rows_append, rows_cons, rows_nil,
    rows_lineIf, titleLine, ended_glyphs, magicLine_ended,
    MultibootInfo.openingRows]
  rw [MultibootInfo.rowsIf.eq_def info mbFlagMem, memLine_ended]

theorem rows_mmapLines (entries : List MmapEntry) :
    rows cols Glyph.isBreak (entries.map mmapLine) = entries.length := by
  induction entries with
  | nil => rfl
  | cons entry rest ih =>
      rw [List.map_cons, rows_cons, mmapLine_ended, ih, List.length_cons,
        Nat.zero_add, Nat.add_comm]

/-! ## The cells written by `kernel_main` -/

theorem opens_lineIf {info : MultibootInfo} {flag : BitVec 32}
    {line : List Glyph} (hline : Terminal.Opens line) :
    ∀ l ∈ info.lineIf flag line, Terminal.Opens l := by
  intro l hl
  unfold MultibootInfo.lineIf at hl
  split at hl
  · rw [List.mem_singleton.mp hl]
    exact hline
  · exact absurd hl List.not_mem_nil

/-- All lines of the kernel begin with a glyph that is not a line break. -/
theorem kernelLines_open (fuel : Nat) (magic : BitVec 32)
    (info : MultibootInfo) :
    ∀ line ∈ kernelLines fuel magic info, Terminal.Opens line := by
  have htitle : Terminal.Opens titleLine := ⟨_, _, rfl, rfl⟩
  have hmagic : Terminal.Opens (magicLine magic) := ⟨_, _, rfl, rfl⟩
  have hloader : Terminal.Opens (loaderLine info) := ⟨_, _, rfl, rfl⟩
  have hcmdline : Terminal.Opens (cmdlineLine info) := ⟨_, _, rfl, rfl⟩
  have hmem : Terminal.Opens (memLine info) := ⟨_, _, rfl, rfl⟩
  have hheader : Terminal.Opens mmapHeader := ⟨_, _, rfl, rfl⟩
  have hmmap : ∀ mmap, Terminal.Opens (mmapLine mmap) :=
    fun mmap => ⟨_, _, rfl, rfl⟩
  have hmods : Terminal.Opens (modsLine info) := ⟨_, _, rfl, rfl⟩
  have hhalted : Terminal.Opens haltedLine := ⟨_, _, rfl, rfl⟩
  simp only [kernelLines, linesToMmap, openingLines, List.forall_mem_append,
    List.forall_mem_cons, List.forall_mem_map]
  refine ⟨⟨⟨⟨⟨⟨⟨htitle, hmagic, by simp⟩, opens_lineIf hloader⟩,
    opens_lineIf hcmdline⟩, opens_lineIf hmem⟩, opens_lineIf hheader⟩,
    fun mmap _ => hmmap mmap⟩, ?_⟩
  split
  · rw [List.forall_mem_append, List.forall_mem_singleton]
    exact ⟨opens_lineIf hmods, hhalted⟩
  · simp

theorem cleared_start (vga : List (BitVec 16)) :
    (cleared vga).Start 0 ∧ (cleared vga).InBounds := by
  obtain ⟨hx, hy⟩ := Terminal.clear_start
    (t := { x := 0, y := 0, vga := vga, written := [] }) rfl rfl
  refine ⟨⟨hx, hy⟩, ?_⟩
  unfold cleared
  rw [Terminal.inBounds_clear]
  intro index hindex
  exact absurd hindex List.not_mem_nil

/-- The last of the lines takes one row; the rows of those before it. -/
theorem kernelLines_eq_append (fuel : Nat) (magic : BitVec 32)
    (info : MultibootInfo) :
    ∃ lines last, kernelLines fuel magic info = lines ++ [last] ∧
      rows cols Glyph.isBreak lines = info.rowsBefore fuel ∧
      ended cols Glyph.isBreak last = 0 := by
  have hheader : ended cols Glyph.isBreak mmapHeader = 0 :=
    ended_glyphs (by decide) (by decide) normal
  unfold kernelLines linesToMmap MultibootInfo.rowsBefore
  generalize hwalk : info.walk fuel = walk
  obtain ⟨entries, ended⟩ := walk
  cases ended with
  | true =>
      refine ⟨_, haltedLine, (List.append_assoc _ _ _).symm, ?_,
        ended_glyphs (by decide) (by decide) normal⟩
      have hmods : ended cols Glyph.isBreak (modsLine info) = 0 :=
        ((plain_glyphs (by decide) normal).append
          (plain_int info.modsCount green)).ended (by decide)
      simp only [rows_append, rows_openingLines, rows_lineIf, rows_mmapLines,
        MultibootInfo.rowsIf, hheader, hmods, if_true]
  | false =>
      have hmmap : info.has mbFlagMmap = true := by
        by_contra hnot
        rw [MultibootInfo.walk, if_neg hnot] at hwalk
        cases hwalk
      simp only [MultibootInfo.lineIf, hmmap, if_true, Bool.false_eq_true,
        if_false, List.append_nil]
      rcases List.eq_nil_or_concat entries with rfl | ⟨init, e, rfl⟩
      · -- no entry so far: the header is the last line
        refine ⟨openingLines magic info, mmapHeader, List.append_nil _, ?_,
          hheader⟩
        rw [rows_openingLines]
        rfl
      · refine ⟨openingLines magic info ++ [mmapHeader] ++ init.map mmapLine,
          mmapLine e, ?_, ?_, mmapLine_ended e⟩
        · simp
        · simp only [rows_append, rows_openingLines, rows_cons, rows_nil,
            hheader, rows_mmapLines, List.concat_eq_append,
            List.length_append, List.length_singleton]
          omega

/-- Every cell `kernel_main` has written is on the screen exactly if every line
begins in one of the first 25 rows. -/
theorem kernelMain_inBounds_iff (fuel : Nat) (vga : List (BitVec 16))
    (magic : BitVec 32) (info : MultibootInfo) :
    (kernelMain fuel vga magic info).1.InBounds ↔
      StartBelow cols Glyph.isBreak screenRows 0
        (kernelLines fuel magic info) := by
  obtain ⟨hstart, hcleared⟩ := cleared_start vga
  -- the cursor move after the last line writes nothing
  have hprint : (kernelMain fuel vga magic info).1.InBounds ↔
      ((cleared vga).printLines (kernelLines fuel magic info)).InBounds := by
    rw [kernelMain_eq, kernelLines]
    cases (info.walk fuel).2 with
    | true =>
        simp only [if_true, ← List.append_assoc, Terminal.printLines_append,
          Terminal.printLines_cons, Terminal.printLines_nil]
        exact (Terminal.inBounds_move _ _ _).symm
    | false => simp
  rw [hprint, (hstart.printLines (kernelLines_open fuel magic info)).2]
  exact and_iff_right hcleared

/-- For every boot information and any number of iterations of the walk
through the memory map: every cell `kernel_main` has written is on the screen
exactly if the lines before the last one take less than 25 rows. -/
theorem screen_in_bounds_iff (fuel : Nat) (vga : List (BitVec 16))
    (magic : BitVec 32) (info : MultibootInfo) :
    (∀ index ∈ (kernelMain fuel vga magic info).1.written, index < 80 * 25) ↔
      info.rowsBefore fuel < 25 := by
  obtain ⟨lines, last, hlines, hrows, _⟩ := kernelLines_eq_append fuel magic info
  have hbounds := kernelMain_inBounds_iff fuel vga magic info
  rw [hlines, startBelow_append_singleton, Nat.zero_add, hrows] at hbounds
  exact hbounds

/-- Boot information with the name of the boot loader only, which is 22
newlines. -/
def manyNewlines : MultibootInfo :=
  { flags := mbFlagLoader
    memLower := 0
    memUpper := 0
    cmdline := []
    modsCount := 0
    mmapLength := 0
    mmapAddr := 0
    bootLoaderName := List.replicate 22 newline
    mmapAt := fun _ => ⟨0, 0, 0, 0⟩ }

/-- The lines before `Halted.` take all 25 rows, and its first letter is
written behind the screen. -/
theorem screen_overrun :
    ∃ index ∈ (kernelMain 0 (List.replicate 2000 blank) multibootMagic
      manyNewlines).1.written, 80 * 25 ≤ index := by
  by_contra hnone
  obtain ⟨lines, last, hlines, hrows, _⟩ :=
    kernelLines_eq_append 0 multibootMagic manyNewlines
  have hbelow := (kernelMain_inBounds_iff 0 (List.replicate 2000 blank)
    multibootMagic manyNewlines).mp fun index hindex =>
      Nat.lt_of_not_le fun hle => hnone ⟨index, hindex, hle⟩
  rw [hlines, startBelow_append_singleton, hrows] at hbelow
  exact absurd hbelow (by decide)

end Multiboot
end OsKernel
