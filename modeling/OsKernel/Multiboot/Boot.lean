import OsKernel.Multiboot.MemoryMap
import OsKernel.Multiboot.Report

/-!
# From `_start` of `demos/multiboot/multiboot.S` to the screen

The boot loader leaves its magic number in `eax` and the address of the boot
information in `ebx`.  `_start` loads the segment registers through `ax`, which
overwrites the magic number, pushes `ebx` and calls `kernel_main`.  The called
function finds its arguments above the return address: the first one is what was
pushed last, `ebx`, and the second one is the word at the bottom of the stack,
which nobody has written.  `kernel_main` declares the magic number first and the
address second, so it takes the address for the magic number.

The instructions are those of the file, in a machine with the registers they
use.  What reading a port gives is open, and the writes to ports are recorded.
-/

namespace OsKernel
namespace Multiboot

/-! ## The machine -/

/-- The segment registers `_start` loads. -/
inductive Segment
  | ds | es | fs | gs | ss
  deriving DecidableEq, Repr

/-- The registers and the memory.  `interrupts` is the interrupt flag, and
`out` has the ports written so far with the values, latest last. -/
structure Cpu where
  eax : BitVec 32
  ebx : BitVec 32
  ebp : BitVec 32
  esp : BitVec 32
  segment : Segment → BitVec 16
  interrupts : Bool
  mem : BitVec 32 → BitVec 8
  out : List (BitVec 8 × BitVec 8)

/-- The instructions of `_start`.  The address behind a `call` is part of it. -/
inductive Instr
  /-- `movw $value, %ax`. -/
  | movwAx (value : BitVec 16)
  /-- `movw %ax, %segment`. -/
  | movwSegment (segment : Segment)
  /-- `movl $value, %ebp`. -/
  | movlEbp (value : BitVec 32)
  /-- `movl %ebp, %esp`. -/
  | movlEsp
  | cli
  /-- `inb $port, %al`. -/
  | inb (port : BitVec 8)
  /-- `orb $value, %al`. -/
  | orb (value : BitVec 8)
  /-- `outb %al, $port`. -/
  | outb (port : BitVec 8)
  /-- `pushl %ebx`. -/
  | pushlEbx
  | call (behind : BitVec 32)

/-- A 32-bit number stored in memory, the lowest byte first. -/
def store32 (mem : BitVec 32 → BitVec 8) (a value : BitVec 32) :
    BitVec 32 → BitVec 8 := fun b =>
  if b = a then value.extractLsb' 0 8
  else if b = a + 1 then value.extractLsb' 8 8
  else if b = a + 2 then value.extractLsb' 16 8
  else if b = a + 3 then value.extractLsb' 24 8
  else mem b

namespace Cpu

/-- `ax`. -/
def ax (cpu : Cpu) : BitVec 16 := cpu.eax.extractLsb' 0 16

/-- `al`. -/
def al (cpu : Cpu) : BitVec 8 := cpu.eax.extractLsb' 0 8

/-- A write to `ax` keeps the upper half of `eax`. -/
def setAx (cpu : Cpu) (value : BitVec 16) : Cpu :=
  { cpu with eax := cpu.eax.extractLsb' 16 16 ++ value }

/-- A write to `al` keeps the rest of `eax`. -/
def setAl (cpu : Cpu) (value : BitVec 8) : Cpu :=
  { cpu with eax := cpu.eax.extractLsb' 8 24 ++ value }

/-- Put a word on the stack. -/
def push (cpu : Cpu) (value : BitVec 32) : Cpu :=
  { cpu with
    esp := cpu.esp - 4
    mem := store32 cpu.mem (cpu.esp - 4) value }

/-- One instruction; reading a port gives what `ports` says. -/
def exec (ports : BitVec 8 → BitVec 8) (cpu : Cpu) : Instr → Cpu
  | .movwAx value => cpu.setAx value
  | .movwSegment segment =>
      { cpu with segment := Function.update cpu.segment segment cpu.ax }
  | .movlEbp value => { cpu with ebp := value }
  | .movlEsp => { cpu with esp := cpu.ebp }
  | .cli => { cpu with interrupts := false }
  | .inb port => cpu.setAl (ports port)
  | .orb value => cpu.setAl (cpu.al ||| value)
  | .outb port => { cpu with out := cpu.out ++ [(port, cpu.al)] }
  | .pushlEbx => cpu.push cpu.ebx
  | .call behind => cpu.push behind

/-- An argument of the function that was just called. -/
def arg (cpu : Cpu) (n : Nat) : BitVec 32 :=
  le32 cpu.mem (cpu.esp + BitVec.ofNat 32 (4 + 4 * n))

end Cpu

/-- `_start` up to the call of `kernel_main`. -/
def start (behind : BitVec 32) : List Instr :=
  [.movwAx 0x10, .movwSegment .ds, .movwSegment .es, .movwSegment .fs,
    .movwSegment .gs, .movwSegment .ss, .movlEbp 0x90000, .movlEsp, .cli,
    .inb 0x92, .orb 2, .outb 0x92, .pushlEbx, .call behind]

/-- The machine when `kernel_main` is entered. -/
def enterKernelMain (ports : BitVec 8 → BitVec 8) (behind : BitVec 32)
    (cpu : Cpu) : Cpu :=
  (start behind).foldl (Cpu.exec ports) cpu

/-! ## Words in memory -/

/-- A word is read back from where it was stored. -/
theorem le32_store32_self (mem : BitVec 32 → BitVec 8) (a value : BitVec 32) :
    le32 (store32 mem a value) a = value := by
  have h1 : a + 1 ≠ a := by bv_omega
  have h2 : a + 2 ≠ a ∧ a + 2 ≠ a + 1 := by constructor <;> bv_omega
  have h3 : a + 3 ≠ a ∧ a + 3 ≠ a + 1 ∧ a + 3 ≠ a + 2 := by
    refine ⟨?_, ?_, ?_⟩ <;> bv_omega
  simp only [le32, store32, h1, h2.1, h2.2, h3.1, h3.2.1, h3.2.2, if_true,
    if_false]
  grind

/-- A store leaves the other bytes alone. -/
theorem store32_of_outside {mem : BitVec 32 → BitVec 8} {a value b : BitVec 32}
    (hout : 4 ≤ (b - a).toNat) : store32 mem a value b = mem b := by
  have h0 : b ≠ a := by bv_omega
  have h1 : b ≠ a + 1 := by bv_omega
  have h2 : b ≠ a + 2 := by bv_omega
  have h3 : b ≠ a + 3 := by bv_omega
  simp only [store32, h0, h1, h2, h3, if_false]

/-- A store leaves the words alone that it does not meet. -/
theorem le32_store32_of_apart {mem : BitVec 32 → BitVec 8}
    {a value b : BitVec 32} (hlow : 4 ≤ (b - a).toNat)
    (hhigh : (b - a).toNat ≤ 2 ^ 32 - 4) :
    le32 (store32 mem a value) b = le32 mem b := by
  unfold le32
  rw [store32_of_outside (b := b) hlow, store32_of_outside (b := b + 1),
    store32_of_outside (b := b + 2), store32_of_outside (b := b + 3)]
  · bv_omega
  · bv_omega
  · bv_omega

/-! ## The call of `kernel_main` -/

/-- The machine when `kernel_main` is entered: the arguments, the registers set
up for it, the address line switched on, and the memory as it was apart from two
words of the stack. -/
structure Entered (ports : BitVec 8 → BitVec 8) (cpu entry : Cpu) : Prop where
  first : entry.arg 0 = cpu.ebx
  second : entry.arg 1 = le32 cpu.mem 0x90000
  segment : ∀ segment, entry.segment segment = 0x10
  esp : entry.esp = 0x8FFF8
  interrupts : entry.interrupts = false
  out : entry.out = cpu.out ++ [(0x92, ports 0x92 ||| 2)]
  mem : ∀ a, ¬ (0x8FFF8 ≤ a ∧ a < 0x90000) → entry.mem a = cpu.mem a

theorem extractLsb'_append_low {m n : Nat} (x : BitVec m) (y : BitVec n) :
    (x ++ y).extractLsb' 0 n = y := by
  grind

/-- `_start` instruction by instruction. -/
theorem enterKernelMain_eq (ports : BitVec 8 → BitVec 8) (behind : BitVec 32)
    (cpu : Cpu) :
    ∃ eax, enterKernelMain ports behind cpu =
      { eax := eax
        ebx := cpu.ebx
        ebp := 0x90000
        esp := 0x8FFF8
        segment := fun _ => 0x10
        interrupts := false
        mem := store32 (store32 cpu.mem 0x8FFFC cpu.ebx) 0x8FFF8 behind
        out := cpu.out ++ [(0x92, ports 0x92 ||| 2)] } := by
  have hsegment : ∀ value : BitVec 16,
      Function.update (Function.update (Function.update (Function.update
        (Function.update cpu.segment .ds value) .es value) .fs value) .gs value)
        .ss value = fun _ => value := by
    intro value
    funext segment
    cases segment <;> rfl
  have hpushed : (0x90000 : BitVec 32) - 4 = 0x8FFFC := by decide
  have hcalled : (0x8FFFC : BitVec 32) - 4 = 0x8FFF8 := by decide
  simp only [enterKernelMain, start, List.foldl_cons, List.foldl_nil, Cpu.exec,
    Cpu.setAx, Cpu.setAl, Cpu.push, Cpu.ax, Cpu.al, extractLsb'_append_low,
    hsegment, hpushed, hcalled]
  exact ⟨_, rfl⟩

theorem enterKernelMain_entered (ports : BitVec 8 → BitVec 8)
    (behind : BitVec 32) (cpu : Cpu) :
    Entered ports cpu (enterKernelMain ports behind cpu) := by
  obtain ⟨eax, hentry⟩ := enterKernelMain_eq ports behind cpu
  have hfirst : (0x8FFF8 : BitVec 32) + BitVec.ofNat 32 (4 + 4 * 0) = 0x8FFFC := by
    decide
  have hsecond : (0x8FFF8 : BitVec 32) + BitVec.ofNat 32 (4 + 4 * 1) = 0x90000 := by
    decide
  rw [hentry]
  refine ⟨?_, ?_, fun _ => rfl, rfl, rfl, rfl, fun a hout => ?_⟩
  · simp only [Cpu.arg, hfirst]
    rw [le32_store32_of_apart (by decide) (by decide), le32_store32_self]
  · simp only [Cpu.arg, hsecond]
    rw [le32_store32_of_apart (by decide) (by decide),
      le32_store32_of_apart (by decide) (by decide)]
  · have hcall : 4 ≤ (a - 0x8FFF8).toNat := by bv_omega
    have hpush : 4 ≤ (a - 0x8FFFC).toNat := by bv_omega
    exact (store32_of_outside hcall).trans (store32_of_outside hpush)

/-- Whatever the boot loader left in the registers and in memory, `kernel_main`
is entered with `ebx` as the magic number and the unwritten word at `0x90000` as
the address of the boot information.  If the report fits on the screen, the
number that can be read in its second row is `ebx`, and unless `ebx` happens to
be the magic number the verdict behind it is `(BAD!)`, also for a boot loader
that left the magic number in `eax`. -/
theorem boot_takes_address_for_magic (ports : BitVec 8 → BitVec 8)
    (behind : BitVec 32) (cpu : Cpu) (infoAt : BitVec 32 → MultibootInfo)
    {vga : List (BitVec 16)} (hlength : vga.length = 25 * 80) {fuel : Nat}
    (hfits : (infoAt (le32 cpu.mem 0x90000)).rowsBefore fuel < 25) :
    let entry := enterKernelMain ports behind cpu
    let screen :=
      (kernelMain fuel vga (entry.arg 0) (infoAt (entry.arg 1))).1.vga
    Entered ports cpu entry ∧
      hexValue (readCells screen (1 * 80 + 9) 8) = cpu.ebx.toNat ∧
      (cpu.ebx ≠ multibootMagic →
        readCells screen (1 * 80 + 17) 7 = ascii " (BAD!)") := by
  have hentered := enterKernelMain_entered ports behind cpu
  refine ⟨hentered, ?_⟩
  rw [hentered.first, hentered.second]
  obtain ⟨hdigits, hverdict⟩ := magic_row hlength hfits cpu.ebx
  constructor
  · have hvalue := hexValue_hexText cpu.ebx
    rw [← hdigits] at hvalue
    exact hvalue
  · intro hbad
    rw [verdict, if_neg hbad] at hverdict
    exact hverdict

/-- A boot loader that follows its protocol, with the boot information at
`0x10000`. -/
def booted : Cpu where
  eax := multibootMagic
  ebx := 0x10000
  ebp := 0
  esp := 0
  segment := fun _ => 0
  interrupts := false
  mem := fun _ => 0
  out := []

theorem boot_takes_address_for_magic_booted :
    hexValue (readCells (kernelMain 0 (List.replicate 2000 0)
      ((enterKernelMain (fun _ => 0) 0x100030 booted).arg 0) bareInfo).1.vga
      (1 * 80 + 9) 8) = 0x10000 ∧
    readCells (kernelMain 0 (List.replicate 2000 0)
      ((enterKernelMain (fun _ => 0) 0x100030 booted).arg 0) bareInfo).1.vga
      (1 * 80 + 17) 7 = ascii " (BAD!)" := by
  obtain ⟨-, hnumber, hverdict⟩ := boot_takes_address_for_magic (fun _ => 0)
    0x100030 booted (fun _ => bareInfo)
    (show (List.replicate 2000 (0 : BitVec 16)).length = 25 * 80 from
      List.length_replicate) (show bareInfo.rowsBefore 0 < 25 by decide)
  exact ⟨hnumber, hverdict (by decide)⟩

end Multiboot
end OsKernel
