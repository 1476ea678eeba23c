import Mathlib.Logic.Function.Basic

/-!
# A heap of blocks

Blocks are allocated at addresses that were never used before; a pointer is an
address or null.  A block is reallocated in place or by a move, after which its
old address is free.  Reallocation can also return null, with the old block kept,
or freed as for a new size of zero.  Whoever else holds the address of a block
that was freed has nothing.
-/

namespace OsKernel
namespace Lib

universe u

/-- The contents of the blocks that are allocated, and the next address. -/
structure BlockHeap (β : Type u) where
  block : Nat → Option β
  next : Nat

/-- What a reallocation does. -/
inductive Realloc
  | inPlace
  | moved
  | freed
  | failed
  deriving DecidableEq, Repr

/-- The reallocation returns a block. -/
def Realloc.Returns : Realloc → Prop
  | .inPlace => True
  | .moved => True
  | .freed => False
  | .failed => False

namespace BlockHeap

variable {β : Type u}

/-- No block yet. -/
def empty : BlockHeap β := ⟨fun _ => none, 0⟩

/-- A new block, at address `h.next`. -/
def alloc (h : BlockHeap β) (x : β) : BlockHeap β where
  block := Function.update h.block h.next (some x)
  next := h.next + 1

/-- The heap without the block of a pointer. -/
def free (h : BlockHeap β) : Option Nat → BlockHeap β
  | none => h
  | some a => ⟨Function.update h.block a none, h.next⟩

/-- Reallocate the block of a pointer with new contents; the pointer afterwards.
For a null pointer it is an allocation. -/
def realloc (h : BlockHeap β) (a : Option Nat) (x : β) :
    Realloc → BlockHeap β × Option Nat
  | .inPlace =>
      match a with
      | some b => (⟨Function.update h.block b (some x), h.next⟩, some b)
      | none => (h.alloc x, some h.next)
  | .moved => ((h.free a).alloc x, some h.next)
  | .freed => (h.free a, none)
  | .failed => (h, none)

variable {h : BlockHeap β} {a : Option Nat} {b : Nat} {x : β}

theorem block_alloc_self : (h.alloc x).block h.next = some x :=
  Function.update_self ..

theorem block_alloc_of_lt (hb : b < h.next) :
    (h.alloc x).block b = h.block b :=
  Function.update_of_ne (Nat.ne_of_lt hb) ..

theorem next_free (h : BlockHeap β) (a : Option Nat) :
    (h.free a).next = h.next := by
  cases a <;> rfl

theorem block_free_of_ne (hne : a ≠ some b) : (h.free a).block b = h.block b := by
  cases a with
  | none => rfl
  | some c => exact Function.update_of_ne (fun heq => hne (congrArg some heq.symm)) ..

/-- The pointer returned is one to the new contents. -/
theorem block_realloc_self {r : Realloc} {c : Nat}
    (hc : (h.realloc a x r).2 = some c) :
    (h.realloc a x r).1.block c = some x := by
  cases r with
  | inPlace =>
      cases a with
      | none =>
          cases hc
          exact block_alloc_self
      | some b =>
          cases hc
          exact Function.update_self ..
  | moved =>
      cases hc
      have hself := block_alloc_self (h := h.free a) (x := x)
      rwa [next_free] at hself
  | freed => cases hc
  | failed => cases hc

/-- The other blocks stay. -/
theorem block_realloc_of_ne (hb : b < h.next) (hne : a ≠ some b) (r : Realloc) :
    (h.realloc a x r).1.block b = h.block b := by
  cases r with
  | inPlace =>
      cases a with
      | none => exact block_alloc_of_lt hb
      | some c =>
          exact Function.update_of_ne (fun heq => hne (congrArg some heq.symm)) ..
  | moved =>
      have hlt : b < (h.free a).next := by rwa [next_free]
      exact (block_alloc_of_lt hlt).trans (block_free_of_ne hne)
  | freed => exact block_free_of_ne hne
  | failed => rfl

/-- A block that was moved is gone from its old address. -/
theorem block_realloc_moved (hb : b < h.next) :
    (h.realloc (some b) x .moved).1.block b = none := by
  have hlt : b < (h.free (some b)).next := hb
  exact (block_alloc_of_lt hlt).trans (Function.update_self ..)

theorem next_le_realloc (h : BlockHeap β) (a : Option Nat) (x : β)
    (r : Realloc) : h.next ≤ (h.realloc a x r).1.next := by
  have hfree := next_free h a
  cases r with
  | inPlace =>
      cases a with
      | none => exact Nat.le_succ _
      | some b => exact Nat.le_refl _
  | moved => exact hfree ▸ Nat.le_succ (h.free a).next
  | freed => exact Nat.le_of_eq hfree.symm
  | failed => exact Nat.le_refl _

theorem realloc_lt_next (ha : ∀ b, a = some b → b < h.next) {r : Realloc} {c : Nat}
    (hc : (h.realloc a x r).2 = some c) : c < (h.realloc a x r).1.next := by
  have hfree := next_free h a
  cases r with
  | inPlace =>
      cases a with
      | none =>
          cases hc
          exact Nat.lt_succ_self _
      | some b =>
          cases hc
          exact ha _ rfl
  | moved =>
      cases hc
      exact hfree ▸ Nat.lt_succ_self (h.free a).next
  | freed => cases hc
  | failed => cases hc

theorem isSome_realloc {r : Realloc} (hr : r.Returns) :
    (h.realloc a x r).2.isSome = true := by
  cases r with
  | inPlace => cases a <;> rfl
  | moved => rfl
  | freed => exact hr.elim
  | failed => exact hr.elim

end BlockHeap
end Lib
end OsKernel
