import OsKernel.Lib.ActionSystem
import OsKernel.Lib.Bitmap
import OsKernel.Lib.MachineInt
import Mathlib.Tactic.Simps.Basic

/-!
# Inodes and dentries of the virtual file system `demos/vfs/vfs.c`

Inodes live in a table of `MAX_INODES` slots with a bitmap of the slots in
use; a pointer to an inode is its slot.  Dentries are allocated by `kmalloc`;
a pointer to a dentry is its address, and addresses are not used twice.  A C
string is the list of its bytes before the terminating zero.

`vfs_new_inode` leaves `i_op` null; the file system that called it may set it
before the inode is used.  Of the operations only `evict_inode` is called
here, so an inode just says whether there is one.  The headers of lists and
atomic counters are not in the repository: `list_del` unlinks a node from the
list it is on, and `i_count` is an `int`.  `dentry->parent` is null for every
dentry `vfs_new_dentry` makes and stays so here.

`Ledger` is a ghost: it numbers the inodes in the order of their creation and
records who refers to them.  A slot is used again after its release, so a slot
alone does not tell which inode is meant.  The code reads none of it.
-/

namespace OsKernel
namespace Vfs

open Lib

/-- `MAX_INODES`. -/
def maxInodes : Nat := 1024

/-- `DENTRY_HASH_SIZE`. -/
def dentryHashSize : Nat := 256

/-- `struct inode`. -/
structure Inode where
  ino : Nat
  iMode : Nat
  iSize : Nat
  iSb : Nat
  /-- `i_op && i_op->evict_inode`. -/
  evictInode : Bool
  iDentry : List Nat
  iCount : Int

/-- `struct dentry`, its address, and the number of the inode it was made
for. -/
structure Dentry where
  addr : Nat
  name : List UInt8
  inode : Nat
  refcount : Int
  object : Nat

/-- What is on record about one inode. -/
structure Object where
  slot : Nat
  sb : Nat
  evictInode : Bool
  /-- The caller of `vfs_new_inode` has not put its reference yet. -/
  creator : Bool
  /-- The number of its dentries that have been put. -/
  dropped : Nat

/-- The inodes created so far. -/
structure Ledger where
  created : Nat
  object : Nat → Object
  /-- The last inode created in a slot. -/
  owner : Nat → Nat
  /-- The inodes `evict_inode` was called for, latest last. -/
  evicted : List Nat

/-- The tables of `vfs.c`, the inode lists of the super blocks and the live
dentries. -/
structure State where
  inodeTable : Nat → Inode
  inodeInuse : List (BitVec 64)
  nextIno : Nat
  sInodes : Nat → List Nat
  dentryHashtable : Nat → List Nat
  dentries : List Dentry
  nextAddr : Nat
  ledger : Ledger

namespace State

/-- Store an inode in its slot. -/
@[simps -fullyApplied]
def setInode (s : State) (slot : Nat) (x : Inode) : State :=
  { s with inodeTable := Function.update s.inodeTable slot x }

/-- Change what is on record about one inode. -/
@[simps -fullyApplied]
def setObject (s : State) (o : Nat) (x : Object) : State :=
  { s with ledger :=
      { s.ledger with object := Function.update s.ledger.object o x } }

end State

/-! ## Inodes -/

/-- One round of the loop of `hash_dentry`; `char` is signed. -/
def hashRound (hash : UInt32) (c : UInt8) : UInt32 :=
  (hash <<< 5) + hash + c.toInt8.toInt32.toUInt32

/-- `hash_dentry`: the chain of a name. -/
def hashDentry (name : List UInt8) : Nat :=
  (name.foldl hashRound 5381).toNat % dentryHashSize

/-- The loop of `vfs_new_inode` over the remaining slots, at slot `i`. -/
def firstFree (inuse : List (BitVec 64)) : Nat → Nat → Option Nat
  | 0, _ => none
  | remaining + 1, i =>
      if Bitmap.test inuse i = false then some i
      else firstFree inuse remaining (i + 1)

/-- `vfs_new_inode`, and the file system's setting of `i_op`. -/
def vfsNewInode (s : State) (sb mode : Nat) (evictInode : Bool) :
    State × Option Nat :=
  match firstFree s.inodeInuse maxInodes 0 with
  | none => (s, none)
  | some slot =>
      ({ s with
        inodeInuse := Bitmap.set s.inodeInuse slot
        inodeTable := Function.update s.inodeTable slot
          { ino := s.nextIno, iMode := mode, iSize := 0, iSb := sb
            evictInode := evictInode, iDentry := [], iCount := 1 }
        nextIno := (s.nextIno + 1) % 2 ^ 64
        sInodes := Function.update s.sInodes sb (s.sInodes sb ++ [slot])
        ledger :=
          { s.ledger with
            created := s.ledger.created + 1
            object := Function.update s.ledger.object s.ledger.created
              { slot := slot, sb := sb, evictInode := evictInode
                creator := true, dropped := 0 }
            owner := Function.update s.ledger.owner slot
              s.ledger.created } },
        some slot)

/-- The release of a slot in `vfs_put_inode`. -/
def release (s : State) (slot : Nat) : State :=
  let sb := (s.inodeTable slot).iSb
  { s with
    sInodes := Function.update s.sInodes sb
      ((s.sInodes sb).filter fun i => i != slot)
    inodeInuse := Bitmap.clear s.inodeInuse slot
    ledger :=
      { s.ledger with
        evicted :=
          if (s.inodeTable slot).evictInode then
            s.ledger.evicted ++ [s.ledger.owner slot]
          else s.ledger.evicted } }

/-- `atomic_dec(&inode->i_count)`. -/
def atomicDec (s : State) (slot : Nat) : State :=
  s.setInode slot
    { s.inodeTable slot with
      iCount := wrap32 ((s.inodeTable slot).iCount - 1) }

/-- `vfs_put_inode`. -/
def vfsPutInode (s : State) (slot : Nat) : State :=
  let s := atomicDec s slot
  if (s.inodeTable slot).iCount = 0 then release s slot else s

/-! ## Dentries -/

/-- `vfs_new_dentry`; `kmalloc` fails when `alloc` is false. -/
def vfsNewDentry (s : State) (name : List UInt8) (slot : Nat) (alloc : Bool)
    (object : Nat) : State × Option Nat :=
  if alloc then
    let addr := s.nextAddr
    let inode := s.inodeTable slot
    ({ s with
      dentries := s.dentries ++
        [{ addr := addr, name := name.take 255, inode := slot
           refcount := 1, object := object }]
      nextAddr := addr + 1
      inodeTable := Function.update s.inodeTable slot
        { inode with
          iCount := wrap32 (inode.iCount + 1)
          iDentry := inode.iDentry ++ [addr] }
      dentryHashtable := Function.update s.dentryHashtable (hashDentry name)
        (s.dentryHashtable (hashDentry name) ++ [addr]) },
      some addr)
  else (s, none)

/-- `list_del(&dentry->hash)` and `kfree(dentry)`. -/
@[simps -fullyApplied]
def State.forget (s : State) (addr : Nat) : State :=
  { s with
    dentryHashtable := fun h =>
      (s.dentryHashtable h).filter fun a => a != addr
    dentries := s.dentries.filter fun d => d.addr != addr }

/-- `vfs_put_dentry`.  The inode's count goes down once here and once more in
`vfs_put_inode`; `dentry_node` stays on the list of the inode. -/
def vfsPutDentry (s : State) (d : Dentry) : State :=
  let refcount := wrap32 (d.refcount - 1)
  if 0 < refcount then
    { s with
      dentries := s.dentries.map fun e =>
        if e.addr = d.addr then { e with refcount := refcount } else e }
  else
    vfsPutInode (atomicDec (s.forget d.addr) d.inode) d.inode

/-! ## Runs -/

/-- The live dentries of an inode. -/
def State.dentriesOf (s : State) (o : Nat) : List Dentry :=
  s.dentries.filter fun d => d.object = o

/-- Somebody refers to the inode: its creator or a live dentry. -/
def State.Referenced (s : State) (o : Nat) : Prop :=
  o < s.ledger.created ∧
    ((s.ledger.object o).creator = true ∨ s.dentriesOf o ≠ [])

instance (s : State) (o : Nat) : Decidable (s.Referenced o) :=
  inferInstanceAs (Decidable (_ ∧ _))

/-- What the users of the VFS do.  Inodes are given by their number. -/
inductive Action
  | newInode (sb mode : Nat) (evictInode : Bool)
  | newDentry (name : List UInt8) (o : Nat) (alloc : Bool)
  | putDentry (addr : Nat)
  /-- The creator puts its reference. -/
  | putInode (o : Nat)

/-- One call.  A dentry is made on an inode somebody refers to, a dentry that
is put is live, and a creator puts its reference once. -/
def step (s : State) : Action → Option State
  | .newInode sb mode evictInode => some (vfsNewInode s sb mode evictInode).1
  | .newDentry name o alloc =>
      if s.Referenced o then
        some (vfsNewDentry s name (s.ledger.object o).slot alloc o).1
      else none
  | .putDentry addr =>
      match s.dentries.find? fun d => d.addr = addr with
      | none => none
      | some d =>
          let x := s.ledger.object d.object
          some ((vfsPutDentry s d).setObject d.object
            { x with dropped := x.dropped + 1 })
  | .putInode o =>
      let x := s.ledger.object o
      if o < s.ledger.created ∧ x.creator = true then
        some ((vfsPutInode s x.slot).setObject o { x with creator := false })
      else none

/-- The tables after `vfs_init`, with empty inode lists. -/
structure Initial (s : State) : Prop where
  inuse : s.inodeInuse = List.replicate (maxInodes / 64) 0
  sInodes : ∀ sb, s.sInodes sb = []
  hashtable : ∀ h, s.dentryHashtable h = []
  dentries : s.dentries = []
  created : s.ledger.created = 0
  evicted : s.ledger.evicted = []

/-- The runs of the VFS. -/
def system : ActionSystem State Action where
  init := Initial
  step := step

end Vfs
end OsKernel
