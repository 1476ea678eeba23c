import OsKernel.Vfs.Refcount

/-!
# The inode table over whole runs

Runs of `vfs_new_inode` on any super blocks and of `vfs_put_inode` by the sole
holder of an inode.  The slots, the bitmap, the inode numbers and the lists of
the super blocks are all determined by which inodes are live: `liveSlots` is
the list a super block should have, and the number of an inode is the counter's
start plus the inodes created before it, so numbers do not repeat before the
64-bit counter does.

Such a run is one of the VFS that keeps the counts (`inodeSystem_reachable`), so
the slots are sound by what is known of those.

`InodeRun.inos` is a ghost, the numbers given out so far.
-/

namespace OsKernel
namespace Vfs

open Lib

/-- The slots of a super block's live inodes, in the order of creation. -/
def State.liveSlots (s : State) (sb : Nat) : List Nat :=
  ((List.range s.ledger.created).filter fun o =>
    decide (s.Referenced o) && (s.ledger.object o).sb == sb).map fun o =>
      (s.ledger.object o).slot

/-- The tables and the inode numbers given out so far, oldest first. -/
structure InodeRun where
  tables : State
  inos : List Nat

/-- Creation of an inode, and the put of one by its sole holder. -/
inductive InodeAction
  | new (sb mode : Nat) (evictInode : Bool)
  | put (o : Nat)

def inodeStep (s : InodeRun) : InodeAction → Option InodeRun
  | .new sb mode evictInode =>
      let result := vfsNewInode s.tables sb mode evictInode
      some
        { tables := result.1
          inos := s.inos ++
            (result.2.map fun slot => (result.1.inodeTable slot).ino).toList }
  | .put o =>
      let x := s.tables.ledger.object o
      if s.tables.Referenced o ∧ (s.tables.inodeTable x.slot).iCount = 1 then
        some
          { s with
            tables := (vfsPutInode s.tables x.slot).setObject o
              { x with creator := false } }
      else none

/-- The runs after `vfs_init`, which leaves `next_ino` as it is. -/
def inodeSystem : ActionSystem InodeRun InodeAction where
  init s := Initial s.tables ∧ s.tables.nextIno < 2 ^ 64 ∧ s.inos = []
  step := inodeStep

/-- The parts of the inode table agree about the live inodes. -/
structure TableConsistent (s : InodeRun) : Prop where
  bound : ∀ o, s.tables.Referenced o →
    (s.tables.ledger.object o).slot < maxInodes
  slots : ∀ o p, s.tables.Referenced o → s.tables.Referenced p →
    (s.tables.ledger.object o).slot = (s.tables.ledger.object p).slot → o = p
  fresh : s.inos.Nodup
  inos : ∀ o, s.tables.Referenced o →
    s.inos[o]? = some (s.tables.inodeTable (s.tables.ledger.object o).slot).ino
  inuse : ∀ i, Bitmap.test s.tables.inodeInuse i = true ↔
    ∃ o, s.tables.Referenced o ∧ (s.tables.ledger.object o).slot = i
  lists : ∀ sb, s.tables.sInodes sb = s.tables.liveSlots sb
  full : ∀ sb mode evictInode,
    (vfsNewInode s.tables sb mode evictInode).2 = none ↔
      ∀ i < maxInodes, ∃ o, s.tables.Referenced o ∧
        (s.tables.ledger.object o).slot = i

/-! ## Numbers -/

/-- The number of an inode is the counter's start plus the inodes before it. -/
structure Numbered (s : State) (start : Nat) : Prop where
  next : s.nextIno = (start + s.ledger.created) % 2 ^ 64
  ino : ∀ o, s.Referenced o →
    (s.inodeTable (s.ledger.object o).slot).ino = (start + o) % 2 ^ 64

/-- The slot `vfs_new_inode` takes is the first whose bit is clear. -/
theorem vfsNewInode_slot (s : State) (sb mode : Nat) (evictInode : Bool) :
    (vfsNewInode s sb mode evictInode).2 =
      Bitmap.firstClear s.inodeInuse maxInodes 0 := by
  rw [← firstFree_eq_firstClear]
  unfold vfsNewInode
  cases firstFree s.inodeInuse maxInodes 0 <;> rfl

/-- `vfs_new_inode` fails if and only if the bitmap is full. -/
theorem vfsNewInode_eq_none_iff (s : State) (sb mode : Nat)
    (evictInode : Bool) :
    (vfsNewInode s sb mode evictInode).2 = none ↔
      ∀ i < maxInodes, Bitmap.test s.inodeInuse i = true := by
  rw [vfsNewInode_slot, Bitmap.firstClear_eq_none_iff]
  constructor
  · intro hset i hi
    exact hset i (Nat.zero_le i) (by omega)
  · intro hset i _ hi
    exact hset i (by omega)

section Placed

variable {s s' : State} {slot sb mode : Nat} {evictInode : Bool}

/-- The new inode takes the next number, and the others keep theirs. -/
theorem Placed.numbered (h : Placed s s' slot sb mode evictInode) (hok : Sound s)
    {start : Nat} (hnumbered : Numbered s start) : Numbered s' start where
  next := by
    rw [h.next, hnumbered.next, h.created]
    omega
  ino := by
    intro o ho
    rcases (h.referenced o).mp ho with rfl | ho
    · rw [h.object_new, h.table, Function.update_self]
      exact hnumbered.next
    · have hapart : (s.ledger.object o).slot ≠ slot := by
        intro heq
        have hset := ((hok.slots.holds o ho.1).mpr ho).1
        rw [heq, h.clear] at hset
        contradiction
      rw [h.object_old ho.1, h.table, Function.update_of_ne hapart]
      exact hnumbered.ino o ho

/-- The new inode comes last on the list of its super block. -/
theorem Placed.liveSlots (h : Placed s s' slot sb mode evictInode) (b : Nat) :
    s'.liveSlots b = s.liveSlots b ++ if b = sb then [slot] else [] := by
  have hold : ∀ o ∈ List.range s.ledger.created,
      (decide (s'.Referenced o) && (s'.ledger.object o).sb == b) =
        (decide (s.Referenced o) && (s.ledger.object o).sb == b) := by
    intro o ho
    have hlt := List.mem_range.mp ho
    have hsame : s'.Referenced o ↔ s.Referenced o := by
      rw [h.referenced]
      exact or_iff_right (Nat.ne_of_lt hlt)
    rw [h.object_old hlt, decide_eq_decide.mpr hsame]
  have hslots : ∀ o ∈ (List.range s.ledger.created).filter fun o =>
      decide (s.Referenced o) && (s.ledger.object o).sb == b,
      (s'.ledger.object o).slot = (s.ledger.object o).slot := by
    intro o ho
    rw [h.object_old (List.mem_range.mp (List.mem_of_mem_filter ho))]
  have hnew : s'.Referenced s.ledger.created :=
    (h.referenced _).mpr (.inl rfl)
  unfold State.liveSlots
  rw [h.created, List.range_succ, List.filter_append, List.map_append,
    List.filter_congr hold, List.map_congr_left hslots]
  congr 1
  by_cases hb : b = sb
  · simp [hnew, h.object_new, hb]
  · simp [h.object_new, hb, Ne.symm hb]

end Placed

section Released

variable {s s' : State} {o : Nat}

theorem vfsPutInode_nextIno (s : State) (slot : Nat) :
    (vfsPutInode s slot).nextIno = s.nextIno := by
  simp only [vfsPutInode]
  split <;> rfl

theorem Released.numbered (h : Released s s' o) (hok : Sound s)
    (ho : s.Referenced o) (hnone : s.dentriesOf o = []) {start : Nat}
    (hnumbered : Numbered s start) (hnext : s'.nextIno = s.nextIno) :
    Numbered s' start where
  next := by
    rw [hnext, h.created]
    exact hnumbered.next
  ino := by
    intro p hp
    obtain ⟨hp, hpo⟩ := (h.referenced hnone p).mp hp
    have hapart : (s.ledger.object p).slot ≠ (s.ledger.object o).slot :=
      fun heq => hpo (hok.slots.slot_inj hp ho heq)
    rw [h.object_of_ne hpo, h.table _ hapart]
    exact hnumbered.ino p hp

/-- The released slot goes off the list of its super block, and the others
stay in order. -/
theorem Released.liveSlots (h : Released s s' o) (hok : Sound s)
    (ho : s.Referenced o) (hnone : s.dentriesOf o = []) (b : Nat) :
    s'.liveSlots b =
      if b = (s.ledger.object o).sb then
        (s.liveSlots b).filter fun i => i != (s.ledger.object o).slot
      else s.liveSlots b := by
  have hslot := h.object_field Object.slot rfl
  have hsb := h.object_field Object.sb rfl
  have hreferenced := h.referenced hnone
  unfold State.liveSlots
  simp only [hslot, h.created, hsb]
  split
  next hb =>
    rw [List.filter_map, List.filter_filter]
    congr 1
    apply List.filter_congr
    intro p _
    rw [Bool.eq_iff_iff]
    simp only [hreferenced, Bool.and_eq_true, decide_eq_true_eq, beq_iff_eq,
      Function.comp_apply, bne_iff_ne]
    -- live inodes have different slots, so only the released one is left out
    constructor
    · intro ⟨⟨hp, hpo⟩, hpsb⟩
      exact ⟨fun heq => hpo (hok.slots.slot_inj hp ho heq), hp, hpsb⟩
    · intro ⟨hapart, hp, hpsb⟩
      exact ⟨⟨hp, fun hpo => hapart (by rw [hpo])⟩, hpsb⟩
  next hb =>
    congr 1
    apply List.filter_congr
    intro p _
    rw [Bool.eq_iff_iff]
    simp only [hreferenced, Bool.and_eq_true, decide_eq_true_eq, beq_iff_eq]
    constructor
    · intro ⟨⟨hp, _⟩, hpsb⟩
      exact ⟨hp, hpsb⟩
    · intro ⟨hp, hpsb⟩
      refine ⟨⟨hp, fun hpo => hb ?_⟩, hpsb⟩
      rw [← hpsb, hpo]

end Released

/-! ## Runs -/

/-- The call of the VFS. -/
def InodeAction.call : InodeAction → Action
  | .new sb mode evictInode => .newInode sb mode evictInode
  | .put o => .putInode o

/-- Nothing but the creators refers to inodes, and no dentry was put. -/
structure InodeRun.Bare (s : InodeRun) : Prop where
  dentries : s.tables.dentries = []
  dropped : ∀ o < s.tables.ledger.created,
    (s.tables.ledger.object o).dropped = 0

section Steps

variable {s t : InodeRun}

theorem InodeRun.Bare.dentriesOf (h : s.Bare) (o : Nat) :
    s.tables.dentriesOf o = [] := by
  rw [State.dentriesOf, h.dentries, List.filter_nil]

theorem inodeStep_put {o : Nat} (hstep : inodeStep s (.put o) = some t) :
    s.tables.Referenced o ∧
      (s.tables.inodeTable (s.tables.ledger.object o).slot).iCount = 1 ∧
      t = { s with
        tables := (vfsPutInode s.tables (s.tables.ledger.object o).slot).setObject
          o { s.tables.ledger.object o with creator := false } } := by
  rw [inodeStep] at hstep
  split at hstep
  next hguard => exact ⟨hguard.1, hguard.2, (Option.some.inj hstep).symm⟩
  next => contradiction

/-- A put by the sole holder is a put by the creator of an inode that never had
a dentry. -/
theorem InodeRun.Bare.step (h : s.Bare) (hsound : Sound s.tables)
    {a : InodeAction} (hstep : inodeStep s a = some t) :
    CountKept s.tables a.call ∧ system.step s.tables a.call = some t.tables ∧
      t.Bare := by
  cases a with
  | new sb mode evictInode =>
      obtain rfl := Option.some.inj hstep
      refine ⟨trivial, rfl, ?_⟩
      rcases vfsNewInode_spec s.tables sb mode evictInode with
        ⟨-, hsame⟩ | ⟨slot, -, hplaced⟩
      · constructor
        · simpa only [hsame] using h.dentries
        · simpa only [hsame] using h.dropped
      · refine ⟨hplaced.dentries.trans h.dentries, fun o ho => ?_⟩
        rcases Nat.lt_succ_iff_lt_or_eq.mp (hplaced.created ▸ ho) with hlt | rfl
        · rw [hplaced.object_old hlt]
          exact h.dropped o hlt
        · rw [hplaced.object_new]
  | put o =>
      obtain ⟨ho, hlast, rfl⟩ := inodeStep_put hstep
      have hreleased := hsound.putInode_released ho hlast
      -- without a dentry, the creator is the only one that can hold the inode
      have hcreator : (s.tables.ledger.object o).creator = true :=
        ho.2.resolve_right fun hmem => hmem (h.dentriesOf o)
      refine ⟨.inr (h.dropped o ho.1), if_pos ⟨ho.1, hcreator⟩, ?_, fun p hp => ?_⟩
      · exact hreleased.dentries.trans h.dentries
      · rw [hreleased.object_field Object.dropped rfl]
        exact h.dropped p (hreleased.created ▸ hp)

end Steps

/-- The runs of the inode table are runs of the VFS that keep the counts. -/
theorem inodeSystem_reachable {s : InodeRun} (hreach : inodeSystem.Reachable s) :
    system.ReachableWhile CountKept s.tables ∧ s.Bare := by
  refine hreach.invariant
    (P := fun s => system.ReachableWhile CountKept s.tables ∧ s.Bare) ?_ ?_
  · rintro s ⟨htables, -, -⟩
    refine ⟨.start htables, htables.dentries, fun o ho => ?_⟩
    rw [htables.created] at ho
    omega
  · intro s a t _ hs hstep
    obtain ⟨hkept, hcall, hbare⟩ := hs.2.step (reachable_sound hs.1) hstep
    exact ⟨hs.1.next hkept hcall, hbare⟩

/-- The numbers and lists are as they should be. -/
structure InodeRun.Ok (s : InodeRun) (start : Nat) : Prop where
  numbered : Numbered s.tables start
  inos : s.inos = (List.range s.tables.ledger.created).map fun o =>
    (start + o) % 2 ^ 64
  lists : ∀ sb, s.tables.sInodes sb = s.tables.liveSlots sb

namespace InodeRun.Ok

variable {s t : InodeRun} {start : Nat}

theorem new (h : s.Ok start) (hsound : Sound s.tables) {sb mode : Nat}
    {evictInode : Bool}
    (hstep : inodeStep s (.new sb mode evictInode) = some t) : t.Ok start := by
  obtain rfl := Option.some.inj hstep
  rcases vfsNewInode_spec s.tables sb mode evictInode with
    ⟨hnone, hsame⟩ | ⟨slot, hsome, hplaced⟩
  · rw [hnone, hsame, Option.map_none, Option.toList_none, List.append_nil]
    exact h
  · rw [hsome, Option.map_some, Option.toList_some]
    refine ⟨hplaced.numbered hsound h.numbered, ?_, ?_⟩
    · rw [hplaced.created, List.range_succ, List.map_append, h.inos,
        hplaced.table, Function.update_self, h.numbered.next]
      rfl
    · intro b
      rw [hplaced.liveSlots, hplaced.lists, ← h.lists]
      by_cases hb : b = sb
      · rw [hb, Function.update_self, if_pos rfl]
      · rw [Function.update_of_ne hb, if_neg hb, List.append_nil]

theorem put (h : s.Ok start) (hsound : Sound s.tables) (hbare : s.Bare)
    {o : Nat} (hstep : inodeStep s (.put o) = some t) : t.Ok start := by
  obtain ⟨ho, hlast, rfl⟩ := inodeStep_put hstep
  have hnone := hbare.dentriesOf o
  have hreleased := hsound.putInode_released ho hlast
  refine ⟨hreleased.numbered hsound ho hnone h.numbered
    (vfsPutInode_nextIno s.tables _), ?_, ?_⟩
  · rw [hreleased.created]
    exact h.inos
  · intro b
    rw [hreleased.liveSlots hsound ho hnone, hreleased.lists, ← h.lists]
    by_cases hb : b = (s.tables.ledger.object o).sb
    · rw [hb, Function.update_self, if_pos rfl]
    · rw [Function.update_of_ne hb, if_neg hb]

theorem init (hinit : inodeSystem.init s) : s.Ok s.tables.nextIno := by
  obtain ⟨htables, hnext, hinos⟩ := hinit
  refine ⟨⟨?_, fun o ho => ?_⟩, ?_, fun sb => ?_⟩
  · rw [htables.created, Nat.add_zero, Nat.mod_eq_of_lt hnext]
  · have hlt := ho.1
    rw [htables.created] at hlt
    omega
  · rw [hinos, htables.created]
    rfl
  · rw [htables.sInodes, State.liveSlots, htables.created]
    rfl

end InodeRun.Ok

theorem reachable_inodeRun_ok {s : InodeRun}
    (hreach : inodeSystem.Reachable s) : ∃ start, s.Ok start := by
  refine hreach.invariant (P := fun s => ∃ start, s.Ok start) ?_ ?_
  · exact fun s hinit => ⟨_, .init hinit⟩
  · intro s a t hs hok hstep
    obtain ⟨start, hok⟩ := hok
    obtain ⟨htables, hbare⟩ := inodeSystem_reachable hs
    have hsound := reachable_sound htables
    cases a with
    | new sb mode evictInode => exact ⟨start, hok.new hsound hstep⟩
    | put o => exact ⟨start, hok.put hsound hbare hstep⟩

/-- Fewer than `2 ^ 64` numbers in a row, reduced modulo `2 ^ 64`, differ. -/
theorem nodup_numbers (start : Nat) {n : Nat} (hn : n < 2 ^ 64) :
    ((List.range n).map fun o => (start + o) % 2 ^ 64).Nodup := by
  refine List.Nodup.map_on ?_ List.nodup_range
  intro o ho p hp heq
  have ho := List.mem_range.mp ho
  have hp := List.mem_range.mp hp
  omega

/-- After `vfs_init`, in every run of creations and of puts by sole holders
with fewer than `2 ^ 64` creations, the inode table is consistent. -/
theorem inode_table_consistent {s : InodeRun}
    (hreach : inodeSystem.Reachable s)
    (hcreated : s.tables.ledger.created < 2 ^ 64) : TableConsistent s := by
  obtain ⟨start, hok⟩ := reachable_inodeRun_ok hreach
  have hslots := (reachable_sound (inodeSystem_reachable hreach).1).slots
  have hinuse : ∀ i, Bitmap.test s.tables.inodeInuse i = true ↔
      ∃ o, s.tables.Referenced o ∧ (s.tables.ledger.object o).slot = i := by
    intro i
    constructor
    · intro hset
      obtain ⟨hlt, hslot⟩ := hslots.used i hset
      refine ⟨s.tables.ledger.owner i, (hslots.holds _ hlt).mp ⟨?_, ?_⟩, hslot⟩
      · rw [hslot]
        exact hset
      · rw [hslot]
    · intro ⟨o, ho, hslot⟩
      rw [← hslot]
      exact ((hslots.holds o ho.1).mpr ho).1
  constructor
  · exact fun o ho => hslots.bound o ho.1
  · exact fun o p ho hp => hslots.slot_inj ho hp
  · rw [hok.inos]
    exact nodup_numbers start hcreated
  · intro o ho
    rw [hok.inos, List.getElem?_map, List.getElem?_range ho.1, Option.map_some,
      hok.numbered.ino o ho]
  · exact hinuse
  · exact hok.lists
  · intro sb mode evictInode
    simp only [vfsNewInode_eq_none_iff, hinuse]

/-- Two super blocks; the first inode is put and its slot used again. -/
theorem inode_table_consistent_reuse :
    ∃ s, inodeSystem.run ⟨emptyTables, []⟩
        [.new 0 0 false, .new 1 0 false, .put 0, .new 1 0 false] = some s ∧
      s.tables.ledger.created < 2 ^ 64 ∧ s.inos = [1, 2, 3] ∧
      s.tables.sInodes 1 = [1, 0] ∧ TableConsistent s := by
  have hstart : inodeSystem.Reachable ⟨emptyTables, []⟩ :=
    .start ⟨emptyTables_initial, by decide, rfl⟩
  have hreach := hstart.run (show inodeSystem.run _
    [.new 0 0 false, .new 1 0 false, .put 0, .new 1 0 false] = some _ from rfl)
  exact ⟨_, rfl, by decide, rfl, rfl, inode_table_consistent hreach (by decide)⟩

end Vfs
end OsKernel
