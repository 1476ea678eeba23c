import OsKernel.Vfs.Model

/-!
# Slots, references and counts

The invariant of the inode table, and the three ways a call changes it: an inode
is placed in a free slot (`Placed`), the count of one inode changes while
somebody still refers to it (`Recounted`), or the slot of an inode is released
with its last reference (`Released`).  Each of the three keeps the invariant.
-/

namespace OsKernel
namespace Vfs

open Lib

/-- The references to an inode. -/
def State.references (s : State) (o : Nat) : Int :=
  (if (s.ledger.object o).creator then 1 else 0) + (s.dentriesOf o).length

/-- The inode still has its slot. -/
def State.Holds (s : State) (o : Nat) : Prop :=
  Bitmap.test s.inodeInuse (s.ledger.object o).slot = true ∧
    s.ledger.owner (s.ledger.object o).slot = o

/-! ## The invariant -/

/-- Every live dentry is alone at its address and has one reference. -/
structure Single (s : State) : Prop where
  fresh : ∀ d ∈ s.dentries, d.addr < s.nextAddr
  addrs : (s.dentries.map Dentry.addr).Nodup
  one : ∀ d ∈ s.dentries, d.refcount = 1

/-- The live dentries are apart and point to the slots of their inodes. -/
structure DentriesOk (s : State) : Prop where
  single : Single s
  made : ∀ d ∈ s.dentries, d.object < s.ledger.created ∧
    d.inode = (s.ledger.object d.object).slot

/-- The slots in use are those of the inodes referred to. -/
structure SlotsOk (s : State) : Prop where
  words : s.inodeInuse.length = maxInodes / 64
  bound : ∀ o, o < s.ledger.created → (s.ledger.object o).slot < maxInodes
  holds : ∀ o, o < s.ledger.created → (s.Holds o ↔ s.Referenced o)
  used : ∀ i, Bitmap.test s.inodeInuse i = true →
    s.ledger.owner i < s.ledger.created ∧
      (s.ledger.object (s.ledger.owner i)).slot = i
  listed : ∀ b i, i ∈ s.sInodes b ↔ Bitmap.test s.inodeInuse i = true ∧
    (s.ledger.object (s.ledger.owner i)).sb = b
  evicted : ∀ o, s.ledger.evicted.count o =
    if o < s.ledger.created ∧ (s.ledger.object o).evictInode ∧
      ¬ s.Referenced o then 1 else 0

/-- The inode of a slot is that of its owner, with the count that is due. -/
structure InodeOk (s : State) (o : Nat) : Prop where
  sb : (s.inodeTable (s.ledger.object o).slot).iSb = (s.ledger.object o).sb
  evict : (s.inodeTable (s.ledger.object o).slot).evictInode =
    (s.ledger.object o).evictInode
  count : (s.inodeTable (s.ledger.object o).slot).iCount =
    s.references o - (s.ledger.object o).dropped
  pos : 0 < (s.inodeTable (s.ledger.object o).slot).iCount
  fits : (s.inodeTable (s.ledger.object o).slot).iCount < 2 ^ 31

/-- The invariant of the runs that keep the counts. -/
structure Sound (s : State) : Prop where
  dentries : DentriesOk s
  slots : SlotsOk s
  inodes : ∀ o, s.Referenced o → InodeOk s o

theorem Single.of_dentries {s s' : State} (h : Single s)
    (hdentries : s'.dentries = s.dentries) (hnext : s'.nextAddr = s.nextAddr) :
    Single s' := by
  constructor
  · rw [hdentries, hnext]
    exact h.fresh
  · rw [hdentries]
    exact h.addrs
  · rw [hdentries]
    exact h.one

section Basics

variable {s s' : State} {o : Nat}

theorem referenced_iff :
    s.Referenced o ↔ o < s.ledger.created ∧ 0 < s.references o := by
  have hdentries : s.dentriesOf o ≠ [] ↔ 0 < (s.dentriesOf o).length :=
    List.length_pos_iff.symm
  unfold State.Referenced State.references
  rw [hdentries]
  cases (s.ledger.object o).creator
  · simp
  · have hpos : (0 : Int) < 1 + ((s.dentriesOf o).length : Int) := by omega
    simp [hpos]

/-- Two inodes referred to have two slots. -/
theorem SlotsOk.slot_inj (h : SlotsOk s) {p : Nat} (ho : s.Referenced o)
    (hp : s.Referenced p)
    (hslot : (s.ledger.object o).slot = (s.ledger.object p).slot) : o = p := by
  have howner := ((h.holds o ho.1).mpr ho).2
  have howner' := ((h.holds p hp.1).mpr hp).2
  rw [← howner, hslot, howner']

/-- Steps that change no slot: the dentries, the counts and the creators'
references may change as long as the same inodes are referred to. -/
theorem SlotsOk.congr (h : SlotsOk s) (hinuse : s'.inodeInuse = s.inodeInuse)
    (hlists : s'.sInodes = s.sInodes)
    (hcreated : s'.ledger.created = s.ledger.created)
    (howner : s'.ledger.owner = s.ledger.owner)
    (hevicted : s'.ledger.evicted = s.ledger.evicted)
    (hslot : ∀ p, (s'.ledger.object p).slot = (s.ledger.object p).slot)
    (hsb : ∀ p, (s'.ledger.object p).sb = (s.ledger.object p).sb)
    (hevict : ∀ p, (s'.ledger.object p).evictInode =
      (s.ledger.object p).evictInode)
    (href : ∀ p, s'.Referenced p ↔ s.Referenced p) : SlotsOk s' where
  words := hinuse ▸ h.words
  bound p hp := by
    rw [hslot]
    exact h.bound p (hcreated ▸ hp)
  holds p hp := by
    rw [href, ← h.holds p (hcreated ▸ hp)]
    simp only [State.Holds, hinuse, hslot, howner]
  used i hi := by
    rw [hcreated, howner, hslot]
    exact h.used i (hinuse ▸ hi)
  listed b i := by
    rw [hlists, hinuse, howner, hsb]
    exact h.listed b i
  evicted p := by
    simp only [hevicted, hcreated, hevict, href]
    exact h.evicted p

/-- What a step leaves of another inode as it was. -/
theorem InodeOk.congr (h : InodeOk s o)
    (hobject : s'.ledger.object o = s.ledger.object o)
    (hinode : s'.inodeTable (s.ledger.object o).slot =
      s.inodeTable (s.ledger.object o).slot)
    (hreferences : s'.references o = s.references o) : InodeOk s' o := by
  constructor <;> rw [hobject, hinode]
  · exact h.sb
  · exact h.evict
  · rw [hreferences]
    exact h.count
  · exact h.pos
  · exact h.fits

end Basics

/-! ## A new inode -/

theorem firstFree_eq_firstClear (inuse : List (BitVec 64)) (remaining i : Nat) :
    firstFree inuse remaining i = Bitmap.firstClear inuse remaining i := by
  induction remaining generalizing i with
  | zero => rfl
  | succ remaining ih =>
      unfold firstFree Bitmap.firstClear
      rw [ih]

/-- What `vfs_new_inode` changes when it finds a free slot. -/
structure Placed (s s' : State) (slot sb mode : Nat) (evictInode : Bool) :
    Prop where
  bound : slot < maxInodes
  clear : Bitmap.test s.inodeInuse slot = false
  inuse : s'.inodeInuse = Bitmap.set s.inodeInuse slot
  table : s'.inodeTable = Function.update s.inodeTable slot
    ⟨s.nextIno, mode, 0, sb, evictInode, [], 1⟩
  next : s'.nextIno = (s.nextIno + 1) % 2 ^ 64
  lists : s'.sInodes = Function.update s.sInodes sb (s.sInodes sb ++ [slot])
  hashtable : s'.dentryHashtable = s.dentryHashtable
  dentries : s'.dentries = s.dentries
  nextAddr : s'.nextAddr = s.nextAddr
  created : s'.ledger.created = s.ledger.created + 1
  object : s'.ledger.object = Function.update s.ledger.object s.ledger.created
    ⟨slot, sb, evictInode, true, 0⟩
  owner : s'.ledger.owner =
    Function.update s.ledger.owner slot s.ledger.created
  evicted : s'.ledger.evicted = s.ledger.evicted

/-- `vfs_new_inode` finds no slot and changes nothing, or it places an inode
with the next number. -/
theorem vfsNewInode_spec (s : State) (sb mode : Nat) (evictInode : Bool) :
    ((vfsNewInode s sb mode evictInode).2 = none ∧
      (vfsNewInode s sb mode evictInode).1 = s) ∨
    ∃ slot, (vfsNewInode s sb mode evictInode).2 = some slot ∧
      Placed s (vfsNewInode s sb mode evictInode).1 slot sb mode evictInode := by
  unfold vfsNewInode
  cases hfree : firstFree s.inodeInuse maxInodes 0 with
  | none => exact .inl ⟨rfl, rfl⟩
  | some slot =>
      rw [firstFree_eq_firstClear] at hfree
      obtain ⟨⟨-, hbound⟩, hclear, -⟩ := Bitmap.firstClear_eq_some hfree
      exact .inr ⟨slot, rfl, by omega, hclear, rfl, rfl, rfl, rfl, rfl, rfl, rfl,
        rfl, rfl, rfl, rfl⟩

theorem vfsNewInode_placed {s : State} {sb mode slot : Nat} {evictInode : Bool}
    (hslot : (vfsNewInode s sb mode evictInode).2 = some slot) :
    Placed s (vfsNewInode s sb mode evictInode).1 slot sb mode evictInode := by
  rcases vfsNewInode_spec s sb mode evictInode with
    ⟨hnone, -⟩ | ⟨slot', hsome, hplaced⟩
  · rw [hnone] at hslot
    contradiction
  · obtain rfl : slot' = slot := Option.some.inj (hsome.symm.trans hslot)
    exact hplaced

namespace Placed

variable {s s' : State} {slot sb mode : Nat} {evictInode : Bool}

theorem object_new (h : Placed s s' slot sb mode evictInode) :
    s'.ledger.object s.ledger.created = ⟨slot, sb, evictInode, true, 0⟩ := by
  rw [h.object, Function.update_self]

theorem object_old (h : Placed s s' slot sb mode evictInode) {p : Nat}
    (hp : p < s.ledger.created) :
    s'.ledger.object p = s.ledger.object p := by
  rw [h.object, Function.update_of_ne (Nat.ne_of_lt hp)]

theorem dentriesOf (h : Placed s s' slot sb mode evictInode) (p : Nat) :
    s'.dentriesOf p = s.dentriesOf p := by
  rw [State.dentriesOf, h.dentries, State.dentriesOf]

theorem test (h : Placed s s' slot sb mode evictInode)
    (hwords : s.inodeInuse.length = maxInodes / 64) (i : Nat) :
    Bitmap.test s'.inodeInuse i =
      (Bitmap.test s.inodeInuse i || decide (i = slot)) := by
  have hbound := h.bound
  simp only [maxInodes] at hbound hwords
  rw [h.inuse]
  exact Bitmap.test_set _ (by omega) i

/-- The new inode is referred to by its creator, the others as before. -/
theorem referenced (h : Placed s s' slot sb mode evictInode) (p : Nat) :
    s'.Referenced p ↔ p = s.ledger.created ∨ s.Referenced p := by
  rcases Nat.lt_trichotomy p s.ledger.created with hlt | rfl | hgt
  · have hne : p ≠ s.ledger.created := Nat.ne_of_lt hlt
    have hlt' : p < s.ledger.created + 1 := Nat.lt_succ_of_lt hlt
    simp only [State.Referenced, h.created, h.object_old hlt, h.dentriesOf,
      hlt, hlt', hne, false_or]
  · simp [State.Referenced, h.object_new, h.created]
  · have hne : p ≠ s.ledger.created := Nat.ne_of_gt hgt
    have hge : ¬ p < s.ledger.created + 1 := by omega
    have hge' : ¬ p < s.ledger.created := by omega
    simp [State.Referenced, h.created, hge, hge', hne]

theorem dentriesOk (h : Placed s s' slot sb mode evictInode)
    (hok : DentriesOk s) : DentriesOk s' where
  single := hok.single.of_dentries h.dentries h.nextAddr
  made d hd := by
    rw [h.dentries] at hd
    obtain ⟨hmade, hinode⟩ := hok.made d hd
    rw [h.created, h.object_old hmade]
    exact ⟨by omega, hinode⟩

/-- The new inode has the slot, and an inode that lost it does not get it
back. -/
theorem holds (h : Placed s s' slot sb mode evictInode) (hok : SlotsOk s) (p : Nat)
    (hp : p < s'.ledger.created) : s'.Holds p ↔ s'.Referenced p := by
  rw [h.referenced]
  rcases Nat.lt_succ_iff_lt_or_eq.mp (h.created ▸ hp) with hlt | rfl
  · have hne : p ≠ s.ledger.created := Nat.ne_of_lt hlt
    simp only [State.Holds, h.object_old hlt, h.test hok.words, h.owner, hne,
      false_or]
    rw [← hok.holds p hlt]
    unfold State.Holds
    by_cases hslot : (s.ledger.object p).slot = slot
    · simp [hslot, h.clear, Ne.symm hne]
    · simp [hslot]
  · simp [State.Holds, h.object_new, h.test hok.words, h.owner]

theorem used (h : Placed s s' slot sb mode evictInode) (hok : SlotsOk s) (i : Nat)
    (hi : Bitmap.test s'.inodeInuse i = true) :
    s'.ledger.owner i < s'.ledger.created ∧
      (s'.ledger.object (s'.ledger.owner i)).slot = i := by
  rw [h.test hok.words] at hi
  rw [h.created, h.owner]
  by_cases hslot : i = slot
  · subst hslot
    rw [Function.update_self, h.object_new]
    exact ⟨Nat.lt_succ_self _, rfl⟩
  · rw [Function.update_of_ne hslot]
    obtain ⟨hlt, hat⟩ := hok.used i (by simpa [hslot] using hi)
    rw [h.object_old hlt]
    exact ⟨Nat.lt_succ_of_lt hlt, hat⟩

theorem listed (h : Placed s s' slot sb mode evictInode) (hok : SlotsOk s)
    (b i : Nat) :
    i ∈ s'.sInodes b ↔ Bitmap.test s'.inodeInuse i = true ∧
      (s'.ledger.object (s'.ledger.owner i)).sb = b := by
  rw [h.test hok.words, h.owner, h.lists]
  by_cases hslot : i = slot
  · subst hslot
    -- a free slot is on no list
    have hnot : ∀ b, i ∉ s.sInodes b := by
      intro b hmem
      have hset := ((hok.listed b i).mp hmem).1
      rw [h.clear] at hset
      contradiction
    by_cases hb : b = sb
    · subst hb
      simp [h.object_new]
    · simp [hb, hnot, h.object_new, Ne.symm hb]
  · have hmem : i ∈ Function.update s.sInodes sb (s.sInodes sb ++ [slot]) b ↔
        i ∈ s.sInodes b := by
      by_cases hb : b = sb
      · subst hb
        simp [hslot]
      · simp [hb]
    rw [hmem, hok.listed, Function.update_of_ne hslot]
    simp only [hslot, decide_false, Bool.or_false]
    refine and_congr_right fun hset => ?_
    rw [h.object_old (hok.used i hset).1]

theorem slotsOk (h : Placed s s' slot sb mode evictInode) (hok : SlotsOk s) :
    SlotsOk s' where
  words := by
    rw [h.inuse, Bitmap.length_set]
    exact hok.words
  bound p hp := by
    rcases Nat.lt_succ_iff_lt_or_eq.mp (h.created ▸ hp) with hlt | rfl
    · rw [h.object_old hlt]
      exact hok.bound p hlt
    · rw [h.object_new]
      exact h.bound
  holds := h.holds hok
  used := h.used hok
  listed := h.listed hok
  evicted p := by
    rw [h.evicted, hok.evicted, h.created]
    rcases Nat.lt_trichotomy p s.ledger.created with hlt | rfl | hgt
    · have hne : p ≠ s.ledger.created := Nat.ne_of_lt hlt
      have hlt' : p < s.ledger.created + 1 := Nat.lt_succ_of_lt hlt
      simp only [hlt, hlt', h.object_old hlt, h.referenced, hne, false_or]
    · simp [h.referenced]
    · have hge : ¬ p < s.ledger.created + 1 := by omega
      have hge' : ¬ p < s.ledger.created := by omega
      simp [hge, hge']

theorem sound (h : Placed s s' slot sb mode evictInode) (hok : Sound s) :
    Sound s' := by
  refine ⟨h.dentriesOk hok.dentries, h.slotsOk hok.slots, fun p hp => ?_⟩
  have htable := h.table
  rcases (h.referenced p).mp hp with rfl | hp
  · have hnone : s.dentriesOf s.ledger.created = [] := by
      refine List.filter_eq_nil_iff.mpr fun d hd => ?_
      have hlt := (hok.dentries.made d hd).1
      simp only [decide_eq_true_eq]
      omega
    have hcount : s'.references s.ledger.created = 1 := by
      rw [State.references, h.object_new, h.dentriesOf, hnone]
      rfl
    constructor <;> simp [h.object_new, htable, hcount]
  · -- an inode somebody refers to has its bit set, so it is elsewhere
    have hapart : (s.ledger.object p).slot ≠ slot := by
      intro heq
      have hset := ((hok.slots.holds p hp.1).mpr hp).1
      rw [heq, h.clear] at hset
      contradiction
    have hinode : s'.inodeTable (s.ledger.object p).slot =
        s.inodeTable (s.ledger.object p).slot := by
      rw [htable, Function.update_of_ne hapart]
    have hreferences : s'.references p = s.references p := by
      rw [State.references, h.object_old hp.1, h.dentriesOf, State.references]
    exact (hok.inodes p hp).congr (h.object_old hp.1) hinode hreferences

end Placed

/-! ## Steps that change one count -/

/-- A step that changes the count of one inode and keeps it referred to. -/
structure Recounted (s s' : State) (o : Nat) (x : Object) (inode : Inode) :
    Prop where
  inuse : s'.inodeInuse = s.inodeInuse
  lists : s'.sInodes = s.sInodes
  created : s'.ledger.created = s.ledger.created
  owner : s'.ledger.owner = s.ledger.owner
  evicted : s'.ledger.evicted = s.ledger.evicted
  object : s'.ledger.object = Function.update s.ledger.object o x
  slot : x.slot = (s.ledger.object o).slot
  sb : x.sb = (s.ledger.object o).sb
  evict : x.evictInode = (s.ledger.object o).evictInode
  table : s'.inodeTable =
    Function.update s.inodeTable (s.ledger.object o).slot inode
  iSb : inode.iSb = (s.inodeTable (s.ledger.object o).slot).iSb
  evictInode : inode.evictInode =
    (s.inodeTable (s.ledger.object o).slot).evictInode
  others : ∀ p, p ≠ o → s'.references p = s.references p
  count : inode.iCount = s'.references o - x.dropped
  pos : 0 < inode.iCount
  fits : inode.iCount < 2 ^ 31

namespace Recounted

variable {s s' : State} {o : Nat} {x : Object} {inode : Inode}

theorem object_self (h : Recounted s s' o x inode) :
    s'.ledger.object o = x := by
  rw [h.object, Function.update_self]

theorem object_of_ne (h : Recounted s s' o x inode) {p : Nat} (hp : p ≠ o) :
    s'.ledger.object p = s.ledger.object p := by
  rw [h.object, Function.update_of_ne hp]

theorem referenced (h : Recounted s s' o x inode) (ho : s.Referenced o)
    (p : Nat) : s'.Referenced p ↔ s.Referenced p := by
  by_cases hp : p = o
  · subst hp
    have hcount := h.count
    have hpos := h.pos
    refine iff_of_true (referenced_iff.mpr ⟨?_, by omega⟩) ho
    rw [h.created]
    exact ho.1
  · rw [referenced_iff, referenced_iff, h.created, h.others p hp]

theorem sound (h : Recounted s s' o x inode) (hok : Sound s)
    (ho : s.Referenced o) (hdentries : DentriesOk s') : Sound s' := by
  have hread : ∀ {β : Type} (f : Object → β), f x = f (s.ledger.object o) →
      ∀ p, f (s'.ledger.object p) = f (s.ledger.object p) := by
    intro β f hf p
    rw [h.object]
    exact apply_update_of_eq f hf p
  refine ⟨hdentries, hok.slots.congr h.inuse h.lists h.created h.owner
    h.evicted (hread Object.slot h.slot) (hread Object.sb h.sb)
    (hread Object.evictInode h.evict) (h.referenced ho), fun p hp => ?_⟩
  have hp := (h.referenced ho p).mp hp
  by_cases hpo : p = o
  · subst hpo
    have hinode : s'.inodeTable (s'.ledger.object p).slot = inode := by
      rw [h.object_self, h.slot, h.table, Function.update_self]
    constructor <;> rw [hinode]
    · rw [h.object_self, h.iSb, (hok.inodes p hp).sb, h.sb]
    · rw [h.object_self, h.evictInode, (hok.inodes p hp).evict, h.evict]
    · rw [h.object_self, h.count]
    · exact h.pos
    · exact h.fits
  · -- another inode referred to is in another slot
    have hinode : s'.inodeTable (s.ledger.object p).slot =
        s.inodeTable (s.ledger.object p).slot := by
      rw [h.table, Function.update_of_ne]
      intro heq
      exact hpo (hok.slots.slot_inj hp ho heq)
    exact (hok.inodes p hp).congr (h.object_of_ne hpo) hinode
      (h.others p hpo)

end Recounted

/-! ## The last reference -/

/-- The state after the last reference, the creator's, was put. -/
structure Released (s s' : State) (o : Nat) : Prop where
  inuse : s'.inodeInuse =
    Bitmap.clear s.inodeInuse (s.ledger.object o).slot
  lists : s'.sInodes = Function.update s.sInodes (s.ledger.object o).sb
    ((s.sInodes (s.ledger.object o).sb).filter
      fun i => i != (s.ledger.object o).slot)
  table : ∀ i, i ≠ (s.ledger.object o).slot →
    s'.inodeTable i = s.inodeTable i
  dentries : s'.dentries = s.dentries
  nextAddr : s'.nextAddr = s.nextAddr
  created : s'.ledger.created = s.ledger.created
  owner : s'.ledger.owner = s.ledger.owner
  object : s'.ledger.object = Function.update s.ledger.object o
    { s.ledger.object o with creator := false }
  evicted : s'.ledger.evicted =
    if (s.ledger.object o).evictInode then s.ledger.evicted ++ [o]
    else s.ledger.evicted

namespace Released

variable {s s' : State} {o : Nat}

theorem object_of_ne (h : Released s s' o) {p : Nat} (hp : p ≠ o) :
    s'.ledger.object p = s.ledger.object p := by
  rw [h.object, Function.update_of_ne hp]

theorem object_field (h : Released s s' o) {β : Type} (f : Object → β)
    (hf : f { s.ledger.object o with creator := false } =
      f (s.ledger.object o)) (p : Nat) :
    f (s'.ledger.object p) = f (s.ledger.object p) := by
  rw [h.object]
  exact apply_update_of_eq f hf p

theorem dentriesOf (h : Released s s' o) (p : Nat) :
    s'.dentriesOf p = s.dentriesOf p := by
  rw [State.dentriesOf, h.dentries, State.dentriesOf]

/-- Only the inode whose creator put it last loses its reference. -/
theorem referenced (h : Released s s' o) (hnone : s.dentriesOf o = [])
    (p : Nat) : s'.Referenced p ↔ s.Referenced p ∧ p ≠ o := by
  by_cases hp : p = o
  · subst hp
    simp [State.Referenced, h.dentriesOf, hnone, h.object]
  · simp [State.Referenced, h.created, h.dentriesOf, h.object_of_ne hp, hp]

theorem dentriesOk (h : Released s s' o) (hok : DentriesOk s) :
    DentriesOk s' where
  single := hok.single.of_dentries h.dentries h.nextAddr
  made d hd := by
    rw [h.dentries] at hd
    rw [h.created, h.object_field Object.slot rfl]
    exact hok.made d hd

theorem test (h : Released s s' o) (i : Nat) :
    Bitmap.test s'.inodeInuse i =
      (Bitmap.test s.inodeInuse i &&
        decide (i ≠ (s.ledger.object o).slot)) := by
  rw [h.inuse]
  exact Bitmap.test_clear _ _ i

theorem holds (h : Released s s' o) (hok : SlotsOk s) (ho : s.Referenced o)
    (hnone : s.dentriesOf o = []) (p : Nat) (hp : p < s'.ledger.created) :
    s'.Holds p ↔ s'.Referenced p := by
  have howner := ((hok.holds o ho.1).mpr ho).2
  rw [h.referenced hnone, ← hok.holds p (h.created ▸ hp)]
  simp only [State.Holds, h.object_field Object.slot rfl, h.test, h.owner,
    Bool.and_eq_true, decide_eq_true_eq]
  constructor
  · rintro ⟨⟨hset, hne⟩, hown⟩
    refine ⟨⟨hset, hown⟩, ?_⟩
    rintro rfl
    exact hne rfl
  · rintro ⟨⟨hset, hown⟩, hne⟩
    refine ⟨⟨hset, fun heq => hne ?_⟩, hown⟩
    rw [← hown, heq, howner]

/-- The slot was on the list of its super block only, and is taken off it. -/
theorem listed (h : Released s s' o) (hok : SlotsOk s) (ho : s.Referenced o)
    (b i : Nat) :
    i ∈ s'.sInodes b ↔ Bitmap.test s'.inodeInuse i = true ∧
      (s'.ledger.object (s'.ledger.owner i)).sb = b := by
  have howner := ((hok.holds o ho.1).mpr ho).2
  rw [h.test, h.owner, h.object_field Object.sb rfl, h.lists]
  -- the slot itself leaves its list; for any other the lists stay as they were
  by_cases hi : i = (s.ledger.object o).slot
  · subst hi
    have hother : ∀ b, (s.ledger.object o).slot ∈ s.sInodes b →
        b = (s.ledger.object o).sb := by
      intro b hmem
      have hb := ((hok.listed b _).mp hmem).2
      rw [howner] at hb
      exact hb.symm
    by_cases hb : b = (s.ledger.object o).sb
    · subst hb
      simp
    · simp only [Function.update_of_ne hb, ne_eq, not_true_eq_false,
        decide_false, Bool.and_false, Bool.false_eq_true, false_and,
        iff_false]
      exact fun hmem => hb (hother b hmem)
  · have hmem : i ∈ Function.update s.sInodes (s.ledger.object o).sb
        ((s.sInodes (s.ledger.object o).sb).filter
          fun i => i != (s.ledger.object o).slot) b ↔ i ∈ s.sInodes b := by
      by_cases hb : b = (s.ledger.object o).sb
      · subst hb
        simp [hi]
      · simp [hb]
    rw [hmem, hok.listed]
    simp [hi]

/-- The inode is evicted now, if its file system wants that; no other is. -/
theorem count_evicted (h : Released s s' o) (hok : SlotsOk s)
    (ho : s.Referenced o) (hnone : s.dentriesOf o = []) (p : Nat) :
    s'.ledger.evicted.count p =
      if p < s'.ledger.created ∧ (s'.ledger.object p).evictInode ∧
        ¬ s'.Referenced p then 1 else 0 := by
  have hbefore := hok.evicted p
  simp only [h.evicted, h.created, h.object_field Object.evictInode rfl,
    h.referenced hnone]
  by_cases hp : p = o
  · subst hp
    simp only [ho, not_true_eq_false, and_false, if_false] at hbefore
    cases hcall : (s.ledger.object p).evictInode <;>
      simp [hbefore, ho.1, List.count_append]
  · cases hcall : (s.ledger.object o).evictInode <;>
      simp [hbefore, hp, List.count_append, Ne.symm hp]

theorem slotsOk (h : Released s s' o) (hok : SlotsOk s) (ho : s.Referenced o)
    (hnone : s.dentriesOf o = []) : SlotsOk s' where
  words := by
    rw [h.inuse, Bitmap.length_clear]
    exact hok.words
  bound p hp := by
    rw [h.object_field Object.slot rfl]
    exact hok.bound p (h.created ▸ hp)
  holds := h.holds hok ho hnone
  used i hi := by
    rw [h.test, Bool.and_eq_true] at hi
    rw [h.created, h.owner, h.object_field Object.slot rfl]
    exact hok.used i hi.1
  listed := h.listed hok ho
  evicted := h.count_evicted hok ho hnone

theorem sound (h : Released s s' o) (hok : Sound s) (ho : s.Referenced o)
    (hnone : s.dentriesOf o = []) : Sound s' := by
  refine ⟨h.dentriesOk hok.dentries, h.slotsOk hok.slots ho hnone,
    fun p hp => ?_⟩
  obtain ⟨hp, hpo⟩ := (h.referenced hnone p).mp hp
  have hinode : s'.inodeTable (s.ledger.object p).slot =
      s.inodeTable (s.ledger.object p).slot := by
    refine h.table _ fun heq => hpo ?_
    exact hok.slots.slot_inj hp ho heq
  have hreferences : s'.references p = s.references p := by
    rw [State.references, h.object_of_ne hpo, h.dentriesOf, State.references]
  exact (hok.inodes p hp).congr (h.object_of_ne hpo) hinode hreferences

end Released

end Vfs
end OsKernel
