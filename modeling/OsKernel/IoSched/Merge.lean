import OsKernel.Lib.Tiling

/-!
# Merging requests (`demos/iosched/iosched.h`)

`request_can_merge` asks whether one request ends where the other begins, and
`request_merge` makes the first one cover both.  It takes the smaller of the
two first sectors and then the larger of two expressions for the number of
sectors, the second of which is computed from the sector already changed.

Requests that tile an interval of sectors do so after every merge, so whatever
is merged with whatever, the merging can go on until one request is left.
-/

namespace OsKernel
namespace IoSched

open Lib

/-- `struct request`: the fields merging reads. -/
structure SectorRequest where
  sector : UInt64
  nrSectors : UInt32
  bytes : UInt32
  op : UInt16
  deriving DecidableEq, Repr

/-- `request_end`. -/
def requestEnd (req : SectorRequest) : UInt64 :=
  req.sector + req.nrSectors.toUInt64

/-- `request_can_merge`. -/
def requestCanMerge (a b : SectorRequest) : Bool :=
  if a.op ≠ b.op then false
  else
    let aEnd := a.sector + a.nrSectors.toUInt64
    let bEnd := b.sector + b.nrSectors.toUInt64
    aEnd == b.sector || bEnd == a.sector

/-- `request_merge`: the request `a` afterwards. -/
def requestMerge (a b : SectorRequest) : SectorRequest :=
  let a := if b.sector < a.sector then { a with sector := b.sector } else a
  { a with
    nrSectors := max (a.nrSectors + b.nrSectors)
      (b.sector + b.nrSectors.toUInt64 - a.sector).toUInt32
    bytes := a.bytes + b.bytes }

/-- One merge: two requests of the list, in either order, of which the second
is discarded. -/
inductive Merges : List SectorRequest → List SectorRequest → Prop
  | pair {reqs rest : List SectorRequest} {a b : SectorRequest}
      (hperm : reqs.Perm (a :: b :: rest))
      (hcan : requestCanMerge a b = true) :
      Merges reqs (requestMerge a b :: rest)

namespace SectorRequest

/-- The first sector. -/
def first (req : SectorRequest) : Nat := req.sector.toNat

/-- The sector behind the last one. -/
def behind (req : SectorRequest) : Nat := req.sector.toNat + req.nrSectors.toNat

end SectorRequest

/-- Requests of one operation that tile the sectors from `s` to `e`, each with
as many bytes as its sectors have. -/
structure Tiled (op : UInt16) (s e : Nat) (reqs : List SectorRequest) :
    Prop where
  op_eq : ∀ req ∈ reqs, req.op = op
  bytes_eq : ∀ req ∈ reqs, req.bytes.toNat = 512 * req.nrSectors.toNat
  tiles : Tiles SectorRequest.first SectorRequest.behind reqs s e

/-! ## One merge -/

theorem toNat_requestEnd (req : SectorRequest) :
    (requestEnd req).toNat = req.behind % 2 ^ 64 := by
  rw [requestEnd, UInt64.toNat_add, UInt32.toNat_toUInt64]
  rfl

theorem requestCanMerge_iff {a b : SectorRequest} :
    requestCanMerge a b = true ↔
      a.op = b.op ∧ (requestEnd a = b.sector ∨ requestEnd b = a.sector) := by
  unfold requestCanMerge
  by_cases hop : a.op = b.op
  · simp [hop, requestEnd]
  · simp [hop]

@[simp] theorem requestMerge_op (a b : SectorRequest) :
    (requestMerge a b).op = a.op := by
  unfold requestMerge
  split
  · rfl
  · rfl

theorem toNat_max (x y : UInt32) : (max x y).toNat = max x.toNat y.toNat := by
  show (if x ≤ y then y else x).toNat = _
  split
  next hle =>
    rw [UInt32.le_iff_toNat_le] at hle
    omega
  next hgt =>
    rw [UInt32.le_iff_toNat_le] at hgt
    omega

/-- The first of two requests has become a request for the sectors of `front`
and `back`, which follow one another. -/
structure Joined (front back merged : SectorRequest) : Prop where
  next : front.behind = back.first
  first_eq : merged.first = front.first
  sectors_eq : merged.nrSectors.toNat =
    front.nrSectors.toNat + back.nrSectors.toNat
  bytes_eq : merged.bytes = front.bytes + back.bytes

section Pair

variable {a b : SectorRequest}

/-- The second request begins where the first one ends. -/
theorem requestMerge_back (hnext : a.behind = b.first)
    (hsmall : a.nrSectors.toNat + b.nrSectors.toNat < 2 ^ 32) :
    Joined a b (requestMerge a b) := by
  have hnext' : a.sector.toNat + a.nrSectors.toNat = b.sector.toNat := hnext
  have hlt := a.sector.toNat_lt
  have horder : ¬ b.sector < a.sector := by
    rw [UInt64.lt_iff_toNat_lt]
    omega
  unfold requestMerge
  simp only [if_neg horder]
  constructor
  · exact hnext
  · rfl
  · have hsum : (a.nrSectors + b.nrSectors).toNat =
        a.nrSectors.toNat + b.nrSectors.toNat := by
      rw [UInt32.toNat_add, Nat.mod_eq_of_lt hsmall]
    have hspan : (b.sector + b.nrSectors.toUInt64 - a.sector).toUInt32.toNat =
        a.nrSectors.toNat + b.nrSectors.toNat := by
      rw [UInt64.toNat_toUInt32, UInt64.toNat_sub, UInt64.toNat_add,
        UInt32.toNat_toUInt64]
      omega
    show (max _ _ : UInt32).toNat = _
    rw [toNat_max, hsum, hspan, Nat.max_self]
  · rfl

/-- The second request ends where the first one begins; its sector is stored
before the second expression is computed, which is then its length. -/
theorem requestMerge_front (hnext : b.behind = a.first)
    (hpos : 0 < b.nrSectors.toNat)
    (hsmall : a.nrSectors.toNat + b.nrSectors.toNat < 2 ^ 32) :
    Joined b a (requestMerge a b) := by
  have hnext' : b.sector.toNat + b.nrSectors.toNat = a.sector.toNat := hnext
  have hlt := b.sector.toNat_lt
  have horder : b.sector < a.sector := by
    rw [UInt64.lt_iff_toNat_lt]
    omega
  unfold requestMerge
  simp only [if_pos horder]
  constructor
  · exact hnext
  · rfl
  · have hsum : (a.nrSectors + b.nrSectors).toNat =
        a.nrSectors.toNat + b.nrSectors.toNat := by
      rw [UInt32.toNat_add, Nat.mod_eq_of_lt hsmall]
    have hspan : (b.sector + b.nrSectors.toUInt64 - b.sector).toUInt32.toNat =
        b.nrSectors.toNat := by
      have hlength := b.nrSectors.toNat_lt
      rw [UInt64.toNat_toUInt32, UInt64.toNat_sub, UInt64.toNat_add,
        UInt32.toNat_toUInt64]
      omega
    show (max _ _ : UInt32).toNat = _
    rw [toNat_max, hsum, hspan]
    omega
  · exact UInt32.add_comm _ _

/-- Of two requests of an interval that `request_can_merge` accepts, one ends
where the other begins, although the ends are computed modulo `2 ^ 64`. -/
theorem neighbours_of_canMerge {s e : Nat} (hsize : e - s < 2 ^ 32)
    (ha : s ≤ a.first ∧ a.behind ≤ e) (hb : s ≤ b.first ∧ b.behind ≤ e)
    (hcan : requestCanMerge a b = true) :
    a.behind = b.first ∨ b.behind = a.first := by
  obtain ⟨-, hends⟩ := requestCanMerge_iff.mp hcan
  rcases hends with hend | hend
  · left
    have hmod : a.behind % 2 ^ 64 = b.first := by
      rw [← toNat_requestEnd, hend]
      rfl
    omega
  · right
    have hmod : b.behind % 2 ^ 64 = a.first := by
      rw [← toNat_requestEnd, hend]
      rfl
    omega

end Pair

/-! ## Any order of merges -/

section Order

variable {op : UInt16} {s e : Nat} {reqs reqs' : List SectorRequest}

theorem Tiled.perm (h : Tiled op s e reqs) (hperm : reqs'.Perm reqs) :
    Tiled op s e reqs' where
  op_eq req hreq := h.op_eq req (hperm.mem_iff.mp hreq)
  bytes_eq req hreq := h.bytes_eq req (hperm.mem_iff.mp hreq)
  tiles := h.tiles.perm hperm

/-- Two requests of the list have become one. -/
theorem Tiled.join {front back merged : SectorRequest}
    {rest : List SectorRequest} (h : Tiled op s e (front :: back :: rest))
    (hsize : 512 * (e - s) < 2 ^ 32) (hjoined : Joined front back merged)
    (hop : merged.op = op) : Tiled op s e (merged :: rest) := by
  have hfront : front ∈ front :: back :: rest := List.mem_cons_self
  have hback : back ∈ front :: back :: rest :=
    List.mem_cons_of_mem front List.mem_cons_self
  have hrest : ∀ req ∈ rest, req ∈ front :: back :: rest := fun req hreq =>
    List.mem_cons_of_mem front (List.mem_cons_of_mem back hreq)
  have hnext := hjoined.next
  have hsectors := hjoined.sectors_eq
  have hfirst := hjoined.first_eq
  have hbehind : merged.behind = back.behind := by
    unfold SectorRequest.behind SectorRequest.first at *
    omega
  constructor
  · exact List.forall_mem_cons.mpr ⟨hop, fun req hreq => h.op_eq req (hrest req hreq)⟩
  · refine List.forall_mem_cons.mpr
      ⟨?_, fun req hreq => h.bytes_eq req (hrest req hreq)⟩
    have hfrontBytes := h.bytes_eq front hfront
    have hbackBytes := h.bytes_eq back hback
    have hlow := (h.tiles.bounds hfront).1
    have hhigh := (h.tiles.bounds hback).2
    -- the bytes of the whole interval fit, so these do
    have hfits : front.bytes.toNat + back.bytes.toNat < 2 ^ 32 := by
      unfold SectorRequest.behind SectorRequest.first at *
      omega
    rw [hjoined.bytes_eq, UInt32.toNat_add, Nat.mod_eq_of_lt hfits]
    omega
  · exact h.tiles.join hnext hfirst hbehind

theorem Tiled.merges (h : Tiled op s e reqs) (hsize : 512 * (e - s) < 2 ^ 32)
    (hmerges : Merges reqs reqs') : Tiled op s e reqs' := by
  cases hmerges with
  | @pair rest a b hperm hcan =>
      have hlist := h.perm hperm.symm
      have hmem : b ∈ a :: b :: rest := List.mem_cons_of_mem a List.mem_cons_self
      have ha := hlist.tiles.bounds List.mem_cons_self
      have hb := hlist.tiles.bounds hmem
      have hpos : b.first < b.behind := hlist.tiles.nonempty b hmem
      have hop : (requestMerge a b).op = op := by
        rw [requestMerge_op]
        exact hlist.op_eq a List.mem_cons_self
      rcases neighbours_of_canMerge (by omega) ha hb hcan with hnext | hnext
      · refine hlist.join hsize (requestMerge_back hnext ?_) hop
        unfold SectorRequest.behind SectorRequest.first at *
        omega
      · refine (hlist.perm (List.Perm.swap a b rest)).join hsize
          (requestMerge_front hnext ?_ ?_) hop
        · unfold SectorRequest.behind SectorRequest.first at *
          omega
        · unfold SectorRequest.behind SectorRequest.first at *
          omega

theorem Tiled.merges_star (h : Tiled op s e reqs)
    (hsize : 512 * (e - s) < 2 ^ 32)
    (hmerges : Relation.ReflTransGen Merges reqs reqs') :
    Tiled op s e reqs' := by
  induction hmerges with
  | refl => exact h
  | tail _ hlast ih => exact ih.merges hsize hlast

/-- As long as there are two requests, some two can be merged. -/
theorem Tiled.exists_merges (h : Tiled op s e reqs) (htwo : 2 ≤ reqs.length) :
    ∃ reqs', Merges reqs reqs' ∧ reqs'.length + 1 = reqs.length := by
  obtain ⟨a, b, rest, hperm, hnext⟩ := h.tiles.exists_next htwo
  have hlist := h.perm hperm.symm
  have hmem : b ∈ a :: b :: rest := List.mem_cons_of_mem a List.mem_cons_self
  have hcan : requestCanMerge a b = true := by
    refine requestCanMerge_iff.mpr ⟨?_, .inl ?_⟩
    · rw [hlist.op_eq a List.mem_cons_self, hlist.op_eq b hmem]
    · apply UInt64.toNat_inj.mp
      have hlt : b.first < 2 ^ 64 := b.sector.toNat_lt
      rw [toNat_requestEnd, hnext, Nat.mod_eq_of_lt hlt]
      rfl
  refine ⟨requestMerge a b :: rest, .pair hperm hcan, ?_⟩
  rw [hperm.length_eq]
  rfl

/-- Merging can go on until one request is left. -/
theorem Tiled.exists_single (h : Tiled op s e reqs)
    (hsize : 512 * (e - s) < 2 ^ 32) (hne : reqs ≠ []) :
    ∃ req, Relation.ReflTransGen Merges reqs [req] := by
  -- by induction on the number of requests, as every merge takes one away
  induction hlength : reqs.length generalizing reqs with
  | zero => exact absurd (List.eq_nil_of_length_eq_zero hlength) hne
  | succ n ih =>
      cases n with
      | zero =>
          obtain ⟨req, rfl⟩ := List.length_eq_one_iff.mp hlength
          exact ⟨req, .refl⟩
      | succ n =>
          obtain ⟨reqs', hmerges, hshorter⟩ := h.exists_merges (by omega)
          have hlength' : reqs'.length = n + 1 := by omega
          have hne' : reqs' ≠ [] := by
            rintro rfl
            cases hlength'
          obtain ⟨req, hrest⟩ := ih (h.merges hsize hmerges) hne' hlength'
          exact ⟨req, .head hmerges hrest⟩

/-- Whatever has been merged, the merging can go on until one request is left,
and that is the request for the whole interval. -/
theorem merging_confluent (hreqs : Tiled op s e reqs) (hne : reqs ≠ [])
    (hsize : 512 * (e - s) < 2 ^ 32) :
    (∀ reqs', Relation.ReflTransGen Merges reqs reqs' →
      ∃ req, Relation.ReflTransGen Merges reqs' [req]) ∧
    ∀ req, Relation.ReflTransGen Merges reqs [req] →
      req.op = op ∧ req.sector.toNat = s ∧ req.nrSectors.toNat = e - s ∧
        req.bytes.toNat = 512 * (e - s) := by
  constructor
  · intro reqs' hmerges
    refine (hreqs.merges_star hsize hmerges).exists_single hsize ?_
    rintro rfl
    -- a merge leaves a request
    cases hmerges with
    | refl => exact hne rfl
    | tail _ hlast => cases hlast
  · intro req hmerges
    have hsingle := hreqs.merges_star hsize hmerges
    have hmem : req ∈ [req] := List.mem_cons_self
    obtain ⟨hfirst, hbehind⟩ := hsingle.tiles.of_singleton
    have hsectors : req.nrSectors.toNat = e - s := by
      unfold SectorRequest.behind SectorRequest.first at *
      omega
    refine ⟨hsingle.op_eq req hmem, hfirst, hsectors, ?_⟩
    rw [hsingle.bytes_eq req hmem, hsectors]

end Order

/-- Three reads of the first ten sectors, the last one first. -/
def threeReads : List SectorRequest :=
  [⟨8, 2, 1024, 0⟩, ⟨0, 5, 2560, 0⟩, ⟨5, 3, 1536, 0⟩]

theorem threeReads_tiled : Tiled 0 0 10 threeReads where
  op_eq := by decide
  bytes_eq := by decide
  tiles := by
    refine ⟨by decide, fun x => ?_⟩
    simp only [threeReads, List.countP_cons, List.countP_nil, inRange_iff,
      SectorRequest.first, SectorRequest.behind, UInt64.reduceToNat,
      UInt32.reduceToNat]
    split_ifs <;> omega

theorem merging_confluent_threeReads :
    ∃ req, Relation.ReflTransGen Merges threeReads [req] ∧
      req.sector.toNat = 0 ∧ req.nrSectors.toNat = 10 ∧
      req.bytes.toNat = 5120 := by
  have hconfluent := merging_confluent threeReads_tiled (by decide) (by decide)
  obtain ⟨req, hmerges⟩ := hconfluent.1 threeReads .refl
  exact ⟨req, hmerges, (hconfluent.2 req hmerges).2⟩

end IoSched
end OsKernel
