import OsKernel.Lvm.Volumes

/-!
# Copy-on-write bookkeeping of snapshots

`lv_create_snapshot` reserves `cow_pe_count` PEs for copies and allocates a
bitmap with one bit for each LE the origin has at that moment.
`snapshot_write` marks the LE of a sector in the bitmap.  It compares the LE
neither with the length of the bitmap nor the number of marks with
`cow_pe_count`.

The runs of this module have all calls of the volume manager with any `int`
arguments, and writes through a snapshot to any sector of its origin.  Without
the writes and with arguments in range they are the runs of `system`
(`snap_volumes_of_system`).  What `snapshot_write` accesses stays within the
bitmap as long as there is one, which there is up to `2 ^ 31 - 64` LEs, and no
write is to an LE the origin gained beyond the last word; the copies stay within
the reserved PEs as long as no more LEs than that are written
(`snapshot_cow_bounded_iff`).
-/

namespace OsKernel
namespace Lvm

open Lib

/-- `snapshot_write`: the changed snapshot, and the indices of the words of
`cow_bitmap` it accesses.  A word outside the bitmap reads as zero and is not
written. -/
def snapshotWrite (snap : Lv) (lvSector : Nat) : Lv × List Int :=
  match snap.origin with
  | none => (snap, [])
  | some _ =>
      let leIdx := wrap32 (lvSector / peSizeSectors : Nat)
      let accessed := [leIdx.tdiv 64]
      if leIdx < 0 then (snap, accessed)
      else if Bitmap.test snap.cowBitmap leIdx.toNat = false then
        ({ snap with cowBitmap := Bitmap.set snap.cowBitmap leIdx.toNat },
          accessed)
      else (snap, accessed)

/-! ## Runs with snapshot writes -/

/-- What is remembered of a snapshot; no function reads it.  `size` is the LE
count of the origin at creation, `extent` what `vg_alloc_pe` reserved for the
copies, `written` the LEs written since, and `accessed` the words of
`cow_bitmap` accessed since. -/
structure Cow where
  size : Int
  extent : Extent
  written : List Nat
  accessed : List Int
  deriving DecidableEq, Repr

/-- A volume as its caller holds it; `cow` is there for snapshots. -/
structure Volume where
  lv : Lv
  cow : Option Cow
  deriving DecidableEq, Repr

/-- A volume group with the volumes returned so far; a handle is an index into
`volumes`. -/
structure SnapState where
  vg : Vg
  volumes : List Volume
  deriving DecidableEq, Repr

/-- A call of the volume manager, or `snapshot_write`. -/
inductive SnapCall
  | call (call : Call)
  | write (handle lvSector : Nat)
  deriving DecidableEq, Repr

/-- The volume after `snapshot_write`. -/
def Volume.write (v : Volume) (lvSector : Nat) : Volume :=
  { lv := (snapshotWrite v.lv lvSector).1
    cow := v.cow.map fun c =>
      { c with
        written := c.written ++ [lvSector / peSizeSectors]
        accessed := c.accessed ++ (snapshotWrite v.lv lvSector).2 } }

instance (x : Int) : Decidable (FitsInt x) :=
  inferInstanceAs (Decidable (-2 ^ 31 ≤ x ∧ x < 2 ^ 31))

/-- The arguments are values of their C types. -/
def Call.Typed : Call → Prop
  | .addPv sizeSectors => sizeSectors < 2 ^ 64
  | .create leCount => FitsInt leCount
  | .extend _ additionalLe => FitsInt additionalLe
  | .createSnapshot _ cowPeCount => FitsInt cowPeCount

instance : DecidablePred Call.Typed
  | .addPv sizeSectors => inferInstanceAs (Decidable (sizeSectors < 2 ^ 64))
  | .create leCount => inferInstanceAs (Decidable (FitsInt leCount))
  | .extend _ additionalLe => inferInstanceAs (Decidable (FitsInt additionalLe))
  | .createSnapshot _ cowPeCount =>
      inferInstanceAs (Decidable (FitsInt cowPeCount))

/-- The volume with a handle. -/
def SnapState.lv (s : SnapState) (handle : Nat) : Option Lv :=
  (s.volumes[handle]?).map Volume.lv

/-- The state after a call that left the group `g`. -/
def SnapState.after (s : SnapState) (g : Vg) : Outcome → SnapState
  | .noVolume => { s with vg := g }
  | .created l _ => { vg := g, volumes := s.volumes ++ [⟨l, none⟩] }
  | .extended handle l =>
      { vg := g
        volumes := s.volumes.modify handle fun v => { v with lv := l } }
  | .snapshot snap area =>
      { vg := g
        volumes := s.volumes ++ [⟨snap, some ⟨snap.leCount, area, [], []⟩⟩] }

/-- Perform one call.  The arguments are any values of their C types; a sector
written through a snapshot is below the present size of its origin. -/
def snapStep (s : SnapState) : SnapCall → Option SnapState
  | .call call =>
      if call.Typed then
        (perform s.vg s.lv call).map fun (g, outcome) => s.after g outcome
      else none
  | .write handle lvSector =>
      (s.volumes[handle]?).bind fun v =>
        (v.lv.origin.bind fun origin => s.volumes[origin]?).bind fun o =>
          if (lvSector : Int) < o.lv.leCount * peSizeSectors then
            some { s with volumes := s.volumes.set handle (v.write lvSector) }
          else none

/-- Runs start from an empty group. -/
def snapSystem : ActionSystem SnapState SnapCall where
  init s := s = { vg := vgCreate, volumes := [] }
  step := snapStep

/-- What one call of such a run does. -/
inductive SnapEffect (s : SnapState) : SnapCall → SnapState → Prop
  | call {call : Call} {g : Vg} {outcome : Outcome} (htyped : call.Typed)
      (hperform : perform s.vg s.lv call = some (g, outcome)) :
      SnapEffect s (.call call) (s.after g outcome)
  | write {handle origin : Nat} {v o : Volume} (lvSector : Nat)
      (hget : s.volumes[handle]? = some v)
      (horigin : v.lv.origin = some origin)
      (ho : s.volumes[origin]? = some o)
      (hbelow : (lvSector : Int) < o.lv.leCount * peSizeSectors) :
      SnapEffect s (.write handle lvSector)
        { s with volumes := s.volumes.set handle (v.write lvSector) }

theorem snapStep_effect {s t : SnapState} {call : SnapCall}
    (hstep : snapStep s call = some t) : SnapEffect s call t := by
  cases call with
  | call call =>
      simp only [snapStep] at hstep
      split at hstep
      next htyped =>
        obtain ⟨⟨g, outcome⟩, hperform, rfl⟩ := Option.map_eq_some_iff.mp hstep
        exact .call htyped hperform
      next => contradiction
  | write handle lvSector =>
      simp only [snapStep] at hstep
      obtain ⟨v, hget, hrest⟩ := Option.bind_eq_some_iff.mp hstep
      obtain ⟨o, horigin, hwrite⟩ := Option.bind_eq_some_iff.mp hrest
      obtain ⟨origin, horigin, ho⟩ := Option.bind_eq_some_iff.mp horigin
      split at hwrite
      next hbelow =>
        cases hwrite
        exact .write lvSector hget horigin ho hbelow
      next => contradiction

theorem SnapState.getElem?_of_lv {s : SnapState} {handle : Nat} {l : Lv}
    (hget : s.lv handle = some l) :
    ∃ v, s.volumes[handle]? = some v ∧ v.lv = l :=
  Option.map_eq_some_iff.mp hget

theorem SnapState.after_extended {s : SnapState} {handle : Nat} {v : Volume}
    (hget : s.volumes[handle]? = some v) (g : Vg) (l : Lv) :
    s.after g (.extended handle l) =
      { vg := g, volumes := s.volumes.set handle { v with lv := l } } := by
  simp [SnapState.after, List.modify_eq_set_getElem?, hget]

/-! ## The runs without their writes -/

/-- A volume without the marks of its COW bitmap. -/
def Lv.unmarked (l : Lv) : Lv := { l with cowBitmap := [] }

/-- A result without the marks. -/
def Outcome.unmarked : Outcome → Outcome
  | .noVolume => .noVolume
  | .created l complete => .created l.unmarked complete
  | .extended handle l => .extended handle l.unmarked
  | .snapshot snap area => .snapshot snap.unmarked area

theorem lvExtend_unmarked (l : Lv) (g : Vg) (additionalLe : Int) :
    lvExtend l.unmarked g additionalLe =
      (lvExtend l g additionalLe).map fun (l', g', ok) =>
        (l'.unmarked, g', ok) := by
  simp only [lvExtend, apply_ite (Option.map _), Option.map_none,
    Option.map_some]
  rfl

/-- Volumes that differ in their marks only are extended alike. -/
theorem exists_lvExtend_of_unmarked {l l' after : Lv} {g g' : Vg}
    {additionalLe : Int} {ok : Bool} (hl : l'.unmarked = l.unmarked)
    (hextend : lvExtend l g additionalLe = some (after, g', ok)) :
    ∃ after', lvExtend l' g additionalLe = some (after', g', ok) ∧
      after'.unmarked = after.unmarked := by
  have hmap := lvExtend_unmarked l g additionalLe
  rw [← hl, lvExtend_unmarked, hextend, Option.map_some] at hmap
  obtain ⟨⟨after', _, ok'⟩, hextend', heq⟩ := Option.map_eq_some_iff.mp hmap
  simp only [Prod.mk.injEq] at heq
  obtain ⟨hafter, rfl, rfl⟩ := heq
  exact ⟨after', hextend', hafter⟩

theorem snapshotOf_unmarked {l l' : Lv} (hl : l'.unmarked = l.unmarked)
    (handle : Nat) (start cowPeCount : Int) :
    (snapshotOf handle l' start cowPeCount).unmarked =
      (snapshotOf handle l start cowPeCount).unmarked := by
  simp only [Lv.unmarked, Lv.mk.injEq] at hl
  simp only [snapshotOf, Lv.unmarked, hl]

/-- No call reads the marks. -/
theorem perform_unmarked {g g' : Vg} {lv lv' : Nat → Option Lv} {call : Call}
    {outcome : Outcome}
    (hsame : ∀ handle, (lv handle).map Lv.unmarked =
      (lv' handle).map Lv.unmarked)
    (hperform : perform g lv call = some (g', outcome)) :
    ∃ outcome', perform g lv' call = some (g', outcome') ∧
      outcome.unmarked = outcome'.unmarked := by
  have hother : ∀ {handle l}, lv handle = some l →
      ∃ l', lv' handle = some l' ∧ l'.unmarked = l.unmarked := by
    intro handle l hget
    have hmap := hsame handle
    rw [hget, Option.map_some] at hmap
    exact Option.map_eq_some_iff.mp hmap.symm
  cases call with
  | addPv sizeSectors => exact ⟨outcome, hperform, rfl⟩
  | create leCount => exact ⟨outcome, hperform, rfl⟩
  | extend handle additionalLe =>
      obtain ⟨l, hget, hrest⟩ := Option.bind_eq_some_iff.mp hperform
      obtain ⟨l', hget', hl⟩ := hother hget
      simp only [perform, hget', Option.bind_some]
      split at hrest
      next hsafe =>
        obtain ⟨⟨after, _, ok⟩, hextend, heq⟩ := Option.map_eq_some_iff.mp hrest
        cases heq
        obtain ⟨after', hextend', hafter⟩ := exists_lvExtend_of_unmarked hl hextend
        refine ⟨.extended handle after', ?_, ?_⟩
        · rw [if_pos hsafe, hextend', Option.map_some]
        · simp only [Outcome.unmarked, hafter]
      next => contradiction
  | createSnapshot handle cowPeCount =>
      obtain ⟨l, hget, hrest⟩ := Option.bind_eq_some_iff.mp hperform
      obtain ⟨l', hget', hl⟩ := hother hget
      simp only [perform, hget', Option.bind_some]
      split at hrest
      next hsafe =>
        rw [if_pos hsafe]
        simp only [lvCreateSnapshot] at hrest ⊢
        cases halloc : vgAllocPe g cowPeCount with
        | none =>
            -- no COW area: both calls return `NULL`
            rw [halloc] at hrest
            exact ⟨outcome, hrest, rfl⟩
        | some result =>
            rw [halloc] at hrest
            cases hrest
            refine ⟨_, rfl, ?_⟩
            simp only [Outcome.unmarked, snapshotOf_unmarked hl]
      next => contradiction

theorem snapshotWrite_unmarked (snap : Lv) (lvSector : Nat) :
    (snapshotWrite snap lvSector).1.unmarked = snap.unmarked := by
  cases horigin : snap.origin with
  | none => simp only [snapshotWrite, horigin]
  | some origin =>
      simp only [snapshotWrite, horigin]
      split_ifs
      · rfl
      · simp only [Lv.unmarked, horigin]
      · rfl

/-- The groups are the same, and so are the volumes without the marks. -/
structure SnapState.ShownBy (s : SnapState) (t : State) : Prop where
  vg : s.vg = t.vg
  volumes : s.volumes.map (fun v => v.lv.unmarked) =
    t.lvs.map fun h => h.lv.unmarked

theorem SnapState.ShownBy.lv {s : SnapState} {t : State} (h : s.ShownBy t)
    (handle : Nat) :
    (s.lv handle).map Lv.unmarked = (t.lv handle).map Lv.unmarked := by
  have hget := congrArg (·[handle]?) h.volumes
  simp only [List.getElem?_map] at hget
  simp only [SnapState.lv, State.lv, Option.map_map]
  exact hget

theorem SnapState.ShownBy.after {s : SnapState} {t : State} (h : s.ShownBy t)
    (g : Vg) {outcome outcome' : Outcome}
    (hsame : outcome.unmarked = outcome'.unmarked) :
    (s.after g outcome).ShownBy (t.after g outcome') := by
  cases outcome <;> cases outcome' <;>
    simp only [Outcome.unmarked, reduceCtorEq, Outcome.created.injEq,
      Outcome.extended.injEq, Outcome.snapshot.injEq] at hsame
  case noVolume => exact ⟨rfl, h.volumes⟩
  case created => exact ⟨rfl, by simp [SnapState.after, State.after, h.volumes, hsame]⟩
  case extended handle l _ l' =>
    obtain ⟨rfl, hl⟩ := hsame
    refine ⟨rfl, List.ext_getElem? fun i => ?_⟩
    have hget := congrArg (·[i]?) h.volumes
    simp only [List.getElem?_map] at hget
    simp only [SnapState.after, State.after, List.getElem?_map,
      List.getElem?_modify, Option.map_eq_map, Option.map_map]
    split
    next =>
      have hconst := congrArg (Option.map fun _ => l.unmarked) hget
      rw [Option.map_map, Option.map_map] at hconst
      refine hconst.trans ?_
      rw [hl]
      rfl
    next =>
      exact hget
  case snapshot => exact ⟨rfl, by simp [SnapState.after, State.after, h.volumes, hsame]⟩

/-- Calls in the range of `step`, and any writes. -/
def SnapCall.InRange : SnapCall → Prop
  | .call c => c.InRange
  | .write _ _ => True

/-- Without the marks, the volumes of a run with writes are those of the run of
its calls alone. -/
theorem snap_volumes_of_system {s : SnapState}
    (hreach : snapSystem.ReachableWhile (fun _ call => call.InRange) s) :
    ∃ t, system.Reachable t ∧ s.ShownBy t := by
  refine hreach.invariant (P := fun s => ∃ t, system.Reachable t ∧ s.ShownBy t)
    ?_ ?_
  · rintro s rfl
    exact ⟨_, .start rfl, rfl, rfl⟩
  · intro s call s' _ ⟨t, ht, hshown⟩ hrange hstep
    cases snapStep_effect hstep with
    | @call call g outcome htyped hperform =>
        rw [hshown.vg] at hperform
        obtain ⟨outcome', hperform', hsame⟩ :=
          perform_unmarked hshown.lv hperform
        refine ⟨t.after g outcome', ht.next (a := call) ?_, hshown.after g hsame⟩
        show step t call = _
        have hcall : call.InRange := hrange
        rw [step, if_pos hcall, hperform', Option.map_some]
    | @write handle origin v o lvSector hget =>
        refine ⟨t, ht, hshown.vg, ?_⟩
        rw [← hshown.volumes]
        refine map_set_of_eq hget ?_
        show (snapshotWrite v.lv lvSector).1.unmarked = _
        exact snapshotWrite_unmarked v.lv lvSector

/-! ## What the bookkeeping of a snapshot says -/

/-- The bitmap, its accesses and the recorded location of a snapshot follow
what happened since its creation. -/
structure Cow.Tracks (c : Cow) (snap : Lv) : Prop where
  size : FitsInt c.size
  is_snapshot : ∃ origin, snap.origin = some origin
  words : snap.cowBitmap.length = bitmapWords c.size
  marked : ∀ le, Bitmap.test snap.cowBitmap le = true ↔
    le ∈ c.written ∧ le < 64 * bitmapWords c.size
  accessed : ∀ word, word ∈ c.accessed ↔
    ∃ le ∈ c.written, word = (le / 64 : Nat)
  start : snap.cowPeStart = c.extent.start
  count : snap.cowPeCount = c.extent.count

theorem snapshotOf_tracks (handle index : Nat) {origin : Lv}
    (hfits : FitsInt origin.leCount) (start cowPeCount : Int) :
    Cow.Tracks ⟨origin.leCount, ⟨index, start, cowPeCount⟩, [], []⟩
      (snapshotOf handle origin start cowPeCount) where
  size := hfits
  is_snapshot := ⟨handle, rfl⟩
  words := List.length_replicate
  marked := by
    intro le
    show Bitmap.test (List.replicate _ 0) le = true ↔ _
    simp
  accessed := by simp
  start := rfl
  count := rfl

/-- A write to an LE that is an `int` marks the LE if the bitmap has a bit for
it, and accesses the word the bit is or would be in. -/
theorem snapshotWrite_eq {snap : Lv} {origin lvSector le : Nat}
    (horigin : snap.origin = some origin)
    (hle : lvSector / peSizeSectors = le) (hfits : le < 2 ^ 31) :
    ∃ words, snapshotWrite snap lvSector =
        ({ snap with cowBitmap := words }, [((le / 64 : Nat) : Int)]) ∧
      words.length = snap.cowBitmap.length ∧
      ∀ j, Bitmap.test words j = true ↔ Bitmap.test snap.cowBitmap j = true ∨
        j = le ∧ le < 64 * snap.cowBitmap.length := by
  have hidx : wrap32 (lvSector / peSizeSectors : Nat) = (le : Int) := by
    rw [hle, wrap32_natCast hfits]
  have hword : (le : Int).tdiv 64 = (le / 64 : Nat) := by
    rw [Int.tdiv_eq_ediv_of_nonneg (by omega)]
    omega
  simp only [snapshotWrite, horigin, hidx, hword, Int.toNat_natCast]
  rw [if_neg (by omega)]
  split
  next hclear =>
    refine ⟨_, rfl, Bitmap.length_set _ _, fun j => ?_⟩
    rcases Nat.lt_or_ge le (64 * snap.cowBitmap.length) with hin | hout
    · rw [Bitmap.test_set _ hin, Bool.or_eq_true, decide_eq_true_eq]
      simp only [hin, and_true]
    · rw [Bitmap.set_of_length_le hout]
      simp only [Nat.not_lt.mpr hout, and_false, or_false]
  next hset =>
    -- the bit is marked already
    refine ⟨snap.cowBitmap, by rw [← horigin], rfl, fun j => ?_⟩
    have hmarked := Bool.eq_true_of_not_eq_false hset
    grind

theorem Cow.Tracks.write {c : Cow} {snap : Lv} (hc : c.Tracks snap)
    {lvSector : Nat} (hfits : lvSector / peSizeSectors < 2 ^ 31) :
    Cow.Tracks
      { c with
        written := c.written ++ [lvSector / peSizeSectors]
        accessed := c.accessed ++ (snapshotWrite snap lvSector).2 }
      (snapshotWrite snap lvSector).1 := by
  obtain ⟨origin, horigin⟩ := hc.is_snapshot
  generalize hle : lvSector / peSizeSectors = le at hfits ⊢
  obtain ⟨words, hresult, hlength, htest⟩ :=
    snapshotWrite_eq horigin hle hfits
  rw [hresult]
  exact {
    size := hc.size
    is_snapshot := ⟨origin, horigin⟩
    words := hlength.trans hc.words
    marked := by
      intro j
      rw [htest, hc.marked, hc.words, List.mem_append, List.mem_singleton]
      grind
    accessed := by
      intro word
      simp only [List.mem_append, List.mem_singleton, hc.accessed, or_and_right,
        exists_or, exists_eq_left]
    start := hc.start
    count := hc.count }

/-! ## Whole runs -/

/-- Every LE count is an `int`, and the bookkeeping of every snapshot follows
its history. -/
structure SnapState.Ok (s : SnapState) : Prop where
  fits : ∀ v ∈ s.volumes, FitsInt v.lv.leCount
  tracks : ∀ v ∈ s.volumes, ∀ c, v.cow = some c → c.Tracks v.lv

/-- A call that puts a good volume into the list, new or in place of another,
keeps the list good. -/
theorem SnapState.Ok.append {s : SnapState} (hs : s.Ok) {g : Vg} {v : Volume}
    (hfits : FitsInt v.lv.leCount)
    (htracks : ∀ c, v.cow = some c → c.Tracks v.lv) :
    SnapState.Ok { vg := g, volumes := s.volumes ++ [v] } where
  fits := by
    intro w hw
    rcases List.mem_append.mp hw with hold | hnew
    · exact hs.fits w hold
    · rw [List.mem_singleton.mp hnew]
      exact hfits
  tracks := by
    intro w hw
    rcases List.mem_append.mp hw with hold | hnew
    · exact hs.tracks w hold
    · rw [List.mem_singleton.mp hnew]
      exact htracks

theorem SnapState.Ok.set {s : SnapState} (hs : s.Ok) {g : Vg} {v : Volume}
    (handle : Nat) (hfits : FitsInt v.lv.leCount)
    (htracks : ∀ c, v.cow = some c → c.Tracks v.lv) :
    SnapState.Ok { vg := g, volumes := s.volumes.set handle v } where
  fits := by
    intro w hw
    rcases List.mem_or_eq_of_mem_set hw with hold | rfl
    · exact hs.fits w hold
    · exact hfits
  tracks := by
    intro w hw
    rcases List.mem_or_eq_of_mem_set hw with hold | rfl
    · exact hs.tracks w hold
    · exact htracks

/-- A sector below the size of a volume is in an LE that is an `int`. -/
theorem le_lt_of_below {leCount : Int} (hfits : FitsInt leCount)
    {lvSector : Nat} (hbelow : (lvSector : Int) < leCount * peSizeSectors) :
    lvSector / peSizeSectors < 2 ^ 31 := by
  have hhigh := hfits.2
  have hsize : peSizeSectors = 2048 := rfl
  rw [hsize] at hbelow ⊢
  omega

/-- `lv_extend` leaves the bookkeeping of a snapshot alone. -/
theorem Cow.Tracks.extend {c : Cow} {l l' : Lv} {g g' : Vg} {additionalLe : Int}
    {ok : Bool} (hc : c.Tracks l)
    (hextend : lvExtend l g additionalLe = some (l', g', ok)) : c.Tracks l' := by
  obtain ⟨-, leMap, rfl⟩ := lvExtend_some hextend
  exact ⟨hc.size, hc.is_snapshot, hc.words, hc.marked, hc.accessed, hc.start,
    hc.count⟩

theorem Performed.snapOk {s : SnapState} {call : Call} {g : Vg}
    {outcome : Outcome} (h : Performed s.vg s.lv call g outcome)
    (htyped : call.Typed) (hs : s.Ok) : (s.after g outcome).Ok := by
  cases h with
  | nothing => exact ⟨hs.fits, hs.tracks⟩
  | addPv => exact ⟨hs.fits, hs.tracks⟩
  | create leCount =>
      refine hs.append htyped (fun c hc => ?_)
      exact absurd hc (Option.some_ne_none c).symm
  | @extend handle l l' _ ok additionalLe hget _ hextend =>
      obtain ⟨v, hv, rfl⟩ := SnapState.getElem?_of_lv hget
      have hmem := List.mem_of_getElem? hv
      rw [SnapState.after_extended hv]
      refine hs.set handle ?_ fun c hc => (hs.tracks v hmem c hc).extend hextend
      obtain ⟨-, leMap, rfl⟩ := lvExtend_some hextend
      show FitsInt (if ok then _ else _)
      split
      · exact fitsInt_wrap32 _
      · exact hs.fits v hmem
  | @createSnapshot handle index _ _ start cowPeCount hget =>
      obtain ⟨v, hv, rfl⟩ := SnapState.getElem?_of_lv hget
      have hfits := hs.fits v (List.mem_of_getElem? hv)
      refine hs.append hfits (fun c hc => ?_)
      cases hc
      exact snapshotOf_tracks handle index hfits start cowPeCount

theorem SnapEffect.ok {s t : SnapState} {call : SnapCall}
    (h : SnapEffect s call t) (hs : s.Ok) : t.Ok := by
  cases h with
  | call htyped hperform => exact (perform_some hperform).snapOk htyped hs
  | @write handle origin v o lvSector hget horigin ho hbelow =>
      have hv := List.mem_of_getElem? hget
      have hle := le_lt_of_below (hs.fits o (List.mem_of_getElem? ho)) hbelow
      refine hs.set handle ?_ (fun c hc => ?_)
      · obtain ⟨words, hresult, -, -⟩ := snapshotWrite_eq horigin rfl hle
        show FitsInt (snapshotWrite v.lv lvSector).1.leCount
        rw [hresult]
        exact hs.fits v hv
      · obtain ⟨before, hbefore, rfl⟩ := Option.map_eq_some_iff.mp hc
        exact (hs.tracks v hv before hbefore).write hle

theorem reachable_snap_ok {s : SnapState} (hreach : snapSystem.Reachable s) :
    s.Ok := by
  refine hreach.invariant (P := SnapState.Ok) ?_ ?_
  · rintro s rfl
    exact ⟨fun v hv => absurd hv List.not_mem_nil,
      fun v hv => absurd hv List.not_mem_nil⟩
  · intro s call t _ hs hstep
    exact (snapStep_effect hstep).ok hs

/-! ## The bounds of the bookkeeping -/

/-- The LEs marked as copied. -/
def Lv.copied (snap : Lv) : Finset Nat :=
  (Finset.range (64 * snap.cowBitmap.length)).filter fun le =>
    Bitmap.test snap.cowBitmap le = true

/-- The bookkeeping stays within what was reserved: the words accessed are
among those allocated at creation, the marks are the LEs written, and there is
a reserved PE for every mark. -/
structure CowBounded (snap : Lv) (c : Cow) : Prop where
  inside : ∀ word ∈ c.accessed, 0 ≤ word ∧ word < bitmapWords c.size
  marked : ∀ le, Bitmap.test snap.cowBitmap le = true ↔ le ∈ c.written
  reserved : (snap.copied.card : Int) ≤ snap.cowPeCount

theorem Cow.Tracks.copied {c : Cow} {snap : Lv} (hc : c.Tracks snap)
    (hbelow : ∀ le ∈ c.written, le < 64 * bitmapWords c.size) :
    snap.copied = c.written.toFinset := by
  ext le
  rw [Lv.copied, Finset.mem_filter, Finset.mem_range, hc.words, hc.marked,
    List.mem_toFinset]
  constructor
  · intro ⟨_, hwritten, _⟩
    exact hwritten
  · intro hwritten
    exact ⟨hbelow le hwritten, hwritten, hbelow le hwritten⟩

/-- The LEs that a bitmap for `bits` LEs has a bit for. -/
theorem lt_bitmapWords_iff {bits : Int} (hfits : FitsInt bits) (le : Nat) :
    le < 64 * bitmapWords bits ↔
      bits ≤ 2 ^ 31 - 64 ∧ le < 64 * ((bits.toNat + 63) / 64) := by
  rw [bitmapWords_eq hfits]
  split
  next hsmall => exact (and_iff_right hsmall).symm
  next hlarge =>
      constructor
      · intro hlt
        omega
      · intro ⟨hsmall, _⟩
        exact absurd hsmall hlarge

/-- For every snapshot of every run: the bookkeeping stays within what was
reserved exactly as long as nothing is written through a snapshot of a volume
that had more than `2 ^ 31 - 64` LEs, no LE beyond the last word of the bitmap
is written, which the origin can gain by `lv_extend`, and at most `cow_pe_count`
LEs are. -/
theorem snapshot_cow_bounded_iff {s : SnapState}
    (hreach : snapSystem.Reachable s) {handle : Nat} {v : Volume} {c : Cow}
    (hget : s.volumes[handle]? = some v) (hcow : v.cow = some c) :
    CowBounded v.lv c ↔
      (∀ le ∈ c.written,
        c.size ≤ 2 ^ 31 - 64 ∧ le < 64 * ((c.size.toNat + 63) / 64)) ∧
        (c.written.toFinset.card : Int) ≤ v.lv.cowPeCount := by
  have hc := (reachable_snap_ok hreach).tracks v
    (List.mem_of_getElem? hget) c hcow
  simp only [← lt_bitmapWords_iff hc.size]
  constructor
  · intro hbounded
    have hbelow : ∀ le ∈ c.written, le < 64 * bitmapWords c.size := by
      intro le hle
      exact ((hc.marked le).mp ((hbounded.marked le).mpr hle)).2
    refine ⟨hbelow, ?_⟩
    rw [← hc.copied hbelow]
    exact hbounded.reserved
  · intro ⟨hbelow, hcard⟩
    constructor
    · intro word hword
      obtain ⟨le, hle, rfl⟩ := (hc.accessed word).mp hword
      have hlt := hbelow le hle
      omega
    · intro le
      rw [hc.marked]
      exact and_iff_left_of_imp (hbelow le)
    · rw [hc.copied hbelow]
      exact hcard

/-- The start of a run. -/
def snapStart : SnapState := ⟨vgCreate, []⟩

/-- A snapshot with two PEs of a volume of two LEs, whose LEs are written
before and after the volume grows. -/
def coveredCalls : List SnapCall :=
  [.call (.addPv 10240), .call (.create 2), .call (.createSnapshot 0 2),
    .write 1 0, .call (.extend 0 1), .write 1 2048, .write 1 2047]

theorem snapshot_cow_bounded_covered :
    ∃ s snap cow, snapSystem.run snapStart coveredCalls = some s ∧
      s.volumes[1]? = some ⟨snap, some cow⟩ ∧ cow.written = [0, 1, 0] ∧
      CowBounded snap cow := by
  have hrun : (snapSystem.run snapStart coveredCalls).isSome = true := by
    decide
  have hreach : snapSystem.Reachable (Option.get _ hrun) := .get_run rfl hrun
  have hget : (Option.get _ hrun).volumes[1]? = some
      ⟨⟨2, [⟨0, 0⟩, ⟨0, 1⟩], some 0, [3#64], 2, 2⟩,
        some ⟨2, ⟨0, 2, 2⟩, [0, 1, 0], [0, 0, 0]⟩⟩ := by
    rfl
  refine ⟨_, _, _, (Option.some_get hrun).symm, hget, rfl, ?_⟩
  exact (snapshot_cow_bounded_iff hreach hget rfl).mpr ⟨by decide, by decide⟩

/-- A snapshot of a volume that has no LE yet has no words in its bitmap: after
the volume grew by one LE, writing that LE accesses word 0. -/
def grownCalls : List SnapCall :=
  [.call (.addPv 10240), .call (.create 0), .call (.createSnapshot 0 1),
    .call (.extend 0 1), .write 1 0]

/-- A snapshot with one reserved PE of a volume with two LEs marks both. -/
def crowdedCalls : List SnapCall :=
  [.call (.addPv 10240), .call (.create 2), .call (.createSnapshot 0 1),
    .write 1 0, .write 1 2048]

theorem snapshot_cow_unbounded :
    (∃ s snap cow, snapSystem.run snapStart grownCalls = some s ∧
      s.volumes[1]? = some ⟨snap, some cow⟩ ∧
      cow.accessed = [0] ∧ snap.cowBitmap = [] ∧ ¬ CowBounded snap cow) ∧
    (∃ s snap cow, snapSystem.run snapStart crowdedCalls = some s ∧
      s.volumes[1]? = some ⟨snap, some cow⟩ ∧
      snap.copied = {0, 1} ∧ snap.cowPeCount = 1 ∧ ¬ CowBounded snap cow) := by
  constructor
  · have hrun : (snapSystem.run snapStart grownCalls).isSome = true := by
      decide
    have hget : (Option.get _ hrun).volumes[1]? = some
        ⟨⟨0, [], some 0, [], 0, 1⟩, some ⟨0, ⟨0, 0, 1⟩, [0], [0]⟩⟩ := by
      rfl
    refine ⟨_, _, _, (Option.some_get hrun).symm, hget, rfl, rfl, ?_⟩
    intro hbounded
    exact absurd (hbounded.inside 0 (by decide)) (by decide)
  · have hrun : (snapSystem.run snapStart crowdedCalls).isSome = true := by
      decide
    have hget : (Option.get _ hrun).volumes[1]? = some
        ⟨⟨2, [⟨0, 0⟩, ⟨0, 1⟩], some 0, [3#64], 2, 1⟩,
          some ⟨2, ⟨0, 2, 1⟩, [0, 1], [0, 0]⟩⟩ := by
      rfl
    refine ⟨_, _, _, (Option.some_get hrun).symm, hget, by decide, rfl, ?_⟩
    intro hbounded
    exact absurd hbounded.reserved (by decide)

end Lvm
end OsKernel
