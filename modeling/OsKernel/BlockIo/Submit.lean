import OsKernel.BlockIo.Model

/-!
# Submitting a bio and waiting for it (`demos/bio/bio.c`)

`submit_bio_wait` installs `bio_complete_callback`, submits the bio and spins
until the callback has run.  A bio without a device that can take it is
completed with `-ENODEV`; otherwise `make_request_fn` completes it.

The error goes to `bio_endio` and from there to the callback, which drops it:
what `submit_bio_wait` returns is `bi_error`, and nothing assigns that.  The
test in `bio_endio` sets `BIO_UPTODATE` for the errors.

`bi_error` is not among the fields that `bio.h` declares; it is taken as one.  A
`make_request_fn` is given by the error it completes the bio with.
-/

namespace OsKernel
namespace BlockIo

variable {Page : Type}

/-- `BIO_UPTODATE`. -/
def bioUptodate : UInt64 := 0

/-- `ENODEV`. -/
def enodev : Int := 19

/-- `struct request_queue`; `make_request_fn` may be null. -/
structure RequestQueue where
  makeRequestFn : Option Int
  deriving DecidableEq, Repr

/-- `struct block_device`. -/
structure BlockDevice where
  bdQueue : Option RequestQueue
  deriving DecidableEq, Repr

/-- The functions `bi_end_io` can point to. -/
inductive EndIo
  | bioCompleteCallback
  deriving DecidableEq, Repr

/-- `struct bio` with the fields its completion uses; `bi_private` is the
address of a completion. -/
structure IoBio (Page : Type) extends Bio Page BlockDevice where
  biFlags : UInt64
  biError : Int
  biPrivate : Option Nat
  biEndIo : Option EndIo

/-- The bio, and whether the completion at each address is done. -/
structure Io (Page : Type) where
  bio : IoBio Page
  completions : Nat → Bool

/-- `bio_complete_callback`. -/
def bioCompleteCallback (io : Io Page) (_error : Int) : Io Page :=
  match io.bio.biPrivate with
  | none => io
  | some done =>
      { io with completions := Function.update io.completions done true }

/-- `bio_endio`. -/
def bioEndio (io : Io Page) (error : Int) : Io Page :=
  let io :=
    if error < 0 then
      { io with bio :=
          { io.bio with biFlags := io.bio.biFlags ||| 1 <<< bioUptodate } }
    else io
  match io.bio.biEndIo with
  | none => io
  | some .bioCompleteCallback => bioCompleteCallback io error

/-- `submit_bio`. -/
def submitBio (io : Io Page) : Io Page :=
  match io.bio.biBdev with
  | none => bioEndio io (-enodev)
  | some bdev =>
      match bdev.bdQueue with
      | none => bioEndio io (-enodev)
      | some q =>
          match q.makeRequestFn with
          | none => bioEndio io (-enodev)
          | some error => bioEndio io error

/-- `submit_bio_wait`, with the address of its local `done`; `none` if the loop
does not end. -/
def submitBioWait (io : Io Page) (done : Nat) : Option (Io Page × Int) :=
  let io :=
    { bio :=
        { io.bio with
          biPrivate := some done
          biEndIo := some .bioCompleteCallback }
      completions := Function.update io.completions done false }
  let io := submitBio io
  if io.completions done then some (io, io.bio.biError) else none

/-! ## Where the error goes -/

/-- `BIO_UPTODATE` is set. -/
def IoBio.uptodate (bio : IoBio Page) : Bool :=
  bio.biFlags &&& 1 <<< bioUptodate != 0

/-- The error with which the bio is completed. -/
def IoBio.outcome (bio : IoBio Page) : Int :=
  ((bio.biBdev.bind BlockDevice.bdQueue).bind RequestQueue.makeRequestFn).getD
    (-enodev)

theorem submitBio_eq (io : Io Page) :
    submitBio io = bioEndio io io.bio.outcome := by
  unfold submitBio IoBio.outcome
  cases io.bio.biBdev with
  | none => rfl
  | some bdev =>
      cases hqueue : bdev.bdQueue with
      | none => simp [hqueue]
      | some q =>
          cases hfn : q.makeRequestFn with
          | none => simp [hqueue, hfn]
          | some error => simp [hqueue, hfn]

/-- The flags after a completion. -/
def flagsAfter (flags : UInt64) (error : Int) : UInt64 :=
  if error < 0 then flags ||| 1 <<< bioUptodate else flags

/-- `bio_endio` with the callback of `submit_bio_wait`. -/
theorem bioEndio_eq {io : Io Page} {done : Nat}
    (hend : io.bio.biEndIo = some .bioCompleteCallback)
    (hprivate : io.bio.biPrivate = some done) (error : Int) :
    bioEndio io error =
      { bio := { io.bio with biFlags := flagsAfter io.bio.biFlags error }
        completions := Function.update io.completions done true } := by
  unfold bioEndio flagsAfter
  split
  · simp only [hend, bioCompleteCallback, hprivate]
  · simp only [hend, bioCompleteCallback, hprivate]
    rw [← hprivate, ← hend]

/-- The caller waits until the bio is completed, and gets `bi_error` as it was
before. -/
theorem submitBioWait_eq (io : Io Page) (done : Nat) :
    submitBioWait io done = some
      ({ bio :=
          { io.bio with
            biFlags := flagsAfter io.bio.biFlags io.bio.outcome
            biPrivate := some done
            biEndIo := some .bioCompleteCallback }
         completions := Function.update io.completions done true },
        io.bio.biError) := by
  unfold submitBioWait
  simp only [submitBio_eq]
  rw [bioEndio_eq rfl rfl]
  simp only [Function.update_self, if_true, Function.update_idem]
  rfl

/-- A flag that was set is found. -/
theorem or_and_self (flags mask : UInt64) : (flags ||| mask) &&& mask = mask := by
  apply UInt64.toBitVec_inj.mp
  ext i hi
  simp only [UInt64.toBitVec_and, UInt64.toBitVec_or, BitVec.getElem_and,
    BitVec.getElem_or]
  cases flags.toBitVec[i] <;> cases mask.toBitVec[i] <;> rfl

theorem uptodate_flagsAfter (bio : IoBio Page) (error : Int) :
    ({ bio with biFlags := flagsAfter bio.biFlags error } :
      IoBio Page).uptodate = true ↔ error < 0 ∨ bio.uptodate = true := by
  unfold flagsAfter
  split
  next hneg =>
    have hset : (({ bio with biFlags := bio.biFlags ||| 1 <<< bioUptodate } :
        IoBio Page).uptodate) = true := by
      simp only [IoBio.uptodate, or_and_self]
      decide
    exact ⟨fun _ => .inl hneg, fun _ => hset⟩
  next hnone => exact ⟨.inr, fun h => h.resolve_left hnone⟩

/-- The caller gets the error with which the bio was completed, and
`BIO_UPTODATE` is set exactly if there was none. -/
def ErrorReported (io : Io Page) (done : Nat) : Prop :=
  ∃ io', submitBioWait io done = some (io', io.bio.outcome) ∧
    (io'.bio.uptodate = true ↔ 0 ≤ io.bio.outcome)

/-- The error reaches the caller only if there is none, `bi_error` happens to
be what is to be returned and `BIO_UPTODATE` was set before. -/
theorem errorReported_iff (io : Io Page) (done : Nat) :
    ErrorReported io done ↔
      0 ≤ io.bio.outcome ∧ io.bio.biError = io.bio.outcome ∧
        io.bio.uptodate = true := by
  have hflag := uptodate_flagsAfter io.bio io.bio.outcome
  unfold ErrorReported
  rw [submitBioWait_eq]
  constructor
  · rintro ⟨io', hreturn, huptodate⟩
    obtain ⟨rfl, herror⟩ := Prod.mk.inj (Option.some.inj hreturn)
    have hset : (io.bio.outcome < 0 ∨ io.bio.uptodate = true) ↔
        0 ≤ io.bio.outcome := hflag.symm.trans huptodate
    have hnone : 0 ≤ io.bio.outcome := by
      by_contra hneg
      exact hneg (hset.mp (.inl (by omega)))
    rcases hset.mpr hnone with hneg | hbefore
    · omega
    · exact ⟨hnone, herror, hbefore⟩
  · rintro ⟨hnone, herror, hbefore⟩
    refine ⟨_, by rw [herror], ?_⟩
    exact hflag.trans ⟨fun _ => hnone, fun _ => .inr hbefore⟩

/-- A bio without vectors, for a device. -/
def emptyBio (bdev : Option BlockDevice) : IoBio Unit :=
  { (bioAlloc 0 (fun _ => ⟨(), 0, 0⟩) : Bio Unit BlockDevice) with
    biBdev := bdev, biFlags := 0, biError := 0
    biPrivate := none, biEndIo := none }

/-- Without a device the caller gets `0` and the data is marked valid; after a
successful completion it is not. -/
theorem errorReported_fails :
    (submitBioWait ⟨emptyBio none, fun _ => false⟩ 0).map Prod.snd = some 0 ∧
      (submitBioWait ⟨emptyBio none, fun _ => false⟩ 0).map
        (fun result => result.1.bio.uptodate) = some true ∧
      (submitBioWait ⟨emptyBio (some ⟨some ⟨some 0⟩⟩), fun _ => false⟩ 0).map
        (fun result => result.1.bio.uptodate) = some false ∧
      ¬ ErrorReported ⟨emptyBio none, fun _ => false⟩ 0 ∧
      ¬ ErrorReported ⟨emptyBio (some ⟨some ⟨some 0⟩⟩), fun _ => false⟩ 0 := by
  refine ⟨by decide, by decide, by decide, ?_, ?_⟩
  · rintro ⟨io', hreturn, -⟩
    have herror : some (0 : Int) = some (-19) :=
      congrArg (Option.map Prod.snd) hreturn
    exact absurd herror (by decide)
  · rintro ⟨io', hreturn, huptodate⟩
    have hflags := congrArg
      (Option.map fun result => result.1.bio.uptodate) hreturn
    have hset : some false = some true := by
      rw [← huptodate.mpr (by decide)]
      exact hflags
    exact absurd hset (by decide)

end BlockIo
end OsKernel
