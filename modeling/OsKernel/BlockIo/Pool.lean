import OsKernel.Lib.ActionSystem
import OsKernel.Lib.Bitmap

/-!
# The bio pool of `demos/bio/bio.c`

`bio_alloc` takes a bio from a static array of `BIO_POOL_SIZE` bios.  Which of
them are in use is kept in a bitmap that is declared with `BIO_POOL_SIZE / 64`
words.  For a size that is not a multiple of 64 the division loses the last
word; for the size 32 of the source there is no word at all.

The size is a parameter `size` of the model.  Over all histories of
allocations and frees the pool is safe exactly if the size is a multiple of 64
(`pool_safe_iff`).

The fields of the bio that is handed out are in `OsKernel.BlockIo.Model`; the
pool does not depend on them.  The spinlock makes each call one step.
-/

namespace OsKernel
namespace BlockIo
namespace Pool

open Lib

/-- `BIO_POOL_SIZE`. -/
def bioPoolSize : Nat := 32

/-- What `bio_alloc` returns: the bio with the index, or `NULL` because the
pool is exhausted or because there is no memory for the vectors. -/
inductive AllocResult
  | bio (index : Nat)
  | exhausted
  | noVecs
  deriving DecidableEq, Repr

/-- One call: its result, `bio_pool_used` afterwards, and the indices of the
words of `bio_pool_used` it accesses.  A word outside the array reads as zero
and is not written. -/
structure Alloc where
  result : AllocResult
  used : List (BitVec 64)
  accessed : List Nat

/-- `bio_alloc(nr_vecs)` on a pool of the given size; `kmalloc` says whether
there is memory for the vectors. -/
def bioAlloc (size : Nat) (used : List (BitVec 64)) (nrVecs : Int)
    (kmalloc : Bool) : Alloc :=
  match Bitmap.firstClear used size 0 with
  | none =>
      { result := .exhausted
        used := used
        accessed := (List.range size).map (· / 64) }
  | some index =>
      -- the words tested by the loop, then the word that is written
      let accessed := (List.range (index + 1)).map (· / 64) ++ [index / 64]
      let taken := Bitmap.set used index
      if 0 < nrVecs ∧ kmalloc = false then
        { result := .noVecs
          used := Bitmap.clear taken index
          accessed := accessed ++ [index / 64] }
      else
        { result := .bio index, used := taken, accessed := accessed }

/-- `bio_free` of the bio with the index. -/
def bioFree (used : List (BitVec 64)) (index : Nat) : List (BitVec 64) :=
  Bitmap.clear used index

/-! ## Histories -/

/-- The pool.  `live`, the bios handed out and not freed, and `accessed`, the
words of `bio_pool_used` accessed so far, are ghosts. -/
structure State where
  used : List (BitVec 64)
  live : Finset Nat
  accessed : List Nat

/-- The state after `bio_pools_init`. -/
def bioPoolsInit (size : Nat) : State :=
  { used := List.replicate (size / 64) 0, live := ∅, accessed := [] }

/-- One call. -/
inductive Call
  | alloc (nrVecs : Int) (kmalloc : Bool)
  | free (index : Nat)

/-- The bios that are live after an allocation. -/
def AllocResult.addTo (live : Finset Nat) : AllocResult → Finset Nat
  | .bio index => insert index live
  | .exhausted => live
  | .noVecs => live

/-- Perform one call; only live bios are freed. -/
def step (size : Nat) (s : State) : Call → Option State
  | .alloc nrVecs kmalloc =>
      let done := bioAlloc size s.used nrVecs kmalloc
      some
        { used := done.used
          live := done.result.addTo s.live
          accessed := s.accessed ++ done.accessed }
  | .free index =>
      if index ∈ s.live then
        some
          { used := bioFree s.used index
            live := s.live.erase index
            accessed := s.accessed ++ [index / 64] }
      else none

/-- The histories of a pool of the given size. -/
def system (size : Nat) : ActionSystem State Call where
  init s := s = bioPoolsInit size
  step := step size

/-- The words accessed so far are inside the array, and the next `bio_alloc`,
with any arguments, hands out no live bio, leaves the pool as it was if it has
no memory for the vectors, and finds the pool exhausted exactly if all bios
are live. -/
structure Safe (size : Nat) (s : State) : Prop where
  inside : ∀ word ∈ s.accessed, word < size / 64
  fresh : ∀ nrVecs kmalloc index,
    (bioAlloc size s.used nrVecs kmalloc).result = .bio index →
      index < size ∧ index ∉ s.live
  rollback : ∀ nrVecs kmalloc,
    (bioAlloc size s.used nrVecs kmalloc).result = .noVecs →
      (bioAlloc size s.used nrVecs kmalloc).used = s.used
  exhausted : ∀ nrVecs kmalloc,
    (bioAlloc size s.used nrVecs kmalloc).result = .exhausted ↔
      ∀ index < size, index ∈ s.live

/-! ## What one allocation does -/

/-- Taking a bio that was free and giving it back leaves the bitmap as it was. -/
theorem clear_set {words : List (BitVec 64)} {index : Nat}
    (hindex : index < 64 * words.length)
    (hclear : Bitmap.test words index = false) :
    Bitmap.clear (Bitmap.set words index) index = words := by
  apply Bitmap.ext_test
  · rw [Bitmap.length_clear, Bitmap.length_set]
  · intro i
    rw [Bitmap.test_clear, Bitmap.test_set _ hindex]
    by_cases hi : i = index
    · rw [hi, hclear]
      simp
    · simp [hi]

/-- The words `bio_alloc` accesses are those of bios of the pool. -/
theorem bioAlloc_accessed (size : Nat) (used : List (BitVec 64))
    (nrVecs : Int) (kmalloc : Bool) :
    ∀ word ∈ (bioAlloc size used nrVecs kmalloc).accessed,
      ∃ index < size, word = index / 64 := by
  intro word hword
  simp only [bioAlloc] at hword
  split at hword
  next =>
    obtain ⟨index, hindex, rfl⟩ := List.mem_map.mp hword
    exact ⟨index, List.mem_range.mp hindex, rfl⟩
  next found hfound =>
    obtain ⟨⟨-, hlt⟩, -⟩ := Bitmap.firstClear_eq_some hfound
    rw [Nat.zero_add] at hlt
    have hall : word ∈ (List.range (found + 1)).map (· / 64) ∨
        word = found / 64 := by
      split at hword <;> simp only [List.mem_append, List.mem_singleton] at hword
      · exact hword.elim id Or.inr
      · exact hword
    rcases hall with htested | rfl
    · obtain ⟨index, hindex, rfl⟩ := List.mem_map.mp htested
      have hle := List.mem_range.mp hindex
      exact ⟨index, by omega, rfl⟩
    · exact ⟨found, hlt, rfl⟩

/-- The three ways `bio_alloc` ends. -/
theorem bioAlloc_cases (size : Nat) (used : List (BitVec 64)) (nrVecs : Int)
    (kmalloc : Bool) :
    let done := bioAlloc size used nrVecs kmalloc
    (done.result = .exhausted ∧ done.used = used ∧
        ∀ index < size, Bitmap.test used index = true) ∨
      ∃ index < size, Bitmap.test used index = false ∧
        (done.result = .noVecs ∧
            done.used = Bitmap.clear (Bitmap.set used index) index ∨
          done.result = .bio index ∧ done.used = Bitmap.set used index) := by
  simp only [bioAlloc]
  split
  next hnone =>
    have hfull := Bitmap.firstClear_eq_none_iff.mp hnone
    refine Or.inl ⟨rfl, rfl, fun index hindex => ?_⟩
    exact hfull index (Nat.zero_le _) (by omega)
  next index hfound =>
    obtain ⟨⟨-, hlt⟩, hclear, -⟩ := Bitmap.firstClear_eq_some hfound
    refine Or.inr ⟨index, by omega, hclear, ?_⟩
    split
    · exact Or.inl ⟨rfl, rfl⟩
    · exact Or.inr ⟨rfl, rfl⟩

/-- A state is safe if the next `bio_alloc` finds all bios live, or one that is
not, which it hands out or gives back. -/
theorem Safe.of_cases {size : Nat} {s : State}
    (hinside : ∀ word ∈ s.accessed, word < size / 64)
    (hcases : ∀ nrVecs kmalloc,
      let done := bioAlloc size s.used nrVecs kmalloc
      (done.result = .exhausted ∧ ∀ index < size, index ∈ s.live) ∨
        ∃ index < size, index ∉ s.live ∧
          (done.result = .noVecs ∧ done.used = s.used ∨
            done.result = .bio index)) :
    Safe size s where
  inside := hinside
  fresh := by
    intro nrVecs kmalloc index hresult
    rcases hcases nrVecs kmalloc with
      ⟨hnone, -⟩ | ⟨found, hlt, hnew, ⟨hnone, -⟩ | hbio⟩
    · rw [hnone] at hresult
      contradiction
    · rw [hnone] at hresult
      contradiction
    · rw [hbio] at hresult
      cases hresult
      exact ⟨hlt, hnew⟩
  rollback := by
    intro nrVecs kmalloc hresult
    rcases hcases nrVecs kmalloc with
      ⟨hother, -⟩ | ⟨found, -, -, ⟨-, hused⟩ | hother⟩
    · rw [hother] at hresult
      contradiction
    · exact hused
    · rw [hother] at hresult
      contradiction
  exhausted := by
    intro nrVecs kmalloc
    rcases hcases nrVecs kmalloc with ⟨hresult, hall⟩ | ⟨index, hlt, hnew, hend⟩
    · exact iff_of_true hresult hall
    · refine iff_of_false (fun hresult => ?_) (fun hall => hnew (hall index hlt))
      rcases hend with ⟨hother, -⟩ | hother
      · rw [hother] at hresult
        contradiction
      · rw [hother] at hresult
        contradiction

/-! ## A pool with a bit for every bio -/

/-- The bitmap has its declared length and records the live bios, which are
bios of the pool, and nothing else was accessed. -/
structure Ok (size : Nat) (s : State) : Prop where
  length : s.used.length = size / 64
  live_lt : ∀ index ∈ s.live, index < size
  test_iff : ∀ index, Bitmap.test s.used index = true ↔ index ∈ s.live
  inside : ∀ word ∈ s.accessed, word < size / 64

section Multiple

variable {size : Nat} {s : State} (hsize : size % 64 = 0)

include hsize in
/-- The three ways `bio_alloc` ends, in terms of the live bios. -/
theorem Ok.bioAlloc_cases (hs : Ok size s) (nrVecs : Int) (kmalloc : Bool) :
    let done := bioAlloc size s.used nrVecs kmalloc
    (done.result = .exhausted ∧ done.used = s.used ∧
        ∀ index < size, index ∈ s.live) ∨
      ∃ index < size, index ∉ s.live ∧
        (done.result = .noVecs ∧ done.used = s.used ∨
          done.result = .bio index ∧ done.used = Bitmap.set s.used index) := by
  rcases Pool.bioAlloc_cases size s.used nrVecs kmalloc with
    ⟨hresult, hused, hfull⟩ | ⟨index, hlt, hclear, hend⟩
  · refine Or.inl ⟨hresult, hused, fun index hindex => ?_⟩
    exact (hs.test_iff index).mp (hfull index hindex)
  · have hnew : index ∉ s.live := by
      rw [← hs.test_iff, hclear]
      decide
    have hbit : index < 64 * s.used.length := by
      rw [hs.length]
      omega
    rw [clear_set hbit hclear] at hend
    exact Or.inr ⟨index, hlt, hnew, hend⟩

include hsize in
theorem Ok.safe (hs : Ok size s) : Safe size s := by
  refine .of_cases hs.inside fun nrVecs kmalloc => ?_
  rcases hs.bioAlloc_cases hsize nrVecs kmalloc with
    ⟨hresult, -, hall⟩ | ⟨index, hlt, hnew, hend⟩
  · exact .inl ⟨hresult, hall⟩
  · exact .inr ⟨index, hlt, hnew, hend.imp_right And.left⟩

include hsize in
/-- The words of bios of the pool are words of the array. -/
theorem Ok.inside_append (hs : Ok size s) {words : List Nat}
    (hwords : ∀ word ∈ words, ∃ index < size, word = index / 64) :
    ∀ word ∈ s.accessed ++ words, word < size / 64 := by
  intro word hmem
  rcases List.mem_append.mp hmem with hold | hnew
  · exact hs.inside word hold
  · obtain ⟨index, hlt, rfl⟩ := hwords word hnew
    omega

include hsize in
/-- A bio of the pool is handed out. -/
theorem Ok.take (hs : Ok size s) {index : Nat} (hlt : index < size)
    {accessed : List Nat} (hinside : ∀ word ∈ accessed, word < size / 64) :
    Ok size ⟨Bitmap.set s.used index, insert index s.live, accessed⟩ where
  length := by
    rw [Bitmap.length_set]
    exact hs.length
  live_lt := by
    intro i hi
    rcases Finset.mem_insert.mp hi with rfl | hold
    · exact hlt
    · exact hs.live_lt i hold
  test_iff := by
    intro i
    have hbit : index < 64 * s.used.length := by
      rw [hs.length]
      omega
    rw [Bitmap.test_set _ hbit, Bool.or_eq_true, decide_eq_true_eq,
      hs.test_iff, Finset.mem_insert, or_comm]
  inside := hinside

/-- A bio is given back. -/
theorem Ok.give (hs : Ok size s) (index : Nat) {accessed : List Nat}
    (hinside : ∀ word ∈ accessed, word < size / 64) :
    Ok size ⟨bioFree s.used index, s.live.erase index, accessed⟩ where
  length := by
    rw [bioFree, Bitmap.length_clear]
    exact hs.length
  live_lt := fun i hi => hs.live_lt i (Finset.mem_of_mem_erase hi)
  test_iff := by
    intro i
    rw [bioFree, Bitmap.test_clear, Bool.and_eq_true, hs.test_iff,
      decide_eq_true_eq, Finset.mem_erase, and_comm]
  inside := hinside

include hsize in
theorem Ok.step {t : State} {call : Call} (hs : Ok size s)
    (hstep : Pool.step size s call = some t) : Ok size t := by
  cases call with
  | alloc nrVecs kmalloc =>
      obtain rfl := Option.some.inj hstep
      have haccessed := hs.inside_append hsize
        (bioAlloc_accessed size s.used nrVecs kmalloc)
      rcases hs.bioAlloc_cases hsize nrVecs kmalloc with ⟨hresult, hused, -⟩ |
        ⟨index, hlt, hnew, ⟨hresult, hused⟩ | ⟨hresult, hused⟩⟩
      · rw [hresult, hused]
        exact ⟨hs.length, hs.live_lt, hs.test_iff, haccessed⟩
      · rw [hresult, hused]
        exact ⟨hs.length, hs.live_lt, hs.test_iff, haccessed⟩
      · rw [hresult, hused]
        exact hs.take hsize hlt haccessed
  | free index =>
      simp only [Pool.step] at hstep
      split at hstep
      next hlive =>
        obtain rfl := Option.some.inj hstep
        apply hs.give index
        apply hs.inside_append hsize
        intro word hword
        exact ⟨index, hs.live_lt index hlive, List.mem_singleton.mp hword⟩
      next => contradiction

include hsize in
theorem reachable_ok (hreach : (system size).Reachable s) : Ok size s := by
  refine hreach.invariant (P := Ok size) ?_ ?_
  · rintro s rfl
    exact ⟨List.length_replicate, by simp [bioPoolsInit],
      by simp [bioPoolsInit], by simp [bioPoolsInit]⟩
  · intro s call t _ hs hstep
    exact hs.step hsize hstep

end Multiple

/-! ## A pool whose last bios have no bit -/

/-- The bitmap has its declared length and its first `count` bits are set. -/
structure Filled (size count : Nat) (s : State) : Prop where
  length : s.used.length = size / 64
  test_iff : ∀ index, Bitmap.test s.used index = true ↔ index < count

/-- The next bio after the first `count` is found, also where it has no bit. -/
theorem Filled.firstClear {size count : Nat} {s : State}
    (hs : Filled size count s) (hcount : count < size) :
    Bitmap.firstClear s.used size 0 = some count := by
  cases hfound : Bitmap.firstClear s.used size 0 with
  | none =>
      have hset := Bitmap.firstClear_eq_none_iff.mp hfound count
        (Nat.zero_le _) (by omega)
      exact absurd ((hs.test_iff count).mp hset) (lt_irrefl count)
  | some index =>
      obtain ⟨-, hclear, hbefore⟩ := Bitmap.firstClear_eq_some hfound
      have hge : ¬ index < count := by
        rw [← hs.test_iff, hclear]
        decide
      rcases Nat.eq_or_lt_of_not_lt hge with heq | hgt
      · rw [heq]
      · have hset := hbefore count (Nat.zero_le _) hgt
        exact absurd ((hs.test_iff count).mp hset) (lt_irrefl count)

/-- As many bios as there are bits can be handed out in order. -/
theorem exists_filled {size : Nat} (count : Nat)
    (hcount : count ≤ 64 * (size / 64)) :
    ∃ s, (system size).Reachable s ∧ Filled size count s := by
  induction count with
  | zero =>
      refine ⟨bioPoolsInit size, .start rfl, List.length_replicate, ?_⟩
      simp [bioPoolsInit]
  | succ count ih =>
      obtain ⟨s, hreach, hs⟩ := ih (by omega)
      have hfound := hs.firstClear (by omega)
      refine ⟨_, hreach.next (a := .alloc 0 true) rfl, ?_, ?_⟩
      · simp [bioAlloc, hfound, hs.length]
      · intro index
        have hbit : count < 64 * s.used.length := by
          rw [hs.length]
          omega
        simp only [bioAlloc, hfound, lt_irrefl, false_and, if_false]
        rw [Bitmap.test_set _ hbit, Bool.or_eq_true, hs.test_iff,
          decide_eq_true_eq]
        omega

/-! ## A pool without any bit -/

section NoWords

variable {size : Nat} (hpos : 0 < size)

include hpos

/-- Before the first call nothing is wrong. -/
theorem safe_noWords : Safe size ⟨[], ∅, []⟩ := by
  refine .of_cases (by simp) fun nrVecs kmalloc => ?_
  rcases Pool.bioAlloc_cases size [] nrVecs kmalloc with
    ⟨-, -, hfull⟩ | ⟨index, hlt, -, hend⟩
  · -- outside the array there is no bit that could be set
    exact absurd (hfull 0 hpos) (by decide)
  · refine .inr ⟨index, hlt, Finset.notMem_empty _, hend.imp ?_ And.left⟩
    rintro ⟨hresult, hused⟩
    refine ⟨hresult, hused.trans (List.eq_nil_of_length_eq_zero ?_)⟩
    rw [Bitmap.length_clear, Bitmap.length_set]
    rfl

/-- Every call of `bio_alloc` accesses some word. -/
theorem bioAlloc_accessed_ne_nil (used : List (BitVec 64)) (nrVecs : Int)
    (kmalloc : Bool) : (bioAlloc size used nrVecs kmalloc).accessed ≠ [] := by
  unfold bioAlloc
  split
  next => simpa using Nat.ne_of_gt hpos
  next =>
    simp only
    split <;> simp

/-- Only the state before the first call has accessed nothing. -/
theorem eq_init_or_accessed {s : State} (hreach : (system size).Reachable s) :
    s = bioPoolsInit size ∨ s.accessed ≠ [] := by
  refine hreach.invariant
    (P := fun s => s = bioPoolsInit size ∨ s.accessed ≠ []) ?_ ?_
  · exact fun s hinit => .inl hinit
  · intro s call t _ _ hstep
    right
    cases call with
    | alloc nrVecs kmalloc =>
        obtain rfl := Option.some.inj hstep
        exact List.append_ne_nil_of_right_ne_nil _
          (bioAlloc_accessed_ne_nil hpos s.used nrVecs kmalloc)
    | free index =>
        change (if index ∈ s.live then some _ else none) = some t at hstep
        split at hstep
        next =>
          obtain rfl := Option.some.inj hstep
          exact List.append_ne_nil_of_right_ne_nil _ (List.cons_ne_nil _ _)
        next => contradiction

/-- A pool of less than 64 bios is safe before the first call and never again. -/
theorem safe_iff_eq_init (hsmall : size < 64) {s : State}
    (hreach : (system size).Reachable s) :
    Safe size s ↔ s = bioPoolsInit size := by
  have hwords : size / 64 = 0 := Nat.div_eq_of_lt hsmall
  constructor
  · intro hsafe
    refine (eq_init_or_accessed hpos hreach).resolve_right fun haccessed => ?_
    obtain ⟨word, hword⟩ := List.exists_mem_of_ne_nil _ haccessed
    have hinside := hsafe.inside word hword
    omega
  · rintro rfl
    have hinit : bioPoolsInit size = ⟨[], ∅, []⟩ := by
      rw [bioPoolsInit, hwords, List.replicate_zero]
    rw [hinit]
    exact safe_noWords hpos

end NoWords

/-- A pool is safe in all histories exactly if its size is a multiple of 64; the
pool of the source is safe before the first call and never again. -/
theorem pool_safe_iff (size : Nat) :
    ((∀ s, (system size).Reachable s → Safe size s) ↔ size % 64 = 0) ∧
    ∀ s, (system bioPoolSize).Reachable s →
      (Safe bioPoolSize s ↔ s = bioPoolsInit bioPoolSize) := by
  refine ⟨⟨fun hsafe => ?_, fun hsize s hreach => ?_⟩, fun s hreach => ?_⟩
  · by_contra hsize
    -- All bits are set and the loop goes on to the word behind the array.
    obtain ⟨s, hreach, hs⟩ := exists_filled (64 * (size / 64)) le_rfl
    have hfound := hs.firstClear (by omega)
    have hnext := hsafe _ (hreach.next (a := .alloc 0 true) rfl)
    have hword : size / 64 ∈
        (bioAlloc size s.used 0 true).accessed := by
      simp only [bioAlloc, hfound, lt_irrefl, false_and, if_false]
      apply List.mem_append_right
      rw [List.mem_singleton]
      omega
    exact lt_irrefl _ (hnext.inside _ (List.mem_append_right _ hword))
  · exact (reachable_ok hsize hreach).safe hsize
  · exact safe_iff_eq_init (by decide) (by decide) hreach

/-- The pool of the source: its bitmap has no words, and the first call reads
and writes word 0. -/
theorem first_alloc_unsafe :
    ∃ s, (system bioPoolSize).run (bioPoolsInit bioPoolSize)
        [.alloc 1 true] = some s ∧
      s.accessed = [0, 0] ∧ (bioPoolsInit bioPoolSize).used = [] ∧
      ¬ Safe bioPoolSize s := by
  refine ⟨_, rfl, rfl, rfl, fun hsafe => ?_⟩
  exact absurd (hsafe.inside 0 (by decide)) (by decide)

end Pool
end BlockIo
end OsKernel
