import OsKernel.IoSched.Deadline

/-!
# Which request a deadline dispatch returns

The comment above the deadline scheduler states its policy: requests about to
expire first, reads before writes, and sector order otherwise.  The code looks
only at the head of each FIFO and at the first request in sector order.

When the clock never runs backwards and every request is stamped with the time
it is queued, the stamps grow along the pending requests (`Stamped`), so the
head of a FIFO is the oldest request of its class.  Then looking at the heads
decides whether any request of the class has expired, and the dispatch follows
the policy stated over all pending requests (`deadline_policy`).
-/

namespace OsKernel
namespace IoSched

open Lib

/-- The clock does not run backwards, and a request is stamped with the time
at which it is queued. -/
def Timely (s : Run) : Action → Prop
  | .add r => s.clock ≤ r.jiffies
  | .dispatch readNow writeNow => s.clock ≤ readNow ∧ readNow ≤ writeNow

/-- The request was added and has not been returned. -/
def Run.Pending (s : Run) (q : Queued) : Prop :=
  q ∈ s.added ∧ q ∉ s.returned

/-- A pending request of a class is as old as the deadline of the class. -/
def Run.Overdue (s : Run) (jiffiesToMsecs : UInt64 → UInt64) (read : Bool)
    (now : UInt64) (deadline : UInt32) : Prop :=
  ∃ q, s.Pending q ∧ q.isRead = read ∧
    age jiffiesToMsecs now q ≥ deadline.toUInt64

/-- `q` is the first pending request of a class to have been added. -/
def Run.Earliest (s : Run) (read : Bool) (q : Queued) : Prop :=
  (s.Pending q ∧ q.isRead = read) ∧
    ∀ b, s.Pending b → b.isRead = read → q.arrival ≤ b.arrival

/-- The policy, over all pending requests. -/
structure Policy (jiffiesToMsecs : UInt64 → UInt64) (s : Run)
    (readNow writeNow : UInt64) (result : Option Queued) : Prop where
  /-- Some pending read is overdue: the earliest read. -/
  read : s.Overdue jiffiesToMsecs true readNow s.dd.readDeadline →
    ∃ q, result = some q ∧ s.Earliest true q
  /-- No pending read is, but some request of the write class: the earliest of
  that class, which is overdue itself. -/
  write : ¬ s.Overdue jiffiesToMsecs true readNow s.dd.readDeadline →
    s.Overdue jiffiesToMsecs false writeNow s.dd.writeDeadline →
    ∃ q, result = some q ∧ s.Earliest false q ∧
      age jiffiesToMsecs writeNow q ≥ s.dd.writeDeadline.toUInt64
  /-- Nothing is overdue: the smallest sector, the earliest of equals. -/
  elevator : ¬ s.Overdue jiffiesToMsecs true readNow s.dd.readDeadline →
    ¬ s.Overdue jiffiesToMsecs false writeNow s.dd.writeDeadline →
    (∃ b, s.Pending b) →
    ∃ q, result = some q ∧ s.Pending q ∧
      ∀ b, s.Pending b → b = q ∨ Before q b

/-- The stamps grow along the pending requests and do not pass the clock. -/
structure Stamped (s : Run) (pending : List Queued) : Prop where
  grow : pending.Pairwise fun a b => a.req.jiffies ≤ b.req.jiffies
  past : ∀ q ∈ pending, q.req.jiffies ≤ s.clock

theorem reachable_stamped {jiffiesToMsecs : UInt64 → UInt64} {s : Run}
    (hreach : (system jiffiesToMsecs).ReachableWhile Timely s) :
    ∃ pending, Accounted s pending ∧ Stamped s pending := by
  refine hreach.invariant
    (P := fun s => ∃ pending, Accounted s pending ∧ Stamped s pending) ?_ ?_
  · rintro s hinit
    exact ⟨[], .init hinit, by constructor <;> simp⟩
  · rintro s a s' - ⟨pending, h, hstamped⟩ htimely hstep
    cases step_cases hstep with
    | @add r hfree =>
        -- the new stamp is the clock's, which no earlier stamp exceeds
        have hle : ∀ q ∈ pending, q.req.jiffies ≤ r.jiffies :=
          fun q hq => UInt64.le_trans (hstamped.past q hq) htimely
        refine ⟨_, h.add hfree, ?_, ?_⟩
        · refine List.pairwise_append.mpr ⟨hstamped.grow, by simp, ?_⟩
          intro b hb c hc
          obtain rfl := List.mem_singleton.mp hc
          exact hle b hb
        · intro q hq
          rcases List.mem_append.mp hq with hq | hq
          · exact hle q hq
          · obtain rfl := List.mem_singleton.mp hq
            exact UInt64.le_refl _
    | @idle readNow writeNow hnone =>
        refine ⟨pending, h.setClock writeNow, hstamped.grow, fun q hq => ?_⟩
        exact UInt64.le_trans (hstamped.past q hq)
          (UInt64.le_trans htimely.1 htimely.2)
    | @take readNow writeNow q hsome =>
        refine ⟨_, h.take (h.represents.mem_of_select hsome) _,
          hstamped.grow.filter _, fun b hb => ?_⟩
        exact UInt64.le_trans
          (hstamped.past b (List.mem_of_mem_filter hb))
          (UInt64.le_trans htimely.1 htimely.2)

/-- An earlier stamp and a later clock give a greater age: the subtraction does
not wrap. -/
theorem age_le_age {jiffiesToMsecs : UInt64 → UInt64}
    (hmono : ∀ a b, a ≤ b → jiffiesToMsecs a ≤ jiffiesToMsecs b)
    {time now : UInt64} {a b : Queued} (hab : a.req.jiffies ≤ b.req.jiffies)
    (hb : b.req.jiffies ≤ time) (hle : time ≤ now) :
    age jiffiesToMsecs time b ≤ age jiffiesToMsecs now a := by
  apply hmono
  have ha := UInt64.le_trans hab (UInt64.le_trans hb hle)
  rw [UInt64.le_iff_toNat_le] at hab hle ⊢
  rw [UInt64.toNat_sub_of_le _ _ ha, UInt64.toNat_sub_of_le _ _ hb]
  omega

/-- If the stamps grow along a FIFO, its head tells whether any request on it
has expired. -/
theorem headExpired_iff {jiffiesToMsecs : UInt64 → UInt64}
    (hmono : ∀ a b, a ≤ b → jiffiesToMsecs a ≤ jiffiesToMsecs b)
    {now : UInt64} {deadline : UInt32} {l : List Queued}
    (hgrow : l.Pairwise fun a b => a.req.jiffies ≤ b.req.jiffies)
    (hpast : ∀ q ∈ l, q.req.jiffies ≤ now) :
    headExpired jiffiesToMsecs now deadline l = true ↔
      ∃ q ∈ l, age jiffiesToMsecs now q ≥ deadline.toUInt64 := by
  cases l with
  | nil => simp [headExpired]
  | cons head rest =>
      have hhead := (List.pairwise_cons.mp hgrow).1
      rw [headExpired, decide_eq_true_iff]
      constructor
      · intro hexpired
        exact ⟨head, by simp, hexpired⟩
      · rintro ⟨q, hq, hexpired⟩
        rcases List.mem_cons.mp hq with rfl | hrest
        · exact hexpired
        · exact UInt64.le_trans hexpired
            (age_le_age hmono (hhead q hrest) (hpast q hq) (UInt64.le_refl _))

/-- The pending requests by the logs are the represented ones. -/
theorem Accounted.pending_iff {s : Run} {pending : List Queued}
    (h : Accounted s pending) (q : Queued) : s.Pending q ↔ q ∈ pending := by
  constructor
  · rintro ⟨hadded, hnot⟩
    exact (List.mem_append.mp (h.perm.subset hadded)).resolve_left hnot
  · intro hq
    have hadded := h.mem_added hq
    refine ⟨hadded, fun hreturned => ?_⟩
    rcases h.count hadded with ⟨_, hnot⟩ | ⟨hzero, _⟩
    · exact hnot hq
    · exact List.count_eq_zero.mp hzero hreturned

/-- The test of one FIFO's head decides whether its class is overdue. -/
theorem headExpired_iff_overdue {jiffiesToMsecs : UInt64 → UInt64}
    (hmono : ∀ a b, a ≤ b → jiffiesToMsecs a ≤ jiffiesToMsecs b) {s : Run}
    {pending : List Queued} (h : Accounted s pending)
    (hstamped : Stamped s pending) {now : UInt64} (hnow : s.clock ≤ now)
    (read : Bool) (deadline : UInt32) :
    headExpired jiffiesToMsecs now deadline
        (pending.filter fun q => q.isRead == read) = true ↔
      s.Overdue jiffiesToMsecs read now deadline := by
  rw [headExpired_iff hmono (hstamped.grow.filter _) fun q hq =>
    UInt64.le_trans (hstamped.past q (List.mem_of_mem_filter hq)) hnow]
  simp only [Run.Overdue, h.pending_iff, List.mem_filter, beq_iff_eq,
    and_assoc]

/-- The head of a list in order of arrival arrived first. -/
theorem arrival_head_le {l : List Queued} {q : Queued}
    (harrival : l.Pairwise fun a b => a.arrival < b.arrival)
    (hhead : l.head? = some q) : ∀ b ∈ l, q.arrival ≤ b.arrival := by
  obtain ⟨rest, rfl⟩ : ∃ rest, l = q :: rest := by
    cases l with
    | nil => cases hhead
    | cons a rest => exact ⟨rest, by simpa using hhead⟩
  intro b hb
  rcases List.mem_cons.mp hb with rfl | hb
  · exact le_rfl
  · exact ((List.pairwise_cons.mp harrival).1 b hb).le

/-- The head of one FIFO is the earliest pending request of its class. -/
theorem Accounted.earliest_head {s : Run} {pending : List Queued}
    (h : Accounted s pending) {read : Bool} {q : Queued}
    (hhead : (pending.filter fun q => q.isRead == read).head? = some q) :
    s.Earliest read q := by
  have hmem : q ∈ pending ∧ q.isRead = read := by
    simpa [List.mem_filter] using List.mem_of_head? hhead
  refine ⟨⟨(h.pending_iff q).mpr hmem.1, hmem.2⟩, fun b hb hread => ?_⟩
  refine arrival_head_le (h.represents.arrival.filter _) hhead b ?_
  simp [List.mem_filter, (h.pending_iff b).mp hb, hread]

/-- The head of the sorted list is the first pending request in its order. -/
theorem Accounted.first_of_sorted {s : Run} {pending : List Queued}
    (h : Accounted s pending) (hsome : ∃ b, s.Pending b) :
    ∃ q, s.dd.dispatch.head? = some q ∧ s.Pending q ∧
      ∀ b, s.Pending b → b = q ∨ Before q b := by
  have hmem : ∀ q, s.Pending q ↔ q ∈ s.dd.dispatch := by
    intro q
    rw [h.pending_iff, h.represents.perm.mem_iff]
  obtain ⟨b, hb⟩ := hsome
  cases hlist : s.dd.dispatch with
  | nil => simp [hmem, hlist] at hb
  | cons q rest =>
      have hsorted := h.represents.sorted
      rw [hlist] at hsorted
      refine ⟨q, rfl, by simp [hmem, hlist], fun c hc => ?_⟩
      rw [hmem, hlist] at hc
      rcases List.mem_cons.mp hc with rfl | hc
      · exact .inl rfl
      · exact .inr ((List.pairwise_cons.mp hsorted).1 c hc)

theorem head_of_headExpired {jiffiesToMsecs : UInt64 → UInt64}
    {now : UInt64} {deadline : UInt32} {l : List Queued}
    (hexpired : headExpired jiffiesToMsecs now deadline l = true) :
    ∃ q, l.head? = some q ∧
      age jiffiesToMsecs now q ≥ deadline.toUInt64 := by
  cases l with
  | nil => cases hexpired
  | cons q rest => exact ⟨q, rfl, by simpa [headExpired] using hexpired⟩

/-- In every run with a clock that never runs backwards and requests stamped
when they are queued, a dispatch follows the policy. -/
theorem deadline_policy {jiffiesToMsecs : UInt64 → UInt64}
    (hmono : ∀ a b, a ≤ b → jiffiesToMsecs a ≤ jiffiesToMsecs b) {s : Run}
    (hreach : (system jiffiesToMsecs).ReachableWhile Timely s)
    {readNow writeNow : UInt64}
    (htimely : Timely s (.dispatch readNow writeNow)) :
    Policy jiffiesToMsecs s readNow writeNow
      (deadlineDispatch jiffiesToMsecs readNow writeNow s.dd).1 := by
  obtain ⟨pending, h, hstamped⟩ := reachable_stamped hreach
  obtain ⟨hreadNow, hwriteNow⟩ := htimely
  have hrep := h.represents
  have hreads : s.dd.readFifo = pending.filter fun q => q.isRead == true := by
    simpa using hrep.reads
  have hwrites :
      s.dd.writeFifo = pending.filter fun q => q.isRead == false := by
    simpa using hrep.writes
  -- the two tests look at heads only; the stamps make them tell the class
  have hread : deadlineReadExpired jiffiesToMsecs readNow s.dd = true ↔
      s.Overdue jiffiesToMsecs true readNow s.dd.readDeadline := by
    rw [deadlineReadExpired, hreads]
    exact headExpired_iff_overdue hmono h hstamped hreadNow true _
  have hwrite : deadlineWriteExpired jiffiesToMsecs writeNow s.dd = true ↔
      s.Overdue jiffiesToMsecs false writeNow s.dd.writeDeadline := by
    rw [deadlineWriteExpired, hwrites]
    exact headExpired_iff_overdue hmono h hstamped
      (UInt64.le_trans hreadNow hwriteNow) false _
  rw [deadlineDispatch_fst]
  constructor
  · intro hoverdue
    have hexpired := hread.mpr hoverdue
    rw [deadlineSelect, if_pos hexpired]
    obtain ⟨q, hhead, -⟩ := head_of_headExpired hexpired
    exact ⟨q, hhead, h.earliest_head (hreads ▸ hhead)⟩
  · intro hnotRead hoverdue
    have hexpired := hwrite.mpr hoverdue
    rw [deadlineSelect, if_neg (mt hread.mp hnotRead), if_pos hexpired]
    obtain ⟨q, hhead, hage⟩ := head_of_headExpired hexpired
    exact ⟨q, hhead, h.earliest_head (hwrites ▸ hhead), hage⟩
  · intro hnotRead hnotWrite hsome
    rw [deadlineSelect, if_neg (mt hread.mp hnotRead),
      if_neg (mt hwrite.mp hnotWrite)]
    exact h.first_of_sorted hsome

/-- A read queued at time `0`. -/
def earlyRead : Queued := ⟨⟨1, 70, 0, 0⟩, 0⟩

/-- A write with a lower sector, queued at time `5`. -/
def laterWrite : Queued := ⟨⟨2, 10, 1, 5⟩, 1⟩

/-- The scheduler once both are queued. -/
def readAndWrite : Run where
  dd := { deadlineInit with
    dispatch := [laterWrite, earlyRead]
    readFifo := [earlyRead]
    writeFifo := [laterWrite] }
  added := [earlyRead, laterWrite]
  returned := []
  clock := 5

/-- At time `600` the read is overdue and goes first. -/
theorem deadline_policy_overdue_read :
    (system id).ReachableWhile Timely readAndWrite ∧
      Timely readAndWrite (.dispatch 600 600) ∧
      readAndWrite.Overdue id true 600 readAndWrite.dd.readDeadline ∧
      ∃ q, (deadlineDispatch id 600 600 readAndWrite.dd).1 = some q ∧
        readAndWrite.Earliest true q := by
  have hinit : (system id).ReachableWhile Timely ⟨deadlineInit, [], [], 0⟩ :=
    .start ⟨rfl, rfl, rfl⟩
  have hread := hinit.next (a := Action.add earlyRead.req)
    (show (0 : UInt64) ≤ 0 by decide) rfl
  have hreach : (system id).ReachableWhile Timely readAndWrite :=
    hread.next (a := Action.add laterWrite.req)
      (show (0 : UInt64) ≤ 5 by decide) rfl
  have htimely : Timely readAndWrite (.dispatch 600 600) :=
    ⟨by decide, by decide⟩
  have hoverdue :
      readAndWrite.Overdue id true 600 readAndWrite.dd.readDeadline :=
    ⟨earlyRead, ⟨by decide, by decide⟩, by decide, by decide⟩
  exact ⟨hreach, htimely, hoverdue,
    (deadline_policy (fun _ _ hab => hab) hreach htimely).read hoverdue⟩

end IoSched
end OsKernel
