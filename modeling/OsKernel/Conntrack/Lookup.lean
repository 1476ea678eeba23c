import OsKernel.Conntrack.Model
import Mathlib.Tactic

/-!
# Lookup finds the newest entry of a flow

`conn_lookup` searches one chain.  Exclusive or is symmetric, so a tuple and
its reversal have the same key, and every entry that can answer a query is on
the query's chain.  The search of the chain is therefore the search through all
entries, from the one made last.

The reply fields that `conn_update_reply` writes are read by no one.  A reply
whose addresses were translated is found only as long as the translation has
left it the mirror image of the original tuple.
-/

namespace OsKernel
namespace Conntrack

open Lib

/-- The reference: search all entries, the newest first. -/
def linearLookup (st : State) (q : Tuple) : Option (Nat × Bool) :=
  (newestFirst st.heap.length).findSome? (st.visit q)

/-- The entry at an address was made for the flow of a query, in one of its
two directions. -/
def State.Answers (st : State) (q : Tuple) (addr : Nat) : Prop :=
  ∃ e, st.heap[addr]? = some e ∧ (e.orig = q ∨ e.orig = q.reverse)

theorem State.Answers.lt {st : State} {q : Tuple} {addr : Nat}
    (hanswers : st.Answers q addr) : addr < st.heap.length := by
  obtain ⟨e, he, -⟩ := hanswers
  exact (List.getElem?_eq_some_iff.mp he).1

theorem connHashKey_lt (q : Tuple) : connHashKey q < 512 := by
  have hmod := UInt32.mod_lt (a := (q.s ^^^ q.d ^^^ q.sp.toUInt32 ^^^
    q.dp.toUInt32 ^^^ q.proto.toUInt32) * 0x9e3779b1) (b := maxConn) (by decide)
  exact UInt32.lt_iff_toNat_lt.mp hmod

theorem connHashKey_reverse (q : Tuple) :
    connHashKey q.reverse = connHashKey q := by
  have hports : q.d ^^^ q.s ^^^ q.dp.toUInt32 ^^^ q.sp.toUInt32 =
      q.s ^^^ q.d ^^^ q.sp.toUInt32 ^^^ q.dp.toUInt32 := by
    rw [UInt32.xor_comm q.d q.s, UInt32.xor_assoc, UInt32.xor_assoc _ q.sp.toUInt32,
      UInt32.xor_comm q.dp.toUInt32]
  show ((q.d ^^^ q.s ^^^ q.dp.toUInt32 ^^^ q.sp.toUInt32 ^^^ q.proto.toUInt32) *
    0x9e3779b1 % maxConn).toNat = connHashKey q
  rw [hports, connHashKey]

/-- The tests of `conn_lookup` compare whole tuples. -/
theorem ConnEntry.test_eq (e : ConnEntry) (q : Tuple) :
    e.test q = if e.orig = q then some false
      else if e.orig = q.reverse then some true else none := by
  simp only [ConnEntry.test, ConnEntry.orig, Tuple.reverse, Bool.and_eq_true,
    beq_iff_eq, and_assoc]
  obtain ⟨s, d, sp, dp, proto⟩ := q
  simp only [Tuple.mk.injEq]

/-- What one turn of the loop finds. -/
theorem State.visit_eq_some_iff {st : State} {q : Tuple} {addr : Nat}
    {found : Nat × Bool} :
    st.visit q addr = some found ↔
      ∃ e, st.heap[addr]? = some e ∧ found.1 = addr ∧
        (e.orig = q ∨ e.orig = q.reverse) ∧
        (found.2 = false ↔ e.orig = q) := by
  obtain ⟨at', isReply⟩ := found
  simp only [State.visit, Option.bind_eq_some_iff, Option.map_eq_some_iff,
    Prod.mk.injEq, ConnEntry.test_eq]
  constructor
  · rintro ⟨e, he, r, hr, rfl, rfl⟩
    refine ⟨e, he, rfl, ?_⟩
    split_ifs at hr with horig hreply
    · obtain rfl := Option.some.inj hr
      exact ⟨.inl horig, by simp [horig]⟩
    · obtain rfl := Option.some.inj hr
      exact ⟨.inr hreply, by simp [horig]⟩
  · rintro ⟨e, he, rfl, hcases, hdir⟩
    refine ⟨e, he, isReply, ?_, rfl, rfl⟩
    by_cases horig : e.orig = q
    · simp [horig, hdir.mpr horig]
    · have hreply : e.orig = q.reverse := hcases.resolve_left horig
      have htrue : isReply = true := by simpa [horig] using hdir
      rw [if_neg horig, if_pos hreply, htrue]

theorem State.visit_eq_none_iff {st : State} {q : Tuple} {addr : Nat} :
    st.visit q addr = none ↔ ¬ st.Answers q addr := by
  rw [← not_iff_not, not_not, ← ne_eq, Option.ne_none_iff_exists']
  constructor
  · rintro ⟨found, hfound⟩
    obtain ⟨e, he, -, hcases, -⟩ := State.visit_eq_some_iff.mp hfound
    exact ⟨e, he, hcases⟩
  · rintro ⟨e, he, hcases⟩
    refine ⟨(addr, !decide (e.orig = q)), State.visit_eq_some_iff.mpr ?_⟩
    exact ⟨e, he, rfl, hcases, by simp⟩

/-! ## The chains hold all entries -/

/-- The key under which the entry at an address was entered. -/
def State.keyAt (st : State) (addr : Nat) : Option Nat :=
  (st.heap[addr]?).map fun e => connHashKey e.orig

/-- Every chain holds the entries of its key, the newest first. -/
def TableOk (st : State) : Prop :=
  Chained (fun k addr => st.keyAt addr == some k) st.connHash
    (newestFirst st.heap.length)

theorem TableOk.create {st : State} (hok : TableOk st) (q : Tuple)
    (t : ConnType) (state : ConnState) :
    TableOk (connCreate st q t state) := by
  have hkeys : ∀ addr < st.heap.length,
      (connCreate st q t state).keyAt addr = st.keyAt addr := by
    intro addr haddr
    rw [State.keyAt, connCreate, List.getElem?_append_left haddr, State.keyAt]
  have hnew : (connCreate st q t state).keyAt st.heap.length =
      some (connHashKey q) := by
    rw [State.keyAt, connCreate, List.getElem?_concat_length, Option.map_some]
    rfl
  have hlength : (connCreate st q t state).heap.length =
      st.heap.length + 1 := by
    simp [connCreate]
  unfold TableOk
  rw [hlength]
  refine Chained.push (Chained.congr hok fun k addr haddr => ?_) fun k => ?_
  · rw [hkeys addr (mem_newestFirst.mp haddr)]
  · rw [hnew, beq_iff_eq, Option.some_inj, eq_comm]

/-- Changing an entry's other fields leaves it on its chain. -/
theorem TableOk.modify {st st' : State} (hok : TableOk st) {addr : Nat}
    (f : ConnEntry → ConnEntry) (horig : ∀ e, (f e).orig = e.orig)
    (hstep : st.modify addr f = some st') : TableOk st' := by
  obtain ⟨e, he, rfl⟩ := Option.map_eq_some_iff.mp hstep
  unfold TableOk
  rw [List.length_set]
  refine Chained.congr hok fun k other _ => ?_
  congr 1
  unfold State.keyAt
  by_cases hother : other = addr
  · subst hother
    have hlt := (List.getElem?_eq_some_iff.mp he).1
    rw [List.getElem?_set_self hlt, he, Option.map_some, Option.map_some,
      horig]
  · rw [List.getElem?_set_ne (Ne.symm hother)]

theorem TableOk.step {st st' : State} {a : Action} (hok : TableOk st)
    (hstep : system.step st a = some st') : TableOk st' := by
  cases a with
  | create q t state =>
      obtain rfl := Option.some.inj hstep
      exact hok.create q t state
  | updateReply addr rs rd rsp rdp =>
      exact hok.modify (connUpdateReply rs rd rsp rdp) (fun _ => rfl) hstep
  | tcpStep addr flagsIn isReply =>
      exact hok.modify (tcpStep flagsIn isReply) (fun _ => rfl) hstep

theorem reachable_tableOk {st : State} (hreach : system.Reachable st) :
    TableOk st := by
  refine hreach.invariant (P := TableOk) ?_ fun s a t _ hok hstep =>
    hok.step hstep
  rintro ⟨heap, connHash⟩ ⟨rfl, rfl⟩
  exact Chained.empty _

/-! ## The search of one chain is the search of all -/

theorem connLookup_eq_linearLookup {st : State} (hok : TableOk st) (q : Tuple) :
    connLookup st q = linearLookup st q := by
  refine Chained.findSome?_eq hok fun addr _ hfound => ?_
  obtain ⟨found, hfound⟩ := Option.ne_none_iff_exists'.mp hfound
  obtain ⟨e, he, -, hcases, -⟩ := State.visit_eq_some_iff.mp hfound
  -- either direction of the query has the query's key
  have hkey : connHashKey e.orig = connHashKey q := by
    rcases hcases with horig | hreply
    · rw [horig]
    · rw [hreply, connHashKey_reverse]
  rw [State.keyAt, he, Option.map_some, hkey, beq_self_eq_true]

/-- In every state reached by calls on the empty table, `conn_lookup` of any
tuple is the newest-first search of all entries: it gives the last entry made
for the flow, with `is_reply` false exactly if the query is the entry's own
tuple, and nothing exactly if there is no such entry; the bucket is one of the
table's. -/
theorem conn_lookup_exact {st : State} (hreach : system.Reachable st)
    (q : Tuple) :
    connLookup st q = linearLookup st q ∧
    (∀ addr isReply, connLookup st q = some (addr, isReply) →
      st.Answers q addr ∧
      (∀ later, addr < later → ¬ st.Answers q later) ∧
      (isReply = false ↔ (st.heap[addr]?).map ConnEntry.orig = some q)) ∧
    (connLookup st q = none ↔ ∀ addr, ¬ st.Answers q addr) ∧
    connHashKey q < 512 := by
  have heq := connLookup_eq_linearLookup (reachable_tableOk hreach) q
  refine ⟨heq, fun addr isReply hfound => ?_, ?_, connHashKey_lt q⟩
  · rw [heq] at hfound
    obtain ⟨found, -, hvisit, hlater⟩ := findSome?_newestFirst_eq_some hfound
    obtain ⟨e, he, haddr, hcases, hdir⟩ := State.visit_eq_some_iff.mp hvisit
    obtain rfl : addr = found := haddr
    refine ⟨⟨e, he, hcases⟩, fun later hlt hanswers => ?_, ?_⟩
    · have hnone := hlater later hlt hanswers.lt
      exact State.visit_eq_none_iff.mp hnone hanswers
    · rw [he, Option.map_some, Option.some_inj]
      exact hdir
  · rw [heq, linearLookup, findSome?_newestFirst_eq_none]
    constructor
    · intro hnone addr hanswers
      exact State.visit_eq_none_iff.mp (hnone addr hanswers.lt) hanswers
    · intro hnone addr _
      exact State.visit_eq_none_iff.mpr (hnone addr)

/-- Both directions of one flow are entered: a query in the first direction
finds the second entry, as a reply. -/
theorem conn_lookup_exact_both_directions :
    ∃ st, system.run ⟨[], fun _ => []⟩
        [.create ⟨50, 100, 12345, 80, 6⟩ .tcp .tcpSynSent,
          .create ⟨100, 50, 80, 12345, 6⟩ .tcp .tcpSynSent] = some st ∧
      connLookup st ⟨50, 100, 12345, 80, 6⟩ = some (1, true) ∧
      connLookup st ⟨50, 100, 12345, 80, 6⟩ =
        linearLookup st ⟨50, 100, 12345, 80, 6⟩ := by
  have hstart : system.Reachable ⟨[], fun _ => []⟩ := .start ⟨rfl, rfl⟩
  have hfirst := hstart.next
    (a := .create ⟨50, 100, 12345, 80, 6⟩ .tcp .tcpSynSent) rfl
  have hsecond := hfirst.next
    (a := .create ⟨100, 50, 80, 12345, 6⟩ .tcp .tcpSynSent) rfl
  exact ⟨_, rfl, rfl, (conn_lookup_exact hsecond ⟨50, 100, 12345, 80, 6⟩).1⟩

/-! ## Translated replies -/

/-- The reply tuple on record. -/
def ConnEntry.reply (e : ConnEntry) : Tuple :=
  ⟨e.replySrc, e.replyDst, e.replySport, e.replyDport, e.protocol⟩

/-- No entry but the one at an address has a tuple as its original tuple, its
reversed original tuple or its reply tuple. -/
def State.OnlyEntry (st : State) (q : Tuple) (addr : Nat) : Prop :=
  ∀ other e, st.heap[other]? = some e → other ≠ addr →
    e.orig ≠ q ∧ e.orig.reverse ≠ q ∧ e.reply ≠ q

instance (st : State) (q : Tuple) (addr : Nat) :
    Decidable (st.OnlyEntry q addr) :=
  decidable_of_iff (∀ other : Fin st.heap.length, other.val ≠ addr →
    (st.heap.get other).orig ≠ q ∧ (st.heap.get other).orig.reverse ≠ q ∧
      (st.heap.get other).reply ≠ q) <| by
    constructor
    · intro h other e he hother
      obtain ⟨hlt, rfl⟩ := List.getElem?_eq_some_iff.mp he
      exact h ⟨other, hlt⟩ hother
    · intro h other hother
      exact h other _ (List.getElem?_eq_getElem other.isLt) hother

@[simp] theorem Tuple.reverse_reverse (q : Tuple) : q.reverse.reverse = q := rfl

/-- Nobody else can answer a query for the only entry's tuple. -/
theorem State.OnlyEntry.not_answers {st : State} {q : Tuple}
    {addr other : Nat} (honly : st.OnlyEntry q addr) (hother : other ≠ addr) :
    ¬ st.Answers q other := by
  rintro ⟨e, he, horig | hreverse⟩
  · exact (honly other e he hother).1 horig
  · apply (honly other e he hother).2.1
    rw [hreverse, Tuple.reverse_reverse]

/-- The answer to such a query is what the one entry says. -/
theorem State.OnlyEntry.linearLookup_eq {st : State} {q : Tuple} {addr : Nat}
    (honly : st.OnlyEntry q addr) : linearLookup st q = st.visit q addr := by
  cases hfound : linearLookup st q with
  | none =>
      symm
      rw [State.visit_eq_none_iff]
      intro hanswers
      have hnone := findSome?_newestFirst_eq_none.mp hfound addr hanswers.lt
      exact State.visit_eq_none_iff.mp hnone hanswers
  | some found =>
      obtain ⟨a, -, hvisit, -⟩ := findSome?_newestFirst_eq_some hfound
      by_cases ha : a = addr
      · rw [← ha, hvisit]
      · have hnone := State.visit_eq_none_iff.mpr (honly.not_answers ha)
        rw [hnone] at hvisit
        contradiction

/-- The reply to the only entry with its reply tuple is found, as a reply,
exactly if that tuple is the mirror image of the original one and is not the
original one itself. -/
theorem nat_reply_found_iff {st : State} (hreach : system.Reachable st)
    {addr : Nat} {e : ConnEntry} (he : st.heap[addr]? = some e)
    (honly : st.OnlyEntry e.reply addr) :
    connLookup st e.reply = some (addr, true) ↔
      e.orig = e.reply.reverse ∧ e.orig ≠ e.reply := by
  rw [connLookup_eq_linearLookup (reachable_tableOk hreach),
    honly.linearLookup_eq, State.visit_eq_some_iff]
  constructor
  · rintro ⟨e', he', -, hcases, hdir⟩
    obtain rfl : e = e' := Option.some.inj (he.symm.trans he')
    have hne : e.orig ≠ e.reply := by simpa using hdir
    exact ⟨hcases.resolve_left hne, hne⟩
  · rintro ⟨hmirror, hne⟩
    exact ⟨e, he, rfl, .inr hmirror, by simp [hne]⟩

/-- Two flows, the second of them translated.  The reply to the first one is
found, that to the second one is not. -/
theorem nat_reply_found_untranslated :
    ∃ st e f, system.run ⟨[], fun _ => []⟩
        [.create ⟨50, 100, 45678, 443, 6⟩ .tcp .tcpSynSent,
          .create ⟨51, 100, 40000, 443, 6⟩ .tcp .tcpSynSent,
          .updateReply 1 100 1 443 40000] = some st ∧
      st.heap = [e, f] ∧ e.reply = ⟨100, 50, 443, 45678, 6⟩ ∧
      f.reply = ⟨100, 1, 443, 40000, 6⟩ ∧ st.OnlyEntry e.reply 0 ∧
      st.OnlyEntry f.reply 1 ∧ connLookup st e.reply = some (0, true) ∧
      connLookup st f.reply ≠ some (1, true) := by
  have hstart : system.Reachable ⟨[], fun _ => []⟩ := .start ⟨rfl, rfl⟩
  have hreach := hstart.run (show system.run ⟨[], fun _ => []⟩
    [.create ⟨50, 100, 45678, 443, 6⟩ .tcp .tcpSynSent,
      .create ⟨51, 100, 40000, 443, 6⟩ .tcp .tcpSynSent,
      .updateReply 1 100 1 443 40000] = some _ from rfl)
  refine ⟨_, _, _, rfl, rfl, rfl, rfl, by decide, by decide, ?_, ?_⟩
  · exact (nat_reply_found_iff hreach rfl (by decide)).mpr ⟨rfl, by decide⟩
  · intro hfound
    have hmirror := (nat_reply_found_iff hreach rfl (by decide)).mp hfound
    exact absurd hmirror.1 (by decide)

/-- Source translation: host 50 talks to 100 under the address 1, so the
replies go to 1.  Their tuple is recorded, and looked up in vain. -/
theorem nat_reply_lost :
    ∃ st e, system.run ⟨[], fun _ => []⟩
        [.create ⟨50, 100, 45678, 443, 6⟩ .tcp .tcpSynSent,
          .updateReply 0 100 1 443 45678] = some st ∧
      st.heap[0]? = some e ∧ e.reply = ⟨100, 1, 443, 45678, 6⟩ ∧
      st.OnlyEntry e.reply 0 ∧ connLookup st e.reply = none :=
  ⟨_, _, rfl, rfl, rfl, by decide, rfl⟩

end Conntrack
end OsKernel
