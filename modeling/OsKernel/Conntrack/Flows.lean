import OsKernel.Conntrack.Lookup

/-!
# Flows do not disturb each other

All entries share one table, but an entry is what its own calls made of it: its
creation, and the calls of `tcp_step` and `conn_update_reply` that were given it,
in their order (`recorded_of_run`).  Calls for other entries may come in
between in any number.

What a query finds changes only when an entry for its flow is created, and the
two directions of a flow find the same entry (`lookup_stable`).
-/

namespace OsKernel
namespace Conntrack

open Lib

/-- The entry a call makes. -/
def Action.creation : Action → Option ConnEntry
  | .create q t state => some (newEntry q t state)
  | _ => none

/-- What a call does to the entry at an address, if it is given that one. -/
def Action.changeAt (addr : Nat) : Action → Option (ConnEntry → ConnEntry)
  | .create _ _ _ => none
  | .updateReply a rs rd rsp rdp =>
      if a = addr then some (connUpdateReply rs rd rsp rdp) else none
  | .tcpStep a flagsIn isReply =>
      if a = addr then some (Conntrack.tcpStep flagsIn isReply) else none

/-- The empty table. -/
def emptyTable : State := ⟨[], fun _ => []⟩

/-- An entry after the calls that were given its address. -/
def afterOwnCalls (addr : Nat) (actions : List Action) (e : ConnEntry) :
    ConnEntry :=
  (actions.filterMap (Action.changeAt addr)).foldl (fun e f => f e) e

/-! ## One call -/

/-- A call creates an entry or changes the one whose address it is given. -/
theorem step_cases {st st' : State} {a : Action}
    (hstep : system.step st a = some st') :
    (∃ e, a.creation = some e ∧ st'.heap = st.heap ++ [e] ∧
      ∀ addr, a.changeAt addr = none) ∨
    ∃ addr f e, a.creation = none ∧ st.heap[addr]? = some e ∧
      st'.heap = st.heap.set addr (f e) ∧ (f e).orig = e.orig ∧
      ∀ b, a.changeAt b = if addr = b then some f else none := by
  cases a with
  | create q t state =>
      obtain rfl := Option.some.inj hstep
      exact .inl ⟨_, rfl, rfl, fun _ => rfl⟩
  | updateReply addr rs rd rsp rdp =>
      obtain ⟨e, he, rfl⟩ := Option.map_eq_some_iff.mp hstep
      exact .inr ⟨addr, _, e, rfl, he, rfl, rfl, fun _ => rfl⟩
  | tcpStep addr flagsIn isReply =>
      obtain ⟨e, he, rfl⟩ := Option.map_eq_some_iff.mp hstep
      exact .inr ⟨addr, _, e, rfl, he, rfl, rfl, fun _ => rfl⟩

theorem afterOwnCalls_concat (addr : Nat) (actions : List Action) (a : Action)
    (e : ConnEntry) :
    afterOwnCalls addr (actions ++ [a]) e =
      match a.changeAt addr with
      | some f => f (afterOwnCalls addr actions e)
      | none => afterOwnCalls addr actions e := by
  unfold afterOwnCalls
  rw [List.filterMap_append, List.foldl_append]
  cases hchange : a.changeAt addr with
  | none => rw [List.filterMap_cons_none hchange]; rfl
  | some f => rw [List.filterMap_cons_some hchange]; rfl

/-! ## Whole runs -/

/-- The entries of a run, and that no call was given an address that is still
free. -/
structure Recorded (actions : List Action) (st : State) : Prop where
  length : st.heap.length = (actions.filterMap Action.creation).length
  entry : ∀ addr, st.heap[addr]? =
    ((actions.filterMap Action.creation)[addr]?).map (afterOwnCalls addr actions)
  free : ∀ addr, st.heap.length ≤ addr → ∀ e, afterOwnCalls addr actions e = e

theorem Recorded.create {actions : List Action} {st st' : State} {a : Action}
    {e : ConnEntry} (h : Recorded actions st) (hcreate : a.creation = some e)
    (hheap : st'.heap = st.heap ++ [e]) (hnone : ∀ addr, a.changeAt addr = none) :
    Recorded (actions ++ [a]) st' := by
  have hmade : (actions ++ [a]).filterMap Action.creation =
      actions.filterMap Action.creation ++ [e] := by
    rw [List.filterMap_append, List.filterMap_cons_some hcreate]
    rfl
  have hsame : ∀ addr, afterOwnCalls addr (actions ++ [a]) =
      afterOwnCalls addr actions := by
    intro addr
    funext x
    rw [afterOwnCalls_concat, hnone]
  refine ⟨?_, fun addr => ?_, fun addr haddr x => ?_⟩
  · rw [hheap, hmade, List.length_append, List.length_append, h.length]
  · rw [hheap, hmade, hsame]
    rcases Nat.lt_trichotomy addr st.heap.length with hlt | rfl | hgt
    · rw [List.getElem?_append_left hlt,
        List.getElem?_append_left (h.length ▸ hlt), h.entry]
    · -- the new entry: no call was given its address before
      rw [List.getElem?_concat_length, h.length, List.getElem?_concat_length,
        Option.map_some, ← h.length, h.free _ (le_refl _)]
    · rw [List.getElem?_eq_none (by simp; omega),
        List.getElem?_eq_none (by simp [← h.length]; omega), Option.map_none]
  · rw [hheap, List.length_append] at haddr
    rw [hsame]
    exact h.free addr (by omega) x

theorem Recorded.change {actions : List Action} {st st' : State} {a : Action}
    {at' : Nat} {f : ConnEntry → ConnEntry} {e : ConnEntry}
    (h : Recorded actions st) (hcreate : a.creation = none)
    (hold : st.heap[at']? = some e) (hheap : st'.heap = st.heap.set at' (f e))
    (hchange : ∀ b, a.changeAt b = if at' = b then some f else none) :
    Recorded (actions ++ [a]) st' := by
  have hmade : (actions ++ [a]).filterMap Action.creation =
      actions.filterMap Action.creation := by
    rw [List.filterMap_append, List.filterMap_cons_none hcreate]
    exact List.append_nil _
  have hlt : at' < st.heap.length := (List.getElem?_eq_some_iff.mp hold).1
  have hother : ∀ addr, at' ≠ addr → afterOwnCalls addr (actions ++ [a]) =
      afterOwnCalls addr actions := by
    intro addr hne
    funext x
    rw [afterOwnCalls_concat, hchange, if_neg hne]
  refine ⟨?_, fun addr => ?_, fun addr haddr x => ?_⟩
  · rw [hheap, List.length_set, hmade, h.length]
  · rw [hheap, hmade]
    by_cases haddr : at' = addr
    · subst haddr
      rw [List.getElem?_set_self hlt]
      have hentry := h.entry at'
      rw [hold] at hentry
      obtain ⟨x, hx, hafter⟩ := Option.map_eq_some_iff.mp hentry.symm
      rw [hx, Option.map_some, afterOwnCalls_concat, hchange, if_pos rfl, hafter]
    · rw [List.getElem?_set_ne haddr, hother addr haddr, h.entry]
  · rw [hheap, List.length_set] at haddr
    rw [hother addr (by omega)]
    exact h.free addr haddr x

/-- In every run on the empty table, the entry at an address is the one that was
created there, after the calls that were given this address. -/
theorem recorded_of_run {actions : List Action} {st : State}
    (hrun : system.run emptyTable actions = some st) : Recorded actions st := by
  induction actions using List.reverseRecOn generalizing st with
  | nil =>
      obtain rfl := Option.some.inj hrun
      exact ⟨rfl, fun addr => rfl, fun addr _ e => rfl⟩
  | append_singleton actions a ih =>
      obtain ⟨mid, hmid, hstep⟩ := ActionSystem.run_concat_eq_some_iff.mp hrun
      rcases step_cases hstep with ⟨e, hcreate, hheap, hnone⟩ |
        ⟨at', f, e, hcreate, hold, hheap, -, hchange⟩
      · exact (ih hmid).create hcreate hheap hnone
      · exact (ih hmid).change hcreate hold hheap hchange

/-! ## What a query finds -/

theorem visit_reverse (st : State) {q : Tuple} (hself : q ≠ q.reverse)
    (addr : Nat) :
    st.visit q.reverse addr =
      (st.visit q addr).map fun found => (found.1, !found.2) := by
  unfold State.visit
  cases st.heap[addr]? with
  | none => rfl
  | some e =>
      simp only [Option.bind_some, Option.map_map, ConnEntry.test_eq]
      rw [Tuple.reverse_reverse]
      by_cases horig : e.orig = q
      · simp [horig, hself]
      · by_cases hreply : e.orig = q.reverse
        · simp [hreply, Ne.symm hself]
        · simp [horig, hreply]

/-- A call that creates no entry for a flow leaves its query's answer. -/
theorem linearLookup_step {st st' : State} {a : Action} {q : Tuple}
    (hstep : system.step st a = some st')
    (hother : ∀ e, a.creation = some e → e.orig ≠ q ∧ e.orig ≠ q.reverse) :
    linearLookup st' q = linearLookup st q := by
  unfold linearLookup
  rcases step_cases hstep with ⟨e, hcreate, hheap, -⟩ |
    ⟨addr, f, e, -, hold, hheap, horig, -⟩
  · obtain ⟨hne, hne'⟩ := hother e hcreate
    have hnew : st'.visit q st.heap.length = none := by
      refine State.visit_eq_none_iff.mpr ?_
      rintro ⟨e', he', hcases⟩
      rw [hheap, List.getElem?_concat_length, Option.some_inj] at he'
      subst he'
      exact hcases.elim hne hne'
    have hsame : ∀ b < st.heap.length, st'.visit q b = st.visit q b := by
      intro b hb
      unfold State.visit
      rw [hheap, List.getElem?_append_left hb]
    rw [hheap, List.length_append, List.length_singleton, newestFirst,
      List.findSome?_cons, hnew]
    exact findSome?_newestFirst_congr hsame
  · have hvisit : st'.visit q = st.visit q := by
      funext b
      unfold State.visit
      rw [hheap]
      by_cases hb : addr = b
      · subst hb
        rw [List.getElem?_set_self (List.getElem?_eq_some_iff.mp hold).1, hold]
        simp only [Option.bind_some, ConnEntry.test_eq, horig]
      · rw [List.getElem?_set_ne hb]
    rw [hvisit, hheap, List.length_set]

/-- In every table reached by calls on the empty one: the two directions of a
flow find the same entry, one of them as a reply, and through any further calls
what a query finds stays what it is until an entry is created for its flow. -/
theorem lookup_stable {st : State} (hreach : system.Reachable st) {q : Tuple}
    (hself : q ≠ q.reverse) :
    connLookup st q.reverse =
      (connLookup st q).map (fun found => (found.1, !found.2)) ∧
    ∀ actions st', system.run st actions = some st' →
      (∀ e ∈ actions.filterMap Action.creation,
        e.orig ≠ q ∧ e.orig ≠ q.reverse) →
      connLookup st' q = connLookup st q := by
  constructor
  · have hok := reachable_tableOk hreach
    rw [connLookup_eq_linearLookup hok, connLookup_eq_linearLookup hok,
      linearLookup, linearLookup, List.map_findSome?]
    exact congrArg (List.findSome? · _) (funext (visit_reverse st hself))
  · intro actions
    induction actions generalizing st with
    | nil =>
        intro st' hrun _
        rw [Option.some.inj hrun]
    | cons a rest ih =>
        intro st' hrun hother
        obtain ⟨mid, hstep, hrest⟩ := Option.bind_eq_some_iff.mp hrun
        have hmid := hreach.next hstep
        have hfirst : ∀ e, a.creation = some e →
            e.orig ≠ q ∧ e.orig ≠ q.reverse := fun e he =>
          hother e (List.mem_filterMap.mpr ⟨a, List.mem_cons_self, he⟩)
        have hlater : ∀ e ∈ rest.filterMap Action.creation,
            e.orig ≠ q ∧ e.orig ≠ q.reverse := by
          intro e he
          obtain ⟨b, hb, hbe⟩ := List.mem_filterMap.mp he
          exact hother e (List.mem_filterMap.mpr ⟨b, .tail a hb, hbe⟩)
        -- the table and the linear search agree before and after the call
        rw [ih hmid st' hrest hlater,
          connLookup_eq_linearLookup (reachable_tableOk hmid),
          connLookup_eq_linearLookup (reachable_tableOk hreach),
          linearLookup_step hstep hfirst]

/-- Another connection is opened and this one goes through its handshake: it is
found where it was. -/
theorem lookup_stable_handshake :
    ∃ st st', system.run emptyTable
        [.create ⟨50, 100, 12345, 80, 6⟩ .tcp .tcpSynSent] = some st ∧
      system.run st [.create ⟨51, 100, 12345, 80, 6⟩ .tcp .tcpSynSent,
        .tcpStep 0 0x12 true, .tcpStep 0 0x10 false] = some st' ∧
      connLookup st' ⟨50, 100, 12345, 80, 6⟩ = some (0, false) ∧
      connLookup st ⟨100, 50, 80, 12345, 6⟩ = some (0, true) := by
  have hstart : system.Reachable emptyTable := .start ⟨rfl, rfl⟩
  have hreach := hstart.next
    (a := .create ⟨50, 100, 12345, 80, 6⟩ .tcp .tcpSynSent) rfl
  obtain ⟨hreverse, hstays⟩ := lookup_stable hreach
    (q := ⟨50, 100, 12345, 80, 6⟩) (by decide)
  refine ⟨_, _, rfl, rfl, ?_, ?_⟩
  · exact (hstays [.create ⟨51, 100, 12345, 80, 6⟩ .tcp .tcpSynSent,
      .tcpStep 0 0x12 true, .tcpStep 0 0x10 false] _ rfl (by decide)).trans rfl
  · exact hreverse.trans rfl

end Conntrack
end OsKernel
