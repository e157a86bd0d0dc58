import Difacto.Io.ThreadedIter
import Mathlib.Data.List.Perm.Basic

/-!
# Who owns the data cells

The cells of `ThreadedIter` of `dmlc-core/include/dmlc/threadediter.h` travel from the producer
through the queue to the consumer and back through the free cells. At every moment a cell has one
owner, `Destroy` deletes every cell that the consumer does not have, once, and the number of cells
that are ever allocated is bounded by the capacity and the cells that the consumer has at a time.

## Main definitions

* `ThreadedIter.addresses` — the cells of all owners.
* `ThreadedIter.Owned` — every allocated cell has one owner.

## Main results

* `ThreadedIter.reach_owned` — in every run, and after `Destroy`.
-/

namespace Difacto.Io

open Lib (Reach anyStep)

variable {S T : Type}

namespace ThreadedIter

/-- The cell that the producer has. -/
def handCells (s : ThreadedIter S T) : List (Cell T) :=
  match s.producer with
  | .next (some cell) | .produced cell => [cell]
  | _ => []

/-- The cells that the consumer has. -/
def consumerCells (s : ThreadedIter S T) : List (Cell T) := s.outData.toList ++ s.held

/-- The addresses of the cells of all owners, and of those that are gone. -/
def addresses (s : ThreadedIter S T) : List ℕ :=
  (s.freeCells ++ s.queue ++ s.handCells ++ s.consumerCells).map Cell.addr ++ s.deleted

theorem count_addresses (s : ThreadedIter S T) (x : ℕ) :
    s.addresses.count x = (s.freeCells.map Cell.addr).count x + (s.queue.map Cell.addr).count x +
      (s.handCells.map Cell.addr).count x + (s.outData.toList.map Cell.addr).count x +
      (s.held.map Cell.addr).count x + s.deleted.count x := by
  simp only [addresses, consumerCells, List.map_append, List.count_append]
  omega

/-- `Next` is on its way to fill `out_data_`. -/
def Fetches (s : ThreadedIter S T) : Prop :=
  s.consumer = .notifying (some .outData) ∨ s.consumer = .next .outData ∨
    s.consumer = .nextAsleep .outData ∨ s.consumer = .nextWoken .outData

/-- Every cell that was allocated has one owner or is gone; none is gone while the thread runs. -/
structure Owned (s : ThreadedIter S T) : Prop where
  count : ∀ x, s.addresses.count x = if x < s.allocated then 1 else 0
  fetching : s.Fetches → s.outData = none
  deleted : s.hasThread = true → s.deleted = []

theorem Owned.perm {s : ThreadedIter S T} (hs : s.Owned) :
    s.addresses.Perm (List.range s.allocated) := by
  rw [List.perm_iff_count]
  intro x
  rw [hs.count, List.count_range]

variable {p : Producer S T} {s s' : ThreadedIter S T} {a : Act T}

/-- The cells moved from one owner to another. -/
theorem Owned.moved (hs : s.Owned) (hcells : ∀ x, s'.addresses.count x = s.addresses.count x)
    (hallocated : s'.allocated = s.allocated)
    (hdeleted : s'.hasThread = true → s.hasThread = true ∧ s'.deleted = s.deleted)
    (hfetching : s'.Fetches → s'.outData = none) : s'.Owned := by
  refine ⟨fun x => by rw [hcells, hs.count, hallocated], hfetching, fun h => ?_⟩
  obtain ⟨hthread, hdeleted⟩ := hdeleted h
  rw [hdeleted, hs.deleted hthread]

theorem handCells_of_leavesWait {n : ℕ} (h : s.LeavesWait n) : s.handCells = [] := by
  obtain ⟨hat, -⟩ | ⟨hat, -⟩ := h <;> simp [handCells, hat]

theorem handCells_notified (s : ThreadedIter S T) :
    handCells { s with producer := if s.nwaitConsumer ≠ 0 then .notifying else .top } = [] := by
  unfold handCells
  split <;> simp_all [ite_eq_iff]

theorem handCells_signalled (hinv : s.Inv) {t : ThreadedIter S T} (ht : t.producer =
    if s.nwaitProducer ≠ 0 then s.notifyProducer.producer else s.producer) :
    t.handCells = s.handCells := by
  unfold handCells
  rw [ht, hinv.signalled]
  cases hat : s.producer <;> rfl

theorem owned_turn (hinv : s.Inv) (hs : s.Owned) (h : Turn p s a s') : s'.Owned := by
  have hsame : s.hasThread = true → s.hasThread = true ∧ s.deleted = s.deleted :=
    fun hthread => ⟨hthread, rfl⟩
  have hfetch : s.Fetches → s.outData = none := hs.fetching
  have hrelease : ∀ {t : ThreadedIter S T}, t.consumer = s.release none → ¬ t.Fetches := by
    intro t ht hfetches
    unfold Fetches release at *
    grind
  cases h with
  | sleep hat hcan | sleepAgain hat hcan =>
    refine hs.moved (fun x => ?_) rfl hsame hfetch
    simp [count_addresses, handCells, hat]
  | allocate hn hsig hend hlen hfree =>
    refine hs.moved (fun x => ?_) rfl hsame hfetch
    rw [count_addresses, count_addresses, handCells_of_leavesWait hn]
    simp [handCells]
  | reuse hn hsig hend hcons =>
    refine hs.moved (fun x => ?_) rfl hsame hfetch
    rw [count_addresses, count_addresses, handCells_of_leavesWait hn, hcons]
    simp [handCells, List.count_cons]
    omega
  | rewind hn hsig =>
    refine hs.moved (fun x => ?_) rfl hsame hfetch
    rw [count_addresses, count_addresses, handCells_of_leavesWait hn]
    simp [handCells]
  | quit hn hsig =>
    refine hs.moved (fun x => ?_) rfl hsame ?_
    · rw [count_addresses, count_addresses, handCells_of_leavesWait hn]
      simp [handCells, notifyConsumer]
    · intro hfetches
      refine hfetch ?_
      unfold Fetches notifyConsumer at *
      grind
  | fillNew hat hnext =>
    -- the address of the new cell is the next one
    refine ⟨fun x => ?_, hfetch, hs.deleted⟩
    have hcount := hs.count x
    rw [count_addresses] at hcount ⊢
    simp only [handCells, hat, List.map_nil, List.count_nil] at hcount
    simp only [handCells, List.map_cons, List.map_nil, List.count_singleton, beq_iff_eq]
    grind
  | fill hat hnext =>
    refine hs.moved (fun x => ?_) rfl hsame hfetch
    simp [count_addresses, handCells, hat]
  | push hat hend | finish hat hend =>
    refine hs.moved (fun x => ?_) rfl hsame hfetch
    have hnil := congrArg (List.map Cell.addr) s.handCells_notified
    simp only [count_addresses, List.map_append, List.count_append]
    simp only [handCells, hat, List.map_nil] at hnil ⊢
    rw [hnil, List.count_nil]
    omega
  | tell hat =>
    refine hs.moved (fun x => ?_) rfl hsame ?_
    · simp only [count_addresses, handCells, notifyConsumer]
      cases hp : s.producer <;> simp_all
    · intro hfetches
      refine hfetch ?_
      unfold Fetches notifyConsumer at *
      grind
  | told hat | toldOn hat =>
    refine hs.moved (fun x => ?_) rfl hsame ?_
    · simp only [count_addresses, handCells, notifyProducer]
      cases hp : s.producer <;> simp_all
    · intro hfetches
      refine hfetch ?_
      unfold Fetches notifyProducer at *
      grind
  | @take dest n cell queue hn hqueue =>
    refine hs.moved (fun x => ?_) rfl hsame fun h => absurd h (hrelease rfl)
    have hcons : (s.queue.map Cell.addr).count x =
        (queue.map Cell.addr).count x + ([cell].map Cell.addr).count x := by
      rw [hqueue, List.map_cons, List.map_singleton, List.count_cons, List.count_singleton]
    rw [count_addresses, count_addresses, hcons]
    cases dest with
    | outData =>
      have hout : s.outData = none := by
        refine hfetch ?_
        unfold LeavesNext Fetches at *
        grind
      simp only [hout, if_true, reduceCtorEq, if_false, Option.toList_some, Option.toList_none,
        List.map_nil, List.count_nil]
      show _ + (s.handCells.map Cell.addr).count x + _ + _ + _ = _
      omega
    | caller =>
      simp only [if_true, reduceCtorEq, if_false, List.map_append, List.count_append]
      show _ + (s.handCells.map Cell.addr).count x + _ + _ + _ = _
      omega
  | ended hn hqueue hend => exact hs.moved (fun x => rfl) rfl hsame (by simp [Fetches])
  | refuse hat hsig => exact hs.moved (fun x => rfl) rfl hsame (by simp [Fetches])
  | await hat hsig hqueue hend | awaitAgain hat hqueue hend =>
    refine hs.moved (fun x => rfl) rfl hsame fun hfetches => hfetch ?_
    unfold Fetches at *
    grind
  | rewound hat hdone => exact hs.moved (fun x => rfl) rfl hsame fun h => absurd h (hrelease rfl)
  | rewindAgain hat hdone => exact hs.moved (fun x => rfl) rfl hsame (by simp [Fetches])
  | joined hat hreturned | destroyAgain hat hthread =>
    refine hs.moved (fun x => ?_) rfl ?_ fun _ => rfl
    · simp only [count_addresses, deleteCells, List.map_append, List.count_append, List.map_nil,
        List.count_nil, Option.toList_none]
      show 0 + 0 + (s.handCells.map Cell.addr).count x + _ + _ + _ = _
      omega
    · intro h
      simp_all [deleteCells]
  | callNext hat => exact hs.moved (fun x => rfl) rfl hsame (by simp [Fetches])
  | callValue hat hout => exact hs.moved (fun x => rfl) rfl hsame fun _ => hout
  | recycleValue hat hout =>
    refine hs.moved (fun x => ?_) rfl hsame fun _ => rfl
    rw [count_addresses, count_addresses]
    simp only [hout, List.map_append, List.count_append, Option.toList_some, Option.toList_none,
      List.map_nil, List.count_nil]
    show _ + _ + _ + (s.handCells.map Cell.addr).count x + _ + _ + _ = _
    omega
  | @recycle i cell data hat hcell =>
    refine hs.moved (fun x => ?_) rfl hsame fun h => absurd h (hrelease rfl)
    obtain ⟨hi, hget⟩ := List.getElem?_eq_some_iff.mp hcell
    have hheld : (s.held.map Cell.addr).count x =
        ([cell].map Cell.addr).count x + ((s.held.eraseIdx i).map Cell.addr).count x := by
      have hperm := (List.getElem_cons_eraseIdx_perm hi).map Cell.addr
      rw [← hperm.count_eq, hget, List.map_cons, List.count_cons, List.map_singleton,
        List.count_singleton, Nat.add_comm]
    rw [count_addresses, count_addresses, hheld]
    simp only [List.map_append, List.count_append]
    show _ + _ + _ + (s.handCells.map Cell.addr).count x + _ + _ + _ = _
    simp only [List.map_singleton]
    omega
  | lateBeforeFirst hat hsig | badBeforeFirst hat hsig hdone =>
    refine hs.moved (fun x => ?_) rfl hsame fun _ => rfl
    rw [count_addresses, count_addresses]
    simp only [List.map_append, List.count_append, Option.toList_none, List.map_nil, List.count_nil]
    show _ + _ + _ + (s.handCells.map Cell.addr).count x + _ + _ + _ = _
    omega
  | beforeFirst hat hsig hdone hp =>
    refine hs.moved (fun x => ?_) rfl hsame fun _ => rfl
    rw [count_addresses, count_addresses, handCells_signalled hinv hp]
    simp only [List.map_append, List.count_append, Option.toList_none, List.map_nil, List.count_nil]
    omega
  | destroy hat hthread hp =>
    refine hs.moved (fun x => ?_) rfl hsame (by simp [Fetches])
    rw [count_addresses, count_addresses, handCells_signalled hinv hp]
  | clash hat hsig => exact hs.moved (fun x => rfl) rfl hsame hfetch
  | wakeNext hat =>
    refine hs.moved (fun x => rfl) rfl hsame fun hfetches => hfetch ?_
    unfold Fetches at *
    grind
  | wakeBeforeFirst hat => exact hs.moved (fun x => rfl) rfl hsame (by simp [Fetches])
  | wakeProducer hat =>
    refine hs.moved (fun x => ?_) rfl hsame hfetch
    simp [count_addresses, handCells, hat]

theorem init_owned (cap : ℕ) (source : S) : (init cap source : ThreadedIter S T).Owned :=
  ⟨fun x => by simp [count_addresses, handCells, init], by simp [Fetches, init], fun _ => rfl⟩

/-! ## How many cells there are -/

/-- The consumer has at most `m` cells at a time. -/
def Holds (m : ℕ) (s : ThreadedIter S T) (_ : Act T) : Prop := s.consumerCells.length ≤ m

/-- Cells are allocated only while the others are in the queue, which has room, or with the
consumer. -/
structure Bounded (cap m : ℕ) (s : ThreadedIter S T) : Prop where
  maxCapacity : s.maxCapacity = cap
  allocated : s.allocated ≤ cap + m
  allocating : s.producer = .next none → s.allocated < cap + m

theorem Owned.length_eq (hs : s.Owned) :
    s.freeCells.length + s.queue.length + s.handCells.length + s.consumerCells.length +
      s.deleted.length = s.allocated := by
  have hlength := hs.perm.length_eq
  simpa [addresses, Nat.add_assoc] using hlength

theorem Bounded.of_producer {cap m : ℕ} (hs : s.Bounded cap m)
    (hcap : s'.maxCapacity = s.maxCapacity) (hallocated : s'.allocated = s.allocated)
    (hproducer : s'.producer = .next none → s.producer = .next none) : s'.Bounded cap m :=
  ⟨hcap.trans hs.maxCapacity, hallocated ▸ hs.allocated,
    fun h => hallocated ▸ hs.allocating (hproducer h)⟩

theorem bounded_turn {cap m : ℕ} (hinv : s.Inv) (howned : s.Owned) (hs : s.Bounded cap m)
    (hheld : s.Holds m a) (h : Turn p s a s') : s'.Bounded cap m := by
  cases h with
  | allocate hn hsig hend hlen hfree =>
    have hlength := howned.length_eq
    have hthread := (hinv.produce hsig).2.2.1
    have hcap := hs.maxCapacity
    rw [hfree, handCells_of_leavesWait hn, howned.deleted hthread] at hlength
    unfold Holds at hheld
    refine ⟨hcap, hs.allocated, fun _ => ?_⟩
    simp only [List.length_nil] at hlength
    show s.allocated < cap + m
    omega
  | fillNew hat hnext =>
    exact ⟨hs.maxCapacity, hs.allocating hat, fun h => by cases h⟩
  | told hat | toldOn hat =>
    refine hs.of_producer rfl rfl fun h => ?_
    simp only [notifyProducer] at h
    cases hp : s.producer <;> simp_all
  | beforeFirst hat hsig hdone hp | destroy hat hthread hp =>
    refine hs.of_producer rfl rfl fun h => ?_
    rw [hinv.signalled] at hp
    cases hat' : s.producer <;> simp_all
  | push hat hend | finish hat hend =>
    refine hs.of_producer rfl rfl fun h => ?_
    simp only at h
    split at h <;> cases h
  | sleep | sleepAgain | reuse | rewind | quit | fill | tell | wakeProducer =>
    exact hs.of_producer rfl rfl fun h => by cases h
  | _ => exact hs.of_producer rfl rfl fun h => h

/-- What every run keeps in which the consumer has at most `m` cells at a time. -/
structure Accounted (cap m : ℕ) (s : ThreadedIter S T) : Prop where
  inv : s.Inv
  owned : s.Owned
  bounded : s.Bounded cap m

/-- **Every cell has one owner**: in every order of the steps, the cells that were allocated are
those of the owners and those that were deleted, each once. There are never more than the queue and
the consumer can have, and when `Destroy` is over the cells that are left are the consumer's. -/
theorem reach_owned {cap m : ℕ} {source : S} (hr : Reach (step p) (Holds m) (init cap source) s) :
    s.addresses.Perm (List.range s.allocated) ∧ s.allocated ≤ cap + m ∧
      ∀ s', s.consumer = .joining → step p s .consumer = some s' →
        (s'.held.map Cell.addr ++ s'.deleted).Perm (List.range s'.allocated) := by
  have haccounted : s.Accounted cap m := by
    refine hr.invariant ⟨init_inv cap source, init_owned cap source,
      rfl, Nat.zero_le _, fun h => by cases h⟩ fun _ _ _ hs hheld hstep => ?_
    have hturn := (step_turn hstep).2
    exact ⟨inv_turn hs.inv hturn, owned_turn hs.inv hs.owned hturn,
      bounded_turn hs.inv hs.owned hs.bounded hheld hturn⟩
  refine ⟨haccounted.owned.perm, haccounted.bounded.allocated, fun s' hjoining hstep => ?_⟩
  have hturn := (step_turn hstep).2
  have hperm := (owned_turn haccounted.inv haccounted.owned hturn).perm
  unfold step consumerStep at hstep
  simp only [haccounted.inv.failed, hjoining] at hstep
  have hreturned : s.producer = .returned := by
    by_contra hne
    cases hp : s.producer <;> simp_all
  simp only [hreturned] at hstep
  obtain rfl : _ = s' := by simpa using hstep
  simpa [addresses, consumerCells, handCells, deleteCells, hreturned] using hperm

instance decidableHolds (m : ℕ) (s : ThreadedIter S T) (a : Act T) : Decidable (s.Holds m a) :=
  inferInstanceAs (Decidable (_ ≤ _))

/-- The consumer of `twoNumbers` takes a number and leaves. -/
def takeAndLeave : List (Act ℕ) :=
  callNext ++ [.producer, .producer, .producer, .consumer, .call .destroy, .producer]

theorem reach_owned_twoNumbers : ∃ s, Reach (step twoNumbers) (Holds 1) (init 1 0) s ∧
    s.consumer = .joining ∧ s.allocated ≤ 2 ∧
      ∀ s', step twoNumbers s .consumer = some s' →
        (s'.held.map Cell.addr ++ s'.deleted).Perm (List.range s'.allocated) := by
  have hrun : (Lib.runs (fun s a => if Holds 1 s a then step twoNumbers s a else none) (init 1 0)
      takeAndLeave).any (fun s => s.consumer = .joining) = true := by
    decide +kernel
  obtain ⟨s, hs, htest⟩ := Reach.exists_of_runs hrun
  have hjoining : s.consumer = .joining := of_decide_eq_true htest
  obtain ⟨-, hle, hend⟩ := reach_owned hs
  exact ⟨s, hs, hjoining, hle, fun s' => hend s' hjoining⟩

end ThreadedIter

end Difacto.Io
