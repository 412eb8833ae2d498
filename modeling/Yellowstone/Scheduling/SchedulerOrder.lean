import Mathlib.Data.List.Sort
import Yellowstone.Scheduling.SchedulerConservation
import Yellowstone.Scheduling.SchedulerDeadline

/-!
# Deadline order, and first in first out at equal deadlines

The insertion orders of the first 2^64 requests are distinct and increase with acceptance.
As long as no more are accepted, an extracted item is strictly least, and what was forwarded
precedes what is in flight, which precedes what is pending at the same deadline.
-/

set_option autoImplicit false

namespace Yellowstone

open Machine

namespace Ledger
variable {Payload : Type} {l l' : Ledger Payload}

/-- At equal deadlines the first was accepted before the second. -/
def Precedes (i j : ScheduledItem Payload) : Prop :=
  i.forwardAt = j.forwardAt → i.insertionOrder < j.insertionOrder

/-- What has left the heap for good by being forwarded, then what may still be. -/
structure Fifo (l : Ledger Payload) : Prop where
  ordered : l.pending.Ordered earlierDeadline
  taken : (l.forwarded ++ l.inFlight.toList).Pairwise Precedes
  waiting : ∀ i ∈ l.forwarded ++ l.inFlight.toList, ∀ j ∈ l.pending.values, Precedes i j

theorem drawn_eq_range {n : Nat} (few : n ≤ wordSize) : drawn 0 n = List.range n := by
  unfold drawn
  conv_rhs => rw [← List.map_id (List.range n)]
  apply List.map_congr_left
  intro k hk
  exact Nat.mod_eq_of_lt (by have := List.mem_range.mp hk; omega)

section Balanced
variable (balanced : Balanced l)
include balanced

theorem mem_accepted {i : ScheduledItem Payload} : i ∈ l.accepted ↔
    i ∈ l.pending.values ∨ i ∈ l.inFlight.toList ∨ i ∈ l.forwarded ∨ i ∈ l.failed := by
  simpa using balanced.conserved.mem_iff

theorem orders_eq_range (few : l.accepted.length ≤ wordSize) :
    l.accepted.map ScheduledItem.insertionOrder = List.range l.accepted.length :=
  balanced.orders.trans (drawn_eq_range few)

theorem order_lt (few : l.accepted.length ≤ wordSize) {i : ScheduledItem Payload}
    (hi : i ∈ l.accepted) : i.insertionOrder < l.accepted.length := by
  have drawn := List.mem_map_of_mem (f := ScheduledItem.insertionOrder) hi
  rw [orders_eq_range balanced few] at drawn
  exact List.mem_range.mp drawn

theorem pending_orders_nodup (few : l.accepted.length ≤ wordSize) :
    (l.pending.values.map ScheduledItem.insertionOrder).Nodup := by
  have all := (balanced.conserved.map ScheduledItem.insertionOrder).nodup_iff.mp
    (orders_eq_range balanced few ▸ List.nodup_range)
  rw [List.map_append] at all
  exact (List.nodup_append.mp all).1

/-- An extracted item is strictly below what stays. -/
theorem extracted_lt (few : l.accepted.length ≤ wordSize)
    (ordered : l.pending.Ordered earlierDeadline) {due : ScheduledItem Payload}
    {rest : TreeHeap (ScheduledItem Payload)}
    (he : TreeHeap.extract earlierDeadline l.pending = some (due, rest)) :
    ∀ j ∈ rest.values, due.key < j.key := by
  intro j hj
  have perm := TreeHeap.values_extract earlierDeadline he
  have least := Scheduler.top_key_le ordered (Scheduler.top_of_extract he)
    (perm.mem_iff.mpr (List.mem_cons_of_mem due hj))
  apply lt_of_le_of_ne least
  intro same
  have distinct := (perm.map ScheduledItem.insertionOrder).nodup_iff.mp
    (pending_orders_nodup balanced few)
  have fresh := (List.nodup_cons.mp distinct).1
  exact fresh ((ScheduledItem.key_eq.mp same).2 ▸ List.mem_map_of_mem hj)

theorem fifo_accept (few : l.accepted.length < wordSize) (inv : Fifo l) (r : Request Payload) :
    Fifo (l.accept r) := by
  have pushed := TreeHeap.values_push earlierDeadline l.pending (l.item r)
  refine ⟨TreeHeap.ordered_push inv.ordered _, inv.taken, ?_⟩
  intro i hi j hj
  rcases List.mem_cons.mp (pushed.mem_iff.mp hj) with rfl | hj
  · -- the new item draws the number of items accepted before it
    have accepted : i ∈ l.accepted := (mem_accepted balanced).mpr
      ((List.mem_append.mp hi).elim (fun h => .inr (.inr (.inl h))) fun h => .inr (.inl h))
    have next : (l.item r).insertionOrder = l.accepted.length :=
      balanced.nextOrder.trans (Nat.mod_eq_of_lt few)
    exact fun _ => next ▸ order_lt balanced few.le accepted
  · exact inv.waiting i hi j hj

theorem fifo_extract (few : l.accepted.length ≤ wordSize) (inv : Fifo l)
    {due : ScheduledItem Payload} {rest : TreeHeap (ScheduledItem Payload)}
    (free : l.inFlight = none)
    (he : TreeHeap.extract earlierDeadline l.pending = some (due, rest)) :
    Fifo { l with pending := rest, inFlight := some due } := by
  have perm := TreeHeap.values_extract earlierDeadline he
  have stays : ∀ j ∈ rest.values, j ∈ l.pending.values := fun j hj =>
    perm.mem_iff.mpr (List.mem_cons_of_mem due hj)
  have before : ∀ i ∈ l.forwarded, ∀ j ∈ l.pending.values, Precedes i j := fun i hi =>
    inv.waiting i (List.mem_append_left _ hi)
  refine ⟨TreeHeap.ordered_extract inv.ordered he, ?_, ?_⟩
  · have forwarded := inv.taken
    rw [free] at forwarded
    refine List.pairwise_append.mpr ⟨(List.pairwise_append.mp forwarded).1, by simp, ?_⟩
    intro i hi j hj
    cases List.mem_singleton.mp hj
    exact before i hi due (perm.mem_iff.mpr List.mem_cons_self)
  · intro i hi j hj
    rcases List.mem_append.mp hi with hi | hi
    · exact before i hi j (stays j hj)
    · cases List.mem_singleton.mp hi
      have below := ScheduledItem.key_lt.mp (extracted_lt balanced few inv.ordered he j hj)
      exact fun same => (below.resolve_left (same ▸ lt_irrefl _)).2

end Balanced

theorem fifo_requeue (inv : Fifo l) {due : ScheduledItem Payload} (flight : l.inFlight = some due) :
    Fifo { l with
      pending := TreeHeap.push earlierDeadline l.pending due, inFlight := none } := by
  have pushed := TreeHeap.values_push earlierDeadline l.pending due
  have taken := inv.taken
  rw [flight] at taken
  obtain ⟨forwarded, -, last⟩ := List.pairwise_append.mp taken
  refine ⟨TreeHeap.ordered_push inv.ordered due, ?_, fun i hi j hj => ?_⟩
  · exact (List.append_nil l.forwarded).symm ▸ forwarded
  replace hi : i ∈ l.forwarded := List.append_nil l.forwarded ▸ hi
  rcases List.mem_cons.mp (pushed.mem_iff.mp hj) with rfl | hj
  · exact last i hi j (List.mem_singleton_self j)
  · exact inv.waiting i (List.mem_append_left _ hi) j hj

theorem Entry.accepted_length_le (h : l.Entry l') : l.accepted.length ≤ l'.accepted.length := by
  cases h with
  | accept r => simp [Ledger.accept]
  | _ => exact le_rfl

theorem Entry.fifo (h : l.Entry l') (balanced : Balanced l)
    (few : l'.accepted.length ≤ wordSize) (inv : Fifo l) : Fifo l' := by
  have few' := h.accepted_length_le.trans few
  cases h with
  | none => exact inv
  | accept r =>
    have grown : (l.accept r).accepted.length = l.accepted.length + 1 := by
      simp [Ledger.accept]
    have room : l.accepted.length + 1 ≤ wordSize := grown ▸ few
    exact fifo_accept balanced room inv r
  | returned id hid => exact ⟨inv.ordered, inv.taken, inv.waiting⟩
  | extract due rest free he => exact fifo_extract balanced few' inv free he
  | overflow due _ => exact ⟨inv.ordered, inv.taken, inv.waiting⟩
  | requeue due flight => exact fifo_requeue inv flight
  | forward due flight =>
    -- the item in flight becomes the last one forwarded
    have same : l.forwarded ++ l.inFlight.toList = (l.forwarded ++ [due]) ++ [] := by
      simp [flight]
    have taken := inv.taken
    have waiting := inv.waiting
    rw [same] at taken waiting
    exact ⟨inv.ordered, taken, waiting⟩
  | fail due flight =>
    have fewer : (l.forwarded ++ []).Sublist (l.forwarded ++ l.inFlight.toList) :=
      List.Sublist.append_left (List.nil_sublist _) _
    exact ⟨inv.ordered, inv.taken.sublist fewer, fun i hi => inv.waiting i (fewer.subset hi)⟩

end Ledger

namespace Scheduler
variable {Payload : Type} {s s' : Scheduler Payload} {now : TimePoint}

theorem fifo_reachable (reached : Reachable step (initial now) s) :
    s.accepted.length ≤ wordSize → s.ledger.Fifo := by
  induction reached with
  | start => exact fun _ => ⟨trivial, .nil, nofun⟩
  | next r a r' reached moves ih =>
    intro few
    have entry := step_entry (noThread_reachable reached) moves
    exact entry.fifo (balanced_reachable reached) few (ih (entry.accepted_length_le.trans few))

/-- The order in which a scheduler promises to attempt and forward requests. -/
structure KeepsOrder (s : Scheduler Payload) : Prop where
  strictlyLeast : ∀ s' due, Begins s s' due → ∀ i ∈ s'.heap.values, due.key < i.key
  smallerSettled : ∀ s' due, Begins s s' due →
    ∀ i ∈ s.accepted, i.key < due.key → i ∈ s.forwarded ∨ i ∈ s.failed
  inOrder : ∀ d, (s.forwarded.filter fun i => i.forwardAt = d).Sublist
    (s.accepted.filter fun i => i.forwardAt = d)

theorem begins_smaller_settled (reached : Reachable step (initial now) s)
    {due : ScheduledItem Payload} (begins : Begins s s' due) {i : ScheduledItem Payload}
    (hi : i ∈ s.accepted) (smaller : i.key < due.key) : i ∈ s.forwarded ∨ i ∈ s.failed := by
  obtain ⟨d, o, c, heap, hw, -, he, -⟩ := begins_cases begins
  have ordered := (watching_reachable reached).ordered
  have free : s.ledger.inFlight = none := by simp [ledger, hw, Worker.inFlight]
  rcases (Ledger.mem_accepted (balanced_reachable reached)).mp hi with pending | flight | settled
  · exact absurd smaller (top_key_le ordered (top_of_extract he) pending).not_gt
  · simp [free] at flight
  · exact settled

/-- Both lists increase in insertion order, and one has its members in the other. -/
theorem forwarded_sublist (reached : Reachable step (initial now) s)
    (few : s.accepted.length ≤ wordSize) (d : TimePoint) :
    (s.forwarded.filter fun i => i.forwardAt = d).Sublist
      (s.accepted.filter fun i => i.forwardAt = d) := by
  let Before : ScheduledItem Payload → ScheduledItem Payload → Prop :=
    fun i j => i.insertionOrder < j.insertionOrder
  have antisymm : Std.Antisymm Before := ⟨fun _ _ hij hji => absurd hij hji.not_gt⟩
  have balanced := balanced_reachable reached
  have within : s.forwarded.Subperm s.accepted := by
    refine List.Subperm.trans (List.Sublist.subperm ?_) balanced.conserved.symm.subperm
    exact ((List.sublist_append_left _ _).trans (List.sublist_append_right _ _)).trans
      (List.sublist_append_right _ _)
  have accepted : s.accepted.Pairwise Before := by
    have drawn : (s.accepted.map ScheduledItem.insertionOrder).Pairwise (· < ·) :=
      Ledger.orders_eq_range balanced few ▸ List.pairwise_lt_range
    exact List.pairwise_map.mp drawn
  have forwarded : (s.forwarded.filter fun i => i.forwardAt = d).Pairwise Before := by
    have taken := (List.pairwise_append.mp (fifo_reachable reached few).taken).1
    apply (List.Pairwise.filter _ taken).imp_of_mem
    intro i j hi hj precedes
    have hi := (List.mem_filter.mp hi).2
    have hj := (List.mem_filter.mp hj).2
    exact precedes ((of_decide_eq_true hi).trans (of_decide_eq_true hj).symm)
  exact List.sublist_of_subperm_of_pairwise (within.filter _) forwarded (accepted.filter _)

theorem reachable_keepsOrder (reached : Reachable step (initial now) s)
    (few : s.accepted.length ≤ wordSize) : KeepsOrder s where
  strictlyLeast s' due begins := by
    obtain ⟨d, o, c, heap, -, -, he, rfl⟩ := begins_cases begins
    exact Ledger.extracted_lt (balanced_reachable reached) few
      (watching_reachable reached).ordered he
  smallerSettled s' due begins i hi smaller := begins_smaller_settled reached begins hi smaller
  inOrder := forwarded_sublist reached few

theorem sampleEnd_keepsOrder : KeepsOrder sampleEnd := by
  have reached : Reachable step (initial 0) sampleEnd := ⟨sampleRun, by decide +kernel⟩
  exact reachable_keepsOrder reached (by decide +kernel)

/-! ## When the insertion orders repeat -/

/-- An attempt that nothing disturbs forwards the root. -/
theorem run_attempt {due : ScheduledItem Payload} {rest : TreeHeap (ScheduledItem Payload)}
    (clock : TimePoint) (ready : s.worker = .acquire ∨ s.worker = .relock)
    (running : s.stopRequested = false)
    (he : TreeHeap.extract earlierDeadline s.heap = some (due, rest))
    (elapsed : due.forwardAt ≤ clock) :
    run step s (.work false :: attempt clock .returned) = some { s with
      heap := rest
      worker := .relock
      now := clock
      observed := some due
      forwardedEvents := (s.forwardedEvents + 1) % wordSize
      forwarded := s.forwarded ++ [due]
      calls := s.calls ++ [due.call .returned] } := by
  have top := top_of_extract he
  -- wherever the thread was, it takes the lock and stands at the loop's head
  have locked : step s (.work false) = some { s with worker := .loopHead } := by
    rcases ready with hw | hw <;> simp [step, workStep, hw]
  rw [run_cons, locked]
  simp [attempt, timedWait, step, workStep, rootChanged, settle, Worker.blocked, Worker.woken,
    running, top, he, elapsed, List.replicate]

/-- Nothing is pending, and nothing was ever due at time 1. -/
structure Quiet (s : Scheduler Payload) (order : Nat) : Prop where
  ready : s.worker = .acquire ∨ s.worker = .relock
  running : s.stopRequested = false
  accepting : s.accepting = true
  nextOrder : s.nextInsertionOrder = order
  heap : s.heap = none
  accepted : ∀ i ∈ s.accepted, i.forwardAt ≠ 1
  forwarded : ∀ i ∈ s.forwarded, i.forwardAt ≠ 1

def Quiet.item (order : Nat) (id : ScheduleId) (r : Request Payload) : ScheduledItem Payload :=
  ⟨r.forwardAt, order, id, r.subscriberId, r.eventId, r.superstep, r.payload⟩

/-- Accepting a request and forwarding it undisturbed advances the counter by one. -/
theorem Quiet.cycle {order : Nat} (q : Quiet s order) (r : Request Payload)
    (early : r.forwardAt = 0) :
    ∃ t, Reachable step s t ∧ Quiet t ((order + 1) % wordSize) := by
  let item := Quiet.item order s.nextScheduleId r
  have unlocked : s.worker.holdsLock = false := by
    rcases q.ready with hw | hw <;> simp [hw, Worker.holdsLock]
  have scheduled : s.schedule r = { s with
      nextScheduleId := (s.nextScheduleId + 1) % wordSize
      nextInsertionOrder := (order + 1) % wordSize
      heap := some ⟨item, .nil⟩
      scheduledEvents := (s.scheduledEvents + 1) % wordSize
      notifying := s.nextScheduleId :: s.notifying
      requests := s.requests ++ [(s.nextScheduleId, r)]
      accepted := s.accepted ++ [item] } := by
    simp [schedule, q.accepting, q.nextOrder, q.heap, TreeHeap.push, item, Quiet.item]
  have first : step s (.schedule r) = some (s.schedule r) := step_schedule.mpr ⟨unlocked, rfl⟩
  let notified : Scheduler Payload := { s.schedule r with
    notifying := (s.schedule r).notifying.erase s.nextScheduleId
    returned := (s.schedule r).returned ++ [s.nextScheduleId]
    worker := (s.schedule r).worker.woken }
  have second : step (s.schedule r) (.notify s.nextScheduleId) = some notified :=
    step_notify.mpr ⟨by simp [scheduled], rfl⟩
  have ready : notified.worker = .acquire ∨ notified.worker = .relock := by
    rcases q.ready with hw | hw <;> simp [notified, scheduled, hw, Worker.woken]
  have running : notified.stopRequested = false := by simp [notified, scheduled, q.running]
  have extracts : TreeHeap.extract earlierDeadline notified.heap = some (item, none) := by
    simp [notified, scheduled, TreeHeap.extract, TreeHeap.pairs]
  have due : item.forwardAt ≤ 0 := early.le
  have third := run_attempt 0 ready running extracts due
  refine ⟨_, (((Reachable.refl s).next first).next second).trans ⟨_, third⟩, ?_⟩
  have others : item.forwardAt ≠ 1 := by simp [item, Quiet.item, early]
  have same : notified.accepted = s.accepted ++ [item] ∧ notified.forwarded = s.forwarded := by
    simp [notified, scheduled]
  constructor
  case ready => exact .inr rfl
  case running => exact running
  case accepting => simp [notified, scheduled, q.accepting]
  case nextOrder => simp [notified, scheduled]
  case heap => rfl
  case accepted =>
    intro i hi
    rcases List.mem_append.mp (same.1 ▸ hi) with hi | hi
    · exact q.accepted i hi
    · exact List.mem_singleton.mp hi ▸ others
  case forwarded =>
    intro i hi
    rcases List.mem_append.mp hi with hi | hi
    · exact q.forwarded i (same.2 ▸ hi)
    · exact List.mem_singleton.mp hi ▸ others

theorem quiet_after (r : Request Payload) (early : r.forwardAt = 0) (count : Nat) :
    ∃ s : Scheduler Payload, Reachable step (initial 0) s ∧ Quiet s (count % wordSize) := by
  induction count with
  | zero =>
    have starts : step (initial 0 : Scheduler Payload) (.start true) =
      some ((initial 0).start true) := rfl
    refine ⟨_, (Reachable.refl _).next starts, ?_⟩
    constructor <;> simp [start, initial]
  | succ count ih =>
    obtain ⟨s, reached, quiet⟩ := ih
    obtain ⟨t, further, next⟩ := quiet.cycle r early
    exact ⟨t, reached.trans further, by simpa using next⟩

/-- The request accepted second draws the smaller number and is forwarded first. -/
theorem Quiet.overtaken (q : Quiet s (wordSize - 1)) (r : Request Payload)
    (due : r.forwardAt = 1) : ∃ t, Reachable step s t ∧ ¬KeepsOrder t := by
  let first := Quiet.item (wordSize - 1) s.nextScheduleId r
  let second := Quiet.item 0 ((s.nextScheduleId + 1) % wordSize) r
  have unlocked : s.worker.holdsLock = false := by
    rcases q.ready with hw | hw <;> simp [hw, Worker.holdsLock]
  let u := (s.schedule r).schedule r
  have accept₁ : step s (.schedule r) = some (s.schedule r) := step_schedule.mpr ⟨unlocked, rfl⟩
  have accept₂ : step (s.schedule r) (.schedule r) = some u :=
    step_schedule.mpr ⟨worker_schedule (s := s) ▸ unlocked, rfl⟩
  have heap : u.heap = some ⟨second, .node first .nil .nil⟩ := by
    simp [u, schedule, q.accepting, q.nextOrder, q.heap, TreeHeap.push, TreeHeap.meld,
      HeapTree.link, earlierDeadline, first, second, Quiet.item]
  have ready : u.worker = .acquire ∨ u.worker = .relock := by
    simpa [u, worker_schedule] using q.ready
  have running : u.stopRequested = false := by
    simp [u, schedule, q.accepting, q.running]
  have accepted : u.accepted = s.accepted ++ [first, second] := by
    simp [u, schedule, q.accepting, q.nextOrder, first, second, Quiet.item]
  have forwarded : u.forwarded = s.forwarded := by simp [u, schedule, q.accepting]
  have extracts₁ : TreeHeap.extract earlierDeadline u.heap = some (second, some ⟨first, .nil⟩) := by
    simp [heap, TreeHeap.extract, TreeHeap.pairs]
  have attempt₁ := run_attempt 1 ready running extracts₁ due.le
  have extracts₂ : TreeHeap.extract earlierDeadline (some ⟨first, .nil⟩) = some (first, none) := rfl
  have attempt₂ := run_attempt (s := { u with
    heap := some ⟨first, .nil⟩
    worker := .relock
    now := 1
    observed := some second
    forwardedEvents := (u.forwardedEvents + 1) % wordSize
    forwarded := u.forwarded ++ [second]
    calls := u.calls ++ [second.call .returned] }) 1 (.inr rfl) running extracts₂ due.le
  refine ⟨_, (((Reachable.refl s).next accept₁).next accept₂).trans
    (Reachable.trans ⟨_, attempt₁⟩ ⟨_, attempt₂⟩), ?_⟩
  intro keeps
  have order := keeps.inOrder 1
  have none₁ : (s.accepted.filter fun i => i.forwardAt = 1) = [] :=
    List.filter_eq_nil_iff.mpr fun i hi => by simpa using q.accepted i hi
  have none₂ : (s.forwarded.filter fun i => i.forwardAt = 1) = [] :=
    List.filter_eq_nil_iff.mpr fun i hi => by simpa using q.forwarded i hi
  have reversed : [second, first].Sublist [first, second] := by
    simpa [accepted, forwarded, none₁, none₂, first, second, Quiet.item, due] using order
  have same := reversed.eq_of_length rfl
  simp [first, second, Quiet.item] at same

/-- After 2^64 requests a number is drawn again. -/
theorem not_always_keepsOrder :
    ¬∀ s : Scheduler Unit, Reachable step (initial 0) s → KeepsOrder s := by
  intro always
  obtain ⟨s, reached, quiet⟩ := quiet_after ⟨none, 0, (), 0, 0⟩ rfl (wordSize - 1)
  obtain ⟨t, further, overtaken⟩ := Quiet.overtaken quiet ⟨none, 0, (), 1, 0⟩ rfl
  exact overtaken (always t (reached.trans further))

end Scheduler

end Yellowstone
