import Yellowstone.Scheduling.Scheduler

/-!
# The ledger of a scheduler

A ledger knows only where each accepted request is: pending in the heap, in flight,
forwarded or failed. Every step of the scheduler is a step of the ledger, so what the
ledger conserves the scheduler conserves, at every program point of `m_run`.
-/

set_option autoImplicit false

namespace Yellowstone

open Machine

structure Ledger (Payload : Type) where
  pending : TreeHeap (ScheduledItem Payload)
  inFlight : Option (ScheduledItem Payload)
  forwarded : List (ScheduledItem Payload)
  failed : List (ScheduledItem Payload)
  accepted : List (ScheduledItem Payload)
  requests : List (ScheduleId × Request Payload)
  notifying : List ScheduleId
  returned : List ScheduleId
  calls : List (PublishCall Payload)
  nextInsertionOrder : Nat
  nextScheduleId : ScheduleId
  scheduledEvents : Nat
  forwardedEvents : Nat
  failedEvents : Nat

namespace Scheduler
variable {Payload : Type}

def ledger (s : Scheduler Payload) : Ledger Payload where
  pending := s.heap
  inFlight := s.worker.inFlight
  forwarded := s.forwarded
  failed := s.failed
  accepted := s.accepted
  requests := s.requests
  notifying := s.notifying
  returned := s.returned
  calls := s.calls
  nextInsertionOrder := s.nextInsertionOrder
  nextScheduleId := s.nextScheduleId
  scheduledEvents := s.scheduledEvents
  forwardedEvents := s.forwardedEvents
  failedEvents := s.failedEvents

end Scheduler

namespace Ledger
variable {Payload : Type}

def item (l : Ledger Payload) (r : Request Payload) : ScheduledItem Payload :=
  ⟨r.forwardAt, l.nextInsertionOrder, l.nextScheduleId, r.subscriberId, r.eventId, r.superstep,
    r.payload⟩

def accept (l : Ledger Payload) (r : Request Payload) : Ledger Payload :=
  { l with
    nextScheduleId := (l.nextScheduleId + 1) % wordSize
    nextInsertionOrder := (l.nextInsertionOrder + 1) % wordSize
    pending := TreeHeap.push earlierDeadline l.pending (l.item r)
    scheduledEvents := (l.scheduledEvents + 1) % wordSize
    notifying := l.nextScheduleId :: l.notifying
    requests := l.requests ++ [(l.nextScheduleId, r)]
    accepted := l.accepted ++ [l.item r] }

def called (l : Ledger Payload) (due : ScheduledItem Payload) (outcome : PublishOutcome) :
    Ledger Payload :=
  { l with calls := l.calls ++ [due.call outcome] }

/-- All that a step can do to the ledger. -/
inductive Entry : Ledger Payload → Ledger Payload → Prop
  | none (l : Ledger Payload) : Entry l l
  | accept (l : Ledger Payload) (r : Request Payload) : Entry l (l.accept r)
  | returned (l : Ledger Payload) (id : ScheduleId) : id ∈ l.notifying →
    Entry l { l with notifying := l.notifying.erase id, returned := l.returned ++ [id] }
  | extract (l : Ledger Payload) (due : ScheduledItem Payload)
    (rest : TreeHeap (ScheduledItem Payload)) : l.inFlight = Option.none →
    TreeHeap.extract earlierDeadline l.pending = some (due, rest) →
    Entry l { l with pending := rest, inFlight := some due }
  | overflow (l : Ledger Payload) (due : ScheduledItem Payload) : l.inFlight = some due →
    Entry l (l.called due .overflow)
  | requeue (l : Ledger Payload) (due : ScheduledItem Payload) : l.inFlight = some due →
    Entry l { l with
      pending := TreeHeap.push earlierDeadline l.pending due
      inFlight := Option.none }
  | forward (l : Ledger Payload) (due : ScheduledItem Payload) : l.inFlight = some due →
    Entry l { l.called due .returned with
      forwardedEvents := (l.forwardedEvents + 1) % wordSize
      forwarded := l.forwarded ++ [due]
      inFlight := Option.none }
  | fail (l : Ledger Payload) (due : ScheduledItem Payload) : l.inFlight = some due →
    Entry l { l.called due .failed with
      failedEvents := (l.failedEvents + 1) % wordSize
      failed := l.failed ++ [due]
      inFlight := Option.none }

end Ledger

namespace Scheduler
variable {Payload : Type}

theorem inFlight_woken (w : Worker Payload) : w.woken.inFlight = w.inFlight := by
  cases w <;> rfl

theorem Moves.inFlight {s : Scheduler Payload} {w w' : Worker Payload}
    {o : Option (ScheduledItem Payload)} (h : Moves s w w' o) :
    w.inFlight = none ∧ w'.inFlight = none := by
  cases h <;> exact ⟨rfl, rfl⟩

theorem step_entry {s s' : Scheduler Payload} {a : SchedulerAction Payload} (inv : NoThread s)
    (h : step s a = some s') : s.ledger.Entry s'.ledger := by
  have quiet : s'.ledger = s.ledger → s.ledger.Entry s'.ledger := fun he => he ▸ .none _
  cases a with
  | schedule r =>
    obtain ⟨-, rfl⟩ := step_schedule.mp h
    unfold schedule
    split
    · exact .accept s.ledger r
    · exact .none _
  | notify id =>
    obtain ⟨hid, rfl⟩ := step_notify.mp h
    simpa [ledger, inFlight_woken] using Ledger.Entry.returned s.ledger id hid
  | start created =>
    obtain ⟨-, -, rfl⟩ := step_start.mp h
    apply quiet
    unfold start
    split
    · rfl
    · have gone : s.worker = .absent := inv (.inl (Bool.of_not_eq_true ‹_›))
      split <;> simp [ledger, gone, Worker.inFlight]
  | stop =>
    obtain ⟨-, -, rfl⟩ := step_stop.mp h
    exact .none _
  | requestStop =>
    obtain ⟨-, ⟨-, rfl⟩ | ⟨-, rfl⟩⟩ := step_requestStop.mp h
    · exact .none _
    · exact .none _
  | notifyAll =>
    obtain ⟨-, rfl⟩ := step_notifyAll.mp h
    exact quiet (by simp [ledger, inFlight_woken])
  | join =>
    obtain ⟨-, hw, rfl⟩ := step_join.mp h
    exact quiet (by simp [ledger, hw, Worker.inFlight])
  | stopReturn =>
    obtain ⟨-, rfl⟩ := step_stopReturn.mp h
    exact .none _
  | setClock now => cases h; exact .none _
  | wake =>
    obtain ⟨-, rfl⟩ := step_wake.mp h
    exact quiet (by simp [ledger, inFlight_woken])
  | work timeout =>
    rcases workStep_cases h with ⟨w, o, move, rfl⟩ | ⟨d, o, c, due, heap, hw, -, he, rfl⟩ |
      ⟨due, hw, rfl⟩
    · exact quiet (by simp [ledger, move.inFlight])
    · exact .extract s.ledger due heap (by simp [ledger, hw, Worker.inFlight]) he
    · exact .requeue s.ledger due (by simp [ledger, hw, Worker.inFlight])
  | settle outcome =>
    obtain ⟨due, hw, rfl⟩ := step_settle.mp h
    have flight : s.ledger.inFlight = some due := by simp [ledger, hw, Worker.inFlight]
    cases outcome with
    | returned => exact .forward s.ledger due flight
    | overflow =>
      have entry := Ledger.Entry.overflow s.ledger due flight
      simpa [ledger, settle, Ledger.called, hw, Worker.inFlight] using entry
    | failed => exact .fail s.ledger due flight

end Scheduler

/-! ## What the ledger conserves -/

namespace Ledger
variable {Payload : Type} {l l' : Ledger Payload}

def request (i : ScheduledItem Payload) : Request Payload :=
  ⟨i.subscriberId, i.eventId, i.payload, i.forwardAt, i.superstep⟩

/-- Numbers drawn from a counter that starts at `first`. -/
def drawn (first n : Nat) : List Nat := (List.range n).map fun k => (k + first) % wordSize

theorem drawn_succ (first n : Nat) :
    drawn first (n + 1) = drawn first n ++ [(n + first) % wordSize] := by
  simp [drawn, List.range_succ]

structure Balanced (l : Ledger Payload) : Prop where
  conserved : l.accepted.Perm
    (l.pending.values ++ (l.inFlight.toList ++ (l.forwarded ++ l.failed)))
  orders : l.accepted.map ScheduledItem.insertionOrder = drawn 0 l.accepted.length
  ids : l.accepted.map ScheduledItem.scheduleId = drawn 1 l.accepted.length
  nextOrder : l.nextInsertionOrder = l.accepted.length % wordSize
  nextId : l.nextScheduleId = (l.accepted.length + 1) % wordSize
  callers : (l.returned ++ l.notifying).Perm (l.accepted.map ScheduledItem.scheduleId)
  recorded : l.requests = l.accepted.map fun i => (i.scheduleId, request i)
  answered : (l.calls.filter fun c => c.outcome = .returned) =
    l.forwarded.map fun i => i.call .returned
  scheduledCount : l.scheduledEvents = l.accepted.length % wordSize
  forwardedCount : l.forwardedEvents = l.forwarded.length % wordSize
  failedCount : l.failedEvents = l.failed.length % wordSize

theorem balanced_accept (h : Balanced l) (r : Request Payload) : Balanced (l.accept r) := by
  have length : (l.accept r).accepted.length = l.accepted.length + 1 := by simp [accept]
  refine ⟨?_, ?_, ?_, ?_, ?_, ?_, ?_, h.answered, ?_, h.forwardedCount, h.failedCount⟩
  · have pushed := TreeHeap.values_push earlierDeadline l.pending (l.item r)
    calc
      (l.accepted ++ [l.item r]).Perm (l.item r :: l.accepted) := List.perm_append_comm
      List.Perm _ ((l.item r :: l.pending.values) ++
          (l.inFlight.toList ++ (l.forwarded ++ l.failed))) := h.conserved.cons _
      List.Perm _ ((l.accept r).pending.values ++
          (l.inFlight.toList ++ (l.forwarded ++ l.failed))) := pushed.symm.append_right _
  · rw [length, drawn_succ, ← h.orders, Nat.add_zero, ← h.nextOrder]
    simp [accept, item]
  · rw [length, drawn_succ, ← h.ids, ← h.nextId]
    simp [accept, item]
  · rw [length]
    simp [accept, h.nextOrder]
  · rw [length]
    simp [accept, h.nextId]
  · have : (l.accept r).accepted.map ScheduledItem.scheduleId =
        l.accepted.map ScheduledItem.scheduleId ++ [l.nextScheduleId] := by simp [accept, item]
    rw [this]
    exact (List.perm_middle.trans (h.callers.cons _)).trans (List.perm_append_singleton _ _).symm
  · simp [accept, h.recorded, item, request]
  · rw [length]
    simp [accept, h.scheduledCount]

theorem balanced_returned (h : Balanced l) {id : ScheduleId} (hid : id ∈ l.notifying) :
    Balanced { l with notifying := l.notifying.erase id, returned := l.returned ++ [id] } := by
  refine { h with callers := ?_ }
  have moved : ([id] ++ l.notifying.erase id).Perm l.notifying := (List.perm_cons_erase hid).symm
  simpa using (moved.append_left l.returned).trans h.callers

theorem balanced_extract (h : Balanced l) {due : ScheduledItem Payload}
    {rest : TreeHeap (ScheduledItem Payload)} (free : l.inFlight = none)
    (he : TreeHeap.extract earlierDeadline l.pending = some (due, rest)) :
    Balanced { l with pending := rest, inFlight := some due } := by
  refine { h with conserved := ?_ }
  have extracted := TreeHeap.values_extract earlierDeadline he
  have conserved := h.conserved
  rw [free] at conserved
  calc
    l.accepted.Perm (l.pending.values ++ (l.forwarded ++ l.failed)) := conserved
    List.Perm _ ((due :: rest.values) ++ (l.forwarded ++ l.failed)) := extracted.append_right _
    List.Perm _ (rest.values ++ ([due] ++ (l.forwarded ++ l.failed))) := List.perm_middle.symm

theorem balanced_overflow (h : Balanced l) (due : ScheduledItem Payload) :
    Balanced (l.called due .overflow) :=
  { h with answered := by simpa [called, ScheduledItem.call] using h.answered }

theorem balanced_requeue (h : Balanced l) {due : ScheduledItem Payload}
    (flight : l.inFlight = some due) :
    Balanced { l with
      pending := TreeHeap.push earlierDeadline l.pending due, inFlight := none } := by
  refine { h with conserved := ?_ }
  have pushed := TreeHeap.values_push earlierDeadline l.pending due
  have conserved := h.conserved
  rw [flight] at conserved
  calc
    l.accepted.Perm (l.pending.values ++ ([due] ++ (l.forwarded ++ l.failed))) := conserved
    List.Perm _ ((due :: l.pending.values) ++ (l.forwarded ++ l.failed)) := List.perm_middle
    List.Perm _ ((TreeHeap.push earlierDeadline l.pending due).values ++
        (l.forwarded ++ l.failed)) := pushed.symm.append_right _

theorem balanced_forward (h : Balanced l) {due : ScheduledItem Payload}
    (flight : l.inFlight = some due) : Balanced { l.called due .returned with
      forwardedEvents := (l.forwardedEvents + 1) % wordSize
      forwarded := l.forwarded ++ [due]
      inFlight := none } := by
  have conserved := h.conserved
  rw [flight] at conserved
  refine { h with conserved := ?_, answered := ?_, forwardedCount := ?_ }
  · refine conserved.trans (List.Perm.append_left _ ?_)
    simpa [called] using List.perm_middle.symm
  · simp [called, ScheduledItem.call, h.answered]
  · simp [h.forwardedCount]

theorem balanced_fail (h : Balanced l) {due : ScheduledItem Payload}
    (flight : l.inFlight = some due) : Balanced { l.called due .failed with
      failedEvents := (l.failedEvents + 1) % wordSize
      failed := l.failed ++ [due]
      inFlight := none } := by
  have conserved := h.conserved
  rw [flight] at conserved
  refine { h with conserved := ?_, answered := ?_, failedCount := ?_ }
  · refine conserved.trans (List.Perm.append_left _ ?_)
    simpa [called] using (List.perm_append_singleton due (l.forwarded ++ l.failed)).symm
  · simpa [called, ScheduledItem.call] using h.answered
  · simp [h.failedCount]

theorem Entry.balanced (h : l.Entry l') (inv : Balanced l) : Balanced l' := by
  cases h with
  | none => exact inv
  | accept r => exact balanced_accept inv r
  | returned id hid => exact balanced_returned inv hid
  | extract due rest free he => exact balanced_extract inv free he
  | overflow due _ => exact balanced_overflow inv due
  | requeue due flight => exact balanced_requeue inv flight
  | forward due flight => exact balanced_forward inv flight
  | fail due flight => exact balanced_fail inv flight

/-- What was accepted stays accepted, and what failed stays failed. -/
theorem Entry.remembered (h : l.Entry l') : l.accepted ⊆ l'.accepted ∧ l.failed ⊆ l'.failed := by
  cases h with
  | accept r => exact ⟨List.subset_append_left .., List.Subset.refl _⟩
  | fail due _ => exact ⟨List.Subset.refl _, List.subset_append_left ..⟩
  | _ => exact ⟨List.Subset.refl _, List.Subset.refl _⟩

end Ledger

namespace Scheduler
variable {Payload : Type} {s : Scheduler Payload} {now : TimePoint}

theorem noThread_reachable (h : Reachable step (initial now) s) : NoThread s :=
  h.invariant (fun _ => rfl) fun _ _ _ inv hstep => noThread_step inv hstep

theorem balanced_initial : (initial now : Scheduler Payload).ledger.Balanced := by
  constructor <;> simp [ledger, initial, Worker.inFlight, TreeHeap.values, Ledger.drawn, wordSize]

theorem balanced_reachable (h : Reachable step (initial now) s) : s.ledger.Balanced := by
  induction h with
  | start => exact balanced_initial
  | next r a r' reached moves inv =>
    exact (step_entry (noThread_reachable reached) moves).balanced inv

end Scheduler

end Yellowstone
