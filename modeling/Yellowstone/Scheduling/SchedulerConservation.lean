import Mathlib.Data.List.Nodup
import Mathlib.Data.Nat.ModEq
import Yellowstone.Scheduling.SchedulerLedger

/-!
# Nothing is lost and nothing is duplicated

Below 2^64 requests the numbers drawn for the schedule ids do not repeat. A permutation
between the accepted requests and the four places then puts every id in exactly one of them.
-/

set_option autoImplicit false

namespace Yellowstone

open Machine

theorem drawn_nodup {first n : Nat} (few : n ≤ wordSize) : (Ledger.drawn first n).Nodup := by
  refine List.Nodup.map_on ?_ List.nodup_range
  intro i hi j hj same
  have hi := List.mem_range.mp hi
  have hj := List.mem_range.mp hj
  have congruent : Nat.ModEq wordSize i j := Nat.ModEq.add_right_cancel' first same
  exact congruent.eq_of_lt_of_lt (by omega) (by omega)

section Keyed
variable {α β : Type} [DecidableEq β] {l : List α} {key : α → β}

theorem filter_key_of_mem (distinct : (l.map key).Nodup) {i : α} (hi : i ∈ l) :
    l.filter (fun j => key j = key i) = [i] := by
  induction l with
  | nil => cases hi
  | cons a l ih =>
    obtain ⟨fresh, distinct⟩ := List.nodup_cons.mp distinct
    rcases List.mem_cons.mp hi with rfl | hi
    · have others : l.filter (fun j => key j = key i) = [] := by
        refine List.filter_eq_nil_iff.mpr fun j hj same => fresh ?_
        exact of_decide_eq_true same ▸ List.mem_map_of_mem hj
      simp [others]
    · have differs : key a ≠ key i := fun same => fresh (same ▸ List.mem_map_of_mem hi)
      simp [differs, ih distinct hi]

theorem filter_key_of_not_mem {k : β} (absent : k ∉ l.map key) :
    l.filter (fun j => key j = k) = [] :=
  List.filter_eq_nil_iff.mpr fun _ hj same =>
    absent (of_decide_eq_true same ▸ List.mem_map_of_mem hj)

end Keyed

namespace Scheduler
variable {Payload : Type}

/-- `pending_events`. -/
def pendingEvents (s : Scheduler Payload) : Nat := s.heap.values.length

/-- Where a schedule id can be found, one occurrence for each time it is there. -/
def places (s : Scheduler Payload) : List ScheduleId :=
  (s.heap.values ++ (s.worker.inFlight.toList ++ (s.forwarded ++ s.failed))).map
    ScheduledItem.scheduleId

/-- The calls on the bus for an id that returned normally. -/
def returnedCalls (s : Scheduler Payload) (id : ScheduleId) : List (PublishCall Payload) :=
  s.calls.filter fun c => c.outcome = .returned ∧ c.scheduleId = id

def Request.call (id : ScheduleId) (r : Request Payload) : PublishCall Payload :=
  ⟨id, r.subscriberId, r.eventId, r.payload, r.superstep, .returned⟩

structure Conserves (s : Scheduler Payload) : Prop where
  onePlace : ∀ id ∈ s.returned, s.places.count id = 1
  counters : s.scheduledEvents = s.pendingEvents + s.worker.inFlight.toList.length +
    s.forwardedEvents + s.failedEvents
  atRest : s.running = false ∨ s.lifecycle = .joined → s.worker.inFlight = none
  returnedOnce : s.returned.Nodup
  requested : ∀ id ∈ s.returned, ∃ r, (id, r) ∈ s.requests
  answered : ∀ id r, (id, r) ∈ s.requests → s.returnedCalls id =
    if id ∈ s.forwarded.map ScheduledItem.scheduleId then [Request.call id r] else []

section Balanced
variable {s : Scheduler Payload} (balanced : s.ledger.Balanced)
include balanced

theorem places_perm : s.places.Perm (s.accepted.map ScheduledItem.scheduleId) :=
  (balanced.conserved.map ScheduledItem.scheduleId).symm

variable (few : s.accepted.length < wordSize)
include few

theorem ids_nodup : (s.accepted.map ScheduledItem.scheduleId).Nodup := by
  rw [show s.accepted.map ScheduledItem.scheduleId = _ from balanced.ids]
  exact drawn_nodup few.le

theorem places_nodup : s.places.Nodup :=
  (places_perm balanced).nodup_iff.mpr (ids_nodup balanced few)

theorem count_places {id : ScheduleId} (hid : id ∈ s.accepted.map ScheduledItem.scheduleId) :
    s.places.count id = 1 :=
  List.count_eq_one_of_mem (places_nodup balanced few) ((places_perm balanced).mem_iff.mpr hid)

theorem returned_nodup : s.returned.Nodup :=
  ((balanced.callers.nodup_iff.mpr (ids_nodup balanced few)).sublist
    (List.sublist_append_left s.returned s.notifying))

theorem counters_add_up : s.scheduledEvents = s.pendingEvents +
    s.worker.inFlight.toList.length + s.forwardedEvents + s.failedEvents := by
  have total : s.accepted.length = s.pendingEvents + (s.worker.inFlight.toList.length +
      (s.forwarded.length + s.failed.length)) := by
    have conserved : s.accepted.Perm
      (s.heap.values ++ (s.worker.inFlight.toList ++ (s.forwarded ++ s.failed))) :=
        balanced.conserved
    simpa [pendingEvents] using conserved.length_eq
  have scheduled : s.scheduledEvents = s.accepted.length % wordSize := balanced.scheduledCount
  have forwarded : s.forwardedEvents = s.forwarded.length % wordSize := balanced.forwardedCount
  have failed : s.failedEvents = s.failed.length % wordSize := balanced.failedCount
  rw [Nat.mod_eq_of_lt (by omega)] at scheduled forwarded failed
  omega

omit few in
theorem returnedCalls_eq (id : ScheduleId) : s.returnedCalls id =
    (s.forwarded.filter fun i => i.scheduleId = id).map fun i => i.call .returned := by
  have answered : (s.calls.filter fun c => c.outcome = .returned) =
    s.forwarded.map fun i => i.call .returned := balanced.answered
  calc
    s.returnedCalls id =
        (s.calls.filter fun c => c.outcome = .returned).filter fun c => c.scheduleId = id := by
      simp [returnedCalls, List.filter_filter, and_comm]
    _ = (s.forwarded.map fun i => i.call .returned).filter fun c => c.scheduleId = id := by
      rw [answered]
    _ = (s.forwarded.filter fun i => i.scheduleId = id).map fun i => i.call .returned := by
      rw [List.filter_map]
      rfl

theorem returnedCalls_of_request {id : ScheduleId} {r : Request Payload}
    (hr : (id, r) ∈ s.requests) : s.returnedCalls id =
      if id ∈ s.forwarded.map ScheduledItem.scheduleId then [Request.call id r] else [] := by
  have recorded : s.requests = s.accepted.map fun i => (i.scheduleId, Ledger.request i) :=
    balanced.recorded
  rw [recorded] at hr
  obtain ⟨i, hi, same⟩ := List.mem_map.mp hr
  cases same
  rw [returnedCalls_eq balanced]
  have conserved : s.accepted.Perm
    (s.heap.values ++ (s.worker.inFlight.toList ++ (s.forwarded ++ s.failed))) :=
      balanced.conserved
  have among : ∀ j ∈ s.forwarded, j ∈ s.accepted := fun j hj =>
    conserved.mem_iff.mpr (by simp [hj])
  split
  · rename_i forwarded
    obtain ⟨j, hj, same⟩ := List.mem_map.mp forwarded
    have found : j = i :=
      List.inj_on_of_nodup_map (ids_nodup balanced few) (among j hj) hi same
    have distinct : (s.forwarded.map ScheduledItem.scheduleId).Nodup := by
      have all := places_nodup balanced few
      simp only [places, List.map_append] at all
      exact (List.nodup_append.mp (List.nodup_append.mp (List.nodup_append.mp all).2.1).2.1).1
    rw [filter_key_of_mem distinct (found ▸ hj)]
    rfl
  · rename_i absent
    rw [filter_key_of_not_mem absent]
    rfl

end Balanced

theorem inFlight_of_noThread {s : Scheduler Payload} (inv : NoThread s)
    (h : s.running = false ∨ s.lifecycle = .joined) : s.worker.inFlight = none := by
  rw [inv h]
  rfl

/-- Every reachable state of every run accounts for every request. -/
theorem reachable_conserves {now : TimePoint} {s : Scheduler Payload}
    (reached : Reachable step (initial now) s) (few : s.accepted.length < wordSize) :
    Conserves s := by
  have balanced := balanced_reachable reached
  have known : ∀ id ∈ s.returned, id ∈ s.accepted.map ScheduledItem.scheduleId := fun id hid =>
    balanced.callers.mem_iff.mp (List.mem_append_left _ hid)
  constructor
  case onePlace => exact fun id hid => count_places balanced few (known id hid)
  case counters => exact counters_add_up balanced few
  case atRest => exact inFlight_of_noThread (noThread_reachable reached)
  case returnedOnce => exact returned_nodup balanced few
  case requested =>
    intro id hid
    obtain ⟨i, hi, rfl⟩ := List.mem_map.mp (known id hid)
    have recorded : s.requests = s.accepted.map fun i => (i.scheduleId, Ledger.request i) :=
      balanced.recorded
    exact ⟨Ledger.request i, recorded ▸ List.mem_map_of_mem hi⟩
  case answered => exact fun id r hr => returnedCalls_of_request balanced few hr

/-- Two requests, one refused once, and a restart after which the other fails. -/
def sampleRun : List (SchedulerAction Nat) :=
  List.flatten [
    [.start true, .schedule ⟨none, 7, 70, 5, 0⟩, .schedule ⟨some 2, 8, 80, 3, 1⟩],
    [.notify 2, .notify 1, .work false],
    attempt 4 .overflow,
    [.work false, .work false, .work false, .wake, .work true],
    attempt 4 .returned,
    [.stop, .requestStop, .notifyAll, .work false, .work false, .join, .stopReturn],
    [.start true, .work false],
    attempt 6 .failed]

def sampleEnd : Scheduler Nat := (run step (initial 0) sampleRun).getD (initial 0)

theorem sampleEnd_conserves : Conserves sampleEnd ∧
    sampleEnd.returned = [2, 1] ∧ sampleEnd.forwardedEvents = 1 ∧ sampleEnd.failedEvents = 1 := by
  have reached : Reachable step (initial 0) sampleEnd := ⟨sampleRun, by decide +kernel⟩
  exact ⟨reachable_conserves reached (by decide +kernel), by decide +kernel⟩

end Scheduler

end Yellowstone
