import Yellowstone.Bus.Callers
import Yellowstone.Scheduling.ScheduledBus
import Yellowstone.Scheduling.SchedulerLedger

/-!
# Whose payload the timing thread publishes

Requests have their own numbers, and only the call of the timing thread carries one. So what a
partition was given for a request changes only while the thread publishes that request.
-/

set_option autoImplicit false

namespace Yellowstone

open Machine

variable {Payload : Type}

namespace Scheduler
variable {s s' : Scheduler (Numbered Payload)}

/-- Where a step takes the items. -/
inductive Carries (s s' : Scheduler (Numbered Payload)) : Prop
  | stays : s'.heap = s.heap → s'.worker = s.worker → Carries s s'
  | moves : s'.heap = s.heap → s.worker.inFlight = none → s'.worker.inFlight = none → Carries s s'
  | extracts (due : ScheduledItem (Numbered Payload)) : s.worker.inFlight = none →
    TreeHeap.extract earlierDeadline s.heap = some (due, s'.heap) →
    s'.worker = .publishing due → Carries s s'
  | requeues (due : ScheduledItem (Numbered Payload)) : s.worker = .relockRetry due →
    s'.heap = TreeHeap.push earlierDeadline s.heap due → s'.worker = .retryTest → Carries s s'

theorem carries_woken (heap : s'.heap = s.heap) (worker : s'.worker = s.worker.woken) :
    Carries s s' := by
  cases hw : s.worker with
  | waitBlocked | timedBlocked | retryBlocked =>
    exact .moves heap (by simp [hw, Worker.inFlight])
      (by simp [worker, hw, Worker.woken, Worker.inFlight])
  | _ => exact .stays heap (by simp [worker, hw, Worker.woken])

theorem step_carries {a : SchedulerAction (Numbered Payload)} (inv : NoThread s)
    (own : a.composed = false) (h : step s a = some s') :
    s'.accepted = s.accepted ∧ s'.failed = s.failed ∧ Carries s s' := by
  cases a with
  | schedule | settle => cases own
  | notify id =>
    obtain ⟨-, rfl⟩ := step_notify.mp h
    exact ⟨rfl, rfl, carries_woken rfl rfl⟩
  | start created =>
    obtain ⟨-, -, rfl⟩ := step_start.mp h
    unfold start
    split
    · exact ⟨rfl, rfl, .stays rfl rfl⟩
    · have gone : s.worker = .absent := inv (.inl (Bool.of_not_eq_true ‹_›))
      split
      · exact ⟨rfl, rfl, .moves rfl (by simp [gone, Worker.inFlight]) rfl⟩
      · exact ⟨rfl, rfl, .stays rfl rfl⟩
  | stop =>
    obtain ⟨-, -, rfl⟩ := step_stop.mp h
    exact ⟨rfl, rfl, .stays rfl rfl⟩
  | requestStop =>
    obtain ⟨-, ⟨-, rfl⟩ | ⟨-, rfl⟩⟩ := step_requestStop.mp h
    · exact ⟨rfl, rfl, .stays rfl rfl⟩
    · exact ⟨rfl, rfl, .stays rfl rfl⟩
  | notifyAll =>
    obtain ⟨-, rfl⟩ := step_notifyAll.mp h
    exact ⟨rfl, rfl, carries_woken rfl rfl⟩
  | join =>
    obtain ⟨-, hw, rfl⟩ := step_join.mp h
    exact ⟨rfl, rfl, .moves rfl (by simp [hw, Worker.inFlight]) rfl⟩
  | stopReturn =>
    obtain ⟨-, rfl⟩ := step_stopReturn.mp h
    exact ⟨rfl, rfl, .stays rfl rfl⟩
  | setClock now =>
    cases h
    exact ⟨rfl, rfl, .stays rfl rfl⟩
  | wake =>
    obtain ⟨-, rfl⟩ := step_wake.mp h
    exact ⟨rfl, rfl, carries_woken rfl rfl⟩
  | work timeout =>
    rcases workStep_cases h with ⟨w, o, move, rfl⟩ | ⟨d, o, c, due, heap, hw, -, extracted, rfl⟩ |
      ⟨due, hw, rfl⟩
    · exact ⟨rfl, rfl, .moves rfl move.inFlight.1 move.inFlight.2⟩
    · exact ⟨rfl, rfl, .extracts due (by simp [hw, Worker.inFlight]) extracted rfl⟩
    · exact ⟨rfl, rfl, .requeues due hw rfl rfl⟩

theorem Carries.publishing {due : ScheduledItem (Numbered Payload)} (carries : Carries s s')
    (worker : s.worker = .publishing due) : s'.worker = .publishing due := by
  cases carries with
  | stays _ same => exact same.trans worker
  | moves _ none _ | extracts _ none _ _ => simp [worker, Worker.inFlight] at none
  | requeues _ refused _ _ => cases worker.symm.trans refused

/-- What holds of the items in the heap, and of one that goes back into it, holds of the items
in the heap after the step, and of one that the thread has taken. -/
theorem Carries.all {p : ScheduledItem (Numbered Payload) → Prop} (carries : Carries s s')
    (heap : ∀ i ∈ s.heap.values, p i) (refused : ∀ due, s.worker = .relockRetry due → p due) :
    (∀ i ∈ s'.heap.values, p i) ∧
      ∀ due, s'.worker.inFlight = some due → p due ∨ s'.worker = s.worker := by
  cases carries with
  | stays same worker => exact ⟨same ▸ heap, fun _ _ => .inr worker⟩
  | moves same _ none' =>
    refine ⟨same ▸ heap, ?_⟩
    intro due flight
    cases none'.symm.trans flight
  | extracts due none extracted worker =>
    have values := TreeHeap.values_extract earlierDeadline extracted
    constructor
    · intro i hi
      exact heap i (values.mem_iff.mpr (List.mem_cons_of_mem _ hi))
    · intro e flight
      rw [worker] at flight
      cases flight
      exact .inl (heap due (values.mem_iff.mpr List.mem_cons_self))
  | requeues due back pushed worker =>
    constructor
    · intro i hi
      rw [pushed] at hi
      rcases List.mem_cons.mp ((TreeHeap.values_push ..).mem_iff.mp hi) with rfl | hi
      · exact refused i back
      · exact heap i hi
    · intro e flight
      simp [worker, Worker.inFlight] at flight

end Scheduler

namespace ScheduledBus
variable {config : BusConfig Payload} {s s' : ScheduledBus Payload} {now : TimePoint}

/-- How often a partition was given the payload of a request. -/
def given (s : ScheduledBus Payload) (t : Token) (number : Nat) : Nat :=
  s.bus.traffic.appliedBy t number

/-- Only the timing thread publishes a numbered request, and only the one it has taken. -/
structure Attributed (s : ScheduledBus Payload) : Prop where
  distinct : (s.scheduler.accepted.map ScheduledItem.number).Nodup
  issued : ∀ i ∈ s.scheduler.accepted, i.number < s.requested
  unused : ∀ t number, s.requested ≤ number → s.given t number = 0
  publishing : s.attempt ≠ .idle → ∃ due, s.scheduler.worker = .publishing due
  foreign : s.attempt ≠ .calling → ∀ f, s.bus.publishing = some f → f.call.caller = none
  calling : s.attempt = .calling → ∃ due f, s.scheduler.worker = .publishing due ∧
    s.bus.publishing = some f ∧ f.call.caller = some due.number

/-- The number in flight is no other's. -/
theorem flight_number_ne (balanced : s.scheduler.ledger.Balanced)
    (distinct : (s.scheduler.accepted.map ScheduledItem.number).Nodup)
    {due : ScheduledItem (Numbered Payload)} (flight : s.scheduler.worker.inFlight = some due)
    {i : ScheduledItem (Numbered Payload)}
    (hi : i ∈ s.scheduler.heap.values ∨ i ∈ s.scheduler.failed) : i.number ≠ due.number := by
  have conserved := balanced.conserved
  rw [show s.scheduler.ledger.inFlight = some due from flight] at conserved
  have first : s.scheduler.accepted.Perm (due ::
      (s.scheduler.heap.values ++ (s.scheduler.forwarded ++ s.scheduler.failed))) :=
    conserved.trans List.perm_middle
  have numbers := (first.map ScheduledItem.number).nodup_iff.mp distinct
  rw [List.map_cons] at numbers
  intro same
  apply (List.nodup_cons.mp numbers).1
  rw [← same]
  apply List.mem_map_of_mem
  rcases hi with hi | hi <;> simp [hi]

theorem accepted_of_flight (balanced : s.scheduler.ledger.Balanced)
    {due : ScheduledItem (Numbered Payload)} (flight : s.scheduler.worker.inFlight = some due) :
    due ∈ s.scheduler.accepted := by
  have conserved := balanced.conserved
  rw [show s.scheduler.ledger.inFlight = some due from flight] at conserved
  exact conserved.mem_iff.mpr (by simp)

/-- A thread that is not publishing has not begun an attempt. -/
theorem Attributed.idle (inv : Attributed s)
    (absent : ∀ due, s.scheduler.worker ≠ .publishing due) : s.attempt = .idle := by
  by_contra trying
  obtain ⟨due, worker⟩ := inv.publishing trying
  exact absent due worker

theorem attributed_schedule (inv : Attributed s) (r : Request Payload) : Attributed { s with
    scheduler := s.scheduler.schedule (r.numbered s.requested), requested := s.requested + 1 } := by
  have unused : ∀ t number, s.requested + 1 ≤ number → s.given t number = 0 := by
    intro t number later
    exact inv.unused t number (by omega)
  unfold Scheduler.schedule
  split
  · have fresh : s.requested ∉ s.scheduler.accepted.map ScheduledItem.number := by
      intro used
      obtain ⟨i, hi, same⟩ := List.mem_map.mp used
      have := inv.issued i hi
      omega
    refine { inv with distinct := ?_, issued := ?_, unused }
    · rw [List.map_append, List.nodup_append_comm]
      exact List.nodup_cons.mpr ⟨fresh, inv.distinct⟩
    · intro i hi
      rcases List.mem_append.mp hi with hi | hi
      · exact (inv.issued i hi).trans (Nat.lt_succ_self _)
      · cases List.mem_singleton.mp hi
        exact Nat.lt_succ_self _
  · refine { inv with issued := ?_, unused }
    intro i hi
    exact (inv.issued i hi).trans (Nat.lt_succ_self _)

/-- A request that `schedule` puts into the heap has a new number. -/
theorem pending_schedule (s : ScheduledBus Payload) (r : Request Payload)
    {i : ScheduledItem (Numbered Payload)}
    (hi : i ∈ (s.scheduler.schedule (r.numbered s.requested)).heap.values) :
    i.number = s.requested ∨ i ∈ s.scheduler.heap.values := by
  unfold Scheduler.schedule at hi
  split at hi
  · rcases List.mem_cons.mp ((TreeHeap.values_push ..).mem_iff.mp hi) with rfl | hi
    · exact .inl rfl
    · exact .inr hi
  · exact .inr hi

theorem attributed_scheduler (inv : Attributed s) {scheduler : Scheduler (Numbered Payload)}
    (accepted : scheduler.accepted = s.scheduler.accepted)
    (carries : s.scheduler.Carries scheduler) : Attributed { s with scheduler } := by
  have distinct := inv.distinct
  have issued := inv.issued
  rw [← accepted] at distinct issued
  refine ⟨distinct, issued, inv.unused, ?_, inv.foreign, ?_⟩
  · intro trying
    obtain ⟨due, worker⟩ := inv.publishing trying
    exact ⟨due, carries.publishing worker⟩
  · intro calling
    obtain ⟨due, f, worker, hf, caller⟩ := inv.calling calling
    exact ⟨due, f, carries.publishing worker, hf, caller⟩

theorem attributed_settle (inv : Attributed s) {outcome : PublishOutcome}
    (ended : s.attempt = .ended outcome) (due : ScheduledItem (Numbered Payload)) :
    Attributed { s with scheduler := s.scheduler.settle due outcome, attempt := .idle } := by
  have accepted : (s.scheduler.settle due outcome).accepted = s.scheduler.accepted := by
    cases outcome <;> rfl
  refine ⟨accepted ▸ inv.distinct, accepted ▸ inv.issued, inv.unused, ?_, ?_, ?_⟩
  · intro trying
    exact absurd rfl trying
  · intro _
    exact inv.foreign (by simp [ended])
  · intro calling
    cases calling

/-- A call begins, or finds no subscriber. -/
theorem publish_cases (bus : EventBus Payload) (r : PublishRequest Payload) :
    bus.publish r = bus ∨ ∃ targets, bus.publish r = bus.begin r targets := by
  unfold EventBus.publish
  split
  · exact .inr ⟨_, rfl⟩
  · split
    · exact .inl rfl
    · exact .inr ⟨_, rfl⟩

theorem attributed_attempt (inv : Attributed s) {due : ScheduledItem (Numbered Payload)}
    (worker : s.scheduler.worker = .publishing due) (free : s.bus.publishing = none) :
    let bus := s.bus.publish due.publishRequest
    Attributed { s with
      bus, attempt := if bus.publishing.isSome then .calling else .ended .failed } := by
  rcases publish_cases s.bus due.publishRequest with same | ⟨targets, same⟩ <;> rw [same]
  · simp only [free, Option.isSome_none, Bool.false_eq_true, if_false]
    refine { inv with publishing := fun _ => ⟨due, worker⟩, foreign := ?_, calling := ?_ }
    · intro _ f hf
      cases free.symm.trans hf
    · intro calling
      cases calling
  · have tried : (s.bus.begin due.publishRequest targets).publishing.isSome = true := rfl
    simp only [tried, if_true]
    refine { inv with publishing := fun _ => ⟨due, worker⟩, foreign := ?_, calling := ?_ }
    · intro other
      exact absurd rfl other
    · intro _
      exact ⟨due, _, worker, rfl, rfl⟩

/-! ## The bus moves -/

section Bus
variable {bus : EventBus Payload} {a : BusAction Payload}

/-- Without a call of the timing thread nothing is given to anyone. -/
theorem Attributed.given_le (inv : Attributed s) (waiting : s.attempt ≠ .calling)
    (effect : EventBus.Effect config s.bus a bus.traffic) (t : Token) (number : Nat) :
    bus.traffic.appliedBy t number ≤ s.given t number := by
  cases hf : s.bus.publishing with
  | none => exact EventBus.effect_idle effect hf t number
  | some f =>
    have nobody := inv.foreign waiting f hf
    exact ((EventBus.effect_adds effect hf t).appliedBy_other (by simp [nobody])).le

/-- Only the request in flight is given to anyone. -/
theorem Attributed.given_eq (inv : Attributed s) (calling : s.attempt = .calling)
    {due : ScheduledItem (Numbered Payload)} (worker : s.scheduler.worker = .publishing due)
    (effect : EventBus.Effect config s.bus a bus.traffic) (t : Token) {number : Nat}
    (other : number ≠ due.number) : bus.traffic.appliedBy t number = s.given t number := by
  obtain ⟨due', f, worker', hf, caller⟩ := inv.calling calling
  cases worker.symm.trans worker'
  exact (EventBus.effect_adds effect hf t).appliedBy_other (by simp [caller, other.symm])

theorem attributed_bus (inv : Attributed s) (balanced : s.scheduler.ledger.Balanced)
    (own : a.composed = false) (effect : EventBus.Effect config s.bus a bus.traffic) :
    Attributed (s.moved bus) := by
  by_cases calling : s.attempt = .calling
  · obtain ⟨due, f, worker, hf, caller⟩ := inv.calling calling
    have flight : s.scheduler.worker.inFlight = some due := by rw [worker]; rfl
    have unused : ∀ t number, s.requested ≤ number → bus.traffic.appliedBy t number = 0 := by
      intro t number later
      have := inv.issued due (accepted_of_flight balanced flight)
      exact (inv.given_eq calling worker effect t (by omega)).trans (inv.unused t number later)
    rcases moved_cases s bus with ⟨-, none, same⟩ | ⟨going, same⟩ <;> rw [same]
    · refine ⟨inv.distinct, inv.issued, unused, fun _ => ⟨due, worker⟩, ?_, ?_⟩
      · intro _ g hg
        cases none.symm.trans hg
      · intro calling'
        cases calling'
    · refine ⟨inv.distinct, inv.issued, unused, fun _ => ⟨due, worker⟩, ?_, ?_⟩
      · intro other
        exact absurd calling other
      · intro _
        rcases EventBus.effect_follows effect hf with ⟨f', hf', caller', -⟩ | ⟨none, -⟩
        · exact ⟨due, f', worker, hf', caller'.trans caller⟩
        · exact absurd none (going calling)
  · rcases moved_cases s bus with ⟨calling', -⟩ | ⟨-, same⟩
    · exact absurd calling' calling
    rw [same]
    refine ⟨inv.distinct, inv.issued, ?_, inv.publishing, ?_, fun h => absurd h calling⟩
    · intro t number later
      exact Nat.le_zero.mp ((inv.given_le calling effect t number).trans_eq
        (inv.unused t number later))
    · intro _ g hg
      cases hf : s.bus.publishing with
      | none =>
        obtain ⟨r, rfl, caller⟩ := EventBus.effect_begins effect hf hg
        cases hr : r.caller with
        | none => exact caller.trans hr
        | some k => simp [BusAction.composed, hr] at own
      | some f =>
        rcases EventBus.effect_follows effect hf with ⟨g', hg', caller, -⟩ | ⟨none, -⟩
        · cases hg'.symm.trans hg
          exact caller.trans (inv.foreign calling f hf)
        · cases none.symm.trans hg

end Bus

end ScheduledBus

end Yellowstone
