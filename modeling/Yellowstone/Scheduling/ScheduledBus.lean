import Yellowstone.Bus.EventBus
import Yellowstone.Scheduling.Scheduler

/-!
# A scheduler and the bus it publishes on

`m_run` calls `publish` or `publish_one` without holding the scheduler's mutex, so a call of
it runs against everything else that happens on the bus. It ends the scheduler's attempt
with the one thing that `m_run` looks at: whether it threw, and whether that was an
`overflow_error`.

A payload carries the number of the call that scheduled it, which no step reads.
-/

set_option autoImplicit false

namespace Yellowstone

open Machine

variable {Payload : Type}

abbrev Numbered (Payload : Type) := Payload × Nat

def Request.numbered (r : Request Payload) (number : Nat) : Request (Numbered Payload) :=
  ⟨r.subscriberId, r.eventId, (r.payload, number), r.forwardAt, r.superstep⟩

def ScheduledItem.number (due : ScheduledItem (Numbered Payload)) : Nat := due.payload.2

/-- The call of `m_run` on the bus; the payload is copied. -/
def ScheduledItem.publishRequest (due : ScheduledItem (Numbered Payload)) :
    PublishRequest Payload where
  caller := some due.number
  target := due.subscriberId
  eventId := due.eventId
  payload := due.payload.1
  superstep := due.superstep

/-- Where the call of `m_run` on the bus stands. -/
inductive Attempt where
  | idle
  | calling
  | ended (outcome : PublishOutcome)
deriving DecidableEq, Repr

structure ScheduledBus (Payload : Type) where
  scheduler : Scheduler (Numbered Payload)
  bus : EventBus Payload
  attempt : Attempt
  requested : Nat

inductive ScheduledBusAction (Payload : Type) where
  | schedule (request : Request Payload)
  | scheduler (a : SchedulerAction (Numbered Payload))
  | bus (a : BusAction Payload)
  /-- The timing thread's call gets the publish mutex and draws its sequence. -/
  | attempt
  /-- It throws before that: copying the payload or the list of subscribers. -/
  | attemptThrow (e : Exn)
  | settle

/-- The handlers of `m_run`. -/
def PublishOutcome.of : Except Exn PublishResult → PublishOutcome
  | .ok _ => .returned
  | .error (.overflowError _) => .overflow
  | .error _ => .failed

/-- Requests are numbered, and attempts end as their calls do. -/
def SchedulerAction.composed : SchedulerAction (Numbered Payload) → Bool
  | .schedule _ | .settle _ => true
  | _ => false

/-- Calls with a caller are the timing thread's. -/
def BusAction.composed : BusAction Payload → Bool
  | .publish r => r.caller.isSome
  | _ => false

namespace ScheduledBus
variable (config : BusConfig Payload)

def initial (now : TimePoint) : ScheduledBus Payload where
  scheduler := Scheduler.initial now
  bus := EventBus.initial config
  attempt := .idle
  requested := 0

/-- How the last call on the bus ended. -/
def lastOutcome (bus : EventBus Payload) : PublishOutcome :=
  match bus.ended.getLast? with
  | some (_, outcome) => .of outcome
  | none => .failed

/-- The bus has moved; only one call is under way, so one that ends is the timing thread's. -/
def moved (s : ScheduledBus Payload) (bus : EventBus Payload) : ScheduledBus Payload :=
  match s.attempt, bus.publishing with
  | .calling, none => { s with bus, attempt := .ended (lastOutcome bus) }
  | _, _ => { s with bus }

def step (s : ScheduledBus Payload) : ScheduledBusAction Payload → Option (ScheduledBus Payload)
  | .schedule r =>
    (s.scheduler.step (.schedule (r.numbered s.requested))).map fun scheduler =>
      { s with scheduler, requested := s.requested + 1 }
  | .scheduler a =>
    if a.composed then none else (s.scheduler.step a).map fun scheduler => { s with scheduler }
  | .bus a => if a.composed then none else (s.bus.step config a).map s.moved
  | .attempt =>
    match s.scheduler.worker, s.attempt with
    | .publishing due, .idle =>
      (s.bus.step config (.publish due.publishRequest)).map fun bus =>
        -- a call that did not begin found no subscriber
        { s with bus, attempt := if bus.publishing.isSome then .calling else .ended .failed }
    | _, _ => none
  | .attemptThrow e =>
    match s.scheduler.worker, s.attempt with
    | .publishing _, .idle => some { s with attempt := .ended (.of (.error e)) }
    | _, _ => none
  | .settle =>
    match s.attempt with
    | .ended outcome =>
      (s.scheduler.step (.settle outcome)).map fun scheduler =>
        { s with scheduler, attempt := .idle }
    | _ => none

variable {config} {s s' : ScheduledBus Payload}

theorem step_schedule {r : Request Payload} : step config s (.schedule r) = some s' ↔
    ∃ scheduler, s.scheduler.step (.schedule (r.numbered s.requested)) = some scheduler ∧
      s' = { s with scheduler, requested := s.requested + 1 } := by
  simp [step, @eq_comm _ s']

theorem step_scheduler {a : SchedulerAction (Numbered Payload)} :
    step config s (.scheduler a) = some s' ↔ a.composed = false ∧
      ∃ scheduler, s.scheduler.step a = some scheduler ∧ s' = { s with scheduler } := by
  simp [step, @eq_comm _ s']

theorem step_bus {a : BusAction Payload} : step config s (.bus a) = some s' ↔
    a.composed = false ∧ ∃ bus, s.bus.step config a = some bus ∧ s' = s.moved bus := by
  simp [step, @eq_comm _ s']

theorem step_attempt : step config s .attempt = some s' ↔
    ∃ due, s.scheduler.worker = .publishing due ∧ s.attempt = .idle ∧
      ∃ bus, s.bus.step config (.publish due.publishRequest) = some bus ∧ s' = { s with
        bus, attempt := if bus.publishing.isSome then .calling else .ended .failed } := by
  cases hw : s.scheduler.worker <;> cases ha : s.attempt <;>
    simp [step, hw, ha, @eq_comm _ s']

theorem step_attemptThrow {e : Exn} : step config s (.attemptThrow e) = some s' ↔
    (∃ due, s.scheduler.worker = .publishing due) ∧ s.attempt = .idle ∧
      s' = { s with attempt := .ended (.of (.error e)) } := by
  cases hw : s.scheduler.worker <;> cases ha : s.attempt <;>
    simp [step, hw, ha, @eq_comm _ s']

theorem step_settle : step config s .settle = some s' ↔
    ∃ outcome, s.attempt = .ended outcome ∧
      ∃ scheduler, s.scheduler.step (.settle outcome) = some scheduler ∧
        s' = { s with scheduler, attempt := .idle } := by
  cases ha : s.attempt <;> simp [step, ha, @eq_comm _ s']

theorem moved_cases (s : ScheduledBus Payload) (bus : EventBus Payload) :
    (s.attempt = .calling ∧ bus.publishing = none ∧
      s.moved bus = { s with bus, attempt := .ended (lastOutcome bus) }) ∨
    ((s.attempt = .calling → bus.publishing ≠ none) ∧ s.moved bus = { s with bus }) := by
  cases ha : s.attempt <;> cases hb : bus.publishing <;> simp [moved, ha, hb]

@[simp] theorem moved_bus (s : ScheduledBus Payload) (bus : EventBus Payload) :
    (s.moved bus).bus = bus := by
  rcases moved_cases s bus with ⟨-, -, same⟩ | ⟨-, same⟩ <;> rw [same]

/-- Each part does what it would do on its own. -/
theorem step_parts {a : ScheduledBusAction Payload} (h : step config s a = some s') :
    Reachable Scheduler.step s.scheduler s'.scheduler ∧
      Reachable (EventBus.step config) s.bus s'.bus := by
  cases a with
  | schedule r =>
    obtain ⟨scheduler, hs, rfl⟩ := step_schedule.mp h
    exact ⟨.next (.refl _) hs, .refl _⟩
  | scheduler a =>
    obtain ⟨-, scheduler, hs, rfl⟩ := step_scheduler.mp h
    exact ⟨.next (.refl _) hs, .refl _⟩
  | bus a =>
    obtain ⟨-, bus, hb, rfl⟩ := step_bus.mp h
    rcases moved_cases s bus with ⟨-, -, same⟩ | ⟨-, same⟩ <;> rw [same] <;>
      exact ⟨.refl _, .next (.refl _) hb⟩
  | attempt =>
    obtain ⟨due, -, -, bus, hb, rfl⟩ := step_attempt.mp h
    exact ⟨.refl _, .next (.refl _) hb⟩
  | attemptThrow e =>
    obtain ⟨-, -, rfl⟩ := step_attemptThrow.mp h
    exact ⟨.refl _, .refl _⟩
  | settle =>
    obtain ⟨outcome, -, scheduler, hs, rfl⟩ := step_settle.mp h
    exact ⟨.next (.refl _) hs, .refl _⟩

variable {now : TimePoint}

theorem scheduler_reachable (h : Reachable (step config) (initial config now) s) :
    Reachable Scheduler.step (Scheduler.initial now) s.scheduler :=
  h.project fun _ _ _ hs => (step_parts hs).1

theorem bus_reachable (h : Reachable (step config) (initial config now) s) :
    Reachable (EventBus.step config) (EventBus.initial config) s.bus :=
  h.project fun _ _ _ hs => (step_parts hs).2

end ScheduledBus

end Yellowstone
