import Yellowstone.Bus.Event
import Yellowstone.Library.Machine
import Yellowstone.Library.PairingForest

/-!
# `Scheduler` as a transition system

The timing thread takes one step per statement of `m_run`, with testing a wait predicate
and blocking as two steps, both under the mutex. Every other critical section is short and
is one step, possible whenever the timing thread does not hold the mutex. The clock may be
set to any value at any time. `start` and `stop` are issued one at a time.

The fields after `notifying` record what happened; no step reads them.
-/

set_option autoImplicit false

namespace Yellowstone

abbrev ScheduleId := Nat

/-- `std::chrono::system_clock::time_point`. -/
abbrev TimePoint := Int

/-- The arguments of `schedule`, and of `schedule_one` if there is a subscriber. -/
structure Request (Payload : Type) where
  subscriberId : Option SubscriberId
  eventId : EventId
  payload : Payload
  forwardAt : TimePoint
  superstep : Superstep
deriving DecidableEq, Repr

structure ScheduledItem (Payload : Type) where
  forwardAt : TimePoint
  insertionOrder : Nat
  scheduleId : ScheduleId
  subscriberId : Option SubscriberId
  eventId : EventId
  superstep : Superstep
  payload : Payload
deriving DecidableEq, Repr

/-- `EarlierDeadline`: the later item has the lower priority. -/
def earlierDeadline {Payload : Type} (lhs rhs : ScheduledItem Payload) : Bool :=
  if lhs.forwardAt ≠ rhs.forwardAt then decide (lhs.forwardAt > rhs.forwardAt)
  else decide (lhs.insertionOrder > rhs.insertionOrder)

/-- How a call on the bus ended: it returned, threw `overflow_error`, or threw anything else. -/
inductive PublishOutcome where
  | returned
  | overflow
  | failed
deriving DecidableEq, Repr

/-- A call of `publish`, or of `publish_one` if there is a subscriber, for a scheduled item. -/
structure PublishCall (Payload : Type) where
  scheduleId : ScheduleId
  subscriberId : Option SubscriberId
  eventId : EventId
  payload : Payload
  superstep : Superstep
  outcome : PublishOutcome
deriving DecidableEq, Repr

def ScheduledItem.call {Payload : Type} (due : ScheduledItem Payload)
    (outcome : PublishOutcome) : PublishCall Payload :=
  ⟨due.scheduleId, due.subscriberId, due.eventId, due.payload, due.superstep, outcome⟩

/-- Where the timing thread stands in `m_run`, with its local variables. -/
inductive Worker (Payload : Type) where
  | absent
  | acquire
  | loopHead
  | waitTest
  | waitBlock
  | waitBlocked
  | waitWoken
  | timedTest (deadline : TimePoint) (order : Nat)
  | timedBlock (deadline : TimePoint) (order : Nat)
  | timedBlocked (deadline : TimePoint) (order : Nat)
  | timedWoken (deadline : TimePoint) (order : Nat)
  | timedOut (deadline : TimePoint) (order : Nat) (clock : TimePoint)
  | interrupted
  | elapsed (deadline : TimePoint) (order : Nat) (clock : TimePoint)
  | publishing (due : ScheduledItem Payload)
  | relock
  | relockRetry (due : ScheduledItem Payload)
  | retryTest
  | retryBlock
  | retryBlocked
  | retryWoken
  | exited
  | terminated
deriving DecidableEq, Repr

namespace Worker
variable {Payload : Type}

def holdsLock : Worker Payload → Bool
  | loopHead | waitTest | waitBlock | timedTest .. | timedBlock .. | timedOut .. | interrupted
  | elapsed .. | retryTest | retryBlock => true
  | _ => false

/-- The item extracted and not yet settled or put back. -/
def inFlight : Worker Payload → Option (ScheduledItem Payload)
  | publishing due | relockRetry due => some due
  | _ => none

/-- What a notification does to the thread: nothing, unless it is blocked. -/
def woken : Worker Payload → Worker Payload
  | waitBlocked => waitWoken
  | timedBlocked deadline order => timedWoken deadline order
  | retryBlocked => retryWoken
  | w => w

def blocked : Worker Payload → Bool
  | waitBlocked | timedBlocked .. | retryBlocked => true
  | _ => false

end Worker

/-- Where the one running call of `stop` stands. -/
inductive Lifecycle where
  | idle
  | refusing
  | requested
  | joining
  | joined
deriving DecidableEq, Repr

structure Scheduler (Payload : Type) where
  heap : TreeHeap (ScheduledItem Payload)
  accepting : Bool
  running : Bool
  nextInsertionOrder : Nat
  nextScheduleId : ScheduleId
  scheduledEvents : Nat
  forwardedEvents : Nat
  failedEvents : Nat
  stopRequested : Bool
  worker : Worker Payload
  lifecycle : Lifecycle
  now : TimePoint
  /-- Calls of `m_schedule` between unlocking the mutex and `notify_one`. -/
  notifying : List ScheduleId
  /-- The root that the timing thread read last. -/
  observed : Option (ScheduledItem Payload)
  returned : List ScheduleId
  requests : List (ScheduleId × Request Payload)
  accepted : List (ScheduledItem Payload)
  forwarded : List (ScheduledItem Payload)
  failed : List (ScheduledItem Payload)
  calls : List (PublishCall Payload)
deriving DecidableEq, Repr

inductive SchedulerAction (Payload : Type) where
  | schedule (request : Request Payload)
  | notify (id : ScheduleId)
  /-- `start`, with or without success in creating the thread. -/
  | start (created : Bool)
  | stop
  | requestStop
  | notifyAll
  | join
  | stopReturn
  | setClock (now : TimePoint)
  /-- A blocked thread wakes without a notification. -/
  | wake
  /-- The next statement of the timing thread; a wait it returns from may report a timeout. -/
  | work (timeout : Bool)
  /-- The call on the bus ends, and its result is counted. -/
  | settle (outcome : PublishOutcome)
deriving DecidableEq, Repr

namespace Scheduler
variable {Payload : Type}

/-- A constructed scheduler before the constructor's call of `start`. -/
def initial (now : TimePoint) : Scheduler Payload where
  heap := none
  accepting := false
  running := false
  nextInsertionOrder := 0
  nextScheduleId := 1
  scheduledEvents := 0
  forwardedEvents := 0
  failedEvents := 0
  stopRequested := false
  worker := .absent
  lifecycle := .idle
  now := now
  notifying := []
  observed := none
  returned := []
  requests := []
  accepted := []
  forwarded := []
  failed := []
  calls := []

/-- `Scheduler::m_schedule` up to the end of its critical section. -/
def schedule (s : Scheduler Payload) (request : Request Payload) : Scheduler Payload :=
  if s.accepting then
    let item : ScheduledItem Payload := {
      forwardAt := request.forwardAt
      insertionOrder := s.nextInsertionOrder
      scheduleId := s.nextScheduleId
      subscriberId := request.subscriberId
      eventId := request.eventId
      superstep := request.superstep
      payload := request.payload }
    { s with
      nextScheduleId := (s.nextScheduleId + 1) % wordSize
      nextInsertionOrder := (s.nextInsertionOrder + 1) % wordSize
      heap := TreeHeap.push earlierDeadline s.heap item
      scheduledEvents := (s.scheduledEvents + 1) % wordSize
      notifying := s.nextScheduleId :: s.notifying
      requests := s.requests ++ [(s.nextScheduleId, request)]
      accepted := s.accepted ++ [item] }
  -- it throws `logic_error`
  else s

/-- `Scheduler::start`. -/
def start (s : Scheduler Payload) (created : Bool) : Scheduler Payload :=
  if s.running then s
  else if created then
    { s with accepting := true, running := true, worker := .acquire, stopRequested := false }
  else { s with accepting := false, running := false }

/-- `Scheduler::m_root_changed`. -/
def rootChanged (s : Scheduler Payload) (deadline : TimePoint) (order : Nat) : Bool :=
  match s.heap.top with
  | none => true
  | some current => decide (current.forwardAt < deadline) ||
    (decide (current.forwardAt = deadline) && decide (current.insertionOrder < order))

/-- The timing thread, from one statement to the next. -/
def workStep (s : Scheduler Payload) (timeout : Bool) : Option (Scheduler Payload) :=
  match s.worker with
  | .absent | .publishing _ | .exited | .terminated => none
  | .waitBlocked | .timedBlocked .. | .retryBlocked => none
  | .acquire | .relock => some { s with worker := .loopHead }
  | .loopHead =>
    if s.stopRequested then some { s with worker := .exited }
    else match s.heap.top with
      | none => some { s with worker := .waitTest }
      | some root => some { s with
          worker := .timedTest root.forwardAt root.insertionOrder
          observed := some root }
  | .waitTest =>
    if s.stopRequested || s.heap.top.isSome then some { s with worker := .loopHead }
    else some { s with worker := .waitBlock }
  | .waitBlock => some { s with worker := .waitBlocked }
  | .waitWoken => some { s with worker := .waitTest }
  | .timedTest deadline order =>
    if s.stopRequested || s.rootChanged deadline order then some { s with worker := .interrupted }
    else some { s with worker := .timedBlock deadline order }
  | .timedBlock deadline order => some { s with worker := .timedBlocked deadline order }
  | .timedWoken deadline order =>
    -- the mutex is taken again; only a clock that has reached the deadline reports a timeout
    if timeout then
      if deadline ≤ s.now then some { s with worker := .timedOut deadline order s.now } else none
    else some { s with worker := .timedTest deadline order }
  | .timedOut deadline order clock =>
    if s.stopRequested || s.rootChanged deadline order then some { s with worker := .interrupted }
    else some { s with worker := .elapsed deadline order clock }
  | .interrupted =>
    if s.stopRequested then some { s with worker := .exited }
    else some { s with worker := .loopHead }
  | .elapsed .. =>
    if s.stopRequested then some { s with worker := .exited }
    else match TreeHeap.extract earlierDeadline s.heap with
      -- `extract_top` would throw out of a `noexcept` function
      | none => some { s with worker := .terminated }
      | some (due, heap) => some { s with heap := heap, worker := .publishing due }
  | .relockRetry due =>
    some { s with heap := TreeHeap.push earlierDeadline s.heap due, worker := .retryTest }
  | .retryTest =>
    if s.stopRequested then some { s with worker := .loopHead }
    else some { s with worker := .retryBlock }
  | .retryBlock => some { s with worker := .retryBlocked }
  | .retryWoken =>
    if timeout then some { s with worker := .loopHead } else some { s with worker := .retryTest }

/-- The call on the bus for `due` ends. -/
def settle (s : Scheduler Payload) (due : ScheduledItem Payload) (outcome : PublishOutcome) :
    Scheduler Payload :=
  let s := { s with calls := s.calls ++ [due.call outcome] }
  match outcome with
  | .returned =>
    { s with
      forwardedEvents := (s.forwardedEvents + 1) % wordSize
      forwarded := s.forwarded ++ [due]
      worker := .relock }
  | .overflow => { s with worker := .relockRetry due }
  | .failed =>
    { s with
      failedEvents := (s.failedEvents + 1) % wordSize
      failed := s.failed ++ [due]
      worker := .relock }

def step (s : Scheduler Payload) : SchedulerAction Payload → Option (Scheduler Payload)
  | .schedule request => if s.worker.holdsLock then none else some (s.schedule request)
  | .notify id =>
    if id ∈ s.notifying then
      some { s with
        notifying := s.notifying.erase id
        returned := s.returned ++ [id]
        worker := s.worker.woken }
    else none
  | .start created =>
    if s.worker.holdsLock ∨ s.lifecycle ≠ .idle then none else some (s.start created)
  | .stop =>
    if s.worker.holdsLock ∨ s.lifecycle ≠ .idle then none
    else some { s with accepting := false, lifecycle := .refusing }
  | .requestStop =>
    if s.lifecycle ≠ .refusing then none
    -- `joinable()` is false for a thread that never ran or has been joined
    else match s.worker with
      | .absent => some { s with lifecycle := .joined }
      | _ => some { s with stopRequested := true, lifecycle := .requested }
  | .notifyAll =>
    if s.lifecycle ≠ .requested then none
    else some { s with worker := s.worker.woken, lifecycle := .joining }
  | .join =>
    if s.lifecycle = .joining then
      match s.worker with
      | .exited => some { s with worker := .absent, lifecycle := .joined }
      | _ => none
    else none
  | .stopReturn =>
    if s.lifecycle ≠ .joined then none
    else some { s with running := false, lifecycle := .idle }
  | .setClock now => some { s with now := now }
  | .wake => if s.worker.blocked then some { s with worker := s.worker.woken } else none
  | .work timeout => s.workStep timeout
  | .settle outcome =>
    match s.worker with
    | .publishing due => some (s.settle due outcome)
    | _ => none

/-! ## What the timing thread can do -/

/-- One move of the timing thread that leaves the heap alone, and the root it has read last. -/
inductive Moves (s : Scheduler Payload) :
    Worker Payload → Worker Payload → Option (ScheduledItem Payload) → Prop
  | acquire : Moves s .acquire .loopHead s.observed
  | relock : Moves s .relock .loopHead s.observed
  | leave : s.stopRequested = true → Moves s .loopHead .exited s.observed
  | wait : s.stopRequested = false → s.heap.top = none → Moves s .loopHead .waitTest s.observed
  | observe (root : ScheduledItem Payload) : s.stopRequested = false → s.heap.top = some root →
    Moves s .loopHead (.timedTest root.forwardAt root.insertionOrder) (some root)
  | waitOver : (s.stopRequested || s.heap.top.isSome) = true →
    Moves s .waitTest .loopHead s.observed
  | waitOn : (s.stopRequested || s.heap.top.isSome) = false →
    Moves s .waitTest .waitBlock s.observed
  | waitBlock : Moves s .waitBlock .waitBlocked s.observed
  | waitAgain : Moves s .waitWoken .waitTest s.observed
  | interrupt (d : TimePoint) (o : Nat) : (s.stopRequested || s.rootChanged d o) = true →
    Moves s (.timedTest d o) .interrupted s.observed
  | timedOn (d : TimePoint) (o : Nat) : (s.stopRequested || s.rootChanged d o) = false →
    Moves s (.timedTest d o) (.timedBlock d o) s.observed
  | timedBlock (d : TimePoint) (o : Nat) : Moves s (.timedBlock d o) (.timedBlocked d o) s.observed
  | timeout (d : TimePoint) (o : Nat) : d ≤ s.now →
    Moves s (.timedWoken d o) (.timedOut d o s.now) s.observed
  | timedAgain (d : TimePoint) (o : Nat) : Moves s (.timedWoken d o) (.timedTest d o) s.observed
  | interruptLate (d : TimePoint) (o : Nat) (c : TimePoint) :
    (s.stopRequested || s.rootChanged d o) = true →
    Moves s (.timedOut d o c) .interrupted s.observed
  | elapse (d : TimePoint) (o : Nat) (c : TimePoint) :
    (s.stopRequested || s.rootChanged d o) = false →
    Moves s (.timedOut d o c) (.elapsed d o c) s.observed
  | interruptedLeave : s.stopRequested = true → Moves s .interrupted .exited s.observed
  | interruptedOn : s.stopRequested = false → Moves s .interrupted .loopHead s.observed
  | elapsedLeave (d : TimePoint) (o : Nat) (c : TimePoint) : s.stopRequested = true →
    Moves s (.elapsed d o c) .exited s.observed
  | terminate (d : TimePoint) (o : Nat) (c : TimePoint) : s.stopRequested = false →
    s.heap.top = none → Moves s (.elapsed d o c) .terminated s.observed
  | retryStop : s.stopRequested = true → Moves s .retryTest .loopHead s.observed
  | retryOn : s.stopRequested = false → Moves s .retryTest .retryBlock s.observed
  | retryBlock : Moves s .retryBlock .retryBlocked s.observed
  | retryOver : Moves s .retryWoken .loopHead s.observed
  | retryAgain : Moves s .retryWoken .retryTest s.observed

theorem Moves.present {s : Scheduler Payload} {w w' : Worker Payload}
    {o : Option (ScheduledItem Payload)} (h : Moves s w w' o) : w ≠ .absent ∧ w' ≠ .absent := by
  cases h <;> exact ⟨nofun, nofun⟩

theorem extract_eq_none {heap : TreeHeap (ScheduledItem Payload)} :
    TreeHeap.extract earlierDeadline heap = none ↔ heap.top = none := by
  cases heap <;> simp [TreeHeap.extract, TreeHeap.top]

/-- The timing thread moves on, extracts the top, or puts a refused item back. -/
theorem workStep_cases {s s' : Scheduler Payload} {timeout : Bool}
    (h : s.workStep timeout = some s') :
    (∃ w o, Moves s s.worker w o ∧ s' = { s with worker := w, observed := o }) ∨
    (∃ d o c due heap, s.worker = .elapsed d o c ∧ s.stopRequested = false ∧
      TreeHeap.extract earlierDeadline s.heap = some (due, heap) ∧
      s' = { s with heap := heap, worker := .publishing due }) ∨
    (∃ due, s.worker = .relockRetry due ∧ s' = { s with
      heap := TreeHeap.push earlierDeadline s.heap due, worker := .retryTest }) := by
  cases hw : s.worker <;> simp only [workStep, hw] at h
  case absent | waitBlocked | timedBlocked | retryBlocked | publishing | exited | terminated =>
    cases h
  case acquire => cases h; exact .inl ⟨_, _, .acquire, rfl⟩
  case relock => cases h; exact .inl ⟨_, _, .relock, rfl⟩
  case loopHead =>
    split at h
    · cases h; exact .inl ⟨_, _, .leave ‹_›, rfl⟩
    · split at h
      · cases h; exact .inl ⟨_, _, .wait (Bool.of_not_eq_true ‹_›) ‹_›, rfl⟩
      · cases h; exact .inl ⟨_, _, .observe _ (Bool.of_not_eq_true ‹_›) ‹_›, rfl⟩
  case waitTest =>
    split at h
    · cases h; exact .inl ⟨_, _, .waitOver ‹_›, rfl⟩
    · cases h; exact .inl ⟨_, _, .waitOn (Bool.of_not_eq_true ‹_›), rfl⟩
  case waitBlock => cases h; exact .inl ⟨_, _, .waitBlock, rfl⟩
  case waitWoken => cases h; exact .inl ⟨_, _, .waitAgain, rfl⟩
  case timedTest d o =>
    split at h
    · cases h; exact .inl ⟨_, _, .interrupt d o ‹_›, rfl⟩
    · cases h; exact .inl ⟨_, _, .timedOn d o (Bool.of_not_eq_true ‹_›), rfl⟩
  case timedBlock d o => cases h; exact .inl ⟨_, _, .timedBlock d o, rfl⟩
  case timedWoken d o =>
    split at h
    · split at h
      · cases h; exact .inl ⟨_, _, .timeout d o ‹_›, rfl⟩
      · cases h
    · cases h; exact .inl ⟨_, _, .timedAgain d o, rfl⟩
  case timedOut d o c =>
    split at h
    · cases h; exact .inl ⟨_, _, .interruptLate d o c ‹_›, rfl⟩
    · cases h; exact .inl ⟨_, _, .elapse d o c (Bool.of_not_eq_true ‹_›), rfl⟩
  case interrupted =>
    split at h
    · cases h; exact .inl ⟨_, _, .interruptedLeave ‹_›, rfl⟩
    · cases h; exact .inl ⟨_, _, .interruptedOn (Bool.of_not_eq_true ‹_›), rfl⟩
  case elapsed d o c =>
    split at h
    · cases h; exact .inl ⟨_, _, .elapsedLeave d o c ‹_›, rfl⟩
    · rename_i running
      replace running : s.stopRequested = false := by simpa using running
      split at h
      · cases h; exact .inl ⟨_, _, .terminate d o c running (extract_eq_none.mp ‹_›), rfl⟩
      · cases h; exact .inr (.inl ⟨d, o, c, _, _, rfl, running, ‹_›, rfl⟩)
  case relockRetry due => cases h; exact .inr (.inr ⟨due, rfl, rfl⟩)
  case retryTest =>
    split at h
    · cases h; exact .inl ⟨_, _, .retryStop ‹_›, rfl⟩
    · cases h; exact .inl ⟨_, _, .retryOn (Bool.of_not_eq_true ‹_›), rfl⟩
  case retryBlock => cases h; exact .inl ⟨_, _, .retryBlock, rfl⟩
  case retryWoken =>
    split at h
    · cases h; exact .inl ⟨_, _, .retryOver, rfl⟩
    · cases h; exact .inl ⟨_, _, .retryAgain, rfl⟩

/-! ## What the other steps can do -/

section Steps
variable {s s' : Scheduler Payload}

theorem step_schedule {r : Request Payload} : step s (.schedule r) = some s' ↔
    s.worker.holdsLock = false ∧ s' = s.schedule r := by
  simp [step, @eq_comm _ s']

theorem worker_schedule {r : Request Payload} : (s.schedule r).worker = s.worker := by
  unfold schedule
  split <;> rfl

theorem step_notify {id : ScheduleId} : step s (.notify id) = some s' ↔ id ∈ s.notifying ∧
    s' = { s with
      notifying := s.notifying.erase id
      returned := s.returned ++ [id]
      worker := s.worker.woken } := by
  simp [step, @eq_comm _ s']

theorem step_start {created : Bool} : step s (.start created) = some s' ↔
    s.worker.holdsLock = false ∧ s.lifecycle = .idle ∧ s' = s.start created := by
  simp [step, @eq_comm _ s', and_assoc]

theorem step_stop : step s .stop = some s' ↔ s.worker.holdsLock = false ∧ s.lifecycle = .idle ∧
    s' = { s with accepting := false, lifecycle := .refusing } := by
  simp [step, @eq_comm _ s', and_assoc]

theorem step_requestStop : step s .requestStop = some s' ↔ s.lifecycle = .refusing ∧
    ((s.worker = .absent ∧ s' = { s with lifecycle := .joined }) ∨
      (s.worker ≠ .absent ∧ s' = { s with stopRequested := true, lifecycle := .requested })) := by
  cases hw : s.worker <;> simp [step, hw, @eq_comm _ s']

theorem step_notifyAll : step s .notifyAll = some s' ↔ s.lifecycle = .requested ∧
    s' = { s with worker := s.worker.woken, lifecycle := .joining } := by
  simp [step, @eq_comm _ s']

theorem step_join : step s .join = some s' ↔ s.lifecycle = .joining ∧ s.worker = .exited ∧
    s' = { s with worker := .absent, lifecycle := .joined } := by
  cases hw : s.worker <;> simp [step, hw, @eq_comm _ s']

theorem step_stopReturn : step s .stopReturn = some s' ↔ s.lifecycle = .joined ∧
    s' = { s with running := false, lifecycle := .idle } := by
  simp [step, @eq_comm _ s']

theorem step_wake : step s .wake = some s' ↔ s.worker.blocked = true ∧
    s' = { s with worker := s.worker.woken } := by
  simp [step, @eq_comm _ s']

theorem step_settle {outcome : PublishOutcome} : step s (.settle outcome) = some s' ↔
    ∃ due, s.worker = .publishing due ∧ s' = s.settle due outcome := by
  cases hw : s.worker <;> simp [step, hw, @eq_comm _ s']

end Steps

theorem woken_eq_absent {w : Worker Payload} : w.woken = .absent ↔ w = .absent := by
  cases w <;> simp [Worker.woken]

/-- There is no timing thread before `start`, after `join`, and once `stop` has returned. -/
def NoThread (s : Scheduler Payload) : Prop :=
  s.running = false ∨ s.lifecycle = .joined → s.worker = .absent

theorem noThread_start {s : Scheduler Payload} (inv : NoThread s) (idle : s.lifecycle = .idle)
    (created : Bool) : NoThread (s.start created) := by
  unfold start
  split
  · exact inv
  · split
    · rintro (hr | hl)
      · cases hr
      · simp [idle] at hl
    · exact fun _ => inv (.inl (Bool.of_not_eq_true ‹_›))

theorem noThread_step {s s' : Scheduler Payload} {a : SchedulerAction Payload}
    (inv : NoThread s) (h : step s a = some s') : NoThread s' := by
  cases a with
  | schedule r =>
    obtain ⟨-, rfl⟩ := step_schedule.mp h
    unfold schedule
    split <;> exact inv
  | notify id =>
    obtain ⟨-, rfl⟩ := step_notify.mp h
    exact fun hs => woken_eq_absent.mpr (inv hs)
  | start created =>
    obtain ⟨-, idle, rfl⟩ := step_start.mp h
    exact noThread_start inv idle created
  | stop =>
    obtain ⟨-, -, rfl⟩ := step_stop.mp h
    exact fun hs => inv (.inl (hs.resolve_right nofun))
  | requestStop =>
    obtain ⟨-, ⟨hw, rfl⟩ | ⟨-, rfl⟩⟩ := step_requestStop.mp h
    · exact fun _ => hw
    · exact fun hs => inv (.inl (hs.resolve_right nofun))
  | notifyAll =>
    obtain ⟨-, rfl⟩ := step_notifyAll.mp h
    exact fun hs => woken_eq_absent.mpr (inv (.inl (hs.resolve_right nofun)))
  | join =>
    obtain ⟨-, -, rfl⟩ := step_join.mp h
    exact fun _ => rfl
  | stopReturn =>
    obtain ⟨hl, rfl⟩ := step_stopReturn.mp h
    exact fun _ => inv (.inr hl)
  | setClock now => cases h; exact inv
  | wake =>
    obtain ⟨-, rfl⟩ := step_wake.mp h
    exact fun hs => woken_eq_absent.mpr (inv hs)
  | work timeout =>
    rcases workStep_cases h with ⟨w, o, move, rfl⟩ | ⟨d, o, c, due, heap, hw, -, -, rfl⟩ |
      ⟨due, hw, rfl⟩
    · exact fun hs => absurd (inv hs) move.present.1
    · exact fun hs => absurd (inv hs) (by simp [hw])
    · exact fun hs => absurd (inv hs) (by simp [hw])
  | settle outcome =>
    obtain ⟨due, hw, rfl⟩ := step_settle.mp h
    intro hs
    have gone : s.worker = .absent := inv (by cases outcome <;> exact hs)
    simp [hw] at gone

/-! ## Labels of one attempt -/

/-- The thread goes from `loopHead` to the end of a timed wait for the root. -/
def timedWait (clock : TimePoint) : List (SchedulerAction Payload) :=
  List.replicate 3 (.work false) ++ [.setClock clock, .wake, .work true, .work false]

def attempt (clock : TimePoint) (outcome : PublishOutcome) : List (SchedulerAction Payload) :=
  timedWait clock ++ [.work false, .settle outcome]

end Scheduler

end Yellowstone
