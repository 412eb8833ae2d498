import Yellowstone.Bus.EventBus
import Yellowstone.Library.LockPool
import Yellowstone.Scheduling.Scheduler

/-!
# The calls of a bus and its scheduler, mutex by mutex

Each call is a program: it takes and releases the mutexes in the order of the source, and
reads and writes the shared memory in between. What threads do between two steps of it is up
to the pool that runs it. A wait on a condition variable may wake at any time, and `notify`
and `wake_all` take no mutex.
-/

set_option autoImplicit false

namespace Yellowstone

open Throwing

/-- What a thread can wait for. -/
inductive Mutex where
  | lifecycle
  /-- No mutex of the source: it marks the call that is shutting the workers down. -/
  | closing
  /-- Held by a consumer worker while its `work` runs. -/
  | working (id : SubscriberId)
  /-- The interpreter lock of Python. -/
  | gil
  | publish
  | subscriber
  | partition (t : Token)
  | scheduler
deriving DecidableEq

namespace Mutex

/-- The mutexes under which `publish` and the consumers work. -/
def ofBus : Mutex → Bool
  | publish | subscriber | partition _ => true
  | _ => false

/-- An order of everything a thread can wait for, but for where the interpreter lock and the
scheduler's mutex stand in it. -/
def rank (gilRank schedulerRank : Nat) : Mutex → Nat
  | working _ => 0
  | lifecycle => 1
  | closing => 2
  | gil => gilRank
  | publish => 5
  | subscriber => 6
  | partition _ => 7
  | scheduler => schedulerRank

end Mutex

/-- The memory of a bus and of the scheduler that publishes on it. Where the threads stand in
their calls is not read from it. -/
structure SharedMemory (Payload : Type) where
  bus : EventBus Payload
  scheduler : Scheduler Payload

/-- What a handler may call on its bus and on a scheduler. -/
inductive UserCall (Payload : Type) where
  | subscribe (callable : Bool)
  | unsubscribe (id : SubscriberId)
  | publish (eventId : EventId) (payload : Payload) (superstep : Superstep)
  | publishOne (id : SubscriberId) (eventId : EventId) (payload : Payload) (superstep : Superstep)
  | pending (id : SubscriberId)
  | subscriberCount
  /-- `schedule`, or `schedule_one` if there is a subscriber. -/
  | schedule (request : Request Payload)

/-- Everything that a step may leave to the environment. -/
structure Choice (Payload : Type) where
  /-- How often a wait is woken before it ends. -/
  wakeups : Nat := 0
  /-- A wait until a deadline ends by reaching it. -/
  elapsed : Bool := false
  /-- An allocation or a copy throws. -/
  thrown : Option Exn := none
  fault : PushPoint → Option Exn := fun _ => none
  /-- The manager throws, with or without workers registered. -/
  startup : Option (Bool × Exn) := none
  /-- The calls that a handler makes, and what it throws after them. -/
  script : List (UserCall Payload) × Option Exn := ([], none)
  /-- The handle that is dropped was the last one of its object. -/
  last : Bool := false

/-- Nothing throws, and no wait is woken early. -/
def Choice.plain {Payload : Type} : Choice Payload := {}

abbrev Call (Payload α : Type) :=
  LockProgram (SharedMemory Payload) Mutex (Choice Payload) Exn α

/-- What the payload and its merger bring into a call: what runs around a merge, and the
destructor of a payload. -/
structure PayloadCode (Payload : Type) where
  merging : Call Payload PushResult → Call Payload PushResult
  drop : Call Payload Unit

/-- A payload whose merger and destructor take no lock. -/
def PayloadCode.plain {Payload : Type} : PayloadCode Payload where
  merging := id
  drop := pure ()

namespace Native
variable {Payload α : Type}

open LockProgram

def onBus (f : EventBus Payload → α × EventBus Payload) : Call Payload α :=
  atomically fun m => ((f m.bus).1, { m with bus := (f m.bus).2 })

def onScheduler (f : Scheduler Payload → α × Scheduler Payload) : Call Payload α :=
  atomically fun m => ((f m.scheduler).1, { m with scheduler := (f m.scheduler).2 })

def mayThrow : Call Payload Unit := do
  match ← ask (·.thrown) with
  | some e => raise e
  | none => pure ()

/-- A call whose result and exceptions its caller deals with. -/
def handled (p : Call Payload α) : Call Payload Unit :=
  p.attempt >>= fun _ => pure ()

/-- How a critical section of a partition ends; none is undefined on a well-formed partition. -/
def ofFailure : Except Failure α → Call Payload α
  | .ok a => pure a
  | .error (.thrown e) => raise e
  | .error .undefinedBehaviour => raise .badAlloc

/-- A critical section of a partition. -/
def onPartition (t : Token) (x : PartitionProg Payload α) : Call Payload α := do
  let r ← onBus fun s =>
    ((exec x (s.objects t).partition).1, s.setPartition t (exec x (s.objects t).partition).2)
  ofFailure r

/-! ## `EventBus` -/

section Bus
variable (config : BusConfig Payload) (code : PayloadCode Payload)

/-- `EventBus::subscribe`. -/
def subscribe (callable : Bool) : Call Payload SubscriberId :=
  if !callable then raise (.invalidArgument "subscriber handler must be callable")
  else withLock .lifecycle <| withLock .publish <| withLock .subscriber do
    let r ← onBus fun s => s.subscribe config callable
    ofExcept r

/-- `EventBus::unsubscribe`. -/
def unsubscribe (id : SubscriberId) : Call Payload Unit :=
  withLock .lifecycle <| withLock .publish <| withLock .subscriber do
    let r ← onBus fun s => s.unsubscribe id
    ofExcept r

/-- `EventBus::m_subscriber`. -/
def subscriber (id : SubscriberId) : Call Payload Token :=
  withLock .subscriber do
    match ← load fun m => m.bus.subscriber id with
    | some t => pure t
    | none => raise (.outOfRange "subscriber does not exist")

/-- `EventBus::m_snapshot_subscribers`. -/
def snapshotSubscribers : Call Payload (List Token) :=
  withLock .subscriber do
    mayThrow
    load fun m => m.bus.snapshot

/-- `m_sequence.fetch_add(1UL)`. -/
def fetchSequence : Call Payload Sequence :=
  onBus fun s => (s.sequence, { s with sequence := (s.sequence + 1) % wordSize })

/-- `Partition::can_accept`. -/
def canAccept (t : Token) (event : Event Payload) : Call Payload Bool :=
  withLock (.partition t) (onPartition t (Partition.canAccept event))

/-- `Partition::push`, whose parameter lives until its mutex is released. -/
def push (t : Token) (event : Event Payload) : Call Payload PushResult := do
  mayThrow
  (withLock (.partition t) do
    let held ← load fun m => EventBus.holds (m.bus.objects t).partition event
    let fault ← ask (·.fault)
    let pushing := onPartition t (Partition.push config.merger fault event)
    if held then code.merging pushing else pushing).ensuring code.drop

/-- The first loop of `publish`. -/
def checkAll (event : Event Payload) : List Token → Call Payload Unit
  | [] => pure ()
  | t :: rest => do
    if ← canAccept t event then checkAll event rest
    else raise (.overflowError "one or more subscriber partitions are full")

/-- The second loop of `publish`. -/
def pushAll (event : Event Payload) : List Token → PublishResult → Call Payload PublishResult
  | [], result => pure result
  | t :: rest, result => do
    match ← push config code t event with
    | .full => raise (.logicError "partition capacity changed during serialized publish")
    | pushed => pushAll event rest (result.tally pushed)

/-- `EventBus::publish`; `prototype` dies under the publish mutex, the parameter after it. -/
def publish (eventId : EventId) (payload : Payload) (superstep : Superstep) :
    Call Payload PublishResult :=
  (withLock .publish do
    let subscribers ← snapshotSubscribers
    let sequence ← fetchSequence
    let prototype : Event Payload := ⟨eventId, superstep, sequence, payload⟩
    (do
      checkAll prototype subscribers
      pushAll config code prototype subscribers ⟨0, 0⟩).ensuring code.drop).ensuring code.drop

/-- `EventBus::publish_one`. -/
def publishOne (id : SubscriberId) (eventId : EventId) (payload : Payload)
    (superstep : Superstep) : Call Payload PublishResult :=
  (withLock .publish do
    let t ← subscriber id
    let sequence ← fetchSequence
    let event : Event Payload := ⟨eventId, superstep, sequence, payload⟩
    (do
      if ← canAccept t event then
        let status ← push config code t event
        pure ((⟨0, 0⟩ : PublishResult).tally status)
      else raise (.overflowError "subscriber partition is full")).ensuring code.drop).ensuring
    code.drop

/-- The workers are stopped and waited for, by `WorkerManager::stop` or by its destructor. -/
def shutDown : Call Payload Unit := do
  let workers ← load fun m => m.bus.workers
  awaitAll (workers.map .working)
  onBus fun s => ((), { s with workers := [] })

/-- `EventBus::start`. -/
def start : Call Payload Unit :=
  withLock .lifecycle do
    if ← load fun m => m.bus.running then pure ()
    else
      let ids ← withLock .subscriber do
        mayThrow
        onBus fun s => (s.occupied, { s with running := true })
      match ← ask (·.startup) with
      | none => onBus fun s => ((), { s with workers := ids })
      | some (registered, e) =>
        -- the manager is destroyed before the handler of the exception runs
        withLock .closing do
          onBus fun s => ((), { s with workers := if registered then ids else [] })
          shutDown
        onBus fun s => ((), { s with running := false })
        raise e

/-- `EventBus::stop`. -/
def stop : Call Payload Unit :=
  withLock .lifecycle do
    let running ← onBus fun s => (s.running, { s with running := false })
    if running then
      withLock .closing do
        -- the partitions of the snapshot are woken
        let _ ← withLock .subscriber (load fun m => m.bus.snapshot)
        shutDown
    else pure ()

/-- `Partition::wait_pop_for`. -/
def waitPopFor (t : Token) : Call Payload (Option (Event Payload)) :=
  withLock (.partition t) do
    let wakeups ← ask (·.wakeups)
    conditionWait (.partition t) wakeups
    onPartition t Partition.popLocked

/-- `EventBus::m_consume_one`; the popped event dies at its end. -/
def consumeOne (handler : SubscriberId → Event Payload → Call Payload Unit) (id : SubscriberId) :
    Call Payload Unit := do
  match ← (subscriber id).attempt with
  | .error _ => pure ()
  | .ok t =>
    if ← load fun m => m.bus.running then
      match ← waitPopFor t with
      | none => pure ()
      | some event =>
        -- what the handler throws is reported
        (handled (handler id event)).ensuring code.drop
    else pure ()

/-- `EventBus::subscriber_count`. -/
def subscriberCount : Call Payload Nat :=
  withLock .subscriber (load fun m => m.bus.subscriberCount)

/-- `EventBus::pending`. -/
def pending (id : SubscriberId) : Call Payload Nat := do
  let t ← subscriber id
  withLock (.partition t) (load fun m => (m.bus.objects t).partition.size)

end Bus

/-! ## `Scheduler` -/

section Scheduler
variable (config : BusConfig Payload) (code : PayloadCode Payload)

/-- `Scheduler::m_schedule`. -/
def schedule (request : Request Payload) : Call Payload ScheduleId :=
  (withLock .scheduler do
    if ← load fun m => m.scheduler.accepting then
      onScheduler fun s => (s.nextScheduleId, s.schedule request)
    else
      raise (.logicError "scheduler is stopped and is not accepting new events")).ensuring
    code.drop

/-- `Scheduler::pending_events`. -/
def pendingEvents : Call Payload Nat :=
  withLock .scheduler (load fun m => (TreeHeap.values m.scheduler.heap).length)

/-- The call of `m_run` on the bus. -/
def forward (due : ScheduledItem Payload) : Call Payload PublishResult :=
  match due.subscriberId with
  | some id => publishOne config code id due.eventId due.payload due.superstep
  | none => publish config code due.eventId due.payload due.superstep

/-- `m_run` after its call on the bus. The lock is taken again, and `due`, unless it was moved
into the heap, dies under it. -/
def settle (report : Call Payload Unit) (due : ScheduledItem Payload) :
    Except Exn PublishResult → Call Payload Unit
  | .ok _ => do
    onScheduler fun s => ((), { s with forwardedEvents := (s.forwardedEvents + 1) % wordSize })
    lock .scheduler
    code.drop
  | .error (.overflowError _) => do
    lock .scheduler
    onScheduler fun s => ((), { s with heap := TreeHeap.push earlierDeadline s.heap due })
    let wakeups ← ask (·.wakeups)
    conditionWait .scheduler wakeups
  | .error _ => do
    onScheduler fun s => ((), { s with failedEvents := (s.failedEvents + 1) % wordSize })
    report
    lock .scheduler
    code.drop

/-- `m_run` from where a wait takes the lock again to where the next wait releases it. -/
def runTurn (report : Call Payload Unit) : Call Payload Unit := do
  lock .scheduler
  let elapsed ← ask (·.elapsed)
  let due ← onScheduler fun s =>
    if elapsed && !s.stopRequested then
      match TreeHeap.extract earlierDeadline s.heap with
      | some (due, heap) => (some due, { s with heap })
      | none => (none, s)
    else (none, s)
  match due with
  | none => unlock .scheduler
  | some due => do
    unlock .scheduler
    let outcome ← (forward config code due).attempt
    settle code report due outcome
    unlock .scheduler

end Scheduler

end Native
end Yellowstone
