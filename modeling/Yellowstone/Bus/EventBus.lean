import Yellowstone.Bus.Partition
import Yellowstone.Library.Machine

/-!
# `EventBus` as a transition system

Calls of `publish` and `publish_one` hold the publish mutex, so at most one is under way; each
`can_accept` and each `push` of it takes the partition's mutex and is a step. A consumer worker
takes one step per statement of `m_consume_one`. Calls that change the membership hold the
lifecycle and the publish mutex and are one step each; `start` and `stop` hold the lifecycle
mutex over several steps.

A subscriber object keeps its token when its slot is given to another. Its `history` and
`handed`, and `tickets` and `ended` of the bus, record what happened; no step reads them.
-/

set_option autoImplicit false

namespace Yellowstone

open Throwing

/-- The identity of a subscriber object, which is what a `SubscriberPtr` holds. -/
abbrev Token := Nat

structure PublishResult where
  delivered : Nat
  coalesced : Nat
deriving DecidableEq, Repr

/-- What happened in a partition; a push also says which call it was part of. -/
inductive Happening (Payload : Type) where
  | pushed (caller : Option Nat) (ticket : Nat) (event : Event Payload)
  | popped (event : Event Payload)
deriving DecidableEq, Repr

structure Subscriber (Payload : Type) where
  id : SubscriberId
  partition : Partition Payload
  history : List (Happening Payload)
  handed : List (Event Payload)
deriving DecidableEq, Repr

/-- Where a worker stands in `m_consume_one`. -/
inductive Consumer (Payload : Type) where
  | idle
  | fetched (subscriber : Token)
  | polling (subscriber : Token)
  | holding (subscriber : Token) (event : Event Payload)
deriving DecidableEq, Repr

def Consumer.isIdle {Payload : Type} : Consumer Payload → Bool
  | .idle => true
  | _ => false

/-- A call of `publish`, or of `publish_one` if there is a target. -/
structure PublishRequest (Payload : Type) where
  caller : Option Nat
  target : Option SubscriberId
  eventId : EventId
  payload : Payload
  superstep : Superstep
deriving DecidableEq, Repr

/-- A call that has drawn its sequence: its snapshot, its answers of `can_accept`, its pushes
with whether the partition held the key, and whether a push or its copy threw. -/
structure BusCall (Payload : Type) where
  caller : Option Nat
  ticket : Nat
  target : Option SubscriberId
  event : Event Payload
  targets : List Token
  checks : List (Token × Bool)
  pushes : List (Token × Bool × PushResult)
  result : PublishResult
  threw : Bool
deriving DecidableEq, Repr

/-- The call that holds the publish mutex, with what is left of its two loops. -/
structure Frame (Payload : Type) where
  call : BusCall Payload
  unchecked : List Token
  unpushed : List Token
deriving DecidableEq, Repr

/-- The switch on the result of a push. -/
def PublishResult.tally (result : PublishResult) : PushResult → PublishResult
  | .inserted => { result with delivered := result.delivered + 1 }
  | .coalesced => ⟨result.delivered + 1, result.coalesced + 1⟩
  | .full => result

def Frame.record {Payload : Type} (f : Frame Payload) (t : Token) (rest : List Token)
    (held : Bool) (result : PushResult) : Frame Payload :=
  { f with
    call := { f.call with
      pushes := f.call.pushes ++ [(t, held, result)]
      result := f.call.result.tally result }
    unpushed := rest }

/-- The call that holds the lifecycle mutex over more than one step. -/
inductive BusLifecycle where
  | idle
  | starting
  | registered
  | stopping
deriving DecidableEq, Repr

structure EventBus (Payload : Type) where
  slots : List (Option Token)
  subscriberCount : Nat
  objects : Token → Subscriber Payload
  nextToken : Token
  sequence : Sequence
  running : Bool
  lifecycle : BusLifecycle
  /-- The workers registered with the manager, which calls each of them again and again. -/
  workers : List SubscriberId
  consumers : SubscriberId → Consumer Payload
  publishing : Option (Frame Payload)
  tickets : Nat
  ended : List (BusCall Payload × Except Exn PublishResult)

/-- What the constructor fixes, and the size of the slot array. -/
structure BusConfig (Payload : Type) where
  maxSubscribers : Nat
  partitionCapacity : Nat
  merger : Merger Payload
  positive : 0 < partitionCapacity

/-- `EventBus::EventBus`; without a merger the incoming payload replaces the current one. -/
def BusConfig.construct {Payload : Type} (maxSubscribers partitionCapacity : Nat)
    (merger : Option (Merger Payload)) : Except Exn (BusConfig Payload) :=
  if positive : 0 < partitionCapacity then
    pure ⟨maxSubscribers, partitionCapacity, merger.getD (.ofFun fun _ incoming => incoming),
      positive⟩
  else throw (.invalidArgument "partition capacity must be greater than zero")

inductive BusAction (Payload : Type) where
  | subscribe (callable : Bool)
  | unsubscribe (id : SubscriberId)
  | publish (request : PublishRequest Payload)
  | check
  /-- The next push; copying its argument, or a point inside it, may throw. -/
  | push (copy : Option Exn) (fault : PushPoint → Option Exn)
  | publishReturn
  | start
  | register
  | startReturn
  | startThrow
  | stop
  | stopReturn
  | work (id : SubscriberId)
  | look (id : SubscriberId)
  | poll (id : SubscriberId)
  | handle (id : SubscriberId)

namespace EventBus
variable {Payload : Type} (config : BusConfig Payload)

def initial : EventBus Payload where
  slots := List.replicate config.maxSubscribers none
  subscriberCount := 0
  objects := fun _ => ⟨0, ⟨0, [], [], 0, 0⟩, [], []⟩
  nextToken := 0
  sequence := 0
  running := false
  lifecycle := .idle
  workers := []
  consumers := fun _ => .idle
  publishing := none
  tickets := 0
  ended := []

/-- `EventBus::subscribe`. -/
def subscribe (s : EventBus Payload) (callable : Bool) :
    Except Exn SubscriberId × EventBus Payload :=
  if !callable then (throw (.invalidArgument "subscriber handler must be callable"), s)
  else if s.running then
    (throw (.logicError "subscribers cannot be added while the bus is running"), s)
  else if s.subscriberCount ≥ config.maxSubscribers then
    (throw (.lengthError "maximum Yellowstone subscriber count reached"), s)
  else match s.slots.findIdx? Option.isNone with
    | none => (throw (.lengthError "maximum Yellowstone subscriber count reached"), s)
    | some id =>
      match Partition.construct config.partitionCapacity with
      | .error e => (throw e, s)
      | .ok partition => (pure id, { s with
          slots := s.slots.set id (some s.nextToken)
          subscriberCount := s.subscriberCount + 1
          objects := Function.update s.objects s.nextToken ⟨id, partition, [], []⟩
          nextToken := s.nextToken + 1 })

/-- `EventBus::m_subscriber`. -/
def subscriber (s : EventBus Payload) (id : SubscriberId) : Option Token := s.slots[id]?.join

/-- `EventBus::m_snapshot_subscribers`. -/
def snapshot (s : EventBus Payload) : List Token := s.slots.filterMap id

/-- The ids for which `start` registers a worker. -/
def occupied (s : EventBus Payload) : List SubscriberId :=
  (List.range s.slots.length).filter fun id => (s.subscriber id).isSome

/-- `EventBus::unsubscribe`. -/
def unsubscribe (s : EventBus Payload) (id : SubscriberId) : Except Exn Unit × EventBus Payload :=
  if s.running then
    (throw (.logicError "subscribers cannot be removed while the bus is running"), s)
  else match s.subscriber id with
    | none => (throw (.outOfRange "subscriber does not exist"), s)
    | some _ => (pure (), { s with
        slots := s.slots.set id none
        subscriberCount := s.subscriberCount - 1 })

/-- A call has its targets and draws its sequence. -/
def begin (s : EventBus Payload) (r : PublishRequest Payload) (targets : List Token) :
    EventBus Payload :=
  { s with
    sequence := (s.sequence + 1) % wordSize
    tickets := s.tickets + 1
    publishing := some {
      call := {
        caller := r.caller
        ticket := s.tickets
        target := r.target
        event := ⟨r.eventId, r.superstep, s.sequence, r.payload⟩
        targets := targets
        checks := []
        pushes := []
        result := ⟨0, 0⟩
        threw := false }
      unchecked := targets
      unpushed := targets } }

/-- `publish` or `publish_one` up to its sequence. -/
def publish (s : EventBus Payload) (r : PublishRequest Payload) : EventBus Payload :=
  match r.target with
  | none => s.begin r s.snapshot
  | some id =>
    match s.subscriber id with
    -- `m_subscriber` throws `out_of_range`
    | none => s
    | some t => s.begin r [t]

def finish (s : EventBus Payload) (call : BusCall Payload)
    (outcome : Except Exn PublishResult) : EventBus Payload :=
  { s with publishing := none, ended := s.ended ++ [(call, outcome)] }

def overflowText (target : Option SubscriberId) : String :=
  match target with
  | none => "one or more subscriber partitions are full"
  | some _ => "subscriber partition is full"

/-- The next `can_accept` of a call. -/
def check (s : EventBus Payload) (f : Frame Payload) : Option (EventBus Payload) :=
  match f.unchecked with
  | [] => none
  | t :: rest =>
    match exec (Partition.canAccept f.call.event) (s.objects t).partition with
    | (.error _, _) => none
    | (.ok true, _) => some { s with publishing := some { f with
        call := { f.call with checks := f.call.checks ++ [(t, true)] }
        unchecked := rest } }
    | (.ok false, _) => some (s.finish { f.call with checks := f.call.checks ++ [(t, false)] }
        (.error (.overflowError (overflowText f.call.target))))

/-- `m_index.contains(key)`. -/
def holds (p : Partition Payload) (event : Event Payload) : Bool :=
  (p.index.lookup event.key).isSome

def setPartition (s : EventBus Payload) (t : Token) (partition : Partition Payload) :
    EventBus Payload :=
  { s with objects := Function.update s.objects t { s.objects t with partition } }

def happened (s : EventBus Payload) (t : Token) (h : Happening Payload) : EventBus Payload :=
  let history := (s.objects t).history ++ [h]
  { s with objects := Function.update s.objects t { s.objects t with history } }

/-- A push of a call has returned. -/
def pushed (s : EventBus Payload) (f : Frame Payload) (t : Token) (rest : List Token)
    (held : Bool) (result : PushResult) : EventBus Payload :=
  let next := f.record t rest held result
  match result with
  | .inserted | .coalesced =>
    { s with publishing := some next }.happened t
      (.pushed f.call.caller f.call.ticket f.call.event)
  | .full =>
    match f.call.target with
    | none => s.finish next.call
        (.error (.logicError "partition capacity changed during serialized publish"))
    | some _ => { s with publishing := some next }

/-- The next `push` of a call, once every `can_accept` has answered. -/
def push (s : EventBus Payload) (f : Frame Payload) (copy : Option Exn)
    (fault : PushPoint → Option Exn) : Option (EventBus Payload) :=
  match f.unchecked, f.unpushed with
  | [], t :: rest =>
    match copy with
    | some e => some (s.finish { f.call with threw := true } (.error e))
    | none =>
      let before := (s.objects t).partition
      match exec (Partition.push config.merger fault f.call.event) before with
      | (.ok result, after) =>
        some ((s.setPartition t after).pushed f t rest (holds before f.call.event) result)
      | (.error (.thrown e), after) =>
        some ((s.setPartition t after).finish { f.call with threw := true } (.error e))
      | (.error .undefinedBehaviour, _) => none
  | _, _ => none

def publishReturn (s : EventBus Payload) (f : Frame Payload) : Option (EventBus Payload) :=
  match f.unchecked, f.unpushed with
  | [], [] => some (s.finish f.call (.ok f.call.result))
  | _, _ => none

def setConsumer (s : EventBus Payload) (id : SubscriberId) (c : Consumer Payload) :
    EventBus Payload :=
  { s with consumers := Function.update s.consumers id c }

/-- The workers have returned from their calls of `work`. -/
def quiescent (s : EventBus Payload) : Bool := s.workers.all fun id => (s.consumers id).isIdle

/-- `m_consume_one` up to the subscriber. -/
def work (s : EventBus Payload) (id : SubscriberId) : EventBus Payload :=
  match s.subscriber id with
  | none => s
  | some t => s.setConsumer id (.fetched t)

/-- `wait_pop_for`: the wait may end at any time, by its timeout. -/
def poll (s : EventBus Payload) (id : SubscriberId) (t : Token) : Option (EventBus Payload) :=
  match exec Partition.popLocked (s.objects t).partition with
  | (.ok none, after) => some ((s.setPartition t after).setConsumer id .idle)
  | (.ok (some event), after) =>
    some (((s.setPartition t after).happened t (.popped event)).setConsumer id (.holding t event))
  | (.error _, _) => none

def hand (s : EventBus Payload) (t : Token) (event : Event Payload) : EventBus Payload :=
  let handed := (s.objects t).handed ++ [event]
  { s with objects := Function.update s.objects t { s.objects t with handed } }

/-- The handler is called, and whatever it throws is reported. -/
def handle (s : EventBus Payload) (id : SubscriberId) (t : Token) (event : Event Payload) :
    EventBus Payload :=
  (s.hand t event).setConsumer id .idle

/-- No call holds the lifecycle mutex or the publish mutex. -/
def unlocked (s : EventBus Payload) : Prop := s.lifecycle = .idle ∧ s.publishing.isNone

instance (s : EventBus Payload) : Decidable s.unlocked :=
  inferInstanceAs (Decidable (_ ∧ _))

def step (s : EventBus Payload) : BusAction Payload → Option (EventBus Payload)
  | .subscribe callable => if s.unlocked then some (s.subscribe config callable).2 else none
  | .unsubscribe id => if s.unlocked then some (s.unsubscribe id).2 else none
  | .publish r => if s.publishing.isNone then some (s.publish r) else none
  | .check => s.publishing.bind s.check
  | .push copy fault => s.publishing.bind fun f => s.push config f copy fault
  | .publishReturn => s.publishing.bind s.publishReturn
  | .start =>
    if s.lifecycle ≠ .idle then none
    else if s.running then some s
    else some { s with running := true, lifecycle := .starting }
  | .register =>
    if s.lifecycle ≠ .starting then none
    else some { s with workers := s.occupied, lifecycle := .registered }
  | .startReturn => if s.lifecycle ≠ .registered then none else some { s with lifecycle := .idle }
  | .startThrow =>
    -- the manager waits for its workers before the handler of the exception runs
    if (s.lifecycle = .starting ∨ s.lifecycle = .registered) ∧ s.quiescent then
      some { s with running := false, workers := [], lifecycle := .idle }
    else none
  | .stop =>
    if s.lifecycle ≠ .idle then none
    else if s.running then some { s with running := false, lifecycle := .stopping }
    else some s
  | .stopReturn =>
    if s.lifecycle = .stopping ∧ s.quiescent then some { s with workers := [], lifecycle := .idle }
    else none
  | .work id =>
    if id ∈ s.workers ∧ (s.consumers id).isIdle then some (s.work id) else none
  | .look id =>
    match s.consumers id with
    | .fetched t => some (s.setConsumer id (if s.running then .polling t else .idle))
    | _ => none
  | .poll id =>
    match s.consumers id with
    | .polling t => s.poll id t
    | _ => none
  | .handle id =>
    match s.consumers id with
    | .holding t event => some (s.handle id t event)
    | _ => none

end EventBus

end Yellowstone
