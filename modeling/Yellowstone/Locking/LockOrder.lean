import Yellowstone.Locking.NativeCalls

/-!
# The lock order of the calls

On the bus every call takes its mutexes upwards, whatever the payload's code does where it
runs. A rule that allows these waits therefore allows every wait of every call, but for the
lifecycle mutex, the workers, the scheduler's mutex, and what the payload's code waits for.
-/

set_option autoImplicit false

namespace Yellowstone

open LockProgram

namespace Mutex

/-- Everything in hand is below the mutex. -/
def Below (rank : Mutex → Nat) (held : List Mutex) (l : Mutex) : Prop :=
  ∀ h ∈ held, rank h < rank l

/-- The order of the mutexes of the bus. -/
structure Nested (rank : Mutex → Nat) : Prop where
  lifecycle : rank .lifecycle < rank .publish
  closing : rank .closing < rank .subscriber
  subscriber : rank .publish < rank .subscriber
  partition : ∀ t, rank .subscriber < rank (.partition t)

/-- A place where the code of a payload may run: not under the subscriber mutex, under the
mutex of a partition only together with the publish mutex, and otherwise under nothing that
may not be in hand when the publish mutex is taken. -/
structure Covered (rank : Mutex → Nat) (held : List Mutex) : Prop where
  subscriber : .subscriber ∉ held
  partition : ∀ t, .partition t ∈ held → .publish ∈ held
  below : ∀ h ∈ held, rank h < rank .publish ∨ h.ofBus = true ∨ h = .scheduler

theorem nested_rank (gilRank schedulerRank : Nat) : Nested (rank gilRank schedulerRank) := by
  constructor <;> simp [rank]

variable {rank : Mutex → Nat} {held : List Mutex} {l m : Mutex}

theorem below_nil (l : Mutex) : Below rank [] l := by simp [Below]

theorem Below.mono (below : Below rank held l) (lower : rank l ≤ rank m) : Below rank held m := by
  intro h hh
  exact Nat.lt_of_lt_of_le (below h hh) lower

theorem Below.push (below : Below rank held l) (lower : rank l < rank m) :
    Below rank (l :: held) m := by
  intro h hh
  rcases List.mem_cons.mp hh with rfl | hh
  · exact lower
  · exact below.mono lower.le h hh

section Nested
variable (nested : Nested rank)
include nested

theorem Below.subscriber (below : Below rank held .publish) : Below rank held .subscriber :=
  below.mono nested.subscriber.le

theorem Below.partition (below : Below rank held .subscriber) (t : Token) :
    Below rank held (.partition t) :=
  below.mono (nested.partition t).le

theorem Below.publishing (below : Below rank held .publish) (t : Token) :
    Below rank (.publish :: held) (.partition t) :=
  below.push (nested.subscriber.trans (nested.partition t))

/-- What may be in hand when the publish mutex is taken is no obstacle to a payload's code. -/
theorem Below.covered (below : Below rank held .publish) : Covered rank held where
  subscriber := by
    intro mem
    exact (nested.subscriber.trans (below _ mem)).false
  partition := by
    intro t mem
    exact ((nested.subscriber.trans (nested.partition t)).trans (below _ mem)).false.elim
  below := fun h mem => .inl (below h mem)

end Nested

theorem Covered.publish (covered : Covered rank held) : Covered rank (.publish :: held) where
  subscriber := by simpa using covered.subscriber
  partition := fun _ _ => List.mem_cons_self
  below := by
    intro h mem
    rcases List.mem_cons.mp mem with rfl | mem
    · exact .inr (.inl rfl)
    · exact covered.below h mem

theorem Covered.pushing (covered : Covered rank held) (publishing : .publish ∈ held) (t : Token) :
    Covered rank (.partition t :: held) where
  subscriber := by simpa using covered.subscriber
  partition := fun _ _ => List.mem_cons_of_mem _ publishing
  below := by
    intro h mem
    rcases List.mem_cons.mp mem with rfl | mem
    · exact .inr (.inl rfl)
    · exact covered.below h mem

theorem covered_scheduler : Covered rank [.scheduler] where
  subscriber := by simp
  partition := by simp
  below := by simp

end Mutex

open Mutex

variable {Payload α : Type}

/-- The rule allows the waits of the payload's code. -/
structure PayloadCode.Fits (code : PayloadCode Payload) (rank : Mutex → Nat)
    (rule : List Mutex → Mutex → Prop) : Prop where
  merging : ∀ held p, Covered rank held → (∀ held, p.Restores rule held) →
    (code.merging p).Restores rule held
  drop : ∀ thrown held, Covered rank held → code.drop.Keeps rule thrown held held

/-- The rule lets calls take the mutexes of the bus upwards. -/
structure LockOrder (rank : Mutex → Nat) (rule : List Mutex → Mutex → Prop) : Prop
    extends Nested rank where
  allows : ∀ held l, Below rank held l → l.ofBus = true → rule held l

theorem PayloadCode.Fits.plain (rank : Mutex → Nat) (rule : List Mutex → Mutex → Prop) :
    (PayloadCode.plain : PayloadCode Payload).Fits rank rule where
  merging := fun held _ _ keeps => keeps held
  drop := fun _ _ _ => rfl

namespace Native

section Accesses
variable {rule : List Mutex → Mutex → Prop} {held thrown : List Mutex}

theorem keeps_onBus (f : EventBus Payload → α × EventBus Payload) :
    (onBus f).Keeps rule thrown held held :=
  Keeps.atomically _

theorem keeps_onScheduler (f : Scheduler Payload → α × Scheduler Payload) :
    (onScheduler f).Keeps rule thrown held held :=
  Keeps.atomically _

theorem restores_handled {p : Call Payload α} (h : p.Restores rule held) :
    (handled p).Restores rule held := by
  apply h.attempt.bind
  intro _
  exact Keeps.pure

theorem restores_mayThrow : (mayThrow : Call Payload Unit).Restores rule held := by
  apply Keeps.bind (Keeps.ask _)
  intro e
  cases e with
  | none => exact Keeps.pure
  | some e => exact Keeps.raise

theorem restores_onPartition (t : Token) (x : PartitionProg Payload α) :
    (onPartition t x).Restores rule held := by
  apply Keeps.bind (keeps_onBus _)
  intro r
  rcases r with (e | _) | a
  · exact Keeps.raise
  · exact Keeps.raise
  · exact Keeps.pure

end Accesses

variable {config : BusConfig Payload} {code : PayloadCode Payload}
  {rank : Mutex → Nat} {rule : List Mutex → Mutex → Prop} {held : List Mutex}
  (order : LockOrder rank rule)
include order

theorem restores_membership {p : Call Payload α} (first : rule held .lifecycle)
    (below : Below rank held .lifecycle) (inner : ∀ held, p.Restores rule held) :
    (withLock .lifecycle <| withLock .publish <| withLock .subscriber p).Restores rule held := by
  have publish : Below rank (.lifecycle :: held) .publish := below.push order.lifecycle
  apply Keeps.withLock first
  apply Keeps.withLock (order.allows _ _ publish rfl)
  apply Keeps.withLock (order.allows _ _ (publish.push order.subscriber) rfl)
  exact inner _

theorem restores_subscribe (first : rule held .lifecycle) (below : Below rank held .lifecycle)
    (callable : Bool) : (subscribe config callable).Restores rule held := by
  unfold subscribe
  split
  · exact Keeps.raise
  · apply restores_membership order first below
    intro held
    exact (keeps_onBus _).bind Keeps.ofExcept

theorem restores_unsubscribe (first : rule held .lifecycle) (below : Below rank held .lifecycle)
    (id : SubscriberId) : (unsubscribe id : Call Payload Unit).Restores rule held := by
  apply restores_membership order first below
  intro held
  exact (keeps_onBus _).bind Keeps.ofExcept

theorem restores_subscriber (below : Below rank held .subscriber) (id : SubscriberId) :
    (subscriber id : Call Payload Token).Restores rule held := by
  apply Keeps.withLock (order.allows _ _ below rfl)
  apply Keeps.bind (Keeps.load _)
  intro t
  cases t with
  | none => exact Keeps.raise
  | some t => exact Keeps.pure

theorem restores_snapshotSubscribers (below : Below rank held .subscriber) :
    (snapshotSubscribers : Call Payload (List Token)).Restores rule held := by
  apply Keeps.withLock (order.allows _ _ below rfl)
  apply restores_mayThrow.bind
  intro _
  exact Keeps.load _

theorem restores_partition {t : Token} (below : Below rank held (.partition t)) {p : Call Payload α}
    (inner : p.Restores rule (.partition t :: held)) :
    (withLock (.partition t) p).Restores rule held :=
  Keeps.withLock (order.allows _ _ below rfl) inner

theorem restores_checkAll (below : ∀ t, Below rank held (.partition t)) (event : Event Payload)
    (targets : List Token) : (checkAll event targets).Restores rule held := by
  induction targets with
  | nil => exact Keeps.pure
  | cons t rest ih =>
    apply (restores_partition order (below t) (restores_onPartition t _)).bind
    intro accepted
    cases accepted with
    | false => exact Keeps.raise
    | true => exact ih

theorem restores_waitPopFor {t : Token} (below : Below rank held (.partition t)) :
    (waitPopFor t : Call Payload _).Restores rule held := by
  apply restores_partition order below
  apply Keeps.bind (Keeps.ask _)
  intro wakeups
  apply (Keeps.conditionWait (order.allows _ _ below rfl) wakeups).bind
  intro _
  exact restores_onPartition _ _

theorem restores_subscriberCount (below : Below rank held .subscriber) :
    (subscriberCount : Call Payload Nat).Restores rule held :=
  Keeps.withLock (order.allows _ _ below rfl) (Keeps.load _)

theorem restores_pending (below : Below rank held .subscriber) (id : SubscriberId) :
    (pending id : Call Payload Nat).Restores rule held := by
  apply (restores_subscriber order below id).bind
  intro t
  exact restores_partition order (below.partition order.toNested t) (Keeps.load _)

omit order in
theorem restores_pendingEvents (lockable : rule held .scheduler) :
    (pendingEvents : Call Payload Nat).Restores rule held :=
  Keeps.withLock lockable (Keeps.load _)

section Lifecycle
variable (first : rule [] .lifecycle) (second : rule [.lifecycle] .closing)
  (workers : ∀ id, rule [.closing, .lifecycle] (.working id))
include first second workers

omit order first second in
theorem keeps_shutDown {thrown : List Mutex} : (shutDown : Call Payload Unit).Keeps rule thrown
    [.closing, .lifecycle] [.closing, .lifecycle] := by
  apply (Keeps.load _).bind
  intro ids
  have awaited : (awaitAll (ids.map Mutex.working) : Call Payload Unit).Keeps rule thrown
      [.closing, .lifecycle] [.closing, .lifecycle] := by
    apply Keeps.awaitAll
    intro l hl
    obtain ⟨id, _, rfl⟩ := List.mem_map.mp hl
    exact workers id
  apply awaited.bind
  intro _
  exact keeps_onBus _

theorem restores_start : (start : Call Payload Unit).Restores rule [] := by
  apply Keeps.withLock first
  apply (Keeps.load _).bind
  intro running
  split
  · exact Keeps.pure
  · have low : Below rank [.lifecycle] .subscriber :=
      (below_nil _).push (order.lifecycle.trans order.subscriber)
    have frozen : (withLock .subscriber do
        mayThrow
        onBus fun s => (s.occupied, { s with running := true }) :
        Call Payload (List SubscriberId)).Restores rule [.lifecycle] := by
      apply Keeps.withLock (order.allows _ _ low rfl)
      apply restores_mayThrow.bind
      intro _
      exact keeps_onBus _
    apply frozen.bind
    intro ids
    apply (Keeps.ask _).bind
    intro startup
    rcases startup with _ | ⟨registered, e⟩
    · exact keeps_onBus _
    · have waited : (withLock .closing do
          onBus fun s => ((), { s with workers := if registered then ids else [] })
          shutDown : Call Payload Unit).Restores rule [.lifecycle] := by
        apply Keeps.withLock second
        apply (keeps_onBus _).bind
        intro _
        exact keeps_shutDown workers
      apply waited.bind
      intro _
      apply (keeps_onBus _).bind
      intro _
      exact Keeps.raise

theorem restores_stop : (stop : Call Payload Unit).Restores rule [] := by
  apply Keeps.withLock first
  apply (keeps_onBus _).bind
  intro running
  split
  · have low : Below rank [.closing, .lifecycle] .subscriber := by
      simpa [Below] using ⟨order.closing, order.lifecycle.trans order.subscriber⟩
    apply Keeps.withLock second
    apply (Keeps.withLock (order.allows _ _ low rfl) (Keeps.load _)).bind
    intro _
    exact keeps_shutDown workers
  · exact Keeps.pure

end Lifecycle

/-- The payload's code runs here only where the popped event dies. -/
theorem restores_consumeOne (dies : code.drop.Restores rule held)
    (below : Below rank held .publish) {handler : SubscriberId → Event Payload → Call Payload Unit}
    (handlers : ∀ id event, (handler id event).Restores rule held) (id : SubscriberId) :
    (consumeOne code handler id).Restores rule held := by
  have low : Below rank held .subscriber := below.subscriber order.toNested
  apply (restores_subscriber order low id).attempt.bind
  intro found
  rcases found with e | t
  · exact Keeps.pure
  · apply (Keeps.load _).bind
    intro running
    split
    · apply (restores_waitPopFor order (low.partition order.toNested t)).bind
      intro popped
      rcases popped with _ | event
      · exact Keeps.pure
      · exact (restores_handled (handlers id event)).ensuring dies
    · exact Keeps.pure

section PayloadCode
variable (fits : code.Fits rank rule)
include fits

theorem restores_push (covered : Covered rank held) (publishing : .publish ∈ held) {t : Token}
    (below : Below rank held (.partition t)) (event : Event Payload) :
    (push config code t event).Restores rule held := by
  apply restores_mayThrow.bind
  intro _
  refine Keeps.ensuring ?_ (fits.drop _ _ covered)
  apply restores_partition order below
  apply (Keeps.load _).bind
  intro stored
  apply (Keeps.ask _).bind
  intro fault
  split
  · apply fits.merging _ _ (covered.pushing publishing t)
    intro held
    exact restores_onPartition t _
  · exact restores_onPartition t _

theorem restores_pushAll (covered : Covered rank held) (publishing : .publish ∈ held)
    (below : ∀ t, Below rank held (.partition t)) (event : Event Payload) (targets : List Token)
    (result : PublishResult) : (pushAll config code event targets result).Restores rule held := by
  induction targets generalizing result with
  | nil => exact Keeps.pure
  | cons t rest ih =>
    apply (restores_push order fits covered publishing (below t) event).bind
    intro status
    cases status with
    | full => exact Keeps.raise
    | inserted | coalesced => exact ih _

theorem restores_publish (below : Below rank held .publish) (eventId : EventId)
    (payload : Payload) (superstep : Superstep) :
    (publish config code eventId payload superstep).Restores rule held := by
  have covered := below.covered order.toNested
  have higher := below.publishing order.toNested
  refine Keeps.ensuring ?_ (fits.drop _ _ covered)
  apply Keeps.withLock (order.allows _ _ below rfl)
  apply (restores_snapshotSubscribers order (below.push order.subscriber)).bind
  intro subscribers
  apply (keeps_onBus _).bind
  intro sequence
  refine Keeps.ensuring ?_ (fits.drop _ _ covered.publish)
  apply (restores_checkAll order higher _ subscribers).bind
  intro _
  exact restores_pushAll order fits covered.publish List.mem_cons_self higher _ _ _

theorem restores_publishOne (below : Below rank held .publish) (id : SubscriberId)
    (eventId : EventId) (payload : Payload) (superstep : Superstep) :
    (publishOne config code id eventId payload superstep).Restores rule held := by
  have covered := below.covered order.toNested
  have higher := below.publishing order.toNested
  refine Keeps.ensuring ?_ (fits.drop _ _ covered)
  apply Keeps.withLock (order.allows _ _ below rfl)
  apply (restores_subscriber order (below.push order.subscriber) id).bind
  intro t
  apply (keeps_onBus _).bind
  intro sequence
  refine Keeps.ensuring ?_ (fits.drop _ _ covered.publish)
  apply (restores_partition order (higher t) (restores_onPartition t _)).bind
  intro accepted
  split
  · apply (restores_push order fits covered.publish List.mem_cons_self (higher t) _).bind
    intro status
    exact Keeps.pure
  · exact Keeps.raise

omit order in
theorem restores_schedule (nested : Nested rank) (lockable : rule held .scheduler)
    (below : Below rank held .publish) (request : Request Payload) :
    (schedule code request).Restores rule held := by
  refine Keeps.ensuring ?_ (fits.drop _ _ (below.covered nested))
  apply Keeps.withLock lockable
  apply (Keeps.load _).bind
  intro accepting
  split
  · exact keeps_onScheduler _
  · exact Keeps.raise

theorem restores_forward (due : ScheduledItem Payload) :
    (forward config code due).Restores rule [] := by
  unfold forward
  split
  · exact restores_publishOne order fits (below_nil _) ..
  · exact restores_publish order fits (below_nil _) ..

variable {report : Call Payload Unit} (reports : report.Keeps rule [] [] [])
  (lockable : rule [] .scheduler)
include reports lockable

omit order in
theorem keeps_settle (due : ScheduledItem Payload) (outcome : Except Exn PublishResult) :
    (settle code report due outcome).Keeps rule [] [.scheduler] [] := by
  have dies : (do lock .scheduler; code.drop : Call Payload Unit).Keeps rule
      [] [.scheduler] [] := by
    apply (Keeps.lock lockable).bind
    intro _
    exact fits.drop _ _ covered_scheduler
  rcases outcome with e | result
  · cases e with
    | overflowError what =>
      apply (Keeps.lock lockable).bind
      intro _
      apply (keeps_onScheduler _).bind
      intro _
      apply (Keeps.ask _).bind
      intro wakeups
      exact Keeps.conditionWait lockable wakeups
    | _ =>
      apply (keeps_onScheduler _).bind
      intro _
      apply reports.bind
      intro _
      exact dies
  · apply (keeps_onScheduler _).bind
    intro _
    exact dies

theorem restores_runTurn : (runTurn config code report).Restores rule [] := by
  apply (Keeps.lock lockable).bind
  intro _
  apply (Keeps.ask _).bind
  intro elapsed
  apply (keeps_onScheduler _).bind
  intro due
  cases due with
  | none => exact Keeps.unlock
  | some due =>
    apply Keeps.unlock.bind
    intro _
    apply (restores_forward order fits due).attempt.bind
    intro outcome
    apply (keeps_settle fits reports lockable due outcome).bind
    intro _
    exact Keeps.unlock

end PayloadCode

end Native
end Yellowstone
