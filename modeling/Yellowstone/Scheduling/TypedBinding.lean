import Yellowstone.Bus.Payloads
import Yellowstone.Scheduling.Attribution
import Yellowstone.Scheduling.UnixDeadlines

/-!
# The payload type of the Python binding

`PythonEventBus` checks what is published, and what a merge callback returns, against its
payload type; `PythonScheduler` checks what is scheduled. Everything else that moves a payload
is the native bus and scheduler. Callbacks are functions of their arguments.
-/

set_option autoImplicit false

namespace Yellowstone

open Machine

/-- What a Python caller sees raised, and what a callback raises. -/
inductive PythonError where
  | typeError (what : String)
  /-- `error_already_set`. -/
  | raised (tag : Nat)
  | native (e : Exn)
deriving DecidableEq, Repr

/-- The C++ exception that carries the error through the bus. -/
def PythonError.exn : PythonError → Exn
  | typeError _ => .user 0
  | raised tag => .user (tag + 1)
  | native e => e

/-- The `merge` argument of the constructor. -/
inductive MergeArgument (Object : Type) where
  | none
  | notCallable
  | callable (callback : Object → Object → Except PythonError Object)

/-- The constructor's arguments; `PyObject_IsInstance` answers for the payload type. -/
structure PythonTypes (Object : Type) where
  isType : Bool
  isInstance : Object → Except PythonError Bool
  merge : MergeArgument Object

namespace PythonTypes
variable {Object : Type} (types : PythonTypes Object)

/-- `m_hold_payload_type`. -/
def holdPayloadType : Except PythonError Unit :=
  if types.isType then .ok () else .error (.typeError "payload_type must be a Python type")

/-- The merger that `m_make_merger` returns for a callback. -/
def merging (callback : Object → Object → Except PythonError Object) : Merger Object :=
  fun current incoming =>
    match callback current incoming with
    | .error e => (current, some e.exn)
    | .ok result =>
      match types.isInstance result with
      | .error e => (current, some e.exn)
      | .ok false => (current, some (PythonError.exn
          (.typeError "merge returned a value incompatible with payload_type")))
      | .ok true => (result, none)

/-- `m_make_merger`. -/
def makeMerger : Except PythonError (Option (Merger Object)) :=
  match types.merge with
  | .none => .ok none
  | .notCallable => .error (.typeError "merge must be callable or None")
  | .callable callback => .ok (some (types.merging callback))

/-- `m_validate_payload`. -/
def validatePayload (payload : Object) : Except PythonError Unit :=
  match types.isInstance payload with
  | .error e => .error e
  | .ok false => .error
      (.typeError "event payload is incompatible with this EventBus payload_type")
  | .ok true => .ok ()

/-- `PythonEventBus::PythonEventBus`. -/
def construct (maxSubscribers capacity : Nat) : Except PythonError (BusConfig Object) :=
  match types.holdPayloadType, types.makeMerger with
  | .error e, _ => .error e
  | _, .error e => .error e
  | .ok (), .ok merger =>
    match BusConfig.construct maxSubscribers capacity merger with
    | .error e => .error (.native e)
    | .ok config => .ok config

/-- An instance of the payload type. -/
def Compatible (payload : Object) : Prop := types.isInstance payload = .ok true

end PythonTypes

/-- The calls that pass a payload in, and everything else that happens. -/
inductive PythonAction (Object : Type) where
  /-- `publish`, or `publish_one` if there is a target. -/
  | publish (target : Option SubscriberId) (eventId : EventId) (payload : Object)
      (superstep : Superstep)
  /-- `schedule`, or `schedule_one` if there is a subscriber. -/
  | schedule (call : UnixCall Object)
  | system (a : ScheduledBusAction Object)

def ScheduledBusAction.passesPayload {Object : Type} : ScheduledBusAction Object → Bool
  | .schedule _ | .bus (.publish _) => true
  | _ => false

namespace PythonTypes
variable {Object : Type} (types : PythonTypes Object) (config : BusConfig Object) (tick : Nat)

/-- A call that raises changes nothing. -/
def step (s : ScheduledBus Object) : PythonAction Object → Option (ScheduledBus Object)
  | .publish target eventId payload superstep =>
    match types.validatePayload payload with
    | .error _ => some s
    | .ok () => s.step config (.bus (.publish ⟨none, target, eventId, payload, superstep⟩))
  | .schedule call =>
    match types.validatePayload call.payload, call.request tick with
    | .error _, _ | _, .error _ => some s
    | .ok (), .ok request => s.step config (.schedule request)
  | .system a => if a.passesPayload then none else s.step config a

variable {types config tick} {s s' : ScheduledBus Object} {now : TimePoint}

theorem compatible_of_valid {payload : Object} (h : types.validatePayload payload = .ok ()) :
    types.Compatible payload := by
  unfold validatePayload at h
  unfold Compatible
  split at h
  · cases h
  · cases h
  · assumption

/-- The merger keeps the stored object unless the callback returned an instance. -/
theorem keeps_merging (callback : Object → Object → Except PythonError Object) :
    (types.merging callback).Keeps types.Compatible := by
  intro current incoming hc hi
  unfold merging
  split
  · exact hc
  · split
    · exact hc
    · exact hc
    · assumption

theorem keeps_construct {maxSubscribers capacity : Nat}
    (built : types.construct maxSubscribers capacity = .ok config) :
    config.merger.Keeps types.Compatible := by
  unfold construct at built
  split at built
  · cases built
  · cases built
  · rename_i merger _ made
    split at built
    · cases built
    · rename_i _ native
      cases built
      unfold BusConfig.construct at native
      split at native
      · cases native
        unfold makeMerger at made
        split at made
        · cases made
          exact fun _ _ _ hi => hi
        · cases made
        · cases made
          exact keeps_merging _
      · cases native

/-- The bus and the scheduler hold instances of the payload type only. -/
structure Typed (types : PythonTypes Object) (s : ScheduledBus Object) : Prop where
  bus : s.bus.AllBear types.Compatible
  accepted : ∀ i ∈ s.scheduler.accepted, types.Compatible i.payload.1

theorem typed_schedule (inv : Typed types s) {r : Request Object}
    (hr : types.Compatible r.payload) :
    Typed types { s with
      scheduler := s.scheduler.schedule (r.numbered s.requested)
      requested := s.requested + 1 } := by
  refine ⟨inv.bus, fun i hi => ?_⟩
  unfold Scheduler.schedule at hi
  split at hi
  · rcases List.mem_append.mp hi with hi | hi
    · exact inv.accepted i hi
    · exact List.mem_singleton.mp hi ▸ hr
  · exact inv.accepted i hi

theorem accepted_settle (s : Scheduler (Numbered Object)) (due : ScheduledItem (Numbered Object))
    (outcome : PublishOutcome) : (s.settle due outcome).accepted = s.accepted := by
  cases outcome <;> rfl

/-- The item that the timing thread publishes is one that was accepted. -/
theorem accepted_of_publishing (balanced : s.scheduler.ledger.Balanced)
    {due : ScheduledItem (Numbered Object)} (publishing : s.scheduler.worker = .publishing due) :
    due ∈ s.scheduler.accepted := by
  apply balanced.conserved.mem_iff.mpr
  simp [Scheduler.ledger, publishing, Worker.inFlight]

theorem typed_native (keeps : config.merger.Keeps types.Compatible)
    (reached : Reachable (ScheduledBus.step config) (ScheduledBus.initial config now) s)
    (inv : Typed types s) {a : ScheduledBusAction Object}
    (scheduled : ∀ r, a = .schedule r → types.Compatible r.payload)
    (published : ∀ r, a = .bus (.publish r) → types.Compatible r.payload)
    (h : s.step config a = some s') : Typed types s' := by
  have seated := EventBus.seated_reachable (ScheduledBus.bus_reachable reached)
  have parts := ScheduledBus.scheduler_reachable reached
  cases a with
  | schedule r =>
    obtain ⟨scheduler, accepts, rfl⟩ := ScheduledBus.step_schedule.mp h
    obtain ⟨-, rfl⟩ := Scheduler.step_schedule.mp accepts
    exact typed_schedule inv (scheduled r rfl)
  | scheduler a =>
    obtain ⟨own, scheduler, moves, rfl⟩ := ScheduledBus.step_scheduler.mp h
    have same := (Scheduler.step_carries (Scheduler.noThread_reachable parts) own moves).1
    exact ⟨inv.bus, fun i hi => inv.accepted i (same ▸ hi)⟩
  | bus a =>
    obtain ⟨-, bus, moves, rfl⟩ := ScheduledBus.step_bus.mp h
    have bear := EventBus.bear_step keeps seated inv.bus
      (fun r label => published r (by rw [label])) moves
    rcases ScheduledBus.moved_cases s bus with ⟨-, -, same⟩ | ⟨-, same⟩
    · exact same ▸ ⟨bear, inv.accepted⟩
    · exact same ▸ ⟨bear, inv.accepted⟩
  | attempt =>
    obtain ⟨due, publishing, -, bus, moves, rfl⟩ := ScheduledBus.step_attempt.mp h
    have own := inv.accepted due
      (accepted_of_publishing (Scheduler.balanced_reachable parts) publishing)
    refine ⟨EventBus.bear_step keeps seated inv.bus (fun r label => ?_) moves, inv.accepted⟩
    cases label
    exact own
  | attemptThrow e =>
    obtain ⟨-, -, rfl⟩ := ScheduledBus.step_attemptThrow.mp h
    exact ⟨inv.bus, inv.accepted⟩
  | settle =>
    obtain ⟨outcome, -, scheduler, settles, rfl⟩ := ScheduledBus.step_settle.mp h
    obtain ⟨due, -, rfl⟩ := Scheduler.step_settle.mp settles
    exact ⟨inv.bus, fun i hi => inv.accepted i (accepted_settle s.scheduler due outcome ▸ hi)⟩

/-- A call that raises before it reaches the library does nothing; any other is a native call
with a payload that was checked. -/
theorem step_native {a : PythonAction Object} (h : types.step config tick s a = some s') :
    s' = s ∨ ∃ b, s.step config b = some s' ∧
      (∀ r, b = .schedule r → types.Compatible r.payload) ∧
      ∀ r, b = .bus (.publish r) → types.Compatible r.payload := by
  cases a with
  | publish target eventId payload superstep =>
    simp only [step] at h
    split at h
    · cases h
      exact .inl rfl
    · rename_i valid
      refine .inr ⟨_, h, nofun, fun r label => ?_⟩
      cases label
      exact compatible_of_valid valid
  | schedule call =>
    simp only [step] at h
    split at h
    · cases h
      exact .inl rfl
    · cases h
      exact .inl rfl
    · rename_i request valid accepted
      refine .inr ⟨_, h, fun r label => ?_, nofun⟩
      cases label
      have same : request.payload = call.payload := by
        unfold UnixCall.request at accepted
        split at accepted <;> cases accepted
        rfl
      exact same ▸ compatible_of_valid valid
  | system b =>
    obtain ⟨other, h⟩ := Option.ite_none_left_eq_some.mp h
    refine .inr ⟨b, h, fun r label => ?_, fun r label => ?_⟩
    · simp [label, ScheduledBusAction.passesPayload] at other
    · simp [label, ScheduledBusAction.passesPayload] at other

theorem native_reachable
    (reached : Reachable (types.step config tick) (ScheduledBus.initial config now) s) :
    Reachable (ScheduledBus.step config) (ScheduledBus.initial config now) s :=
  reached.project (f := id) fun r a r' moves => by
    rcases step_native moves with rfl | ⟨b, moves, -⟩
    · exact .refl _
    · exact .next (.refl _) moves

theorem typed_reachable (keeps : config.merger.Keeps types.Compatible)
    (reached : Reachable (types.step config tick) (ScheduledBus.initial config now) s) :
    Typed types s := by
  induction reached with
  | start => exact ⟨EventBus.bear_initial, nofun⟩
  | next r a r' reached moves inv =>
    rcases step_native moves with rfl | ⟨b, moves, scheduled, published⟩
    · exact inv
    · exact typed_native keeps (native_reachable reached) inv scheduled published moves

/-- Wherever an object is, it is an instance of the payload type. -/
structure TypeSafe (types : PythonTypes Object) (s : ScheduledBus Object) : Prop where
  pending : ∀ t, ∀ e ∈ (s.bus.objects t).partition.events, types.Compatible e.payload
  publishing : ∀ f, s.bus.publishing = some f → types.Compatible f.call.event.payload
  held : ∀ id t e, s.bus.consumers id = .holding t e → types.Compatible e.payload
  handed : ∀ t, ∀ e ∈ (s.bus.objects t).handed, types.Compatible e.payload
  scheduled : ∀ i ∈ s.scheduler.heap.values, types.Compatible i.payload.1
  inFlight : ∀ i, s.scheduler.worker.inFlight = some i → types.Compatible i.payload.1

/-- In every run of a bus and its scheduler that Python code drives. -/
theorem payloads_are_instances {maxSubscribers capacity : Nat}
    (built : types.construct maxSubscribers capacity = .ok config)
    (reached : Reachable (types.step config tick) (ScheduledBus.initial config now) s) :
    TypeSafe types s := by
  have typed := typed_reachable (keeps_construct built) reached
  have parts := ScheduledBus.scheduler_reachable (native_reachable reached)
  have conserved : s.scheduler.accepted.Perm (s.scheduler.heap.values ++
      (s.scheduler.worker.inFlight.toList ++ (s.scheduler.forwarded ++ s.scheduler.failed))) :=
    (Scheduler.balanced_reachable parts).conserved
  refine ⟨fun t e he => ?_, typed.bus.traffic.publishing, typed.bus.held, typed.bus.traffic.handed,
    fun i hi => ?_, fun i hi => ?_⟩
  · obtain ⟨position, entry⟩ := Partition.mem_events.mp he
    exact typed.bus.traffic.pending t (position, e) entry
  · exact typed.accepted i (conserved.mem_iff.mpr (by simp [hi]))
  · exact typed.accepted i (conserved.mem_iff.mpr (by simp [hi]))

/-- Numbers below 100; the callback adds. -/
def smallNumbers : PythonTypes Nat where
  isType := true
  isInstance := fun n => .ok (n < 100)
  merge := .callable fun current incoming => .ok (current + incoming)

def smallConfig : BusConfig Nat :=
  ⟨1, 2, smallNumbers.merging fun a b => .ok (a + b), Nat.zero_lt_two⟩

/-- The second publication of event 7 makes the merger throw, that of 200 is refused, and an
event is scheduled. -/
def sampleTyped : List (PythonAction Nat) :=
  [.system (.bus (.subscribe true)), .publish none 7 70 5, .system (.bus .check),
    .system (.bus (.push none fun _ => none)), .system (.bus .publishReturn),
    .publish none 7 50 5, .system (.bus .check), .system (.bus (.push none fun _ => none)),
    .publish none 8 200 5, .system (.scheduler (.start true)), .schedule ⟨none, 9, 30, 1000, 5⟩]

def sampleTypedBus : ScheduledBus Nat :=
  (run (smallNumbers.step smallConfig 1) (ScheduledBus.initial smallConfig 0) sampleTyped).getD
    (ScheduledBus.initial smallConfig 0)

theorem sampleTypedBus_typeSafe :
    TypeSafe smallNumbers sampleTypedBus ∧
      (sampleTypedBus.bus.objects 0).partition.events.map Event.payload = [70] ∧
      sampleTypedBus.scheduler.accepted.map (fun i => i.payload.1) = [30] := by
  have built : smallNumbers.construct 1 2 = .ok smallConfig := rfl
  have reached : Reachable (smallNumbers.step smallConfig 1) (ScheduledBus.initial smallConfig 0)
    sampleTypedBus := ⟨sampleTyped, rfl⟩
  exact ⟨payloads_are_instances built reached, by decide +kernel, by decide +kernel⟩

end PythonTypes

end Yellowstone
