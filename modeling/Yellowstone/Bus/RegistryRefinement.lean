import Mathlib.Data.List.Basic
import Yellowstone.Bus.EventBusMembership
import Yellowstone.Bus.Registry

/-!
# The event bus runs the registry

Every run of the bus, with its calls cut into steps and its traffic in between, is a sequence of
complete calls of the registry: a start counts when it returns and a stop when it begins.
-/

set_option autoImplicit false

namespace Yellowstone.EventBus

open Machine

section Views
variable {Payload : Type} {config : BusConfig Payload} {s s' : EventBus Payload}

/-- Running, and not in a call of `start`. -/
def settled (s : EventBus Payload) : Bool := s.running && s.lifecycle == .idle

/-- What the lifecycle calls have made of the registry. -/
def registry (s : EventBus Payload) : Registry Unit where
  slots := s.slots.map (Option.map fun t => ⟨(s.objects t).id, ()⟩)
  subscriberCount := s.subscriberCount
  running := s.settled
  manager := if s.settled then some ⟨s.workers.length, s.workers, true⟩ else none
  workers := if s.settled then s.workers else []

/-- The steps between lifecycle calls leave all of this alone. -/
structure SameRegistry (s s' : EventBus Payload) : Prop where
  slots : s'.slots = s.slots
  subscriberCount : s'.subscriberCount = s.subscriberCount
  running : s'.running = s.running
  lifecycle : s'.lifecycle = s.lifecycle
  workers : s'.workers = s.workers
  id : ∀ t, (s'.objects t).id = (s.objects t).id

theorem SameRegistry.refl (s : EventBus Payload) : SameRegistry s s :=
  ⟨rfl, rfl, rfl, rfl, rfl, fun _ => rfl⟩

theorem SameRegistry.trans {s'' : EventBus Payload} (h : SameRegistry s s')
    (k : SameRegistry s' s'') : SameRegistry s s'' :=
  ⟨k.slots.trans h.slots, k.subscriberCount.trans h.subscriberCount, k.running.trans h.running,
    k.lifecycle.trans h.lifecycle, k.workers.trans h.workers, fun t => (k.id t).trans (h.id t)⟩

theorem SameRegistry.settled_eq (same : SameRegistry s s') : s'.settled = s.settled := by
  rw [settled, settled, same.running, same.lifecycle]

theorem SameRegistry.registry_eq (same : SameRegistry s s') : s'.registry = s.registry := by
  simp only [registry, same.settled_eq, same.slots, same.subscriberCount, same.workers, same.id]

theorem Undisturbed.sameRegistry (same : Undisturbed s s') : SameRegistry s s' :=
  ⟨same.slots, same.subscriberCount, same.running, same.lifecycle, same.workers, same.id⟩

theorem sameRegistry_setConsumer (s : EventBus Payload) (id : SubscriberId)
    (c : Consumer Payload) : SameRegistry s (s.setConsumer id c) :=
  ⟨rfl, rfl, rfl, rfl, rfl, fun _ => rfl⟩

theorem sameRegistry_poll {id : SubscriberId} {t : Token} (h : s.poll id t = some s') :
    SameRegistry s s' := by
  unfold poll at h
  split at h
  · cases h
    exact (undisturbed_setPartition ..).sameRegistry.trans (sameRegistry_setConsumer ..)
  · rename_i event after _
    cases h
    have popped : Undisturbed s ((s.setPartition t after).happened t (.popped event)) :=
      (undisturbed_setPartition ..).trans (undisturbed_happened ..)
    exact popped.sameRegistry.trans (sameRegistry_setConsumer ..)
  · cases h

end Views

/-! ## The calls under the lifecycle mutex -/

section Refinement
variable {Payload : Type} {config : BusConfig Payload} {s s' : EventBus Payload}

/-- What a step is for the registry. -/
inductive RegistryStep (config : BusConfig Payload) (s s' : EventBus Payload) : Prop
  | none : SameRegistry s s' → RegistryStep config s s'
  | subscribed (id : SubscriberId) (partition : Partition Payload) :
    s.lifecycle = .idle → s.running = false → s.subscriberCount < config.maxSubscribers →
    s.slots.findIdx? Option.isNone = some id →
    s' = { s with
      slots := s.slots.set id (some s.nextToken)
      subscriberCount := s.subscriberCount + 1
      objects := Function.update s.objects s.nextToken ⟨id, partition, [], []⟩
      nextToken := s.nextToken + 1 } → RegistryStep config s s'
  | unsubscribed (id : SubscriberId) (t : Token) :
    s.lifecycle = .idle → s.running = false → s.subscriber id = some t →
    s' = { s with slots := s.slots.set id none, subscriberCount := s.subscriberCount - 1 } →
    RegistryStep config s s'
  | starting : s.running = false →
    s' = { s with running := true, lifecycle := .starting } → RegistryStep config s s'
  | registering : s.lifecycle = .starting →
    s' = { s with workers := s.occupied, lifecycle := .registered } → RegistryStep config s s'
  | started : s.lifecycle = .registered → s' = { s with lifecycle := .idle } →
    RegistryStep config s s'
  | startThrew : s.lifecycle = .starting ∨ s.lifecycle = .registered →
    s' = { s with running := false, workers := [], lifecycle := .idle } → RegistryStep config s s'
  | stopping : s.lifecycle = .idle → s.running = true →
    s' = { s with running := false, lifecycle := .stopping } → RegistryStep config s s'
  | stopped : s.lifecycle = .stopping → s' = { s with workers := [], lifecycle := .idle } →
    RegistryStep config s s'

theorem registryStep_of_step {a : BusAction Payload} (h : step config s a = some s') :
    RegistryStep config s s' := by
  cases a with
  | subscribe callable =>
    obtain ⟨⟨free, -⟩, rfl⟩ := step_subscribe.mp h
    rcases subscribe_cases config s callable with same | ⟨id, p, stopped, room, found, -, same⟩
    · exact same.symm ▸ .none (.refl s)
    · exact .subscribed id p free stopped room found same
  | unsubscribe id =>
    obtain ⟨⟨free, -⟩, rfl⟩ := step_unsubscribe.mp h
    rcases unsubscribe_cases s id with same | ⟨stopped, ⟨t, held⟩, same⟩
    · exact same.symm ▸ .none (.refl s)
    · exact .unsubscribed id t free stopped held same
  | publish r =>
    obtain ⟨-, rfl⟩ := step_publish.mp h
    exact .none (undisturbed_publish s r).sameRegistry
  | check =>
    obtain ⟨f, -, checked⟩ := step_check.mp h
    exact .none (undisturbed_check checked).sameRegistry
  | push copy fault =>
    obtain ⟨f, -, pushed⟩ := step_push.mp h
    exact .none (undisturbed_push pushed).sameRegistry
  | publishReturn =>
    obtain ⟨f, -, returned⟩ := step_publishReturn.mp h
    exact .none (undisturbed_publishReturn returned).sameRegistry
  | start =>
    obtain ⟨-, ⟨-, rfl⟩ | ⟨stopped, rfl⟩⟩ := step_start.mp h
    · exact .none (.refl _)
    · exact .starting stopped rfl
  | register =>
    obtain ⟨starting, rfl⟩ := step_register.mp h
    exact .registering starting rfl
  | startReturn =>
    obtain ⟨registered, rfl⟩ := step_startReturn.mp h
    exact .started registered rfl
  | startThrow =>
    obtain ⟨starting, -, rfl⟩ := step_startThrow.mp h
    exact .startThrew starting rfl
  | stop =>
    obtain ⟨free, ⟨running, rfl⟩ | ⟨-, rfl⟩⟩ := step_stop.mp h
    · exact .stopping free running rfl
    · exact .none (.refl _)
  | stopReturn =>
    obtain ⟨stopping, -, rfl⟩ := step_stopReturn.mp h
    exact .stopped stopping rfl
  | work id =>
    obtain ⟨-, -, rfl⟩ := step_work.mp h
    unfold work
    split
    · exact .none (.refl s)
    · exact .none (sameRegistry_setConsumer ..)
  | look id =>
    obtain ⟨t, -, rfl⟩ := step_look.mp h
    exact .none (sameRegistry_setConsumer ..)
  | poll id =>
    obtain ⟨t, -, polled⟩ := step_poll.mp h
    exact .none (sameRegistry_poll polled)
  | handle id =>
    obtain ⟨t, event, -, rfl⟩ := step_handle.mp h
    have handed : Undisturbed s (s.hand t event) := undisturbed_object s t rfl
    exact .none (handed.sameRegistry.trans (sameRegistry_setConsumer ..))

/-- A subscriber object has the id of its slot, and there is a worker for every slot in use. -/
structure Recorded (s : EventBus Payload) : Prop where
  named : ∀ i t, s.subscriber i = some t → (s.objects t).id = i
  mapped : s.lifecycle = .registered ∨ s.settled = true → s.workers = s.occupied
  down : s.lifecycle = .stopping → s.running = false

theorem recorded_initial : Recorded (initial config) := by
  refine ⟨fun i t held => ?_, by simp [initial, settled], by simp [initial]⟩
  simp only [subscriber, initial, List.getElem?_replicate] at held
  split at held <;> cases held

theorem recorded_step (seated : Seated s) (inv : Recorded s)
    (moved : RegistryStep config s s') : Recorded s' := by
  cases moved with
  | none same =>
    constructor
    · intro i t held
      rw [same.id]
      exact inv.named i t (by simpa only [subscriber, same.slots] using held)
    · intro up
      rw [same.lifecycle, same.settled_eq] at up
      simpa only [occupied, subscriber, same.slots, same.workers] using inv.mapped up
    · rw [same.lifecycle, same.running]
      exact inv.down
  | subscribed id partition free stopped _ _ result =>
    subst result
    refine ⟨fun i t held => ?_, by simp [free, settled, stopped], inv.down⟩
    rcases subscriber_set held with ⟨rfl, same⟩ | ⟨-, old⟩
    · obtain rfl := Option.some.inj same
      simp
    · have older := (seated.issued i t old).ne
      simpa [older] using inv.named i t old
  | unsubscribed id t free stopped _ result =>
    subst result
    refine ⟨fun i t held => ?_, by simp [free, settled, stopped], inv.down⟩
    rcases subscriber_set held with ⟨-, same⟩ | ⟨-, old⟩
    · cases same
    · exact inv.named i t old
  | starting _ result =>
    subst result
    exact ⟨inv.named, by simp [settled], by simp⟩
  | registering _ result =>
    subst result
    exact ⟨inv.named, fun _ => rfl, by simp⟩
  | started registered result =>
    subst result
    exact ⟨inv.named, fun _ => inv.mapped (.inl registered), by simp⟩
  | startThrew _ result =>
    subst result
    exact ⟨inv.named, by simp [settled], by simp⟩
  | stopping _ _ result =>
    subst result
    exact ⟨inv.named, by simp [settled], fun _ => rfl⟩
  | stopped stopping result =>
    subst result
    exact ⟨inv.named, by simp [settled, inv.down stopping], by simp⟩

/-! A lifecycle call of the registry, on what the bus has made of it. -/

theorem registry_slot (s : EventBus Payload) (i : SubscriberId) :
    s.registry.slots[i]? = s.slots[i]?.map (Option.map fun t => ⟨(s.objects t).id, ()⟩) :=
  List.getElem?_map ..

theorem registry_free (s : EventBus Payload) :
    s.registry.slots.findIdx? Option.isNone = s.slots.findIdx? Option.isNone := by
  rw [registry, List.findIdx?_map]
  congr 1
  funext slot
  cases slot <;> rfl

theorem registry_subscribed (seated : Seated s) (stopped : s.running = false) {id : SubscriberId}
    {partition : Partition Payload} :
    registry { s with
      slots := s.slots.set id (some s.nextToken)
      subscriberCount := s.subscriberCount + 1
      objects := Function.update s.objects s.nextToken ⟨id, partition, [], []⟩
      nextToken := s.nextToken + 1 } = s.registry.subscribed id () := by
  have others : s.slots.map (Option.map fun t => (⟨(Function.update s.objects s.nextToken
      ⟨id, partition, [], []⟩ t).id, ()⟩ : Subscription Unit)) =
      s.slots.map (Option.map fun t => ⟨(s.objects t).id, ()⟩) := by
    refine List.map_congr_left fun slot mem => ?_
    cases slot with
    | none => rfl
    | some t =>
      obtain ⟨i, inside, same⟩ := List.mem_iff_getElem.mp mem
      have older := (seated.issued i t (by simp [subscriber, inside, same])).ne
      simp [older]
  simp [registry, settled, stopped, Registry.subscribed, List.map_set, others]

theorem registry_unsubscribed (stopped : s.running = false) (id : SubscriberId) :
    registry { s with slots := s.slots.set id none, subscriberCount := s.subscriberCount - 1 } =
      s.registry.unsubscribed id := by
  simp [registry, settled, stopped, Registry.unsubscribed, List.map_set]

/-- The ids in the order of the slots, once from the slots and once from the subscribers. -/
theorem Recorded.subscriberIds (inv : Recorded s) : s.registry.subscriberIds = s.occupied := by
  have slots : s.slots = (List.range s.slots.length).map s.subscriber := by
    refine List.ext_getElem (by simp) fun i inside _ => ?_
    simp [subscriber, inside]
  have named : ∀ i, (s.subscriber i).map (fun t => (s.objects t).id) =
      Option.guard (fun i => (s.subscriber i).isSome) i := by
    intro i
    cases held : s.subscriber i with
    | none => simp [Option.guard, held]
    | some t => simp [Option.guard, held, inv.named i t held]
  calc
    s.registry.subscriberIds =
        s.slots.filterMap fun slot => slot.map fun t => (s.objects t).id := by
      simp [Registry.subscriberIds, Registry.snapshot, registry, List.filterMap_map,
        List.map_filterMap, Function.comp_def]
    _ = (List.range s.slots.length).filterMap
        (Option.guard fun i => (s.subscriber i).isSome) := by
      conv_lhs => rw [slots]
      rw [List.filterMap_map]
      exact List.filterMap_congr fun i _ => named i
    _ = s.occupied := congrFun List.filterMap_eq_filter _

/-- While a call of `start` or `stop` is under way, the registry shows the slots alone. -/
theorem registry_eq_of_unsettled (before : s.settled = false) (after : s'.settled = false)
    (slots : s'.slots = s.slots) (count : s'.subscriberCount = s.subscriberCount)
    (objects : s'.objects = s.objects) : s'.registry = s.registry := by
  simp [registry, before, after, slots, count, objects]

theorem registry_started (seated : Seated s) (inv : Recorded s)
    (registered : s.lifecycle = .registered) :
    registry { s with lifecycle := .idle } = s.registry.started := by
  have running := seated.up (.inr registered)
  have mapping : s.workers = s.registry.subscriberIds :=
    (inv.mapped (.inl registered)).trans inv.subscriberIds.symm
  have size : s.registry.snapshot.length = s.workers.length := by
    rw [mapping, Registry.subscriberIds, List.length_map]
  rw [Registry.started, size, ← mapping]
  simp [registry, settled, running]

/-- One step of the bus is no call of the registry or one. -/
theorem registry_step (seated : Seated s) (inv : Recorded s) (moved : RegistryStep config s s') :
    Reachable (Registry.step config.maxSubscribers) s.registry s'.registry := by
  have one : ∀ call, (Throwing.exec (Registry.perform config.maxSubscribers call) s.registry).2 =
      s'.registry → Reachable (Registry.step config.maxSubscribers) s.registry s'.registry :=
    fun call same => (Reachable.refl _).next (congrArg some same)
  have still : s'.registry = s.registry →
      Reachable (Registry.step config.maxSubscribers) s.registry s'.registry :=
    fun same => same ▸ .refl _
  cases moved with
  | none same => exact still same.registry_eq
  | subscribed id partition free stopped room found result =>
    subst result
    apply one (.subscribe (some ()) none)
    have admitted : ¬s.registry.Refused config.maxSubscribers (some ()) := by
      simpa [Registry.Refused, registry, settled, stopped] using room
    rw [registry_subscribed seated stopped]
    rcases Registry.subscribe_admitted admitted none with ⟨full, -⟩ | ⟨id', found', call⟩
    · cases (registry_free s ▸ full).symm.trans found
    · obtain rfl := Option.some.inj ((registry_free s ▸ found').symm.trans found)
      rw [Registry.perform, Throwing.exec_bind_of_ok call]
      rfl
  | unsubscribed id t free stopped held result =>
    subst result
    apply one (.unsubscribe id)
    rw [registry_unsubscribed stopped]
    have occupied : s.registry.slots[id]?.join = some ⟨(s.objects t).id, ()⟩ := by
      rw [registry_slot, Option.join_eq_some_iff.mp held]
      rfl
    have halted : s.registry.running = false := by simp [registry, settled, stopped]
    simp [Registry.perform, Registry.unsubscribe, Throwing.exec_bind, occupied, halted,
      Registry.unsubscribed]
  | starting stopped result =>
    subst result
    have unsettled : s.settled = false := by simp [settled, stopped]
    exact still (registry_eq_of_unsettled unsettled (by simp [settled]) rfl rfl rfl)
  | registering starting result =>
    subst result
    have unsettled : s.settled = false := by simp [settled, starting]
    exact still (registry_eq_of_unsettled unsettled (by simp [settled]) rfl rfl rfl)
  | started registered result =>
    subst result
    have stopped : s.registry.running = false := by simp [registry, settled, registered]
    apply one (.start fun _ => none)
    rw [Registry.perform, Registry.start_succeeds stopped, registry_started seated inv registered]
  | startThrew busy result =>
    subst result
    have unsettled : s.settled = false := by rcases busy with h | h <;> simp [settled, h]
    exact still (registry_eq_of_unsettled unsettled (by simp [settled]) rfl rfl rfl)
  | stopping free running result =>
    subst result
    apply one .stop
    rw [Registry.perform, Registry.exec_stop]
    simp [registry, settled, free, running]
  | stopped stopping result =>
    subst result
    have stopped := inv.down stopping
    exact still (registry_eq_of_unsettled (by simp [settled, stopped]) (by simp [settled, stopped])
      rfl rfl rfl)

theorem recorded_reachable (h : Reachable (step config) (initial config) s) : Recorded s := by
  induction h using Reachable.induct with
  | start => exact recorded_initial
  | next r a r' reached moves inv =>
    exact recorded_step (seated_reachable reached) inv (registryStep_of_step moves)

theorem registry_initial : (initial config).registry = Registry.initial config.maxSubscribers := by
  simp [registry, settled, initial, Registry.initial]

/-- Whatever publishes and workers do in between, the lifecycle calls run the registry. -/
theorem registry_reachable (h : Reachable (step config) (initial config) s) :
    Reachable (Registry.step config.maxSubscribers) (Registry.initial config.maxSubscribers)
      s.registry := by
  induction h using Reachable.induct with
  | start =>
    rw [registry_initial]
    exact .refl _
  | next r a r' reached moves ih =>
    exact ih.trans (registry_step (seated_reachable reached) (recorded_reachable reached)
      (registryStep_of_step moves))

/-- The registry's invariant, at every step of the bus. -/
theorem registry_inv (h : Reachable (step config) (initial config) s) :
    Registry.Inv config.maxSubscribers s.registry :=
  Registry.inv_reachable (registry_reachable h)

end Refinement

end Yellowstone.EventBus
