import Mathlib.Order.Nat
import Yellowstone.Bus.EventBus

/-!
# Membership of an `EventBus`, and its workers

What each step can do, and the invariant that relates slots, tokens and workers: a worker
that is inside `m_consume_one` works for the subscriber in its own slot, since the
membership only changes while there are no workers.
-/

set_option autoImplicit false

namespace Yellowstone

open Machine Throwing

/-- The subscriber that a worker inside `m_consume_one` has fetched. -/
def Consumer.subscriber {Payload : Type} : Consumer Payload → Option Token
  | .idle => none
  | .fetched t | .polling t | .holding t _ => some t

namespace EventBus
variable {Payload : Type} {config : BusConfig Payload} {s s' : EventBus Payload}

section Steps

theorem step_subscribe {callable : Bool} : step config s (.subscribe callable) = some s' ↔
    s.unlocked ∧ s' = (s.subscribe config callable).2 := by
  simp [step, @eq_comm _ s']

theorem step_unsubscribe {id : SubscriberId} : step config s (.unsubscribe id) = some s' ↔
    s.unlocked ∧ s' = (s.unsubscribe id).2 := by
  simp [step, @eq_comm _ s']

theorem step_publish {r : PublishRequest Payload} : step config s (.publish r) = some s' ↔
    s.publishing = none ∧ s' = s.publish r := by
  simp [step, @eq_comm _ s']

theorem step_check : step config s .check = some s' ↔
    ∃ f, s.publishing = some f ∧ s.check f = some s' := by
  simp [step, Option.bind_eq_some_iff]

theorem step_push {copy : Option Exn} {fault : PushPoint → Option Exn} :
    step config s (.push copy fault) = some s' ↔
      ∃ f, s.publishing = some f ∧ s.push config f copy fault = some s' := by
  simp [step, Option.bind_eq_some_iff]

theorem step_publishReturn : step config s .publishReturn = some s' ↔
    ∃ f, s.publishing = some f ∧ s.publishReturn f = some s' := by
  simp [step, Option.bind_eq_some_iff]

theorem step_start : step config s .start = some s' ↔ s.lifecycle = .idle ∧
    ((s.running = true ∧ s' = s) ∨
      (s.running = false ∧ s' = { s with running := true, lifecycle := .starting })) := by
  cases hr : s.running <;> simp [step, hr, @eq_comm _ s']

theorem step_register : step config s .register = some s' ↔ s.lifecycle = .starting ∧
    s' = { s with workers := s.occupied, lifecycle := .registered } := by
  simp [step, @eq_comm _ s']

theorem step_startReturn : step config s .startReturn = some s' ↔ s.lifecycle = .registered ∧
    s' = { s with lifecycle := .idle } := by
  simp [step, @eq_comm _ s']

theorem step_startThrow : step config s .startThrow = some s' ↔
    (s.lifecycle = .starting ∨ s.lifecycle = .registered) ∧ s.quiescent = true ∧
      s' = { s with running := false, workers := [], lifecycle := .idle } := by
  simp [step, @eq_comm _ s', and_assoc]

theorem step_stop : step config s .stop = some s' ↔ s.lifecycle = .idle ∧
    ((s.running = true ∧ s' = { s with running := false, lifecycle := .stopping }) ∨
      (s.running = false ∧ s' = s)) := by
  cases hr : s.running <;> simp [step, hr, @eq_comm _ s']

theorem step_stopReturn : step config s .stopReturn = some s' ↔ s.lifecycle = .stopping ∧
    s.quiescent = true ∧ s' = { s with workers := [], lifecycle := .idle } := by
  simp [step, @eq_comm _ s', and_assoc]

theorem step_work {id : SubscriberId} : step config s (.work id) = some s' ↔ id ∈ s.workers ∧
    (s.consumers id).isIdle = true ∧ s' = s.work id := by
  simp [step, @eq_comm _ s', and_assoc]

theorem step_look {id : SubscriberId} : step config s (.look id) = some s' ↔
    ∃ t, s.consumers id = .fetched t ∧
      s' = s.setConsumer id (if s.running then .polling t else .idle) := by
  cases hc : s.consumers id <;> simp [step, hc, @eq_comm _ s']

theorem step_poll {id : SubscriberId} : step config s (.poll id) = some s' ↔
    ∃ t, s.consumers id = .polling t ∧ s.poll id t = some s' := by
  cases hc : s.consumers id <;> simp [step, hc]

theorem step_handle {id : SubscriberId} : step config s (.handle id) = some s' ↔
    ∃ t event, s.consumers id = .holding t event ∧ s' = s.handle id t event := by
  cases hc : s.consumers id <;> simp [step, hc, @eq_comm _ s']

end Steps

theorem subscribe_cases (config : BusConfig Payload) (s : EventBus Payload) (callable : Bool) :
    (s.subscribe config callable).2 = s ∨
      ∃ id partition, s.running = false ∧ s.subscriberCount < config.maxSubscribers ∧
        s.slots.findIdx? Option.isNone = some id ∧
        Partition.construct config.partitionCapacity = .ok partition ∧
        (s.subscribe config callable).2 = { s with
          slots := s.slots.set id (some s.nextToken)
          subscriberCount := s.subscriberCount + 1
          objects := Function.update s.objects s.nextToken ⟨id, partition, [], []⟩
          nextToken := s.nextToken + 1 } := by
  unfold subscribe
  split
  · exact .inl rfl
  split
  · exact .inl rfl
  split
  · exact .inl rfl
  split
  · exact .inl rfl
  split
  · exact .inl rfl
  rename_i stopped room _ id found _ partition built
  exact .inr ⟨id, partition, by simpa using stopped, not_le.mp room, found, built, rfl⟩

theorem unsubscribe_cases (s : EventBus Payload) (id : SubscriberId) :
    (s.unsubscribe id).2 = s ∨ s.running = false ∧ (∃ t, s.subscriber id = some t) ∧
      (s.unsubscribe id).2 = { s with
        slots := s.slots.set id none
        subscriberCount := s.subscriberCount - 1 } := by
  unfold unsubscribe
  split
  · exact .inl rfl
  split
  · exact .inl rfl
  rename_i stopped _ t found
  exact .inr ⟨by simpa using stopped, ⟨t, found⟩, rfl⟩

/-- The parts of a bus that the lifecycle and the workers read and write. -/
structure SameSeats (s s' : EventBus Payload) : Prop where
  slots : s'.slots = s.slots
  nextToken : s'.nextToken = s.nextToken
  running : s'.running = s.running
  lifecycle : s'.lifecycle = s.lifecycle
  workers : s'.workers = s.workers
  consumers : s'.consumers = s.consumers

/-- What a call of `publish` leaves alone: the seats, and who the subscribers are. -/
structure Undisturbed (s s' : EventBus Payload) : Prop extends SameSeats s s' where
  subscriberCount : s'.subscriberCount = s.subscriberCount
  id : ∀ t, (s'.objects t).id = (s.objects t).id

theorem Undisturbed.refl (s : EventBus Payload) : Undisturbed s s :=
  ⟨⟨rfl, rfl, rfl, rfl, rfl, rfl⟩, rfl, fun _ => rfl⟩

theorem Undisturbed.trans {s'' : EventBus Payload} (h : Undisturbed s s')
    (k : Undisturbed s' s'') : Undisturbed s s'' where
  slots := k.slots.trans h.slots
  nextToken := k.nextToken.trans h.nextToken
  running := k.running.trans h.running
  lifecycle := k.lifecycle.trans h.lifecycle
  workers := k.workers.trans h.workers
  consumers := k.consumers.trans h.consumers
  subscriberCount := k.subscriberCount.trans h.subscriberCount
  id := fun t => (k.id t).trans (h.id t)

/-- A subscriber object keeps its id whatever else of it is replaced. -/
theorem undisturbed_object (s : EventBus Payload) (t : Token) {object : Subscriber Payload}
    (id : object.id = (s.objects t).id) :
    Undisturbed s { s with objects := Function.update s.objects t object } := by
  refine ⟨⟨rfl, rfl, rfl, rfl, rfl, rfl⟩, rfl, fun u => ?_⟩
  by_cases here : u = t
  · subst here
    simpa using id
  · simp [here]

theorem undisturbed_setPartition (s : EventBus Payload) (t : Token) (p : Partition Payload) :
    Undisturbed s (s.setPartition t p) :=
  undisturbed_object s t rfl

theorem undisturbed_happened (s : EventBus Payload) (t : Token) (h : Happening Payload) :
    Undisturbed s (s.happened t h) :=
  undisturbed_object s t rfl

theorem undisturbed_finish (s : EventBus Payload) (call : BusCall Payload)
    (outcome : Except Exn PublishResult) : Undisturbed s (s.finish call outcome) :=
  ⟨⟨rfl, rfl, rfl, rfl, rfl, rfl⟩, rfl, fun _ => rfl⟩

theorem undisturbed_publish (s : EventBus Payload) (r : PublishRequest Payload) :
    Undisturbed s (s.publish r) := by
  unfold publish
  split
  · exact ⟨⟨rfl, rfl, rfl, rfl, rfl, rfl⟩, rfl, fun _ => rfl⟩
  · split
    · exact .refl s
    · exact ⟨⟨rfl, rfl, rfl, rfl, rfl, rfl⟩, rfl, fun _ => rfl⟩

theorem undisturbed_check {f : Frame Payload} (h : s.check f = some s') : Undisturbed s s' := by
  unfold check at h
  split at h
  · cases h
  split at h
  · cases h
  · cases h
    exact ⟨⟨rfl, rfl, rfl, rfl, rfl, rfl⟩, rfl, fun _ => rfl⟩
  · cases h
    exact undisturbed_finish ..

theorem undisturbed_pushed (s : EventBus Payload) (f : Frame Payload) (t : Token)
    (rest : List Token) (held : Bool) (result : PushResult) :
    Undisturbed s (s.pushed f t rest held result) := by
  have under : Undisturbed s { s with publishing := some (f.record t rest held result) } :=
    ⟨⟨rfl, rfl, rfl, rfl, rfl, rfl⟩, rfl, fun _ => rfl⟩
  unfold pushed
  cases result with
  | inserted => exact under.trans (undisturbed_happened ..)
  | coalesced => exact under.trans (undisturbed_happened ..)
  | full =>
    cases f.call.target with
    | none => exact undisturbed_finish ..
    | some id => exact under

theorem undisturbed_push {f : Frame Payload} {copy : Option Exn} {fault : PushPoint → Option Exn}
    (h : s.push config f copy fault = some s') : Undisturbed s s' := by
  unfold push at h
  split at h
  · split at h
    · cases h
      exact undisturbed_finish ..
    · dsimp only at h
      split at h
      · cases h
        exact (undisturbed_setPartition ..).trans (undisturbed_pushed ..)
      · cases h
        exact (undisturbed_setPartition ..).trans (undisturbed_finish ..)
      · cases h
  · cases h

theorem undisturbed_publishReturn {f : Frame Payload} (h : s.publishReturn f = some s') :
    Undisturbed s s' := by
  unfold publishReturn at h
  split at h
  · cases h
    exact undisturbed_finish ..
  · cases h

structure Seated (s : EventBus Payload) : Prop where
  distinct : ∀ i j t, s.subscriber i = some t → s.subscriber j = some t → i = j
  issued : ∀ i t, s.subscriber i = some t → t < s.nextToken
  placed : ∀ i t, (s.consumers i).subscriber = some t → s.subscriber i = some t
  employed : ∀ i, (s.consumers i).isIdle = false → i ∈ s.workers
  vacant : s.running = false → s.lifecycle = .idle → s.workers = []
  up : s.lifecycle = .starting ∨ s.lifecycle = .registered → s.running = true

theorem Seated.of_same (inv : Seated s) (same : SameSeats s s') : Seated s' := by
  obtain ⟨h₁, h₂, h₃, h₄, h₅, h₆⟩ := same
  obtain ⟨i₁, i₂, i₃, i₄, i₅, i₆⟩ := inv
  constructor <;> simpa only [subscriber, h₁, h₂, h₃, h₄, h₅, h₆]

theorem subscriber_set {id i : SubscriberId} {slot : Option Token} {t : Token}
    (h : (s.slots.set id slot)[i]?.join = some t) :
    (i = id ∧ slot = some t) ∨ (i ≠ id ∧ s.subscriber i = some t) := by
  rw [List.getElem?_set] at h
  split at h
  · rename_i same
    split at h
    · exact .inl ⟨same.symm, h⟩
    · cases h
  · rename_i other
    exact .inr ⟨fun same => other same.symm, h⟩

theorem Seated.idle (inv : Seated s) (quiet : s.quiescent = true) (i : SubscriberId) :
    (s.consumers i).isIdle = true := by
  by_contra busy
  have employed := inv.employed i (by simpa using busy)
  exact busy (List.all_eq_true.mp quiet i employed)

theorem subscriber_of_idle {c : Consumer Payload} (h : c.isIdle = true) : c.subscriber = none := by
  cases c <;> first | rfl | cases h

/-- Without workers the membership may change. -/
theorem Seated.all_idle (inv : Seated s) (stopped : s.running = false)
    (free : s.lifecycle = .idle) (i : SubscriberId) : (s.consumers i).subscriber = none := by
  apply subscriber_of_idle
  by_contra busy
  have employed := inv.employed i (by simpa using busy)
  simp [inv.vacant stopped free] at employed

theorem seated_subscribe (inv : Seated s) (free : s.lifecycle = .idle) (callable : Bool) :
    Seated (s.subscribe config callable).2 := by
  rcases subscribe_cases config s callable with same | ⟨id, p, stopped, -, -, -, same⟩
  · exact same.symm ▸ inv
  · rw [same]
    constructor
    case distinct =>
      intro i j t hi hj
      rcases subscriber_set hi with ⟨hid, ht⟩ | ⟨-, old⟩ <;>
        rcases subscriber_set hj with ⟨hjd, ht'⟩ | ⟨-, old'⟩
      · exact hid.trans hjd.symm
      · cases ht
        exact absurd (inv.issued j _ old') (lt_irrefl _)
      · cases ht'
        exact absurd (inv.issued i _ old) (lt_irrefl _)
      · exact inv.distinct i j t old old'
    case issued =>
      intro i t hi
      rcases subscriber_set hi with ⟨-, ht⟩ | ⟨-, hi⟩
      · cases ht
        exact Nat.lt_succ_self _
      · exact (inv.issued i t hi).trans (Nat.lt_succ_self _)
    case placed =>
      intro i t hi
      simp [inv.all_idle stopped free i] at hi
    case employed => exact inv.employed
    case vacant => exact inv.vacant
    case up => exact inv.up

theorem seated_unsubscribe (inv : Seated s) (free : s.lifecycle = .idle) (id : SubscriberId) :
    Seated (s.unsubscribe id).2 := by
  rcases unsubscribe_cases s id with same | ⟨stopped, -, same⟩
  · exact same.symm ▸ inv
  · rw [same]
    have kept : ∀ i t, (s.slots.set id none)[i]?.join = some t → s.subscriber i = some t :=
      fun i t hi => (subscriber_set hi).elim (fun h => nomatch h.2) And.right
    constructor
    case distinct => exact fun i j t hi hj => inv.distinct i j t (kept i t hi) (kept j t hj)
    case issued => exact fun i t hi => inv.issued i t (kept i t hi)
    case placed =>
      intro i t hi
      simp [inv.all_idle stopped free i] at hi
    case employed => exact inv.employed
    case vacant => exact inv.vacant
    case up => exact inv.up

theorem mem_occupied {i : SubscriberId} : i ∈ s.occupied ↔ ∃ t, s.subscriber i = some t := by
  simp only [occupied, List.mem_filter, List.mem_range, Option.isSome_iff_exists]
  refine ⟨And.right, fun h => ⟨?_, h⟩⟩
  obtain ⟨t, ht⟩ := h
  by_contra outside
  simp [subscriber, List.getElem?_eq_none (not_lt.mp outside)] at ht

/-- A worker moves on, staying with the subscriber of its slot. -/
theorem Seated.setConsumer (inv : Seated s) {id : SubscriberId} {c : Consumer Payload}
    (placed : ∀ t, c.subscriber = some t → s.subscriber id = some t)
    (employed : c.isIdle = false → id ∈ s.workers) : Seated (s.setConsumer id c) := by
  refine ⟨inv.distinct, inv.issued, ?_, ?_, inv.vacant, inv.up⟩
  · intro i t hi
    by_cases same : i = id
    · subst same
      exact placed t (by simpa [EventBus.setConsumer] using hi)
    · exact inv.placed i t (by simpa [EventBus.setConsumer, same] using hi)
  · intro i hi
    by_cases same : i = id
    · subst same
      exact employed (by simpa [EventBus.setConsumer] using hi)
    · exact inv.employed i (by simpa [EventBus.setConsumer, same] using hi)

theorem seated_step (inv : Seated s) {a : BusAction Payload} (h : step config s a = some s') :
    Seated s' := by
  cases a with
  | subscribe callable =>
    obtain ⟨⟨free, -⟩, rfl⟩ := step_subscribe.mp h
    exact seated_subscribe inv free callable
  | unsubscribe id =>
    obtain ⟨⟨free, -⟩, rfl⟩ := step_unsubscribe.mp h
    exact seated_unsubscribe inv free id
  | publish r =>
    obtain ⟨-, rfl⟩ := step_publish.mp h
    exact inv.of_same (undisturbed_publish s r).toSameSeats
  | check =>
    obtain ⟨f, -, hf⟩ := step_check.mp h
    exact inv.of_same (undisturbed_check hf).toSameSeats
  | push copy fault =>
    obtain ⟨f, -, hf⟩ := step_push.mp h
    exact inv.of_same (undisturbed_push hf).toSameSeats
  | publishReturn =>
    obtain ⟨f, -, hf⟩ := step_publishReturn.mp h
    exact inv.of_same (undisturbed_publishReturn hf).toSameSeats
  | start =>
    obtain ⟨-, ⟨-, rfl⟩ | ⟨-, rfl⟩⟩ := step_start.mp h
    · exact inv
    · exact ⟨inv.distinct, inv.issued, inv.placed, inv.employed, nofun, fun _ => rfl⟩
  | register =>
    obtain ⟨starting, rfl⟩ := step_register.mp h
    refine ⟨inv.distinct, inv.issued, inv.placed, ?_, nofun,
      fun _ => inv.up (.inl starting)⟩
    intro i hi
    have busy : ∃ t, (s.consumers i).subscriber = some t := by
      cases hc : s.consumers i <;> simp [hc, Consumer.isIdle, Consumer.subscriber] at hi ⊢
    obtain ⟨t, ht⟩ := busy
    exact mem_occupied.mpr ⟨t, inv.placed i t ht⟩
  | startReturn =>
    obtain ⟨registered, rfl⟩ := step_startReturn.mp h
    refine ⟨inv.distinct, inv.issued, inv.placed, inv.employed, ?_, nofun⟩
    intro stopped
    exact absurd (inv.up (.inr registered)) (by simp [show s.running = false from stopped])
  | startThrow =>
    obtain ⟨-, quiet, rfl⟩ := step_startThrow.mp h
    refine ⟨inv.distinct, inv.issued, inv.placed, ?_, fun _ _ => rfl, nofun⟩
    intro i hi
    exact absurd (inv.idle quiet i) (by simp [show (s.consumers i).isIdle = false from hi])
  | stop =>
    obtain ⟨-, ⟨-, rfl⟩ | ⟨-, rfl⟩⟩ := step_stop.mp h
    · exact ⟨inv.distinct, inv.issued, inv.placed, inv.employed, nofun, nofun⟩
    · exact inv
  | stopReturn =>
    obtain ⟨-, quiet, rfl⟩ := step_stopReturn.mp h
    refine ⟨inv.distinct, inv.issued, inv.placed, ?_, fun _ _ => rfl, nofun⟩
    intro i hi
    exact absurd (inv.idle quiet i) (by simp [show (s.consumers i).isIdle = false from hi])
  | work id =>
    obtain ⟨employed, -, rfl⟩ := step_work.mp h
    unfold work
    split
    · exact inv
    · rename_i t ht
      refine inv.setConsumer ?_ fun _ => employed
      intro u hu
      cases hu
      exact ht
  | look id =>
    obtain ⟨t, hc, rfl⟩ := step_look.mp h
    have placed := inv.placed id t (by simp [hc, Consumer.subscriber])
    have employed := inv.employed id (by simp [hc, Consumer.isIdle])
    refine inv.setConsumer ?_ fun _ => employed
    intro u hu
    split at hu
    · cases hu
      exact placed
    · cases hu
  | poll id =>
    obtain ⟨t, hc, hp⟩ := step_poll.mp h
    have placed := inv.placed id t (by simp [hc, Consumer.subscriber])
    have employed := inv.employed id (by simp [hc, Consumer.isIdle])
    unfold poll at hp
    split at hp
    · cases hp
      exact (inv.of_same (undisturbed_setPartition s ..).toSameSeats).setConsumer nofun nofun
    · rename_i event after _
      cases hp
      have popped : Seated ((s.setPartition t after).happened t (.popped event)) :=
        inv.of_same ⟨rfl, rfl, rfl, rfl, rfl, rfl⟩
      refine popped.setConsumer ?_ fun _ => employed
      intro u hu
      cases hu
      exact placed
    · cases hp
  | handle id =>
    obtain ⟨t, event, -, rfl⟩ := step_handle.mp h
    have handed : Seated (s.hand t event) := inv.of_same ⟨rfl, rfl, rfl, rfl, rfl, rfl⟩
    exact handed.setConsumer nofun nofun

theorem seated_initial : Seated (initial config) := by
  have empty : ∀ i, (initial config).subscriber i = none := by
    intro i
    simp only [subscriber, initial, List.getElem?_replicate]
    split <;> rfl
  exact ⟨fun i j t hi => by simp [empty] at hi, fun i t hi => by simp [empty] at hi, nofun, nofun,
    fun _ _ => rfl, nofun⟩

theorem seated_reachable (h : Reachable (step config) (initial config) s) : Seated s :=
  h.invariant seated_initial fun _ _ _ inv hstep => seated_step inv hstep

theorem Seated.snapshot_nodup (inv : Seated s) : s.snapshot.Nodup := by
  refine List.pairwise_filterMap.mpr (List.pairwise_iff_getElem.mpr ?_)
  intro i j hi hj before t ht u hu same
  refine before.ne (inv.distinct i j t ?_ ?_)
  · simpa [subscriber, List.getElem?_eq_getElem hi] using ht
  · simpa [subscriber, List.getElem?_eq_getElem hj, same] using hu

theorem Seated.snapshot_issued (inv : Seated s) : ∀ t ∈ s.snapshot, t < s.nextToken := by
  intro t ht
  obtain ⟨slot, hslot, rfl⟩ := List.mem_filterMap.mp ht
  obtain ⟨i, hi, same⟩ := List.mem_iff_getElem.mp hslot
  exact inv.issued i t (by simp [subscriber, List.getElem?_eq_getElem hi, same])

/-! ## Tokens are not given out again -/

/-- What one step does to the membership. -/
inductive Membership (s s' : EventBus Payload) : Prop
  | kept : s'.slots = s.slots → s'.nextToken = s.nextToken → Membership s s'
  | added (id : SubscriberId) : s.publishing = none → s.slots[id]? = some none →
    s'.slots = s.slots.set id (some s.nextToken) → s'.nextToken = s.nextToken + 1 →
    Membership s s'
  | removed (id : SubscriberId) : s.publishing = none → s'.slots = s.slots.set id none →
    s'.nextToken = s.nextToken → Membership s s'

theorem SameSeats.membership (same : SameSeats s s') : Membership s s' :=
  .kept same.slots same.nextToken

theorem step_membership {a : BusAction Payload} (h : step config s a = some s') :
    Membership s s' := by
  cases a with
  | subscribe callable =>
    obtain ⟨⟨-, free⟩, rfl⟩ := step_subscribe.mp h
    rcases subscribe_cases config s callable with same | ⟨id, p, -, -, found, -, same⟩
    · exact same.symm ▸ .kept rfl rfl
    · exact same.symm ▸ .added id (Option.isNone_iff_eq_none.mp free) (least_vacant found).1 rfl rfl
  | unsubscribe id =>
    obtain ⟨⟨-, free⟩, rfl⟩ := step_unsubscribe.mp h
    rcases unsubscribe_cases s id with same | ⟨-, -, same⟩
    · exact same.symm ▸ .kept rfl rfl
    · exact same.symm ▸ .removed id (Option.isNone_iff_eq_none.mp free) rfl rfl
  | publish r =>
    obtain ⟨-, rfl⟩ := step_publish.mp h
    exact (undisturbed_publish s r).membership
  | check =>
    obtain ⟨f, -, hf⟩ := step_check.mp h
    exact (undisturbed_check hf).membership
  | push copy fault =>
    obtain ⟨f, -, hf⟩ := step_push.mp h
    exact (undisturbed_push hf).membership
  | publishReturn =>
    obtain ⟨f, -, hf⟩ := step_publishReturn.mp h
    exact (undisturbed_publishReturn hf).membership
  | start =>
    obtain ⟨-, ⟨-, rfl⟩ | ⟨-, rfl⟩⟩ := step_start.mp h
    · exact .kept rfl rfl
    · exact .kept rfl rfl
  | register =>
    obtain ⟨-, rfl⟩ := step_register.mp h
    exact .kept rfl rfl
  | startReturn =>
    obtain ⟨-, rfl⟩ := step_startReturn.mp h
    exact .kept rfl rfl
  | startThrow =>
    obtain ⟨-, -, rfl⟩ := step_startThrow.mp h
    exact .kept rfl rfl
  | stop =>
    obtain ⟨-, ⟨-, rfl⟩ | ⟨-, rfl⟩⟩ := step_stop.mp h
    · exact .kept rfl rfl
    · exact .kept rfl rfl
  | stopReturn =>
    obtain ⟨-, -, rfl⟩ := step_stopReturn.mp h
    exact .kept rfl rfl
  | work id =>
    obtain ⟨-, -, rfl⟩ := step_work.mp h
    unfold work
    split <;> exact .kept rfl rfl
  | look id =>
    obtain ⟨t, -, rfl⟩ := step_look.mp h
    exact .kept rfl rfl
  | poll id =>
    obtain ⟨t, -, hp⟩ := step_poll.mp h
    unfold poll at hp
    split at hp <;> cases hp <;> exact .kept rfl rfl
  | handle id =>
    obtain ⟨t, event, -, rfl⟩ := step_handle.mp h
    exact .kept rfl rfl

/-- While a call is under way the membership stays as it is. -/
theorem Membership.subscriber_eq (moved : Membership s s') {f : Frame Payload}
    (hf : s.publishing = some f) (id : SubscriberId) : s'.subscriber id = s.subscriber id := by
  cases moved with
  | kept slots => rw [subscriber, slots, subscriber]
  | added id free => cases free.symm.trans hf
  | removed id free => cases free.symm.trans hf

/-- A token that was given out and names no subscriber any more. -/
structure Gone (s : EventBus Payload) (t : Token) : Prop where
  issued : t < s.nextToken
  absent : ∀ id, s.subscriber id ≠ some t

theorem Membership.gone (moved : Membership s s') {t : Token} (gone : Gone s t) : Gone s' t := by
  cases moved with
  | kept slots next =>
    refine ⟨next ▸ gone.issued, fun id named => gone.absent id ?_⟩
    rwa [subscriber, slots] at named
  | added id _ _ slots next =>
    refine ⟨by rw [next]; exact gone.issued.trans (Nat.lt_succ_self _), fun i named => ?_⟩
    rw [subscriber, slots] at named
    rcases subscriber_set named with ⟨-, new⟩ | ⟨-, old⟩
    · cases new
      exact lt_irrefl _ gone.issued
    · exact gone.absent i old
  | removed id _ slots next =>
    refine ⟨next ▸ gone.issued, fun i named => ?_⟩
    rw [subscriber, slots] at named
    rcases subscriber_set named with ⟨-, new⟩ | ⟨-, old⟩
    · cases new
    · exact gone.absent i old

/-- The subscription that an id names is still named by it, or gone for good. -/
theorem Membership.named_or_gone (moved : Membership s s') (seated : Seated s)
    {id : SubscriberId} {t : Token} (named : s.subscriber id = some t) :
    s'.subscriber id = some t ∨ Gone s' t := by
  cases moved with
  | kept slots =>
    rw [subscriber, slots]
    exact .inl named
  | added i _ vacant slots =>
    have other : i ≠ id := by
      rintro rfl
      simp [subscriber, vacant] at named
    refine .inl ?_
    rw [subscriber, slots, List.getElem?_set_ne other]
    exact named
  | removed i _ slots next =>
    by_cases other : i = id
    · subst other
      refine .inr ⟨next ▸ seated.issued _ _ named, fun j still => ?_⟩
      rw [subscriber, slots] at still
      rcases subscriber_set still with ⟨-, new⟩ | ⟨differs, old⟩
      · cases new
      · exact differs (seated.distinct _ _ _ old named)
    · refine .inl ?_
      rw [subscriber, slots, List.getElem?_set_ne other]
      exact named

theorem gone_later (later : Reachable (step config) s s') {t : Token} (gone : Gone s t) :
    Gone s' t :=
  later.invariant gone fun _ _ _ absent moves => (step_membership moves).gone absent

theorem named_or_gone_later (seated : Seated s) (later : Reachable (step config) s s')
    {id : SubscriberId} {t : Token} (named : s.subscriber id = some t) :
    s'.subscriber id = some t ∨ Gone s' t := by
  induction later with
  | start => exact .inl named
  | next r a r' further moves here =>
    have there : Seated r := further.invariant seated fun _ _ _ inv ha => seated_step inv ha
    have membership := step_membership moves
    exact here.elim (membership.named_or_gone there) fun gone => .inr (membership.gone gone)

end EventBus

end Yellowstone
