import Yellowstone.Bus.DeliveryOrder

/-!
# Who waits for whom in a partition

An event that waits in a partition is overtaken only by events of smaller supersteps, each
of which came later. With that, the number of steps a worker needs until it hands the event
over is known from what stands before it and from what comes with a smaller superstep.
-/

set_option autoImplicit false

namespace Yellowstone

open Machine Throwing

variable {Payload : Type}

namespace Subscriber

/-- The stamps of what left the partition and of what is still in it, in the order of service. -/
def queue (o : Subscriber Payload) : List (Superstep × Sequence) := o.served.map Event.stamp

/-- What one step does to the order of service. -/
inductive Serves (o o' : Subscriber Payload) : Prop
  | kept : o'.queue = o.queue → o.taken.length ≤ o'.taken.length → Serves o o'
  | arrived (event : Event Payload) : o'.taken = o.taken →
    o'.partition.events = StableQueue.enqueue Event.superstep event o.partition.events →
    Serves o o'

variable {o o' : Subscriber Payload}

theorem Serves.of_same (partition : o'.partition = o.partition) (taken : o'.taken = o.taken) :
    Serves o o' := by
  refine .kept ?_ (by rw [taken])
  rw [queue, served, partition, taken]
  rfl

theorem Serves.of_push {merger : Merger Payload} {fault : PushPoint → Option Exn}
    {event : Event Payload} {outcome : Except Failure PushResult}
    (levelled : Partition.Levelled o.partition.levels)
    (h : exec (Partition.push merger fault event) o.partition = (outcome, o'.partition))
    (taken : o'.taken = o.taken) : Partition.Levelled o'.partition.levels ∧ Serves o o' := by
  obtain ⟨levelled', stamps | events⟩ := Partition.push_stamps levelled h
  · refine ⟨levelled', .kept ?_ (by rw [taken])⟩
    rw [queue, queue, served, served, List.map_append, List.map_append, stamps, taken]
  · exact ⟨levelled', .arrived event taken events⟩

theorem Serves.of_pop {event : Event Payload} (levelled : Partition.Levelled o.partition.levels)
    (h : exec Partition.popLocked o.partition = (.ok (some event), o'.partition))
    (taken : o'.taken = o.taken ++ [event]) :
    Partition.Levelled o'.partition.levels ∧ Serves o o' := by
  obtain ⟨events, levelled'⟩ := Partition.popLocked_events levelled h
  refine ⟨levelled', .kept ?_ (by simp [taken])⟩
  simp [queue, served, taken, events]

/-- An event stands behind some others, and later behind others; once taken, its place is
fixed. -/
structure Moves (o o' : Subscriber Payload) (e : Superstep × Sequence)
    (front front' : List (Superstep × Sequence)) : Prop where
  place : ∃ behind, o'.queue = front' ++ e :: behind
  overtaken : StableQueue.Overtaken Prod.fst e o.queue o'.queue front front'
  taken : o.taken.length ≤ o'.taken.length
  fixed : front.length < o.taken.length → front' = front

theorem Moves.trans {o'' : Subscriber Payload} {e : Superstep × Sequence}
    {front front' front'' : List (Superstep × Sequence)} (h : Moves o o' e front front')
    (h' : Moves o' o'' e front' front'') : Moves o o'' e front front'' where
  place := h'.place
  overtaken := h.overtaken.trans h'.overtaken
  taken := h.taken.trans h'.taken
  fixed := by
    intro short
    have same := h.fixed short
    exact (h'.fixed (same ▸ short.trans_le h.taken)).trans same

theorem Serves.moves (h : Serves o o') (levelled : Partition.Levelled o.partition.levels)
    {e : Superstep × Sequence} {front behind : List (Superstep × Sequence)}
    (here : o.queue = front ++ e :: behind) : ∃ front', Moves o o' e front front' := by
  cases h with
  | kept same taken =>
    exact ⟨front, ⟨behind, same.trans here⟩, .same (by rw [same]), taken, fun _ => rfl⟩
  | arrived event taken events =>
    have sorted : StableQueue.Sorted Prod.fst (o.partition.events.map Event.stamp) :=
      List.pairwise_map.mpr levelled.sorted_events
    have before : o.queue = o.taken.map Event.stamp ++ o.partition.events.map Event.stamp :=
      List.map_append
    have after : o'.queue = o.taken.map Event.stamp ++
        StableQueue.enqueue Prod.fst event.stamp (o.partition.events.map Event.stamp) := by
      rw [queue, served, taken, events, List.map_append,
        StableQueue.map_enqueue Event.superstep Prod.fst Event.stamp fun _ => rfl]
    rw [before] at here
    obtain ⟨front', behind', place, overtaken, fixed⟩ := sorted.overtaken event.stamp here
    rw [← after, ← before] at overtaken
    rw [List.length_map] at fixed
    exact ⟨front', ⟨behind', after.trans place⟩, overtaken, (congrArg _ taken).ge, fixed⟩

end Subscriber

/-- How far a worker has come in `m_consume_one`. -/
def Consumer.phase : Consumer Payload → Nat
  | .idle => 0
  | .fetched _ => 1
  | .polling _ => 2
  | .holding _ _ => 3

namespace EventBus
variable {config : BusConfig Payload} {s s' : EventBus Payload} {a : BusAction Payload}

theorem serves_effect (levelled : ∀ t, Partition.Levelled (s.objects t).partition.levels)
    {c : Traffic Payload} (effect : Effect config s a c) (t : Token) :
    Partition.Levelled (c.objects t).partition.levels ∧
      (t < s.nextToken → (s.objects t).Serves (c.objects t)) := by
  have same : Partition.Levelled (s.objects t).partition.levels ∧
      (t < s.nextToken → (s.objects t).Serves (s.objects t)) :=
    ⟨levelled t, fun _ => .of_same rfl rfl⟩
  cases effect with
  | quiet | began | accepted | refused | copyThrew | returned => exact same
  | subscribed id partition free built =>
    by_cases new : t = s.nextToken
    · subst new
      have empty : partition.levels = [] := by
        unfold Partition.construct at built
        split at built <;> cases built
        rfl
      refine ⟨?_, fun issued => absurd issued (lt_irrefl _)⟩
      simp only [Function.update_self, empty]
      exact ⟨.nil, nofun⟩
    · simpa [new, traffic] using same
  | pushReturned f u rest fault result after _ _ _ _ h =>
    obtain ⟨others, partition, taken⟩ := pushed_objects (s := s) f u rest
      (holds (s.objects u).partition f.call.event) after result
    by_cases here : t = u
    · subst here
      exact (Subscriber.Serves.of_push (levelled t) (partition ▸ h) taken).imp_right fun h _ => h
    · rw [others t here]
      exact same
  | pushThrew f u rest fault e after _ _ _ _ h =>
    by_cases here : t = u
    · subst here
      have partition : ((s.setPartition t after).objects t).partition = after := by
        simp [setPartition]
      have taken : ((s.setPartition t after).objects t).taken = (s.objects t).taken := by
        simp [setPartition, Subscriber.taken]
      exact (Subscriber.Serves.of_push (levelled t) (partition ▸ h) taken).imp_right fun h _ => h
    · simpa [traffic, finish, setPartition, here] using same
  | popped id u event after _ h =>
    by_cases here : t = u
    · subst here
      have partition : (((s.setPartition t after).happened t (.popped event)).objects
          t).partition = after := by simp [happened, setPartition]
      have taken : (((s.setPartition t after).happened t (.popped event)).objects t).taken =
          (s.objects t).taken ++ [event] := by simp [happened, setPartition, Subscriber.taken]
      have pops := h.trans (congrArg (Prod.mk _) partition.symm)
      exact (Subscriber.Serves.of_pop (levelled t) pops taken).imp_right fun h _ => h
    · simpa [traffic, happened, setPartition, here] using same
  | handed id u event _ =>
    by_cases here : t = u
    · subst here
      have partition : ((s.hand t event).objects t).partition = (s.objects t).partition := by
        simp [hand]
      have taken : ((s.hand t event).objects t).taken = (s.objects t).taken := by
        simp [hand, Subscriber.taken]
      exact ⟨partition ▸ levelled t, fun _ => .of_same partition taken⟩
    · simpa [traffic, hand, here] using same

theorem levelled_reachable (reached : Reachable (step config) (initial config) s) (t : Token) :
    Partition.Levelled (s.objects t).partition.levels := by
  induction reached generalizing t with
  | start => exact ⟨.nil, nofun⟩
  | next r a r' reached moves ih =>
    exact (serves_effect ih (step_effect (seated_reachable reached) moves) t).1

theorem serves_step (reached : Reachable (step config) (initial config) s)
    (h : step config s a = some s') {t : Token} (issued : t < s.nextToken) :
    (s.objects t).Serves (s'.objects t) :=
  (serves_effect (levelled_reachable reached) (step_effect (seated_reachable reached) h) t).2 issued

theorem nextToken_le (h : step config s a = some s') : s.nextToken ≤ s'.nextToken := by
  cases step_membership h with
  | kept _ same => exact same.ge
  | added _ _ _ _ next => exact next ▸ Nat.le_succ _
  | removed _ _ _ same => exact same.ge

theorem nextToken_later (later : Reachable (step config) s s') : s.nextToken ≤ s'.nextToken := by
  induction later with
  | start => exact le_rfl
  | next r a r' _ moves ih => exact ih.trans (nextToken_le moves)

/-- In every run, whatever throws: what stands before an event is what stood there with its
superstep or a larger one, and events of smaller supersteps that came meanwhile. -/
theorem overtaken_by_smaller (reached : Reachable (step config) (initial config) s) {t : Token}
    (issued : t < s.nextToken) {e : Superstep × Sequence}
    {front behind : List (Superstep × Sequence)}
    (here : (s.objects t).queue = front ++ e :: behind) (later : Reachable (step config) s s') :
    ∃ front', (s.objects t).Moves (s'.objects t) e front front' := by
  induction later with
  | start => exact ⟨front, ⟨behind, here⟩, .same le_rfl, le_rfl, fun _ => rfl⟩
  | next r a r' later moves ih =>
    obtain ⟨front', moved⟩ := ih
    obtain ⟨behind', here'⟩ := moved.place
    have serves := serves_step (reached.trans later) moves (issued.trans_le (nextToken_later later))
    obtain ⟨front'', moved'⟩ := serves.moves (levelled_reachable (reached.trans later) t) here'
    exact ⟨front'', moved.trans moved'⟩

def roomyConfig : BusConfig Nat := ⟨1, 2, .ofFun (· + ·), by decide⟩

/-- An event of superstep 5 waits. -/
def sampleWait : List (BusAction Nat) :=
  [.subscribe true, .start, .register, .startReturn] ++ publishAll 1 ⟨none, none, 7, 70, 5⟩

/-- One of superstep 3 comes and is handed over first. -/
def samplePassing : List (BusAction Nat) :=
  publishAll 1 ⟨none, none, 8, 80, 3⟩ ++ consume 0 ++ consume 0

def sampleWaiting : EventBus Nat :=
  (run (step roomyConfig) (initial roomyConfig) sampleWait).getD (initial roomyConfig)

def samplePassed : EventBus Nat :=
  (run (step roomyConfig) sampleWaiting samplePassing).getD sampleWaiting

theorem sampleWaiting_overtaken :
    (∃ front', (sampleWaiting.objects 0).Moves (samplePassed.objects 0) (5, 0) [] front') ∧
      (samplePassed.objects 0).queue = [(3, 1), (5, 0)] := by
  have reached : Reachable (step roomyConfig) (initial roomyConfig) sampleWaiting :=
    ⟨sampleWait, rfl⟩
  have issued : 0 < sampleWaiting.nextToken := by decide +kernel
  have here : (sampleWaiting.objects 0).queue = [] ++ (5, 0) :: [] := by decide +kernel
  exact ⟨overtaken_by_smaller reached issued here ⟨samplePassing, rfl⟩, by decide +kernel⟩

/-! ## The worker gets there -/

/-- The steps that the worker of a subscriber takes. -/
def owns (id : SubscriberId) : BusAction Payload → Bool
  | .work i | .look i | .poll i | .handle i => i = id
  | _ => false

theorem push_valid (valid : ∀ t, (s.objects t).partition.Valid) {f : Frame Payload}
    {u : Token} {rest : List Token} {copy : Option Exn} {fault : PushPoint → Option Exn}
    (recovers : s.recovering config (.push copy fault) = true) (hf : s.publishing = some f)
    (unpushed : f.unpushed = u :: rest) {outcome : Except Failure PushResult}
    {after : Partition Payload} (h : exec (Partition.push config.merger fault f.call.event)
      (s.objects u).partition = (outcome, after)) : after.Valid := by
  exact Partition.valid_push (valid u) (recovers_of_push recovers hf unpushed) h

theorem valid_effect (recovers : s.recovering config a = true)
    (valid : ∀ t, (s.objects t).partition.Valid) {c : Traffic Payload}
    (effect : Effect config s a c) (t : Token) : (c.objects t).partition.Valid := by
  cases effect with
  | quiet | began | accepted | refused | copyThrew | returned => exact valid t
  | subscribed id partition free built =>
    by_cases new : t = s.nextToken
    · subst new
      simpa using (Partition.valid_construct built).1
    · simpa [new, traffic] using valid t
  | pushReturned f u rest fault result after label hf _ unpushed h =>
    obtain ⟨others, partition, -⟩ := pushed_objects (s := s) f u rest
      (holds (s.objects u).partition f.call.event) after result
    by_cases here : t = u
    · subst here
      rw [partition]
      exact push_valid valid (label ▸ recovers) hf unpushed h
    · exact others t here ▸ valid t
  | pushThrew f u rest fault e after label hf _ unpushed h =>
    by_cases here : t = u
    · subst here
      have after' := push_valid valid (label ▸ recovers) hf unpushed h
      simpa [traffic, finish, setPartition] using after'
    · simpa [traffic, finish, setPartition, here] using valid t
  | popped id u event after _ h =>
    by_cases here : t = u
    · subst here
      simpa [traffic, happened, setPartition] using Partition.valid_popLocked (valid t) h
    · simpa [traffic, happened, setPartition, here] using valid t
  | handed id u event _ =>
    by_cases here : t = u
    · subst here
      simpa [traffic, hand] using valid t
    · simpa [traffic, hand, here] using valid t

theorem valid_reachable
    (reached : Reachable (guarded (step config) (recovering config)) (initial config) s)
    (t : Token) : (s.objects t).partition.Valid := by
  induction reached generalizing t with
  | start => exact ⟨⟨.nil, nofun⟩, nofun, nofun, .nil, .nil, .nil, rfl, le_rfl⟩
  | next r a r' reached moves ih =>
    obtain ⟨recovers, moves⟩ := guarded_eq_some.mp moves
    exact valid_effect recovers ih (step_effect (seated_reachable reached.of_guarded) moves) t

/-- Every delivery takes a worker four steps. -/
def headway (s : EventBus Payload) (id : SubscriberId) (t : Token) : Nat :=
  4 * (s.objects t).handed.length + (s.consumers id).phase

/-- What other threads do leaves a worker and what it has handed over alone. -/
theorem bystander_step {id : SubscriberId} (h : step config s a = some s')
    (other : owns id a = false) : s'.consumers id = s.consumers id ∧ ∀ t, Seated s →
      s.subscriber id = some t → (s'.objects t).handed = (s.objects t).handed := by
  cases a with
  | subscribe callable =>
    obtain ⟨-, rfl⟩ := step_subscribe.mp h
    rcases subscribe_cases config s callable with same | ⟨i, p, -, -, -, -, same⟩
    · exact same.symm ▸ ⟨rfl, fun _ _ _ => rfl⟩
    · rw [same]
      refine ⟨rfl, fun t seated named => ?_⟩
      have old := (seated.issued id t named).ne
      simp [old]
  | unsubscribe i =>
    obtain ⟨-, rfl⟩ := step_unsubscribe.mp h
    rcases unsubscribe_cases s i with same | ⟨-, -, same⟩
    · exact same.symm ▸ ⟨rfl, fun _ _ _ => rfl⟩
    · exact same.symm ▸ ⟨rfl, fun _ _ _ => rfl⟩
  | publish r =>
    obtain ⟨-, rfl⟩ := step_publish.mp h
    refine ⟨congrFun (undisturbed_publish s r).consumers id, fun t _ _ => ?_⟩
    unfold publish
    split
    · rfl
    · split <;> rfl
  | check =>
    obtain ⟨f, -, hf⟩ := step_check.mp h
    refine ⟨congrFun (undisturbed_check hf).consumers id, fun t _ _ => ?_⟩
    unfold check at hf
    split at hf
    · cases hf
    split at hf <;> cases hf <;> rfl
  | push copy fault =>
    obtain ⟨f, -, hf⟩ := step_push.mp h
    exact ⟨congrFun (undisturbed_push hf).consumers id, fun t _ _ => (handed_push hf t).2⟩
  | publishReturn =>
    obtain ⟨f, -, hf⟩ := step_publishReturn.mp h
    refine ⟨congrFun (undisturbed_publishReturn hf).consumers id, fun t _ _ => ?_⟩
    unfold publishReturn at hf
    split at hf <;> cases hf
    rfl
  | start =>
    obtain ⟨-, ⟨-, rfl⟩ | ⟨-, rfl⟩⟩ := step_start.mp h
    · exact ⟨rfl, fun _ _ _ => rfl⟩
    · exact ⟨rfl, fun _ _ _ => rfl⟩
  | register =>
    obtain ⟨-, rfl⟩ := step_register.mp h
    exact ⟨rfl, fun _ _ _ => rfl⟩
  | startReturn =>
    obtain ⟨-, rfl⟩ := step_startReturn.mp h
    exact ⟨rfl, fun _ _ _ => rfl⟩
  | startThrow =>
    obtain ⟨-, -, rfl⟩ := step_startThrow.mp h
    exact ⟨rfl, fun _ _ _ => rfl⟩
  | stop =>
    obtain ⟨-, ⟨-, rfl⟩ | ⟨-, rfl⟩⟩ := step_stop.mp h
    · exact ⟨rfl, fun _ _ _ => rfl⟩
    · exact ⟨rfl, fun _ _ _ => rfl⟩
  | stopReturn =>
    obtain ⟨-, -, rfl⟩ := step_stopReturn.mp h
    exact ⟨rfl, fun _ _ _ => rfl⟩
  | work i =>
    have elsewhere : id ≠ i := fun same => by simp [owns, same] at other
    obtain ⟨-, -, rfl⟩ := step_work.mp h
    unfold work
    split
    · exact ⟨rfl, fun _ _ _ => rfl⟩
    · exact ⟨Function.update_of_ne elsewhere .., fun _ _ _ => rfl⟩
  | look i =>
    have elsewhere : id ≠ i := fun same => by simp [owns, same] at other
    obtain ⟨u, -, rfl⟩ := step_look.mp h
    exact ⟨Function.update_of_ne elsewhere .., fun _ _ _ => rfl⟩
  | poll i =>
    have elsewhere : id ≠ i := fun same => by simp [owns, same] at other
    obtain ⟨u, -, hp⟩ := step_poll.mp h
    unfold poll at hp
    split at hp
    · cases hp
      refine ⟨Function.update_of_ne elsewhere .., fun t _ _ => ?_⟩
      by_cases here : t = u <;> simp [setConsumer, setPartition, here]
    · cases hp
      refine ⟨Function.update_of_ne elsewhere .., fun t _ _ => ?_⟩
      by_cases here : t = u <;> simp [setConsumer, happened, setPartition, here]
    · cases hp
  | handle i =>
    have elsewhere : id ≠ i := fun same => by simp [owns, same] at other
    obtain ⟨u, event, hc, rfl⟩ := step_handle.mp h
    refine ⟨Function.update_of_ne elsewhere .., fun t seated named => ?_⟩
    have theirs : s.subscriber i = some u := seated.placed i u (by simp [hc, Consumer.subscriber])
    have apart : t ≠ u := fun same => elsewhere (seated.distinct id i t named (same ▸ theirs))
    simp [handle, hand, setConsumer, apart]

/-- A worker about to pop has handed over what it took before. -/
theorem taken_of_polling (seated : Seated s) {id : SubscriberId} {t : Token} (handed : s.Handed t)
    (hc : s.consumers id = .polling t) : (s.objects t).taken = (s.objects t).handed := by
  rcases handed with ⟨-, all⟩ | ⟨i, event, holds, -⟩
  · exact all
  · obtain rfl : i = id := seated.unique holds.fetched (by simp [hc, Consumer.subscriber])
    cases hc.symm.trans holds

/-- While the bus runs and something is to be handed over, every step of the worker counts. -/
theorem own_step
    (reached : Reachable (guarded (step config) (recovering config)) (initial config) s)
    (running : s.running = true) {id : SubscriberId} {t : Token} (named : s.subscriber id = some t)
    (due : (s.objects t).handed.length < (s.objects t).queue.length)
    (h : step config s a = some s') (own : owns id a = true) :
    s'.headway id t = s.headway id t + 1 := by
  have seated := seated_reachable reached.of_guarded
  have fetched : ∀ u, (s.consumers id).subscriber = some u → u = t := fun u hu =>
    Option.some.inj ((seated.placed id u hu).symm.trans named)
  cases a with
  | work i =>
    obtain rfl : i = id := of_decide_eq_true own
    obtain ⟨-, idle, rfl⟩ := step_work.mp h
    have hc : s.consumers i = .idle := by
      cases hc : s.consumers i <;> simp [hc, Consumer.isIdle] at idle
      rfl
    simp [work, named, headway, setConsumer, hc, Consumer.phase]
  | look i =>
    obtain rfl : i = id := of_decide_eq_true own
    obtain ⟨u, hc, rfl⟩ := step_look.mp h
    simp [headway, setConsumer, running, hc, Consumer.phase]
  | poll i =>
    obtain rfl : i = id := of_decide_eq_true own
    obtain ⟨u, hc, hp⟩ := step_poll.mp h
    obtain rfl := fetched u (by simp [hc, Consumer.subscriber])
    have taken := taken_of_polling seated (handed_reachable reached.of_guarded u) hc
    cases pending : (s.objects u).partition.events with
    | nil => simp [Subscriber.queue, Subscriber.served, taken, pending] at due
    | cons event rest =>
      obtain ⟨after, pops, -⟩ := Partition.popLocked_head (valid_reachable reached u) pending
      rw [poll, pops] at hp
      cases hp
      simp [headway, setConsumer, happened, setPartition, hc, Consumer.phase]
  | handle i =>
    obtain rfl : i = id := of_decide_eq_true own
    obtain ⟨u, event, hc, rfl⟩ := step_handle.mp h
    obtain rfl := fetched u (by simp [hc, Consumer.subscriber])
    simp [headway, handle, hand, setConsumer, hc, Consumer.phase]
    omega
  | _ => cases own

theorem slots_of_running (running : s.running = true) (h : step config s a = some s') :
    s'.slots = s.slots := by
  cases a with
  | subscribe callable =>
    obtain ⟨-, rfl⟩ := step_subscribe.mp h
    rcases subscribe_cases config s callable with same | ⟨id, p, stopped, -⟩
    · rw [same]
    · cases running.symm.trans stopped
  | unsubscribe id =>
    obtain ⟨-, rfl⟩ := step_unsubscribe.mp h
    rcases unsubscribe_cases s id with same | ⟨stopped, -⟩
    · rw [same]
    · cases running.symm.trans stopped
  | publish r =>
    obtain ⟨-, rfl⟩ := step_publish.mp h
    exact (undisturbed_publish s r).slots
  | check =>
    obtain ⟨f, -, hf⟩ := step_check.mp h
    exact (undisturbed_check hf).slots
  | push copy fault =>
    obtain ⟨f, -, hf⟩ := step_push.mp h
    exact (undisturbed_push hf).slots
  | publishReturn =>
    obtain ⟨f, -, hf⟩ := step_publishReturn.mp h
    exact (undisturbed_publishReturn hf).slots
  | start =>
    obtain ⟨-, ⟨-, rfl⟩ | ⟨-, rfl⟩⟩ := step_start.mp h
    · rfl
    · rfl
  | register =>
    obtain ⟨-, rfl⟩ := step_register.mp h
    rfl
  | startReturn =>
    obtain ⟨-, rfl⟩ := step_startReturn.mp h
    rfl
  | startThrow =>
    obtain ⟨-, -, rfl⟩ := step_startThrow.mp h
    rfl
  | stop =>
    obtain ⟨-, ⟨-, rfl⟩ | ⟨-, rfl⟩⟩ := step_stop.mp h
    · rfl
    · rfl
  | stopReturn =>
    obtain ⟨-, -, rfl⟩ := step_stopReturn.mp h
    rfl
  | work id =>
    obtain ⟨-, -, rfl⟩ := step_work.mp h
    unfold work
    split
    · rfl
    · rfl
  | look id =>
    obtain ⟨t, -, rfl⟩ := step_look.mp h
    rfl
  | poll id =>
    obtain ⟨t, -, hp⟩ := step_poll.mp h
    unfold poll at hp
    split at hp
    · cases hp
      rfl
    · cases hp
      rfl
    · cases hp
  | handle id =>
    obtain ⟨t, event, -, rfl⟩ := step_handle.mp h
    rfl

/-- The bus is running at the step, which is one that a push recovers from. -/
def whileRunning (config : BusConfig Payload) (s : EventBus Payload) (a : BusAction Payload) :
    Bool :=
  s.running && s.recovering config a

theorem own_handed {id : SubscriberId} (h : step config s a = some s') (own : owns id a = true)
    (t : Token) : (s.objects t).handed.length ≤ (s'.objects t).handed.length := by
  cases a with
  | work i =>
    obtain ⟨-, -, rfl⟩ := step_work.mp h
    unfold work
    split
    · exact le_rfl
    · exact le_rfl
  | look i =>
    obtain ⟨u, -, rfl⟩ := step_look.mp h
    exact le_rfl
  | poll i =>
    obtain ⟨u, -, hp⟩ := step_poll.mp h
    unfold poll at hp
    split at hp
    · cases hp
      by_cases here : t = u <;> simp [setConsumer, setPartition, here]
    · cases hp
      by_cases here : t = u <;> simp [setConsumer, happened, setPartition, here]
    · cases hp
  | handle i =>
    obtain ⟨u, event, -, rfl⟩ := step_handle.mp h
    by_cases here : t = u <;> simp [handle, hand, setConsumer, here]
  | _ => cases own

theorem handed_le_taken {t : Token} (h : s.Handed t) :
    (s.objects t).handed.length ≤ (s.objects t).taken.length := by
  obtain ⟨rest, taken⟩ := handed_prefix h
  rw [taken, List.length_append]
  omega

/-- One step more: the event has been handed over, or the worker has come as far as it moved. -/
theorem headway_step
    (reached : Reachable (guarded (step config) (recovering config)) (initial config) s)
    (running : s.running = true) {id : SubscriberId} {t : Token} (named : s.subscriber id = some t)
    {e : Superstep × Sequence} {front behind : List (Superstep × Sequence)}
    (here : (s.objects t).queue = front ++ e :: behind) (h : step config s a = some s') :
    ∃ front', (s.objects t).Moves (s'.objects t) e front front' ∧
      (front.length < (s.objects t).handed.length → front'.length < (s'.objects t).handed.length) ∧
      (front'.length < (s'.objects t).handed.length ∨
        s'.headway id t = s.headway id t + if owns id a then 1 else 0) := by
  have seated := seated_reachable reached.of_guarded
  have handed := handed_reachable reached.of_guarded t
  have serves := serves_step reached.of_guarded h (seated.issued id t named)
  obtain ⟨front', moved⟩ := serves.moves (levelled_reachable reached.of_guarded t) here
  have stays (early : front.length < (s.objects t).handed.length) :
      front'.length < (s'.objects t).handed.length := by
    rw [moved.fixed (early.trans_le (handed_le_taken handed))]
    cases own : owns id a with
    | true => exact early.trans_le (own_handed h own t)
    | false => exact early.trans_eq (by rw [(bystander_step h own).2 t seated named])
  refine ⟨front', moved, stays, ?_⟩
  by_cases early : front.length < (s.objects t).handed.length
  · exact .inl (stays early)
  · right
    cases own : owns id a with
    | true =>
      refine own_step reached running named ?_ h own
      rw [here, List.length_append, List.length_cons]
      omega
    | false =>
      obtain ⟨consumer, same⟩ := bystander_step h own
      simp [headway, consumer, same t seated named]

theorem headway_run
    (reached : Reachable (guarded (step config) (recovering config)) (initial config) s)
    {id : SubscriberId} {t : Token} (named : s.subscriber id = some t)
    {e : Superstep × Sequence} {front behind : List (Superstep × Sequence)}
    (here : (s.objects t).queue = front ++ e :: behind) {as : List (BusAction Payload)}
    (runs : run (guarded (step config) (whileRunning config)) s as = some s') :
    ∃ front', (s.objects t).Moves (s'.objects t) e front front' ∧ s'.subscriber id = some t ∧
      (front'.length < (s'.objects t).handed.length ∨
        s.headway id t + as.countP (owns id) ≤ s'.headway id t) := by
  induction as using List.reverseRecOn generalizing s' with
  | nil =>
    cases runs
    exact ⟨front, ⟨⟨behind, here⟩, .same le_rfl, le_rfl, fun _ => rfl⟩, named, .inr (by simp)⟩
  | append_singleton as a ih =>
    obtain ⟨r, before, moves⟩ := run_snoc_eq_some.mp runs
    obtain ⟨allowed, moves⟩ := guarded_eq_some.mp moves
    obtain ⟨running, recovers⟩ := (Bool.and_eq_true ..).mp allowed
    obtain ⟨front', moved, named', progress⟩ := ih before
    obtain ⟨behind', here'⟩ := moved.place
    have reached' : Reachable (guarded (step config) (recovering config)) (initial config) r := by
      apply reached.trans
      exact Reachable.relax (fun _ _ h => ((Bool.and_eq_true ..).mp h).2) ⟨as, before⟩
    obtain ⟨front'', moved', stays, progress'⟩ :=
      headway_step reached' running named' here' moves
    refine ⟨front'', moved.trans moved', ?_, ?_⟩
    · rw [subscriber, slots_of_running running moves]
      exact named'
    · rcases progress with handed | far
      · exact .inl (stays handed)
      · refine progress'.imp_right fun counted => ?_
        rw [List.countP_append, List.countP_singleton]
        omega

/-- The worker of a subscriber can always take its next step. -/
theorem own_enabled
    (reached : Reachable (guarded (step config) (recovering config)) (initial config) s)
    {id : SubscriberId} (registered : id ∈ s.workers) :
    ∃ a s', owns id a = true ∧ step config s a = some s' := by
  cases hc : s.consumers id with
  | idle =>
    have free : (s.consumers id).isIdle = true := by rw [hc, Consumer.isIdle]
    exact ⟨.work id, _, by simp [owns], step_work.mpr ⟨registered, free, rfl⟩⟩
  | fetched t => exact ⟨.look id, _, by simp [owns], step_look.mpr ⟨t, hc, rfl⟩⟩
  | polling t =>
    obtain ⟨result, after, pops, -⟩ := Partition.popLocked_valid (valid_reachable reached t)
    cases result with
    | none => exact ⟨.poll id, _, by simp [owns], step_poll.mpr ⟨t, hc, by rw [poll, pops]⟩⟩
    | some event => exact ⟨.poll id, _, by simp [owns], step_poll.mpr ⟨t, hc, by rw [poll, pops]⟩⟩
  | holding t event => exact ⟨.handle id, _, by simp [owns], step_handle.mpr ⟨t, event, hc, rfl⟩⟩

/-- What was handed over is the front of the order of service. -/
theorem handed_of_length {t : Token} (h : s.Handed t) {e : Superstep × Sequence}
    {front behind : List (Superstep × Sequence)}
    (place : (s.objects t).queue = front ++ e :: behind)
    (short : front.length < (s.objects t).handed.length) :
    ∃ behind', (s.objects t).handed.map Event.stamp = front ++ e :: behind' := by
  obtain ⟨rest, taken⟩ := handed_prefix h
  rw [Subscriber.queue, Subscriber.served, taken, List.append_assoc, List.map_append] at place
  rcases List.append_eq_append_iff.mp place with ⟨l, here, -⟩ | ⟨r, here, tail⟩
  · rw [← List.length_map Event.stamp] at short
    rw [here, List.length_append] at short
    omega
  · cases r with
    | nil =>
      rw [List.append_nil] at here
      rw [← List.length_map Event.stamp, here] at short
      omega
    | cons d r =>
      obtain ⟨rfl, -⟩ := List.cons.inj tail
      exact ⟨r, here⟩

/-- While the bus runs, the worker is never stuck, and it has handed an event over after four
steps for each event that is to be handed over before it, now or because it comes with a smaller
superstep, and four for the event itself. -/
theorem handed_within
    (reached : Reachable (guarded (step config) (recovering config)) (initial config) s)
    {id : SubscriberId} {t : Token} (named : s.subscriber id = some t)
    {e : Superstep × Sequence} {front behind : List (Superstep × Sequence)}
    (here : (s.objects t).queue = front ++ e :: behind) {as : List (BusAction Payload)}
    (runs : run (guarded (step config) (whileRunning config)) s as = some s') :
    (id ∈ s'.workers → ∃ a r, owns id a = true ∧ step config s' a = some r) ∧
    (4 * (front.length + StableQueue.lower Prod.fst e.1 (s'.objects t).queue + 1) ≤
        as.countP (owns id) + 4 * ((s.objects t).handed.length +
          StableQueue.lower Prod.fst e.1 (s.objects t).queue) →
      ∃ front' behind', (s'.objects t).handed.map Event.stamp = front' ++ e :: behind' ∧
        StableQueue.Overtaken Prod.fst e (s.objects t).queue (s'.objects t).queue front
          front') := by
  have reached' : Reachable (guarded (step config) (recovering config)) (initial config) s' := by
    apply reached.trans
    exact Reachable.relax (fun _ _ h => ((Bool.and_eq_true ..).mp h).2) ⟨as, runs⟩
  refine ⟨own_enabled reached', fun enough => ?_⟩
  obtain ⟨front', moved, -, progress⟩ := headway_run reached named here runs
  obtain ⟨behind', place⟩ := moved.place
  have passed : front'.length < (s'.objects t).handed.length := by
    rcases progress with handed | far
    · exact handed
    · have few := moved.overtaken.few
      have phase : (s'.consumers id).phase ≤ 3 := by
        cases s'.consumers id <;> simp [Consumer.phase]
      unfold headway at far
      omega
  obtain ⟨behind'', all⟩ := handed_of_length (handed_reachable reached'.of_guarded t) place passed
  exact ⟨front', behind'', all, moved.overtaken⟩

theorem sampleWaiting_handed :
    (∃ a r, owns 0 a = true ∧ step roomyConfig samplePassed a = some r) ∧
    ∃ front' behind', (samplePassed.objects 0).handed.map Event.stamp =
      front' ++ (5, 0) :: behind' ∧ StableQueue.Overtaken Prod.fst (5, 0)
        (sampleWaiting.objects 0).queue (samplePassed.objects 0).queue [] front' := by
  have reached : Reachable (guarded (step roomyConfig) (recovering roomyConfig))
    (initial roomyConfig) sampleWaiting := ⟨sampleWait, rfl⟩
  have here : (sampleWaiting.objects 0).queue = [] ++ (5, 0) :: [] := by decide +kernel
  have runs : run (guarded (step roomyConfig) (whileRunning roomyConfig)) sampleWaiting
    samplePassing = some samplePassed := rfl
  have named : sampleWaiting.subscriber 0 = some 0 := by decide +kernel
  obtain ⟨next, handed⟩ := handed_within reached named here runs
  exact ⟨next (by decide +kernel), handed (by decide +kernel)⟩

end EventBus

end Yellowstone
