import Yellowstone.Bus.EventBusMembership
import Yellowstone.Bus.PartitionInvariant

/-!
# The traffic of an `EventBus`

What calls and workers do to the subscriber objects, to the call under way and to the log of
calls that ended. Every step has one of the effects listed here; slots, workers and the
lifecycle appear in them only through the targets of a call.
-/

set_option autoImplicit false

namespace Yellowstone

open Machine Throwing

structure Traffic (Payload : Type) where
  objects : Token → Subscriber Payload
  nextToken : Token
  sequence : Sequence
  publishing : Option (Frame Payload)
  tickets : Nat
  ended : List (BusCall Payload × Except Exn PublishResult)

/-- What `can_accept` answers. -/
def Partition.accepts {Payload : Type} (p : Partition Payload) (event : Event Payload) : Bool :=
  (p.index.lookup event.key).isSome || decide (p.size < p.capacity)

namespace EventBus
variable {Payload : Type} (config : BusConfig Payload) (s : EventBus Payload)

def traffic : Traffic Payload :=
  ⟨s.objects, s.nextToken, s.sequence, s.publishing, s.tickets, s.ended⟩

/-- The effects of a step with a given label. -/
inductive Effect (a : BusAction Payload) : Traffic Payload → Prop
  | quiet : Effect a s.traffic
  | subscribed (id : SubscriberId) (partition : Partition Payload) : s.publishing = none →
    Partition.construct config.partitionCapacity = .ok partition →
    Effect a { s.traffic with
      objects := Function.update s.objects s.nextToken ⟨id, partition, [], []⟩
      nextToken := s.nextToken + 1 }
  | began (r : PublishRequest Payload) (targets : List Token) : a = .publish r →
    s.publishing = none → targets.Nodup → (∀ t ∈ targets, t < s.nextToken) →
    (r.target ≠ none → targets.length = 1) → Effect a (s.begin r targets).traffic
  | accepted (f : Frame Payload) (t : Token) (rest : List Token) : s.publishing = some f →
    f.unchecked = t :: rest → (s.objects t).partition.accepts f.call.event = true →
    Effect a { s.traffic with publishing := some { f with
      call := { f.call with checks := f.call.checks ++ [(t, true)] }
      unchecked := rest } }
  | refused (f : Frame Payload) (t : Token) (rest : List Token) : s.publishing = some f →
    f.unchecked = t :: rest → (s.objects t).partition.accepts f.call.event = false →
    Effect a (s.finish { f.call with checks := f.call.checks ++ [(t, false)] }
      (.error (.overflowError (overflowText f.call.target)))).traffic
  | copyThrew (f : Frame Payload) (t : Token) (rest : List Token) (e : Exn)
    (fault : PushPoint → Option Exn) : a = .push (some e) fault → s.publishing = some f →
    f.unchecked = [] → f.unpushed = t :: rest →
    Effect a (s.finish { f.call with threw := true } (.error e)).traffic
  | pushReturned (f : Frame Payload) (t : Token) (rest : List Token)
    (fault : PushPoint → Option Exn) (result : PushResult) (after : Partition Payload) :
    a = .push none fault → s.publishing = some f → f.unchecked = [] → f.unpushed = t :: rest →
    exec (Partition.push config.merger fault f.call.event) (s.objects t).partition =
      (.ok result, after) →
    Effect a ((s.setPartition t after).pushed f t rest
      (holds (s.objects t).partition f.call.event) result).traffic
  | pushThrew (f : Frame Payload) (t : Token) (rest : List Token)
    (fault : PushPoint → Option Exn) (e : Exn) (after : Partition Payload) :
    a = .push none fault → s.publishing = some f → f.unchecked = [] → f.unpushed = t :: rest →
    exec (Partition.push config.merger fault f.call.event) (s.objects t).partition =
      (.error (.thrown e), after) →
    Effect a ((s.setPartition t after).finish { f.call with threw := true } (.error e)).traffic
  | returned (f : Frame Payload) : s.publishing = some f → f.unchecked = [] → f.unpushed = [] →
    Effect a (s.finish f.call (.ok f.call.result)).traffic
  | popped (id : SubscriberId) (t : Token) (event : Event Payload) (after : Partition Payload) :
    s.consumers id = .polling t →
    exec Partition.popLocked (s.objects t).partition = (.ok (some event), after) →
    Effect a ((s.setPartition t after).happened t (.popped event)).traffic
  | handed (id : SubscriberId) (t : Token) (event : Event Payload) :
    s.consumers id = .holding t event → Effect a (s.hand t event).traffic

variable {config} {s} {s' : EventBus Payload} {a : BusAction Payload}

theorem effect_publish (seated : Seated s) (free : s.publishing = none)
    (r : PublishRequest Payload) : Effect config s (.publish r) (s.publish r).traffic := by
  unfold publish
  split
  · rename_i broadcast
    exact .began r s.snapshot rfl free seated.snapshot_nodup seated.snapshot_issued
      fun targeted => absurd broadcast targeted
  · rename_i id _
    split
    · exact .quiet
    · rename_i t ht
      refine .began r [t] rfl free (List.nodup_singleton t) ?_ fun _ => rfl
      intro u hu
      exact List.mem_singleton.mp hu ▸ seated.issued id t ht

theorem effect_check {f : Frame Payload} (hf : s.publishing = some f) (h : s.check f = some s') :
    Effect config s a s'.traffic := by
  unfold check at h
  split at h
  · cases h
  rename_i t rest unchecked
  rw [Partition.exec_canAccept] at h
  cases answer : (s.objects t).partition.accepts f.call.event with
  | true =>
    rw [Partition.accepts] at answer
    simp only [answer] at h
    cases h
    exact .accepted f t rest hf unchecked answer
  | false =>
    rw [Partition.accepts] at answer
    simp only [answer] at h
    cases h
    exact .refused f t rest hf unchecked answer

theorem effect_push {f : Frame Payload} {copy : Option Exn} {fault : PushPoint → Option Exn}
    (hf : s.publishing = some f) (h : s.push config f copy fault = some s') :
    Effect config s (.push copy fault) s'.traffic := by
  unfold push at h
  split at h
  · rename_i t rest unchecked unpushed
    split at h
    · rename_i e
      cases h
      exact .copyThrew f t rest e fault rfl hf unchecked unpushed
    · dsimp only at h
      split at h
      · rename_i result after pushes
        cases h
        exact .pushReturned f t rest fault result after rfl hf unchecked unpushed pushes
      · rename_i e after throws
        cases h
        exact .pushThrew f t rest fault e after rfl hf unchecked unpushed throws
      · cases h
  · cases h

theorem effect_publishReturn {f : Frame Payload} (hf : s.publishing = some f)
    (h : s.publishReturn f = some s') : Effect config s a s'.traffic := by
  unfold publishReturn at h
  split at h
  · cases h
    exact .returned f hf ‹_› ‹_›
  · cases h

/-- A pop that finds nothing changes nothing. -/
theorem popLocked_none {p after : Partition Payload}
    (h : exec Partition.popLocked p = (.ok none, after)) : after = p := by
  cases Partition.popLocked_runs h with
  | nothing => rfl

theorem effect_poll {id : SubscriberId} {t : Token} (hc : s.consumers id = .polling t)
    (h : s.poll id t = some s') : Effect config s a s'.traffic := by
  unfold poll at h
  split at h
  · rename_i after nothing
    cases h
    have same : ((s.setPartition t after).setConsumer id .idle).traffic = s.traffic := by
      simp [popLocked_none nothing, setPartition, setConsumer, traffic]
    exact same ▸ .quiet
  · rename_i event after pops
    cases h
    exact .popped id t event after hc pops
  · cases h

theorem step_effect (seated : Seated s) (h : step config s a = some s') :
    Effect config s a s'.traffic := by
  cases a with
  | subscribe callable =>
    obtain ⟨⟨-, free⟩, rfl⟩ := step_subscribe.mp h
    rcases subscribe_cases config s callable with same | ⟨id, p, -, -, -, built, same⟩
    · exact same.symm ▸ .quiet
    · exact same.symm ▸ .subscribed id p (Option.isNone_iff_eq_none.mp free) built
  | unsubscribe id =>
    obtain ⟨-, rfl⟩ := step_unsubscribe.mp h
    rcases unsubscribe_cases s id with same | ⟨-, -, same⟩
    · exact same.symm ▸ .quiet
    · exact same.symm ▸ .quiet
  | publish r =>
    obtain ⟨free, rfl⟩ := step_publish.mp h
    exact effect_publish seated free r
  | check =>
    obtain ⟨f, hf, hc⟩ := step_check.mp h
    exact effect_check hf hc
  | push copy fault =>
    obtain ⟨f, hf, hp⟩ := step_push.mp h
    exact effect_push hf hp
  | publishReturn =>
    obtain ⟨f, hf, hr⟩ := step_publishReturn.mp h
    exact effect_publishReturn hf hr
  | start =>
    obtain ⟨-, ⟨-, rfl⟩ | ⟨-, rfl⟩⟩ := step_start.mp h
    · exact .quiet
    · exact .quiet
  | register =>
    obtain ⟨-, rfl⟩ := step_register.mp h
    exact .quiet
  | startReturn =>
    obtain ⟨-, rfl⟩ := step_startReturn.mp h
    exact .quiet
  | startThrow =>
    obtain ⟨-, -, rfl⟩ := step_startThrow.mp h
    exact .quiet
  | stop =>
    obtain ⟨-, ⟨-, rfl⟩ | ⟨-, rfl⟩⟩ := step_stop.mp h
    · exact .quiet
    · exact .quiet
  | stopReturn =>
    obtain ⟨-, -, rfl⟩ := step_stopReturn.mp h
    exact .quiet
  | work id =>
    obtain ⟨-, -, rfl⟩ := step_work.mp h
    unfold work
    split
    · exact .quiet
    · exact .quiet
  | look id =>
    obtain ⟨t, -, rfl⟩ := step_look.mp h
    exact .quiet
  | poll id =>
    obtain ⟨t, hc, hp⟩ := step_poll.mp h
    exact effect_poll hc hp
  | handle id =>
    obtain ⟨t, event, hc, rfl⟩ := step_handle.mp h
    exact .handed id t event hc

end EventBus

end Yellowstone
