import Yellowstone.Scheduling.Retry

/-!
# From the scheduler into the partitions

A request that was forwarded was published by a call that returned. The partitions that this
call targeted have got its payload once, whatever happened to the attempts before it, and no
other partition has got it.
-/

set_option autoImplicit false

namespace Yellowstone

open Machine

variable {Payload : Type}

/-- The arguments that a call was made with. -/
def BusCall.request (call : BusCall Payload) : PublishRequest Payload where
  caller := call.caller
  target := call.target
  eventId := call.event.id
  payload := call.event.payload
  superstep := call.event.superstep

namespace EventBus
variable {config : BusConfig Payload} {s : EventBus Payload} {a : BusAction Payload}
  {c : Traffic Payload}

/-- The call under way keeps its arguments, and ends with them. -/
theorem effect_request (effect : Effect config s a c) {f : Frame Payload}
    (hf : s.publishing = some f) :
    (∃ f', c.publishing = some f' ∧ c.ended = s.ended ∧ f'.call.request = f.call.request) ∨
    (c.publishing = none ∧ ∃ call outcome, c.ended = s.ended ++ [(call, outcome)] ∧
      call.ticket = f.call.ticket ∧ call.request = f.call.request) := by
  cases effect with
  | quiet | popped | handed => exact .inl ⟨f, hf, rfl, rfl⟩
  | subscribed _ _ free => cases free.symm.trans hf
  | began _ _ _ free => cases free.symm.trans hf
  | accepted g t rest hg =>
    cases hg.symm.trans hf
    exact .inl ⟨_, rfl, rfl, rfl⟩
  | refused g t rest hg =>
    cases hg.symm.trans hf
    exact .inr ⟨rfl, _, _, rfl, rfl, rfl⟩
  | copyThrew g t rest e fault label hg =>
    cases hg.symm.trans hf
    exact .inr ⟨rfl, _, _, rfl, rfl, rfl⟩
  | pushReturned g t rest fault result after _ hg =>
    cases hg.symm.trans hf
    cases result with
    | full =>
      cases ht : f.call.target with
      | none =>
        simp only [EventBus.pushed, ht]
        exact .inr ⟨rfl, _, _, rfl, rfl, rfl⟩
      | some id =>
        simp only [EventBus.pushed, ht]
        exact .inl ⟨_, rfl, rfl, rfl⟩
    | _ => exact .inl ⟨_, rfl, rfl, rfl⟩
  | pushThrew g t rest fault e after label hg =>
    cases hg.symm.trans hf
    exact .inr ⟨rfl, _, _, rfl, rfl, rfl⟩
  | returned g hg =>
    cases hg.symm.trans hf
    exact .inr ⟨rfl, _, _, rfl, rfl, rfl⟩

/-- Ended calls are not forgotten. -/
theorem effect_ended (effect : Effect config s a c) :
    ∀ e ∈ s.ended, e ∈ c.ended := by
  intro e he
  cases hf : s.publishing with
  | some f =>
    rcases effect_request effect hf with ⟨_, -, same, -⟩ | ⟨-, _, _, more, -⟩
    · exact same ▸ he
    · exact more ▸ List.mem_append_left _ he
  | none =>
    cases effect with
    | quiet | subscribed | began | popped | handed => exact he
    | accepted f t rest hg | refused f t rest hg | returned f hg => cases hf.symm.trans hg
    | copyThrew f t rest e fault _ hg => cases hf.symm.trans hg
    | pushReturned f t rest fault result after _ hg => cases hf.symm.trans hg
    | pushThrew f t rest fault e after _ hg => cases hf.symm.trans hg

/-- Subscribers that exist keep what they got. -/
theorem effect_idle_eq (effect : Effect config s a c) (free : s.publishing = none) {u : Token}
    (issued : u < s.nextToken) (caller : Nat) :
    c.appliedBy u caller = s.traffic.appliedBy u caller := by
  cases effect with
  | quiet | began => rfl
  | subscribed id partition => simp [Traffic.appliedBy, traffic, issued.ne]
  | popped id t event after => exact samePushes_popped t event after u caller
  | handed id t event => exact samePushes_of_history (fun v => history_hand t v event) u caller
  | accepted f t rest hf | refused f t rest hf | returned f hf => cases free.symm.trans hf
  | copyThrew f t rest e fault _ hf => cases free.symm.trans hf
  | pushReturned f t rest fault result after _ hf => cases free.symm.trans hf
  | pushThrew f t rest fault e after _ hf => cases free.symm.trans hf

/-- A call that returned has been applied to each of its targets. -/
theorem applied_of_returned (logged : s.traffic.Logged) (roomy : s.traffic.Roomy)
    {call : BusCall Payload} {result : PublishResult} (ended : (call, .ok result) ∈ s.ended)
    (t : Token) : s.traffic.applied t call.ticket = if t ∈ call.targets then 1 else 0 := by
  have answered : call.Answered := roomy.ended _ ended
  obtain ⟨applied, ending⟩ : s.traffic.Applied call ∧ call.Ending (.ok result) :=
    logged.ended _ ended
  generalize same : (Except.ok result : Except Exn PublishResult) = outcome at ending
  cases ending with
  | returned _ _ targets => rw [applied.counted, answered.applied, targets]
  | _ => cases same

end EventBus

namespace Scheduler
variable {s s' : Scheduler (Numbered Payload)}

theorem forwarded_of_not_composed {a : SchedulerAction (Numbered Payload)}
    (own : a.composed = false) (h : step s a = some s') : s'.forwarded = s.forwarded := by
  cases a with
  | schedule | settle => cases own
  | notify id =>
    obtain ⟨-, rfl⟩ := step_notify.mp h
    rfl
  | start created =>
    obtain ⟨-, -, rfl⟩ := step_start.mp h
    unfold start
    split
    · rfl
    · split <;> rfl
  | stop =>
    obtain ⟨-, -, rfl⟩ := step_stop.mp h
    rfl
  | requestStop =>
    obtain ⟨-, ⟨-, rfl⟩ | ⟨-, rfl⟩⟩ := step_requestStop.mp h <;> rfl
  | notifyAll =>
    obtain ⟨-, rfl⟩ := step_notifyAll.mp h
    rfl
  | join =>
    obtain ⟨-, -, rfl⟩ := step_join.mp h
    rfl
  | stopReturn =>
    obtain ⟨-, rfl⟩ := step_stopReturn.mp h
    rfl
  | setClock now =>
    cases h
    rfl
  | wake =>
    obtain ⟨-, rfl⟩ := step_wake.mp h
    rfl
  | work timeout =>
    rcases workStep_cases h with ⟨w, o, -, rfl⟩ | ⟨d, o, c, due, heap, -, -, -, rfl⟩ |
      ⟨due, -, rfl⟩ <;> rfl

end Scheduler

namespace ScheduledBus
variable {config : BusConfig Payload} {s s' : ScheduledBus Payload} {now : TimePoint}

/-- A call for the request has returned, and what it targeted has got its payload once. -/
def Served (s : ScheduledBus Payload) (due : ScheduledItem (Numbered Payload)) : Prop :=
  ∃ call result, (call, .ok result) ∈ s.bus.ended ∧ call.request = due.publishRequest ∧
    ∀ t, s.given t due.number = if t ∈ call.targets then 1 else 0

structure Fulfilled (s : ScheduledBus Payload) : Prop where
  calling : s.attempt = .calling → ∀ due f, s.scheduler.worker = .publishing due →
    s.bus.publishing = some f → f.call.request = due.publishRequest
  returned : s.attempt = .ended .returned → ∀ due, s.scheduler.worker = .publishing due →
    s.Served due
  forwarded : ∀ due ∈ s.scheduler.forwarded, s.Served due

theorem forwarded_number_ne (balanced : s.scheduler.ledger.Balanced)
    (distinct : (s.scheduler.accepted.map ScheduledItem.number).Nodup)
    {due : ScheduledItem (Numbered Payload)} (flight : s.scheduler.worker.inFlight = some due)
    {i : ScheduledItem (Numbered Payload)} (hi : i ∈ s.scheduler.forwarded) :
    i.number ≠ due.number := by
  have conserved := balanced.conserved
  rw [show s.scheduler.ledger.inFlight = some due from flight] at conserved
  have first : s.scheduler.accepted.Perm (due ::
      (s.scheduler.heap.values ++ (s.scheduler.forwarded ++ s.scheduler.failed))) :=
    conserved.trans List.perm_middle
  have numbers := (first.map ScheduledItem.number).nodup_iff.mp distinct
  rw [List.map_cons] at numbers
  intro same
  apply (List.nodup_cons.mp numbers).1
  rw [← same]
  exact List.mem_map_of_mem (by simp [hi])

theorem Served.of_same {due : ScheduledItem (Numbered Payload)} (served : s.Served due)
    (ended : ∀ e ∈ s.bus.ended, e ∈ s'.bus.ended)
    (given : ∀ t, s'.given t due.number = s.given t due.number) : s'.Served due := by
  obtain ⟨call, result, returned, request, counted⟩ := served
  exact ⟨call, result, ended _ returned, request, fun t => (given t).trans (counted t)⟩

theorem fulfilled_settle (inv : Fulfilled s) {outcome : PublishOutcome}
    (ended : s.attempt = .ended outcome) {due : ScheduledItem (Numbered Payload)}
    (worker : s.scheduler.worker = .publishing due) : Fulfilled { s with
      scheduler := s.scheduler.settle due outcome, attempt := .idle } := by
  refine ⟨by simp, by simp, fun i hi => ?_⟩
  cases outcome with
  | returned =>
    rcases List.mem_append.mp hi with hi | hi
    · exact inv.forwarded i hi
    · cases List.mem_singleton.mp hi
      exact inv.returned ended due worker
  | overflow | failed => exact inv.forwarded i hi

section Bus
variable {bus : EventBus Payload} {a : BusAction Payload}

/-- Without a call of the timing thread the bus leaves what requests have got. -/
theorem served_waiting (attributed : Attributed s) (logged : s.bus.traffic.Logged)
    (waiting : s.attempt ≠ .calling) (effect : EventBus.Effect config s.bus a bus.traffic)
    {due : ScheduledItem (Numbered Payload)} (served : s.Served due) :
    Served { s with bus } due := by
  obtain ⟨call, result, returned, request, counted⟩ := served
  refine ⟨call, result, EventBus.effect_ended effect _ returned, request, fun t => ?_⟩
  have less := attributed.given_le waiting effect t due.number
  by_cases target : t ∈ call.targets
  · have same : bus.traffic.appliedBy t due.number = s.given t due.number := by
      cases hf : s.bus.publishing with
      | none =>
        have issued := (logged.ended _ returned).1.issued t target
        exact EventBus.effect_idle_eq effect hf issued due.number
      | some f =>
        have nobody := attributed.foreign waiting f hf
        exact (EventBus.effect_adds effect hf t).appliedBy_other (by simp [nobody])
    exact same.trans (counted t)
  · rw [counted t, if_neg target] at less
    rw [if_neg target]
    exact Nat.le_zero.mp less

theorem fulfilled_bus_waiting (inv : Fulfilled s) (attributed : Attributed s)
    (logged : s.bus.traffic.Logged) (waiting : s.attempt ≠ .calling)
    (effect : EventBus.Effect config s.bus a bus.traffic) : Fulfilled (s.moved bus) := by
  rcases moved_cases s bus with ⟨calling, -⟩ | ⟨-, same⟩
  · exact absurd calling waiting
  rw [same]
  refine ⟨fun calling => absurd calling waiting, fun ended due worker => ?_, fun due hd => ?_⟩
  · exact served_waiting attributed logged waiting effect (inv.returned ended due worker)
  · exact served_waiting attributed logged waiting effect (inv.forwarded due hd)

/-- The call of the timing thread goes on, or it ends; if it returns, its request is served. -/
theorem fulfilled_bus_calling (inv : Fulfilled s) (tracked : Tracked s)
    (balanced : s.scheduler.ledger.Balanced) (logged : bus.traffic.Logged)
    (roomy : bus.traffic.Roomy) (calling : s.attempt = .calling)
    (effect : EventBus.Effect config s.bus a bus.traffic) : Fulfilled (s.moved bus) := by
  obtain ⟨due, f, worker, hf, caller, counted⟩ := tracked.calling calling
  have flight : s.scheduler.worker.inFlight = some due := by rw [worker]; rfl
  have own := inv.calling calling due f worker hf
  have others : ∀ i ∈ s.scheduler.forwarded, ∀ b : ScheduledBus Payload, b.bus = bus →
      b.Served i := by
    rintro i hi b rfl
    have other := forwarded_number_ne balanced tracked.distinct flight hi
    exact (inv.forwarded i hi).of_same (EventBus.effect_ended effect) fun t =>
      tracked.attributed.given_eq calling worker effect t other
  rcases EventBus.effect_request effect hf with ⟨f', hf', -, request⟩ |
    ⟨none, call, outcome, ended, ticket, request⟩
  · rcases moved_cases s bus with ⟨-, none, -⟩ | ⟨-, same⟩
    · cases none.symm.trans hf'
    rw [same]
    refine ⟨fun _ due' g worker' hg => ?_, fun ended => ?_, fun i hi => others i hi _ rfl⟩
    · cases worker.symm.trans worker'
      cases hf'.symm.trans hg
      exact request.trans own
    · cases calling.symm.trans ended
  · rcases moved_cases s bus with ⟨-, -, same⟩ | ⟨going, -⟩
    · rw [same]
      refine ⟨by simp, fun returned due' worker' => ?_, fun i hi => others i hi _ rfl⟩
      cases worker.symm.trans worker'
      obtain ⟨result, rfl⟩ : ∃ result, outcome = .ok result := by
        have last : bus.ended = s.bus.ended ++ [(call, outcome)] := ended
        have ok : PublishOutcome.of outcome = .returned := by
          simpa [lastOutcome, last] using returned
        unfold PublishOutcome.of at ok
        split at ok <;> first | exact ⟨_, rfl⟩ | cases ok
      have member : (call, .ok result) ∈ bus.ended := by
        rw [show bus.ended = _ from ended]
        simp
      refine ⟨call, result, member, request.trans own, fun t => ?_⟩
      have mine := (EventBus.effect_adds effect hf t).appliedBy_own caller (counted t)
      exact mine.trans (ticket ▸ EventBus.applied_of_returned logged roomy member t)
    · exact absurd none (going calling)

end Bus

theorem fulfilled_step (inv : Fulfilled s) (tracked : Tracked s)
    (reached : Reachable (step config) (initial config now) s) {a : ScheduledBusAction Payload}
    (h : step config s a = some s') : Fulfilled s' := by
  have scheduler := scheduler_reachable reached
  have bus := bus_reachable reached
  cases a with
  | schedule r =>
    obtain ⟨_, hs, rfl⟩ := step_schedule.mp h
    obtain ⟨-, rfl⟩ := Scheduler.step_schedule.mp hs
    have worker := Scheduler.worker_schedule (s := s.scheduler) (r := r.numbered s.requested)
    have forwarded : (s.scheduler.schedule (r.numbered s.requested)).forwarded =
        s.scheduler.forwarded := by
      unfold Scheduler.schedule
      split <;> rfl
    exact ⟨worker ▸ inv.calling, worker ▸ inv.returned, forwarded ▸ inv.forwarded⟩
  | scheduler a =>
    obtain ⟨own, _, hs, rfl⟩ := step_scheduler.mp h
    have noThread := Scheduler.noThread_reachable scheduler
    obtain ⟨-, -, carries⟩ := Scheduler.step_carries noThread own hs
    have forwarded := Scheduler.forwarded_of_not_composed own hs
    refine ⟨fun calling due f worker hf => ?_, fun ended due worker => ?_,
      forwarded ▸ inv.forwarded⟩
    · obtain ⟨due', worker'⟩ := tracked.publishing (by simp [show s.attempt = _ from calling])
      cases (carries.publishing worker').symm.trans worker
      exact inv.calling calling due f worker' hf
    · obtain ⟨due', worker'⟩ := tracked.publishing (by simp [show s.attempt = _ from ended])
      cases (carries.publishing worker').symm.trans worker
      exact inv.returned ended due worker'
  | bus a =>
    obtain ⟨own, _, hb, rfl⟩ := step_bus.mp h
    have effect := EventBus.step_effect (EventBus.seated_reachable bus) hb
    by_cases calling : s.attempt = .calling
    · have later := bus.next hb
      exact fulfilled_bus_calling inv tracked (Scheduler.balanced_reachable scheduler)
        (EventBus.logged_reachable later) (EventBus.roomy_reachable later) calling effect
    · exact fulfilled_bus_waiting inv tracked.attributed (EventBus.logged_reachable bus) calling
        effect
  | attempt =>
    obtain ⟨due, worker, idle, _, hb, rfl⟩ := step_attempt.mp h
    obtain ⟨free, rfl⟩ := EventBus.step_publish.mp hb
    rcases publish_cases s.bus due.publishRequest with same | ⟨targets, same⟩ <;> rw [same]
    · simp only [free, Option.isSome_none, Bool.false_eq_true, if_false]
      exact ⟨by simp, by simp, inv.forwarded⟩
    · refine ⟨fun _ due' f worker' hf => ?_, by simp [EventBus.begin], inv.forwarded⟩
      cases worker.symm.trans worker'
      cases hf
      rfl
  | attemptThrow e =>
    obtain ⟨-, -, rfl⟩ := step_attemptThrow.mp h
    refine ⟨by simp, fun ended => ?_, inv.forwarded⟩
    cases e <;> simp [PublishOutcome.of] at ended
  | settle =>
    obtain ⟨outcome, ended, _, hs, rfl⟩ := step_settle.mp h
    obtain ⟨due, worker, rfl⟩ := Scheduler.step_settle.mp hs
    exact fulfilled_settle inv ended worker

/-- What a forwarded request targeted when its call returned has got the payload once, and no
other partition has got it; a request that waits in the heap has been given to nobody. -/
theorem forwarded_to_each_target (merges : ∀ current incoming what,
      (config.merger current incoming).2 ≠ some (.overflowError what))
    (reached : Reachable (guarded (step config) plain) (initial config now) s) :
    (∀ due ∈ s.scheduler.forwarded, s.Served due) ∧
      ∀ i ∈ s.scheduler.heap.values, ∀ t, s.given t i.number = 0 := by
  refine ⟨?_, (tracked_reachable merges reached).pending⟩
  have inv : Fulfilled s := by
    induction reached with
    | start => exact ⟨nofun, nofun, nofun⟩
    | next r a r' reached moves inv =>
      obtain ⟨-, moves⟩ := guarded_eq_some.mp moves
      exact fulfilled_step inv (tracked_reachable merges reached) reached.of_guarded moves
  exact inv.forwarded

/-- The request that was refused once and then forwarded. -/
theorem sampleRetried_served :
    (∀ due ∈ sampleRetried.scheduler.forwarded, sampleRetried.Served due) ∧
      sampleRetried.scheduler.forwarded.map ScheduledItem.number = [0] ∧
      (List.range 2).map (sampleRetried.given · 0) = [1, 1] := by
  have reached : Reachable (guarded (step (smallBus (.user 0))) plain)
      (initial (smallBus (.user 0)) 0) sampleRetried := ⟨refusedOnce, rfl⟩
  exact ⟨(forwarded_to_each_target sumUpTo100_plain reached).1, by decide +kernel,
    by decide +kernel⟩

end ScheduledBus

end Yellowstone
