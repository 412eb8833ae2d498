import Yellowstone.Scheduling.Retry

/-!
# Targeted requests

`schedule_one` stores the number of a slot, and the timing thread looks the slot up each time
it attempts the request. While the call is under way the membership cannot change, so what
the lookup found is what the slot names when the payload is pushed. No push of a targeted request
that has failed, or may still be attempted, has returned.
-/

set_option autoImplicit false

namespace Yellowstone

open Machine

variable {Payload : Type}

/-- Accepted by `schedule_one`. -/
def ScheduledItem.targeted {P : Type} (i : ScheduledItem P) : Prop := i.subscriberId ≠ none

namespace ScheduledBus
variable {config : BusConfig Payload} {s s' : ScheduledBus Payload} {now : TimePoint}

def Untouched (s : ScheduledBus Payload) (number : Nat) : Prop := ∀ t, s.given t number = 0

/-- What is left of a targeted call: the push for the subscriber that its id names, or nothing. -/
def Aims (s : ScheduledBus Payload) (due : ScheduledItem (Numbered Payload))
    (f : Frame Payload) : Prop :=
  (∃ id t, due.subscriberId = some id ∧ s.bus.subscriber id = some t ∧ f.unpushed = [t] ∧
    s.Untouched due.number) ∨ (f.unchecked = [] ∧ f.unpushed = [])

structure Aimed (s : ScheduledBus Payload) : Prop where
  distinct : (s.scheduler.accepted.map ScheduledItem.number).Nodup
  issued : ∀ i ∈ s.scheduler.accepted, i.number < s.requested
  unused : ∀ number, s.requested ≤ number → s.Untouched number
  resting : ∀ i, i ∈ s.scheduler.heap.values ∨ i ∈ s.scheduler.failed → i.targeted →
    s.Untouched i.number
  waiting : s.attempt ≠ .calling → s.attempt ≠ .ended .returned →
    ∀ due, s.scheduler.worker.inFlight = some due → due.targeted → s.Untouched due.number
  publishing : s.attempt ≠ .idle → ∃ due, s.scheduler.worker = .publishing due
  foreign : s.attempt ≠ .calling → ∀ f, s.bus.publishing = some f → f.call.caller = none
  calling : s.attempt = .calling → ∃ due f, s.scheduler.worker = .publishing due ∧
    s.bus.publishing = some f ∧ f.call.caller = some due.number ∧ (due.targeted → s.Aims due f)

theorem Aimed.attributed (inv : Aimed s) : Attributed s := by
  refine { inv with unused := ?_, calling := ?_ }
  · exact fun t number later => inv.unused number later t
  · intro calling
    obtain ⟨due, f, worker, hf, caller, -⟩ := inv.calling calling
    exact ⟨due, f, worker, hf, caller⟩

theorem Aimed.of_attributed (common : Attributed s)
    (resting : ∀ i, i ∈ s.scheduler.heap.values ∨ i ∈ s.scheduler.failed → i.targeted →
      s.Untouched i.number)
    (waiting : s.attempt ≠ .calling → s.attempt ≠ .ended .returned →
      ∀ due, s.scheduler.worker.inFlight = some due → due.targeted → s.Untouched due.number)
    (calling : s.attempt = .calling → ∃ due f, s.scheduler.worker = .publishing due ∧
      s.bus.publishing = some f ∧ f.call.caller = some due.number ∧
        (due.targeted → s.Aims due f)) : Aimed s :=
  { common with
    unused := fun number later t => common.unused t number later, resting, waiting, calling }

theorem aimed_schedule (inv : Aimed s) (r : Request Payload) : Aimed { s with
    scheduler := s.scheduler.schedule (r.numbered s.requested), requested := s.requested + 1 } := by
  have worker := Scheduler.worker_schedule (s := s.scheduler) (r := r.numbered s.requested)
  have failed : (s.scheduler.schedule (r.numbered s.requested)).failed = s.scheduler.failed := by
    unfold Scheduler.schedule
    split <;> rfl
  refine .of_attributed (attributed_schedule inv.attributed r) ?_ (worker ▸ inv.waiting)
    (worker ▸ inv.calling)
  intro i hi targeted
  rcases hi with hi | hi
  · rcases pending_schedule s r hi with number | hi
    · exact inv.unused _ number.ge
    · exact inv.resting i (.inl hi) targeted
  · exact inv.resting i (.inr (failed ▸ hi)) targeted

theorem aimed_scheduler (inv : Aimed s) {scheduler : Scheduler (Numbered Payload)}
    (accepted : scheduler.accepted = s.scheduler.accepted)
    (failed : scheduler.failed = s.scheduler.failed)
    (carries : s.scheduler.Carries scheduler) : Aimed { s with scheduler } := by
  have refused : ∀ due, s.scheduler.worker = .relockRetry due → due.targeted →
      s.Untouched due.number := by
    intro due worker
    have still := inv.attributed.idle fun other publishing => by simp [worker] at publishing
    exact inv.waiting (by simp [still]) (by simp [still]) due (by simp [worker, Worker.inFlight])
  obtain ⟨pending, taken⟩ := carries.all (p := fun i => i.targeted → s.Untouched i.number)
    (fun i hi => inv.resting i (.inl hi)) refused
  refine .of_attributed (attributed_scheduler inv.attributed accepted carries) ?_ ?_ ?_
  · intro i hi
    rcases hi with hi | hi
    · exact pending i hi
    · exact inv.resting i (.inr (failed ▸ hi))
  · intro calm opened due flight
    rcases taken due flight with clean | same
    · exact clean
    · exact inv.waiting calm opened due (same ▸ flight)
  · intro calling
    obtain ⟨due, f, worker, aims⟩ := inv.calling calling
    exact ⟨due, f, carries.publishing worker, aims⟩

theorem aimed_settle (inv : Aimed s) {outcome : PublishOutcome}
    (ended : s.attempt = .ended outcome) {due : ScheduledItem (Numbered Payload)}
    (worker : s.scheduler.worker = .publishing due) : Aimed { s with
      scheduler := s.scheduler.settle due outcome, attempt := .idle } := by
  have heap : (s.scheduler.settle due outcome).heap = s.scheduler.heap := by cases outcome <;> rfl
  have clean : outcome ≠ .returned → due.targeted → s.Untouched due.number := fun other =>
    inv.waiting (by simp [ended]) (by simpa [ended] using other) due
      (by simp [worker, Worker.inFlight])
  refine .of_attributed (attributed_settle inv.attributed ended due) ?_ ?_ (by simp)
  · intro i hi
    rw [show ({ s with
      scheduler := s.scheduler.settle due outcome, attempt := .idle } :
        ScheduledBus Payload).scheduler.heap = _ from heap] at hi
    rcases hi with hi | hi
    · exact inv.resting i (.inl hi)
    · cases outcome with
      | failed =>
        rcases List.mem_append.mp hi with hi | hi
        · exact inv.resting i (.inr hi)
        · cases List.mem_singleton.mp hi
          exact clean (by simp)
      | _ => exact inv.resting i (.inr hi)
  · intro _ _ e flight
    cases outcome with
    | overflow =>
      cases flight
      exact clean (by simp)
    | _ => cases flight

/-- A targeted call finds its subscriber, or throws. -/
theorem publish_targeted (bus : EventBus Payload) {r : PublishRequest Payload} {id : SubscriberId}
    (target : r.target = some id) :
    (bus.subscriber id = none ∧ bus.publish r = bus) ∨
      ∃ t, bus.subscriber id = some t ∧ bus.publish r = bus.begin r [t] := by
  unfold EventBus.publish
  rw [target]
  cases named : bus.subscriber id with
  | none => exact .inl ⟨rfl, by simp [named]⟩
  | some t => exact .inr ⟨t, rfl, by simp [named]⟩

theorem aimed_attempt (inv : Aimed s) {due : ScheduledItem (Numbered Payload)}
    (worker : s.scheduler.worker = .publishing due) (idle : s.attempt = .idle)
    (free : s.bus.publishing = none) :
    let bus := s.bus.publish due.publishRequest
    Aimed { s with
      bus, attempt := if bus.publishing.isSome then .calling else .ended .failed } := by
  have clean := inv.waiting (by simp [idle]) (by simp [idle]) due
    (by simp [worker, Worker.inFlight])
  have common := attributed_attempt inv.attributed worker free
  rcases publish_cases s.bus due.publishRequest with same | ⟨targets, same⟩
  · simp only [same, free, Option.isSome_none, Bool.false_eq_true, if_false] at common ⊢
    refine .of_attributed common inv.resting ?_ (by simp)
    intro _ _ e flight
    simp only [worker, Worker.inFlight, Option.some.injEq] at flight
    exact flight ▸ clean
  · have tried : (s.bus.begin due.publishRequest targets).publishing.isSome = true := rfl
    simp only [same, tried, if_true] at common ⊢
    refine .of_attributed common inv.resting (by simp) ?_
    intro _
    refine ⟨due, _, worker, rfl, rfl, fun targeted => ?_⟩
    obtain ⟨id, target⟩ := Option.ne_none_iff_exists'.mp targeted
    rcases publish_targeted s.bus (r := due.publishRequest) target with ⟨-, none⟩ |
      ⟨t, named, begun⟩
    · rw [same] at none
      have free' := congrArg EventBus.publishing none
      rw [free] at free'
      cases free'
    · have targets : (s.bus.begin due.publishRequest targets).publishing =
          (s.bus.begin due.publishRequest [t]).publishing :=
        congrArg EventBus.publishing (same.symm.trans begun)
      refine .inl ⟨id, t, target, named, ?_, clean targeted⟩
      simpa [EventBus.begin] using targets

section Bus
variable {a : BusAction Payload} {bus : EventBus Payload}

/-- The bus moves without the timing thread. -/
theorem aimed_bus_waiting (inv : Aimed s) (balanced : s.scheduler.ledger.Balanced)
    (waiting : s.attempt ≠ .calling) (own : a.composed = false)
    (effect : EventBus.Effect config s.bus a bus.traffic) : Aimed (s.moved bus) := by
  have common := attributed_bus inv.attributed balanced own effect
  rcases moved_cases s bus with ⟨calling, -⟩ | ⟨-, same⟩
  · exact absurd calling waiting
  rw [same] at common ⊢
  have kept : ∀ number, s.Untouched number →
      ({ s with bus } : ScheduledBus Payload).Untouched number := by
    intro number untouched t
    exact Nat.le_zero.mp (untouched t ▸ inv.attributed.given_le waiting effect t number)
  refine .of_attributed common ?_ ?_ ?_
  · intro i hi targeted
    exact kept _ (inv.resting i hi targeted)
  · intro calm opened due flight targeted
    exact kept _ (inv.waiting calm opened due flight targeted)
  · intro calling
    exact absurd calling waiting

/-- What the timing thread's call does to the requests. -/
theorem aimed_bus_calling (inv : Aimed s) (balanced : s.scheduler.ledger.Balanced)
    (calling : s.attempt = .calling) (own : a.composed = false)
    (membership : EventBus.Membership s.bus bus)
    (effect : EventBus.Effect config s.bus a bus.traffic) : Aimed (s.moved bus) := by
  obtain ⟨due, f, worker, hf, caller, aims⟩ := inv.calling calling
  have flight : s.scheduler.worker.inFlight = some due := by rw [worker]; rfl
  have common := attributed_bus inv.attributed balanced own effect
  have resting : ∀ i, i ∈ s.scheduler.heap.values ∨ i ∈ s.scheduler.failed → i.targeted →
      ({ s with bus } : ScheduledBus Payload).Untouched i.number := by
    intro i hi targeted t
    have other := flight_number_ne balanced inv.distinct flight hi
    have same := inv.attributed.given_eq calling worker effect t other
    exact same.trans (inv.resting i hi targeted t)
  have ended : ∀ outcome, bus.publishing = none → lastOutcome bus = outcome →
      (outcome ≠ .returned → due.targeted →
        ({ s with bus } : ScheduledBus Payload).Untouched due.number) → Aimed (s.moved bus) := by
    intro outcome none last clean
    rcases moved_cases s bus with ⟨-, -, same⟩ | ⟨going, -⟩
    · rw [same, last] at common
      rw [same, last]
      refine .of_attributed common resting ?_ (by simp)
      intro _ opened e flight'
      cases flight'.symm.trans flight
      exact clean (by simpa using opened)
    · exact absurd none (going calling)
  have goes : ∀ f', bus.publishing = some f' → f'.call.caller = some due.number →
      (due.targeted → ({ s with bus } : ScheduledBus Payload).Aims due f') →
        Aimed (s.moved bus) := by
    intro f' hf' caller' aims'
    rcases moved_cases s bus with ⟨-, none, -⟩ | ⟨-, same⟩
    · cases none.symm.trans hf'
    rw [same] at common ⊢
    refine .of_attributed common resting ?_ ?_
    · intro waiting
      exact absurd calling waiting
    · intro _
      exact ⟨due, f', worker, hf', caller', aims'⟩
  have follows : ∀ f', bus.publishing = some f' → f'.call.caller = some due.number := by
    intro f' hf'
    rcases EventBus.effect_follows effect hf with ⟨g, hg, same, -⟩ | ⟨none, -⟩
    · cases hg.symm.trans hf'
      exact same.trans caller
    · cases none.symm.trans hf'
  cases EventBus.effect_advances effect hf with
  | goes f' hf' unpushed unchecked same =>
    refine goes f' hf' (follows f' hf') fun targeted => ?_
    rcases aims targeted with ⟨id, t, target, named, left, untouched⟩ | ⟨checked, done⟩
    · refine .inl ⟨id, t, target, ?_, unpushed.trans left, ?_⟩
      · exact (membership.subscriber_eq hf id).trans named
      · exact fun u => (same u _).trans (untouched u)
    · exact .inr ⟨unchecked checked, unpushed.trans done⟩
  | pushes f' t rest hf' left checked unpushed _ =>
    refine goes f' hf' (follows f' hf') fun targeted => .inr ⟨checked, unpushed.trans ?_⟩
    rcases aims targeted with ⟨id, u, -, -, only, -⟩ | ⟨-, done⟩
    · simp only [left, List.cons.injEq] at only
      exact only.2
    · simp [left] at done
  | fails call e left none last same =>
    have outcome : lastOutcome bus = .of (.error e) := by
      have last : bus.ended = s.bus.ended ++ [(call, .error e)] := last
      simp [lastOutcome, last]
    refine ended _ none outcome fun _ targeted => ?_
    rcases aims targeted with ⟨id, t, -, -, -, untouched⟩ | ⟨checked, done⟩
    · exact fun u => (same u _).trans (untouched u)
    · simp [checked, done] at left
  | returns call result none last =>
    have outcome : lastOutcome bus = .returned := by
      have last : bus.ended = s.bus.ended ++ [(call, .ok result)] := last
      simp [lastOutcome, last, PublishOutcome.of]
    exact ended _ none outcome fun other => absurd rfl other

end Bus

theorem aimed_step (reached : Reachable (step config) (initial config now) s) (inv : Aimed s)
    {a : ScheduledBusAction Payload} (h : step config s a = some s') : Aimed s' := by
  have scheduler := scheduler_reachable reached
  have bus := bus_reachable reached
  cases a with
  | schedule r =>
    obtain ⟨_, hs, rfl⟩ := step_schedule.mp h
    obtain ⟨-, rfl⟩ := Scheduler.step_schedule.mp hs
    exact aimed_schedule inv r
  | scheduler a =>
    obtain ⟨own, _, hs, rfl⟩ := step_scheduler.mp h
    obtain ⟨accepted, failed, carries⟩ :=
      Scheduler.step_carries (Scheduler.noThread_reachable scheduler) own hs
    exact aimed_scheduler inv accepted failed carries
  | bus a =>
    obtain ⟨own, _, hb, rfl⟩ := step_bus.mp h
    have effect := EventBus.step_effect (EventBus.seated_reachable bus) hb
    have balanced := Scheduler.balanced_reachable scheduler
    by_cases calling : s.attempt = .calling
    · exact aimed_bus_calling inv balanced calling own (EventBus.step_membership hb) effect
    · exact aimed_bus_waiting inv balanced calling own effect
  | attempt =>
    obtain ⟨due, worker, idle, _, hb, rfl⟩ := step_attempt.mp h
    obtain ⟨free, rfl⟩ := EventBus.step_publish.mp hb
    exact aimed_attempt inv worker idle free
  | attemptThrow e =>
    obtain ⟨⟨due, worker⟩, idle, rfl⟩ := step_attemptThrow.mp h
    refine { inv with waiting := ?_, publishing := ?_, foreign := ?_, calling := ?_ }
    · intro _ _
      exact inv.waiting (by simp [idle]) (by simp [idle])
    · intro _
      exact ⟨due, worker⟩
    · intro _
      exact inv.foreign (by simp [idle])
    · intro calling
      cases calling
  | settle =>
    obtain ⟨outcome, ended, _, hs, rfl⟩ := step_settle.mp h
    obtain ⟨due, worker, rfl⟩ := Scheduler.step_settle.mp hs
    exact aimed_settle inv ended worker

theorem aimed_reachable (reached : Reachable (step config) (initial config now) s) :
    Aimed s := by
  induction reached with
  | start =>
    exact ⟨.nil, by simp [initial, Scheduler.initial], fun _ _ _ => rfl,
      by simp [initial, Scheduler.initial, TreeHeap.values],
      by simp [initial, Scheduler.initial, Worker.inFlight], fun trying => absurd rfl trying,
      by simp [initial, EventBus.initial], by simp [initial]⟩
  | next r a r' reached moves inv => exact aimed_step reached inv moves

/-! ## What happens to one request -/

/-- Only the call of the timing thread gives a partition the payload of a request, and it gives
it to its next target. -/
theorem grows_cases (reached : Reachable (step config) (initial config now) s)
    {a : ScheduledBusAction Payload} (h : step config s a = some s') {t : Token} {number : Nat}
    (grows : s.given t number < s'.given t number) :
    ∃ due f rest, s.attempt = .calling ∧ s.scheduler.worker = .publishing due ∧
      due.number = number ∧ f.unpushed = t :: rest ∧ (due.targeted → s.Aims due f) := by
  have inv := aimed_reachable reached
  cases a with
  | schedule r =>
    obtain ⟨_, _, rfl⟩ := step_schedule.mp h
    exact absurd grows (lt_irrefl _)
  | scheduler a =>
    obtain ⟨-, _, _, rfl⟩ := step_scheduler.mp h
    exact absurd grows (lt_irrefl _)
  | attempt =>
    obtain ⟨due, -, -, _, hb, rfl⟩ := step_attempt.mp h
    obtain ⟨-, rfl⟩ := EventBus.step_publish.mp hb
    rcases publish_cases s.bus due.publishRequest with same | ⟨targets, same⟩ <;>
      rw [given, given, same] at grows <;> exact absurd grows (lt_irrefl _)
  | attemptThrow e =>
    obtain ⟨-, -, rfl⟩ := step_attemptThrow.mp h
    exact absurd grows (lt_irrefl _)
  | settle =>
    obtain ⟨_, -, _, _, rfl⟩ := step_settle.mp h
    exact absurd grows (lt_irrefl _)
  | bus a =>
    obtain ⟨-, bus, hb, rfl⟩ := step_bus.mp h
    have effect := EventBus.step_effect (EventBus.seated_reachable (bus_reachable reached)) hb
    have after : (s.moved bus).given t number = bus.traffic.appliedBy t number := by
      rcases moved_cases s bus with ⟨-, -, same⟩ | ⟨-, same⟩ <;> rw [same] <;> rfl
    rw [after] at grows
    cases hf : s.bus.publishing with
    | none => exact absurd (EventBus.effect_idle effect hf t number) (not_le.mpr grows)
    | some f =>
      have caller : f.call.caller = some number := by
        by_contra other
        exact grows.ne' ((EventBus.effect_adds effect hf t).appliedBy_other other)
      by_cases calling : s.attempt = .calling
      · obtain ⟨due, g, worker, hg, mine, aims⟩ := inv.calling calling
        cases hg.symm.trans hf
        have same : due.number = number := Option.some.inj (mine.symm.trans caller)
        cases EventBus.effect_advances effect hf with
        | pushes f' u rest _ left _ _ others =>
          by_cases here : t = u
          · exact ⟨due, f, rest, calling, worker, same, here ▸ left, aims⟩
          · exact absurd (others t number here) grows.ne'
        | goes _ _ _ _ kept | fails _ _ _ _ _ kept | returns _ _ _ _ kept =>
          exact absurd (kept t number) grows.ne'
      · simp [inv.foreign calling f hf] at caller

theorem remembered {s s' : Scheduler (Numbered Payload)} (inv : Scheduler.NoThread s)
    (later : Reachable Scheduler.step s s') :
    s.accepted ⊆ s'.accepted ∧ s.failed ⊆ s'.failed := by
  induction later with
  | start => exact ⟨List.Subset.refl _, List.Subset.refl _⟩
  | next r a r' further moves ih =>
    have quiet : Scheduler.NoThread r :=
      further.invariant inv fun _ _ _ absent ha => Scheduler.noThread_step absent ha
    have entry := (Scheduler.step_entry quiet moves).remembered
    exact ⟨List.Subset.trans ih.1 entry.1, List.Subset.trans ih.2 entry.2⟩

/-- The request is about to be counted as failed, or has been. -/
def Dropped (s : ScheduledBus Payload) (due : ScheduledItem (Numbered Payload)) : Prop :=
  (s.attempt = .ended .failed ∧ s.scheduler.worker = .publishing due) ∨ due ∈ s.scheduler.failed

theorem dropped_step (reached : Reachable (step config) (initial config now) s)
    {due : ScheduledItem (Numbered Payload)} (dropped : s.Dropped due)
    {a : ScheduledBusAction Payload} (h : step config s a = some s') : s'.Dropped due := by
  have quiet := Scheduler.noThread_reachable (scheduler_reachable reached)
  rcases dropped with ⟨ended, worker⟩ | failed
  · have flight : s.scheduler.worker.inFlight = some due := by rw [worker]; rfl
    cases a with
    | schedule r =>
      obtain ⟨_, hs, rfl⟩ := step_schedule.mp h
      obtain ⟨-, rfl⟩ := Scheduler.step_schedule.mp hs
      exact .inl ⟨ended, Scheduler.worker_schedule.trans worker⟩
    | scheduler a =>
      obtain ⟨own, _, hs, rfl⟩ := step_scheduler.mp h
      obtain ⟨-, -, carries⟩ := Scheduler.step_carries quiet own hs
      cases carries with
      | stays _ same => exact .inl ⟨ended, same.trans worker⟩
      | moves _ none => cases none.symm.trans flight
      | extracts _ none => cases none.symm.trans flight
      | requeues _ other => cases other.symm.trans worker
    | bus a =>
      obtain ⟨-, bus, -, rfl⟩ := step_bus.mp h
      rcases moved_cases s bus with ⟨calling, -⟩ | ⟨-, same⟩
      · cases ended.symm.trans calling
      · rw [same]
        exact .inl ⟨ended, worker⟩
    | attempt =>
      obtain ⟨_, -, idle, -⟩ := step_attempt.mp h
      cases ended.symm.trans idle
    | attemptThrow e =>
      obtain ⟨-, idle, -⟩ := step_attemptThrow.mp h
      cases ended.symm.trans idle
    | settle =>
      obtain ⟨outcome, ended', _, hs, rfl⟩ := step_settle.mp h
      obtain ⟨due', worker', rfl⟩ := Scheduler.step_settle.mp hs
      cases ended.symm.trans ended'
      cases worker.symm.trans worker'
      exact .inr (by simp [Scheduler.settle])
  · exact .inr ((remembered quiet (step_parts h).1).2 failed)

theorem dropped_later (reached : Reachable (step config) (initial config now) s)
    (later : Reachable (step config) s s') {due : ScheduledItem (Numbered Payload)}
    (dropped : s.Dropped due) : s'.Dropped due := by
  induction later with
  | start => exact dropped
  | next r a r' further moves here => exact dropped_step (reached.trans further) here moves

/-- A request that was dropped has entered no partition and never will. -/
theorem dropped_untouched (reached : Reachable (step config) (initial config now) s)
    {due : ScheduledItem (Numbered Payload)} (targeted : due.targeted) (dropped : s.Dropped due) :
    s.Untouched due.number := by
  have inv := aimed_reachable reached
  rcases dropped with ⟨ended, worker⟩ | failed
  · exact inv.waiting (by simp [ended]) (by simp [ended]) due (by simp [worker, Worker.inFlight])
      targeted
  · exact inv.resting due (.inr failed) targeted

/-- Everyone but the subscription named at first has got nothing, or that one is gone. -/
def Exclusive (s : ScheduledBus Payload) (id : SubscriberId) (t₀ : Token) (number : Nat) : Prop :=
  (s.bus.subscriber id = some t₀ ∧ ∀ t, t ≠ t₀ → s.given t number = 0) ∨ s.bus.Gone t₀

/-- The item that `schedule` accepts. -/
def Issued (s : ScheduledBus Payload) (id : SubscriberId) (number : Nat) : Prop :=
  ∃ i ∈ s.scheduler.accepted, i.number = number ∧ i.subscriberId = some id

theorem issued_later (reached : Reachable (step config) (initial config now) s)
    (later : Reachable (step config) s s') {id : SubscriberId} {number : Nat}
    (issued : s.Issued id number) : s'.Issued id number := by
  obtain ⟨i, hi, same⟩ := issued
  have quiet := Scheduler.noThread_reachable (scheduler_reachable reached)
  have parts := later.project (f := scheduler) fun _ _ _ moves => (step_parts moves).1
  exact ⟨i, (remembered quiet parts).1 hi, same⟩

/-- The timing thread's item is the one that was issued. -/
theorem issued_target (reached : Reachable (step config) (initial config now) s)
    {id : SubscriberId} {due : ScheduledItem (Numbered Payload)}
    (worker : s.scheduler.worker = .publishing due) (issued : s.Issued id due.number) :
    due.subscriberId = some id := by
  obtain ⟨i, hi, same, target⟩ := issued
  have flight : s.scheduler.worker.inFlight = some due := by rw [worker]; rfl
  have balanced := Scheduler.balanced_reachable (scheduler_reachable reached)
  have found : i = due := List.inj_on_of_nodup_map (aimed_reachable reached).distinct hi
    (accepted_of_flight balanced flight) same
  exact found ▸ target

/-- What is left of a targeted call is for the subscriber that its id names. -/
theorem Aims.named {due : ScheduledItem (Numbered Payload)} {f : Frame Payload}
    (aims : s.Aims due f) {id : SubscriberId} (target : due.subscriberId = some id) {t : Token}
    {rest : List Token} (left : f.unpushed = t :: rest) : s.bus.subscriber id = some t := by
  rcases aims with ⟨_, u, target', named, only, -⟩ | ⟨-, none⟩
  · cases target.symm.trans target'
    simp only [left, List.cons.injEq] at only
    exact only.1 ▸ named
  · simp [left] at none

/-- The payload only goes where the id points at that moment. -/
theorem grows_named (reached : Reachable (step config) (initial config now) s)
    {a : ScheduledBusAction Payload} (h : step config s a = some s') {id : SubscriberId}
    {number : Nat} (issued : s.Issued id number) {t : Token}
    (grows : s.given t number < s'.given t number) : s.bus.subscriber id = some t := by
  obtain ⟨due, f, rest, -, worker, rfl, left, aims⟩ := grows_cases reached h grows
  have target := issued_target reached worker issued
  exact (aims (by simp [ScheduledItem.targeted, target])).named target left

/-- A push of the request's call, whether it returns or throws, concerns the subscriber that the id
names. -/
theorem pushes_named (reached : Reachable (step config) (initial config now) s) {id : SubscriberId}
    {number : Nat} (issued : s.Issued id number) {f : Frame Payload}
    (hf : s.bus.publishing = some f) (caller : f.call.caller = some number) {copy : Option Exn}
    {fault : PushPoint → Option Exn} (h : step config s (.bus (.push copy fault)) = some s') :
    ∃ t, s.bus.subscriber id = some t ∧ ∀ u, u ≠ t → s'.bus.objects u = s.bus.objects u := by
  have aimed := aimed_reachable reached
  have calling : s.attempt = .calling := by
    by_contra other
    cases (aimed.foreign other f hf).symm.trans caller
  obtain ⟨due, f', worker, hf', caller', aims⟩ := aimed.calling calling
  cases hf.symm.trans hf'
  cases caller.symm.trans caller'
  have target := issued_target reached worker issued
  obtain ⟨-, bus, hb, rfl⟩ := step_bus.mp h
  obtain ⟨g, hg, hp⟩ := EventBus.step_push.mp hb
  cases hf.symm.trans hg
  obtain ⟨t, rest, left, others⟩ := EventBus.push_others hp
  have named := (aims (by simp [ScheduledItem.targeted, target])).named target left
  refine ⟨t, named, fun u other => ?_⟩
  rw [moved_bus]
  exact others u other

theorem exclusive_step (reached : Reachable (step config) (initial config now) s)
    {a : ScheduledBusAction Payload} (h : step config s a = some s') {id : SubscriberId}
    {number : Nat} (issued : s.Issued id number) {t₀ : Token}
    (inv : s.Exclusive id t₀ number) : s'.Exclusive id t₀ number := by
  have bus := bus_reachable reached
  have parts := (step_parts h).2
  rcases inv with ⟨named, nothing⟩ | gone
  · have stays := EventBus.named_or_gone_later (EventBus.seated_reachable bus) parts named
    refine stays.imp_left fun still => ⟨still, fun t other => ?_⟩
    by_contra given
    have grows : s.given t number < s'.given t number := by
      rw [nothing t other]
      exact Nat.pos_of_ne_zero given
    exact other (Option.some.inj ((grows_named reached h issued grows).symm.trans named))
  · exact .inr (EventBus.gone_later parts gone)

theorem exclusive_later (reached : Reachable (step config) (initial config now) s)
    (later : Reachable (step config) s s') {id : SubscriberId} {number : Nat}
    (issued : s.Issued id number) {t₀ : Token} (exclusive : s.Exclusive id t₀ number) :
    s'.Exclusive id t₀ number := by
  induction later with
  | start => exact exclusive
  | next r a r' further moves here =>
    exact exclusive_step (reached.trans further) moves (issued_later reached further issued) here

/-- What holds, in any later state, of a request accepted for an id that named a subscriber. -/
structure KeepsTarget (config : BusConfig Payload) (id : SubscriberId) (t₀ : Token) (number : Nat)
    (s : ScheduledBus Payload) : Prop where
  toNamed : ∀ a s', step config s a = some s' →
    ∀ t, s.given t number < s'.given t number → s.bus.subscriber id = some t
  pushesNamed : ∀ f, s.bus.publishing = some f → f.call.caller = some number →
    ∀ copy fault s', step config s (.bus (.push copy fault)) = some s' →
      ∃ t, s.bus.subscriber id = some t ∧ ∀ u, u ≠ t → s'.bus.objects u = s.bus.objects u
  toOriginal : s.bus.subscriber id = some t₀ → ∀ t, t ≠ t₀ → s.given t number = 0
  unnamed : ∀ due, s.scheduler.worker = .publishing due → due.number = number →
    s.bus.subscriber id = none → ∀ s', step config s .attempt = some s' →
      ∀ s'', Reachable (step config) s' s'' → s''.Dropped due ∧ s''.Untouched number

theorem unnamed_dropped (reached : Reachable (step config) (initial config now) s)
    {id : SubscriberId} {due : ScheduledItem (Numbered Payload)}
    (worker : s.scheduler.worker = .publishing due) (issued : s.Issued id due.number)
    (unnamed : s.bus.subscriber id = none) (h : step config s .attempt = some s') :
    due.targeted ∧ s'.Dropped due := by
  have target := issued_target reached worker issued
  refine ⟨by simp [ScheduledItem.targeted, target], ?_⟩
  obtain ⟨due', worker', -, _, hb, rfl⟩ := step_attempt.mp h
  cases worker.symm.trans worker'
  obtain ⟨free, rfl⟩ := EventBus.step_publish.mp hb
  rcases publish_targeted s.bus (r := due.publishRequest) target with ⟨-, none⟩ | ⟨t, named, -⟩
  · refine .inl ⟨?_, worker⟩
    simp [none, free]
  · cases unnamed.symm.trans named

theorem issued_schedule {id : SubscriberId} {r : Request Payload}
    (accepting : s.scheduler.accepting = true) (target : r.subscriberId = some id)
    (accepts : step config s (.schedule r) = some s') : s'.Issued id s.requested := by
  obtain ⟨_, hs, rfl⟩ := step_schedule.mp accepts
  obtain ⟨-, rfl⟩ := Scheduler.step_schedule.mp hs
  let item : ScheduledItem (Numbered Payload) := ⟨r.forwardAt, s.scheduler.nextInsertionOrder,
    s.scheduler.nextScheduleId, r.subscriberId, r.eventId, r.superstep, (r.payload, s.requested)⟩
  refine ⟨item, ?_, rfl, target⟩
  simp [Scheduler.schedule, accepting, Request.numbered, item]

/-- A targeted request reaches the subscription that its id names when it is attempted: the one
it was accepted for, unless that one has been removed. If the id names none, it fails. -/
theorem targeted_keeps_target {id : SubscriberId} {t₀ : Token} {r : Request Payload}
    {s₀ s₁ : ScheduledBus Payload} (reached : Reachable (step config) (initial config now) s)
    (accepting : s.scheduler.accepting = true) (target : r.subscriberId = some id)
    (named : s.bus.subscriber id = some t₀) (accepts : step config s (.schedule r) = some s₀)
    (later : Reachable (step config) s₀ s₁) : KeepsTarget config id t₀ s.requested s₁ := by
  have reached₀ := reached.next accepts
  have issued₀ := issued_schedule accepting target accepts
  have exclusive₀ : s₀.Exclusive id t₀ s.requested := by
    obtain ⟨_, _, rfl⟩ := step_schedule.mp accepts
    exact .inl ⟨named, fun t _ => (aimed_reachable reached).unused s.requested le_rfl t⟩
  have reached₁ := reached₀.trans later
  have issued₁ := issued_later reached₀ later issued₀
  constructor
  case toNamed => exact fun a s' h t grows => grows_named reached₁ h issued₁ grows
  case pushesNamed =>
    exact fun f hf caller copy fault s' h => pushes_named reached₁ issued₁ hf caller h
  case toOriginal =>
    intro still
    rcases exclusive_later reached₀ later issued₀ exclusive₀ with ⟨-, nothing⟩ | gone
    · exact nothing
    · exact absurd still (gone.absent id)
  case unnamed =>
    intro due worker same unnamed s' h s'' further
    obtain ⟨targeted, dropped⟩ := unnamed_dropped reached₁ worker (same ▸ issued₁) unnamed h
    have remains := dropped_later (reached₁.next h) further dropped
    have untouched := dropped_untouched ((reached₁.next h).trans further) targeted remains
    exact ⟨remains, same ▸ untouched⟩

/-! ## A slot that is given to another subscription -/

/-- One subscriber in slot 0, which is token 0. -/
def oneSubscribed : List (ScheduledBusAction Nat) :=
  [.bus (.subscribe true), .scheduler (.start true)]

def forSlot0 : Request Nat := ⟨some 0, 7, 20, 5, 0⟩

/-- The timing thread forwards the request. -/
def forwards : List (ScheduledBusAction Nat) :=
  .scheduler (.work false) :: untilDue ++
    List.map .bus [.check, .push none fun _ => none, .publishReturn] ++ [.settle]

def afterRun (labels : List (ScheduledBusAction Nat)) : ScheduledBus Nat :=
  (run (step (smallBus (.user 0))) (initial (smallBus (.user 0)) 0) labels).getD
    (initial (smallBus (.user 0)) 0)

def sampleBefore : ScheduledBus Nat := afterRun oneSubscribed

def sampleAccepted : ScheduledBus Nat := afterRun (oneSubscribed ++ [.schedule forSlot0])

def sampleForwarded : ScheduledBus Nat :=
  afterRun (oneSubscribed ++ .schedule forSlot0 :: forwards)

/-- The subscription is removed and its slot given to another before the request is due. -/
def reusesSlot : List (ScheduledBusAction Nat) :=
  [.bus (.unsubscribe 0), .bus (.subscribe true)] ++ forwards

def sampleReused : ScheduledBus Nat :=
  afterRun (oneSubscribed ++ .schedule forSlot0 :: reusesSlot)

theorem sampleForwarded_keepsTarget : KeepsTarget (smallBus (.user 0)) 0 0 0 sampleForwarded ∧
    sampleForwarded.given 0 0 = 1 := by
  have reached : Reachable (step (smallBus (.user 0))) (initial (smallBus (.user 0)) 0)
      sampleBefore := ⟨oneSubscribed, rfl⟩
  have accepts : step (smallBus (.user 0)) sampleBefore (.schedule forSlot0) =
    some sampleAccepted := rfl
  have later : Reachable (step (smallBus (.user 0))) sampleAccepted sampleForwarded :=
    ⟨forwards, rfl⟩
  exact ⟨targeted_keeps_target reached rfl rfl rfl accepts later, by decide +kernel⟩

/-- The payload is put into the partition of the new subscription. -/
theorem slot_reuse_redirects :
    ¬∀ (config : BusConfig Nat) (now : TimePoint) (s s₀ s₁ : ScheduledBus Nat) (r : Request Nat)
      (id : SubscriberId) (t₀ : Token), Reachable (step config) (initial config now) s →
      s.scheduler.accepting = true → r.subscriberId = some id →
      s.bus.subscriber id = some t₀ → step config s (.schedule r) = some s₀ →
      Reachable (step config) s₀ s₁ → ∀ t, t ≠ t₀ → s₁.given t s.requested = 0 := by
  intro claimed
  have nothing := claimed (smallBus (.user 0)) 0 sampleBefore sampleAccepted sampleReused forSlot0
    0 0 ⟨oneSubscribed, rfl⟩ rfl rfl rfl rfl ⟨reusesSlot, rfl⟩ 1 (by decide)
  revert nothing
  decide +kernel

end ScheduledBus

end Yellowstone
