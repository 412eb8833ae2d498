import Yellowstone.Scheduling.Attribution

/-!
# Retried attempts

An attempt that a full partition refused has reached no partition, so the request goes back
into the heap as fresh as it was. If the merger, a copy or an allocation throws an
`overflow_error` of its own, the scheduler cannot tell, and a retry repeats what was done.
-/

set_option autoImplicit false

namespace Yellowstone

open Machine

variable {Payload : Type}

def Exn.overflows : Exn → Bool
  | .overflowError _ => true
  | _ => false

namespace ScheduledBus
variable {config : BusConfig Payload} {s s' : ScheduledBus Payload} {now : TimePoint}

/-- What has not been tried, or has only been refused, has reached no partition. -/
structure Tracked (s : ScheduledBus Payload) : Prop where
  distinct : (s.scheduler.accepted.map ScheduledItem.number).Nodup
  issued : ∀ i ∈ s.scheduler.accepted, i.number < s.requested
  unused : ∀ t number, s.requested ≤ number → s.given t number = 0
  pending : ∀ i ∈ s.scheduler.heap.values, ∀ t, s.given t i.number = 0
  untried : s.attempt = .idle ∨ s.attempt = .ended .overflow →
    ∀ due, s.scheduler.worker.inFlight = some due → ∀ t, s.given t due.number = 0
  publishing : s.attempt ≠ .idle → ∃ due, s.scheduler.worker = .publishing due
  foreign : s.attempt ≠ .calling → ∀ f, s.bus.publishing = some f → f.call.caller = none
  calling : s.attempt = .calling → ∃ due f, s.scheduler.worker = .publishing due ∧
    s.bus.publishing = some f ∧ f.call.caller = some due.number ∧
    ∀ t, s.given t due.number = s.bus.traffic.applied t f.call.ticket
  once : ∀ t number, s.given t number ≤ 1

theorem Tracked.attributed (inv : Tracked s) : Attributed s := by
  refine { inv with calling := ?_ }
  intro calling
  obtain ⟨due, f, worker, hf, caller, -⟩ := inv.calling calling
  exact ⟨due, f, worker, hf, caller⟩

theorem tracked_schedule (inv : Tracked s) (r : Request Payload) : Tracked { s with
    scheduler := s.scheduler.schedule (r.numbered s.requested), requested := s.requested + 1 } := by
  have worker := Scheduler.worker_schedule (s := s.scheduler) (r := r.numbered s.requested)
  refine { attributed_schedule inv.attributed r with
    pending := ?_, untried := worker ▸ inv.untried, calling := worker ▸ inv.calling,
    once := inv.once }
  intro i hi t
  rcases pending_schedule s r hi with number | hi
  · exact inv.unused t _ number.ge
  · exact inv.pending i hi t

/-- The scheduler moves an item between the heap and its thread. -/
theorem tracked_scheduler (inv : Tracked s) {scheduler : Scheduler (Numbered Payload)}
    (accepted : scheduler.accepted = s.scheduler.accepted)
    (carries : s.scheduler.Carries scheduler) : Tracked { s with scheduler } := by
  have refused : ∀ due, s.scheduler.worker = .relockRetry due → ∀ t, s.given t due.number = 0 := by
    intro due worker
    have resting := inv.attributed.idle fun other publishing => by simp [worker] at publishing
    exact inv.untried (.inl resting) due (by simp [worker, Worker.inFlight])
  obtain ⟨pending, taken⟩ :=
    carries.all (p := fun i => ∀ t, s.given t i.number = 0) inv.pending refused
  refine { attributed_scheduler inv.attributed accepted carries with
    pending, untried := ?_, calling := ?_, once := inv.once }
  · intro resting due flight
    rcases taken due flight with clean | same
    · exact clean
    · exact inv.untried resting due (same ▸ flight)
  · intro calling
    obtain ⟨due, f, worker, own⟩ := inv.calling calling
    exact ⟨due, f, carries.publishing worker, own⟩

theorem tracked_settle (inv : Tracked s) {outcome : PublishOutcome}
    (ended : s.attempt = .ended outcome) {due : ScheduledItem (Numbered Payload)}
    (worker : s.scheduler.worker = .publishing due) : Tracked { s with
      scheduler := s.scheduler.settle due outcome, attempt := .idle } := by
  have heap : (s.scheduler.settle due outcome).heap = s.scheduler.heap := by cases outcome <;> rfl
  refine { attributed_settle inv.attributed ended due with
    pending := heap ▸ inv.pending, untried := ?_, calling := by simp, once := inv.once }
  intro _ e flight
  cases outcome with
  | overflow =>
    cases flight
    exact inv.untried (.inr ended) due (by simp [worker, Worker.inFlight])
  | _ => cases flight

theorem tracked_attempt (inv : Tracked s) (logged : s.bus.traffic.Logged)
    {due : ScheduledItem (Numbered Payload)} (worker : s.scheduler.worker = .publishing due)
    (idle : s.attempt = .idle) (free : s.bus.publishing = none) :
    let bus := s.bus.publish due.publishRequest
    Tracked { s with
      bus, attempt := if bus.publishing.isSome then .calling else .ended .failed } := by
  have clean := inv.untried (.inl idle) due (by simp [worker, Worker.inFlight])
  have common := attributed_attempt inv.attributed worker free
  rcases publish_cases s.bus due.publishRequest with same | ⟨targets, same⟩ <;>
    rw [same] at common ⊢
  · simp only [free, Option.isSome_none, Bool.false_eq_true, if_false] at common ⊢
    exact { common with
      pending := inv.pending, untried := by simp, calling := by simp, once := inv.once }
  · have tried : (s.bus.begin due.publishRequest targets).publishing.isSome = true := rfl
    simp only [tried, if_true] at common ⊢
    refine { common with
      pending := inv.pending, untried := by simp, calling := ?_, once := inv.once }
    intro _
    refine ⟨due, _, worker, rfl, rfl, ?_⟩
    intro t
    exact (clean t).trans (logged.fresh t s.bus.tickets le_rfl).symm

/-! ## Where nothing throws an `overflow_error` but a full partition -/

/-- Neither a copy nor an allocation of this step throws an `overflow_error`. -/
def plain (_ : ScheduledBus Payload) : ScheduledBusAction Payload → Bool
  | .bus (.push copy fault) => !copy.any Exn.overflows && !(fault .level).any Exn.overflows &&
    !(fault .append).any Exn.overflows && !(fault .index).any Exn.overflows
  | _ => true

theorem calm_of_plain {a : BusAction Payload} (plainly : s.plain (.bus a) = true)
    (merges : ∀ current incoming what,
      (config.merger current incoming).2 ≠ some (.overflowError what)) (what : String) :
    ¬EventBus.CanThrow config a (.overflowError what) := by
  rintro (⟨current, incoming, throws⟩ | ⟨copy, fault, rfl, rfl | ⟨point, throws⟩⟩)
  · exact merges current incoming what throws
  · simp [plain, Exn.overflows] at plainly
  · cases point <;> simp [plain, throws, Exn.overflows] at plainly

/-- The bus does nothing, or takes a step that throws no `overflow_error` either. -/
theorem plain_bus {a : ScheduledBusAction Payload} (plainly : s.plain a = true)
    (h : step config s a = some s') :
    s'.bus = s.bus ∨ ∃ b, s.bus.step config b = some s'.bus ∧ s.plain (.bus b) = true := by
  cases a with
  | schedule r =>
    obtain ⟨scheduler, -, rfl⟩ := step_schedule.mp h
    exact .inl rfl
  | scheduler a =>
    obtain ⟨-, scheduler, -, rfl⟩ := step_scheduler.mp h
    exact .inl rfl
  | bus a =>
    obtain ⟨-, bus, hb, rfl⟩ := step_bus.mp h
    exact .inr ⟨a, hb.trans (by rw [moved_bus]), plainly⟩
  | attempt =>
    obtain ⟨due, -, -, bus, hb, rfl⟩ := step_attempt.mp h
    exact .inr ⟨_, hb, rfl⟩
  | attemptThrow e =>
    obtain ⟨-, -, rfl⟩ := step_attemptThrow.mp h
    exact .inl rfl
  | settle =>
    obtain ⟨outcome, -, scheduler, -, rfl⟩ := step_settle.mp h
    exact .inl rfl

/-- A call that ends in an `overflow_error` has pushed nothing, and nothing broke it off. -/
theorem overflow_refused (merges : ∀ current incoming what,
      (config.merger current incoming).2 ≠ some (.overflowError what))
    (reached : Reachable (guarded (step config) plain) (initial config now) s)
    {call : BusCall Payload} {what : String}
    (ended : (call, .error (.overflowError what)) ∈ s.bus.ended) :
    call.threw = false ∧ call.pushes = [] := by
  suffices unbroken : call.threw = false from
    ⟨unbroken, ((EventBus.failed_reachable (bus_reachable reached.of_guarded) ended).refused
      unbroken).2.1⟩
  induction reached with
  | start => cases ended
  | next r a r' reached moves ih =>
    obtain ⟨plainly, hs⟩ := guarded_eq_some.mp moves
    rcases plain_bus plainly hs with same | ⟨b, hb, calm⟩
    · exact ih (same ▸ ended)
    · have bus := bus_reachable reached.of_guarded
      have effect := EventBus.step_effect (EventBus.seated_reachable bus) hb
      by_contra threw
      rcases EventBus.effect_threw effect
        (fun f hf => ((EventBus.logged_reachable bus).frame f hf).normal) ended
        (by simpa using threw) with before | can
      · exact threw (ih before)
      · exact calm_of_plain calm merges what can

/-! ## The bus -/

section Bus
variable {bus : EventBus Payload} {a : BusAction Payload}

/-- No call of the timing thread is under way. -/
theorem tracked_bus_waiting (inv : Tracked s) (balanced : s.scheduler.ledger.Balanced)
    (waiting : s.attempt ≠ .calling) (own : a.composed = false)
    (effect : EventBus.Effect config s.bus a bus.traffic) : Tracked (s.moved bus) := by
  have common := attributed_bus inv.attributed balanced own effect
  rcases moved_cases s bus with ⟨calling, -⟩ | ⟨-, same⟩
  · exact absurd calling waiting
  rw [same] at common ⊢
  have given := inv.attributed.given_le waiting effect
  have kept : ∀ t number, s.given t number = 0 → bus.traffic.appliedBy t number = 0 := by
    intro t number none
    exact Nat.le_zero.mp (none ▸ given t number)
  refine { common with pending := ?_, untried := ?_, calling := ?_, once := ?_ }
  · intro i hi t
    exact kept t _ (inv.pending i hi t)
  · intro resting due flight t
    exact kept t _ (inv.untried resting due flight t)
  · intro calling
    exact absurd calling waiting
  · intro t number
    exact (given t number).trans (inv.once t number)

/-- The call of the timing thread goes on or ends. -/
theorem tracked_bus_calling (inv : Tracked s) (balanced : s.scheduler.ledger.Balanced)
    (logged : bus.traffic.Logged)
    (failed : ∀ call e, (call, .error e) ∈ bus.ended → EventBus.FailedCall bus call e)
    (unbroken : ∀ call what, (call, .error (.overflowError what)) ∈ bus.ended → call.threw = false)
    (calling : s.attempt = .calling) (own : a.composed = false)
    (effect : EventBus.Effect config s.bus a bus.traffic) : Tracked (s.moved bus) := by
  obtain ⟨due, f, worker, hf, caller, counted⟩ := inv.calling calling
  have flight : s.scheduler.worker.inFlight = some due := by rw [worker]; rfl
  have common := attributed_bus inv.attributed balanced own effect
  have others : ∀ t number, number ≠ due.number →
      bus.traffic.appliedBy t number = s.given t number := by
    intro t number
    exact inv.attributed.given_eq calling worker effect t
  have mine : ∀ t, bus.traffic.appliedBy t due.number = bus.traffic.applied t f.call.ticket :=
    fun t => (EventBus.effect_adds effect hf t).appliedBy_own caller (counted t)
  have pending : ∀ i ∈ s.scheduler.heap.values, ∀ t, bus.traffic.appliedBy t i.number = 0 := by
    intro i hi t
    have other := flight_number_ne balanced inv.distinct flight (.inl hi)
    exact (others t _ other).trans (inv.pending i hi t)
  have once : ∀ call : BusCall Payload, call.ticket = f.call.ticket →
      bus.traffic.Applied call → ∀ t number, bus.traffic.appliedBy t number ≤ 1 := by
    intro call ticket applied t number
    by_cases same : number = due.number
    · rw [same, mine t, ← ticket, applied.counted]
      split <;> simp
    · exact (others t number same).trans_le (inv.once t number)
  rcases EventBus.effect_follows effect hf with ⟨f', hf', caller', ticket⟩ |
    ⟨none, call, outcome, ended, ticket⟩
  · rcases moved_cases s bus with ⟨-, none, -⟩ | ⟨-, same⟩
    · cases none.symm.trans hf'
    rw [same] at common ⊢
    refine { common with pending, untried := by simp [calling], calling := ?_, once := ?_ }
    · intro _
      exact ⟨due, f', worker, hf', caller'.trans caller, fun t => ticket ▸ mine t⟩
    · exact once f'.call ticket (logged.frame f' hf').applied
  · rcases moved_cases s bus with ⟨-, -, same⟩ | ⟨going, -⟩
    · have last : bus.ended = s.bus.ended ++ [(call, outcome)] := ended
      have member : (call, outcome) ∈ bus.ended := last ▸ by simp
      rw [same] at common ⊢
      refine { common with pending, untried := ?_, calling := by simp, once := ?_ }
      · intro refused e flight' t
        cases flight'.symm.trans flight
        have overflow : PublishOutcome.of outcome = .overflow := by
          simpa [lastOutcome, last] using refused
        obtain ⟨what, rfl⟩ : ∃ what, outcome = .error (.overflowError what) := by
          unfold PublishOutcome.of at overflow
          split at overflow <;> first | exact ⟨_, rfl⟩ | cases overflow
        have clean := ((failed call _ member).refused (unbroken call what member)).2.2 t
        exact (mine t).trans (ticket ▸ clean)
      · exact once call ticket (logged.ended _ member).1
    · exact absurd none (going calling)

end Bus

/-! ## Runs -/

theorem tracked_step (reached : Reachable (step config) (initial config now) s) (inv : Tracked s)
    {a : ScheduledBusAction Payload} (h : step config s a = some s')
    (unbroken : ∀ call what,
      (call, .error (.overflowError what)) ∈ s'.bus.ended → call.threw = false) : Tracked s' := by
  have scheduler := scheduler_reachable reached
  have bus := bus_reachable reached
  have logged := EventBus.logged_reachable bus
  cases a with
  | schedule r =>
    obtain ⟨_, hs, rfl⟩ := step_schedule.mp h
    obtain ⟨-, rfl⟩ := Scheduler.step_schedule.mp hs
    exact tracked_schedule inv r
  | scheduler a =>
    obtain ⟨own, _, hs, rfl⟩ := step_scheduler.mp h
    obtain ⟨accepted, -, carries⟩ :=
      Scheduler.step_carries (Scheduler.noThread_reachable scheduler) own hs
    exact tracked_scheduler inv accepted carries
  | bus a =>
    obtain ⟨own, _, hb, rfl⟩ := step_bus.mp h
    have effect := EventBus.step_effect (EventBus.seated_reachable bus) hb
    have balanced := Scheduler.balanced_reachable scheduler
    by_cases calling : s.attempt = .calling
    · have later := bus.next hb
      exact tracked_bus_calling inv balanced (EventBus.logged_reachable later)
        (fun _ _ => EventBus.failed_reachable later) (by simpa using unbroken) calling own effect
    · exact tracked_bus_waiting inv balanced calling own effect
  | attempt =>
    obtain ⟨due, worker, idle, _, hb, rfl⟩ := step_attempt.mp h
    obtain ⟨free, rfl⟩ := EventBus.step_publish.mp hb
    exact tracked_attempt inv logged worker idle free
  | attemptThrow e =>
    obtain ⟨⟨due, worker⟩, idle, rfl⟩ := step_attemptThrow.mp h
    refine { inv with untried := ?_, publishing := ?_, foreign := ?_, calling := ?_ }
    · intro _
      exact inv.untried (.inl idle)
    · intro _
      exact ⟨due, worker⟩
    · intro _
      exact inv.foreign (by simp [idle])
    · intro calling
      cases calling
  | settle =>
    obtain ⟨outcome, ended, _, hs, rfl⟩ := step_settle.mp h
    obtain ⟨due, worker, rfl⟩ := Scheduler.step_settle.mp hs
    exact tracked_settle inv ended worker

theorem tracked_reachable (merges : ∀ current incoming what,
      (config.merger current incoming).2 ≠ some (.overflowError what))
    (reached : Reachable (guarded (step config) plain) (initial config now) s) : Tracked s := by
  induction reached with
  | start =>
    exact ⟨.nil, nofun, fun _ _ _ => rfl, nofun, fun _ _ => nofun, fun trying => absurd rfl trying,
      fun _ => nofun, nofun, fun _ _ => Nat.zero_le _⟩
  | next r a r' reached moves inv =>
    have hs := (guarded_eq_some.mp moves).2
    exact tracked_step reached.of_guarded inv hs fun _ _ ended =>
      (overflow_refused merges (reached.next moves) ended).1

def sumUpTo100 (refusal : Exn) : Merger Nat := fun current incoming =>
  if current + incoming ≤ 100 then (current + incoming, none) else (current, some refusal)

def smallBus (refusal : Exn) : BusConfig Nat := ⟨2, 1, sumUpTo100 refusal, Nat.one_pos⟩

/-- Two subscribers; only the second has an event. -/
def oneHolds (eventId : EventId) : List (BusAction Nat) :=
  [.subscribe true, .subscribe true] ++ EventBus.publishAll 1 ⟨none, some 1, eventId, 90, 0⟩

/-- The merger throws for the second of two targets. -/
def broadcast : List (BusAction Nat) :=
  [.check, .check, .push none fun _ => none, .push none fun _ => none]

/-- The timing thread goes from `loopHead` to its call on the bus. -/
def untilDue : List (ScheduledBusAction Nat) :=
  List.map .scheduler (Scheduler.timedWait 5 ++ [.work false]) ++ [.attempt]

/-- From an attempt that was refused back to `loopHead`. -/
def backOff : List (ScheduledBusAction Nat) :=
  .settle :: List.map .scheduler [.work false, .work false, .work false, .wake, .work true]

def started : List (ScheduledBusAction Nat) :=
  [.scheduler (.start true), .schedule ⟨none, 7, 20, 5, 0⟩, .scheduler (.work false)]

/-- The first attempt finds the second partition full, the next one finds room. -/
def refusedOnce : List (ScheduledBusAction Nat) :=
  List.map .bus (oneHolds 8) ++ started ++ untilDue ++ [.bus .check, .bus .check] ++ backOff ++
    List.map .bus [.start, .register, .startReturn, .work 1, .look 1, .poll 1] ++ untilDue ++
    List.map .bus broadcast ++ [.bus .publishReturn, .settle]

def sampleRetried : ScheduledBus Nat :=
  (run (guarded (step (smallBus (.user 0))) plain) (initial (smallBus (.user 0)) 0)
    refusedOnce).getD (initial (smallBus (.user 0)) 0)

theorem sumUpTo100_plain (current incoming : Nat) (what : String) :
    (sumUpTo100 (.user 0) current incoming).2 ≠ some (.overflowError what) := by
  unfold sumUpTo100
  split <;> simp

end ScheduledBus

end Yellowstone
