import Mathlib.Data.Int.Order.Basic
import Mathlib.Tactic.Linarith
import Yellowstone.Scheduling.SchedulerDeadline

/-!
# Deadlines in Unix nanoseconds

The system clock counts ticks of a fixed number of nanoseconds. A deadline in nanoseconds is
converted to a time point by truncation; the clock shows the last tick that has passed. What
the truncation does to one deadline, and to two, is decided by the multiples of the tick.
-/

set_option autoImplicit false

namespace Yellowstone

open Machine

/-! ## The conversion -/

/-- A value of `std::int64_t`. -/
def InInt64 (n : Int) : Prop := -2 ^ 63 ≤ n ∧ n < 2 ^ 63

instance (n : Int) : Decidable (InInt64 n) := inferInstanceAs (Decidable (_ ∧ _))

/-- `std::chrono::duration_cast` from a period `num / den` times as long as the other. -/
def durationCast (num den : Nat) (count : Int) : Int := (count * num).tdiv den

/-- `Scheduler::m_to_time_point` where the clock counts ticks of `tick` nanoseconds. -/
def toTimePoint (tick : Nat) (unixNanoseconds : Int) : TimePoint :=
  durationCast 1 tick unixNanoseconds

/-- The arguments of `schedule_at_unix_nanoseconds`, and of `schedule_one_at_unix_nanoseconds`
if there is a subscriber. -/
structure UnixCall (Payload : Type) where
  subscriberId : Option SubscriberId
  eventId : EventId
  payload : Payload
  forwardAtUnixNanoseconds : Int
  superstep : Superstep
deriving DecidableEq, Repr

/-- What is passed on to `schedule` or `schedule_one`, or the `invalid_argument` thrown. -/
def UnixCall.request {Payload : Type} (call : UnixCall Payload) (tick : Nat) :
    Except String (Request Payload) :=
  if call.forwardAtUnixNanoseconds ≤ 0 then
    .error "scheduled events require a positive Unix nanosecond timestamp"
  else .ok {
    subscriberId := call.subscriberId
    eventId := call.eventId
    payload := call.payload
    forwardAt := toTimePoint tick call.forwardAtUnixNanoseconds
    superstep := call.superstep }

/-- A positive 64-bit timestamp: one that is accepted. -/
def Timestamp (d : Int) : Prop := 0 < d ∧ InInt64 d

instance (d : Int) : Decidable (Timestamp d) := inferInstanceAs (Decidable (_ ∧ _))

section Conversion
variable {tick : Nat} {d d₁ d₂ : Int}

theorem toTimePoint_eq (positive : 0 ≤ d) : toTimePoint tick d = d / tick := by
  simp [toTimePoint, durationCast, Int.tdiv_eq_ediv_of_nonneg positive]

theorem UnixCall.request_ok {Payload : Type} {call : UnixCall Payload} {r : Request Payload}
    (h : call.request tick = .ok r) : 0 < call.forwardAtUnixNanoseconds ∧
      r.forwardAt = toTimePoint tick call.forwardAtUnixNanoseconds := by
  unfold UnixCall.request at h
  split at h
  · cases h
  · cases h
    exact ⟨not_le.mp ‹_›, rfl⟩

/-- Neither the product nor the quotient leaves 64 bits. -/
theorem toTimePoint_in_int64 (tick : Nat) (stamp : Timestamp d) :
    InInt64 (d * (1 : Nat)) ∧ InInt64 (toTimePoint tick d) := by
  obtain ⟨positive, low, high⟩ := stamp
  rw [toTimePoint_eq positive.le]
  have below : d / (tick : Int) ≤ d := Int.ediv_le_self _ positive.le
  have above : 0 ≤ d / (tick : Int) := Int.ediv_nonneg positive.le (Int.natCast_nonneg tick)
  refine ⟨by simpa using ⟨low, high⟩, ?_, lt_of_le_of_lt below high⟩
  omega

theorem le_toTimePoint_mul_iff (positive : 0 ≤ d) :
    d ≤ toTimePoint tick d * tick ↔ (tick : Int) ∣ d := by
  rw [toTimePoint_eq positive]
  constructor
  · intro later
    have split := Int.emod_add_mul_ediv d tick
    have comm := mul_comm (d / tick) (tick : Int)
    rcases Nat.eq_zero_or_pos tick with rfl | ticking
    · simp at later
      exact ⟨0, by omega⟩
    · have rest : 0 ≤ d % (tick : Int) := Int.emod_nonneg d (by omega)
      exact Int.dvd_of_emod_eq_zero (by linarith)
  · intro divides
    exact (Int.ediv_mul_cancel divides).ge

variable (ticking : 0 < tick)
include ticking

theorem toTimePoint_mul_le (positive : 0 ≤ d) : toTimePoint tick d * tick ≤ d := by
  rw [toTimePoint_eq positive]
  exact Int.ediv_mul_le d (by omega)

theorem toTimePoint_mono (positive : 0 ≤ d₁) (h : d₁ ≤ d₂) :
    toTimePoint tick d₁ ≤ toTimePoint tick d₂ := by
  rw [toTimePoint_eq positive, toTimePoint_eq (positive.trans h)]
  exact Int.ediv_le_ediv (by omega) h

/-- Two deadlines stay apart exactly when a tick falls after the first, up to the second. -/
theorem toTimePoint_lt_iff (positive : 0 ≤ d₁) (positive' : 0 ≤ d₂) :
    toTimePoint tick d₁ < toTimePoint tick d₂ ↔ ∃ k : Int, d₁ < k * tick ∧ k * tick ≤ d₂ := by
  have size : (0 : Int) < tick := by omega
  rw [toTimePoint_eq positive, toTimePoint_eq positive']
  constructor
  · intro apart
    exact ⟨d₂ / tick, (Int.ediv_lt_iff_lt_mul size).mp apart, Int.ediv_mul_le d₂ size.ne'⟩
  · rintro ⟨k, after, upto⟩
    exact lt_of_lt_of_le ((Int.ediv_lt_iff_lt_mul size).mpr after)
      ((Int.le_ediv_iff_mul_le size).mpr upto)

end Conversion

/-! ## The scheduler in true time -/

/-- A scheduler, the true time in nanoseconds, and the timestamps given for accepted items. -/
structure UnixScheduler (Payload : Type) where
  scheduler : Scheduler Payload
  trueTime : Int
  stamps : List (ScheduledItem Payload × Int)
deriving DecidableEq, Repr

inductive UnixAction (Payload : Type) where
  | scheduleAt (call : UnixCall Payload)
  /-- Time passes, and the clock with it. -/
  | pass (trueTime : Int)
  /-- Any step of the scheduler that does not set the clock. -/
  | other (action : SchedulerAction Payload)
deriving DecidableEq, Repr

namespace UnixScheduler
variable {Payload : Type}

def initial (tick : Nat) (trueTime : Int) : UnixScheduler Payload where
  scheduler := .initial (trueTime / tick)
  trueTime := trueTime
  stamps := []

def step (tick : Nat) (s : UnixScheduler Payload) :
    UnixAction Payload → Option (UnixScheduler Payload)
  | .scheduleAt call =>
    match call.request tick with
    | .error _ => some s
    | .ok request => (s.scheduler.step (.schedule request)).map fun t =>
      let accepted := t.accepted.drop s.scheduler.accepted.length
      { s with
        scheduler := t
        stamps := s.stamps ++ accepted.map fun i => (i, call.forwardAtUnixNanoseconds) }
  | .pass trueTime =>
    if s.trueTime ≤ trueTime then
      (s.scheduler.step (.setClock (trueTime / tick))).map fun t =>
        { s with scheduler := t, trueTime := trueTime }
    else none
  | .other (.setClock _) => none
  | .other action => (s.scheduler.step action).map fun t => { s with scheduler := t }

section Steps
variable {tick : Nat} {s s' : UnixScheduler Payload}

theorem step_cases {a : UnixAction Payload} (h : step tick s a = some s') :
    s' = s ∨
    (∃ (call : UnixCall Payload) (r : Request Payload) (t : Scheduler Payload),
      call.request tick = .ok r ∧ s.scheduler.step (.schedule r) = some t ∧ s' = { s with
        scheduler := t
        stamps := s.stamps ++ (t.accepted.drop s.scheduler.accepted.length).map
          fun i => (i, call.forwardAtUnixNanoseconds) }) ∨
    (∃ time, s.trueTime ≤ time ∧ s' = { s with
      scheduler := { s.scheduler with now := time / tick }, trueTime := time }) ∨
    (∃ action t, (∀ now, action ≠ .setClock now) ∧ s.scheduler.step action = some t ∧
      s' = { s with scheduler := t }) := by
  cases a with
  | scheduleAt call =>
    simp only [step] at h
    split at h
    · cases h
      exact .inl rfl
    · obtain ⟨t, moved, rfl⟩ := Option.map_eq_some_iff.mp h
      exact .inr (.inl ⟨call, _, t, ‹_›, moved, rfl⟩)
  | pass time =>
    simp only [step] at h
    split at h
    · cases h
      exact .inr (.inr (.inl ⟨time, ‹_›, rfl⟩))
    · cases h
  | other action =>
    have moved : (∀ now, action ≠ .setClock now) ∧
        (s.scheduler.step action).map (fun t => { s with scheduler := t }) = some s' := by
      cases action with
      | setClock now => cases h
      | _ => exact ⟨by simp, h⟩
    obtain ⟨t, moves, rfl⟩ := Option.map_eq_some_iff.mp moved.2
    exact .inr (.inr (.inr ⟨action, t, moved.1, moves, rfl⟩))

end Steps

end UnixScheduler

/-! ## The clock that ended a wait -/

/-- The reading of the clock that made a wait time out, until the item is extracted. -/
def Worker.reading {Payload : Type} : Worker Payload → Option TimePoint
  | .timedOut _ _ clock | .elapsed _ _ clock => some clock
  | _ => none

namespace Scheduler
variable {Payload : Type} {s s' : Scheduler Payload} {a : SchedulerAction Payload}

/-- The clock has not been set back since it was read. -/
def Clocked (s : Scheduler Payload) : Prop := ∀ clock ∈ s.worker.reading, clock ≤ s.now

theorem reading_woken (w : Worker Payload) : w.woken.reading = w.reading := by
  cases w <;> rfl

theorem Moves.reading {w w' : Worker Payload} {o : Option (ScheduledItem Payload)}
    (h : Moves s w w' o) : ∀ clock ∈ w'.reading, clock ∈ w.reading ∨ clock = s.now := by
  intro clock read
  cases h with
  | timeout d o due => exact .inr (Option.some.inj read).symm
  | elapse d o c quiet => exact .inl read
  | _ => cases read

/-- What a step may do to the clock and to its last reading. -/
structure ClockKept (s s' : Scheduler Payload) : Prop where
  now : s'.now = s.now
  reading : ∀ clock ∈ s'.worker.reading, clock ∈ s.worker.reading ∨ clock = s.now

theorem ClockKept.same (now : s'.now = s.now) (reading : s'.worker.reading = s.worker.reading) :
    ClockKept s s' :=
  ⟨now, fun _ read => .inl (reading ▸ read)⟩

theorem ClockKept.lost (now : s'.now = s.now) (reading : s'.worker.reading = none) :
    ClockKept s s' :=
  ⟨now, fun _ read => by simp [reading] at read⟩

theorem ClockKept.clocked (kept : ClockKept s s') (inv : Clocked s) : Clocked s' := by
  intro clock read
  rw [kept.now]
  exact (kept.reading clock read).elim (inv clock) fun now => now.le

theorem clockKept_schedule (r : Request Payload) : ClockKept s (s.schedule r) := by
  unfold schedule
  split <;> exact .same rfl rfl

theorem clockKept_start (created : Bool) : ClockKept s (s.start created) := by
  unfold start
  split
  · exact .same rfl rfl
  · split
    · exact .lost rfl rfl
    · exact .same rfl rfl

/-- Only `setClock` changes the clock, and only a timeout reads it. -/
theorem step_clockKept (kept : ∀ now, a ≠ .setClock now) (h : step s a = some s') :
    ClockKept s s' := by
  cases a with
  | schedule r =>
    obtain ⟨-, rfl⟩ := step_schedule.mp h
    exact clockKept_schedule r
  | notify id =>
    obtain ⟨-, rfl⟩ := step_notify.mp h
    exact .same rfl (reading_woken s.worker)
  | start created =>
    obtain ⟨-, -, rfl⟩ := step_start.mp h
    exact clockKept_start created
  | stop =>
    obtain ⟨-, -, rfl⟩ := step_stop.mp h
    exact .same rfl rfl
  | requestStop =>
    obtain ⟨-, ⟨-, rfl⟩ | ⟨-, rfl⟩⟩ := step_requestStop.mp h
    · exact .same rfl rfl
    · exact .same rfl rfl
  | notifyAll =>
    obtain ⟨-, rfl⟩ := step_notifyAll.mp h
    exact .same rfl (reading_woken s.worker)
  | join =>
    obtain ⟨-, -, rfl⟩ := step_join.mp h
    exact .lost rfl rfl
  | stopReturn =>
    obtain ⟨-, rfl⟩ := step_stopReturn.mp h
    exact .same rfl rfl
  | setClock now => exact absurd rfl (kept now)
  | wake =>
    obtain ⟨-, rfl⟩ := step_wake.mp h
    exact .same rfl (reading_woken s.worker)
  | work timeout =>
    rcases workStep_cases h with ⟨w, o, move, rfl⟩ | ⟨d, o, c, due, heap, -, -, -, rfl⟩ |
      ⟨due, -, rfl⟩
    · exact ⟨rfl, move.reading⟩
    · exact .lost rfl rfl
    · exact .lost rfl rfl
  | settle outcome =>
    obtain ⟨due, -, rfl⟩ := step_settle.mp h
    cases outcome <;> exact .lost rfl rfl

/-- What a call of `schedule` accepts has the deadline it was given. -/
theorem schedule_accepts {r : Request Payload} {i : ScheduledItem Payload}
    (hi : i ∈ (s.schedule r).accepted.drop s.accepted.length) : i.forwardAt = r.forwardAt := by
  unfold schedule at hi
  split at hi
  · rw [List.drop_left] at hi
    cases List.mem_singleton.mp hi
    rfl
  · simp at hi

end Scheduler

namespace UnixScheduler
variable {Payload : Type} {tick : Nat} {s s' : UnixScheduler Payload} {start : Int}

/-- The steps seen by the scheduler alone. -/
theorem scheduler_reachable (reached : Reachable (step tick) (initial tick start) s) :
    Reachable Scheduler.step (.initial (start / tick)) s.scheduler := by
  refine reached.project (f := scheduler) ?_
  intro r a r' moves
  rcases step_cases moves with rfl | ⟨call, request, t, -, moved, rfl⟩ | ⟨time, -, rfl⟩ |
    ⟨action, t, -, moved, rfl⟩
  · exact .refl _
  · exact (Reachable.refl _).next moved
  · exact (Reachable.refl _).next (a := .setClock (time / tick)) rfl
  · exact (Reachable.refl _).next moved

/-- The clock shows the last tick, and the timestamps were converted once, on acceptance. -/
structure Timed (tick : Nat) (s : UnixScheduler Payload) : Prop where
  now : s.scheduler.now = s.trueTime / tick
  clocked : s.scheduler.Clocked
  stamped : ∀ i d, (i, d) ∈ s.stamps → 0 < d ∧ i.forwardAt = toTimePoint tick d

theorem timed_schedule (inv : Timed tick s) {call : UnixCall Payload} {r : Request Payload}
    {t : Scheduler Payload} (ok : call.request tick = .ok r)
    (moved : s.scheduler.step (.schedule r) = some t) : Timed tick { s with
      scheduler := t
      stamps := s.stamps ++ (t.accepted.drop s.scheduler.accepted.length).map
        fun i => (i, call.forwardAtUnixNanoseconds) } := by
  have kept := Scheduler.step_clockKept (by simp) moved
  refine ⟨kept.now.trans inv.now, kept.clocked inv.clocked, ?_⟩
  intro i d hi
  rcases List.mem_append.mp hi with old | new
  · exact inv.stamped i d old
  · obtain ⟨j, hj, same⟩ := List.mem_map.mp new
    cases same
    obtain ⟨-, rfl⟩ := Scheduler.step_schedule.mp moved
    obtain ⟨positive, converted⟩ := UnixCall.request_ok ok
    exact ⟨positive, (Scheduler.schedule_accepts hj).trans converted⟩

theorem timed_step (ticking : 0 < tick) {a : UnixAction Payload} (inv : Timed tick s)
    (h : step tick s a = some s') : Timed tick s' := by
  rcases step_cases h with rfl | ⟨call, r, t, ok, moved, rfl⟩ | ⟨time, later, rfl⟩ |
    ⟨action, t, kept, moved, rfl⟩
  · exact inv
  · exact timed_schedule inv ok moved
  · refine ⟨rfl, ?_, inv.stamped⟩
    intro clock read
    calc
      clock ≤ s.scheduler.now := inv.clocked clock read
      _ = s.trueTime / tick := inv.now
      _ ≤ time / tick := Int.ediv_le_ediv (by omega) later
  · have clock := Scheduler.step_clockKept kept moved
    exact ⟨clock.now.trans inv.now, clock.clocked inv.clocked, inv.stamped⟩

theorem timed_reachable (ticking : 0 < tick)
    (reached : Reachable (step tick) (initial tick start) s) : Timed tick s := by
  refine reached.invariant ⟨rfl, ?_, ?_⟩ fun _ _ _ inv moves => timed_step ticking inv moves
  · exact fun _ read => by cases read
  · exact fun _ _ hi => by cases hi

/-- What is stored for this timestamp is a time point no earlier. -/
def StoredNotEarlier (Payload : Type) (tick : Nat) (d : Int) : Prop :=
  ∀ (start : Int) (s : UnixScheduler Payload), Reachable (step tick) (initial tick start) s →
    ∀ i, (i, d) ∈ s.stamps → d ≤ i.forwardAt * tick

/-- A request with this timestamp is handed to the bus at a true time no earlier. -/
def NeverEarly (Payload : Type) (tick : Nat) (d : Int) : Prop :=
  ∀ (start : Int) (s : UnixScheduler Payload), Reachable (step tick) (initial tick start) s →
    ∀ i, (i, d) ∈ s.stamps → ∀ t, Scheduler.Begins s.scheduler t i → d ≤ s.trueTime

/-- While a request with the first timestamp is pending, none with the second is extracted. -/
def InTurn (Payload : Type) (tick : Nat) (d₁ d₂ : Int) : Prop :=
  ∀ (start : Int) (s : UnixScheduler Payload), Reachable (step tick) (initial tick start) s →
    ∀ i j, (i, d₁) ∈ s.stamps → (j, d₂) ∈ s.stamps →
      i ∈ s.scheduler.heap.values → j ∈ s.scheduler.heap.values →
        ∀ t, ¬Scheduler.Begins s.scheduler t j

theorem neverEarly_of_dvd {d : Int} (ticking : 0 < tick) (divides : (tick : Int) ∣ d) :
    NeverEarly Payload tick d := by
  intro start s reached i stamp t begins
  have timed := timed_reachable ticking reached
  obtain ⟨root, clock, hw, -, -, -, elapsed⟩ :=
    Scheduler.never_early (scheduler_reachable reached) begins
  obtain ⟨positive, converted⟩ := timed.stamped i d stamp
  have read : clock ≤ s.scheduler.now := timed.clocked clock (by simp [hw, Worker.reading])
  have ticks : d / tick ≤ s.trueTime / tick := by
    rw [← toTimePoint_eq positive.le, ← converted, ← timed.now]
    exact elapsed.trans read
  calc
    d = d / tick * tick := (Int.ediv_mul_cancel divides).symm
    _ ≤ s.trueTime / tick * tick := Int.mul_le_mul_of_nonneg_right ticks (Int.natCast_nonneg tick)
    _ ≤ s.trueTime := Int.ediv_mul_le _ (by omega)

theorem inTurn_of_lt {d₁ d₂ : Int} (ticking : 0 < tick)
    (apart : toTimePoint tick d₁ < toTimePoint tick d₂) :
    InTurn Payload tick d₁ d₂ := by
  intro start s reached i j first second hi hj t begins
  have timed := timed_reachable ticking reached
  have early := (timed.stamped i d₁ first).2
  have late := (timed.stamped j d₂ second).2
  obtain ⟨d, o, c, heap, -, -, he, -⟩ := Scheduler.begins_cases begins
  have ordered := (Scheduler.watching_reachable (scheduler_reachable reached)).ordered
  have least := Scheduler.top_key_le ordered (Scheduler.top_of_extract he) hi
  have smaller : i.key < j.key := ScheduledItem.key_lt.mpr (.inl (by rw [early, late]; exact apart))
  exact smaller.not_ge least

/-! ## Two requests at one tick -/

/-- The timing thread is about to read this root, at true time 0. -/
structure Waiting (s : UnixScheduler Payload) (root : ScheduledItem Payload) : Prop where
  worker : s.scheduler.worker = .loopHead
  running : s.scheduler.stopRequested = false
  top : s.scheduler.heap.top = some root
  trueTime : s.trueTime = 0

def plainCall (payload : Payload) (d : Int) : UnixCall Payload := ⟨none, 0, payload, d, 0⟩

def plainItem (tick order : Nat) (payload : Payload) (d : Int) : ScheduledItem Payload :=
  ⟨toTimePoint tick d, order, order + 1, none, 0, 0, payload⟩

theorem step_plainCall {order : Nat} {payload : Payload} {d : Int} (positive : 0 < d)
    (accepting : s.scheduler.accepting = true) (unlocked : s.scheduler.worker.holdsLock = false)
    (orders : s.scheduler.nextInsertionOrder = order ∧ s.scheduler.nextScheduleId = order + 1) :
    step tick s (.scheduleAt (plainCall payload d)) = some { s with
      scheduler := s.scheduler.schedule ⟨none, 0, payload, toTimePoint tick d, 0⟩
      stamps := s.stamps ++ [(plainItem tick order payload d, d)] } := by
  simp [step, UnixCall.request, plainCall, plainItem, not_le.mpr positive, Scheduler.step,
    Scheduler.schedule, accepting, unlocked, orders]

/-- The later deadline is accepted first, and becomes the root when both fall on one tick. -/
theorem waiting_for_second (tick : Nat) {d₁ d₂ : Int} (payload : Payload) (positive₁ : 0 < d₁)
    (positive₂ : 0 < d₂) (merged : toTimePoint tick d₁ = toTimePoint tick d₂) :
    ∃ s, Reachable (step tick) (initial tick 0) s ∧ Waiting s (plainItem tick 0 payload d₂) ∧
      s.stamps = [(plainItem tick 0 payload d₂, d₂), (plainItem tick 1 payload d₁, d₁)] ∧
      s.scheduler.heap.values = [plainItem tick 0 payload d₂, plainItem tick 1 payload d₁] := by
  let root := plainItem tick 0 payload d₂
  let other := plainItem tick 1 payload d₁
  let opened : UnixScheduler Payload :=
    { initial tick 0 with scheduler := (initial tick 0).scheduler.start true }
  let asked (s : UnixScheduler Payload) (order : Nat) (d : Int) : UnixScheduler Payload := { s with
    scheduler := s.scheduler.schedule ⟨none, 0, payload, toTimePoint tick d, 0⟩
    stamps := s.stamps ++ [(plainItem tick order payload d, d)] }
  let loaded := asked (asked opened 0 d₂) 1 d₁
  have opens : step tick (initial tick 0) (.other (.start true)) = some opened := rfl
  have second : step tick opened (.scheduleAt (plainCall payload d₂)) =
    some (asked opened 0 d₂) := step_plainCall positive₂ rfl rfl ⟨rfl, rfl⟩
  have first : step tick (asked opened 0 d₂) (.scheduleAt (plainCall payload d₁)) =
    some loaded := step_plainCall positive₁ rfl rfl ⟨rfl, rfl⟩
  let waiting : UnixScheduler Payload :=
    { loaded with scheduler := { loaded.scheduler with worker := .loopHead } }
  have locks : step tick loaded (.other (.work false)) = some waiting := rfl
  have heap : waiting.scheduler.heap = some ⟨root, .node other .nil .nil⟩ := by
    simp [waiting, loaded, asked, opened, initial, Scheduler.start, Scheduler.schedule,
      Scheduler.initial, TreeHeap.push, TreeHeap.meld, HeapTree.link, earlierDeadline, merged,
      root, other, plainItem, wordSize]
  refine ⟨waiting, ((((Reachable.refl _).next opens).next second).next first).next locks,
    ⟨rfl, rfl, ?_, rfl⟩, rfl, ?_⟩
  · simp [heap, TreeHeap.top, root]
  · simp [heap, TreeHeap.values, HeapTree.values, Forest.values, root, other]

/-- A wait that ends at a tick no earlier than the root's, at that true time. -/
theorem Waiting.begins {root : ScheduledItem Payload} (waiting : Waiting s root) {time : Int}
    (later : 0 ≤ time) (elapsed : root.forwardAt ≤ time / tick) :
    ∃ r t, Reachable (step tick) s r ∧ r.trueTime = time ∧ r.stamps = s.stamps ∧
      r.scheduler.heap = s.scheduler.heap ∧ Scheduler.Begins r.scheduler t root := by
  obtain ⟨worker, running, top, trueTime⟩ := waiting
  let read : UnixScheduler Payload := { s with
    trueTime := time
    scheduler := { s.scheduler with
      worker := .elapsed root.forwardAt root.insertionOrder (time / tick)
      now := time / tick
      observed := some root } }
  have waits : run (step tick) s (List.replicate 3 (.other (.work false)) ++
      [.pass time, .other .wake, .other (.work true), .other (.work false)]) = some read := by
    simp [step, Scheduler.step, Scheduler.workStep, Scheduler.rootChanged, Worker.blocked,
      Worker.woken, worker, running, top, trueTime, later, elapsed, List.replicate, read]
  obtain ⟨t, extracts⟩ : ∃ t, read.scheduler.step (.work false) = some t ∧
      t.worker = .publishing root := by
    cases hh : s.scheduler.heap with
    | none => simp [hh, TreeHeap.top] at top
    | some tree =>
      simp only [hh, TreeHeap.top, Option.some.injEq] at top
      simp [Scheduler.step, Scheduler.workStep, running, read, hh, TreeHeap.extract, top]
  exact ⟨read, t, ⟨_, waits⟩, rfl, rfl, rfl, ⟨⟨_, extracts.1⟩, by simp [read], extracts.2⟩⟩

theorem storedNotEarlier_iff [Inhabited Payload] {d : Int} (ticking : 0 < tick)
    (positive : 0 < d) : StoredNotEarlier Payload tick d ↔ (tick : Int) ∣ d := by
  rw [← le_toTimePoint_mul_iff positive.le]
  constructor
  · intro stored
    obtain ⟨s, reached, -, stamps, -⟩ :=
      waiting_for_second tick (default : Payload) positive positive rfl
    exact stored 0 s reached (plainItem tick 0 default d) (by simp [stamps])
  · intro later start s reached i stamp
    rw [((timed_reachable ticking reached).stamped i d stamp).2]
    exact later

theorem dvd_of_neverEarly [Inhabited Payload] {d : Int} (ticking : 0 < tick) (positive : 0 < d)
    (never : NeverEarly Payload tick d) : (tick : Int) ∣ d := by
  obtain ⟨s, reached, waiting, stamps, -⟩ :=
    waiting_for_second tick (default : Payload) positive positive rfl
  have truncated := toTimePoint_mul_le ticking positive.le
  have nonneg : 0 ≤ toTimePoint tick d * tick := by
    rw [toTimePoint_eq positive.le]
    exact Int.mul_nonneg (Int.ediv_nonneg positive.le (by omega)) (by omega)
  have elapsed : toTimePoint tick d ≤ toTimePoint tick d * tick / tick :=
    (Int.mul_ediv_cancel _ (by omega)).ge
  obtain ⟨r, t, further, time, kept, -, begins⟩ := waiting.begins nonneg elapsed
  have stamped : (plainItem tick 0 default d, d) ∈ r.stamps := by simp [kept, stamps]
  have late := never 0 r (reached.trans further) _ stamped t begins
  exact (le_toTimePoint_mul_iff positive.le).mp (time ▸ late)

theorem lt_of_inTurn [Inhabited Payload] {d₁ d₂ : Int} (ticking : 0 < tick) (positive : 0 < d₁)
    (earlier : d₁ < d₂) (turn : InTurn Payload tick d₁ d₂) :
    toTimePoint tick d₁ < toTimePoint tick d₂ := by
  by_contra merged
  have same : toTimePoint tick d₁ = toTimePoint tick d₂ :=
    le_antisymm (toTimePoint_mono ticking positive.le earlier.le) (not_lt.mp merged)
  have positive₂ : 0 < d₂ := positive.trans earlier
  obtain ⟨s, reached, waiting, stamps, values⟩ :=
    waiting_for_second tick (default : Payload) positive positive₂ same
  have elapsed : toTimePoint tick d₂ ≤ d₂ / tick := (toTimePoint_eq positive₂.le).le
  obtain ⟨r, t, further, -, kept, heap, begins⟩ := waiting.begins positive₂.le elapsed
  refine turn 0 r (reached.trans further) (plainItem tick 1 default d₁) _ ?_ ?_ ?_ ?_ t begins
  · simp [kept, stamps]
  · simp [kept, stamps]
  · simp [heap, values]
  · simp [heap, values]

/-! ## What the truncation keeps -/

/-- A deadline is kept exactly when it falls on a tick, and two are kept apart exactly when
some tick falls after the first and not after the second. -/
theorem unix_deadlines_honoured_iff [Inhabited Payload] (ticking : 0 < tick) :
    (∀ d, Timestamp d → InInt64 (d * (1 : Nat)) ∧ InInt64 (toTimePoint tick d) ∧
      (StoredNotEarlier Payload tick d ↔ (tick : Int) ∣ d) ∧
      (NeverEarly Payload tick d ↔ (tick : Int) ∣ d)) ∧
    (∀ d₁ d₂, Timestamp d₁ → Timestamp d₂ → d₁ < d₂ →
      (InTurn Payload tick d₁ d₂ ↔ ∃ k : Int, d₁ < k * tick ∧ k * tick ≤ d₂)) := by
  constructor
  · intro d stamp
    obtain ⟨product, quotient⟩ := toTimePoint_in_int64 tick stamp
    exact ⟨product, quotient, storedNotEarlier_iff ticking stamp.1,
      dvd_of_neverEarly ticking stamp.1, neverEarly_of_dvd ticking⟩
  · intro d₁ d₂ stamp₁ stamp₂ earlier
    rw [← toTimePoint_lt_iff ticking stamp₁.1.le stamp₂.1.le]
    exact ⟨lt_of_inTurn ticking stamp₁.1 earlier, inTurn_of_lt ticking⟩

/-- A clock of microseconds: 2000 ns is kept, and is told from 1500 ns. -/
theorem microseconds_kept : NeverEarly Nat 1000 2000 ∧ InTurn Nat 1000 1500 2000 := by
  have honoured := @unix_deadlines_honoured_iff Nat 1000 _ (by decide)
  refine ⟨(honoured.1 2000 (by decide)).2.2.2.mpr (by decide), ?_⟩
  exact (honoured.2 1500 2000 (by decide) (by decide) (by decide)).mpr ⟨2, by decide, by decide⟩

/-- A clock of microseconds: 1500 ns is stored and forwarded early, and merged with 1400 ns. -/
theorem microseconds_truncated : ¬StoredNotEarlier Nat 1000 1500 ∧ ¬NeverEarly Nat 1000 1500 ∧
    ¬InTurn Nat 1000 1400 1500 := by
  refine ⟨fun stored => ?_, fun never => ?_, fun turn => ?_⟩
  · exact absurd ((storedNotEarlier_iff (by decide) (by decide)).mp stored) (by decide)
  · exact absurd (dvd_of_neverEarly (by decide) (by decide) never) (by decide)
  · exact absurd (lt_of_inTurn (by decide) (by decide) (by decide) turn) (by decide)

end UnixScheduler

end Yellowstone
