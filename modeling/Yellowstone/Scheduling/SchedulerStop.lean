import Yellowstone.Scheduling.Scheduler

/-!
# The lost wake-up of `stop`

`request_stop` and `notify_all` are issued without the mutex, so both can fall between the
test of a wait predicate and the block that follows. The notification then finds nobody to
wake, and `join` waits for a thread that waits for a notification. This is the only way.
-/

set_option autoImplicit false

namespace Yellowstone

open Machine

variable {Payload : Type}

/-- The thread has found the predicate of an untimed or timed wait false, and blocks next. -/
def Worker.committed : Worker Payload → Bool
  | .waitBlock | .timedBlock .. => true
  | _ => false

/-- The thread is blocked in an untimed or timed wait. -/
def Worker.parked : Worker Payload → Bool
  | .waitBlocked | .timedBlocked .. => true
  | _ => false

namespace Scheduler
variable {s s' : Scheduler Payload} {a : SchedulerAction Payload} {now : TimePoint}

/-- `stop` waits in `join` for a blocked thread that no notification will reach. -/
def Stuck (s : Scheduler Payload) : Prop :=
  s.lifecycle = .joining ∧ s.notifying = [] ∧
    (s.worker = .waitBlocked ∨ ∃ d o, s.worker = .timedBlocked d o ∧ s.now < d)

/-- `notify_all` is issued at another time than between a failed test and its block. -/
def notifiesInTime (s : Scheduler Payload) : SchedulerAction Payload → Bool
  | .notifyAll => !s.worker.committed
  | _ => true

/-- Once `notify_all` is out, the stop flag is up and the thread sees it before it blocks. -/
structure Waking (s : Scheduler Payload) : Prop where
  flagged : s.lifecycle = .requested ∨ s.lifecycle = .joining → s.stopRequested = true
  awake : s.lifecycle = .joining → s.worker.committed = false ∧ s.worker.parked = false

theorem parked_woken (w : Worker Payload) : w.woken.parked = false := by
  cases w <;> rfl

theorem committed_woken (w : Worker Payload) : w.woken.committed = w.committed := by
  cases w <;> rfl

/-- With the stop flag up, a move does not lead into an untimed or timed wait. -/
theorem Moves.awake {w w' : Worker Payload} {o : Option (ScheduledItem Payload)}
    (h : Moves s w w' o) (stopping : s.stopRequested = true) (committed : w.committed = false) :
    w'.committed = false ∧ w'.parked = false := by
  cases h with
  | waitOn quiet => simp [stopping] at quiet
  | timedOn d o quiet => simp [stopping] at quiet
  | waitBlock => cases committed
  | timedBlock => cases committed
  | _ => exact ⟨rfl, rfl⟩

theorem Waking.of_same (inv : Waking s) (lifecycle : s'.lifecycle = s.lifecycle)
    (flag : s'.stopRequested = s.stopRequested)
    (worker : s'.worker = s.worker ∨ s'.worker = s.worker.woken) : Waking s' := by
  refine ⟨fun h => flag ▸ inv.flagged (lifecycle ▸ h), ?_⟩
  intro h
  have awake := inv.awake (lifecycle ▸ h)
  rcases worker with hw | hw
  · exact hw ▸ awake
  · rw [hw, committed_woken, parked_woken]
    exact ⟨awake.1, rfl⟩

theorem Waking.of_lifecycle (requested : s.lifecycle ≠ .requested)
    (joining : s.lifecycle ≠ .joining) : Waking s :=
  ⟨fun h => (h.elim requested joining).elim, fun h => (joining h).elim⟩

theorem waking_step (inv : Waking s) (inTime : s.notifiesInTime a = true)
    (h : step s a = some s') : Waking s' := by
  cases a with
  | schedule r =>
    obtain ⟨-, rfl⟩ := step_schedule.mp h
    unfold schedule
    split
    · exact inv.of_same rfl rfl (.inl rfl)
    · exact inv
  | notify id =>
    obtain ⟨-, rfl⟩ := step_notify.mp h
    exact inv.of_same rfl rfl (.inr rfl)
  | start created =>
    obtain ⟨-, idle, rfl⟩ := step_start.mp h
    have same : (s.start created).lifecycle = .idle := by
      unfold start
      split
      · exact idle
      · split <;> exact idle
    exact .of_lifecycle (by simp [same]) (by simp [same])
  | stop =>
    obtain ⟨-, -, rfl⟩ := step_stop.mp h
    exact .of_lifecycle nofun nofun
  | requestStop =>
    obtain ⟨-, ⟨-, rfl⟩ | ⟨-, rfl⟩⟩ := step_requestStop.mp h
    · exact .of_lifecycle nofun nofun
    · exact ⟨fun _ => rfl, nofun⟩
  | notifyAll =>
    obtain ⟨requested, rfl⟩ := step_notifyAll.mp h
    have uncommitted : s.worker.committed = false := by simpa [notifiesInTime] using inTime
    refine ⟨fun _ => inv.flagged (.inl requested), ?_⟩
    intro _
    exact ⟨(committed_woken s.worker).trans uncommitted, parked_woken s.worker⟩
  | join =>
    obtain ⟨-, -, rfl⟩ := step_join.mp h
    exact .of_lifecycle nofun nofun
  | stopReturn =>
    obtain ⟨-, rfl⟩ := step_stopReturn.mp h
    exact .of_lifecycle nofun nofun
  | setClock now => cases h; exact inv.of_same rfl rfl (.inl rfl)
  | wake =>
    obtain ⟨-, rfl⟩ := step_wake.mp h
    exact inv.of_same rfl rfl (.inr rfl)
  | work timeout =>
    rcases workStep_cases h with ⟨w, o, move, rfl⟩ | ⟨d, o, c, due, heap, -, -, -, rfl⟩ |
      ⟨due, -, rfl⟩
    · exact ⟨inv.flagged, fun h => move.awake (inv.flagged (.inr h)) (inv.awake h).1⟩
    · exact ⟨inv.flagged, fun _ => ⟨rfl, rfl⟩⟩
    · exact ⟨inv.flagged, fun _ => ⟨rfl, rfl⟩⟩
  | settle outcome =>
    obtain ⟨due, -, rfl⟩ := step_settle.mp h
    cases outcome <;> exact ⟨inv.flagged, fun _ => ⟨rfl, rfl⟩⟩

theorem Waking.not_stuck (inv : Waking s) : ¬Stuck s := by
  rintro ⟨joining, -, blocked | ⟨d, o, blocked, -⟩⟩
  · simpa [blocked, Worker.parked] using (inv.awake joining).2
  · simpa [blocked, Worker.parked] using (inv.awake joining).2

/-- Outstanding calls of `notify_one` all find the thread not yet blocked. -/
theorem notifications_missed (committed : s.worker.committed = true) :
    ∃ t, Reachable step s t ∧ t.notifying = [] ∧ t.worker = s.worker ∧
      t.lifecycle = s.lifecycle := by
  induction hn : s.notifying generalizing s with
  | nil => exact ⟨s, .refl s, hn, rfl, rfl⟩
  | cons id ids ih =>
    have woken : s.worker.woken = s.worker := by
      cases hw : s.worker <;> simp [hw, Worker.committed] at committed ⊢ <;> rfl
    let t : Scheduler Payload := { s with
      notifying := s.notifying.erase id
      returned := s.returned ++ [id]
      worker := s.worker.woken }
    have notified : step s (.notify id) = some t := step_notify.mpr ⟨by simp [hn], rfl⟩
    have same : t.worker = s.worker := woken
    obtain ⟨u, reached, rest, worker, lifecycle⟩ := ih (s := t) (same ▸ committed) (by simp [t, hn])
    exact ⟨u, ((Reachable.refl s).next notified).trans reached, rest, worker.trans same, lifecycle⟩

theorem stuck_of_committed (joining : s.lifecycle = .joining)
    (committed : s.worker.committed = true) : ∃ t, Reachable step s t ∧ Stuck t := by
  obtain ⟨t, reached, quiet, worker, lifecycle⟩ := notifications_missed committed
  replace joining : t.lifecycle = .joining := lifecycle.trans joining
  cases hw : s.worker with
  | waitBlock =>
    have blocks : step t (.work false) = some { t with worker := .waitBlocked } := by
      simp [step, workStep, worker.trans hw]
    exact ⟨_, reached.next blocks, joining, quiet, .inl rfl⟩
  | timedBlock d o =>
    let early : Scheduler Payload := { t with now := d - 1 }
    have set : step t (.setClock (d - 1)) = some early := rfl
    have blocks : step early (.work false) = some { early with worker := .timedBlocked d o } := by
      simp [early, step, workStep, worker.trans hw]
    have future : early.now < d := Int.sub_lt_self d (by decide)
    exact ⟨_, (reached.next set).next blocks, joining, quiet, .inr ⟨d, o, rfl, future⟩⟩
  | _ => simp [hw, Worker.committed] at committed

/-- After a `notify_all` that came too early, the thread may block for good. -/
theorem stuck_of_missed (h : step s .notifyAll = some s')
    (missed : s.notifiesInTime .notifyAll = false) : ∃ t, Reachable step s' t ∧ Stuck t := by
  obtain ⟨-, rfl⟩ := step_notifyAll.mp h
  have committed : s.worker.committed = true := by simpa [notifiesInTime] using missed
  exact stuck_of_committed rfl ((committed_woken s.worker).trans committed)

/-- `stop` can hang exactly through a `notify_all` between a failed test and its block. -/
theorem stop_hangs_iff_missed :
    (∀ s : Scheduler Payload, Reachable (guarded step notifiesInTime) (initial now) s →
      ¬Stuck s) ∧
    ∀ s s' : Scheduler Payload, Reachable step (initial now) s → step s .notifyAll = some s' →
      s.notifiesInTime .notifyAll = false → ∃ t, Reachable step s' t ∧ Stuck t := by
  refine ⟨?_, fun s s' _ h missed => stuck_of_missed h missed⟩
  intro s reached
  have start : Waking (initial now : Scheduler Payload) := .of_lifecycle nofun nofun
  refine (reached.invariant start ?_).not_stuck
  intro r a r' inv h
  obtain ⟨inTime, h⟩ := guarded_eq_some.mp h
  exact waking_step inv inTime h

/-- The thread has found the heap empty and the flag down when `stop` raises the flag. -/
def sampleRace : List (SchedulerAction Unit) :=
  [.start true, .stop, .work false, .work false, .work false, .requestStop]

def sampleRaced : Scheduler Unit := (run step (initial 0) sampleRace).getD (initial 0)

/-- The same, with the thread blocked before the flag goes up. -/
def sampleStop : List (SchedulerAction Unit) :=
  [.start true, .stop, .work false, .work false, .work false, .work false, .requestStop,
    .notifyAll]

def sampleStopped : Scheduler Unit := (run step (initial 0) sampleStop).getD (initial 0)

theorem sampleStopped_not_stuck : ¬Stuck sampleStopped ∧ sampleStopped.lifecycle = .joining ∧
    ∃ t, Reachable step ((step sampleRaced .notifyAll).getD sampleRaced) t ∧ Stuck t :=
  ⟨stop_hangs_iff_missed.1 sampleStopped ⟨sampleStop, rfl⟩, rfl,
    stop_hangs_iff_missed.2 sampleRaced _ ⟨sampleRace, rfl⟩ rfl rfl⟩

theorem stop_can_miss_the_thread :
    ¬∀ s : Scheduler Unit, Reachable step (initial 0) s → ¬Stuck s := by
  let labels := sampleRace ++ [.notifyAll, .work false]
  let last := (run step (initial 0) labels).getD (initial 0)
  have stuck : Stuck last := ⟨rfl, rfl, .inl rfl⟩
  exact fun never => never last ⟨labels, rfl⟩ stuck

end Scheduler

end Yellowstone
