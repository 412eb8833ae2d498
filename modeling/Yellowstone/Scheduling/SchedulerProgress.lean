import Yellowstone.Scheduling.SchedulerDeadline
import Yellowstone.Library.Progress

/-!
# The timing thread is never late through its own fault

A blocked thread waits for the deadline of the root, or a `notify_one` that will wake it is
still to come. So an item that is due is attempted within a bounded number of steps of the
thread, of the notifiers and of the bus call under way, unless a stop is requested.
-/

set_option autoImplicit false

namespace Yellowstone

open Machine

variable {Payload : Type}

/-- The thread has statements of its loop before it. -/
def Worker.alive : Worker Payload → Bool
  | .absent | .exited | .terminated => false
  | _ => true

namespace Scheduler
variable {s s' : Scheduler Payload} {a : SchedulerAction Payload} {now : TimePoint}

/-! ## No wake-up of `schedule` is lost -/

/-- What a thread that blocks, or is about to, has been told about the heap. -/
structure Attentive (s : Scheduler Payload) : Prop where
  idle : s.worker = .waitBlock → s.heap.top = none
  asleep : s.worker = .waitBlocked → s.heap.top = none ∨ s.notifying ≠ []
  timing : ∀ d o, s.worker = .timedBlock d o → s.rootChanged d o = false
  timed : ∀ d o, s.worker = .timedBlocked d o → s.rootChanged d o = false ∨ s.notifying ≠ []

/-- A thread at any other statement has nothing to be told. -/
theorem Attentive.of_other (idle : s.worker ≠ .waitBlock) (asleep : s.worker ≠ .waitBlocked)
    (timing : ∀ d o, s.worker ≠ .timedBlock d o) (timed : ∀ d o, s.worker ≠ .timedBlocked d o) :
    Attentive s :=
  ⟨fun h => absurd h idle, fun h => absurd h asleep, fun d o h => absurd h (timing d o),
    fun d o h => absurd h (timed d o)⟩

theorem rootChanged_congr (heap : s'.heap = s.heap) (d : TimePoint) (o : Nat) :
    s'.rootChanged d o = s.rootChanged d o := by
  simp [rootChanged, heap]

theorem Attentive.of_same (inv : Attentive s) (heap : s'.heap = s.heap)
    (worker : s'.worker = s.worker) (notifying : s'.notifying = s.notifying) : Attentive s' := by
  refine ⟨?_, ?_, ?_, ?_⟩
  · rw [worker, heap]
    exact inv.idle
  · rw [worker, heap, notifying]
    exact inv.asleep
  · intro d o
    rw [worker, rootChanged_congr heap]
    exact inv.timing d o
  · intro d o
    rw [worker, rootChanged_congr heap, notifying]
    exact inv.timed d o

/-- A thread that a notification reaches is not blocked; one it misses has not blocked yet. -/
theorem Attentive.of_woken (inv : Attentive s) (heap : s'.heap = s.heap)
    (worker : s'.worker = s.worker.woken) : Attentive s' := by
  cases hw : s.worker <;> rw [hw] at worker
  case waitBlock =>
    refine ⟨fun _ => heap ▸ inv.idle hw, ?_, ?_, ?_⟩ <;> simp [worker, Worker.woken]
  case timedBlock d o =>
    refine ⟨by simp [worker, Worker.woken], by simp [worker, Worker.woken], ?_,
      by simp [worker, Worker.woken]⟩
    intro d' o' same
    rw [worker] at same
    cases same
    rw [rootChanged_congr heap]
    exact inv.timing d o hw
  all_goals
    apply Attentive.of_other <;> simp [worker, Worker.woken]

theorem attentive_schedule (inv : Attentive s) (unlocked : s.worker.holdsLock = false)
    (r : Request Payload) : Attentive (s.schedule r) := by
  unfold schedule
  split
  · refine ⟨?_, fun _ => .inr (List.cons_ne_nil _ _), ?_, fun _ _ _ => .inr (List.cons_ne_nil _ _)⟩
    · intro (same : s.worker = .waitBlock)
      simp [same, Worker.holdsLock] at unlocked
    · intro d o (same : s.worker = .timedBlock d o)
      simp [same, Worker.holdsLock] at unlocked
  · exact inv

theorem Moves.attentive {w : Worker Payload} {o : Option (ScheduledItem Payload)}
    (h : Moves s s.worker w o) (inv : Attentive s) :
    Attentive { s with worker := w, observed := o } := by
  generalize hw : s.worker = v at h
  cases h with
  | waitOn quiet =>
    have empty : s.heap.top = none := by
      simpa using (Bool.or_eq_false_iff.mp quiet).2
    exact ⟨fun _ => empty, nofun, nofun, nofun⟩
  | waitBlock => exact ⟨nofun, fun _ => .inl (inv.idle hw), nofun, nofun⟩
  | timedOn d o quiet =>
    refine ⟨nofun, nofun, ?_, nofun⟩
    rintro _ _ ⟨⟩
    exact (Bool.or_eq_false_iff.mp quiet).2
  | timedBlock d o =>
    refine ⟨nofun, nofun, nofun, ?_⟩
    rintro _ _ ⟨⟩
    exact .inl (inv.timing d o hw)
  | _ => exact ⟨nofun, nofun, nofun, nofun⟩

theorem attentive_step (inv : Attentive s) (h : step s a = some s') : Attentive s' := by
  cases a with
  | schedule r =>
    obtain ⟨unlocked, rfl⟩ := step_schedule.mp h
    exact attentive_schedule inv unlocked r
  | notify id =>
    obtain ⟨-, rfl⟩ := step_notify.mp h
    exact inv.of_woken rfl rfl
  | start created =>
    obtain ⟨-, -, rfl⟩ := step_start.mp h
    unfold start
    split
    · exact inv
    · split
      · exact ⟨nofun, nofun, nofun, nofun⟩
      · exact inv.of_same rfl rfl rfl
  | stop =>
    obtain ⟨-, -, rfl⟩ := step_stop.mp h
    exact inv.of_same rfl rfl rfl
  | requestStop =>
    obtain ⟨-, ⟨-, rfl⟩ | ⟨-, rfl⟩⟩ := step_requestStop.mp h
    · exact inv.of_same rfl rfl rfl
    · exact inv.of_same rfl rfl rfl
  | notifyAll =>
    obtain ⟨-, rfl⟩ := step_notifyAll.mp h
    exact inv.of_woken rfl rfl
  | join =>
    obtain ⟨-, -, rfl⟩ := step_join.mp h
    exact ⟨nofun, nofun, nofun, nofun⟩
  | stopReturn =>
    obtain ⟨-, rfl⟩ := step_stopReturn.mp h
    exact inv.of_same rfl rfl rfl
  | setClock now => cases h; exact inv.of_same rfl rfl rfl
  | wake =>
    obtain ⟨-, rfl⟩ := step_wake.mp h
    exact inv.of_woken rfl rfl
  | work timeout =>
    rcases workStep_cases h with ⟨w, o, move, rfl⟩ | ⟨d, o, c, due, heap, -, -, -, rfl⟩ |
      ⟨due, -, rfl⟩
    · exact move.attentive inv
    · exact ⟨nofun, nofun, nofun, nofun⟩
    · exact ⟨nofun, nofun, nofun, nofun⟩
  | settle outcome =>
    obtain ⟨due, -, rfl⟩ := step_settle.mp h
    cases outcome <;> exact ⟨nofun, nofun, nofun, nofun⟩

theorem attentive_reachable (h : Reachable step (initial now) s) : Attentive s :=
  h.invariant ⟨nofun, nofun, nofun, nofun⟩ fun _ _ _ inv hstep => attentive_step inv hstep

/-- A root that has not changed is the one that was read. -/
theorem root_of_unchanged {d : TimePoint} {o : Nat} (ordered : s.heap.Ordered earlierDeadline)
    (seen : s.Seen d o) (unchanged : s.rootChanged d o = false) :
    ∃ root, s.heap.top = some root ∧ root.key = toLex (d, o) := by
  obtain ⟨top, htop, later⟩ := rootChanged_eq_false.mp unchanged
  obtain ⟨root, hroot, -, key⟩ := seen
  exact ⟨top, htop, le_antisymm (key ▸ top_key_le ordered htop hroot) later⟩

/-- A blocked thread waits until exactly the earliest pending deadline, or for anything if
nothing is pending, unless a `notify_one` is still to come. -/
theorem blocked_waits_for_root (reached : Reachable step (initial now) s) :
    (s.worker = .waitBlocked → s.heap.top = none ∨ s.notifying ≠ []) ∧
    ∀ d o, s.worker = .timedBlocked d o →
      (∃ root, s.heap.top = some root ∧ root.forwardAt = d ∧ root.insertionOrder = o) ∨
        s.notifying ≠ [] := by
  have attentive := attentive_reachable reached
  refine ⟨attentive.asleep, fun d o worker => ?_⟩
  refine (attentive.timed d o worker).imp_left fun unchanged => ?_
  obtain ⟨ordered, expects⟩ := watching_reachable reached
  rw [worker] at expects
  obtain ⟨root, top, key⟩ := root_of_unchanged ordered expects unchanged
  exact ⟨root, top, by simpa [ScheduledItem.key] using key⟩

/-- The thread has gone to sleep over an empty heap before one request came in, for time 5. -/
def sampleSleep : List (SchedulerAction Nat) :=
  .start true :: List.replicate 4 (.work false) ++ [.setClock 6, .schedule ⟨none, 7, 70, 5, 0⟩]

def sampleAsleep : Scheduler Nat := (run step (initial 0) sampleSleep).getD (initial 0)

theorem sampleAsleep_reached : Reachable step (initial 0) sampleAsleep :=
  ⟨sampleSleep, by decide +kernel⟩

theorem sampleAsleep_notified :
    (sampleAsleep.worker = .waitBlocked → sampleAsleep.heap.top = none ∨
      sampleAsleep.notifying ≠ []) ∧
    ∀ d o, sampleAsleep.worker = .timedBlocked d o →
      (∃ root, sampleAsleep.heap.top = some root ∧ root.forwardAt = d ∧ root.insertionOrder = o) ∨
        sampleAsleep.notifying ≠ [] :=
  blocked_waits_for_root sampleAsleep_reached

/-! ## The thread lives as long as the scheduler runs -/

/-- Before `stop` raises the flag, a running scheduler has a thread in its loop. -/
def Up (s : Scheduler Payload) : Prop :=
  s.running = true → s.lifecycle = .idle ∨ s.lifecycle = .refusing →
    s.stopRequested = false ∧ s.worker.alive = true

theorem alive_woken {w : Worker Payload} : w.woken.alive = w.alive := by
  cases w <;> rfl

theorem Up.of_same (inv : Up s) (running : s'.running = s.running)
    (lifecycle : s'.lifecycle = s.lifecycle) (flag : s'.stopRequested = s.stopRequested)
    (worker : s'.worker.alive = s.worker.alive) : Up s' := by
  unfold Up
  rw [running, lifecycle, flag, worker]
  exact inv

/-- Without a request to stop, the thread does not leave its loop; nor is it terminated, since
an unchanged root is still there to be extracted. -/
theorem Moves.alive {w : Worker Payload} {o : Option (ScheduledItem Payload)}
    (h : Moves s s.worker w o) (watching : Watching s) (wanted : s.stopRequested = false) :
    w.alive = true := by
  have expects := watching.expects
  generalize s.worker = v at h expects
  cases h with
  | leave stop | interruptedLeave stop | elapsedLeave d o c stop => simp [wanted] at stop
  | terminate d o c _ empty =>
    obtain ⟨-, -, unchanged⟩ := expects
    obtain ⟨root, top, -⟩ := rootChanged_eq_false.mp unchanged
    simp [empty] at top
  | _ => rfl

theorem up_step (watching : Watching s) (inv : Up s) (h : step s a = some s') : Up s' := by
  cases a with
  | schedule r =>
    obtain ⟨-, rfl⟩ := step_schedule.mp h
    unfold schedule
    split <;> exact inv
  | notify id =>
    obtain ⟨-, rfl⟩ := step_notify.mp h
    exact inv.of_same rfl rfl rfl alive_woken
  | start created =>
    obtain ⟨-, -, rfl⟩ := step_start.mp h
    unfold start
    split
    · exact inv
    · split
      · exact fun _ _ => ⟨rfl, rfl⟩
      · exact nofun
  | stop =>
    obtain ⟨-, idle, rfl⟩ := step_stop.mp h
    exact fun running _ => inv running (.inl idle)
  | requestStop =>
    obtain ⟨-, ⟨-, rfl⟩ | ⟨-, rfl⟩⟩ := step_requestStop.mp h
    · exact fun _ h => h.elim nofun nofun
    · exact fun _ h => h.elim nofun nofun
  | notifyAll =>
    obtain ⟨-, rfl⟩ := step_notifyAll.mp h
    exact fun _ h => h.elim nofun nofun
  | join =>
    obtain ⟨-, -, rfl⟩ := step_join.mp h
    exact fun _ h => h.elim nofun nofun
  | stopReturn =>
    obtain ⟨-, rfl⟩ := step_stopReturn.mp h
    exact nofun
  | setClock now => cases h; exact inv
  | wake =>
    obtain ⟨-, rfl⟩ := step_wake.mp h
    exact inv.of_same rfl rfl rfl alive_woken
  | work timeout =>
    rcases workStep_cases h with ⟨w, o, move, rfl⟩ | ⟨d, o, c, due, heap, hw, -, -, rfl⟩ |
      ⟨due, hw, rfl⟩
    · intro running calm
      obtain ⟨wanted, -⟩ := inv running calm
      exact ⟨wanted, move.alive watching wanted⟩
    · exact fun running calm => ⟨(inv running calm).1, rfl⟩
    · exact fun running calm => ⟨(inv running calm).1, rfl⟩
  | settle outcome =>
    obtain ⟨due, hw, rfl⟩ := step_settle.mp h
    cases outcome <;> exact fun running calm => ⟨(inv running calm).1, rfl⟩

theorem up_reachable (reached : Reachable step (initial now) s) : Up s := by
  induction reached with
  | start => exact nofun
  | next r a r' before moves up => exact up_step (watching_reachable before) up moves

/-! ## A due item is attempted -/

/-- Steps of the timing thread, of a call of `notify_one` it waits for, and of the bus call it
makes. A wait reports a timeout if its time is over, and only then wakes without being told. -/
def prompt (s : Scheduler Payload) : SchedulerAction Payload → Bool
  | .work timeout =>
    match s.worker with
    | .timedWoken d _ => timeout == decide (d ≤ s.now)
    | .retryWoken => timeout
    | _ => true
  | .wake =>
    match s.worker with
    | .timedBlocked d _ => decide (d ≤ s.now)
    | .retryBlocked => true
    | _ => false
  | .notify _ => s.worker.blocked
  | .settle _ => true
  | _ => false

/-- How many prompt steps can come before the next attempt, if the root is due. -/
def patience (s : Scheduler Payload) : Nat :=
  match s.worker with
  | .absent | .exited | .terminated => 0
  | .elapsed .. => 1
  | .timedOut d o _ => if s.rootChanged d o then 9 else 2
  | .timedWoken d o => if s.rootChanged d o then 10 else 3
  | .timedBlocked d o => if s.rootChanged d o then 11 else 4
  | .timedBlock .. => 5
  | .timedTest d o => if s.rootChanged d o then 9 else 6
  | .loopHead => 7
  | .acquire | .relock | .interrupted | .waitTest | .retryWoken => 8
  | .waitWoken | .retryBlocked => 9
  | .waitBlocked | .retryBlock => 10
  | .waitBlock | .retryTest => 11
  | .relockRetry _ => 12
  | .publishing _ => 13

/-- A thread that runs, not asked to stop, while a root no later than `k` is due. -/
structure Serving (k : Lex (TimePoint × Nat)) (s : Scheduler Payload) : Prop where
  watching : Watching s
  attentive : Attentive s
  wanted : s.stopRequested = false
  alive : 0 < s.patience
  due : ∃ root, s.heap.top = some root ∧ root.key ≤ k ∧ root.forwardAt ≤ s.now

/-- The step begins an attempt for an item no later than `k`. -/
def Attempts (k : Lex (TimePoint × Nat)) (s : Scheduler Payload) (_ : SchedulerAction Payload)
    (s' : Scheduler Payload) : Prop :=
  ∃ due, Begins s s' due ∧ due.key ≤ k

section Serving
variable {k : Lex (TimePoint × Nat)}

theorem Serving.unchanged_due (inv : Serving k s) {d : TimePoint} {o : Nat} (seen : s.Seen d o)
    (unchanged : s.rootChanged d o = false) : d ≤ s.now := by
  obtain ⟨root, top, -, due⟩ := inv.due
  obtain ⟨root', top', key⟩ := root_of_unchanged inv.watching.ordered seen unchanged
  rw [top] at top'
  cases top'
  have same : root.forwardAt = d ∧ root.insertionOrder = o := by
    simpa [ScheduledItem.key] using key
  exact same.1 ▸ due

/-- The heap, the clock and the stop flag are as they were. -/
theorem Serving.of_same (inv : Serving k s) (watching : Watching s') (attentive : Attentive s')
    (heap : s'.heap = s.heap) (clock : s'.now = s.now)
    (flag : s'.stopRequested = s.stopRequested) (alive : 0 < s'.patience) : Serving k s' := by
  refine ⟨watching, attentive, flag.trans inv.wanted, alive, ?_⟩
  rw [heap, clock]
  exact inv.due

/-- A move of a prompt thread brings the attempt closer. -/
theorem Moves.descends {w : Worker Payload} {o : Option (ScheduledItem Payload)}
    (h : Moves s s.worker w o) (inv : Serving k s)
    (punctual : ∀ d o, s.worker = .timedWoken d o → w = .timedTest d o → s.now < d)
    (final : s.worker = .retryWoken → w = .loopHead) :
    0 < { s with worker := w, observed := o }.patience ∧
      { s with worker := w, observed := o }.patience < s.patience := by
  obtain ⟨root, top, -, due⟩ := inv.due
  have expects := inv.watching.expects
  generalize hw : s.worker = v at h
  have here : s.patience = { s with worker := v }.patience := by rw [← hw]
  rw [here]
  rw [hw] at expects
  have same : ∀ d o', { s with worker := w, observed := o }.rootChanged d o' =
      s.rootChanged d o' := fun d o' => rootChanged_congr rfl d o'
  have same' : ∀ d o', { s with worker := v }.rootChanged d o' =
      s.rootChanged d o' := fun d o' => rootChanged_congr rfl d o'
  cases h with
  | leave stop | interruptedLeave stop | elapsedLeave d o c stop | retryStop stop =>
    simp [inv.wanted] at stop
  | wait _ empty | terminate d o c _ empty => simp [top] at empty
  | waitOn quiet => simp [top] at quiet
  | observe r _ read =>
    have unchanged := rootChanged_eq_false.mpr ⟨r, read, le_refl r.key⟩
    have unchanged : s.rootChanged r.forwardAt r.insertionOrder = false := unchanged
    simp [patience, same, unchanged]
  | timedOn d o quiet => simp [patience, same', (Bool.or_eq_false_iff.mp quiet).2]
  | timedBlock d o => simp [patience, same, inv.attentive.timing d o hw]
  | interrupt d o noisy =>
    have changed : s.rootChanged d o = true := by simpa [inv.wanted] using noisy
    simp [patience, same', changed]
  | interruptLate d o c noisy =>
    have changed : s.rootChanged d o = true := by simpa [inv.wanted] using noisy
    simp [patience, same', changed]
  | elapse d o c quiet => simp [patience, same', (Bool.or_eq_false_iff.mp quiet).2]
  | timeout d o late =>
    cases changed : s.rootChanged d o <;> simp [patience, same, same', changed]
  | timedAgain d o =>
    have early := punctual d o hw rfl
    cases changed : s.rootChanged d o with
    | false => exact absurd (inv.unchanged_due expects changed) (not_le.mpr early)
    | true => simp [patience, same, same', changed]
  | retryAgain => cases final hw
  | _ => simp [patience]

/-- Going on without a timeout means that the time is not over. -/
theorem work_punctual {timeout : Bool} (allowed : s.prompt (.work timeout) = true)
    (h : s.workStep timeout = some s') :
    (∀ d o, s.worker = .timedWoken d o → s'.worker = .timedTest d o → s.now < d) ∧
      (s.worker = .retryWoken → s'.worker = .loopHead) := by
  constructor
  · intro d o worker next
    simp only [prompt, worker, beq_iff_eq] at allowed
    simp only [workStep, worker] at h
    split at h
    · split at h <;> cases h
      cases next
    · rename_i quiet
      rw [allowed] at quiet
      simpa using quiet
  · intro worker
    simp only [prompt, worker] at allowed
    simp only [workStep, worker, allowed, if_true] at h
    cases h
    rfl

/-- A notified thread that was blocked has only to look. -/
theorem woken_descends (blocked : s.worker.blocked = true) (heap : s'.heap = s.heap)
    (worker : s'.worker = s.worker.woken) : 0 < s'.patience ∧ s'.patience < s.patience := by
  cases hw : s.worker <;> simp [hw, Worker.blocked] at blocked <;> rw [hw] at worker
  case timedBlocked d o =>
    have same : s'.rootChanged d o = s.rootChanged d o := rootChanged_congr heap d o
    cases changed : s.rootChanged d o <;> simp [patience, hw, worker, Worker.woken, same, changed]
  all_goals simp [patience, hw, worker, Worker.woken]

/-- A refused item that is put back is the new root only if it is no later than the old one. -/
theorem due_push {heap : TreeHeap (ScheduledItem Payload)} {root : ScheduledItem Payload}
    (ordered : heap.Ordered earlierDeadline) (top : heap.top = some root)
    (due : ScheduledItem Payload) :
    ∃ root', (TreeHeap.push earlierDeadline heap due).top = some root' ∧ root'.key ≤ root.key := by
  have perm := TreeHeap.values_push earlierDeadline heap due
  cases htop : (TreeHeap.push earlierDeadline heap due).top with
  | none => simp [TreeHeap.top_eq_none.mp htop] at perm
  | some root' =>
    refine ⟨root', rfl, top_key_le (TreeHeap.ordered_push ordered due) htop ?_⟩
    apply perm.mem_iff.mpr
    cases heap with
    | none => cases top
    | some t =>
      cases top
      simp [HeapTree.values]

theorem ScheduledItem.forwardAt_le {i j : ScheduledItem Payload} (h : i.key ≤ j.key) :
    i.forwardAt ≤ j.forwardAt := by
  rcases h.lt_or_eq with h | h
  · rcases ScheduledItem.key_lt.mp h with earlier | ⟨same, -⟩
    · exact earlier.le
    · exact same.le
  · exact (ScheduledItem.key_eq.mp h).1.le

theorem serving_work (inv : Serving k s) {timeout : Bool}
    (allowed : s.prompt (.work timeout) = true) (h : step s (.work timeout) = some s') :
    Attempts k s (.work timeout) s' ∨ (Serving k s' ∧ s'.patience < s.patience) := by
  have watching := watching_step inv.watching h
  have attentive := attentive_step inv.attentive h
  obtain ⟨punctual, final⟩ := work_punctual allowed h
  rcases workStep_cases h with ⟨w, o, move, rfl⟩ | ⟨d, o, c, due, heap, hw, -, he, rfl⟩ |
    ⟨due, hw, rfl⟩
  · obtain ⟨alive, lower⟩ := move.descends inv punctual final
    exact .inr ⟨inv.of_same watching attentive rfl rfl rfl alive, lower⟩
  · obtain ⟨root, top, early, -⟩ := inv.due
    cases (top_of_extract he).symm.trans top
    refine .inl ⟨due, ⟨⟨_, h⟩, by simp [hw], rfl⟩, early⟩
  · obtain ⟨root, top, early, late⟩ := inv.due
    obtain ⟨root', top', before⟩ := due_push inv.watching.ordered top due
    refine .inr ⟨⟨watching, attentive, inv.wanted, by simp [patience], root', top', ?_, ?_⟩, ?_⟩
    · exact before.trans early
    · exact (ScheduledItem.forwardAt_le before).trans late
    · simp [patience, hw]

theorem serving_step (inv : Serving k s) (allowed : s.prompt a = true)
    (h : step s a = some s') :
    Attempts k s a s' ∨ (Serving k s' ∧ s'.patience < s.patience) := by
  have watching := watching_step inv.watching h
  have attentive := attentive_step inv.attentive h
  cases a with
  | work timeout => exact serving_work inv allowed h
  | notify id =>
    obtain ⟨-, moved⟩ := step_notify.mp h
    obtain ⟨alive, lower⟩ := @woken_descends _ s s' allowed (by rw [moved]) (by rw [moved])
    refine .inr ⟨inv.of_same watching attentive ?_ ?_ ?_ alive, lower⟩ <;> rw [moved]
  | wake =>
    obtain ⟨blocked, moved⟩ := step_wake.mp h
    obtain ⟨alive, lower⟩ := @woken_descends _ s s' blocked (by rw [moved]) (by rw [moved])
    refine .inr ⟨inv.of_same watching attentive ?_ ?_ ?_ alive, lower⟩ <;> rw [moved]
  | settle outcome =>
    obtain ⟨due, hw, rfl⟩ := step_settle.mp h
    have lower : 0 < (s.settle due outcome).patience ∧
        (s.settle due outcome).patience < s.patience := by
      cases outcome <;> simp [settle, patience, hw]
    refine .inr ⟨inv.of_same watching attentive ?_ ?_ ?_ lower.1, lower.2⟩ <;>
      cases outcome <;> rfl
  | _ => cases allowed

/-- At a statement that does not wait, the thread can go on. -/
theorem workStep_goes (blocked : s.worker.blocked = false) (alive : 0 < s.patience)
    (resting : ∀ due, s.worker ≠ .publishing due) (awake : ∀ d o, s.worker ≠ .timedWoken d o) :
    ∃ s', s.workStep true = some s' := by
  apply Option.isSome_iff_exists.mp
  cases hw : s.worker <;> simp only [workStep, hw]
  case absent | exited | terminated => simp [patience, hw] at alive
  case waitBlocked | timedBlocked | retryBlocked => simp [hw, Worker.blocked] at blocked
  case publishing due => exact absurd hw (resting due)
  case timedWoken d o => exact absurd hw (awake d o)
  all_goals
    repeat' split
    all_goals rfl

/-- The thread is never stuck: it can move, or a wait is over, or it will be notified. -/
theorem serving_enabled (inv : Serving k s) :
    ∃ a s', s.prompt a = true ∧ step s a = some s' := by
  obtain ⟨root, top, -, due⟩ := inv.due
  have expects := inv.watching.expects
  have told : s.notifying ≠ [] → s.worker.blocked = true →
      ∃ a s', s.prompt a = true ∧ step s a = some s' := by
    intro some blocked
    obtain ⟨id, member⟩ := List.exists_mem_of_ne_nil _ some
    exact ⟨.notify id, _, blocked, step_notify.mpr ⟨member, rfl⟩⟩
  have woken : s.prompt .wake = true → s.worker.blocked = true →
      ∃ a s', s.prompt a = true ∧ step s a = some s' := by
    intro allowed blocked
    exact ⟨.wake, _, allowed, step_wake.mpr ⟨blocked, rfl⟩⟩
  cases hw : s.worker with
  | publishing item =>
    exact ⟨.settle .returned, _, rfl, step_settle.mpr ⟨item, hw, rfl⟩⟩
  | waitBlocked =>
    have asleep := (inv.attentive.asleep hw).resolve_left (by simp [top])
    exact told asleep (by simp [hw, Worker.blocked])
  | timedBlocked d o =>
    have blocked : s.worker.blocked = true := by simp [hw, Worker.blocked]
    rcases inv.attentive.timed d o hw with unchanged | outstanding
    · rw [hw] at expects
      exact woken (by simp [prompt, hw, inv.unchanged_due expects unchanged]) blocked
    · exact told outstanding blocked
  | retryBlocked => exact woken (by simp [prompt, hw]) (by simp [hw, Worker.blocked])
  | timedWoken d o =>
    by_cases late : d ≤ s.now
    · exact ⟨.work true, _, by simp [prompt, hw, late], by simp [step, workStep, hw, late]; rfl⟩
    · exact ⟨.work false, _, by simp [prompt, hw, late], by simp [step, workStep, hw]; rfl⟩
  | _ =>
    obtain ⟨s', h⟩ := workStep_goes (s := s) (by simp [hw, Worker.blocked]) inv.alive (by simp [hw])
      (by simp [hw])
    exact ⟨.work true, s', by simp [prompt, hw], h⟩

theorem patience_pos (alive : s.worker.alive = true) : 0 < s.patience := by
  cases hw : s.worker <;> simp only [patience, hw]
  case absent | exited | terminated => simp [hw, Worker.alive] at alive
  all_goals
    repeat' split
    all_goals omega

theorem patience_le (s : Scheduler Payload) : s.patience ≤ 13 := by
  unfold patience
  repeat' split
  all_goals omega

/-- Whenever the root is due in a running scheduler that nobody stops, a prompt run of more than
a dozen steps begins an attempt for that item or an earlier one, and a shorter one that has
not can go on. -/
theorem attempted_within {root : ScheduledItem Payload} {t : Scheduler Payload}
    {as : List (SchedulerAction Payload)} (reached : Reachable step (initial now) s)
    (running : s.running = true) (calm : s.lifecycle = .idle) (top : s.heap.top = some root)
    (due : root.forwardAt ≤ s.now) (runs : run (guarded step prompt) s as = some t) :
    Meets (guarded step prompt) (Attempts root.key) s as ∨
      (as.length < 13 ∧ ∃ a r, guarded step prompt t a = some r) := by
  obtain ⟨wanted, alive⟩ := up_reachable reached running (.inl calm)
  have start : Serving root.key s := ⟨watching_reachable reached, attentive_reachable reached,
    wanted, patience_pos alive, root, top, le_rfl, due⟩
  have progress := @bounded_progress _ _ (guarded step prompt) (Serving root.key) patience
    (Attempts root.key)
    (by
      intro r a r' inv h
      obtain ⟨allowed, h⟩ := guarded_eq_some.mp h
      exact serving_step inv allowed h)
    (fun r inv => inv.alive)
    (by
      intro r inv
      obtain ⟨a, r', allowed, h⟩ := serving_enabled inv
      exact ⟨a, r', guarded_eq_some.mpr ⟨allowed, h⟩⟩)
    _ _ _ start runs
  exact progress.imp_right fun ⟨short, goes⟩ => ⟨short.trans_le (patience_le s), goes⟩

end Serving

/-- From the notification to the end of a wait that is over at once, and one step more. -/
def sampleService : List (SchedulerAction Nat) :=
  [.notify 1, .work true, .work true] ++ List.replicate 3 (.work false) ++
    [.wake, .work true, .work true, .work true]

theorem sampleAsleep_attempted :
    Meets (guarded step prompt) (Attempts (toLex (5, 0))) sampleAsleep sampleService ∨
      (sampleService.length < 13 ∧
        ∃ a r, guarded step prompt
          ((run (guarded step prompt) sampleAsleep sampleService).getD sampleAsleep) a = some r) :=
  have top : sampleAsleep.heap.top = some ⟨5, 0, 1, none, 7, 0, 70⟩ := by decide +kernel
  attempted_within sampleAsleep_reached (by decide +kernel) (by decide +kernel) top
    (by decide +kernel) (by decide +kernel)

end Scheduler

end Yellowstone
