import Yellowstone.Scheduling.Scheduler
import Yellowstone.Scheduling.SchedulerCallers

/-!
# Calls of `start` and `stop` one at a time

The scheduler whose timing thread takes the steps of `m_run` is one caller of the lifecycle
model: each of its steps is a run of that caller in which nothing overlaps.
-/

set_option autoImplicit false

namespace Yellowstone

open Machine

/-- What is left of the timing thread when only its life is kept. -/
def Worker.timing {Payload : Type} (stopRequested : Bool) : Worker Payload → Option TimingThread
  | .absent => none
  | .exited => some .finished
  | _ => some (if stopRequested then .asked else .active)

def Lifecycle.call : Lifecycle → LifecycleCall
  | .idle => .idle
  | .refusing => .refused
  | .requested | .joining => .requested
  | .joined => .storing

namespace Scheduler
variable {Payload : Type} {s s' : Scheduler Payload} {now : TimePoint}

/-- The scheduler seen through its lifecycle, with a single caller. -/
structure Views (s : Scheduler Payload) (v : SchedulerCallers Unit) : Prop where
  accepting : v.accepting = s.accepting
  running : v.running = s.running
  worker : v.worker = s.worker.timing s.stopRequested
  mutex : v.mutex = none
  calls : v.calls () = s.lifecycle.call
  refused : s.lifecycle ≠ .idle → s.accepting = false

theorem timing_woken (stopRequested : Bool) (w : Worker Payload) :
    w.woken.timing stopRequested = w.timing stopRequested := by
  cases w <;> rfl

theorem Moves.timing {w w' : Worker Payload} {o : Option (ScheduledItem Payload)}
    (h : Moves s w w' o) : w'.timing s.stopRequested = w.timing s.stopRequested ∨
      (w' = .exited ∧ w.timing s.stopRequested = some .asked) := by
  cases h with
  | leave asked | interruptedLeave asked | elapsedLeave _ _ _ asked =>
    exact .inr ⟨rfl, by simp [Worker.timing, asked]⟩
  | _ => exact .inl rfl

theorem timing_requestStop (w : Worker Payload) :
    (w.timing s.stopRequested).map TimingThread.requestStop = w.timing true := by
  cases hr : s.stopRequested <;> cases w <;> rfl

theorem Views.unchanged {v : SchedulerCallers Unit} (views : Views s v)
    (accepting : s'.accepting = s.accepting) (running : s'.running = s.running)
    (worker : s'.worker.timing s'.stopRequested = s.worker.timing s.stopRequested)
    (lifecycle : s'.lifecycle = s.lifecycle) : Views s' v := by
  obtain ⟨h₁, h₂, h₃, h₄, h₅, h₆⟩ := views
  refine ⟨?_, ?_, ?_, h₄, ?_, ?_⟩
  · rw [h₁, accepting]
  · rw [h₂, running]
  · rw [h₃, worker]
  · rw [h₅, lifecycle]
  · rw [accepting, lifecycle]
    exact h₆

section Simulation
variable {v v' : SchedulerCallers Unit}

/-- Runs in which every step is careful. -/
abbrev Carefully (v v' : SchedulerCallers Unit) : Prop :=
  Reachable (guarded SchedulerCallers.step SchedulerCallers.careful) v v'

theorem Carefully.next {u : SchedulerCallers Unit} (h : Carefully u v) {a : CallersAction Unit}
    (care : v.careful a = true) (moves : v.step a = some v') : Carefully u v' :=
  Reachable.next h (guarded_eq_some.mpr ⟨care, moves⟩)

theorem views_start (quiet : NoThread s) (views : Views s v) (idle : s.lifecycle = .idle)
    (created : Bool) : ∃ v', Carefully v v' ∧ Views (s.start created) v' := by
  obtain ⟨accepting, running, worker, mutex, calls, refused⟩ := views
  have free : v.calls () = .idle := by rw [calls, idle]; rfl
  unfold start
  split
  · exact ⟨v, .refl v, accepting, running, worker, mutex, calls, refused⟩
  · rename_i off
    replace off : s.running = false := Bool.of_not_eq_true off
    have gone : v.worker = none := by rw [worker, quiet (.inl off)]; rfl
    have first := Carefully.next (.refl v) rfl ((SchedulerCallers.step_start (c := ())).mpr
      ⟨free, mutex, .inr ⟨running.trans off, rfl⟩⟩)
    have second := first.next rfl ((SchedulerCallers.step_storeTrue (c := ())).mpr
      ⟨by simp [SchedulerCallers.moved_apply], rfl⟩)
    cases created with
    | true =>
      have third := second.next rfl ((SchedulerCallers.step_create (c := ())).mpr
        ⟨by simp [SchedulerCallers.moved_apply], .inl ⟨rfl, rfl⟩⟩)
      have fourth := third.next rfl ((SchedulerCallers.step_assign (c := ())).mpr
        ⟨by simp [SchedulerCallers.moved_apply], .inl ⟨gone, rfl⟩⟩)
      refine ⟨_, fourth, rfl, rfl, rfl, rfl, ?_, ?_⟩
      · simp [SchedulerCallers.moved_apply, idle, Lifecycle.call]
      · exact fun busy => absurd idle busy
    | false =>
      have third := second.next rfl ((SchedulerCallers.step_create (c := ())).mpr
        ⟨by simp [SchedulerCallers.moved_apply], .inr ⟨rfl, rfl⟩⟩)
      refine ⟨_, third, rfl, rfl, worker, rfl, ?_, ?_⟩
      · simp [SchedulerCallers.moved_apply, idle, Lifecycle.call]
      · exact fun busy => absurd idle busy

/-- One step of the scheduler is a careful run of the one caller. -/
theorem views_step (quiet : NoThread s) (views : Views s v) {a : SchedulerAction Payload}
    (h : step s a = some s') : ∃ v', Carefully v v' ∧ Views s' v' := by
  have still : Views s' v → ∃ v', Carefully v v' ∧ Views s' v' := fun kept => ⟨v, .refl v, kept⟩
  have calls := views.calls
  cases a with
  | schedule r =>
    obtain ⟨-, rfl⟩ := step_schedule.mp h
    apply still
    unfold schedule
    split
    · exact views.unchanged rfl rfl rfl rfl
    · exact views
  | notify id =>
    obtain ⟨-, rfl⟩ := step_notify.mp h
    exact still (views.unchanged rfl rfl (timing_woken ..) rfl)
  | start created =>
    obtain ⟨-, idle, rfl⟩ := step_start.mp h
    exact views_start quiet views idle created
  | stop =>
    obtain ⟨-, idle, rfl⟩ := step_stop.mp h
    rw [idle] at calls
    have moves := Carefully.next (.refl v) rfl
      ((SchedulerCallers.step_stop (c := ())).mpr ⟨calls, views.mutex, rfl⟩)
    exact ⟨_, moves, rfl, views.running, views.worker, views.mutex,
      by simp [SchedulerCallers.moved_apply, Lifecycle.call], fun _ => rfl⟩
  | requestStop =>
    obtain ⟨refusing, found⟩ := step_requestStop.mp h
    rw [refusing] at calls
    have refused := views.refused (by simp [refusing])
    have alone : ∀ d, (v.calls d).joining = false := fun _ => by rw [calls]; rfl
    have care : v.careful (.testJoinable ()) = true := by simp [SchedulerCallers.careful, alone]
    rcases found with ⟨absent, rfl⟩ | ⟨present, rfl⟩
    · have gone : v.worker = none := by rw [views.worker, absent]; rfl
      have moves := Carefully.next (.refl v) care
        (SchedulerCallers.step_testJoinable.mpr ⟨calls, .inl ⟨gone, rfl⟩⟩)
      exact ⟨_, moves, views.accepting, views.running, views.worker, views.mutex,
        by simp [SchedulerCallers.moved_apply, Lifecycle.call], fun _ => refused⟩
    · have there : v.worker ≠ none := by
        rw [views.worker]
        cases hw : s.worker <;> simp_all [Worker.timing]
      have first := Carefully.next (.refl v) care
        (SchedulerCallers.step_testJoinable.mpr ⟨calls, .inr ⟨there, rfl⟩⟩)
      have second := first.next rfl ((SchedulerCallers.step_requestStop (c := ())).mpr
        ⟨by simp [SchedulerCallers.moved_apply], rfl⟩)
      refine ⟨_, second, views.accepting, views.running, ?_, views.mutex,
        by simp [SchedulerCallers.moved_apply, Lifecycle.call], fun _ => refused⟩
      rw [views.worker]
      exact timing_requestStop s.worker
  | notifyAll =>
    obtain ⟨requested, rfl⟩ := step_notifyAll.mp h
    refine still ⟨views.accepting, views.running, ?_, views.mutex, ?_, ?_⟩
    · rw [views.worker, timing_woken]
    · rw [calls, requested]
      rfl
    · exact fun _ => views.refused (by simp [requested])
  | join =>
    obtain ⟨joining, exited, rfl⟩ := step_join.mp h
    rw [joining] at calls
    have finished : v.worker = some .finished := by rw [views.worker, exited]; rfl
    have moves := Carefully.next (.refl v) rfl
      (SchedulerCallers.step_join.mpr ⟨calls, .inl ⟨finished, rfl⟩⟩)
    exact ⟨_, moves, views.accepting, views.running, rfl, views.mutex,
      by simp [SchedulerCallers.moved_apply, Lifecycle.call],
      fun _ => views.refused (by simp [joining])⟩
  | stopReturn =>
    obtain ⟨joined, rfl⟩ := step_stopReturn.mp h
    rw [joined] at calls
    have refused := views.refused (by simp [joined])
    have moves := Carefully.next (.refl v) rfl
      (SchedulerCallers.step_storeFalse.mpr ⟨calls, rfl⟩)
    exact ⟨_, moves, views.accepting, rfl, views.worker, views.mutex,
      by simp [SchedulerCallers.moved_apply, Lifecycle.call], fun _ => refused⟩
  | setClock now =>
    cases h
    exact still (views.unchanged rfl rfl rfl rfl)
  | wake =>
    obtain ⟨-, rfl⟩ := step_wake.mp h
    exact still (views.unchanged rfl rfl (timing_woken ..) rfl)
  | work timeout =>
    rcases workStep_cases h with ⟨w, o, move, rfl⟩ | ⟨d, o, c, due, heap, worker, -, -, rfl⟩ |
      ⟨due, worker, rfl⟩
    · rcases move.timing with same | ⟨rfl, asked⟩
      · exact still (views.unchanged rfl rfl same rfl)
      · have moves := Carefully.next (.refl v) rfl
          (SchedulerCallers.step_exit.mpr ⟨views.worker.trans asked, views.mutex, rfl⟩)
        exact ⟨_, moves, views.accepting, views.running, rfl, views.mutex, calls, views.refused⟩
    · exact still (views.unchanged rfl rfl (by rw [worker]; rfl) rfl)
    · exact still (views.unchanged rfl rfl (by rw [worker]; rfl) rfl)
  | settle outcome =>
    obtain ⟨due, worker, rfl⟩ := step_settle.mp h
    apply still
    cases outcome <;> exact views.unchanged rfl rfl (by rw [worker]; rfl) rfl

end Simulation

theorem views_reachable (reached : Reachable step (initial now) s) :
    ∃ v, Carefully .initial v ∧ Views s v := by
  induction reached with
  | start => exact ⟨_, .refl _, rfl, rfl, rfl, rfl, rfl, fun _ => rfl⟩
  | next r a r' reached moves ih =>
    obtain ⟨v, further, views⟩ := ih
    have quiet : NoThread r :=
      reached.invariant (fun _ => rfl) fun _ _ _ inv hstep => noThread_step inv hstep
    obtain ⟨v', carefully, views'⟩ := views_step quiet views moves
    exact ⟨v', further.trans carefully, views'⟩

/-- When calls are made one at a time every step is careful, so between calls the scheduler runs
exactly when its timing thread is alive, and exactly when it accepts requests. -/
theorem one_call_consistent (reached : Reachable step (initial now) s)
    (idle : s.lifecycle = .idle) :
    (s.running = true ↔ ∃ t, s.worker.timing s.stopRequested = some t ∧ t.alive = true) ∧
      (s.running = true ↔ s.accepting = true) := by
  obtain ⟨v, carefully, views⟩ := views_reachable reached
  have sound := SchedulerCallers.careful_sound carefully
  have quiet : v.Quiescent := fun _ => by rw [views.calls, idle]; rfl
  have alive : v.Alive ↔ ∃ t, v.worker = some t ∧ t.alive = true := by
    simp [SchedulerCallers.Alive, quiet _]
  have running := sound.quiescent_alive quiet
  have accepting := sound.quiescent_accepting quiet
  rw [views.running, alive, views.worker] at running
  rw [views.running, views.accepting] at accepting
  exact ⟨running, accepting⟩

end Scheduler

end Yellowstone
