import Mathlib.Data.Fintype.Basic
import Yellowstone.Library.Machine

/-!
# `start` and `stop` of a `Scheduler`, called from many threads

Every locked region, every access of `m_running` and every operation on `m_worker` is a step.
`start` holds the mutex from its first step to its last, `stop` only while it clears
`m_accepting`. Of the timing thread only its life is kept: it ends after a stop was requested,
at a time when it can hold the mutex.
-/

set_option autoImplicit false

namespace Yellowstone

open Machine

/-- A thread that a `std::jthread` refers to. -/
inductive TimingThread where
  | active
  /-- A stop has been requested. -/
  | asked
  | finished
deriving DecidableEq, Repr

namespace TimingThread

def alive : TimingThread → Bool
  | finished => false
  | _ => true

def requestStop : TimingThread → TimingThread
  | active => asked
  | t => t

end TimingThread

/-- Where a caller stands in `start` or `stop`. -/
inductive LifecycleCall where
  | idle
  /-- `start` has found `m_running` false. -/
  | loaded
  | stored
  /-- The thread runs, and is still to be moved into `m_worker`. -/
  | created
  | replacing
  /-- `stop` has cleared `m_accepting`. -/
  | refused
  | found
  | requested
  | storing
deriving DecidableEq, Repr

namespace LifecycleCall

/-- `start`, with the mutex. -/
def starting : LifecycleCall → Bool
  | loaded | stored | created | replacing => true
  | _ => false

def stopping : LifecycleCall → Bool
  | refused | found | requested | storing => true
  | _ => false

/-- `start` has stored true, and `m_worker` is still to be assigned. -/
def opening : LifecycleCall → Bool
  | stored | created => true
  | _ => false

/-- Between a change of `m_worker` and the change of `m_running` that goes with it. -/
def unmanned : LifecycleCall → Bool
  | stored | created | storing => true
  | _ => false

/-- `stop` has found `m_worker` joinable and has not joined it yet. -/
def joining : LifecycleCall → Bool
  | found | requested => true
  | _ => false

/-- `stop` has requested the stop of the thread that it is about to join. -/
def asking : LifecycleCall → Bool
  | requested => true
  | _ => false

@[grind =] theorem starting_iff {p : LifecycleCall} : p.starting = true ↔
    p = loaded ∨ p = stored ∨ p = created ∨ p = replacing := by
  cases p <;> decide

@[grind =] theorem opening_iff {p : LifecycleCall} :
    p.opening = true ↔ p = stored ∨ p = created := by
  cases p <;> decide

@[grind =] theorem stopping_iff {p : LifecycleCall} : p.stopping = true ↔
    p = refused ∨ p = found ∨ p = requested ∨ p = storing := by
  cases p <;> decide

@[grind =] theorem joining_iff {p : LifecycleCall} :
    p.joining = true ↔ p = found ∨ p = requested := by
  cases p <;> decide

end LifecycleCall

/-- What must not be done to `m_worker`. -/
inductive WorkerFault where
  | joinedTwice
  | replacedAlive
deriving DecidableEq, Repr

structure SchedulerCallers (Caller : Type) where
  accepting : Bool
  running : Bool
  /-- `m_worker`; nothing when it is not joinable. -/
  worker : Option TimingThread
  mutex : Option Caller
  calls : Caller → LifecycleCall
  /-- Whether the calls of `m_schedule` were accepted. -/
  answers : List Bool
  faults : List WorkerFault

inductive CallersAction (Caller : Type) where
  | start (c : Caller)
  | storeTrue (c : Caller)
  /-- The thread is created, or `std::jthread` throws. -/
  | create (c : Caller) (created : Bool)
  | assign (c : Caller)
  | replaceJoin (c : Caller)
  | stop (c : Caller)
  | testJoinable (c : Caller)
  | requestStop (c : Caller)
  | join (c : Caller)
  | storeFalse (c : Caller)
  | schedule (c : Caller)
  /-- The timing thread returns from `m_run`. -/
  | exit

namespace SchedulerCallers
variable {Caller : Type} [DecidableEq Caller]

/-- A constructed scheduler before the constructor's call of `start`. -/
def initial : SchedulerCallers Caller where
  accepting := false
  running := false
  worker := none
  mutex := none
  calls := fun _ => .idle
  answers := []
  faults := []

/-- One caller moves on. -/
def moved (s : SchedulerCallers Caller) (c : Caller) (call : LifecycleCall) :
    Caller → LifecycleCall :=
  Function.update s.calls c call

def step (s : SchedulerCallers Caller) :
    CallersAction Caller → Option (SchedulerCallers Caller)
  | .start c =>
    if s.calls c = .idle ∧ s.mutex = none then
      if s.running then some s
      else some { s with calls := s.moved c .loaded, mutex := some c }
    else none
  | .storeTrue c =>
    if s.calls c = .loaded then
      some { s with calls := s.moved c .stored, accepting := true, running := true }
    else none
  | .create c created =>
    if s.calls c = .stored then
      if created then some { s with calls := s.moved c .created }
      else some { s with
        calls := s.moved c .idle, accepting := false, running := false, mutex := none }
    else none
  | .assign c =>
    if s.calls c = .created then
      match s.worker with
      | none => some { s with calls := s.moved c .idle, worker := some .active, mutex := none }
      -- assigning to a joinable `std::jthread` stops and joins its thread first
      | some old => some { s with
          calls := s.moved c .replacing
          worker := some old.requestStop
          faults := s.faults ++ if old.alive then [.replacedAlive] else [] }
    else none
  | .replaceJoin c =>
    if s.calls c = .replacing ∧ s.worker = some .finished then
      some { s with calls := s.moved c .idle, worker := some .active, mutex := none }
    else none
  | .stop c =>
    if s.calls c = .idle ∧ s.mutex = none then
      some { s with calls := s.moved c .refused, accepting := false }
    else none
  | .testJoinable c =>
    if s.calls c = .refused then
      some { s with calls := s.moved c (if s.worker.isSome then .found else .storing) }
    else none
  | .requestStop c =>
    if s.calls c = .found then
      some { s with
        calls := s.moved c .requested, worker := s.worker.map TimingThread.requestStop }
    else none
  | .join c =>
    if s.calls c = .requested then
      match s.worker with
      | some .finished => some { s with calls := s.moved c .storing, worker := none }
      | some _ => none
      -- `join` throws, out of a `noexcept` function
      | none => some { s with
          calls := s.moved c .storing, faults := s.faults ++ [.joinedTwice] }
    else none
  | .storeFalse c =>
    if s.calls c = .storing then some { s with calls := s.moved c .idle, running := false }
    else none
  | .schedule c =>
    if s.calls c = .idle ∧ s.mutex = none then
      some { s with answers := s.answers ++ [s.accepting] }
    else none
  | .exit =>
    if s.worker = some .asked ∧ s.mutex = none then some { s with worker := some .finished }
    else none

/-- No call of `start` or `stop` is in progress. -/
def Quiescent (s : SchedulerCallers Caller) : Prop := ∀ c, s.calls c = .idle

/-- A timing thread is running, in `m_worker` or still on its way there. -/
def Alive (s : SchedulerCallers Caller) : Prop :=
  (∃ t, s.worker = some t ∧ t.alive = true) ∨ ∃ c, s.calls c = .created ∨ s.calls c = .replacing

structure Consistent (s : SchedulerCallers Caller) : Prop where
  alive : s.Quiescent → (s.running = true ↔ s.Alive)
  accepting : s.Quiescent → (s.running = true ↔ s.accepting = true)
  faultless : s.faults = []

/-- A `start` sets `m_running` only if no `stop` is still to clear it, and a `stop` finds
`m_worker` joinable only if no other `stop` is still to join it. -/
def careful [Fintype Caller] (s : SchedulerCallers Caller) : CallersAction Caller → Bool
  | .storeTrue _ => decide (∀ d, (s.calls d).stopping = false)
  | .testJoinable _ => s.worker.isNone || decide (∀ d, (s.calls d).joining = false)
  | _ => true

section Steps
variable {s s' : SchedulerCallers Caller} {c : Caller}

theorem step_start : step s (.start c) = some s' ↔ s.calls c = .idle ∧ s.mutex = none ∧
    ((s.running = true ∧ s' = s) ∨
      (s.running = false ∧ s' = { s with calls := s.moved c .loaded, mutex := some c })) := by
  cases hr : s.running <;> simp [step, hr, @eq_comm _ s', and_assoc]

theorem step_storeTrue : step s (.storeTrue c) = some s' ↔ s.calls c = .loaded ∧
    s' = { s with calls := s.moved c .stored, accepting := true, running := true } := by
  simp [step, @eq_comm _ s']

theorem step_create {created : Bool} : step s (.create c created) = some s' ↔
    s.calls c = .stored ∧
      ((created = true ∧ s' = { s with calls := s.moved c .created }) ∨
        (created = false ∧ s' = { s with
          calls := s.moved c .idle, accepting := false, running := false, mutex := none })) := by
  cases created <;> simp [step, @eq_comm _ s']

theorem step_assign : step s (.assign c) = some s' ↔ s.calls c = .created ∧
    ((s.worker = none ∧
        s' = { s with calls := s.moved c .idle, worker := some .active, mutex := none }) ∨
      ∃ old, s.worker = some old ∧ s' = { s with
        calls := s.moved c .replacing
        worker := some old.requestStop
        faults := s.faults ++ if old.alive then [.replacedAlive] else [] }) := by
  cases hw : s.worker <;> simp [step, hw, @eq_comm _ s']

theorem step_replaceJoin : step s (.replaceJoin c) = some s' ↔ s.calls c = .replacing ∧
    s.worker = some .finished ∧
      s' = { s with calls := s.moved c .idle, worker := some .active, mutex := none } := by
  simp [step, @eq_comm _ s', and_assoc]

theorem step_stop : step s (.stop c) = some s' ↔ s.calls c = .idle ∧ s.mutex = none ∧
    s' = { s with calls := s.moved c .refused, accepting := false } := by
  simp [step, @eq_comm _ s', and_assoc]

theorem step_testJoinable : step s (.testJoinable c) = some s' ↔ s.calls c = .refused ∧
    ((s.worker = none ∧ s' = { s with calls := s.moved c .storing }) ∨
      (s.worker ≠ none ∧ s' = { s with calls := s.moved c .found })) := by
  cases hw : s.worker <;> simp [step, hw, @eq_comm _ s']

theorem step_requestStop : step s (.requestStop c) = some s' ↔ s.calls c = .found ∧
    s' = { s with
      calls := s.moved c .requested, worker := s.worker.map TimingThread.requestStop } := by
  simp [step, @eq_comm _ s']

theorem step_join : step s (.join c) = some s' ↔ s.calls c = .requested ∧
    ((s.worker = some .finished ∧ s' = { s with calls := s.moved c .storing, worker := none }) ∨
      (s.worker = none ∧ s' = { s with
        calls := s.moved c .storing, faults := s.faults ++ [.joinedTwice] })) := by
  cases hw : s.worker with
  | none => simp [step, hw, @eq_comm _ s']
  | some t => cases t <;> simp [step, hw, @eq_comm _ s']

theorem step_storeFalse : step s (.storeFalse c) = some s' ↔ s.calls c = .storing ∧
    s' = { s with calls := s.moved c .idle, running := false } := by
  simp [step, @eq_comm _ s']

theorem step_schedule : step s (.schedule c) = some s' ↔ s.calls c = .idle ∧ s.mutex = none ∧
    s' = { s with answers := s.answers ++ [s.accepting] } := by
  simp [step, @eq_comm _ s', and_assoc]

theorem step_exit : step s .exit = some s' ↔ s.worker = some .asked ∧ s.mutex = none ∧
    s' = { s with worker := some .finished } := by
  simp [step, @eq_comm _ s', and_assoc]

@[grind =] theorem moved_apply (c d : Caller) (call : LifecycleCall) :
    s.moved c call d = if d = c then call else s.calls d :=
  Function.update_apply ..

theorem exists_moved {P : LifecycleCall → Bool} {call : LifecycleCall} (h : P call = true) :
    ∃ d, P (s.moved c call d) = true :=
  ⟨c, by simpa [moved_apply] using h⟩

/-- The others stay where they are. -/
theorem exists_kept {P : LifecycleCall → Bool} (call : LifecycleCall)
    (left : P (s.calls c) = false) (others : ∃ d, P (s.calls d) = true) :
    ∃ d, P (s.moved c call d) = true := by
  obtain ⟨d, hd⟩ := others
  have other : d ≠ c := by
    rintro rfl
    cases left.symm.trans hd
  exact ⟨d, by simpa [moved_apply, other] using hd⟩

end Steps

/-! ## The invariant -/

/-- The mutex belongs to the `start` in progress, which opens a stopped scheduler; only one `stop`
is about to join; and any disagreement belongs to a call that is still to resolve it. -/
structure Sound (s : SchedulerCallers Caller) : Prop where
  owner : ∀ c, (s.calls c).starting = true ↔ s.mutex = some c
  faultless : s.faults = []
  joiner : ∀ c d, (s.calls c).joining = true → (s.calls d).joining = true → c = d
  joinable : ∀ c, (s.calls c).joining = true → s.worker ≠ none
  joined : ∀ c, s.calls c = .storing → s.worker = none
  asked : ∀ t, s.worker = some t → t ≠ .active → ∃ c, (s.calls c).asking = true
  loaded : ∀ c, s.calls c = .loaded → s.running = false
  opening : ∀ c, (s.calls c).opening = true → s.accepting = true ∧ s.worker = none
  replacing : ∀ c, s.calls c ≠ .replacing
  accepts : s.accepting = true → s.running = true ∧ ∀ c, (s.calls c).stopping = false
  stopped : s.running = false → s.worker = none
  unmanned : s.running = true → s.worker = none → ∃ c, (s.calls c).unmanned = true
  refusing : s.running = true → s.accepting = false → ∃ c, (s.calls c).stopping = true

omit [DecidableEq Caller] in
theorem sound_initial : Sound (initial : SchedulerCallers Caller) := by
  constructor <;>
    simp [initial, LifecycleCall.starting, LifecycleCall.joining, LifecycleCall.opening]

section Sound
variable {s s' : SchedulerCallers Caller} {c : Caller} (inv : Sound s)
include inv

theorem sound_start (h : step s (.start c) = some s') : Sound s' := by
  obtain ⟨idle, free, ⟨-, rfl⟩ | ⟨off, rfl⟩⟩ := step_start.mp h
  · exact inv
  · obtain ⟨owner, faultless, joiner, joinable, joined, asked, loaded, opening, replacing, accepts,
      stopped, unmanned, refusing⟩ := inv
    clear h
    constructor
    case asked => exact fun t full => by simp [stopped off] at full
    case unmanned => exact fun on => by simp [off] at on
    case refusing => exact fun on => by simp [off] at on
    all_goals grind

theorem sound_storeTrue (h : step s (.storeTrue c) = some s')
    (alone : ∀ d, (s.calls d).stopping = false) : Sound s' := by
  obtain ⟨here, rfl⟩ := step_storeTrue.mp h
  obtain ⟨owner, faultless, joiner, joinable, joined, asked, loaded, opening, replacing, accepts,
    stopped, unmanned, refusing⟩ := inv
  have gone : s.worker = none := stopped (loaded c here)
  clear h
  constructor
  case asked => exact fun t full => by simp [gone] at full
  case unmanned => exact fun _ _ => exists_moved rfl
  case refusing => exact fun _ off => by cases off
  all_goals grind

theorem sound_create {created : Bool} (h : step s (.create c created) = some s') : Sound s' := by
  obtain ⟨here, made⟩ := step_create.mp h
  obtain ⟨owner, faultless, joiner, joinable, joined, asked, loaded, opening, replacing, accepts,
    stopped, unmanned, refusing⟩ := inv
  obtain ⟨on, gone⟩ := opening c (by simp [here, LifecycleCall.opening])
  clear h
  rcases made with ⟨-, rfl⟩ | ⟨-, rfl⟩
  · constructor
    case asked => exact fun t full => by simp [gone] at full
    case unmanned => exact fun _ _ => exists_moved rfl
    case refusing => exact fun _ off => by cases on.symm.trans off
    all_goals grind
  · constructor
    case asked => exact fun t full => by simp [gone] at full
    case unmanned => exact fun on => by cases on
    case refusing => exact fun on => by cases on
    all_goals grind

/-- `m_worker` is empty when the new thread is moved into it. -/
theorem sound_assign (h : step s (.assign c) = some s') : Sound s' := by
  obtain ⟨here, assigned⟩ := step_assign.mp h
  obtain ⟨owner, faultless, joiner, joinable, joined, asked, loaded, opening, replacing, accepts,
    stopped, unmanned, refusing⟩ := inv
  obtain ⟨on, gone⟩ := opening c (by simp [here, LifecycleCall.opening])
  clear h
  rcases assigned with ⟨-, rfl⟩ | ⟨old, full, -⟩
  · constructor
    case asked =>
      intro t full old
      cases full
      exact absurd rfl old
    case unmanned => exact fun _ none => by cases none
    case refusing => exact fun _ off => by cases on.symm.trans off
    all_goals grind
  · cases gone.symm.trans full

theorem sound_stop (h : step s (.stop c) = some s') : Sound s' := by
  obtain ⟨here, free, rfl⟩ := step_stop.mp h
  obtain ⟨owner, faultless, joiner, joinable, joined, asked, loaded, opening, replacing, accepts,
    stopped, unmanned, refusing⟩ := inv
  clear h
  constructor
  case asked => exact fun t full old => exists_kept _ (by rw [here]; rfl) (asked t full old)
  case unmanned => exact fun on gone => exists_kept _ (by rw [here]; rfl) (unmanned on gone)
  case refusing => exact fun _ _ => exists_moved rfl
  all_goals grind

theorem sound_testJoinable (h : step s (.testJoinable c) = some s')
    (alone : s.worker ≠ none → ∀ d, (s.calls d).joining = false) : Sound s' := by
  obtain ⟨here, tested⟩ := step_testJoinable.mp h
  obtain ⟨owner, faultless, joiner, joinable, joined, asked, loaded, opening, replacing, accepts,
    stopped, unmanned, refusing⟩ := inv
  clear h
  rcases tested with ⟨gone, rfl⟩ | ⟨full, rfl⟩
  · constructor
    case asked => exact fun t full => by simp [gone] at full
    case unmanned => exact fun _ _ => exists_moved rfl
    case refusing => exact fun _ _ => exists_moved rfl
    all_goals grind
  · constructor
    case asked => exact fun t full old => exists_kept _ (by rw [here]; rfl) (asked t full old)
    case unmanned => exact fun _ gone => absurd gone full
    case refusing => exact fun _ _ => exists_moved rfl
    all_goals grind

theorem sound_requestStop (h : step s (.requestStop c) = some s') : Sound s' := by
  obtain ⟨here, rfl⟩ := step_requestStop.mp h
  obtain ⟨owner, faultless, joiner, joinable, joined, asked, loaded, opening, replacing, accepts,
    stopped, unmanned, refusing⟩ := inv
  have full : s.worker ≠ none := joinable c (by simp [here, LifecycleCall.joining])
  have kept : s.worker.map TimingThread.requestStop ≠ none := by simpa using full
  clear h
  constructor
  case asked => exact fun _ _ _ => exists_moved rfl
  case joinable => exact fun _ _ gone => kept gone
  case unmanned => exact fun _ gone => absurd gone kept
  case refusing => exact fun _ _ => exists_moved rfl
  all_goals grind

/-- What `join` waits for is there, and no other `stop` waits for it. -/
theorem sound_join (h : step s (.join c) = some s') : Sound s' := by
  obtain ⟨here, ended⟩ := step_join.mp h
  obtain ⟨owner, faultless, joiner, joinable, joined, asked, loaded, opening, replacing, accepts,
    stopped, unmanned, refusing⟩ := inv
  have full : s.worker ≠ none := joinable c (by simp [here, LifecycleCall.joining])
  clear h
  rcases ended with ⟨finished, rfl⟩ | ⟨gone, -⟩
  · constructor
    case asked => exact fun t full => by cases full
    case unmanned => exact fun _ _ => exists_moved rfl
    case refusing => exact fun _ _ => exists_moved rfl
    all_goals grind
  · exact absurd gone full

/-- Nothing was started since this `stop` began. -/
theorem sound_storeFalse (h : step s (.storeFalse c) = some s') : Sound s' := by
  obtain ⟨here, rfl⟩ := step_storeFalse.mp h
  obtain ⟨owner, faultless, joiner, joinable, joined, asked, loaded, opening, replacing, accepts,
    stopped, unmanned, refusing⟩ := inv
  have gone : s.worker = none := joined c here
  clear h
  constructor
  case asked => exact fun t full => by simp [gone] at full
  case unmanned => exact fun on => by cases on
  case refusing => exact fun on => by cases on
  all_goals grind

theorem sound_exit (h : step s .exit = some s') : Sound s' := by
  obtain ⟨asked, -, rfl⟩ := step_exit.mp h
  have asking := inv.asked _ asked (by simp)
  refine { inv with
    joinable := ?_, joined := ?_, asked := ?_, opening := ?_, stopped := ?_, unmanned := ?_ }
  · exact fun _ _ none => by cases none
  · intro c storing
    cases (inv.joined c storing).symm.trans asked
  · exact fun _ _ _ => asking
  · intro c open'
    cases (inv.opening c open').2.symm.trans asked
  · intro off
    cases (inv.stopped off).symm.trans asked
  · exact fun _ none => by cases none

end Sound

section Runs
variable [Fintype Caller] {s s' : SchedulerCallers Caller}

theorem sound_step {a : CallersAction Caller} (inv : Sound s) (care : s.careful a = true)
    (h : step s a = some s') : Sound s' := by
  cases a with
  | start c => exact sound_start inv h
  | storeTrue c => exact sound_storeTrue inv h (of_decide_eq_true care)
  | create c created => exact sound_create inv h
  | assign c => exact sound_assign inv h
  | replaceJoin c => exact absurd (step_replaceJoin.mp h).1 (inv.replacing c)
  | stop c => exact sound_stop inv h
  | testJoinable c =>
    refine sound_testJoinable inv h fun full => ?_
    simpa [careful, full] using care
  | requestStop c => exact sound_requestStop inv h
  | join c => exact sound_join inv h
  | storeFalse c => exact sound_storeFalse inv h
  | schedule c =>
    obtain ⟨-, -, rfl⟩ := step_schedule.mp h
    exact { inv with }
  | exit => exact sound_exit inv h

omit [DecidableEq Caller] [Fintype Caller] in
theorem Sound.quiescent_alive (inv : Sound s) (quiet : s.Quiescent) :
    s.running = true ↔ s.Alive := by
  constructor
  · intro on
    have manned : s.worker ≠ none := fun gone => by
      obtain ⟨c, hc⟩ := inv.unmanned on gone
      simp [quiet c, LifecycleCall.unmanned] at hc
    obtain ⟨t, ht⟩ := Option.ne_none_iff_exists'.mp manned
    have active : t = .active := by
      by_contra old
      obtain ⟨c, hc⟩ := inv.asked t ht old
      simp [quiet c, LifecycleCall.asking] at hc
    exact .inl ⟨t, ht, by simp [active, TimingThread.alive]⟩
  · rintro (⟨t, ht, -⟩ | ⟨c, hc⟩)
    · by_contra off
      cases (inv.stopped (Bool.of_not_eq_true off)).symm.trans ht
    · simp [quiet c] at hc

omit [DecidableEq Caller] [Fintype Caller] in
theorem Sound.quiescent_accepting (inv : Sound s) (quiet : s.Quiescent) :
    s.running = true ↔ s.accepting = true := by
  refine ⟨fun on => ?_, fun accepting => (inv.accepts accepting).1⟩
  by_contra refused
  obtain ⟨c, hc⟩ := inv.refusing on (Bool.of_not_eq_true refused)
  simp [quiet c, LifecycleCall.stopping] at hc

theorem careful_sound (reached : Reachable (guarded step careful) initial s) : Sound s := by
  refine reached.invariant sound_initial fun r a r' sound moves => ?_
  obtain ⟨care, moves⟩ := guarded_eq_some.mp moves
  exact sound_step sound care moves

/-- However many threads call `start` and `stop`, the three pieces of state agree between calls,
as long as every step is careful. -/
theorem careful_consistent (reached : Reachable (guarded step careful) initial s) :
    Consistent s := by
  have sound := careful_sound reached
  exact ⟨sound.quiescent_alive, sound.quiescent_accepting, sound.faultless⟩

end Runs

/-! ## Two callers -/

/-- One whole call of `start`. -/
def starts (c : Fin 2) : List (CallersAction (Fin 2)) :=
  [.start c, .storeTrue c, .create c true, .assign c]

/-- Two calls of `stop` that overlap, a restart and a request. -/
def overlapping : List (CallersAction (Fin 2)) :=
  starts 0 ++ [.stop 0, .stop 1, .testJoinable 0, .requestStop 0, .exit, .join 0,
    .testJoinable 1, .storeFalse 0, .storeFalse 1] ++ starts 1 ++ [.schedule 0]

def sampleRestarted : SchedulerCallers (Fin 2) :=
  (run (guarded step careful) initial overlapping).getD initial

theorem sampleRestarted_consistent : Consistent sampleRestarted ∧
    sampleRestarted.answers = [true] := by
  have reached : Reachable (guarded step careful) initial sampleRestarted := ⟨overlapping, rfl⟩
  exact ⟨careful_consistent reached, rfl⟩

/-- A `stop` that found nothing to join clears `m_running` after a whole `start`. -/
def stopsTooLate : List (CallersAction (Fin 2)) :=
  [.stop 0, .testJoinable 0] ++ starts 1 ++ [.storeFalse 0]

/-- Two calls of `stop` find the same thread. -/
def joinsTwice : List (CallersAction (Fin 2)) :=
  starts 0 ++ [.stop 0, .stop 1, .testJoinable 0, .testJoinable 1, .requestStop 0, .exit, .join 0,
    .requestStop 1, .join 1]

def sampleStale : SchedulerCallers (Fin 2) := (run step initial stopsTooLate).getD initial

def sampleJoined : SchedulerCallers (Fin 2) := (run step initial joinsTwice).getD initial

theorem not_always_consistent :
    ¬(∀ s : SchedulerCallers (Fin 2), Reachable step initial s → s.Quiescent →
      (s.running = true ↔ s.Alive)) ∧
    ¬∀ s : SchedulerCallers (Fin 2), Reachable step initial s → s.faults = [] := by
  refine ⟨fun claimed => ?_, fun claimed => ?_⟩
  · have quiet : sampleStale.Quiescent := by unfold Quiescent; decide
    have alive : sampleStale.Alive := .inl ⟨.active, rfl, rfl⟩
    have running := (claimed sampleStale ⟨stopsTooLate, rfl⟩ quiet).mpr alive
    revert running
    decide
  · have faultless := claimed sampleJoined ⟨joinsTwice, rfl⟩
    revert faultless
    decide

end SchedulerCallers

end Yellowstone
