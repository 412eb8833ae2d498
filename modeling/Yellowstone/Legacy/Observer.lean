import Yellowstone.Legacy.Exchange

/-!
# The observer

Any number of threads call `notify`, one at a time starts or stops the observer, and its worker
runs `m_run`. Every access to an atomic is a step of its own, and the worker's store of 0 to
`m_wake` may reach memory after its next loads, as a release store may. Assert operands are
evaluated, `Queue` is a bounded queue, and the environment chooses what a drain finds in its
partition and when `graph_arrive_and_wait` returns. `pushed`, `taken` and `calls` are no members
of `AObserver`.
-/

set_option autoImplicit false

namespace Yellowstone.Legacy

structure Notice where
  workerId : WorkerID := 0
  partitionId : PartitionID := 0
  gen : UInt32 := 0
  /-- A null pointer, or the partition pointed to. -/
  partition : Option PartitionID := none
deriving DecidableEq, Repr

/-- `AObserver::StateType`. -/
inductive StateType where
  | waiting
  | acquire
  | draining
  | release
  | teardown
  | terminated
deriving DecidableEq, Repr

def kMaxStateBufferSize : Nat := 4

def kMailboxSize : Nat := 64

/-- Where the worker thread is: in `m_run`, or in the `execute` of a state. -/
inductive RunAt where
  /-- Not created, or joined. -/
  | absent
  /-- At the condition of `m_run`'s loop. -/
  | next
  | loadCount
  | loadStop (count : UInt32)
  /-- At the load of `m_wake` in the loop's condition, or at that in `wait`. -/
  | loadWake
  | asleep
  | clearWake
  | popMailbox
  | decrement (notice : Notice)
  | drain
  /-- In `graph_arrive_and_wait`, after a drain in graph mode. -/
  | barrier
  | release
  | releaseCount
  | releaseStop
  | teardown
  | terminate
  /-- `m_run` has returned. -/
  | returned
deriving DecidableEq, Repr

/-- Where a thread is in `notify`. -/
inductive NotifyAt where
  | out
  | pushing (notice : Notice)
  | counting
  | waking
  | notifying
deriving DecidableEq, Repr

/-- Where the thread that stops the observer is in `stop`. -/
inductive StopAt where
  | out
  | waking
  | notifying
  | joining
deriving DecidableEq, Repr

structure Observer (Thread : Type) where
  states : List StateType
  mailbox : List Notice
  mailboxCount : UInt32
  stop : Bool
  /-- Whether `m_wake` is 1. -/
  wake : Bool
  /-- The worker's store of 0 to `m_wake` has not reached memory. -/
  storing : Bool
  /-- `m_worker_id`, `m_partition_id`, `m_generation` and `m_partition`. -/
  held : Notice
  worker : RunAt
  stopper : StopAt
  place : Thread → NotifyAt
  pushed : List Notice
  taken : List Notice
  /-- The worker's calls on the exchange. -/
  calls : List LeaseCall

inductive ObserverAction (Thread : Type) where
  | notify (c : Thread) (notice : Notice)
  | push (c : Thread)
  | count (c : Thread)
  | wake (c : Thread)
  | notifyOne (c : Thread)
  | start
  | stop
  | stopWake
  | stopNotifyOne
  | join
  /-- The worker's next step; a drain may end with events of a future superstep. -/
  | work (future : Bool)
  /-- `graph_arrive_and_wait` returns. -/
  | advance
  | storeArrives
  /-- The wait on `m_wake` unblocks spuriously. -/
  | rouse

/-- What the worker calls for a notice. -/
def Notice.close (n : Notice) : LeaseCall := .closeLease n.workerId n.partitionId n.gen

def Notice.release (n : Notice) : LeaseCall := .release n.workerId n.partitionId n.gen

def RunAt.woken : RunAt → RunAt
  | .asleep => .loadWake
  | place => place

/-- The `execute` of a state. -/
def StateType.enter : StateType → RunAt
  | .waiting => .loadCount
  | .acquire => .popMailbox
  | .draining => .drain
  | .release => .release
  | .teardown => .teardown
  | .terminated => .terminate

namespace Observer
variable {Thread : Type}

/-- `AObserver::AObserver`. -/
def new : Observer Thread where
  states := [.waiting]
  mailbox := []
  mailboxCount := 0
  stop := false
  wake := false
  storing := false
  held := {}
  worker := .absent
  stopper := .out
  place := fun _ => .out
  pushed := []
  taken := []
  calls := []

def goto (s : Observer Thread) (place : RunAt) : Observer Thread := { s with worker := place }

def changed (s : Observer Thread) (state : StateType) : Observer Thread :=
  { s with worker := .next, states := s.states ++ [state] }

/-- `change_state`, and the return from `execute` that follows it everywhere. -/
def changeState (s : Observer Thread) (state : StateType) : Option (Observer Thread) :=
  if s.states.length < kMaxStateBufferSize then some (s.changed state) else none

def called (s : Observer Thread) (calls : List LeaseCall) : Observer Thread :=
  { s with calls := s.calls ++ calls }

/-- `WaitState::execute`, with the flag loaded. -/
def wait (s : Observer Thread) (count : UInt32) : Option (Observer Thread) :=
  if s.stop = true ∧ count = 0 then s.changeState .terminated
  else if count ≠ 0 then s.changeState .acquire
  else some (s.goto .loadWake)

/-- `AcquireState::execute` up to its pop. -/
def acquire (s : Observer Thread) : Option (Observer Thread) :=
  match s.mailbox with
  | [] => s.changeState .waiting
  | n :: mailbox => some { s.goto (.decrement n) with mailbox, taken := s.taken ++ [n] }

/-- `DrainState::execute`; both ends close the lease, one gives it back at once and waits for the
other workers. -/
def drain (s : Observer Thread) (future : Bool) : Option (Observer Thread) :=
  if s.held.partition = none then none
  else if future then
    some { (s.called [s.held.close, s.held.release]).goto .barrier with held := {} }
  else (s.called [s.held.close]).changeState .release

def work (s : Observer Thread) (future : Bool) : Option (Observer Thread) :=
  match s.worker with
  | .absent | .asleep | .barrier | .returned => none
  | .next =>
    match s.states with
    | [] => some (s.goto .returned)
    | state :: states => some { s.goto state.enter with states }
  | .loadCount => some (s.goto (.loadStop s.mailboxCount))
  | .loadStop count => s.wait count
  | .loadWake =>
    -- a thread reads its own store before it has reached memory
    some (s.goto (if s.wake = true ∧ s.storing = false then .clearWake else .asleep))
  | .clearWake => some { s.goto .loadCount with storing := true }
  | .popMailbox => s.acquire
  | .decrement n =>
    { s with mailboxCount := s.mailboxCount - 1, held := n }.changeState .draining
  | .drain => s.drain future
  | .release => some { (s.called [s.held.release]).goto .releaseCount with held := {} }
  | .releaseCount =>
    if s.mailboxCount ≠ 0 then s.changeState .acquire else some (s.goto .releaseStop)
  | .releaseStop => s.changeState (if s.stop = true then .terminated else .waiting)
  | .teardown => s.changeState .waiting
  | .terminate => some { s.goto .next with states := [] }

variable [DecidableEq Thread]

def move (s : Observer Thread) (c : Thread) (x : NotifyAt) : Observer Thread :=
  { s with place := Function.update s.place c x }

def step (s : Observer Thread) : ObserverAction Thread → Option (Observer Thread)
  | .notify c n => if s.place c = .out then some (s.move c (.pushing n)) else none
  | .push c =>
    match s.place c with
    | .pushing n =>
      -- a push that finds no room changes nothing and is made again
      if s.mailbox.length < kMailboxSize then
        some { s.move c .counting with mailbox := s.mailbox ++ [n], pushed := s.pushed ++ [n] }
      else none
    | _ => none
  | .count c =>
    if s.place c = .counting then
      some { s.move c .waking with mailboxCount := s.mailboxCount + 1 }
    else none
  | .wake c =>
    if s.place c = .waking then some { s.move c .notifying with wake := true } else none
  | .notifyOne c =>
    if s.place c = .notifying then some { s.move c .out with worker := s.worker.woken } else none
  | .start =>
    if s.stopper = .out ∧ s.worker = .absent then
      some { s with stop := false, worker := .next }
    else none
  | .stop => if s.stopper = .out then some { s with stop := true, stopper := .waking } else none
  | .stopWake =>
    if s.stopper = .waking then some { s with wake := true, stopper := .notifying } else none
  | .stopNotifyOne =>
    if s.stopper = .notifying then
      some { s with worker := s.worker.woken, stopper := .joining }
    else none
  | .join =>
    if s.stopper = .joining ∧ (s.worker = .absent ∨ s.worker = .returned) then
      some { s with worker := .absent, stopper := .out }
    else none
  | .work future => s.work future
  | .advance => if s.worker = .barrier then s.changeState .waiting else none
  | .storeArrives =>
    if s.storing = true then some { s with wake := false, storing := false } else none
  | .rouse => if s.worker = .asleep then some (s.goto .loadWake) else none

/-! ## What a step can be -/

omit [DecidableEq Thread] in
theorem changeState_eq_some {s s' : Observer Thread} {x : StateType} :
    s.changeState x = some s' ↔ s.states.length < kMaxStateBufferSize ∧ s' = s.changed x := by
  simp [changeState, @eq_comm _ s']

/-- What the worker's next step can be. -/
inductive Works (s : Observer Thread) : Observer Thread → Prop
  | returns : s.worker = .next → s.states = [] → Works s (s.goto .returned)
  | enters (x : StateType) (states : List StateType) : s.worker = .next →
    s.states = x :: states → Works s { s.goto x.enter with states }
  | loadsCount : s.worker = .loadCount → Works s (s.goto (.loadStop s.mailboxCount))
  | stops : s.worker = .loadStop 0 → s.stop = true → Works s (s.changed .terminated)
  | finds (count : UInt32) : s.worker = .loadStop count → count ≠ 0 → Works s (s.changed .acquire)
  | waits : s.worker = .loadStop 0 → s.stop = false → Works s (s.goto .loadWake)
  | wakes : s.worker = .loadWake → s.wake = true → s.storing = false → Works s (s.goto .clearWake)
  | sleeps : s.worker = .loadWake → ¬(s.wake = true ∧ s.storing = false) →
    Works s (s.goto .asleep)
  | clears : s.worker = .clearWake → Works s { s.goto .loadCount with storing := true }
  | pops (n : Notice) (mailbox : List Notice) : s.worker = .popMailbox →
    s.mailbox = n :: mailbox →
    Works s { s.goto (.decrement n) with mailbox, taken := s.taken ++ [n] }
  | misses : s.worker = .popMailbox → s.mailbox = [] → Works s (s.changed .waiting)
  | decrements (n : Notice) : s.worker = .decrement n →
    Works s ({ s with mailboxCount := s.mailboxCount - 1, held := n }.changed .draining)
  | closes : s.worker = .drain → Works s ((s.called [s.held.close]).changed .release)
  | gives : s.worker = .drain →
    Works s { (s.called [s.held.close, s.held.release]).goto .barrier with held := {} }
  | releases : s.worker = .release →
    Works s { (s.called [s.held.release]).goto .releaseCount with held := {} }
  | releaseFinds : s.worker = .releaseCount → s.mailboxCount ≠ 0 → Works s (s.changed .acquire)
  | releaseLoads : s.worker = .releaseCount → s.mailboxCount = 0 → Works s (s.goto .releaseStop)
  | releaseStops : s.worker = .releaseStop → s.stop = true → Works s (s.changed .terminated)
  | releaseWaits : s.worker = .releaseStop → s.stop = false → Works s (s.changed .waiting)
  | tearsDown : s.worker = .teardown → Works s (s.changed .waiting)
  | terminates : s.worker = .terminate → Works s { s.goto .next with states := [] }

variable {s s' : Observer Thread} {a : ObserverAction Thread}

omit [DecidableEq Thread] in
theorem works_wait {count : UInt32} (here : s.worker = .loadStop count)
    (h : s.wait count = some s') : Works s s' := by
  unfold wait at h
  split at h
  · rename_i stop
    obtain ⟨-, rfl⟩ := changeState_eq_some.mp h
    exact .stops (stop.2 ▸ here) stop.1
  · rename_i on
    split at h
    · rename_i some'
      obtain ⟨-, rfl⟩ := changeState_eq_some.mp h
      exact .finds count here some'
    · rename_i none
      cases h
      obtain rfl := not_not.mp none
      exact .waits here (by simpa using on)

omit [DecidableEq Thread] in
theorem works_acquire (here : s.worker = .popMailbox) (h : s.acquire = some s') :
    Works s s' := by
  unfold acquire at h
  split at h
  · rename_i empty
    obtain ⟨-, rfl⟩ := changeState_eq_some.mp h
    exact .misses here empty
  · rename_i n mailbox front
    cases h
    exact .pops n mailbox here front

omit [DecidableEq Thread] in
theorem works_drain {future : Bool} (here : s.worker = .drain)
    (h : s.drain future = some s') : Works s s' := by
  unfold drain at h
  obtain ⟨-, h⟩ := Option.ite_none_left_eq_some.mp h
  split at h
  · cases h
    exact .gives here
  · obtain ⟨-, rfl⟩ := changeState_eq_some.mp h
    exact .closes here

omit [DecidableEq Thread] in
theorem work_works {future : Bool} (h : s.work future = some s') : Works s s' := by
  unfold work at h
  split at h
  · cases h
  · cases h
  · cases h
  · cases h
  · rename_i here
    split at h
    · rename_i none
      cases h
      exact .returns here none
    · rename_i x states first
      cases h
      exact .enters x states here first
  · rename_i here
    cases h
    exact .loadsCount here
  · rename_i count here
    exact works_wait here h
  · rename_i here
    by_cases armed : s.wake = true ∧ s.storing = false
    · rw [if_pos armed] at h
      cases h
      exact .wakes here armed.1 armed.2
    · rw [if_neg armed] at h
      cases h
      exact .sleeps here armed
  · rename_i here
    cases h
    exact .clears here
  · rename_i here
    exact works_acquire here h
  · rename_i n here
    obtain ⟨-, rfl⟩ := changeState_eq_some.mp h
    exact .decrements n here
  · rename_i here
    exact works_drain here h
  · rename_i here
    cases h
    exact .releases here
  · rename_i here
    split at h
    · rename_i some'
      obtain ⟨-, rfl⟩ := changeState_eq_some.mp h
      exact .releaseFinds here some'
    · rename_i none
      cases h
      exact .releaseLoads here (not_not.mp none)
  · rename_i here
    obtain ⟨-, rfl⟩ := changeState_eq_some.mp h
    cases stop : s.stop with
    | true => exact .releaseStops here stop
    | false => exact .releaseWaits here stop
  · rename_i here
    obtain ⟨-, rfl⟩ := changeState_eq_some.mp h
    exact .tearsDown here
  · rename_i here
    cases h
    exact .terminates here

/-- What a step can be. -/
inductive Moves (s : Observer Thread) : ObserverAction Thread → Observer Thread → Prop
  | calls (c : Thread) (n : Notice) : s.place c = .out →
    Moves s (.notify c n) (s.move c (.pushing n))
  | pushes (c : Thread) (n : Notice) : s.place c = .pushing n → s.mailbox.length < kMailboxSize →
    Moves s (.push c)
      { s.move c .counting with mailbox := s.mailbox ++ [n], pushed := s.pushed ++ [n] }
  | counts (c : Thread) : s.place c = .counting →
    Moves s (.count c) { s.move c .waking with mailboxCount := s.mailboxCount + 1 }
  | wakes (c : Thread) : s.place c = .waking →
    Moves s (.wake c) { s.move c .notifying with wake := true }
  | notifies (c : Thread) : s.place c = .notifying →
    Moves s (.notifyOne c) { s.move c .out with worker := s.worker.woken }
  | starts : s.stopper = .out → s.worker = .absent →
    Moves s .start { s with stop := false, worker := .next }
  | stops : s.stopper = .out → Moves s .stop { s with stop := true, stopper := .waking }
  | stopWakes : s.stopper = .waking →
    Moves s .stopWake { s with wake := true, stopper := .notifying }
  | stopNotifies : s.stopper = .notifying →
    Moves s .stopNotifyOne { s with worker := s.worker.woken, stopper := .joining }
  | joins : s.stopper = .joining → s.worker = .absent ∨ s.worker = .returned →
    Moves s .join { s with worker := .absent, stopper := .out }
  | works (future : Bool) (s' : Observer Thread) : Works s s' → Moves s (.work future) s'
  | advances : s.worker = .barrier → Moves s .advance (s.changed .waiting)
  | arrives : s.storing = true → Moves s .storeArrives { s with wake := false, storing := false }
  | rouses : s.worker = .asleep → Moves s .rouse (s.goto .loadWake)

theorem step_moves (h : step s a = some s') : Moves s a s' := by
  cases a with
  | notify c n =>
    obtain ⟨here, ⟨⟩⟩ := Option.ite_none_right_eq_some.mp h
    exact .calls c n here
  | push c =>
    simp only [step] at h
    split at h
    · rename_i n here
      obtain ⟨room, ⟨⟩⟩ := Option.ite_none_right_eq_some.mp h
      exact .pushes c n here room
    · cases h
  | count c =>
    obtain ⟨here, ⟨⟩⟩ := Option.ite_none_right_eq_some.mp h
    exact .counts c here
  | wake c =>
    obtain ⟨here, ⟨⟩⟩ := Option.ite_none_right_eq_some.mp h
    exact .wakes c here
  | notifyOne c =>
    obtain ⟨here, ⟨⟩⟩ := Option.ite_none_right_eq_some.mp h
    exact .notifies c here
  | start =>
    obtain ⟨here, ⟨⟩⟩ := Option.ite_none_right_eq_some.mp h
    exact .starts here.1 here.2
  | stop =>
    obtain ⟨here, ⟨⟩⟩ := Option.ite_none_right_eq_some.mp h
    exact .stops here
  | stopWake =>
    obtain ⟨here, ⟨⟩⟩ := Option.ite_none_right_eq_some.mp h
    exact .stopWakes here
  | stopNotifyOne =>
    obtain ⟨here, ⟨⟩⟩ := Option.ite_none_right_eq_some.mp h
    exact .stopNotifies here
  | join =>
    obtain ⟨here, ⟨⟩⟩ := Option.ite_none_right_eq_some.mp h
    exact .joins here.1 here.2
  | work future => exact .works future s' (work_works h)
  | advance =>
    obtain ⟨here, h⟩ := Option.ite_none_right_eq_some.mp h
    obtain ⟨-, rfl⟩ := changeState_eq_some.mp h
    exact .advances here
  | storeArrives =>
    obtain ⟨here, ⟨⟩⟩ := Option.ite_none_right_eq_some.mp h
    exact .arrives here
  | rouse =>
    obtain ⟨here, ⟨⟩⟩ := Option.ite_none_right_eq_some.mp h
    exact .rouses here

end Observer

end Yellowstone.Legacy
