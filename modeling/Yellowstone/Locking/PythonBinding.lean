import Yellowstone.Locking.LockOrder
import Yellowstone.Scheduling.UnixDeadlines

/-!
# The Python binding and the interpreter lock

A Python thread enters the library with the interpreter lock in hand and keeps it until its call
returns, so whatever takes the lock again inside the call takes nothing. The timing thread and
the consumers run without it. They take it for callbacks, and for the destructor of the last
handle of a Python object.

Python threads therefore take the interpreter lock first, and the timing thread takes it last.
-/

set_option autoImplicit false

namespace Yellowstone

open LockProgram Machine Mutex PoolAction

variable {Payload : Type}

/-- What a `PythonEventBus` and a `PythonScheduler` are constructed with. -/
structure PythonBinding (Payload : Type) where
  maxSubscribers : Nat
  capacity : Nat
  positive : 0 < capacity
  /-- The merge callback, unless it is `None`. -/
  merge : Option (Merger Payload)
  /-- The nanoseconds of a tick of the system clock. -/
  tick : Nat

namespace PythonBinding

def config (binding : PythonBinding Payload) : BusConfig Payload where
  maxSubscribers := binding.maxSubscribers
  partitionCapacity := binding.capacity
  merger := binding.merge.getD (.ofFun fun _ incoming => incoming)
  positive := binding.positive

/-- The deleter of `hold_python_object`, if the handle was the last one. -/
def dropHandle : Call Payload Unit := do
  if ← ask (·.last) then withLock .gil (pure ()) else pure ()

/-- The payload's code on a thread without the interpreter lock. `m_make_merger` takes it for
the callback; without a callback the replaced handle dies under the partition's mutex. -/
def outside (binding : PythonBinding Payload) : PayloadCode Payload where
  merging := fun pushing =>
    if binding.merge.isSome then withLock .gil pushing
    else do
      let status ← pushing
      dropHandle
      pure status
  drop := dropHandle

/-- The handler that `PythonEventBus::subscribe` registers. -/
def callHandler (_ : SubscriberId) (_ : Event Payload) : Call Payload Unit :=
  withLock .gil Native.mayThrow

/-- `PythonScheduler::m_report_error`. -/
def reportError : Call Payload Unit := withLock .gil (pure ())

end PythonBinding

/-- The calls of a Python thread that keep the interpreter lock. -/
inductive PythonCall (Payload : Type) where
  | publish (eventId : EventId) (payload : Payload) (superstep : Superstep)
  | publishOne (id : SubscriberId) (eventId : EventId) (payload : Payload) (superstep : Superstep)
  | pending (id : SubscriberId)
  /-- `schedule`, or `schedule_one` if there is a subscriber. -/
  | schedule (call : UnixCall Payload)
  | pendingEvents

namespace PythonCall

/-- The mutex that the timing thread holds whenever it holds one that the call takes; `pending`
takes that of a partition, which `m_run` locks under the publish mutex. -/
def outer : PythonCall Payload → Mutex
  | publish .. | publishOne .. | pending _ => .publish
  | schedule _ | pendingEvents => .scheduler

def onScheduler : PythonCall Payload → Bool
  | schedule _ | pendingEvents => true
  | _ => false

/-- `schedule_at_unix_nanoseconds` and `schedule_one_at_unix_nanoseconds`. -/
def scheduleAt (tick : Nat) (call : UnixCall Payload) : Call Payload ScheduleId :=
  match call.request tick with
  | .error what => raise (.invalidArgument what)
  | .ok request => Native.schedule .plain request

/-- The bound functions. `m_validate_payload` may throw; a thread that holds the interpreter
lock runs the payload's code without waiting. -/
def program (binding : PythonBinding Payload) : PythonCall Payload → Call Payload Unit
  | publish eventId payload superstep => do
    Native.mayThrow
    Native.handled (Native.publish binding.config .plain eventId payload superstep)
  | publishOne id eventId payload superstep => do
    Native.mayThrow
    Native.handled (Native.publishOne binding.config .plain id eventId payload superstep)
  | pending id => Native.handled (Native.pending id)
  | schedule call => do
    Native.mayThrow
    Native.handled (scheduleAt binding.tick call)
  | pendingEvents => Native.handled Native.pendingEvents

end PythonCall

inductive BindingThread where
  | python (n : Nat)
  | consumer (id : SubscriberId)
  | timing
deriving DecidableEq

inductive BindingCall (Payload : Type) where
  | python (call : PythonCall Payload)
  | work
  | run

namespace BindingThread

def entry (binding : PythonBinding Payload) :
    BindingThread → BindingCall Payload → SharedMemory Payload → Option (Call Payload Unit)
  | python _, .python call, _ => some (withLock .gil (call.program binding))
  | consumer id, .work, m =>
    if id ∈ m.bus.workers then
      some (withLock (.working id)
        (Native.consumeOne binding.outside PythonBinding.callHandler id))
    else none
  | timing, .run, _ =>
    some (Native.runTurn binding.config binding.outside PythonBinding.reportError)
  | _, _, _ => none

end BindingThread

abbrev BindingThreads (Payload : Type) :=
  LockPool BindingThread Mutex (SharedMemory Payload) (Choice Payload) Exn (BindingCall Payload)

namespace BindingThreads
variable (binding : PythonBinding Payload)

def step (s : BindingThreads Payload)
    (a : PoolAction BindingThread (BindingCall Payload) (Choice Payload)) :
    Option (BindingThreads Payload) :=
  LockPool.step (BindingThread.entry binding) s a

/-- While the timing thread waits for the interpreter lock, the Python thread that has it is in
no call that may take a mutex in the timing thread's hands. -/
def careful (s : BindingThreads Payload) : Bool :=
  if (s.code .timing).wants = some .gil then
    match s.owner .gil with
    | some (.python n) =>
      match s.call (.python n) with
      | some (.python call) => decide (s.owner call.outer ≠ some .timing)
      | _ => true
    | _ => true
  else true

/-- The steps that lead to careful states. -/
def carefulStep (s : BindingThreads Payload)
    (a : PoolAction BindingThread (BindingCall Payload) (Choice Payload)) :
    Option (BindingThreads Payload) :=
  guarded (step binding) (leadingTo (step binding) careful) s a

/-! ## How the threads wait -/

/-- The order of a Python thread. -/
def gilFirst : Mutex → Nat := rank 4 8

/-- The order of the timing thread and of the consumers. -/
def gilLast : Mutex → Nat := rank 9 8

/-- A Python thread takes the interpreter lock with empty hands, and then what its call is
about. A consumer takes it only where it holds no mutex, the timing thread also under the
mutexes that cover the payload's code. -/
def rule : BindingThread → Option (BindingCall Payload) → List Mutex → Mutex → Prop
  | .python _, some (.python call), held, l =>
    (l = .gil ∧ held = []) ∨
      if call.onScheduler then l = .scheduler ∧ held = [.gil]
      else l.ofBus = true ∧ Below gilFirst held l
  | .consumer id, _, held, l =>
    (l = .gil ∧ held = [.working id]) ∨ (l = .working id ∧ held = []) ∨
      (l.ofBus = true ∧ Below gilLast held l)
  | .timing, _, held, l =>
    (l = .gil ∧ Covered gilLast held) ∨ (l = .scheduler ∧ held = []) ∨
      (l.ofBus = true ∧ Below gilLast held l)
  | _, _, _, _ => False

variable {binding : PythonBinding Payload} {s : BindingThreads Payload}

section Calls
variable {call : PythonCall Payload} {n : Nat}

/-- With the interpreter lock in hand, a call takes what it is about. -/
theorem restores_program :
    (call.program binding).Restores (rule (.python n) (some (.python call))) [.gil] := by
  have below : Below gilFirst [.gil] .publish := (below_nil _).push (by decide)
  have plain {rule} : (PayloadCode.plain : PayloadCode Payload).Fits gilFirst rule := .plain _ _
  have order : call.onScheduler = false →
      LockOrder gilFirst (rule (.python n) (some (.python call))) := by
    intro onBus
    refine ⟨nested_rank 4 8, ?_⟩
    intro held l below bus
    simp [rule, onBus, below, bus]
  have lockable : call.onScheduler = true →
      rule (.python n) (some (.python call)) [.gil] .scheduler := by
    intro onScheduler
    simp [rule, onScheduler]
  cases call with
  | publish eventId payload superstep =>
    apply Native.restores_mayThrow.bind
    intro _
    exact Native.restores_handled (Native.restores_publish (order rfl) plain below ..)
  | publishOne id eventId payload superstep =>
    apply Native.restores_mayThrow.bind
    intro _
    exact Native.restores_handled (Native.restores_publishOne (order rfl) plain below ..)
  | pending id =>
    have subscriber := below.subscriber (nested_rank 4 8)
    exact Native.restores_handled (Native.restores_pending (order rfl) subscriber id)
  | schedule call =>
    apply Native.restores_mayThrow.bind
    intro _
    apply Native.restores_handled
    unfold PythonCall.scheduleAt
    split
    · exact Keeps.raise
    · exact Native.restores_schedule plain (nested_rank 4 8) (lockable rfl) below _
  | pendingEvents => exact Native.restores_handled (Native.restores_pendingEvents (lockable rfl))

theorem keeps_dropHandle {rule : List Mutex → Mutex → Prop} {thrown held : List Mutex}
    (allowed : rule held .gil) :
    (PythonBinding.dropHandle : Call Payload Unit).Keeps rule thrown held held := by
  apply (Keeps.ask _).bind
  intro last
  split
  · exact ⟨allowed, Keeps.unlock⟩
  · exact Keeps.pure

/-- Outside the interpreter lock, payloads' code takes it at covered places. -/
theorem fits_outside {rule : List Mutex → Mutex → Prop}
    (allowed : ∀ held, Covered gilLast held → rule held .gil) :
    binding.outside.Fits gilLast rule where
  merging := by
    intro held pushing covered keeps
    simp only [PythonBinding.outside]
    split
    · exact Keeps.withLock (allowed held covered) (keeps _)
    · apply (keeps held).bind
      intro status
      apply (keeps_dropHandle (allowed held covered)).bind
      intro _
      exact Keeps.pure
  drop := by
    intro thrown held covered
    exact keeps_dropHandle (allowed held covered)

end Calls

theorem entry_keeps (t : BindingThread) (call : BindingCall Payload) (m : SharedMemory Payload)
    (p : Call Payload Unit) (h : BindingThread.entry binding t call m = some p) :
    p.Keeps (rule t (some call)) [] [] [] := by
  cases t with
  | python n =>
    cases call with
    | python call =>
      cases h
      exact Keeps.withLock (.inl ⟨rfl, rfl⟩) restores_program
    | _ => cases h
  | consumer id =>
    cases call with
    | work =>
      simp only [BindingThread.entry, Option.ite_none_right_eq_some, Option.some.injEq] at h
      obtain ⟨_, rfl⟩ := h
      have order : LockOrder gilLast
          (rule (.consumer id) (some (.work : BindingCall Payload))) :=
        ⟨nested_rank 9 8, fun held l below bus => .inr (.inr ⟨bus, below⟩)⟩
      have callback : rule (.consumer id) (some (.work : BindingCall Payload))
          [.working id] .gil := .inl ⟨rfl, rfl⟩
      have below : Below gilLast [.working id] .publish :=
        (below_nil _).push (by simp [gilLast, rank])
      apply Keeps.withLock (.inr (.inl ⟨rfl, rfl⟩))
      apply Native.restores_consumeOne order (keeps_dropHandle callback) below
      intro id event
      exact Keeps.withLock callback Native.restores_mayThrow
    | _ => cases h
  | timing =>
    cases call with
    | run =>
      cases h
      have order : LockOrder gilLast (rule .timing (some (.run : BindingCall Payload))) :=
        ⟨nested_rank 9 8, fun held l below bus => .inr (.inr ⟨bus, below⟩)⟩
      have covered : ∀ held, Covered gilLast held →
          rule .timing (some (.run : BindingCall Payload)) held .gil := fun held h => .inl ⟨rfl, h⟩
      apply Native.restores_runTurn order (fits_outside covered) ?_ (.inr (.inl ⟨rfl, rfl⟩))
      exact Keeps.withLock (covered [] ((below_nil _).covered (nested_rank 9 8))) Keeps.pure
    | _ => cases h

/-! ## Orders of the waits -/

/-- Below the mutexes of the bus all orders agree, but for the interpreter lock. -/
theorem rank_lt_of_ofBus {g g' k : Nat} {l l' : Mutex} (bus : l.ofBus = true) (other : l' ≠ .gil)
    (lower : rank g 8 l' < rank g 8 l) : rank g' k l' < rank g' k l := by
  cases l <;> cases l' <;> simp_all [rank, ofBus]

section Orders
variable {t : BindingThread} {call : Option (BindingCall Payload)} {held : List Mutex}
  {l l' : Mutex}

/-- Who holds the interpreter lock and waits is a Python thread, at a mutex of its call. -/
theorem rule_of_gil_mem (allowed : rule t call held l) (mem : .gil ∈ held) :
    ∃ n c, t = .python n ∧ call = some (.python c) ∧
      if c.onScheduler then l = .scheduler ∧ held = [.gil]
      else l.ofBus = true ∧ Below gilFirst held l := by
  have last : ∀ l : Mutex, l.ofBus = true → ¬ Below gilLast held l := by
    intro l bus below
    have := below _ mem
    cases l <;> simp [gilLast, rank] at this bus
  cases t with
  | python n =>
    rcases call with _ | c | _ | _
    · cases allowed
    · rcases allowed with ⟨_, rfl⟩ | allowed
      · cases mem
      · exact ⟨n, c, rfl, rfl, allowed⟩
    · cases allowed
    · cases allowed
  | consumer id =>
    rcases allowed with ⟨_, rfl⟩ | ⟨_, rfl⟩ | ⟨bus, below⟩
    · simp at mem
    · cases mem
    · exact absurd below (last l bus)
  | timing =>
    rcases allowed with ⟨_, covered⟩ | ⟨_, rfl⟩ | ⟨bus, below⟩
    · have := covered.below _ mem
      simp [gilLast, rank, ofBus] at this
    · cases mem
    · exact absurd below (last l bus)

/-- Without the interpreter lock in hand a thread waits upwards in every order, unless it is
the timing thread at the interpreter lock. -/
theorem rises_of_gil_not_mem (allowed : rule t call held l) (free : .gil ∉ held)
    (other : t = .timing → l ≠ .gil) (mem : l' ∈ held) {g k : Nat} (positive : 0 < g) :
    rank g k l' < rank g k l := by
  have different : l' ≠ .gil := by
    rintro rfl
    exact free mem
  cases t with
  | python n =>
    rcases call with _ | c | _ | _
    · cases allowed
    · rcases allowed with ⟨_, rfl⟩ | allowed
      · cases mem
      · split at allowed
        · rw [allowed.2] at free
          simp at free
        · exact rank_lt_of_ofBus allowed.1 different (allowed.2 l' mem)
    · cases allowed
    · cases allowed
  | consumer id =>
    rcases allowed with ⟨rfl, rfl⟩ | ⟨_, rfl⟩ | ⟨bus, below⟩
    · rw [List.mem_singleton.mp mem]
      simpa [rank] using positive
    · cases mem
    · exact rank_lt_of_ofBus bus different (below l' mem)
  | timing =>
    rcases allowed with ⟨rfl, _⟩ | ⟨_, rfl⟩ | ⟨bus, below⟩
    · exact absurd rfl (other rfl)
    · cases mem
    · exact rank_lt_of_ofBus bus different (below l' mem)

end Orders

/-- An order fits the state if it fits the Python thread that has the interpreter lock, and the
timing thread if that waits for it. -/
theorem ascending_rank (disciplined : s.Disciplined rule) {g k : Nat} (positive : 0 < g)
    (inside : ∀ n c, s.owner .gil = some (.python n) → s.call (.python n) = some (.python c) →
      if c.onScheduler then g < k else g < 5)
    (last : ∀ l, (s.code .timing).wants = some .gil → s.owner l = some .timing →
      rank g k l < g) : s.Ascending (rank g k) := by
  intro t u l l' wants _ owner'
  obtain ⟨held, owned, allowed⟩ := disciplined.waiting wants
  have mem := (owned l').mpr owner'
  by_cases gil : .gil ∈ held
  · obtain ⟨n, c, rfl, hc, takes⟩ := rule_of_gil_mem allowed gil
    have fits := inside n c ((owned _).mp gil) hc
    split at takes
    · obtain ⟨rfl, rfl⟩ := takes
      rw [List.mem_singleton.mp mem]
      simpa [rank, *] using fits
    · obtain ⟨bus, below⟩ := takes
      by_cases same : l' = .gil
      · subst same
        cases l <;> simp_all [rank, ofBus] <;> omega
      · exact rank_lt_of_ofBus bus same (below l' mem)
  · by_cases timing : t = .timing ∧ l = .gil
    · obtain ⟨rfl, rfl⟩ := timing
      exact last l' wants owner'
    · apply rises_of_gil_not_mem allowed gil ?_ mem positive
      intro ht hl
      exact timing ⟨ht, hl⟩

/-- In what order the threads wait in a careful state depends on who has the interpreter lock
while the timing thread waits for it. -/
theorem ascending_of_careful (disciplined : s.Disciplined rule) (careful : careful s = true) :
    ∃ g k, s.Ascending (rank g k) := by
  by_cases waits : (s.code .timing).wants = some .gil
  · obtain ⟨held, owned, allowed⟩ := disciplined.waiting waits
    have covered : Covered gilLast held := by
      rcases allowed with ⟨_, covered⟩ | ⟨h, _⟩ | ⟨h, _⟩
      · exact covered
      · cases h
      · cases h
    by_cases inCall : ∃ n c, s.owner .gil = some (.python n) ∧ s.call (.python n) = some (.python c)
    · obtain ⟨n, c, gil, hc⟩ := inCall
      have outer : s.owner c.outer ≠ some .timing := by
        simpa [BindingThreads.careful, waits, gil, hc] using careful
      have only : ∀ n' c', s.owner .gil = some (.python n') →
          s.call (.python n') = some (.python c') → c' = c := by
        intro n' c' gil' hc'
        cases gil.symm.trans gil'
        cases hc.symm.trans hc'
        rfl
      cases kind : c.onScheduler with
      | true =>
        -- the timing thread holds no mutex that the Python thread could wait for
        have outer : s.owner .scheduler ≠ some .timing := by
          cases c <;> simp_all [PythonCall.onScheduler, PythonCall.outer]
        refine ⟨8, 9, ascending_rank disciplined (by decide) ?_ ?_⟩
        · intro n' c' gil' hc'
          simp [only n' c' gil' hc', kind]
        · intro l _ owner
          have := covered.below l ((owned l).mpr owner)
          cases l <;> simp_all [gilLast, rank, ofBus]
      | false =>
        have outer : s.owner .publish ≠ some .timing := by
          cases c <;> simp_all [PythonCall.onScheduler, PythonCall.outer]
        have publishing : .publish ∉ held := by
          rw [owned]
          exact outer
        refine ⟨4, 3, ascending_rank disciplined (by decide) ?_ ?_⟩
        · intro n' c' gil' hc'
          simp [only n' c' gil' hc', kind]
        · intro l _ owner
          have mem := (owned l).mpr owner
          have := covered.below l mem
          cases l with
          | subscriber => exact absurd mem covered.subscriber
          | partition t => exact absurd (covered.partition t mem) publishing
          | _ => simp_all [gilLast, rank, ofBus]
    · refine ⟨9, 8, ascending_rank disciplined (by decide) ?_ ?_⟩
      · intro n c gil hc
        exact absurd ⟨n, c, gil, hc⟩ inCall
      · intro l _ owner
        have := covered.below l ((owned l).mpr owner)
        cases l <;> simp_all [gilLast, rank, ofBus]
  · refine ⟨4, 8, ascending_rank disciplined (by decide) ?_ ?_⟩
    · intro n c _ _
      split <;> decide
    · intro l wants
      exact absurd wants waits

/-- No run whose steps are careful reaches a circle of waits, whatever the memory holds when
the first thread calls. -/
theorem python_never_waits_in_a_circle (binding : PythonBinding Payload)
    (m : SharedMemory Payload) (s : BindingThreads Payload)
    (reached : Reachable (carefulStep binding) (LockPool.idle m) s) : ¬ s.CircularWait := by
  have disciplined : s.Disciplined rule :=
    LockPool.disciplined_of_reachable entry_keeps reached.of_guarded
  obtain ⟨g, k, ascending⟩ := ascending_of_careful disciplined (reached.wanted rfl)
  exact ascending.not_circularWait

/-- A bus with a merge callback, which returns the incoming payload. -/
def sampleBinding : PythonBinding Nat :=
  ⟨1, 4, Nat.succ_pos 3, some (.ofFun fun _ incoming => incoming), 1⟩

/-- One subscriber, and a scheduler that accepts. -/
def sampleMemory : SharedMemory Nat :=
  ⟨((EventBus.initial sampleBinding.config).subscribe sampleBinding.config true).2,
    (Scheduler.initial 0).start true⟩

/-- An event is stored, and a request is pending that will be merged into it. -/
def samplePending : List (PoolAction BindingThread (BindingCall Nat) (Choice Nat)) :=
  calling (.python 0) (.python (.publish 7 5 0)) 19 .plain ++
    calling (.python 0) (.python (.schedule ⟨none, 7, 6, 1, 0⟩)) 7 .plain

/-- The merge waits for the interpreter lock while another thread asks for `pending_events`. -/
def sampleMerge : List (PoolAction BindingThread (BindingCall Nat) (Choice Nat)) :=
  samplePending ++ calling (.python 1) (.python .pendingEvents) 1 .plain ++
    calling .timing .run 17 { elapsed := true } ++
    List.replicate 4 (.advance (.python 1) .plain) ++ List.replicate 12 (.advance .timing .plain)

theorem sampleMerge_never_circular :
    ∃ s, run (carefulStep sampleBinding) (LockPool.idle sampleMemory)
        sampleMerge = some s ∧ ¬ s.CircularWait := by
  have ran : (run (carefulStep sampleBinding)
      (LockPool.idle sampleMemory) sampleMerge).isSome = true := by
    decide
  obtain ⟨s, ran⟩ := Option.isSome_iff_exists.mp ran
  exact ⟨s, ran, python_never_waits_in_a_circle sampleBinding sampleMemory s ⟨_, ran⟩⟩

/-- The merge waits for the interpreter lock while the thread that has it publishes. -/
def sampleCircle : List (PoolAction BindingThread (BindingCall Nat) (Choice Nat)) :=
  samplePending ++ calling (.python 1) (.python (.publish 7 5 0)) 1 .plain ++
    calling .timing .run 17 { elapsed := true } ++ [.advance (.python 1) .plain]

theorem merge_blocks_publish :
    ∃ s, Reachable (step sampleBinding) (LockPool.idle sampleMemory) s ∧
      (s.code .timing).wants = some .gil ∧ s.owner .gil = some (.python 1) ∧
      (s.code (.python 1)).wants = some .publish ∧ s.owner .publish = some .timing ∧
      s.CircularWait := by
  have reached : (run (step sampleBinding) (LockPool.idle sampleMemory) sampleCircle).any
      (fun s => (s.code .timing).wants = some .gil ∧ s.owner .gil = some (.python 1) ∧
        (s.code (.python 1)).wants = some .publish ∧ s.owner .publish = some .timing) = true := by
    decide
  obtain ⟨s, ran, facts⟩ := (Option.any_eq_true ..).mp reached
  obtain ⟨timing, gil, python, publish⟩ := of_decide_eq_true facts
  refine ⟨s, ⟨_, ran⟩, timing, gil, python, publish, .timing, ?_⟩
  exact .tail (.single ⟨_, timing, gil⟩) ⟨_, python, publish⟩

end BindingThreads

end Yellowstone
