import Yellowstone.Locking.LockOrder

/-!
# Handlers that call back, against `stop`

The threads of a native program: any number of callers, the consumer workers, which run the
handlers, and the timing thread of a scheduler. A handler may make any calls but `start` and
`stop`. `stop` waits for the workers with the lifecycle mutex in its hands, which `subscribe`
and `unsubscribe` wait for.
-/

set_option autoImplicit false

namespace Yellowstone

open LockProgram Machine Mutex PoolAction

variable {Payload : Type}

inductive BusThread where
  | caller (n : Nat)
  | worker (id : SubscriberId)
  | timing
deriving DecidableEq

/-- What a thread may be in: a call, the `work` of a consumer worker, a turn of `m_run`. -/
inductive ThreadCall (Payload : Type) where
  | user (call : UserCall Payload)
  | start
  | stop
  | work
  | run

namespace UserCall

def program (config : BusConfig Payload) : UserCall Payload → Call Payload Unit
  | subscribe callable => Native.handled (Native.subscribe config callable)
  | unsubscribe id => Native.handled (Native.unsubscribe id)
  | publish eventId payload superstep =>
    Native.handled (Native.publish config .plain eventId payload superstep)
  | publishOne id eventId payload superstep =>
    Native.handled (Native.publishOne config .plain id eventId payload superstep)
  | pending id => Native.handled (Native.pending id)
  | subscriberCount => Native.handled Native.subscriberCount
  | schedule request => Native.handled (Native.schedule .plain request)

def programs (config : BusConfig Payload) : List (UserCall Payload) → Call Payload Unit
  | [] => pure ()
  | call :: calls => do
    call.program config
    programs config calls

end UserCall

namespace BusThread
variable (config : BusConfig Payload)

/-- A handler makes whatever calls it likes, and may throw at the end. -/
def handler (_ : SubscriberId) (_ : Event Payload) : Call Payload Unit := do
  let (calls, thrown) ← ask (·.script)
  UserCall.programs config calls
  match thrown with
  | some e => raise e
  | none => pure ()

/-- The calls that a thread may begin. A manager calls `work` of its own workers only. -/
def entry : BusThread → ThreadCall Payload → SharedMemory Payload → Option (Call Payload Unit)
  | caller _, .user call, _ => some (call.program config)
  | caller _, .start, _ => some Native.start
  | caller _, .stop, _ => some Native.stop
  | worker id, .work, m =>
    if id < config.maxSubscribers ∧ id ∈ m.bus.workers then
      some (withLock (.working id) (Native.consumeOne .plain (handler config) id))
    else none
  | timing, .run, _ => some (Native.runTurn config .plain (pure ()))
  | _, _, _ => none

end BusThread

abbrev BusThreads (Payload : Type) :=
  LockPool BusThread Mutex (SharedMemory Payload) (Choice Payload) Exn (ThreadCall Payload)

namespace BusThreads
variable (config : BusConfig Payload)

def step (s : BusThreads Payload) (a : PoolAction BusThread (ThreadCall Payload) (Choice Payload)) :
    Option (BusThreads Payload) :=
  LockPool.step (BusThread.entry config) s a

/-- No handler waits for the lifecycle mutex while a call that holds it shuts the workers down. -/
def careful (s : BusThreads Payload) : Bool :=
  (s.owner .closing).isNone || (List.range config.maxSubscribers).all fun id =>
    decide ((s.code (.worker id)).wants ≠ some .lifecycle)

/-- The steps that lead to careful states. -/
def carefulStep (s : BusThreads Payload)
    (a : PoolAction BusThread (ThreadCall Payload) (Choice Payload)) :
    Option (BusThreads Payload) :=
  guarded (step config) (leadingTo (step config) (careful config)) s a

structure Unobstructed (s : BusThreads Payload) : Prop where
  acyclic : ¬ s.CircularWait
  /-- Who waits for a worker holds no lock that the worker waits for. -/
  stopping : ∀ t id l, (s.code t).wants = some (.working id) →
    (s.code (.worker id)).wants = some l → s.owner l ≠ some t
  /-- What a call waits for ends at a thread that can take a step. -/
  progress : ∀ t, (s.code t).finished = false →
    ∃ u, Relation.ReflTransGen s.WaitsFor t u ∧
      ∀ choice, ∃ s', step config s (.advance u choice) = some s'

/-! ## How the threads wait -/

/-- The order while no call waits for the workers. -/
def openRank : Mutex → Nat := rank 4 8

/-- The order while a call waits for the workers. -/
def drainRank : Mutex → Nat
  | .lifecycle => 0
  | .closing => 1
  | .working _ => 2
  | l => openRank l

theorem openRank_lt (l : Mutex) : openRank l < 9 := by
  cases l <;> simp [openRank, rank]

theorem drainRank_lt (l : Mutex) : drainRank l < 9 := by
  cases l <;> simp [drainRank, openRank, rank]

/-- The two orders differ only in where the workers are. -/
theorem drainRank_lt_of_openRank_lt {l l' : Mutex} (lower : openRank l' < openRank l)
    (apart : ∀ id, l' = .working id → l ≠ .lifecycle ∧ l ≠ .closing) :
    drainRank l' < drainRank l := by
  cases l <;> cases l' <;> simp_all [drainRank, openRank, rank]

/-- Workers wait upwards, and are below the lifecycle mutex. A call that shuts them down waits
for them with the lifecycle mutex in hand. -/
def rule : BusThread → Option (ThreadCall Payload) → List Mutex → Mutex → Prop
  | .worker id, _, held, l =>
    id < config.maxSubscribers ∧ Below openRank held l ∧ l ≠ .closing
  | _, _, held, l =>
    (Below openRank held l ∧ (l = .lifecycle → held = []) ∧
      (l = .closing → held = [.lifecycle])) ∨
      (held = [.closing, .lifecycle] ∧ ∃ id, l = .working id)

end BusThreads

section Calls
variable {config : BusConfig Payload} {rule : List Mutex → Mutex → Prop} {held : List Mutex}

variable {rank : Mutex → Nat} (order : LockOrder rank rule) (first : rule held .lifecycle)
  (lockable : rule held .scheduler) (below : Below rank held .lifecycle)
include order first lockable below

theorem UserCall.restores (call : UserCall Payload) : (call.program config).Restores rule held := by
  have fits : (PayloadCode.plain : PayloadCode Payload).Fits rank rule := .plain rank rule
  have publish : Below rank held .publish := below.mono order.lifecycle.le
  have subscriber := publish.subscriber order.toNested
  cases call with
  | subscribe callable =>
    exact Native.restores_handled (Native.restores_subscribe order first below callable)
  | unsubscribe id =>
    exact Native.restores_handled (Native.restores_unsubscribe order first below id)
  | publish eventId payload superstep =>
    exact Native.restores_handled (Native.restores_publish order fits publish ..)
  | publishOne id eventId payload superstep =>
    exact Native.restores_handled (Native.restores_publishOne order fits publish ..)
  | pending id =>
    exact Native.restores_handled (Native.restores_pending order subscriber id)
  | subscriberCount =>
    exact Native.restores_handled (Native.restores_subscriberCount order subscriber)
  | schedule request =>
    exact Native.restores_handled
      (Native.restores_schedule fits order.toNested lockable publish request)

theorem UserCall.programs_restores (calls : List (UserCall Payload)) :
    (UserCall.programs config calls).Restores rule held := by
  induction calls with
  | nil => exact Keeps.pure
  | cons call calls ih =>
    apply (UserCall.restores order first lockable below call).bind
    intro _
    exact ih

theorem BusThread.handler_restores (id : SubscriberId) (event : Event Payload) :
    (BusThread.handler config id event).Restores rule held := by
  apply (Keeps.ask _).bind
  rintro ⟨calls, thrown⟩
  apply (UserCall.programs_restores order first lockable below calls).bind
  intro _
  cases thrown with
  | none => exact Keeps.pure
  | some e => exact Keeps.raise

end Calls

namespace BusThreads
variable {config : BusConfig Payload} {s : BusThreads Payload} {t : BusThread}

/-- Only a worker's rule asks who the thread is. -/
theorem lockOrder {call : Option (ThreadCall Payload)}
    (worker : ∀ id, t = .worker id → id < config.maxSubscribers) :
    LockOrder openRank (rule config t call) where
  toNested := nested_rank 4 8
  allows := by
    intro held l below bus
    have other : l ≠ .lifecycle ∧ l ≠ .closing := by
      constructor <;> rintro rfl <;> cases bus
    cases t with
    | worker id => exact ⟨worker id rfl, below, other.2⟩
    | caller n | timing =>
      exact .inl ⟨below, fun h => absurd h other.1, fun h => absurd h other.2⟩

/-- Every call waits as the rule of its thread allows. -/
theorem entry_keeps (t : BusThread) (call : ThreadCall Payload) (m : SharedMemory Payload)
    (p : Call Payload Unit) (h : BusThread.entry config t call m = some p) :
    p.Keeps (rule config t (some call)) [] [] [] := by
  cases t with
  | caller n =>
    have order : LockOrder openRank (rule config (.caller n) (some call)) := lockOrder (by simp)
    have first : rule config (.caller n) (some call) [] .lifecycle :=
      .inl ⟨below_nil _, by simp, by simp⟩
    have second : rule config (.caller n) (some call) [.lifecycle] .closing :=
      .inl ⟨(below_nil _).push (by decide), by simp, by simp⟩
    have workers : ∀ id, rule config (.caller n) (some call) [.closing, .lifecycle]
        (.working id) := fun id => .inr ⟨rfl, id, rfl⟩
    cases call with
    | user call =>
      cases h
      exact call.restores order first (.inl ⟨below_nil _, by simp, by simp⟩) (below_nil _)
    | start =>
      cases h
      exact Native.restores_start order first second workers
    | stop =>
      cases h
      exact Native.restores_stop order first second workers
    | work | run => cases h
  | worker id =>
    cases call with
    | work =>
      simp only [BusThread.entry, Option.ite_none_right_eq_some, Option.some.injEq] at h
      obtain ⟨⟨inside, _⟩, rfl⟩ := h
      have order : LockOrder openRank (rule config (.worker id) (some .work)) :=
        lockOrder (by simpa using inside)
      have lifecycle : Below openRank [.working id] .lifecycle :=
        (below_nil _).push (by simp [openRank, rank])
      have first : rule config (.worker id) (some .work) [.working id] .lifecycle :=
        ⟨inside, lifecycle, by simp⟩
      have lockable : rule config (.worker id) (some .work) [.working id] .scheduler :=
        ⟨inside, lifecycle.mono (by decide), by simp⟩
      apply Keeps.withLock ⟨inside, below_nil _, by simp⟩
      exact Native.restores_consumeOne order Keeps.pure
        (lifecycle.mono order.lifecycle.le)
        (BusThread.handler_restores order first lockable lifecycle) id
    | _ => cases h
  | timing =>
    cases call with
    | run =>
      cases h
      have order : LockOrder openRank (rule config .timing (some .run)) := lockOrder (by simp)
      exact Native.restores_runTurn order (.plain _ _) Keeps.pure
        (.inl ⟨below_nil _, by simp, by simp⟩)
    | _ => cases h

/-! ## Careful states -/

theorem lifecycle_unwanted {u : BusThread} (careful : careful config s = true)
    (closing : s.owner .closing = some u) {id : SubscriberId}
    (inside : id < config.maxSubscribers) :
    (s.code (.worker id)).wants ≠ some .lifecycle := by
  simp only [BusThreads.careful, closing, Option.isNone_some, Bool.false_or, List.all_eq_true,
    List.mem_range, decide_eq_true_eq] at careful
  exact careful id inside

/-- While nobody waits for the workers, all waits ascend. -/
theorem ascending_of_open (disciplined : s.Disciplined (rule config))
    (free : s.owner .closing = none) : s.Ascending openRank := by
  intro t u l l' wants _ owner'
  obtain ⟨held, owned, allowed⟩ := disciplined.waiting wants
  have mem := (owned l').mpr owner'
  cases t with
  | worker id => exact allowed.2.1 l' mem
  | caller n | timing =>
    rcases allowed with ⟨below, _⟩ | ⟨rfl, _⟩
    · exact below l' mem
    · have closing := (owned .closing).mp (by simp)
      rw [free] at closing
      cases closing

/-- While a call waits for the workers and no handler waits for the lifecycle mutex, all waits
ascend to the workers and from them. -/
theorem ascending_of_closing (disciplined : s.Disciplined (rule config))
    (careful : careful config s = true) {v : BusThread} (closing : s.owner .closing = some v) :
    s.Ascending drainRank := by
  intro t u l l' wants _ owner'
  obtain ⟨held, owned, allowed⟩ := disciplined.waiting wants
  have mem := (owned l').mpr owner'
  cases t with
  | worker id =>
    obtain ⟨inside, below, other⟩ := allowed
    apply drainRank_lt_of_openRank_lt (below l' mem)
    intro id' _
    refine ⟨?_, other⟩
    rintro rfl
    exact lifecycle_unwanted careful closing inside wants
  | caller n | timing =>
    rcases allowed with ⟨below, lifecycle, closes⟩ | ⟨rfl, id, rfl⟩
    · apply drainRank_lt_of_openRank_lt (below l' mem)
      rintro id' rfl
      constructor
      · intro hl
        simp [lifecycle hl] at mem
      · intro hl
        simp [closes hl] at mem
    · rcases List.mem_pair.mp mem with rfl | rfl <;> simp [drainRank]

theorem ascending_of_careful (disciplined : s.Disciplined (rule config))
    (careful : careful config s = true) :
    ∃ rank : Mutex → Nat, s.Ascending rank ∧ ∀ l, rank l < 9 := by
  cases closing : s.owner .closing with
  | none => exact ⟨_, ascending_of_open disciplined closing, openRank_lt⟩
  | some v => exact ⟨_, ascending_of_closing disciplined careful closing, drainRank_lt⟩

/-- A call that waits for a worker holds the lifecycle mutex and nothing else that a worker
could wait for, and a thread that enters `work` holds nothing. -/
theorem stopping_of_careful (disciplined : s.Disciplined (rule config))
    (careful : careful config s = true) {id : SubscriberId} {l : Mutex}
    (wants : (s.code t).wants = some (.working id))
    (worker : (s.code (.worker id)).wants = some l) : s.owner l ≠ some t := by
  intro owner
  obtain ⟨held, owned, allowed⟩ := disciplined.waiting wants
  obtain ⟨_, _, inside, _, other⟩ := disciplined.waiting worker
  have mem := (owned l).mpr owner
  have lowest : ¬ Below openRank held (.working id) := by
    intro below
    have := below l mem
    simp [openRank, rank] at this
  cases t with
  | worker id' => exact lowest allowed.2.1
  | caller n | timing =>
    rcases allowed with ⟨below, _⟩ | ⟨rfl, _⟩
    · exact lowest below
    · have closing := (owned .closing).mp (by simp)
      rcases List.mem_pair.mp mem with rfl | rfl
      · exact other rfl
      · exact lifecycle_unwanted careful closing inside worker

theorem unobstructed_of_careful (disciplined : s.Disciplined (rule config))
    (careful : careful config s = true) : Unobstructed config s := by
  obtain ⟨rank, ascending, below⟩ := ascending_of_careful disciplined careful
  refine ⟨ascending.not_circularWait, ?_, ?_⟩
  · intro t id l wants worker
    exact stopping_of_careful disciplined careful wants worker
  · intro t busy
    obtain ⟨u, path, ready⟩ := disciplined.ends ascending below busy
    exact ⟨u, path, ready.advance⟩

/-- Whatever the handlers call back, no run whose steps are careful reaches a circle of waits. -/
theorem handlers_leave_stop_free (config : BusConfig Payload) (m : SharedMemory Payload)
    (s : BusThreads Payload)
    (reached : Reachable (carefulStep config) (LockPool.idle m) s) : Unobstructed config s := by
  have disciplined : s.Disciplined (rule config) :=
    LockPool.disciplined_of_reachable entry_keeps reached.of_guarded
  exact unobstructed_of_careful disciplined (reached.wanted rfl)

/-- One subscriber; the incoming payload replaces the stored one. -/
def sampleConfig : BusConfig Nat := ⟨1, 4, .ofFun fun _ incoming => incoming, by decide⟩

/-- A constructed bus and a constructed scheduler. -/
def sampleMemory : SharedMemory Nat :=
  ⟨EventBus.initial sampleConfig, (Scheduler.initial 0).start true⟩

/-- A subscriber, an event for it, and a started bus. -/
def sampleStarted : List (PoolAction BusThread (ThreadCall Nat) (Choice Nat)) :=
  calling (.caller 0) (.user (.subscribe true)) 7 .plain ++
    calling (.caller 0) (.user (.publish 7 5 0)) 16 .plain ++ calling (.caller 0) .start 9 .plain

/-- The handler's `subscribe` throws its `logic_error`, and the bus stops. -/
def sampleReturned : List (PoolAction BusThread (ThreadCall Nat) (Choice Nat)) :=
  sampleStarted ++ calling (.worker 0) .work 18 { script := ([.subscribe true], none) } ++
    calling (.caller 0) .stop 11 .plain

theorem sampleReturned_unobstructed :
    ∃ s, run (carefulStep sampleConfig) (LockPool.idle sampleMemory)
        sampleReturned = some s ∧ Unobstructed sampleConfig s := by
  have ran : (run (carefulStep sampleConfig)
      (LockPool.idle sampleMemory) sampleReturned).isSome = true := by
    decide
  obtain ⟨s, ran⟩ := Option.isSome_iff_exists.mp ran
  exact ⟨s, ran, handlers_leave_stop_free sampleConfig sampleMemory s ⟨_, ran⟩⟩

/-- A handler is about to take the lifecycle mutex for its `subscribe` when `stop` takes it, and
waits for the worker. -/
def sampleBlocked : List (PoolAction BusThread (ThreadCall Nat) (Choice Nat)) :=
  sampleStarted ++ calling (.worker 0) .work 10 { script := ([.subscribe true], none) } ++
    calling (.caller 0) .stop 7 .plain

theorem subscribe_blocks_stop :
    ∃ s, Reachable (step sampleConfig) (LockPool.idle sampleMemory) s ∧
      (s.code (.caller 0)).wants = some (.working 0) ∧
      (s.code (.worker 0)).wants = some .lifecycle ∧
      s.owner .lifecycle = some (.caller 0) ∧ s.CircularWait := by
  have reached : (run (step sampleConfig) (LockPool.idle sampleMemory) sampleBlocked).any
      (fun s => (s.code (.caller 0)).wants = some (.working 0) ∧
        (s.code (.worker 0)).wants = some .lifecycle ∧
        s.owner .lifecycle = some (.caller 0) ∧
        s.owner (.working 0) = some (.worker 0)) = true := by
    decide
  obtain ⟨s, ran, facts⟩ := (Option.any_eq_true ..).mp reached
  obtain ⟨stop, handler, lifecycle, working⟩ := of_decide_eq_true facts
  refine ⟨s, ⟨_, ran⟩, stop, handler, lifecycle, .caller 0, ?_⟩
  exact .tail (.single ⟨_, stop, working⟩) ⟨_, handler, lifecycle⟩

end BusThreads

end Yellowstone
