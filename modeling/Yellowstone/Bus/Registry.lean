import Yellowstone.Bus.Event
import Yellowstone.Library.Exec
import Yellowstone.Library.Machine

/-!
# The subscriber registry and the worker mapping

Calls of `subscribe`, `unsubscribe`, `start` and `stop` hold the lifecycle mutex from end to end,
so a history is a list of calls. The manager is known by what the bus does with it: it is
constructed, given workers and started, each of which may throw instead, and destroying it
stops its workers. An allocation may fail wherever the code allocates.
-/

set_option autoImplicit false

namespace Yellowstone

open Throwing

/-- `EventBus::Subscriber`, but for its partition. -/
structure Subscription (Handler : Type) where
  id : SubscriberId
  handler : Handler
deriving DecidableEq, Repr

/-- `phelps::WorkerManager`: the size it was constructed with and the registered workers. -/
structure WorkerManager where
  size : Nat
  workers : List SubscriberId
  started : Bool
deriving DecidableEq, Repr

/-- The members of a bus that its lifecycle calls read and write. -/
structure Registry (Handler : Type) where
  slots : List (Option (Subscription Handler))
  subscriberCount : Nat
  running : Bool
  manager : Option WorkerManager
  workers : List SubscriberId
deriving DecidableEq, Repr

/-- Where a call of `start` can throw. -/
inductive StartPoint where
  | snapshot
  | construct
  | reserve
  | makeWorker (k : Nat)
  | register (k : Nat)
  | start
deriving DecidableEq, Repr

inductive RegistryCall (Handler : Type) where
  /-- An empty handler is none; making the subscriber may throw. -/
  | subscribe (handler : Option Handler) (allocation : Option Exn)
  | unsubscribe (id : SubscriberId)
  | start (fault : StartPoint → Option Exn)
  | stop

namespace Registry
variable {Handler : Type}

abbrev Prog (Handler : Type) := Throwing Exn (Registry Handler)

def initial (maxSubscribers : Nat) : Registry Handler where
  slots := List.replicate maxSubscribers none
  subscriberCount := 0
  running := false
  manager := none
  workers := []

def raise (fault : Option Exn) : Prog Handler Unit :=
  match fault with
  | some e => throw e
  | none => pure ()

/-- `EventBus::subscribe`. -/
def subscribe (maxSubscribers : Nat) (handler : Option Handler) (allocation : Option Exn) :
    Prog Handler SubscriberId := do
  match handler with
  | none => throw (.invalidArgument "subscriber handler must be callable")
  | some handler => do
    let s ← get
    if s.running then
      throw (.logicError "subscribers cannot be added while the bus is running")
    else if s.subscriberCount ≥ maxSubscribers then
      throw (.lengthError "maximum Yellowstone subscriber count reached")
    else match s.slots.findIdx? Option.isNone with
      | none => throw (.lengthError "maximum Yellowstone subscriber count reached")
      | some id => do
        raise allocation
        modify fun s => { s with slots := s.slots.set id (some ⟨id, handler⟩) }
        modify fun s => { s with subscriberCount := s.subscriberCount + 1 }
        pure id

/-- `EventBus::unsubscribe`. -/
def unsubscribe (id : SubscriberId) : Prog Handler Unit := do
  let s ← get
  if s.running then
    throw (.logicError "subscribers cannot be removed while the bus is running")
  else match s.slots[id]?.join with
    | none => throw (.outOfRange "subscriber does not exist")
    | some _ => do
      modify fun s => { s with slots := s.slots.set id none }
      modify fun s => { s with subscriberCount := s.subscriberCount - 1 }

/-- `EventBus::m_snapshot_subscribers`, and the first loop of `start`. -/
def snapshot (s : Registry Handler) : List (Subscription Handler) := s.slots.filterMap id

/-- The loop of `start` that makes and registers the workers. -/
def registerWorkers (fault : StartPoint → Option Exn) : Nat → List (Subscription Handler) →
    WorkerManager → List SubscriberId → Prog Handler (WorkerManager × List SubscriberId)
  | _, [], manager, workers => pure (manager, workers)
  | k, subscriber :: rest, manager, workers => do
    raise (fault (.makeWorker k))
    raise (fault (.register k))
    registerWorkers fault (k + 1) rest
      { manager with workers := manager.workers ++ [subscriber.id] }
      (workers ++ [subscriber.id])

/-- The statements of `start` that its `catch` guards. -/
def startWorkers (fault : StartPoint → Option Exn) (subscribers : List (Subscription Handler)) :
    Prog Handler Unit := do
  raise (fault .construct)
  let manager : WorkerManager := ⟨subscribers.length, [], false⟩
  raise (fault .reserve)
  let (manager, workers) ← registerWorkers fault 0 subscribers manager []
  raise (fault .start)
  modify fun s => { s with manager := some { manager with started := true } }
  modify fun s => { s with workers }

/-- `EventBus::start`. -/
def start (fault : StartPoint → Option Exn) : Prog Handler Unit := do
  if (← get).running then return
  else
    raise (fault .snapshot)
    let subscribers := (← get).snapshot
    modify fun s => { s with running := true }
    -- the manager and the workers made so far are destroyed before the handler runs
    tryCatch (startWorkers fault subscribers) fun e => do
      modify fun s => { s with running := false }
      throw e

/-- `EventBus::stop`. -/
def stop : Prog Handler Unit := do
  let s ← get
  modify fun s => { s with running := false }
  if !s.running then return
  else
    modify fun s => { s with workers := [] }
    modify fun s => { s with manager := none }

def perform (maxSubscribers : Nat) : RegistryCall Handler → Prog Handler Unit
  | .subscribe handler allocation => do
    let _ ← subscribe maxSubscribers handler allocation
  | .unsubscribe id => unsubscribe id
  | .start fault => start fault
  | .stop => stop

/-- The state after a call, whether it returns or throws. -/
def step (maxSubscribers : Nat) (s : Registry Handler) (call : RegistryCall Handler) :
    Option (Registry Handler) :=
  some (exec (perform maxSubscribers call) s).2

/-! ## What a call can do -/

section Calls
variable {maxSubscribers : Nat} {s : Registry Handler}

@[simp] theorem exec_raise_none : exec (raise none : Prog Handler Unit) s = (.ok (), s) := rfl

@[simp] theorem exec_raise_some (e : Exn) :
    exec (raise (some e) : Prog Handler Unit) s = (.error e, s) := rfl

def subscribed (s : Registry Handler) (id : SubscriberId) (handler : Handler) :
    Registry Handler :=
  { s with
    slots := s.slots.set id (some ⟨id, handler⟩)
    subscriberCount := s.subscriberCount + 1 }

def unsubscribed (s : Registry Handler) (id : SubscriberId) : Registry Handler :=
  { s with slots := s.slots.set id none, subscriberCount := s.subscriberCount - 1 }

/-- A handler is refused while the bus is running, when it is empty, or when there is no room. -/
def Refused (maxSubscribers : Nat) (s : Registry Handler) (handler : Option Handler) : Prop :=
  handler = none ∨ s.running = true ∨ maxSubscribers ≤ s.subscriberCount

theorem subscribe_refused {handler : Option Handler} (refused : s.Refused maxSubscribers handler)
    (allocation : Option Exn) :
    ∃ e, exec (subscribe maxSubscribers handler allocation) s = (.error e, s) := by
  cases handler with
  | none => exact ⟨_, rfl⟩
  | some h =>
    by_cases running : s.running = true
    · exact ⟨.logicError _, by simp [subscribe, exec_bind, running]; rfl⟩
    · have full : maxSubscribers ≤ s.subscriberCount := by simpa [Refused, running] using refused
      exact ⟨.lengthError _, by simp [subscribe, exec_bind, running, full]; rfl⟩

/-- The throw at the end of `subscribe` is reached by the first alternative alone. -/
theorem subscribe_admitted {h : Handler} (admitted : ¬s.Refused maxSubscribers (some h))
    (allocation : Option Exn) :
    s.slots.findIdx? Option.isNone = none ∧
      exec (subscribe maxSubscribers (some h) allocation) s =
        (.error (.lengthError "maximum Yellowstone subscriber count reached"), s) ∨
    ∃ id, s.slots.findIdx? Option.isNone = some id ∧
      exec (subscribe maxSubscribers (some h) allocation) s =
        match allocation with
        | some e => (.error e, s)
        | none => (.ok id, s.subscribed id h) := by
  simp only [Refused, reduceCtorEq, false_or, not_or, Bool.not_eq_true, Nat.not_le] at admitted
  obtain ⟨stopped, room⟩ := admitted
  cases found : s.slots.findIdx? Option.isNone with
  | none =>
    exact .inl ⟨rfl, by simp [subscribe, exec_bind, stopped, Nat.not_le.mpr room, found]⟩
  | some id =>
    refine .inr ⟨id, rfl, ?_⟩
    cases allocation with
    | none => simp [subscribe, exec_bind, stopped, Nat.not_le.mpr room, found, subscribed]
    | some e => simp [subscribe, exec_bind, stopped, Nat.not_le.mpr room, found]

theorem unsubscribe_cases (s : Registry Handler) (id : SubscriberId) :
    (∃ e, exec (unsubscribe id) s = (.error e, s)) ∨
    s.running = false ∧ (∃ sub, s.slots[id]? = some (some sub)) ∧
      exec (unsubscribe id) s = (.ok (), s.unsubscribed id) := by
  by_cases running : s.running = true
  · exact .inl ⟨.logicError _, by simp [unsubscribe, exec_bind, running]; rfl⟩
  · cases found : s.slots[id]?.join with
    | none => exact .inl ⟨.outOfRange _, by simp [unsubscribe, exec_bind, running, found]; rfl⟩
    | some sub =>
      refine .inr ⟨by simpa using running, ⟨sub, Option.join_eq_some_iff.mp found⟩, ?_⟩
      simp [unsubscribe, exec_bind, running, found, unsubscribed]

def subscriberIds (s : Registry Handler) : List SubscriberId := s.snapshot.map Subscription.id

/-- After a start: a worker for every subscriber. -/
def started (s : Registry Handler) : Registry Handler :=
  { s with
    running := true
    manager := some ⟨s.snapshot.length, s.subscriberIds, true⟩
    workers := s.subscriberIds }

theorem registerWorkers_cases (fault : StartPoint → Option Exn) (k : Nat)
    (subscribers : List (Subscription Handler)) (manager : WorkerManager)
    (workers : List SubscriberId) :
    ((∃ e, exec (registerWorkers fault k subscribers manager workers) s = (.error e, s)) ∧
      ∃ p, (fault p).isSome = true) ∨
    exec (registerWorkers fault k subscribers manager workers) s =
      (.ok ({ manager with workers := manager.workers ++ subscribers.map Subscription.id },
        workers ++ subscribers.map Subscription.id), s) := by
  induction subscribers generalizing k manager workers with
  | nil => exact .inr (by simp [registerWorkers])
  | cons subscriber rest ih =>
    cases made : fault (.makeWorker k) with
    | some e =>
      exact .inl ⟨⟨e, by simp [registerWorkers, exec_bind, made]⟩, _, Option.isSome_of_eq_some made⟩
    | none =>
      cases registered : fault (.register k) with
      | some e =>
        exact .inl ⟨⟨e, by simp [registerWorkers, exec_bind, made, registered]⟩, _,
          Option.isSome_of_eq_some registered⟩
      | none =>
        have loop : exec (registerWorkers fault k (subscriber :: rest) manager workers) s =
            exec (registerWorkers fault (k + 1) rest
              { manager with workers := manager.workers ++ [subscriber.id] }
              (workers ++ [subscriber.id])) s := by
          simp [registerWorkers, exec_bind, made, registered]
        rw [loop]
        simpa [List.append_assoc] using ih (k + 1)
          { manager with workers := manager.workers ++ [subscriber.id] }
          (workers ++ [subscriber.id])

theorem startWorkers_cases (fault : StartPoint → Option Exn)
    (subscribers : List (Subscription Handler)) :
    ((∃ e, exec (startWorkers fault subscribers) s = (.error e, s)) ∧
      ∃ p, (fault p).isSome = true) ∨
    exec (startWorkers fault subscribers) s = (.ok (), { s with
      manager := some ⟨subscribers.length, subscribers.map Subscription.id, true⟩
      workers := subscribers.map Subscription.id }) := by
  cases constructed : fault .construct with
  | some e =>
    exact .inl ⟨⟨e, by simp [startWorkers, exec_bind, constructed]⟩, _,
      Option.isSome_of_eq_some constructed⟩
  | none =>
    cases reserved : fault .reserve with
    | some e =>
      exact .inl ⟨⟨e, by simp [startWorkers, exec_bind, constructed, reserved]⟩, _,
        Option.isSome_of_eq_some reserved⟩
    | none =>
      rcases registerWorkers_cases (s := s) fault 0 subscribers ⟨subscribers.length, [], false⟩ []
        with ⟨⟨e, loop⟩, failed⟩ | loop
      · exact .inl ⟨⟨e, by simp [startWorkers, exec_bind, constructed, reserved, loop]⟩, failed⟩
      · cases begun : fault .start with
        | some e =>
          refine .inl ⟨⟨e, ?_⟩, _, Option.isSome_of_eq_some begun⟩
          simp [startWorkers, exec_bind, constructed, reserved, loop, begun]
        | none =>
          exact .inr (by simp [startWorkers, exec_bind, constructed, reserved, loop, begun])

/-- A start that throws leaves the registry as it was. -/
theorem start_cases (s : Registry Handler) (fault : StartPoint → Option Exn) :
    s.running = true ∧ exec (start fault) s = (.ok (), s) ∨
    s.running = false ∧
      (((∃ e, exec (start fault) s = (.error e, s)) ∧ ∃ p, (fault p).isSome = true) ∨
        exec (start fault) s = (.ok (), s.started)) := by
  by_cases running : s.running = true
  · exact .inl ⟨running, by simp [start, exec_bind, running]⟩
  · have stopped : s.running = false := by simpa using running
    refine .inr ⟨stopped, ?_⟩
    cases taken : fault .snapshot with
    | some e =>
      exact .inl ⟨⟨e, by simp [start, exec_bind, stopped, taken]⟩, _,
        Option.isSome_of_eq_some taken⟩
    | none =>
      have guarded : exec (start fault) s =
          exec (tryCatch (startWorkers fault s.snapshot) fun e => do
            modify fun s => { s with running := false }
            throw e) { s with running := true } := by
        simp [start, exec_bind, stopped, taken]
      have same : { s with running := false } = s := by simp [← stopped]
      rw [guarded, exec_tryCatch]
      rcases startWorkers_cases (s := { s with running := true }) fault s.snapshot with
        ⟨⟨e, threw⟩, failed⟩ | done
      · refine .inl ⟨⟨e, ?_⟩, failed⟩
        rw [threw]
        simp [exec_bind, same]
      · rw [done]
        exact .inr rfl

/-- Starting works as soon as nothing fails. -/
theorem start_succeeds (stopped : s.running = false) :
    exec (start fun _ => none) s = (.ok (), s.started) := by
  rcases start_cases s (fun _ => none) with ⟨running, -⟩ | ⟨-, ⟨-, p, failed⟩ | done⟩
  · simp [stopped] at running
  · simp at failed
  · exact done

theorem exec_stop (s : Registry Handler) : exec stop s =
    (.ok (), if s.running then { s with running := false, workers := [], manager := none }
      else s) := by
  by_cases running : s.running = true
  · simp [stop, exec_bind, running]
  · have same : { s with running := false } = s := by
      simp [← show s.running = false by simpa using running]
    simp [stop, exec_bind, running, same]

end Calls

/-! ## Every sequence of calls -/

section Runs
variable {maxSubscribers : Nat} {s s' : Registry Handler}

def Occupied (s : Registry Handler) (id : SubscriberId) : Prop :=
  ∃ sub, s.slots[id]? = some (some sub)

structure Inv (maxSubscribers : Nat) (s : Registry Handler) : Prop where
  size : s.slots.length = maxSubscribers
  count : s.subscriberCount = s.slots.countP Option.isSome
  named : ∀ i (sub : Subscription Handler), s.slots[i]? = some (some sub) → sub.id = i
  stopped : s.running = false → s.manager = none ∧ s.workers = []
  mapped : s.running = true →
    s.manager = some ⟨s.snapshot.length, s.subscriberIds, true⟩ ∧ s.workers = s.subscriberIds

theorem inv_initial (maxSubscribers : Nat) :
    Inv maxSubscribers (initial maxSubscribers : Registry Handler) where
  size := List.length_replicate ..
  count := by simp [initial, List.countP_replicate]
  named := by
    intro id sub occupied
    simp [initial, List.getElem?_replicate] at occupied
  stopped := fun _ => ⟨rfl, rfl⟩
  mapped := nofun

theorem Inv.subscribed (inv : Inv maxSubscribers s) (stopped : s.running = false)
    {id : SubscriberId} (free : s.slots[id]? = some none) (handler : Handler) :
    Inv maxSubscribers (s.subscribed id handler) where
  size := (List.length_set ..).trans inv.size
  count := by
    obtain ⟨inside, empty⟩ := List.getElem?_eq_some_iff.mp free
    simp [Registry.subscribed, List.countP_set inside, empty, inv.count]
  named := by
    intro i sub occupied
    simp only [Registry.subscribed, List.getElem?_set] at occupied
    split at occupied
    · rename_i same
      split at occupied
      · obtain rfl := Option.some.inj (Option.some.inj occupied)
        exact same
      · cases occupied
    · exact inv.named i sub occupied
  stopped := inv.stopped
  mapped := fun running => by
    cases stopped.symm.trans running

theorem Inv.unsubscribed (inv : Inv maxSubscribers s) (stopped : s.running = false)
    {id : SubscriberId} (occupied : s.Occupied id) :
    Inv maxSubscribers (s.unsubscribed id) where
  size := (List.length_set ..).trans inv.size
  count := by
    obtain ⟨sub, found⟩ := occupied
    obtain ⟨inside, full⟩ := List.getElem?_eq_some_iff.mp found
    simp [Registry.unsubscribed, List.countP_set inside, full, inv.count]
  named := by
    intro i sub occupied
    simp only [Registry.unsubscribed, List.getElem?_set] at occupied
    split at occupied
    · split at occupied <;> cases occupied
    · exact inv.named i sub occupied
  stopped := inv.stopped
  mapped := fun running => by
    cases stopped.symm.trans running

theorem Inv.started (inv : Inv maxSubscribers s) : Inv maxSubscribers s.started :=
  ⟨inv.size, inv.count, inv.named, nofun, fun _ => ⟨rfl, rfl⟩⟩

/-- While the count is below the bound there is a free slot. -/
theorem Inv.room (inv : Inv maxSubscribers s) (room : s.subscriberCount < maxSubscribers) :
    s.slots.findIdx? Option.isNone ≠ none := by
  intro full
  have occupied : ∀ slot ∈ s.slots, slot.isSome = true := by
    intro slot mem
    have := List.findIdx?_eq_none_iff.mp full slot mem
    cases slot with
    | none => cases this
    | some sub => rfl
  have all := List.countP_eq_length.mpr occupied
  rw [← inv.count, inv.size] at all
  omega

theorem Inv.after_subscribe (inv : Inv maxSubscribers s) (handler : Option Handler)
    (allocation : Option Exn) :
    Inv maxSubscribers (exec (subscribe maxSubscribers handler allocation) s).2 := by
  by_cases refused : s.Refused maxSubscribers handler
  · obtain ⟨e, call⟩ := subscribe_refused refused allocation
    rw [call]
    exact inv
  · cases handler with
    | none => exact absurd (.inl rfl) refused
    | some h =>
      rcases subscribe_admitted refused allocation with ⟨-, call⟩ | ⟨id, found, call⟩
      · rw [call]
        exact inv
      · rw [call]
        cases allocation with
        | some e => exact inv
        | none =>
          have stopped : s.running = false := by simp [Refused] at refused; exact refused.1
          exact inv.subscribed stopped (least_vacant found).1 h

theorem inv_step (inv : Inv maxSubscribers s) {call : RegistryCall Handler}
    (moves : step maxSubscribers s call = some s') : Inv maxSubscribers s' := by
  obtain rfl := Option.some.inj moves
  cases call with
  | subscribe handler allocation =>
    have kept := inv.after_subscribe handler allocation
    simp only [perform, exec_bind]
    split <;> simp_all
  | unsubscribe id =>
    rcases unsubscribe_cases s id with ⟨e, call⟩ | ⟨stopped, occupied, call⟩
    · rw [perform, call]
      exact inv
    · rw [perform, call]
      exact inv.unsubscribed stopped occupied
  | start fault =>
    rcases start_cases s fault with ⟨-, call⟩ | ⟨-, ⟨⟨e, call⟩, -⟩ | call⟩
    · rw [perform, call]
      exact inv
    · rw [perform, call]
      exact inv
    · rw [perform, call]
      exact inv.started
  | stop =>
    rw [perform, exec_stop]
    by_cases running : s.running = true
    · simp only [running, if_true]
      exact ⟨inv.size, inv.count, inv.named, fun _ => ⟨rfl, rfl⟩, nofun⟩
    · simp only [running]
      exact inv

theorem inv_reachable
    (h : Machine.Reachable (step maxSubscribers) (initial maxSubscribers) s) :
    Inv maxSubscribers s :=
  h.invariant (inv_initial maxSubscribers) fun _ _ _ inv moves => inv_step inv moves

theorem mem_snapshot {sub : Subscription Handler} :
    sub ∈ s.snapshot ↔ ∃ i : SubscriberId, s.slots[i]? = some (some sub) := by
  rw [snapshot, List.mem_filterMap, ← List.mem_iff_getElem?]
  simp

theorem Inv.mem_subscriberIds (inv : Inv maxSubscribers s) {i : SubscriberId} :
    i ∈ s.subscriberIds ↔ s.Occupied i := by
  simp only [subscriberIds, List.mem_map, mem_snapshot]
  constructor
  · rintro ⟨sub, ⟨j, occupied⟩, rfl⟩
    obtain rfl := inv.named j sub occupied
    exact ⟨sub, occupied⟩
  · rintro ⟨sub, occupied⟩
    exact ⟨sub, ⟨i, occupied⟩, inv.named i sub occupied⟩

theorem Inv.subscriberIds_nodup (inv : Inv maxSubscribers s) : s.subscriberIds.Nodup := by
  refine List.pairwise_map.mpr (List.pairwise_filterMap.mpr (List.pairwise_iff_getElem.mpr ?_))
  intro i j hi hj before sub first sub' second same
  have at_i := inv.named i sub (by rw [List.getElem?_eq_getElem hi]; exact congrArg some first)
  have at_j := inv.named j sub' (by rw [List.getElem?_eq_getElem hj]; exact congrArg some second)
  exact Nat.ne_of_lt before (at_i.symm.trans (same.trans at_j))

theorem Inv.full_iff (inv : Inv maxSubscribers s) :
    maxSubscribers ≤ s.subscriberCount ↔ ∀ i < maxSubscribers, s.Occupied i := by
  have bound := List.countP_le_length (l := s.slots) (p := Option.isSome)
  have all := List.countP_eq_length (l := s.slots) (p := Option.isSome)
  rw [← inv.count, inv.size] at bound all
  constructor
  · intro full i below
    have inside : i < s.slots.length := inv.size.symm ▸ below
    obtain ⟨sub, same⟩ := Option.isSome_iff_exists.mp
      (all.mp (Nat.le_antisymm bound full) _ (List.getElem_mem inside))
    exact ⟨sub, by rw [List.getElem?_eq_getElem inside, same]⟩
  · intro occupied
    refine Nat.le_of_eq (all.mpr fun slot mem => ?_).symm
    obtain ⟨i, inside, rfl⟩ := List.mem_iff_getElem.mp mem
    obtain ⟨sub, same⟩ := occupied i (inv.size ▸ inside)
    rw [List.getElem?_eq_getElem inside] at same
    simp [Option.some.inj same]

/-- What holds between calls, and what the next call does then. -/
structure Consistent (maxSubscribers : Nat) (s : Registry Handler) : Prop where
  count : s.subscriberCount = s.slots.countP Option.isSome
  named : ∀ i (sub : Subscription Handler), s.slots[i]? = some (some sub) → sub.id = i
  least : ∀ handler allocation i,
    (exec (subscribe maxSubscribers handler allocation) s).1 = .ok i →
      s.slots[i]? = some none ∧ (∀ j < i, s.Occupied j) ∧ ∃ h, handler = some h ∧
        (exec (subscribe maxSubscribers handler allocation) s).2 = s.subscribed i h
  throws : ∀ handler, (∃ e, (exec (subscribe maxSubscribers handler none) s).1 = .error e) ↔
    handler = none ∨ s.running = true ∨ ∀ i < maxSubscribers, s.Occupied i
  unchanged : ∀ handler allocation e,
    (exec (subscribe maxSubscribers handler allocation) s).1 = .error e →
      (exec (subscribe maxSubscribers handler allocation) s).2 = s
  /-- The loop of `subscribe` finds a slot whenever it is entered. -/
  found : s.subscriberCount < maxSubscribers → s.slots.findIdx? Option.isNone ≠ none
  employed : s.running = true → ∃ m, s.manager = some m ∧ m.started = true ∧
    m.workers = s.workers ∧ s.workers.Nodup ∧ ∀ i, i ∈ s.workers ↔ s.Occupied i
  frozen : s.running = true → ∀ call, (exec (perform maxSubscribers call) s).2.slots = s.slots
  restartable : ∀ fault e s', exec (start fault) s = (.error e, s') →
    s'.running = false ∧ s'.slots = s.slots ∧ s'.subscriberCount = s.subscriberCount ∧
      s'.manager = none ∧ s'.workers = [] ∧ exec (start fun _ => none) s' = (.ok (), s'.started)

theorem Inv.subscribe_cases (inv : Inv maxSubscribers s) (handler : Option Handler)
    (allocation : Option Exn) :
    (∃ e, exec (subscribe maxSubscribers handler allocation) s = (.error e, s)) ∧
      (s.Refused maxSubscribers handler ∨ allocation.isSome = true) ∨
    ∃ h i, handler = some h ∧ allocation = none ∧ ¬s.Refused maxSubscribers handler ∧
      s.slots.findIdx? Option.isNone = some i ∧
      exec (subscribe maxSubscribers handler allocation) s = (.ok i, s.subscribed i h) := by
  by_cases refused : s.Refused maxSubscribers handler
  · exact .inl ⟨subscribe_refused refused allocation, .inl refused⟩
  · cases handler with
    | none => exact absurd (.inl rfl) refused
    | some h =>
      have room : s.subscriberCount < maxSubscribers := by
        simp only [Refused, not_or, Nat.not_le] at refused
        exact refused.2.2
      rcases subscribe_admitted refused allocation with ⟨full, -⟩ | ⟨i, found, call⟩
      · exact absurd full (inv.room room)
      · cases allocation with
        | some e => exact .inl ⟨⟨e, call⟩, .inr rfl⟩
        | none => exact .inr ⟨h, i, rfl, rfl, refused, found, call⟩

theorem frozen_of_running (running : s.running = true) (call : RegistryCall Handler) :
    (exec (perform maxSubscribers call) s).2.slots = s.slots := by
  cases call with
  | subscribe handler allocation =>
    have refused : s.Refused maxSubscribers handler := .inr (.inl running)
    obtain ⟨e, refuses⟩ := subscribe_refused refused allocation
    rw [perform, exec_bind_of_error refuses]
  | unsubscribe id =>
    rcases unsubscribe_cases s id with ⟨e, call⟩ | ⟨stopped, -, -⟩
    · rw [perform, call]
    · cases stopped.symm.trans running
  | start fault =>
    rcases start_cases s fault with ⟨-, call⟩ | ⟨stopped, -⟩
    · rw [perform, call]
    · cases stopped.symm.trans running
  | stop => simp [perform, exec_stop, running]

theorem Inv.restartable (inv : Inv maxSubscribers s) {fault : StartPoint → Option Exn} {e : Exn}
    {s' : Registry Handler} (threw : exec (start fault) s = (.error e, s')) :
    s' = s ∧ s.running = false ∧ s.manager = none ∧ s.workers = [] := by
  rcases start_cases s fault with ⟨-, call⟩ | ⟨stopped, ⟨⟨e', call⟩, -⟩ | call⟩
  · cases call.symm.trans threw
  · cases call.symm.trans threw
    exact ⟨rfl, stopped, inv.stopped stopped⟩
  · cases call.symm.trans threw

/-- After any sequence of calls, with failures anywhere in them. -/
theorem registry_consistent
    (h : Machine.Reachable (step maxSubscribers) (initial maxSubscribers) s) :
    Consistent maxSubscribers s := by
  have inv := inv_reachable h
  constructor
  case count => exact inv.count
  case named => exact inv.named
  case least =>
    intro handler allocation i returned
    rcases inv.subscribe_cases handler allocation with ⟨⟨e, call⟩, -⟩ |
      ⟨h, j, same, -, -, found, call⟩
    · rw [call] at returned
      cases returned
    · rw [call] at returned ⊢
      cases returned
      exact ⟨(least_vacant found).1, (least_vacant found).2, h, same, rfl⟩
  case throws =>
    intro handler
    rw [← inv.full_iff]
    rcases inv.subscribe_cases handler none with ⟨⟨e, call⟩, refused | failed⟩ |
      ⟨h, j, -, -, admitted, -, call⟩
    · exact iff_of_true ⟨e, by rw [call]⟩ refused
    · cases failed
    · refine iff_of_false ?_ admitted
      rintro ⟨e, threw⟩
      rw [call] at threw
      cases threw
  case unchanged =>
    intro handler allocation e threw
    rcases inv.subscribe_cases handler allocation with ⟨⟨e', call⟩, -⟩ | ⟨h, j, -, -, -, -, call⟩
    · rw [call]
    · rw [call] at threw
      cases threw
  case found => exact inv.room
  case employed =>
    intro running
    obtain ⟨manager, workers⟩ := inv.mapped running
    refine ⟨_, manager, rfl, workers.symm, ?_, fun i => ?_⟩
    · rw [workers]
      exact inv.subscriberIds_nodup
    · rw [workers]
      exact inv.mem_subscriberIds
  case frozen => exact frozen_of_running
  case restartable =>
    intro fault e s' threw
    obtain ⟨rfl, stopped, manager, workers⟩ := inv.restartable threw
    exact ⟨stopped, rfl, rfl, manager, workers, start_succeeds stopped⟩

end Runs

end Registry

section Samples
open Registry

/-- The second worker cannot be registered at the first start. -/
def refusedWorker : List (RegistryCall Nat) :=
  [.subscribe (some 7) none, .subscribe (some 8) none, .unsubscribe 0, .subscribe (some 9) none,
    .start fun p => if p = .register 1 then some .badAlloc else none, .start fun _ => none]

theorem refusedWorker_consistent : ∃ s, s.workers = [0, 1] ∧
    Machine.run (step 3) (initial 3) refusedWorker = some s ∧ Consistent 3 s :=
  ⟨_, rfl, rfl, registry_consistent ⟨refusedWorker, rfl⟩⟩

end Samples

end Yellowstone
