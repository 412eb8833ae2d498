import Yellowstone.Bus.PartitionRuns
import Yellowstone.Library.Progress
import Yellowstone.Library.Threads

/-!
# Waiting for a partition

Any number of threads push, pop and wait. Every critical section is one step, but for a wait
that is about to block: between the evaluation of its predicate and the block it keeps the
mutex, while the flag it has read may change and `wake_all`, which takes no mutex, may run.
`notify_one` comes after the push has released the mutex.
-/

set_option autoImplicit false

namespace Yellowstone

open Machine Throwing Threads

/-- Where a thread is in `push` or in `wait_pop_for`. -/
inductive WaitPlace where
  | out
  /-- In `push`, with the mutex released, before `notify_one`. -/
  | notifying
  /-- The predicate was false; the mutex is still held. -/
  | checked
  | blocked
  /-- The wait is over, or the timeout, and the mutex is to be locked again. -/
  | roused (timedOut : Bool)
deriving DecidableEq, Repr

/-- A partition with the flag that its waits read, and the owner of its mutex. -/
structure SharedPartition (Thread Payload : Type) where
  partition : Partition Payload
  running : Bool
  owner : Option Thread
  place : Thread → WaitPlace

inductive SharedAction (Thread Payload : Type) where
  | push (c : Thread) (fault : PushPoint → Option Exn) (event : Event Payload)
  /-- `notify_one` unblocks a blocked thread, if there is one. -/
  | notify (c : Thread) (unblocked : Option Thread)
  | pop (c : Thread)
  | waitPopFor (c : Thread)
  | block (c : Thread)
  /-- A blocked thread goes on, by the timeout or spuriously. -/
  | rouse (c : Thread) (timedOut : Bool)
  | resume (c : Thread)
  | wakeAll
  | setRunning (value : Bool)

namespace SharedPartition
variable {Thread Payload : Type} [DecidableEq Thread] [Fintype Thread] (merger : Merger Payload)

/-- Nobody is in a call. -/
def idle (p : Partition Payload) (running : Bool) : SharedPartition Thread Payload :=
  ⟨p, running, none, fun _ => .out⟩

def move (s : SharedPartition Thread Payload) (c : Thread) (x : WaitPlace) :
    SharedPartition Thread Payload :=
  { s with place := Function.update s.place c x }

/-- The predicate of the wait. -/
def ready (s : SharedPartition Thread Payload) : Bool := s.partition.size ≠ 0 || !s.running

def push (s : SharedPartition Thread Payload) (c : Thread) (fault : PushPoint → Option Exn)
    (event : Event Payload) : Option (SharedPartition Thread Payload) :=
  match exec (Partition.push merger fault event) s.partition with
  | (.ok result, after) =>
    let place := if result = .inserted then .notifying else .out
    some { s.move c place with partition := after }
  | (.error (.thrown _), after) => some { s.move c .out with partition := after }
  | (.error .undefinedBehaviour, _) => none

/-- `m_pop_locked` and the return from the call. -/
def popLocked (s : SharedPartition Thread Payload) (c : Thread) :
    Option (SharedPartition Thread Payload) :=
  match exec Partition.popLocked s.partition with
  | (.ok _, after) => some { s.move c .out with partition := after }
  | (.error _, _) => none

/-- The wait evaluates its predicate; it is over if that holds or its time is. -/
def evaluate (s : SharedPartition Thread Payload) (c : Thread) (timedOut : Bool) :
    Option (SharedPartition Thread Payload) :=
  if s.ready || timedOut then s.popLocked c else some { s.move c .checked with owner := some c }

def unblocked : WaitPlace → WaitPlace
  | .blocked => .roused false
  | place => place

def step (s : SharedPartition Thread Payload) :
    SharedAction Thread Payload → Option (SharedPartition Thread Payload)
  | .push c fault event =>
    if s.place c = .out ∧ s.owner = none then s.push merger c fault event else none
  | .notify c target =>
    if s.place c = .notifying then
      match target with
      | some d =>
        if s.place d = .blocked then some ((s.move c .out).move d (.roused false)) else none
      | none => if ∀ d, s.place d ≠ .blocked then some (s.move c .out) else none
    else none
  | .pop c => if s.place c = .out ∧ s.owner = none then s.popLocked c else none
  | .waitPopFor c => if s.place c = .out ∧ s.owner = none then s.evaluate c false else none
  | .block c =>
    if s.place c = .checked then some { s.move c .blocked with owner := none } else none
  | .rouse c timedOut => if s.place c = .blocked then some (s.move c (.roused timedOut)) else none
  | .resume c =>
    match s.place c with
    | .roused timedOut => if s.owner = none then s.evaluate c timedOut else none
    | _ => none
  | .wakeAll => some { s with place := fun c => unblocked (s.place c) }
  | .setRunning value => some { s with running := value }

/-- A push throws, if it throws, where the partition recovers from it. -/
def recovers (s : SharedPartition Thread Payload) : SharedAction Thread Payload → Bool
  | .push _ fault event => s.partition.recovers (.push merger fault event)
  | _ => true

/-- What a step can be. -/
inductive Steps (s : SharedPartition Thread Payload) :
    SharedAction Thread Payload → SharedPartition Thread Payload → Prop
  | pushed (c : Thread) (fault : PushPoint → Option Exn) (event : Event Payload)
    (outcome : Except Failure PushResult) (after : Partition Payload) (x : WaitPlace) :
    s.place c = .out → s.owner = none →
    exec (Partition.push merger fault event) s.partition = (outcome, after) →
    (x = .notifying ∧ outcome = .ok .inserted ∨ x = .out ∧ outcome ≠ .ok .inserted) →
    Steps s (.push c fault event) { s.move c x with partition := after }
  | notified (c d : Thread) : s.place c = .notifying → s.place d = .blocked →
    Steps s (.notify c (some d)) ((s.move c .out).move d (.roused false))
  | unheard (c : Thread) : s.place c = .notifying → (∀ d, s.place d ≠ .blocked) →
    Steps s (.notify c none) (s.move c .out)
  | popped (c : Thread) (a : SharedAction Thread Payload) (result : Option (Event Payload))
    (after : Partition Payload) :
    s.place c = .out ∧ (a = .pop c ∨ a = .waitPopFor c) ∨
      (∃ timedOut, s.place c = .roused timedOut) ∧ a = .resume c → s.owner = none →
    exec Partition.popLocked s.partition = (.ok result, after) →
    Steps s a { s.move c .out with partition := after }
  | checked (c : Thread) (a : SharedAction Thread Payload) :
    s.place c = .out ∧ a = .waitPopFor c ∨
      (∃ timedOut, s.place c = .roused timedOut) ∧ a = .resume c → s.owner = none →
    s.partition.size = 0 → s.running = true →
    Steps s a { s.move c .checked with owner := some c }
  | blocks (c : Thread) : s.place c = .checked →
    Steps s (.block c) { s.move c .blocked with owner := none }
  | roused (c : Thread) (timedOut : Bool) : s.place c = .blocked →
    Steps s (.rouse c timedOut) (s.move c (.roused timedOut))
  | wokeAll : Steps s .wakeAll { s with place := fun c => unblocked (s.place c) }
  | set (value : Bool) : Steps s (.setRunning value) { s with running := value }

variable {merger} {s s' : SharedPartition Thread Payload} {a : SharedAction Thread Payload}

omit [Fintype Thread] in
theorem steps_popLocked {c : Thread}
    (from' : s.place c = .out ∧ (a = .pop c ∨ a = .waitPopFor c) ∨
      (∃ timedOut, s.place c = .roused timedOut) ∧ a = .resume c) (free : s.owner = none)
    (h : s.popLocked c = some s') : Steps merger s a s' := by
  unfold popLocked at h
  split at h
  · rename_i result after pops
    cases h
    exact .popped c a result after from' free pops
  · cases h

omit [Fintype Thread] in
theorem steps_evaluate {c : Thread} {timedOut : Bool}
    (from' : s.place c = .out ∧ a = .waitPopFor c ∨
      (∃ timedOut, s.place c = .roused timedOut) ∧ a = .resume c) (free : s.owner = none)
    (h : s.evaluate c timedOut = some s') : Steps merger s a s' := by
  unfold evaluate at h
  split at h
  · exact steps_popLocked (from'.imp_left (And.imp_right .inr)) free h
  · rename_i waits
    cases h
    simp only [ready, Bool.or_eq_true, decide_eq_true_eq, Bool.not_eq_true'] at waits
    exact .checked c a from' free (by tauto) (by simpa using fun h => waits (.inl (.inr h)))

theorem step_steps (h : step merger s a = some s') : Steps merger s a s' := by
  cases a with
  | push c fault event =>
    obtain ⟨⟨out, free⟩, h⟩ := Option.ite_none_right_eq_some.mp h
    unfold push at h
    split at h
    · rename_i result after runs
      cases h
      refine .pushed c fault event _ after _ out free runs ?_
      by_cases inserted : result = .inserted
      · exact .inl ⟨if_pos inserted, by rw [inserted]⟩
      · exact .inr ⟨if_neg inserted, by simpa using inserted⟩
    · rename_i e after runs
      cases h
      exact .pushed c fault event _ after _ out free runs (.inr ⟨rfl, by simp⟩)
    · cases h
  | notify c target =>
    obtain ⟨notifying, h⟩ := Option.ite_none_right_eq_some.mp h
    cases target with
    | some d =>
      obtain ⟨blocked, ⟨⟩⟩ := Option.ite_none_right_eq_some.mp h
      exact .notified c d notifying blocked
    | none =>
      obtain ⟨nobody, ⟨⟩⟩ := Option.ite_none_right_eq_some.mp h
      exact .unheard c notifying nobody
  | pop c =>
    obtain ⟨⟨out, free⟩, h⟩ := Option.ite_none_right_eq_some.mp h
    exact steps_popLocked (.inl ⟨out, .inl rfl⟩) free h
  | waitPopFor c =>
    obtain ⟨⟨out, free⟩, h⟩ := Option.ite_none_right_eq_some.mp h
    exact steps_evaluate (.inl ⟨out, rfl⟩) free h
  | block c =>
    obtain ⟨here, ⟨⟩⟩ := Option.ite_none_right_eq_some.mp h
    exact .blocks c here
  | rouse c timedOut =>
    obtain ⟨here, ⟨⟩⟩ := Option.ite_none_right_eq_some.mp h
    exact .roused c timedOut here
  | resume c =>
    simp only [step] at h
    split at h
    · rename_i timedOut here
      obtain ⟨free, h⟩ := Option.ite_none_right_eq_some.mp h
      exact steps_evaluate (.inr ⟨⟨timedOut, here⟩, rfl⟩) free h
    · cases h
  | wakeAll =>
    cases h
    exact .wokeAll
  | setRunning value =>
    cases h
    exact .set value

/-! ## Nobody sleeps through a push -/

/-- On the way to `m_pop_locked`, or about to send somebody there. -/
def coming : WaitPlace → Bool
  | .notifying | .roused _ => true
  | _ => false

structure Attended (s : SharedPartition Thread Payload) : Prop where
  owner : ∀ c, s.place c = .checked ↔ s.owner = some c
  empty : s.owner ≠ none → s.partition.size = 0
  awaited : (∃ c, s.place c = .blocked) → s.partition.size ≤ howMany coming s.place

theorem size_push {fault : PushPoint → Option Exn} {event : Event Payload}
    {p after : Partition Payload} {outcome : Except Failure PushResult}
    (h : exec (Partition.push merger fault event) p = (outcome, after)) :
    after.size = p.size + if outcome = .ok .inserted then 1 else 0 := by
  cases Partition.push_runs h <;> simp

theorem size_popLocked {p after : Partition Payload} {result : Option (Event Payload)}
    (h : exec Partition.popLocked p = (.ok result, after)) : after.size = p.size - 1 := by
  cases Partition.popLocked_runs h with
  | nothing empty => rw [empty]
  | took => rfl

omit [Fintype Thread] in
theorem owner_move (owner : ∀ d, s.place d = .checked ↔ s.owner = some d) {c : Thread}
    {x : WaitPlace} (before : s.place c ≠ .checked) (after : x ≠ .checked) (d : Thread) :
    (s.move c x).place d = .checked ↔ s.owner = some d := by
  by_cases same : d = c
  · subst same
    simp [move, after, ← owner d, before]
  · simp [move, same, owner d]

omit [Fintype Thread] in
theorem blocked_move {c : Thread} {x : WaitPlace} (after : x ≠ .blocked)
    (h : ∃ d, (s.move c x).place d = .blocked) : ∃ d, s.place d = .blocked := by
  obtain ⟨d, blocked⟩ := h
  by_cases same : d = c
  · subst same
    simp [move, after] at blocked
  · exact ⟨d, by simpa [move, same] using blocked⟩

theorem Attended.step (inv : Attended s) (h : step merger s a = some s') : Attended s' := by
  obtain ⟨owner, empty, awaited⟩ := inv
  cases step_steps h with
  | pushed c fault event outcome after x out free runs next =>
    have counts := howMany_update coming s.place c x
    have grows := size_push runs
    have other : x ≠ .checked ∧ x ≠ .blocked := by
      rcases next with ⟨rfl, -⟩ | ⟨rfl, -⟩ <;> simp
    refine ⟨owner_move owner (by simp [out]) other.1, fun held => absurd free held, ?_⟩
    intro asleep
    have before := awaited (blocked_move other.2 asleep)
    change after.size ≤ howMany coming (Function.update s.place c x)
    rcases next with ⟨rfl, rfl⟩ | ⟨rfl, plain⟩
    · simp only [if_true] at grows
      simp only [out, coming, Bool.toNat_true, Bool.toNat_false] at counts
      omega
    · rw [if_neg plain] at grows
      simp only [out, coming, Bool.toNat_false] at counts
      omega
  | notified c d notifying blocked =>
    have apart : d ≠ c := fun same => by simp [same, notifying] at blocked
    have blocked' : (s.move c .out).place d = .blocked := by simp [move, apart, blocked]
    have first := howMany_update coming s.place c .out
    have second := howMany_update coming (s.move c .out).place d (.roused false)
    have owner' := owner_move (c := c) (x := .out) owner (by simp [notifying]) (by simp)
    refine ⟨owner_move owner' (by simp [blocked']) (by simp), empty, fun _ => ?_⟩
    have before := awaited ⟨d, blocked⟩
    change s.partition.size ≤ howMany coming
      (Function.update (s.move c .out).place d (.roused false))
    simp only [notifying, coming, Bool.toNat_true, Bool.toNat_false] at first
    simp only [blocked', coming, Bool.toNat_true, Bool.toNat_false] at second
    simp only [move] at second ⊢
    omega
  | unheard c notifying nobody =>
    refine ⟨owner_move owner (by simp [notifying]) (by simp), empty, fun asleep => ?_⟩
    obtain ⟨d, blocked⟩ := blocked_move (by simp) asleep
    exact absurd blocked (nobody d)
  | popped c a result after from' free pops =>
    have shrinks := size_popLocked pops
    have counts := howMany_update coming s.place c .out
    have here : s.place c ≠ .checked := by
      rcases from' with ⟨out, -⟩ | ⟨⟨timedOut, roused⟩, -⟩
      · simp [out]
      · simp [roused]
    refine ⟨owner_move owner here (by simp), fun held => absurd free held, fun asleep => ?_⟩
    have before := awaited (blocked_move (by simp) asleep)
    change after.size ≤ howMany coming (Function.update s.place c .out)
    rcases from' with ⟨out, -⟩ | ⟨⟨timedOut, roused⟩, -⟩
    · simp only [out, coming, Bool.toNat_false] at counts
      omega
    · simp only [roused, coming, Bool.toNat_true, Bool.toNat_false] at counts
      omega
  | checked c a from' free none running =>
    have nobody : ∀ d, s.place d ≠ .checked := fun d here => by
      cases free.symm.trans ((owner d).mp here)
    refine ⟨fun d => ?_, fun _ => none, fun _ => none.trans_le (Nat.zero_le _)⟩
    by_cases same : d = c
    · simp [move, same]
    · simp [move, same, nobody d, Ne.symm same]
  | blocks c here =>
    have holds := (owner c).mp here
    have none := empty (by simp [holds])
    refine ⟨fun d => ?_, fun held => absurd rfl held, fun _ => none.trans_le (Nat.zero_le _)⟩
    by_cases same : d = c
    · simp [move, same]
    · simp [move, same, owner d, holds, Ne.symm same]
  | roused c timedOut here =>
    have counts := howMany_update coming s.place c (.roused timedOut)
    refine ⟨owner_move owner (by simp [here]) (by simp), empty, fun asleep => ?_⟩
    have before := awaited ⟨c, here⟩
    change s.partition.size ≤ howMany coming (Function.update s.place c (.roused timedOut))
    simp only [here, coming, Bool.toNat_true, Bool.toNat_false] at counts
    omega
  | wokeAll =>
    refine ⟨fun c => ?_, empty, fun asleep => ?_⟩
    · rw [← owner c]
      cases hc : s.place c <;> simp [unblocked, hc]
    · obtain ⟨c, blocked⟩ := asleep
      cases hc : s.place c <;> simp [unblocked, hc] at blocked
  | set value => exact ⟨owner, empty, awaited⟩

theorem attended_reachable {p : Partition Payload} {running : Bool}
    (reached : Reachable (step merger) (idle p running) s) : Attended s := by
  induction reached with
  | start => exact ⟨by simp [idle], by simp [idle], by simp [idle]⟩
  | next r a r' _ moves inv => exact inv.step moves

theorem valid_step (valid : s.partition.Valid) (allowed : s.recovers merger a = true)
    (h : step merger s a = some s') : s'.partition.Valid := by
  cases step_steps h with
  | pushed c fault event outcome after x _ _ runs =>
    exact Partition.valid_push valid allowed runs
  | popped c a result after _ _ pops => exact Partition.valid_popLocked valid pops
  | _ => exact valid

theorem valid_reachable {p : Partition Payload} {running : Bool} {capacity : Nat}
    (built : Partition.construct capacity = .ok p)
    (reached : Reachable (guarded (step merger) (recovers merger)) (idle p running) s) :
    s.partition.Valid := by
  induction reached with
  | start => exact (Partition.valid_construct built).1
  | next r a r' _ moves valid =>
    obtain ⟨allowed, moves⟩ := guarded_eq_some.mp moves
    exact valid_step valid allowed moves

omit [DecidableEq Thread] in
theorem Attended.pending_le (attended : Attended s) (valid : s.partition.Valid)
    (asleep : ∃ c, s.place c = .blocked) :
    s.partition.events.length ≤ howMany coming s.place := by
  rw [← valid.size_eq]
  exact attended.awaited asleep

/-- While somebody sleeps, there are no more events than threads on their way to take one. -/
theorem not_slept_through {p : Partition Payload} {running : Bool} {capacity : Nat}
    (built : Partition.construct capacity = .ok p)
    (reached : Reachable (guarded (step merger) (recovers merger)) (idle p running) s)
    (asleep : ∃ c, s.place c = .blocked) :
    s.partition.events.length ≤ howMany coming s.place := by
  have attended := attended_reachable reached.of_guarded
  exact attended.pending_le (valid_reachable built reached) asleep

def latest : Merger Nat := .ofFun fun _ incoming => incoming

def sampleRoom : Partition Nat := ⟨2, [], [], 0, 0⟩

/-- One thread sleeps when the other pushes. -/
def sampleSleep : List (SharedAction Bool Nat) :=
  [.waitPopFor false, .block false, .push true (fun _ => none) ⟨7, 0, 0, 70⟩]

def sampleAsleep : SharedPartition Bool Nat :=
  (run (step latest) (idle sampleRoom true) sampleSleep).getD (idle sampleRoom true)

theorem sampleAsleep_reached :
    Reachable (guarded (step latest) (recovers latest)) (idle sampleRoom true) sampleAsleep :=
  ⟨sampleSleep, rfl⟩

theorem sampleAsleep_awaited :
    sampleAsleep.partition.events.length ≤ howMany coming sampleAsleep.place := by
  have built : Partition.construct 2 = .ok sampleRoom := rfl
  exact not_slept_through built sampleAsleep_reached ⟨false, by decide +kernel⟩

/-! ## The event is taken -/

def isNotifying : WaitPlace → Bool
  | .notifying => true
  | _ => false

/-- A notification that is due, or a thread that goes on after its wait. -/
def prompt (_ : SharedPartition Thread Payload) : SharedAction Thread Payload → Bool
  | .notify _ _ | .resume _ => true
  | _ => false

def Takes (s : SharedPartition Thread Payload) (_ : SharedAction Thread Payload)
    (s' : SharedPartition Thread Payload) : Prop :=
  ∃ e, s.partition.events = e :: s'.partition.events

/-- Events are pending and somebody is on the way to them. -/
structure Due (s : SharedPartition Thread Payload) : Prop where
  valid : s.partition.Valid
  attended : Attended s
  pending : s.partition.events ≠ []
  coming : (∃ c timedOut, s.place c = .roused timedOut) ∨
    (∃ c, s.place c = .notifying) ∧ ∃ d, s.place d = .blocked

omit [DecidableEq Thread] in
theorem Due.size_ne (due : Due s) : s.partition.size ≠ 0 := by
  rw [due.valid.size_eq]
  exact mt List.length_eq_zero_iff.mp due.pending

omit [DecidableEq Thread] in
theorem Due.free (due : Due s) : s.owner = none := by
  by_contra held
  exact due.size_ne (due.attended.empty held)

theorem Due.next (due : Due s) (h : guarded (step merger) prompt s a = some s') :
    Takes s a s' ∨
      (Due s' ∧ howMany isNotifying s'.place + 1 < howMany isNotifying s.place + 1) := by
  obtain ⟨allowed, h⟩ := guarded_eq_some.mp h
  have attended := due.attended.step h
  cases step_steps h with
  | notified c d notifying blocked =>
    have apart : d ≠ c := fun same => by simp [same, notifying] at blocked
    have first := howMany_update isNotifying s.place c .out
    have second := howMany_update isNotifying (s.move c .out).place d
      (.roused false)
    refine .inr ⟨⟨due.valid, attended, due.pending, .inl ⟨d, false, by simp [move]⟩⟩, ?_⟩
    simp only [notifying, isNotifying, Bool.toNat_true, Bool.toNat_false] at first
    simp only [move, Function.update_of_ne apart, blocked, isNotifying, Bool.toNat_false]
      at second ⊢
    omega
  | unheard c notifying nobody =>
    have counts := howMany_update isNotifying s.place c .out
    refine .inr ⟨⟨due.valid, attended, due.pending, ?_⟩, ?_⟩
    · rcases due.coming with ⟨d, timedOut, roused⟩ | ⟨-, d, blocked⟩
      · have apart : d ≠ c := fun same => by simp [same, notifying] at roused
        exact .inl ⟨d, timedOut, by simp [move, apart, roused]⟩
      · exact absurd blocked (nobody d)
    · simp only [notifying, isNotifying, Bool.toNat_true, Bool.toNat_false] at counts
      simp only [move]
      omega
  | popped c a result after from' free pops =>
    left
    cases head : s.partition.events with
    | nil => exact absurd head due.pending
    | cons e rest =>
      obtain ⟨after', runs, -, -, tail⟩ := Partition.popLocked_head due.valid head
      cases pops.symm.trans runs
      exact ⟨e, head.trans (by rw [tail])⟩
  | checked c a from' free none => exact absurd none due.size_ne
  | _ => cases allowed

theorem Due.enabled (due : Due s) : ∃ a s', guarded (step merger) prompt s a = some s' := by
  rcases due.coming with ⟨c, timedOut, roused⟩ | ⟨⟨c, notifying⟩, d, blocked⟩
  · obtain ⟨result, after, pops, -⟩ := Partition.popLocked_valid due.valid
    have ready : s.ready = true := by simp [ready, due.size_ne]
    refine ⟨.resume c, { s.move c .out with partition := after },
      guarded_eq_some.mpr ⟨rfl, ?_⟩⟩
    simp [step, roused, due.free, evaluate, ready, popLocked, pops]
  · refine ⟨.notify c (some d), (s.move c .out).move d (.roused false),
      guarded_eq_some.mpr ⟨rfl, ?_⟩⟩
    simp only [step, notifying, blocked, if_true]

/-- The first event is taken after one step for each notification that is due and one more. -/
theorem taken_within {p : Partition Payload} {running : Bool} {capacity : Nat}
    (built : Partition.construct capacity = .ok p)
    (reached : Reachable (guarded (step merger) (recovers merger)) (idle p running) s)
    (asleep : ∃ c, s.place c = .blocked) (pending : s.partition.events ≠ [])
    {as : List (SharedAction Thread Payload)}
    (runs : run (guarded (step merger) prompt) s as = some s') :
    Meets (guarded (step merger) prompt) Takes s as ∨
      (as.length ≤ howMany isNotifying s.place ∧
        ∃ a r, guarded (step merger) prompt s' a = some r) := by
  have attended := attended_reachable reached.of_guarded
  have valid := valid_reachable built reached
  have some' : 0 < howMany coming s.place :=
    (List.length_pos_iff.mpr pending).trans_le (attended.pending_le valid asleep)
  obtain ⟨c, here⟩ := howMany_pos.mp some'
  have due : Due s := by
    refine ⟨valid, attended, pending, ?_⟩
    cases hc : s.place c with
    | notifying => exact .inr ⟨⟨c, hc⟩, asleep⟩
    | roused timedOut => exact .inl ⟨c, timedOut, hc⟩
    | _ => simp [hc, coming] at here
  let rank := fun r : SharedPartition Thread Payload => howMany isNotifying r.place + 1
  have next : ∀ r a r', Due r → guarded (step merger) prompt r a = some r' →
      Takes r a r' ∨ (Due r' ∧ rank r' < rank r) := fun r a r' kept moves => kept.next moves
  have progress := bounded_progress next (fun _ _ => Nat.succ_pos _) (fun r kept => kept.enabled)
    due runs
  exact progress.imp_right (And.imp_left Nat.lt_succ_iff.mp)

theorem sampleAsleep_taken :
    Meets (guarded (step latest) prompt) Takes sampleAsleep
      [.notify true (some false), .resume false] := by
  have built : Partition.construct 2 = .ok sampleRoom := rfl
  have pending : sampleAsleep.partition.events ≠ [] := by decide +kernel
  have runs : ∃ r, run (guarded (step latest) prompt) sampleAsleep
      [.notify true (some false), .resume false] = some r := ⟨_, rfl⟩
  obtain ⟨r, runs⟩ := runs
  have taken := taken_within built sampleAsleep_reached ⟨false, by decide +kernel⟩ pending runs
  exact taken.resolve_right fun few => absurd few.1 (by decide +kernel)

/-! ## `wake_all` -/

/-- The flag is not set again. -/
def staysStopped (_ : SharedPartition Thread Payload) : SharedAction Thread Payload → Bool
  | .setRunning value => !value
  | _ => true

/-- Asleep, or about to be. -/
def Drowsy (x : WaitPlace) : Prop := x = .checked ∨ x = .blocked

omit [Fintype Thread] in
theorem drowsy_move {c d : Thread} {x : WaitPlace} (after : Drowsy x → Drowsy (s.place c))
    (h : Drowsy ((s.move c x).place d)) : Drowsy (s.place d) := by
  by_cases same : d = c
  · subst same
    exact after (by simpa [move] using h)
  · simpa [move, same] using h

/-- A wait that reads the cleared flag does not block. -/
theorem drowsy_step (stopped : s.running = false) (allowed : s.staysStopped a = true)
    (h : step merger s a = some s') :
    s'.running = false ∧ ∀ d, Drowsy (s'.place d) → Drowsy (s.place d) := by
  cases step_steps h with
  | pushed c fault event outcome after x out free runs next =>
    refine ⟨stopped, fun d => drowsy_move ?_⟩
    rcases next with ⟨rfl, -⟩ | ⟨rfl, -⟩ <;> simp [Drowsy]
  | notified c d notifying blocked =>
    exact ⟨stopped, fun e h => drowsy_move (by simp [Drowsy]) (drowsy_move (by simp [Drowsy]) h)⟩
  | unheard c notifying nobody => exact ⟨stopped, fun d => drowsy_move (by simp [Drowsy])⟩
  | popped c a result after from' free pops =>
    exact ⟨stopped, fun d => drowsy_move (by simp [Drowsy])⟩
  | checked c a from' free none running => cases running.symm.trans stopped
  | blocks c here => exact ⟨stopped, fun d => drowsy_move (by simp [Drowsy, here])⟩
  | roused c timedOut here => exact ⟨stopped, fun d => drowsy_move (by simp [Drowsy])⟩
  | wokeAll =>
    refine ⟨stopped, fun d place => ?_⟩
    cases hd : s.place d <;> simp [hd, unblocked, Drowsy] at place ⊢
  | set value => exact ⟨by simpa [staysStopped] using allowed, fun d place => place⟩

/-- After the flag is cleared and `wake_all` has run, only a thread that held the mutex at
that moment, between its predicate and its block, can be asleep. -/
theorem wake_all_misses_one {p : Partition Payload} {running : Bool}
    {s'' : SharedPartition Thread Payload}
    (reached : Reachable (step merger) (idle p running) s) (stopped : s.running = false)
    (wakes : step merger s .wakeAll = some s')
    (later : Reachable (guarded (step merger) staysStopped) s' s'') (c : Thread)
    (asleep : s''.place c = .blocked) : s.owner = some c := by
  have missed : s''.running = false ∧
      ∀ d, Drowsy (s''.place d) → s.owner = some d := by
    clear asleep
    induction later with
    | start =>
      cases wakes
      refine ⟨stopped, fun d place => ((attended_reachable reached).owner d).mp ?_⟩
      cases hd : s.place d <;> simp [hd, unblocked, Drowsy] at place ⊢
    | next r a r' _ moves inv =>
      obtain ⟨allowed, moves⟩ := guarded_eq_some.mp moves
      obtain ⟨stopped', drowsy⟩ := drowsy_step inv.1 allowed moves
      exact ⟨stopped', fun d place => inv.2 d (drowsy d place)⟩
  exact missed.2 c (.inr asleep)

/-- A thread is about to block when the flag is cleared and everybody is woken. -/
def sampleStop : List (SharedAction Bool Nat) := [.waitPopFor false, .setRunning false]

def sampleStopping : SharedPartition Bool Nat :=
  (run (step latest) (idle sampleRoom true) sampleStop).getD (idle sampleRoom true)

def sampleWoken : SharedPartition Bool Nat :=
  (step latest sampleStopping .wakeAll).getD sampleStopping

def sampleMissed : SharedPartition Bool Nat :=
  (step latest sampleWoken (.block false)).getD sampleWoken

theorem sampleMissed_missed : sampleStopping.owner = some false := by
  have reached : Reachable (step latest) (idle sampleRoom true) sampleStopping := ⟨sampleStop, rfl⟩
  have wakes : step latest sampleStopping .wakeAll = some sampleWoken := rfl
  have later : Reachable (guarded (step latest) staysStopped) sampleWoken sampleMissed :=
    ⟨[.block false], rfl⟩
  exact wake_all_misses_one reached rfl wakes later false (by decide +kernel)

end SharedPartition

end Yellowstone
