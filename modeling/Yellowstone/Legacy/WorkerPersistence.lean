import Mathlib.Data.List.Count
import Yellowstone.Library.Machine

/-!
# The write-behind buffer of a worker

`persist` buffers events and `flush` stores them; both swallow what is thrown. Where the backend
throws is a choice of each call, and so is whether the buffer can grow. `disk` lists the stores
that returned; `accepted` and `failures` are no members of `Worker`.
-/

set_option autoImplicit false

namespace Yellowstone.Legacy

open Machine

variable {PersistedEvent : Type}

structure Worker (PersistedEvent : Type) where
  pendingEvents : List PersistedEvent
  nextEventId : Nat
  disk : List (Nat × PersistedEvent)
  accepted : List PersistedEvent
  failures : Nat

inductive WorkerCall (PersistedEvent : Type) where
  /-- The store with this number in the batch throws, if one is flushed. -/
  | persist (event : PersistedEvent) (grows : Bool) (throws : Option Nat)
  | flush (throws : Option Nat)

namespace Worker

def new : Worker PersistedEvent := ⟨[], 0, [], [], 0⟩

def stored (w : Worker PersistedEvent) (event : PersistedEvent) : Worker PersistedEvent :=
  { w with
    nextEventId := w.nextEventId + 1
    disk := w.disk ++ [(w.nextEventId, event)] }

/-- The loop of `flush`; an identifier is drawn also for the store that throws. -/
def storeAll (w : Worker PersistedEvent) :
    List PersistedEvent → Option Nat → Bool × Worker PersistedEvent
  | [], _ => (true, w)
  | _ :: _, some 0 => (false, { w with nextEventId := w.nextEventId + 1 })
  | event :: events, throws => (w.stored event).storeAll events (throws.map (· - 1))

def flush (w : Worker PersistedEvent) (throws : Option Nat) : Worker PersistedEvent :=
  match w.storeAll w.pendingEvents throws with
  | (true, w) => { w with pendingEvents := [] }
  | (false, w) => { w with failures := w.failures + 1 }

def persist (w : Worker PersistedEvent) (kPersistenceBatchSize : Nat) (event : PersistedEvent)
    (grows : Bool) (throws : Option Nat) : Worker PersistedEvent :=
  if grows then
    let w := { w with
      pendingEvents := w.pendingEvents ++ [event], accepted := w.accepted ++ [event] }
    if w.pendingEvents.length ≥ kPersistenceBatchSize then w.flush throws else w
  else w

def step (kPersistenceBatchSize : Nat) (w : Worker PersistedEvent) :
    WorkerCall PersistedEvent → Option (Worker PersistedEvent)
  | .persist event grows throws => some (w.persist kPersistenceBatchSize event grows throws)
  | .flush throws => some (w.flush throws)

variable {w w' : Worker PersistedEvent} {kPersistenceBatchSize : Nat}

def diskEvents (w : Worker PersistedEvent) : List PersistedEvent := w.disk.map Prod.snd

/-- Identifiers rise, and the next one is above them. -/
structure Numbered (disk : List (Nat × PersistedEvent)) (nextEventId : Nat) : Prop where
  rising : (disk.map Prod.fst).Pairwise (· < ·)
  below : ∀ e ∈ disk, e.1 < nextEventId

theorem Numbered.next {disk : List (Nat × PersistedEvent)} {nextEventId : Nat}
    (inv : Numbered disk nextEventId) (event : PersistedEvent) :
    Numbered (disk ++ [(nextEventId, event)]) (nextEventId + 1) := by
  refine ⟨?_, fun e he => ?_⟩
  · simp only [List.map_append, List.map_cons, List.map_nil]
    refine List.pairwise_append.mpr ⟨inv.rising, List.pairwise_singleton _ _, ?_⟩
    intro i hi j hj
    obtain ⟨e, he, rfl⟩ := List.mem_map.mp hi
    exact List.mem_singleton.mp hj ▸ inv.below e he
  · rcases List.mem_append.mp he with he | he
    · exact Nat.lt_succ_of_lt (inv.below e he)
    · exact List.mem_singleton.mp he ▸ Nat.lt_succ_self _

/-- What the loop of `flush` does to a batch: the events before the one whose store throws, or
all of them, are stored in their order. -/
structure Stores (w : Worker PersistedEvent) (events : List PersistedEvent) (all : Bool)
    (w' : Worker PersistedEvent) : Prop where
  same : w'.pendingEvents = w.pendingEvents ∧ w'.accepted = w.accepted ∧ w'.failures = w.failures
  numbered : Numbered w.disk w.nextEventId → Numbered w'.disk w'.nextEventId
  done : ∃ done rest, events = done ++ rest ∧ w'.diskEvents = w.diskEvents ++ done ∧
    (all = true → rest = [])

theorem storeAll_stores (events : List PersistedEvent) (w : Worker PersistedEvent)
    (throws : Option Nat) : Stores w events (w.storeAll events throws).1
      (w.storeAll events throws).2 := by
  fun_induction storeAll w events throws with
  | case1 w throws => exact ⟨⟨rfl, rfl, rfl⟩, id, [], [], rfl, by simp, fun _ => rfl⟩
  | case2 w event events =>
    refine ⟨⟨rfl, rfl, rfl⟩, fun inv => ⟨inv.rising, fun e he => ?_⟩, [], _, rfl,
      by simp [diskEvents], by simp⟩
    exact Nat.lt_succ_of_lt (inv.below e he)
  | case3 w event events throws _ ih =>
    obtain ⟨same, numbered, done, rest, batch, disk, all⟩ := ih
    refine ⟨same, fun inv => numbered (inv.next event), event :: done, rest, ?_, ?_, all⟩
    · rw [batch]
      rfl
    · simpa [diskEvents, stored] using disk

section Counts
variable [DecidableEq PersistedEvent]

/-- `settled` are the events that have left the buffer. -/
structure Kept (w : Worker PersistedEvent) (settled : List PersistedEvent) : Prop where
  numbered : Numbered w.disk w.nextEventId
  accepted : w.accepted = settled ++ w.pendingEvents
  onDisk : settled.Sublist w.diskEvents
  copies : ∀ e, w.diskEvents.count e ≤
    (w.failures + 1) * settled.count e + w.failures * w.pendingEvents.count e
  unbroken : w.failures = 0 → w.diskEvents = settled

theorem Kept.flush {settled : List PersistedEvent} (inv : Kept w settled)
    (throws : Option Nat) : ∃ settled', Kept (w.flush throws) settled' := by
  have stores := storeAll_stores w.pendingEvents w throws
  unfold Worker.flush
  split
  · rename_i u loop
    rw [loop] at stores
    obtain ⟨⟨-, accepted, failures⟩, numbered, done, rest, batch, disk, all⟩ := stores
    rw [all rfl, List.append_nil] at batch
    subst batch
    refine ⟨settled ++ w.pendingEvents, numbered inv.numbered, ?_, ?_, fun e => ?_, fun none => ?_⟩
    · simpa using accepted.trans inv.accepted
    · exact disk ▸ inv.onDisk.append (List.Sublist.refl _)
    · have before := inv.copies e
      change u.diskEvents.count e ≤ (u.failures + 1) * (settled ++ w.pendingEvents).count e + _
      rw [disk, failures, List.count_append, List.count_append]
      simp only [List.count_nil, Nat.mul_zero, Nat.mul_add, Nat.add_mul, Nat.one_mul] at before ⊢
      omega
    · exact disk.trans (congrArg (· ++ _) (inv.unbroken (failures ▸ none)))
  · rename_i u loop
    rw [loop] at stores
    obtain ⟨⟨pending, accepted, failures⟩, numbered, done, rest, batch, disk, -⟩ := stores
    refine ⟨settled, numbered inv.numbered, ?_, ?_, fun e => ?_, nofun⟩
    · exact accepted.trans (pending ▸ inv.accepted)
    · exact disk ▸ inv.onDisk.trans (List.sublist_append_left _ _)
    · have before := inv.copies e
      have part : done.count e ≤ w.pendingEvents.count e := by
        rw [batch, List.count_append]
        exact Nat.le_add_right _ _
      change u.diskEvents.count e ≤ (u.failures + 1 + 1) * settled.count e +
        (u.failures + 1) * u.pendingEvents.count e
      rw [disk, failures, pending, List.count_append]
      simp only [Nat.add_mul, Nat.one_mul] at before ⊢
      omega

theorem Kept.step {settled : List PersistedEvent} (inv : Kept w settled)
    {call : WorkerCall PersistedEvent} (h : step kPersistenceBatchSize w call = some w') :
    ∃ settled', Kept w' settled' := by
  cases call with
  | flush throws =>
    cases h
    exact inv.flush throws
  | persist event grows throws =>
    cases h
    unfold persist
    split
    · have buffered : Kept { w with
          pendingEvents := w.pendingEvents ++ [event]
          accepted := w.accepted ++ [event] } settled := by
        refine ⟨inv.numbered, ?_, inv.onDisk, fun e => ?_, inv.unbroken⟩
        · rw [inv.accepted, List.append_assoc]
        · refine Nat.le_trans (inv.copies e) (Nat.add_le_add_left (Nat.mul_le_mul_left _ ?_) _)
          rw [List.count_append]
          exact Nat.le_add_right _ _
      dsimp only
      split
      · exact buffered.flush throws
      · exact ⟨settled, buffered⟩
    · exact ⟨settled, inv⟩

/-- Every accepted event is in the buffer or on disk, in the order of acceptance, under
identifiers that rise. For each write that failed there can be one more copy of it on disk;
if none failed there is exactly one. -/
theorem stores_at_least_once (reached : Reachable (step kPersistenceBatchSize) new w) :
    ∃ settled, w.accepted = settled ++ w.pendingEvents ∧ settled.Sublist w.diskEvents ∧
      (w.disk.map Prod.fst).Pairwise (· < ·) ∧
      (∀ e, w.diskEvents.count e ≤ (w.failures + 1) * w.accepted.count e) ∧
      (w.failures = 0 → w.diskEvents = settled) := by
  have inv : ∃ settled, Kept w settled := by
    induction reached with
    | start =>
      refine ⟨[], ⟨?_, nofun⟩, rfl, List.Sublist.refl _, fun e => ?_, fun _ => rfl⟩
      · simp [new]
      · simp [new, diskEvents]
    | next r a r' _ moves inv =>
      obtain ⟨settled, inv⟩ := inv
      exact inv.step moves
  obtain ⟨settled, numbered, accepted, onDisk, copies, unbroken⟩ := inv
  refine ⟨settled, accepted, onDisk, numbered.rising, fun e => ?_, unbroken⟩
  have bound := copies e
  rw [accepted, List.count_append, Nat.mul_add]
  simp only [Nat.add_mul, Nat.one_mul] at bound ⊢
  omega

/-- The second of two stores throws; then both succeed. -/
def sampleCalls : List (WorkerCall String) :=
  [.persist "a" true none, .persist "b" true (some 1), .flush none]

def sampleWorker : Worker String := (run (step 2) new sampleCalls).getD new

theorem sampleWorker_stores :
    (∃ settled, sampleWorker.accepted = settled ++ sampleWorker.pendingEvents ∧
      settled.Sublist sampleWorker.diskEvents ∧
      (sampleWorker.disk.map Prod.fst).Pairwise (· < ·) ∧
      (∀ e, sampleWorker.diskEvents.count e ≤
        (sampleWorker.failures + 1) * sampleWorker.accepted.count e) ∧
      (sampleWorker.failures = 0 → sampleWorker.diskEvents = settled)) ∧
      sampleWorker.disk = [(0, "a"), (2, "a"), (3, "b")] := by
  have reached : Reachable (step 2) new sampleWorker := ⟨sampleCalls, rfl⟩
  exact ⟨stores_at_least_once reached, by decide +kernel⟩

end Counts

end Worker

end Yellowstone.Legacy
