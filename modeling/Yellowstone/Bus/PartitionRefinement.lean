import Yellowstone.Bus.PartitionInvariant

/-!
# `Partition` refines one list in insertion order

The reference queue has no levels, no index and no counter: a list of events in the order
of insertion, searched from the front. Both machines give the same answers to every
sequence of calls.
-/

set_option autoImplicit false

namespace Yellowstone

open Throwing

inductive PartitionCall (Payload : Type) where
  | canAccept (event : Event Payload)
  | push (event : Event Payload)
  | pop
  | empty
  | size
deriving DecidableEq, Repr

inductive PartitionAnswer (Payload : Type) where
  | accepts (answer : Bool)
  | pushed (result : PushResult)
  | popped (event : Option (Event Payload))
  | isEmpty (answer : Bool)
  | count (n : Nat)
deriving DecidableEq, Repr

namespace Partition
variable {Payload : Type}

def perform (merger : Merger Payload) :
    PartitionCall Payload → PartitionProg Payload (PartitionAnswer Payload)
  | .canAccept event => .accepts <$> canAccept event
  | .push event => .pushed <$> push merger (fun _ => none) event
  | .pop => .popped <$> popLocked
  | .empty => .isEmpty <$> empty
  | .size => (fun p => .count p.size) <$> get

def performAll (merger : Merger Payload) : Partition Payload → List (PartitionCall Payload) →
    List (Except Failure (PartitionAnswer Payload))
  | _, [] => []
  | p, call :: calls =>
    let (answer, p') := exec (perform merger call) p
    answer :: performAll merger p' calls

end Partition

/-- The events of a partition, in insertion order. -/
abbrev ReferenceQueue (Payload : Type) := List (Event Payload)

namespace ReferenceQueue
variable {Payload : Type} (capacity : Nat) (merge : Payload → Payload → Payload)

def push (q : ReferenceQueue Payload) (event : Event Payload) :
    PushResult × ReferenceQueue Payload :=
  if q.any fun e => e.key = event.key then
    (.coalesced, q.map fun e =>
      if e.key = event.key then { e with payload := merge e.payload event.payload } else e)
  else if q.length = capacity then (.full, q)
  else (.inserted, q ++ [event])

/-- The first event among those with minimal superstep. -/
def pop (q : ReferenceQueue Payload) : Option (Event Payload) × ReferenceQueue Payload :=
  (StableQueue.firstLeast Event.superstep q, StableQueue.dropFirstLeast Event.superstep q)

def perform (q : ReferenceQueue Payload) :
    PartitionCall Payload → PartitionAnswer Payload × ReferenceQueue Payload
  | .canAccept event => (.accepts (decide ((push capacity merge q event).1 ≠ .full)), q)
  | .push event => let (result, q') := push capacity merge q event; (.pushed result, q')
  | .pop => let (event, q') := pop q; (.popped event, q')
  | .empty => (.isEmpty (decide (q.length = 0)), q)
  | .size => (.count q.length, q)

def performAll : ReferenceQueue Payload → List (PartitionCall Payload) →
    List (PartitionAnswer Payload)
  | _, [] => []
  | q, call :: calls =>
    let (answer, q') := perform capacity merge q call
    answer :: performAll q' calls

end ReferenceQueue

namespace Partition
variable {Payload : Type} {merge : Payload → Payload → Payload} {p : Partition Payload}
  {q : ReferenceQueue Payload}

/-- The levels hold the queue's events, stably sorted by superstep. -/
structure Refines (p : Partition Payload) (q : ReferenceQueue Payload) : Prop where
  valid : Valid p
  agree : StableQueue.Agree Event.superstep p.events q

theorem Refines.any_key (h : Refines p q) (k : Key) :
    (q.any fun e => e.key = k) = (p.index.lookup k).isSome := by
  rw [Bool.eq_iff_iff, List.any_eq_true, Option.isSome_iff_ne_none, Ne, h.valid.lookup_none]
  push Not
  exact exists_congr fun e => by simp [h.agree.perm.mem_iff]

theorem Refines.length (h : Refines p q) : q.length = p.size := by
  rw [h.valid.size_eq, h.agree.perm.length_eq]

theorem push_refines (merge : Payload → Payload → Payload) (h : Refines p q)
    (event : Event Payload) :
    ∃ p', exec (push (.ofFun merge) (fun _ => none) event) p =
        (.ok (ReferenceQueue.push p.capacity merge q event).1, p') ∧
      p'.capacity = p.capacity ∧ Refines p' (ReferenceQueue.push p.capacity merge q event).2 := by
  unfold ReferenceQueue.push
  rw [h.any_key]
  cases found : p.index.lookup event.key with
  | some position =>
    obtain ⟨stored, hs, hk⟩ := h.valid.lookup_index.mp found
    obtain ⟨p', run, valid, capacity, events⟩ := push_coalesced (.ofFun merge)
      (fun _ => none) h.valid (mem_events.mpr ⟨_, hs⟩) hk
    exact ⟨p', run, capacity, valid, events ▸ h.agree.map fun e => superstep_absorb ..⟩
  | none =>
    rw [h.length]
    by_cases full : p.size = p.capacity
    · rw [if_pos full]
      exact ⟨p, push_full _ _ found full.ge, rfl, h⟩
    · rw [if_neg full]
      obtain ⟨p', run, valid, capacity, events⟩ := push_inserted (.ofFun merge) h.valid
        found (lt_of_le_of_ne h.valid.bounded full)
      exact ⟨p', run, capacity, valid, events ▸ h.agree.enqueue h.valid.sorted event⟩

theorem accepts_refines (h : Refines p q) (event : Event Payload) :
    ((p.index.lookup event.key).isSome || decide (p.size < p.capacity)) =
      decide ((ReferenceQueue.push p.capacity merge q event).1 ≠ .full) := by
  unfold ReferenceQueue.push
  rw [h.any_key, h.length]
  cases found : p.index.lookup event.key with
  | some position => simp
  | none =>
    have bounded := h.valid.bounded
    by_cases full : p.size = p.capacity
    · simp [full]
    · simp [full, lt_of_le_of_ne bounded full]

theorem pop_refines (h : Refines p q) :
    ∃ p', exec popLocked p = (.ok (ReferenceQueue.pop q).1, p') ∧ p'.capacity = p.capacity ∧
      Refines p' (ReferenceQueue.pop q).2 := by
  cases events : p.events with
  | nil =>
    have agree := h.agree
    rw [events] at agree
    obtain rfl : q = [] := List.nil_perm.mp agree.perm
    exact ⟨p, popLocked_empty h.valid events, rfl, h⟩
  | cons event rest =>
    have agree := h.agree
    have sorted := h.valid.sorted
    rw [events] at agree sorted
    obtain ⟨served, left⟩ := agree.serve sorted
    obtain ⟨p', run, valid, capacity, events'⟩ := popLocked_head h.valid events
    exact ⟨p', by rw [run, ReferenceQueue.pop, served], capacity, valid, events' ▸ left⟩

theorem step_refines (merge : Payload → Payload → Payload) (h : Refines p q)
    (call : PartitionCall Payload) :
    ∃ p', exec (perform (.ofFun merge) call) p =
        (.ok (ReferenceQueue.perform p.capacity merge q call).1, p') ∧
      p'.capacity = p.capacity ∧ Refines p' (ReferenceQueue.perform p.capacity merge q call).2 := by
  cases call with
  | canAccept event =>
    refine ⟨p, ?_, rfl, h⟩
    simp [perform, exec_canAccept, ReferenceQueue.perform, ← accepts_refines h]
  | push event =>
    obtain ⟨p', run, rest⟩ := push_refines merge h event
    exact ⟨p', by simp [perform, run, ReferenceQueue.perform], rest⟩
  | pop =>
    obtain ⟨p', run, rest⟩ := pop_refines h
    exact ⟨p', by simp [perform, run, ReferenceQueue.perform], rest⟩
  | empty =>
    refine ⟨p, ?_, rfl, h⟩
    rw [ReferenceQueue.perform, h.length]
    rfl
  | size =>
    refine ⟨p, ?_, rfl, h⟩
    rw [ReferenceQueue.perform, h.length]
    rfl

theorem run_refines (h : Refines p q) (calls : List (PartitionCall Payload)) :
    performAll (.ofFun merge) p calls =
      (ReferenceQueue.performAll p.capacity merge q calls).map .ok := by
  induction calls generalizing p q with
  | nil => rfl
  | cons call calls ih =>
    obtain ⟨p', run, capacity, next⟩ := step_refines merge h call
    have rest := ih next
    rw [capacity] at rest
    rw [performAll, run, ReferenceQueue.performAll, List.map_cons, ← rest]

/-- Every partition that can be constructed answers as the reference queue does, which has
nothing to pop exactly when it is empty. -/
theorem partition_refines_queue {capacity : Nat} (h : construct capacity = .ok p)
    (merge : Payload → Payload → Payload) (calls : List (PartitionCall Payload)) :
    performAll (.ofFun merge) p calls =
        (ReferenceQueue.performAll capacity merge [] calls).map .ok ∧
      ∀ q : ReferenceQueue Payload, (ReferenceQueue.pop q).1 = none ↔ q = [] := by
  obtain ⟨valid, rfl, events⟩ := valid_construct h
  refine ⟨run_refines ⟨valid, by rw [events]; exact fun _ => rfl⟩ calls, fun q => ?_⟩
  exact StableQueue.firstLeast_eq_none

/-- Two levels, a key queued twice, and a full partition that still coalesces. -/
def sampleCalls : List (PartitionCall (List Nat)) :=
  [.push ⟨1, 2, 0, [1]⟩, .push ⟨2, 1, 1, [2]⟩, .canAccept ⟨3, 1, 2, [3]⟩, .push ⟨3, 1, 2, [3]⟩,
    .push ⟨2, 1, 3, [4]⟩, .size, .pop, .pop, .pop, .empty]

theorem sampleCalls_refine_queue :
    performAll (.ofFun (· ++ ·)) ⟨2, [], [], 0, 0⟩ sampleCalls =
        [.ok (.pushed .inserted), .ok (.pushed .inserted), .ok (.accepts false),
          .ok (.pushed .full), .ok (.pushed .coalesced), .ok (.count 2),
          .ok (.popped (some ⟨2, 1, 1, [2, 4]⟩)),
          .ok (.popped (some ⟨1, 2, 0, [1]⟩)), .ok (.popped none), .ok (.isEmpty true)] ∧
      performAll (.ofFun (· ++ ·)) ⟨2, [], [], 0, 0⟩ sampleCalls =
        (ReferenceQueue.performAll 2 (· ++ ·) [] sampleCalls).map .ok :=
  ⟨rfl, (partition_refines_queue rfl (· ++ ·) sampleCalls).1⟩

end Partition

end Yellowstone
