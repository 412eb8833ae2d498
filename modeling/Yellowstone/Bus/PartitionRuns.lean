import Mathlib.Algebra.GroupWithZero.Nat
import Yellowstone.Bus.PartitionRefinement
import Yellowstone.Library.Machine

/-!
# Runs of a partition, with calls that throw

The calls that write a partition, in any order. A push that throws keeps what it wrote
before; whether the partition is still in order then depends on the point that threw.
-/

set_option autoImplicit false

namespace Yellowstone

open Machine Throwing

/-- A call that writes. The merger and the points that throw may differ from push to push;
`wait_pop_for` gives the mutex back while it waits, and pops when the wait has ended. -/
inductive PartitionAction (Payload : Type) where
  | push (merger : Merger Payload) (fault : PushPoint → Option Exn) (event : Event Payload)
  | pop
  | waitPopFor

namespace Partition
variable {Payload : Type}

def performAction : PartitionAction Payload → PartitionProg Payload (PartitionAnswer Payload)
  | .push merger fault event => .pushed <$> push merger fault event
  | .pop => .popped <$> popLocked
  | .waitPopFor => .popped <$> popLocked

/-- Every call ends, and what it wrote stays, however it ended. -/
def step (p : Partition Payload) (a : PartitionAction Payload) : Option (Partition Payload) :=
  some (exec (performAction a) p).2

/-- Neither the merger nor an allocation or a copy throws. -/
def returns (p : Partition Payload) (a : PartitionAction Payload) : Bool :=
  match (exec (performAction a) p).1 with
  | .error (.thrown _) => false
  | _ => true

/-- The representation invariant, field by field. -/
structure WellFormed (p : Partition Payload) : Prop where
  levels : (p.levels.map Prod.fst).Pairwise (· < ·)
  nonempty : ∀ l ∈ p.levels, l.2 ≠ []
  own : ∀ l ∈ p.levels, ∀ node ∈ l.2, node.2.superstep = l.1
  keys : (p.events.map Event.key).Nodup
  positions : (p.entries.map Prod.fst).Nodup
  index : (p.index.map Prod.fst).Nodup
  indexed : ∀ key position, (key, position) ∈ p.index ↔
    ∃ event, (position, event) ∈ p.entries ∧ event.key = key
  sizeLevels : p.size = (p.levels.map fun l => l.2.length).sum
  sizeIndex : p.size = p.index.length
  bounded : p.size ≤ p.capacity

variable {p : Partition Payload}

theorem Valid.wellFormed (h : Valid p) : p.WellFormed where
  levels := List.pairwise_map.mpr h.levelled.sorted
  nonempty := h.nonempty
  own := h.levelled.own
  keys := h.keys
  positions := h.positions
  index := h.nodup_index
  indexed := by
    intro key position
    rw [← h.lookup_index, lookup_eq_some_iff_mem h.nodup_index]
  sizeLevels := by
    rw [h.counted, entries, flatten, List.length_flatMap]
  sizeIndex := by
    rw [h.counted, h.indexed.length_eq, List.length_map]
  bounded := h.bounded

/-! ## Where a push throws -/

/-- The first point of an inserting push that throws. -/
def throwsAt (p : Partition Payload) (fault : PushPoint → Option Exn) (event : Event Payload) :
    Option (PushPoint × Exn) :=
  match (p.levels.lookup event.superstep).isNone, fault .level, fault .append, fault .index with
  | true, some e, _, _ => some (.level, e)
  | _, _, some e, _ => some (.append, e)
  | _, _, _, some e => some (.index, e)
  | _, _, _, none => none

theorem push_absent (merger : Merger Payload) (fault : PushPoint → Option Exn)
    {event : Event Payload} (absent : p.index.lookup event.key = none)
    (room : p.size < p.capacity) :
    exec (push merger fault event) p =
      match p.throwsAt fault event with
      | some (.level, e) => (.error (.thrown e), p)
      | some (.append, e) =>
        (.error (.thrown e), { p with levels := levelFor event.superstep p.levels })
      | some (.index, e) => (.error (.thrown e), { p with
          levels := pushBack event.superstep (p.nextPosition, event)
            (levelFor event.superstep p.levels)
          nextPosition := p.nextPosition + 1 })
      | none => exec (push merger (fun _ => none) event) p := by
  have notFull : ¬p.size ≥ p.capacity := not_le.mpr room
  simp only [push, exec_bind, exec_get, absent, notFull, if_false, throwsAt, levelFor]
  cases (p.levels.lookup event.superstep).isNone <;> cases fault .level <;>
    cases fault .append <;> cases fault .index <;>
    simp [mayThrow, exec_bind]

/-- The first point to throw is not the append to a level that this push has made, and not the
insertion into the index. A push that does not insert passes none of these points. -/
def recovers (p : Partition Payload) : PartitionAction Payload → Bool
  | .push _ fault event =>
    (p.index.lookup event.key).isSome || decide (p.capacity ≤ p.size) ||
      match p.throwsAt fault event with
      | some (.append, _) => (p.levels.lookup event.superstep).isSome
      | some (.index, _) => false
      | _ => true
  | .pop => true
  | .waitPopFor => true

theorem Valid.absorb_absent (h : Valid p) (merger : Merger Payload) {event : Event Payload}
    (absent : p.index.lookup event.key = none) : p.events.map (absorb merger event) = p.events := by
  have others := h.lookup_none.mp absent
  exact (List.map_congr_left fun e he => absorb_of_ne (others e he)).trans (List.map_id _)

/-- What a push leaves, if the point at which it throws is one that it recovers from. -/
theorem push_recovers (h : Valid p) {merger : Merger Payload} {fault : PushPoint → Option Exn}
    {event : Event Payload} (recovers : p.recovers (.push merger fault event) = true) :
    ∃ outcome after, exec (push merger fault event) p = (outcome, after) ∧
      outcome ≠ .error .undefinedBehaviour ∧ Valid after ∧ after.capacity = p.capacity ∧
      ∀ e, outcome = .error (.thrown e) → after.events = p.events.map (absorb merger event) := by
  cases found : p.index.lookup event.key with
  | some position =>
    obtain ⟨stored, hs, hk⟩ := h.lookup_index.mp found
    obtain ⟨after, run, valid, capacity, events⟩ :=
      push_coalesced merger fault h (mem_events.mpr ⟨_, hs⟩) hk
    refine ⟨_, after, run, ?_, valid, capacity, fun _ _ => events⟩
    cases (merger stored.payload event.payload).2 <;> simp
  | none =>
    by_cases full : p.capacity ≤ p.size
    · exact ⟨_, p, push_full merger fault found full, by simp, h, rfl, by simp⟩
    · have run := push_absent merger fault found (not_le.mp full)
      simp only [Partition.recovers, found, full, Option.isSome_none, decide_false,
        Bool.or_self, Bool.false_or] at recovers
      cases point : p.throwsAt fault event with
      | none =>
        simp only [point] at run
        obtain ⟨after, inserts, valid, capacity, -⟩ :=
          push_inserted merger h found (not_le.mp full)
        exact ⟨_, after, run.trans inserts, by simp, valid, capacity, by simp⟩
      | some thrown =>
        obtain ⟨at', e⟩ := thrown
        rw [point] at run recovers
        cases at' with
        | level =>
          exact ⟨_, p, run, by simp, h, rfl, fun _ _ => (h.absorb_absent merger found).symm⟩
        | append =>
          -- the level was there before, so nothing has been written
          have same : levelFor event.superstep p.levels = p.levels := by
            simp [levelFor, Option.isSome_iff_ne_none.mp recovers]
          rw [same] at run
          exact ⟨_, p, run, by simp, h, rfl, fun _ _ => (h.absorb_absent merger found).symm⟩
        | index => cases recovers

theorem valid_push (h : Valid p) {merger : Merger Payload} {fault : PushPoint → Option Exn}
    {event : Event Payload} (recovers : p.recovers (.push merger fault event) = true)
    {outcome : Except Failure PushResult} {after : Partition Payload}
    (runs : exec (push merger fault event) p = (outcome, after)) : Valid after := by
  obtain ⟨_, after', runs', -, valid, -⟩ := push_recovers h recovers
  cases runs.symm.trans runs'
  exact valid

theorem popLocked_took (h : Valid p) (pending : p.size ≠ 0) :
    ∃ position event after, exec popLocked p = (.ok (some event), after) ∧ Valid after ∧
      after.capacity = p.capacity ∧ p.entries = (position, event) :: after.entries := by
  cases head : p.events with
  | nil => exact absurd (by rw [h.size_eq, head]; rfl) pending
  | cons event rest =>
    obtain ⟨after, run, valid, capacity, -⟩ := popLocked_head h head
    cases popLocked_runs run with
    | took superstep position _ level levels _ whole =>
      refine ⟨position, event, _, run, valid, capacity, ?_⟩
      rw [entries, entries, whole]
      by_cases last : level = []
      · simp [flatten, last]
      · simp [flatten, last]

theorem popLocked_valid (h : Valid p) : ∃ result after, exec popLocked p = (.ok result, after) ∧
    Valid after ∧ after.capacity = p.capacity := by
  by_cases nothing : p.size = 0
  · have empty : p.events = [] := List.length_eq_zero_iff.mp (h.size_eq ▸ nothing)
    exact ⟨none, p, popLocked_empty h empty, h, rfl⟩
  · obtain ⟨_, event, after, run, valid, capacity, -⟩ := popLocked_took h nothing
    exact ⟨some event, after, run, valid, capacity⟩

theorem valid_popLocked (h : Valid p) {result : Option (Event Payload)} {after : Partition Payload}
    (runs : exec popLocked p = (.ok result, after)) : Valid after := by
  obtain ⟨_, after', runs', valid, -⟩ := popLocked_valid h
  cases runs.symm.trans runs'
  exact valid

/-! ## Runs -/

theorem action_valid (h : Valid p) {a : PartitionAction Payload} (recovers : p.recovers a = true) :
    ∃ outcome after, exec (performAction a) p = (outcome, after) ∧
      outcome ≠ .error .undefinedBehaviour ∧ Valid after ∧ after.capacity = p.capacity := by
  have pops : ∃ outcome after,
      exec (PartitionAnswer.popped <$> popLocked : PartitionProg Payload _) p = (outcome, after) ∧
      outcome ≠ .error .undefinedBehaviour ∧ Valid after ∧ after.capacity = p.capacity := by
    obtain ⟨result, after, run, valid, capacity⟩ := popLocked_valid h
    exact ⟨.ok (.popped result), after, by simp [run], by simp, valid, capacity⟩
  cases a with
  | push merger fault event =>
    obtain ⟨outcome, after, run, defined, valid, capacity, -⟩ := push_recovers h recovers
    cases outcome with
    | ok result =>
      exact ⟨.ok (.pushed result), after, by simp [performAction, run], by simp, valid, capacity⟩
    | error e =>
      exact ⟨.error e, after, by simp [performAction, run], by simpa using defined, valid, capacity⟩
  | pop => exact pops
  | waitPopFor => exact pops

theorem valid_reachable {p₀ : Partition Payload} (h : Valid p₀)
    (reached : Reachable (guarded step recovers) p₀ p) : Valid p ∧ p.capacity = p₀.capacity := by
  induction reached with
  | start => exact ⟨h, rfl⟩
  | next r a r' _ moves ih =>
    obtain ⟨allowed, moves⟩ := guarded_eq_some.mp moves
    obtain ⟨_, after, run, -, valid, capacity⟩ := action_valid ih.1 allowed
    obtain rfl : after = r' := by
      rw [step, run] at moves
      exact Option.some.inj moves
    exact ⟨valid, capacity.trans ih.2⟩

theorem recovers_of_returns {a : PartitionAction Payload} (returns : p.returns a = true) :
    p.recovers a = true := by
  cases a with
  | push merger fault event =>
    by_contra lost
    simp only [recovers, Bool.or_eq_true, decide_eq_true_eq, not_or, not_le,
      Option.not_isSome_iff_eq_none] at lost
    obtain ⟨⟨absent, room⟩, point⟩ := lost
    have run := push_absent merger fault absent room
    cases first : p.throwsAt fault event with
    | none => simp [first] at point
    | some thrown =>
      obtain ⟨at', e⟩ := thrown
      cases at' <;> simp_all [Partition.returns, performAction]
  | pop => rfl
  | waitPopFor => rfl

theorem valid_of_returns {p₀ : Partition Payload} (h : Valid p₀)
    (reached : Reachable (guarded step returns) p₀ p) : Valid p ∧ p.capacity = p₀.capacity := by
  induction reached with
  | start => exact ⟨h, rfl⟩
  | next r a r' _ moves ih =>
    obtain ⟨allowed, moves⟩ := guarded_eq_some.mp moves
    have recovers := recovers_of_returns allowed
    obtain ⟨valid, capacity⟩ :=
      valid_reachable ih.1 (.next (.refl r) (guarded_eq_some.mpr ⟨recovers, moves⟩))
    exact ⟨valid, capacity.trans ih.2⟩

/-- As long as nothing throws, levels, index and counter agree, so that a pop finds a level with
an event and takes the index entry of this event away, and no call is undefined. -/
theorem wellFormed_reachable {capacity : Nat} {p₀ : Partition Payload}
    (built : construct capacity = .ok p₀) (reached : Reachable (guarded step returns) p₀ p) :
    p.WellFormed ∧ p.capacity = capacity ∧
      (∀ a, p.returns a = true → (exec (performAction a) p).1 ≠ .error .undefinedBehaviour) ∧
      (p.size ≠ 0 → ∃ position event after, exec popLocked p = (.ok (some event), after) ∧
        p.entries = (position, event) :: after.entries ∧
        p.index.Perm ((event.key, position) :: after.index) ∧ after.size + 1 = p.size) := by
  obtain ⟨valid₀, capacity₀, -⟩ := valid_construct built
  obtain ⟨valid, capacity⟩ := valid_of_returns valid₀ reached
  refine ⟨valid.wellFormed, capacity.trans capacity₀, ?_, ?_⟩
  · intro a returns
    obtain ⟨outcome, after, run, defined, -⟩ := action_valid valid (recovers_of_returns returns)
    rwa [run]
  · intro pending
    obtain ⟨position, event, after, run, valid', -, whole⟩ := popLocked_took valid pending
    refine ⟨position, event, after, run, whole, ?_, ?_⟩
    · have indexed := valid.indexed
      rw [whole] at indexed
      exact indexed.trans (valid'.indexed.symm.cons _)
    · rw [valid.counted, valid'.counted, whole]
      rfl

/-- Two levels, a merge, and a wait that takes an event. -/
def sampleRun : List (PartitionAction (List Nat)) :=
  [.push (.ofFun (· ++ ·)) (fun _ => none) ⟨1, 2, 0, [1]⟩,
    .push (.ofFun (· ++ ·)) (fun _ => none) ⟨2, 1, 1, [2]⟩, .waitPopFor,
    .push (.ofFun (· ++ ·)) (fun _ => none) ⟨1, 2, 2, [3]⟩]

def sampleReached : Partition (List Nat) :=
  (run (guarded step returns) ⟨2, [], [], 0, 0⟩ sampleRun).getD ⟨2, [], [], 0, 0⟩

theorem sampleReached_wellFormed : sampleReached.WellFormed ∧
    sampleReached.events = [⟨1, 2, 0, [1, 3]⟩] :=
  have built : construct 2 = .ok (⟨2, [], [], 0, 0⟩ : Partition (List Nat)) := rfl
  ⟨(wellFormed_reachable built ⟨sampleRun, rfl⟩).1, rfl⟩

/-! ## Pushes that throw -/

theorem not_wellFormed_of_opened {s : Superstep} (new : (p.levels.lookup s).isNone = true) :
    ¬({ p with levels := levelFor s p.levels } : Partition Payload).WellFormed := by
  intro h
  refine h.nonempty (s, []) ?_ rfl
  change (s, []) ∈ levelFor s p.levels
  rw [levelFor, if_pos new]
  exact mem_openLevel.mpr (.inl rfl)

theorem length_appended (h : Valid p) (event : Event Payload) :
    ({ p with
      levels := pushBack event.superstep (p.nextPosition, event)
        (levelFor event.superstep p.levels)
      nextPosition := p.nextPosition + 1 } : Partition Payload).events.length =
      p.events.length + 1 := by
  obtain ⟨levelled, present, -⟩ := h.levelled.levelFor (s := event.superstep)
  have appended := levelled.flatten_pushBack (p.nextPosition, event) present
  rw [length_events, length_events, entries, entries, ← flatten_levelFor event.superstep p.levels]
  exact (congrArg List.length appended).trans (StableQueue.perm_enqueue ..).length_eq

/-- A push that throws keeps the invariant and the events, apart from what its merger wrote, if
and only if it throws at a point that it recovers from. -/
theorem push_atomic_iff {capacity : Nat} {p₀ : Partition Payload}
    (built : construct capacity = .ok p₀) (reached : Reachable (guarded step recovers) p₀ p)
    {merger : Merger Payload} {fault : PushPoint → Option Exn} {event : Event Payload} {e : Exn}
    {after : Partition Payload}
    (threw : exec (push merger fault event) p = (.error (.thrown e), after)) :
    (after.WellFormed ∧ after.events = p.events.map (absorb merger event) ∧
      ∀ r a, Reachable (guarded step recovers) after r → r.recovers a = true →
        (exec (performAction a) r).1 ≠ .error .undefinedBehaviour) ↔
      p.recovers (.push merger fault event) = true := by
  have valid := (valid_reachable (valid_construct built).1 reached).1
  constructor
  · rintro ⟨wellFormed, events, -⟩
    by_contra lost
    simp only [recovers, Bool.or_eq_true, decide_eq_true_eq, not_or, not_le,
      Option.not_isSome_iff_eq_none] at lost
    obtain ⟨⟨absent, room⟩, point⟩ := lost
    have run := push_absent merger fault absent room
    cases first : p.throwsAt fault event with
    | none => simp [first] at point
    | some thrown =>
      obtain ⟨at', e'⟩ := thrown
      rw [first] at run point
      cases at' with
      | level => simp at point
      | append =>
        obtain ⟨-, rfl⟩ := Prod.ext_iff.mp (threw.symm.trans run)
        refine not_wellFormed_of_opened ?_ wellFormed
        change ¬(p.levels.lookup event.superstep).isSome = true at point
        rwa [Option.not_isSome_iff_eq_none, ← Option.isNone_iff_eq_none] at point
      | index =>
        obtain ⟨-, rfl⟩ := Prod.ext_iff.mp (threw.symm.trans run)
        have longer := length_appended valid event
        rw [events, List.length_map] at longer
        omega
  · intro recovered
    obtain ⟨outcome, after', run, -, valid', -, events⟩ := push_recovers valid recovered
    obtain ⟨rfl, rfl⟩ := Prod.ext_iff.mp (threw.symm.trans run)
    refine ⟨valid'.wellFormed, events e rfl, ?_⟩
    intro r a later allowed
    obtain ⟨outcome, after, run, defined, -⟩ :=
      action_valid (valid_reachable valid' later).1 allowed
    rwa [run]

def throwing (merger : Merger Nat) (fault : PushPoint → Option Exn) (event : Event Nat)
    (p : Partition Nat) : Partition Nat := (exec (push merger fault event) p).2

def appendThrows : PushPoint → Option Exn
  | .append => some .badAlloc
  | _ => none

def replaces : Merger Nat := .ofFun fun _ incoming => incoming

/-- The level of superstep 0 has one event, and the merger throws after it has written. -/
theorem mergerThrew_recovers :
    let p : Partition Nat := ⟨2, [(0, [(0, ⟨1, 0, 0, 7⟩)])], [(⟨1, 0⟩, 0)], 1, 1⟩
    let merger : Merger Nat := fun _ incoming => (incoming, some .badAlloc)
    (throwing merger appendThrows ⟨1, 0, 1, 9⟩ p).WellFormed ∧
      (throwing merger appendThrows ⟨1, 0, 1, 9⟩ p).events = [⟨1, 0, 0, 9⟩] := by
  intro p merger
  have built : construct 2 = .ok (⟨2, [], [], 0, 0⟩ : Partition Nat) := rfl
  have reached : Reachable (guarded step recovers) ⟨2, [], [], 0, 0⟩ p :=
    ⟨[.push replaces (fun _ => none) ⟨1, 0, 0, 7⟩], rfl⟩
  have threw : exec (push merger appendThrows ⟨1, 0, 1, 9⟩) p =
      (.error (.thrown .badAlloc), throwing merger appendThrows ⟨1, 0, 1, 9⟩ p) := rfl
  obtain ⟨wellFormed, events, -⟩ := (push_atomic_iff built reached threw).mpr rfl
  exact ⟨wellFormed, events⟩

/-- An event of superstep 0 is lost in a new level, and the next pop reads the empty list. -/
theorem push_not_atomic :
    let p : Partition Nat := ⟨2, [], [], 0, 0⟩
    let after := throwing replaces appendThrows ⟨1, 0, 0, 7⟩ p
    (exec (push replaces appendThrows ⟨1, 0, 0, 7⟩) p).1 = .error (.thrown .badAlloc) ∧
      ¬after.WellFormed ∧
      (exec popLocked (throwing replaces (fun _ => none) ⟨2, 1, 1, 8⟩ after)).1 =
        .error .undefinedBehaviour := by
  refine ⟨rfl, ?_, rfl⟩
  intro h
  exact h.nonempty (0, [])
    (by simp [throwing, push, exec_bind, appendThrows, mayThrow, openLevel]) rfl

end Partition

end Yellowstone
