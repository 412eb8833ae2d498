import Mathlib.Data.List.AList
import Yellowstone.Library.Machine

/-!
# Leases of the exchange

Each call holds the exchange's mutex throughout and is one step; a failed assertion and an
index outside an array have no step. `requested` is no member of `Exchange`: it keeps the
leases that `close_lease` was called for since their partition was last acquired.
-/

set_option autoImplicit false

namespace Yellowstone.Legacy

abbrev PartitionID := Int

abbrev WorkerID := Int

def kMaxNumPartitions : Nat := 16

structure Lease where
  pid : PartitionID := -1
  gen : UInt32 := 0
deriving DecidableEq, Repr

structure LeaseCtrl where
  gen : UInt32 := 0
  closedGen : UInt32 := 0
deriving DecidableEq, Repr

/-- `Dispatcher::m_registry`. -/
abbrev Dispatcher := AList fun _ : WorkerID => Lease

namespace Dispatcher

def kCapacity : Nat := 32

def tryGet (d : Dispatcher) (workerId : WorkerID) : Option Lease := d.lookup workerId

def setOpen (d : Dispatcher) (workerId : WorkerID) (l : Lease) : Int × Dispatcher :=
  if (d.lookup workerId).isSome then (-1, d)
  else if d.entries.length < kCapacity then (0, d.insert workerId l)
  else (-4, d)

/-- The code, the lease erased and the registry. -/
def eraseOpen (d : Dispatcher) (workerId : WorkerID) : Int × Lease × Dispatcher :=
  match d.lookup workerId with
  | none => (-1, {}, d)
  | some l => (0, l, d.erase workerId)

end Dispatcher

structure Exchange where
  ctrl : PartitionID → LeaseCtrl
  ready : List PartitionID
  dispatcher : Dispatcher
  requested : List Lease

/-- An index of `m_ctrl` and `m_partitions`. -/
def InArray (pid : PartitionID) : Prop := 0 ≤ pid ∧ pid < kMaxNumPartitions

instance (pid : PartitionID) : Decidable (InArray pid) := inferInstanceAs (Decidable (_ ∧ _))

def partitionIds : List PartitionID := (List.range kMaxNumPartitions).map Nat.cast

/-- `Queue::push` on `m_ready`. -/
def push (ready : List PartitionID) (pid : PartitionID) : Option (List PartitionID) :=
  if ready.length < 2 * kMaxNumPartitions then some (ready ++ [pid]) else none

namespace Exchange

/-- `Exchange::Exchange`. -/
def new : Exchange where
  ctrl := fun _ => {}
  ready := partitionIds
  dispatcher := ∅
  requested := []

def isClosed (s : Exchange) (pid : PartitionID) (gen : UInt32) : Bool :=
  (s.ctrl pid).closedGen == gen

/-- The worker's identifier is not used. -/
def closeLease (s : Exchange) (_workerId : WorkerID) (pid : PartitionID) (gen : UInt32) :
    Option Exchange :=
  if InArray pid then
    some { s with
      ctrl := Function.update s.ctrl pid { s.ctrl pid with closedGen := gen }
      requested := ⟨pid, gen⟩ :: s.requested }
  else none

/-- The lease, the index of the partition handed out, and the exchange. -/
def acquire (s : Exchange) (workerId : WorkerID) :
    Option (Lease × Option PartitionID × Exchange) :=
  match s.dispatcher.tryGet workerId, s.ready with
  | some _, _ => some (⟨-1, 0⟩, none, s)
  | none, [] => some (⟨-1, 0⟩, none, s)
  | none, pid :: ready =>
    let gen := (s.ctrl pid).gen + 1
    let l : Lease := ⟨pid, gen⟩
    let (rc, dispatcher) := s.dispatcher.setOpen workerId l
    if rc = 0 then
      some (l, some pid, {
        ctrl := Function.update s.ctrl pid ⟨gen, 0⟩
        ready
        dispatcher
        requested := s.requested.filter fun r => r.pid ≠ pid })
    else none

def release (s : Exchange) (workerId : WorkerID) (pid : PartitionID) (gen : UInt32) :
    Option (Int × Exchange) :=
  match s.dispatcher.tryGet workerId with
  | none => some (-1, s)
  | some e =>
    -- stale arguments are accepted once the registered lease is closed
    if (e.pid ≠ pid ∨ e.gen ≠ gen) ∧ ¬s.isClosed e.pid e.gen then some (-2, s)
    else if ¬s.isClosed e.pid e.gen then some (-3, s)
    else
      let (rc, erased, dispatcher) := s.dispatcher.eraseOpen workerId
      if rc ≠ 0 then some (rc, s)
      else if erased = e then
        (push s.ready e.pid).map fun ready => (0, { s with ready, dispatcher })
      else none

end Exchange

/-- Any worker may call with any arguments. -/
inductive LeaseCall where
  | acquire (workerId : WorkerID)
  | closeLease (workerId : WorkerID) (pid : PartitionID) (gen : UInt32)
  | release (workerId : WorkerID) (pid : PartitionID) (gen : UInt32)
deriving DecidableEq, Repr

namespace Exchange

def step (s : Exchange) : LeaseCall → Option Exchange
  | .acquire w => (s.acquire w).map fun r => r.2.2
  | .closeLease w pid gen => s.closeLease w pid gen
  | .release w pid gen => (s.release w pid gen).map fun r => r.2

/-- No generation 0 is drawn, and a partition whose lease is closed is not closed again with
another generation. -/
def timely (s : Exchange) : LeaseCall → Bool
  | .acquire w =>
    match s.dispatcher.tryGet w, s.ready with
    | none, pid :: _ => (s.ctrl pid).gen + 1 ≠ 0
    | _, _ => true
  | .closeLease _ pid gen =>
    s.dispatcher.entries.all fun e => e.2.pid = pid → e.2.gen ≠ gen → s.isClosed pid e.2.gen = false
  | .release .. => true

/-! ## What a call can do -/

section Calls
variable {s s' : Exchange} {w : WorkerID} {l : Lease}

/-- After a partition was taken from the front of the queue. -/
def leased (s : Exchange) (w : WorkerID) (pid : PartitionID) (ready : List PartitionID) :
    Exchange where
  ctrl := Function.update s.ctrl pid ⟨(s.ctrl pid).gen + 1, 0⟩
  ready := ready
  dispatcher := s.dispatcher.insert w ⟨pid, (s.ctrl pid).gen + 1⟩
  requested := s.requested.filter fun r => r.pid ≠ pid

/-- After a closed lease was given back. -/
def freed (s : Exchange) (w : WorkerID) (l : Lease) : Exchange :=
  { s with ready := s.ready ++ [l.pid], dispatcher := s.dispatcher.erase w }

/-- After a generation was stored as closed. -/
def closing (s : Exchange) (pid : PartitionID) (gen : UInt32) : Exchange :=
  { s with
    ctrl := Function.update s.ctrl pid { s.ctrl pid with closedGen := gen }
    requested := ⟨pid, gen⟩ :: s.requested }

/-- Room for every partition, in the queue and among the leases. -/
structure Roomy (s : Exchange) : Prop where
  ready : s.ready.length < 2 * kMaxNumPartitions
  leases : s.dispatcher.entries.length < Dispatcher.kCapacity

theorem acquire_idle (busy : s.dispatcher.tryGet w = some l ∨ s.ready = []) :
    s.acquire w = some (⟨-1, 0⟩, none, s) := by
  unfold acquire
  rcases busy with held | empty
  · rw [held]
  · cases held : s.dispatcher.tryGet w with
    | none => rw [empty]
    | some l => rfl

theorem acquire_leases (room : s.Roomy) {pid : PartitionID} {ready : List PartitionID}
    (none : s.dispatcher.tryGet w = none) (front : s.ready = pid :: ready) :
    s.acquire w = some (⟨pid, (s.ctrl pid).gen + 1⟩, some pid, s.leased w pid ready) := by
  have free : s.dispatcher.lookup w = Option.none := none
  unfold acquire
  rw [none, front]
  simp [Dispatcher.setOpen, free, room.leases, leased]

/-- What `release` answers depends on the registered lease alone. -/
theorem release_cases (room : s.Roomy) (held : s.dispatcher.tryGet w = some l)
    (pid : PartitionID) (gen : UInt32) :
    s.isClosed l.pid l.gen = true ∧ s.release w pid gen = some (0, s.freed w l) ∨
    s.isClosed l.pid l.gen = false ∧ ∃ rc, rc ≠ 0 ∧ s.release w pid gen = some (rc, s) := by
  have found : s.dispatcher.lookup w = some l := held
  unfold release
  rw [held]
  cases closed : s.isClosed l.pid l.gen with
  | true =>
    refine .inl ⟨rfl, ?_⟩
    simp [closed, Dispatcher.eraseOpen, found, push, room.ready, freed]
  | false =>
    refine .inr ⟨rfl, ?_⟩
    by_cases stale : l.pid ≠ pid ∨ l.gen ≠ gen
    · exact ⟨-2, by decide, by simp [closed, stale]⟩
    · exact ⟨-3, by decide, by simp [closed, stale]⟩

theorem release_none (none : s.dispatcher.tryGet w = none) (pid : PartitionID) (gen : UInt32) :
    s.release w pid gen = some (-1, s) := by
  unfold release
  rw [none]

theorem step_cases (room : s.Roomy) {e : LeaseCall} (h : s.step e = some s') :
    s' = s ∧ s.timely e = true ∨
    (∃ w pid ready, e = .acquire w ∧ s.dispatcher.tryGet w = none ∧ s.ready = pid :: ready ∧
      s' = s.leased w pid ready) ∨
    (∃ w pid gen, e = .closeLease w pid gen ∧ InArray pid ∧ s' = s.closing pid gen) ∨
    ∃ w pid gen l, e = .release w pid gen ∧ s.dispatcher.tryGet w = some l ∧
      s.isClosed l.pid l.gen = true ∧ s' = s.freed w l := by
  cases e with
  | acquire w =>
    cases held : s.dispatcher.tryGet w with
    | some l =>
      simp only [step, acquire_idle (.inl held), Option.map_some, Option.some.injEq] at h
      exact .inl ⟨h.symm, by simp [timely, held]⟩
    | none =>
      cases front : s.ready with
      | nil =>
        simp only [step, acquire_idle (l := {}) (.inr front), Option.map_some,
          Option.some.injEq] at h
        exact .inl ⟨h.symm, by simp [timely, held, front]⟩
      | cons pid ready =>
        simp only [step, acquire_leases room held front, Option.map_some, Option.some.injEq] at h
        exact .inr (.inl ⟨w, pid, ready, rfl, held, rfl, h.symm⟩)
  | closeLease w pid gen =>
    obtain ⟨inside, ⟨⟩⟩ := Option.ite_none_right_eq_some.mp h
    exact .inr (.inr (.inl ⟨w, pid, gen, rfl, inside, rfl⟩))
  | release w pid gen =>
    cases held : s.dispatcher.tryGet w with
    | none =>
      simp only [step, release_none held, Option.map_some, Option.some.injEq] at h
      exact .inl ⟨h.symm, rfl⟩
    | some l =>
      rcases release_cases room held pid gen with ⟨closed, frees⟩ | ⟨-, rc, -, refuses⟩
      · simp only [step, frees, Option.map_some, Option.some.injEq] at h
        exact .inr (.inr (.inr ⟨w, pid, gen, l, rfl, held, closed, h.symm⟩))
      · simp only [step, refuses, Option.map_some, Option.some.injEq] at h
        exact .inl ⟨h.symm, rfl⟩

end Calls

/-! ## Every partition is in one place -/

section Places
variable {s s' : Exchange} {w : WorkerID} {l : Lease}

/-- Every partition once, in the queue or in a registered lease. -/
def Partitioned (s : Exchange) : Prop :=
  (s.ready ++ s.dispatcher.entries.map fun e => e.2.pid).Perm partitionIds

/-- Never both queued and leased, and leased to one worker at most. -/
structure Exclusive (s : Exchange) : Prop where
  once : ∀ pid, InArray pid →
    s.ready.count pid = 1 ∧ (∀ w l, s.dispatcher.tryGet w = some l → l.pid ≠ pid) ∨
    pid ∉ s.ready ∧ ∃! w, ∃ l, s.dispatcher.tryGet w = some l ∧ l.pid = pid
  queued : ∀ pid ∈ s.ready, InArray pid
  held : ∀ w l, s.dispatcher.tryGet w = some l → InArray l.pid

theorem mem_partitionIds {pid : PartitionID} : pid ∈ partitionIds ↔ InArray pid := by
  simp only [partitionIds, List.mem_map, List.mem_range, InArray]
  constructor
  · rintro ⟨i, below, rfl⟩
    exact ⟨Int.natCast_nonneg i, Int.ofNat_lt.mpr below⟩
  · rintro ⟨low, high⟩
    exact ⟨pid.toNat, (Int.toNat_lt low).mpr high, Int.toNat_of_nonneg low⟩

theorem tryGet_iff {d : Dispatcher} : d.tryGet w = some l ↔ ⟨w, l⟩ ∈ d.entries :=
  AList.mem_lookup_iff

theorem entries_erase {d : Dispatcher} (held : d.tryGet w = some l) :
    d.entries.Perm (⟨w, l⟩ :: (d.erase w).entries) := by
  obtain ⟨l', before, after, -, whole, rest⟩ :=
    List.exists_of_kerase (AList.lookup_isSome.mp (Option.isSome_of_eq_some held))
  have found : d.tryGet w = some l' := tryGet_iff.mpr (by rw [whole]; simp)
  obtain rfl := Option.some.inj (held.symm.trans found)
  calc
    d.entries = before ++ ⟨w, l⟩ :: after := whole
    List.Perm _ (⟨w, l⟩ :: (before ++ after)) := List.perm_middle
    _ = ⟨w, l⟩ :: (d.erase w).entries := by rw [← rest]; rfl

theorem Partitioned.roomy (h : Partitioned s) : s.Roomy := by
  have length := h.length_eq
  simp only [List.length_append, List.length_map, partitionIds, List.length_range] at length
  have sixteen : kMaxNumPartitions = 16 := rfl
  exact ⟨by omega, by simp only [Dispatcher.kCapacity]; omega⟩

theorem partitioned_new : Partitioned new := by
  simp [Partitioned, new]

theorem partitioned_step (h : Partitioned s) {e : LeaseCall} (moves : s.step e = some s') :
    Partitioned s' := by
  rcases step_cases h.roomy moves with ⟨rfl, -⟩ | ⟨w, pid, ready, -, none, front, rfl⟩ |
    ⟨w, pid, gen, -, -, rfl⟩ | ⟨w, pid, gen, l, -, held, -, rfl⟩
  · exact h
  · have insertion := AList.entries_insert_of_notMem
      (b := (⟨pid, (s.ctrl pid).gen + 1⟩ : Lease)) (AList.lookup_eq_none.mp none)
    unfold Partitioned at h ⊢
    rw [front] at h
    simp only [leased, insertion, List.map_cons]
    exact List.perm_middle.trans h
  · exact h
  · have others := (entries_erase held).map fun e => e.2.pid
    unfold Partitioned at h ⊢
    simp only [freed, List.append_assoc, List.singleton_append]
    exact (others.symm.append_left s.ready).trans h

theorem partitioned_reachable (h : Machine.Reachable step new s) : Partitioned s :=
  h.invariant partitioned_new fun _ _ _ kept moves => partitioned_step kept moves

theorem Partitioned.exclusive (h : Partitioned s) : Exclusive s := by
  have nodup : (s.ready ++ s.dispatcher.entries.map fun e => e.2.pid).Nodup :=
    h.nodup_iff.mpr (by decide)
  obtain ⟨queued, leases, apart⟩ := List.nodup_append.mp nodup
  have registered : ∀ w l, s.dispatcher.tryGet w = some l →
      l.pid ∈ s.dispatcher.entries.map fun e => e.2.pid := fun w l held =>
    List.mem_map.mpr ⟨_, tryGet_iff.mp held, rfl⟩
  constructor
  case once =>
    intro pid inside
    have somewhere := h.mem_iff.mpr (mem_partitionIds.mpr inside)
    rcases List.mem_append.mp somewhere with ready | leased
    · refine .inl ⟨List.count_eq_one_of_mem queued ready, fun w l held same => ?_⟩
      exact apart pid ready l.pid (registered w l held) same.symm
    · refine .inr ⟨fun ready => apart pid ready pid leased rfl, ?_⟩
      obtain ⟨⟨w, l⟩, mem, rfl⟩ := List.mem_map.mp leased
      refine ⟨w, ⟨l, tryGet_iff.mpr mem, rfl⟩, ?_⟩
      rintro w' ⟨l', held, same⟩
      have equal := List.inj_on_of_nodup_map leases (tryGet_iff.mp held) mem same
      exact congrArg Sigma.fst equal
  case queued =>
    intro pid ready
    exact mem_partitionIds.mp (h.mem_iff.mp (List.mem_append_left _ ready))
  case held =>
    intro w l held
    exact mem_partitionIds.mp (h.mem_iff.mp (List.mem_append_right _ (registered w l held)))

/-- No assertion fails and no index is outside an array, but for what `close_lease` is given. -/
theorem step_isSome (h : Partitioned s) (e : LeaseCall) :
    (s.step e).isSome = true ↔ ∀ w pid gen, e = .closeLease w pid gen → InArray pid := by
  cases e with
  | acquire w =>
    refine iff_of_true ?_ (by simp)
    cases held : s.dispatcher.tryGet w with
    | some l => simp [step, acquire_idle (.inl held)]
    | none =>
      cases front : s.ready with
      | nil => simp [step, acquire_idle (l := {}) (.inr front)]
      | cons pid ready => simp [step, acquire_leases h.roomy held front]
  | closeLease w pid gen =>
    by_cases inside : InArray pid
    · simp [step, closeLease, inside]
    · simp [step, closeLease, inside]
  | release w pid gen =>
    refine iff_of_true ?_ (by simp)
    cases held : s.dispatcher.tryGet w with
    | none => simp [step, release_none held]
    | some l =>
      rcases release_cases h.roomy held pid gen with ⟨-, frees⟩ | ⟨-, rc, -, refuses⟩
      · simp [step, frees]
      · simp [step, refuses]

end Places

/-! ## Closing -/

section Closing
variable {s s' : Exchange} {w : WorkerID} {l : Lease}

/-- A lease is reported closed when its holder, or someone with its number, has closed it. -/
def Reported (s : Exchange) : Prop :=
  ∀ w l, s.dispatcher.tryGet w = some l → (s.isClosed l.pid l.gen = true ↔ l ∈ s.requested)

theorem reported_new : Reported new := by
  rintro w l held
  cases held

theorem reported_leased (kept : Partitioned s) (law : Reported s) {pid : PartitionID}
    {ready : List PartitionID} (front : s.ready = pid :: ready) :
    Reported (s.leased w pid ready) ↔ (s.ctrl pid).gen + 1 ≠ 0 := by
  have fresh : (s.leased w pid ready).dispatcher.tryGet w =
      some ⟨pid, (s.ctrl pid).gen + 1⟩ := AList.lookup_insert _
  constructor
  · intro after zero
    have closed := (after w _ fresh).mp (by simp [isClosed, leased, zero])
    simp [leased] at closed
  · intro positive w' l' held
    by_cases same : w' = w
    · subst same
      obtain rfl := Option.some.inj (held.symm.trans fresh)
      simp [isClosed, leased, Ne.symm positive]
    · have before : s.dispatcher.tryGet w' = some l' :=
        (AList.lookup_insert_ne same).symm.trans held
      have apart : l'.pid ≠ pid := by
        have inside := kept.exclusive.queued pid (by simp [front])
        rcases kept.exclusive.once pid inside with ⟨-, other⟩ | ⟨absent, -⟩
        · exact other w' l' before
        · exact absurd (by simp [front]) absent
      simpa [isClosed, leased, apart] using law w' l' before

theorem reported_closing (law : Reported s) (pid : PartitionID) (gen : UInt32) :
    Reported (s.closing pid gen) ↔ s.timely (.closeLease w pid gen) = true := by
  simp only [timely, List.all_eq_true, decide_eq_true_eq]
  constructor
  · rintro after ⟨w', l'⟩ mem rfl other
    by_contra closed
    have held := tryGet_iff.mpr mem
    have requested := (law w' l' held).mp (by simpa using closed)
    have reported := (after w' l' held).mpr (List.mem_cons_of_mem _ requested)
    have overwritten : gen = l'.gen := by simpa [isClosed, closing] using reported
    exact other overwritten.symm
  · intro timely w' l' held
    have before := law w' l' held
    by_cases here : l'.pid = pid
    · subst here
      by_cases same : l'.gen = gen
      · subst same
        simp [isClosed, closing]
      · have still := timely ⟨w', l'⟩ (tryGet_iff.mp held) rfl same
        have unasked : l' ∉ s.requested := by
          intro asked
          rw [before.mpr asked] at still
          cases still
        have distinct : l' ≠ ⟨l'.pid, gen⟩ := fun equal => same (congrArg Lease.gen equal)
        refine iff_of_false ?_ ?_
        · simpa [isClosed, closing] using Ne.symm same
        · simp [closing, distinct, unasked]
    · have distinct : l' ≠ ⟨pid, gen⟩ := fun equal => here (congrArg Lease.pid equal)
      simpa [isClosed, closing, here, distinct] using before

theorem reported_freed (law : Reported s) : Reported (s.freed w l) := by
  intro w' l' held
  by_cases same : w' = w
  · subst same
    exact absurd (AList.lookup_erase w' s.dispatcher) (by
      intro gone
      cases gone.symm.trans held)
  · exact law w' l' ((AList.lookup_erase_ne same).symm.trans held)

/-- One call keeps the reports right if and only if it is timely. -/
theorem reported_step (kept : Partitioned s) (law : Reported s) {e : LeaseCall}
    (moves : s.step e = some s') : Reported s' ↔ s.timely e = true := by
  rcases step_cases kept.roomy moves with ⟨rfl, timely⟩ | ⟨w, pid, ready, rfl, none, front, rfl⟩ |
    ⟨w, pid, gen, rfl, -, rfl⟩ | ⟨w, pid, gen, l, rfl, held, -, rfl⟩
  · exact iff_of_true law timely
  · rw [reported_leased kept law front]
    simp [timely, none, front]
  · exact reported_closing law pid gen
  · exact iff_of_true (reported_freed law) rfl

theorem reported_reachable (h : Machine.Reachable (Machine.guarded step timely) new s) :
    Partitioned s ∧ Reported s := by
  induction h with
  | start => exact ⟨partitioned_new, reported_new⟩
  | next r e r' _ moves kept =>
    obtain ⟨timely, moves⟩ := Machine.guarded_eq_some.mp moves
    exact ⟨partitioned_step kept.1 moves, (reported_step kept.1 kept.2 moves).mpr timely⟩

/-- What the holders of leases can rely on. -/
structure ClosesOnce (s : Exchange) : Prop where
  reported : ∀ w l, s.dispatcher.tryGet w = some l →
    (s.isClosed l.pid l.gen = true ↔ l ∈ s.requested)
  released : ∀ w l, s.dispatcher.tryGet w = some l → ∀ pid gen,
    ((∃ s', s.release w pid gen = some (0, s')) ↔ l ∈ s.requested)

theorem Reported.closesOnce (kept : Partitioned s) (law : Reported s) : ClosesOnce s := by
  refine ⟨law, fun w l held pid gen => ?_⟩
  rw [← law w l held]
  rcases release_cases kept.roomy held pid gen with ⟨closed, frees⟩ | ⟨unclosed, rc, code, refuses⟩
  · exact iff_of_true ⟨_, frees⟩ closed
  · refine iff_of_false ?_ (by simp [unclosed])
    rintro ⟨s', frees⟩
    rw [refuses] at frees
    simp only [Option.some.injEq, Prod.mk.injEq] at frees
    exact code frees.1

/-- Partitions are in one place after any calls; leases close and are released as requested as
long as the calls are timely, and a call that is not timely breaks this. -/
theorem leases_close_once_iff (s : Exchange) :
    (Machine.Reachable step new s → Exclusive s ∧
      ∀ e, (s.step e).isSome = true ↔ ∀ w pid gen, e = .closeLease w pid gen → InArray pid) ∧
      (Machine.Reachable (Machine.guarded step timely) new s →
        ClosesOnce s ∧ ∀ e s', s.step e = some s' → (ClosesOnce s' ↔ s.timely e = true)) := by
  refine ⟨fun h => ?_, fun h => ?_⟩
  · have kept := partitioned_reachable h
    exact ⟨kept.exclusive, step_isSome kept⟩
  obtain ⟨kept, law⟩ := reported_reachable h
  refine ⟨law.closesOnce kept, fun e s' moves => ?_⟩
  rw [← reported_step kept law moves]
  exact ⟨fun after => after.reported, fun after => after.closesOnce (partitioned_step kept moves)⟩

end Closing

end Exchange

section Samples
open Exchange

def leaseCycle : List LeaseCall := [.acquire 1, .closeLease 1 0 1, .release 1 0 1, .acquire 1]

theorem leaseCycle_closesOnce : ∃ s,
    Machine.run (Machine.guarded step timely) new leaseCycle = some s ∧ ClosesOnce s :=
  ⟨_, rfl, ((leases_close_once_iff _).2 ⟨leaseCycle, rfl⟩).1⟩

/-- An observer that has given its lease back names partition 0 and generation 0. -/
def lateClose : List LeaseCall := [.acquire 1, .closeLease 1 0 1, .closeLease 0 0 0]

theorem closed_lease_reopened :
    ¬∀ s, Machine.Reachable step new s → Exclusive s ∧ ClosesOnce s := by
  intro claimed
  have closed := ((claimed _ ⟨lateClose, rfl⟩).2.reported 1 ⟨0, 1⟩ rfl).mpr (by decide)
  cases closed

end Samples

end Yellowstone.Legacy
