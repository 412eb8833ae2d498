import Mathlib.Algebra.GroupWithZero.Nat
import Mathlib.Data.Fintype.Card
import Yellowstone.Library.Machine

/-!
# The superstep barrier

`P` workers call `graph_arrive_and_wait`, which arrives under the mutex in one step and then
blocks; publishers call `begin_graph_epoch`, whose stores are single steps that take no mutex.
The record of arrivals is no member of `Exchange`; it is kept to count them.
-/

set_option autoImplicit false

namespace Yellowstone.Legacy

/-- Where a worker is in `graph_arrive_and_wait(observed_superstep)`. -/
inductive WorkerAt where
  | out
  /-- Graph mode was found enabled; the mutex is next. -/
  | entering (observed : UInt64)
  | blocked (observed : UInt64)
deriving DecidableEq, Repr

/-- Where a publisher is in `begin_graph_epoch`: the store that comes next. -/
inductive PublisherAt where
  | out
  | superstep
  | arrived
  | epoch
deriving DecidableEq, Repr

structure Barrier (P : Nat) where
  graphMode : Bool
  superstep : UInt64
  arrived : UInt32
  parties : UInt32
  epoch : UInt64
  worker : Fin P → WorkerAt
  publisher : Nat → PublisherAt
  /-- Every arrival that was counted, with the superstep it observed. -/
  arrivals : List (Fin P × UInt64)

namespace Barrier
variable {P : Nat}

/-- After `set_graph_barrier_parties(P)`. -/
def ready (P : Nat) : Barrier P where
  graphMode := false
  superstep := 0
  arrived := 0
  parties := UInt32.ofNat P
  epoch := 0
  worker := fun _ => .out
  publisher := fun _ => .out
  arrivals := []

def setWorker (s : Barrier P) (w : Fin P) (place : WorkerAt) : Barrier P :=
  { s with worker := Function.update s.worker w place }

def setPublisher (s : Barrier P) (p : Nat) (place : PublisherAt) : Barrier P :=
  { s with publisher := Function.update s.publisher p place }

/-- `graph_arrive_and_wait` up to the mutex. -/
def call (s : Barrier P) (w : Fin P) (observed : UInt64) : Barrier P :=
  if s.graphMode = true ∧ s.parties ≠ 0 then s.setWorker w (.entering observed) else s

/-- `graph_arrive_and_wait` from the mutex to its wait. -/
def arrive (s : Barrier P) (w : Fin P) (observed : UInt64) : Barrier P :=
  if s.superstep ≠ observed then s.setWorker w .out
  else
    let arrived := s.arrived + 1
    let arrivals := s.arrivals ++ [(w, observed)]
    if arrived ≥ s.parties then
      { s.setWorker w .out with arrived := 0, superstep := observed + 1, arrivals }
    else { s.setWorker w (.blocked observed) with arrived, arrivals }

/-- The condition variable's predicate is evaluated, with or without a notification. -/
def wake (s : Barrier P) (w : Fin P) (observed : UInt64) : Barrier P :=
  if s.superstep ≠ observed then s.setWorker w .out else s

/-- The exchange that `begin_graph_epoch` starts with. -/
def enable (s : Barrier P) (p : Nat) : Barrier P :=
  { s.setPublisher p (if s.graphMode then .out else .superstep) with graphMode := true }

end Barrier

inductive BarrierEvent (P : Nat) where
  | call (w : Fin P) (observed : UInt64)
  | arrive (w : Fin P)
  | wake (w : Fin P)
  | enable (p : Nat)
  | storeSuperstep (p : Nat)
  | storeArrived (p : Nat)
  | addEpoch (p : Nat)
deriving DecidableEq, Repr

namespace Barrier
variable {P : Nat}

def step (s : Barrier P) : BarrierEvent P → Option (Barrier P)
  | .call w observed => if s.worker w = .out then some (s.call w observed) else none
  | .arrive w =>
    match s.worker w with
    | .entering observed => some (s.arrive w observed)
    | _ => none
  | .wake w =>
    match s.worker w with
    | .blocked observed => some (s.wake w observed)
    | _ => none
  | .enable p => if s.publisher p = .out then some (s.enable p) else none
  | .storeSuperstep p =>
    if s.publisher p = .superstep then some { s.setPublisher p .arrived with superstep := 0 }
    else none
  | .storeArrived p =>
    if s.publisher p = .arrived then some { s.setPublisher p .epoch with arrived := 0 } else none
  | .addEpoch p =>
    if s.publisher p = .epoch then some { s.setPublisher p .out with epoch := s.epoch + 1 }
    else none

/-! ## Counting the blocked workers -/

section Counting

/-- How many workers are blocked at a superstep. -/
def blockedAt (worker : Fin P → WorkerAt) (superstep : UInt64) : Nat :=
  (Finset.univ.filter fun w => worker w = .blocked superstep).card

variable {worker : Fin P → WorkerAt} {w : Fin P} {place : WorkerAt} {superstep : UInt64}

theorem blockedAt_update (before : worker w ≠ .blocked superstep)
    (after : place ≠ .blocked superstep) :
    blockedAt (Function.update worker w place) superstep = blockedAt worker superstep := by
  unfold blockedAt
  congr 1
  ext v
  by_cases same : v = w
  · simp [same, before, after]
  · simp [same]

theorem blockedAt_block (before : worker w ≠ .blocked superstep) :
    blockedAt (Function.update worker w (.blocked superstep)) superstep =
      blockedAt worker superstep + 1 := by
  have insertion : (Finset.univ.filter fun v =>
      Function.update worker w (.blocked superstep) v = .blocked superstep) =
      insert w (Finset.univ.filter fun v => worker v = .blocked superstep) := by
    ext v
    by_cases same : v = w
    · simp [same]
    · simp [same]
  unfold blockedAt
  rw [insertion, Finset.card_insert_of_notMem (by simp [before])]

/-- A worker that is not blocked is missing from the count. -/
theorem blockedAt_lt (free : worker w ≠ .blocked superstep) : blockedAt worker superstep < P := by
  have missing : w ∉ Finset.univ.filter fun v => worker v = .blocked superstep := by simp [free]
  simpa [blockedAt] using Finset.card_lt_univ_of_notMem missing

theorem blockedAt_none (free : ∀ v, worker v ≠ .blocked superstep) :
    blockedAt worker superstep = 0 := by
  simp [blockedAt, free]

end Counting

/-! ## What a step keeps -/

/-- No arrival is forgotten. -/
def Counted (s : Barrier P) : Prop := s.arrived.toNat = blockedAt s.worker s.superstep

/-- The arrivals that observed a superstep. -/
def arrivalsAt (s : Barrier P) (superstep : UInt64) : Nat :=
  s.arrivals.countP fun a => a.2 == superstep

/-- The superstep goes up by the `P`-th arrival that observed it, and not otherwise. -/
structure Orderly (s : Barrier P) (e : BarrierEvent P) (s' : Barrier P) : Prop where
  monotone : s.graphMode = true → s.superstep ≤ s'.superstep
  opened : s'.superstep ≠ s.superstep → s'.superstep = s.superstep + 1 ∧
    ∃ w, e = .arrive w ∧ s.worker w = .entering s.superstep ∧
      s.arrivalsAt s.superstep + 1 = P ∧ s'.arrivalsAt s.superstep = P

/-- The epoch's stores change nothing that an arrival has changed, and the superstep, a 64-bit
number, does not start over. -/
def harmless (s : Barrier P) : BarrierEvent P → Bool
  | .storeSuperstep _ => s.superstep = 0
  | .storeArrived _ => s.arrived = 0
  | .arrive w =>
    s.worker w = .entering s.superstep → s.parties ≤ s.arrived + 1 → s.superstep + 1 ≠ 0
  | _ => true

structure Inv (s : Barrier P) : Prop where
  parties : s.parties.toNat = P
  counted : s.Counted
  past : ∀ w v, s.worker w = .blocked v → v ≤ s.superstep
  tally : ∀ v, s.arrivalsAt v =
    if v = s.superstep then s.arrived.toNat else if v < s.superstep then P else 0
  entered : ∀ w v, s.worker w = .entering v → s.graphMode = true
  published : ∀ p, s.publisher p ≠ .out → s.graphMode = true

theorem inv_ready (fits : P < 2 ^ 32) : Inv (ready P) where
  parties := by simpa [ready] using fits
  counted := by
    have free : blockedAt (ready P).worker (ready P).superstep = 0 :=
      blockedAt_none fun v => by simp [ready]
    exact free.symm
  past := by simp [ready]
  tally := by simp [ready, arrivalsAt]
  entered := by simp [ready]
  published := by simp [ready]

variable {s s' : Barrier P} {w : Fin P}

/-- An arrival comes too late, or is the `P`-th, or one of those before. -/
theorem arrive_cases (inv : Inv s) {v : UInt64} (entering : s.worker w = .entering v) :
    s.superstep ≠ v ∧ s.arrive w v = s.setWorker w .out ∨
    v = s.superstep ∧ s.arrived.toNat + 1 = P ∧ s.parties ≤ s.arrived + 1 ∧
      s.arrive w v = { s.setWorker w .out with
        arrived := 0, superstep := v + 1, arrivals := s.arrivals ++ [(w, v)] } ∨
    v = s.superstep ∧ (s.arrived + 1).toNat = s.arrived.toNat + 1 ∧ ¬s.parties ≤ s.arrived + 1 ∧
      s.arrive w v = { s.setWorker w (.blocked v) with
        arrived := s.arrived + 1, arrivals := s.arrivals ++ [(w, v)] } := by
  have room : s.arrived.toNat < P := by
    rw [inv.counted]
    exact blockedAt_lt (w := w) (by simp [entering])
  have bound := s.parties.toNat_lt
  have parties := inv.parties
  have succ : (s.arrived + 1).toNat = s.arrived.toNat + 1 := by
    rw [UInt32.toNat_add, UInt32.toNat_one]
    omega
  unfold arrive
  by_cases late : s.superstep ≠ v
  · exact .inl ⟨late, if_pos late⟩
  · obtain rfl := not_not.mp late
    rw [if_neg late]
    by_cases last : s.parties ≤ s.arrived + 1
    · have reached := UInt32.le_iff_toNat_le.mp last
      exact .inr (.inl ⟨rfl, by omega, last, if_pos last⟩)
    · exact .inr (.inr ⟨rfl, succ, last, if_neg last⟩)

theorem toNat_succ {v : UInt64} (more : v + 1 ≠ 0) : (v + 1).toNat = v.toNat + 1 := by
  have bound := v.toNat_lt
  rw [ne_eq, ← UInt64.toNat_inj, UInt64.toNat_add, UInt64.toNat_one, UInt64.toNat_zero] at more
  rw [UInt64.toNat_add, UInt64.toNat_one]
  omega

theorem arrivalsAt_append {arrivals : List (Fin P × UInt64)} {v superstep : UInt64} :
    (arrivals ++ [(w, superstep)]).countP (fun a => a.2 == v) =
      arrivals.countP (fun a => a.2 == v) + if v = superstep then 1 else 0 := by
  by_cases same : v = superstep
  · simp [same]
  · simp [same, Ne.symm same]

/-! Moves of one worker that neither block nor count it. -/

theorem Inv.setWorker (inv : Inv s) {place : WorkerAt}
    (before : s.worker w ≠ .blocked s.superstep) (after : ∀ v, place ≠ .blocked v)
    (entered : ∀ v, place = .entering v → s.graphMode = true) : Inv (s.setWorker w place) where
  parties := inv.parties
  counted := inv.counted.trans (blockedAt_update before (after _)).symm
  past := by
    intro v superstep blocked
    by_cases same : v = w
    · subst same
      exact absurd (by simpa [Barrier.setWorker] using blocked) (after superstep)
    · exact inv.past v superstep (by simpa [Barrier.setWorker, same] using blocked)
  tally := inv.tally
  entered := by
    intro v superstep entering
    by_cases same : v = w
    · subst same
      exact entered superstep (by simpa [Barrier.setWorker] using entering)
    · exact inv.entered v superstep (by simpa [Barrier.setWorker, same] using entering)
  published := inv.published

theorem Inv.setPublisher (inv : Inv s) {p : Nat} {place : PublisherAt}
    (on : place ≠ .out → s.graphMode = true) : Inv (s.setPublisher p place) where
  parties := inv.parties
  counted := inv.counted
  past := inv.past
  tally := inv.tally
  entered := inv.entered
  published := by
    intro q inside
    by_cases same : q = p
    · subst same
      exact on (by simpa [Barrier.setPublisher] using inside)
    · exact inv.published q (by simpa [Barrier.setPublisher, same] using inside)

/-- The `P`-th arrival: those blocked before it are blocked at a superstep that is over. -/
theorem Inv.open (inv : Inv s) (entering : s.worker w = .entering s.superstep)
    (last : s.arrived.toNat + 1 = P) (more : s.superstep + 1 ≠ 0) :
    Inv { s.setWorker w .out with
      arrived := 0, superstep := s.superstep + 1,
      arrivals := s.arrivals ++ [(w, s.superstep)] } := by
  have left : Inv (s.setWorker w .out) :=
    inv.setWorker (by simp [entering]) (by simp) (by simp)
  have next := toNat_succ more
  refine ⟨left.parties, ?_, ?_, ?_, left.entered, left.published⟩
  · refine (blockedAt_none fun v blocked => ?_).symm
    have past := UInt64.le_iff_toNat_le.mp (left.past v _ blocked)
    simp only [Barrier.setWorker] at past
    omega
  · intro v superstep blocked
    have past := UInt64.le_iff_toNat_le.mp (left.past v _ blocked)
    simp only [Barrier.setWorker] at past
    exact UInt64.le_iff_toNat_le.mpr (by simp only [next]; omega)
  · intro v
    have tally := inv.tally v
    simp only [arrivalsAt, arrivalsAt_append] at tally ⊢
    rw [tally]
    simp only [← UInt64.toNat_inj, UInt64.lt_iff_toNat_lt, next, UInt32.toNat_zero]
    split_ifs <;> omega

/-- An arrival before the `P`-th blocks and is counted. -/
theorem Inv.block (inv : Inv s) (entering : s.worker w = .entering s.superstep)
    (counts : (s.arrived + 1).toNat = s.arrived.toNat + 1) :
    Inv { s.setWorker w (.blocked s.superstep) with
      arrived := s.arrived + 1, arrivals := s.arrivals ++ [(w, s.superstep)] } := by
  have left : Inv (s.setWorker w .out) :=
    inv.setWorker (by simp [entering]) (by simp) (by simp)
  refine ⟨inv.parties, ?_, ?_, ?_, ?_, inv.published⟩
  · change (s.arrived + 1).toNat = blockedAt (Function.update s.worker w _) s.superstep
    rw [blockedAt_block (by simp [entering]), counts, inv.counted]
  · intro v superstep blocked
    by_cases same : v = w
    · subst same
      obtain rfl : s.superstep = superstep := by simpa [Barrier.setWorker] using blocked
      exact UInt64.le_refl _
    · exact inv.past v superstep (by simpa [Barrier.setWorker, same] using blocked)
  · intro v
    have tally := inv.tally v
    change _ = if v = s.superstep then (s.arrived + 1).toNat
      else if v < s.superstep then P else 0
    simp only [arrivalsAt, arrivalsAt_append] at tally ⊢
    rw [tally, counts]
    split_ifs <;> rfl
  · intro v superstep now
    by_cases same : v = w
    · subst same
      exact absurd now (by simp [Barrier.setWorker])
    · exact inv.entered v superstep (by simpa [Barrier.setWorker, same] using now)

theorem Orderly.of_same {e : BarrierEvent P} (same : s'.superstep = s.superstep) :
    Orderly s e s' :=
  ⟨fun _ => same ▸ UInt64.le_refl _, fun changed => absurd same changed⟩

theorem arrive_keeps (inv : Inv s) {v : UInt64} (entering : s.worker w = .entering v)
    (fine : s.harmless (.arrive w) = true) :
    Inv (s.arrive w v) ∧ Orderly s (.arrive w) (s.arrive w v) := by
  rcases arrive_cases inv entering with ⟨-, result⟩ | ⟨rfl, last, opens, result⟩ |
    ⟨rfl, counts, -, result⟩
  · rw [result]
    exact ⟨inv.setWorker (by simp [entering]) (by simp) (by simp), .of_same rfl⟩
  · have more : s.superstep + 1 ≠ 0 := of_decide_eq_true fine entering opens
    have tally : s.arrivalsAt s.superstep = s.arrived.toNat := by simp [inv.tally]
    rw [result]
    refine ⟨inv.open entering last more, fun _ => ?_, fun _ => ⟨rfl, w, rfl, entering, ?_, ?_⟩⟩
    · exact UInt64.le_iff_toNat_le.mpr (by simp only [toNat_succ more]; omega)
    · rw [tally, last]
    · rw [arrivalsAt, arrivalsAt_append, if_pos rfl]
      exact (congrArg (· + 1) tally).trans last
  · rw [result]
    exact ⟨inv.block entering counts, .of_same rfl⟩

theorem inv_step (inv : Inv s) {e : BarrierEvent P} (fine : s.harmless e = true)
    (h : step s e = some s') : Inv s' ∧ Orderly s e s' := by
  cases e with
  | call w observed =>
    obtain ⟨free, ⟨⟩⟩ := Option.ite_none_right_eq_some.mp h
    unfold call
    by_cases on : s.graphMode = true ∧ s.parties ≠ 0
    · rw [if_pos on]
      exact ⟨inv.setWorker (by simp [free]) (by simp) fun _ _ => on.1, .of_same rfl⟩
    · rw [if_neg on]
      exact ⟨inv, .of_same rfl⟩
  | arrive w =>
    cases place : s.worker w with
    | entering observed =>
      simp only [step, place, Option.some.injEq] at h
      subst h
      exact arrive_keeps inv place fine
    | out => simp [step, place] at h
    | blocked observed => simp [step, place] at h
  | wake w =>
    cases place : s.worker w with
    | blocked observed =>
      simp only [step, place, Option.some.injEq] at h
      subst h
      unfold wake
      by_cases passed : s.superstep ≠ observed
      · rw [if_pos passed]
        exact ⟨inv.setWorker (by simp [place, Ne.symm passed]) (by simp) (by simp), .of_same rfl⟩
      · rw [if_neg passed]
        exact ⟨inv, .of_same rfl⟩
    | out => simp [step, place] at h
    | entering observed => simp [step, place] at h
  | enable p =>
    obtain ⟨-, ⟨⟩⟩ := Option.ite_none_right_eq_some.mp h
    have on : Inv { s with graphMode := true } :=
      ⟨inv.parties, inv.counted, inv.past, inv.tally, fun _ _ _ => rfl, fun _ _ => rfl⟩
    exact ⟨on.setPublisher fun _ => rfl, .of_same rfl⟩
  | storeSuperstep p =>
    obtain ⟨inside, ⟨⟩⟩ := Option.ite_none_right_eq_some.mp h
    have zero : s.superstep = 0 := of_decide_eq_true fine
    have kept : Inv (s.setPublisher p .arrived) :=
      inv.setPublisher fun _ => inv.published p (by simp [inside])
    have same : { s.setPublisher p .arrived with superstep := 0 } = s.setPublisher p .arrived := by
      simp [Barrier.setPublisher, zero]
    rw [same]
    exact ⟨kept, .of_same rfl⟩
  | storeArrived p =>
    obtain ⟨inside, ⟨⟩⟩ := Option.ite_none_right_eq_some.mp h
    have zero : s.arrived = 0 := of_decide_eq_true fine
    have kept : Inv (s.setPublisher p .epoch) :=
      inv.setPublisher fun _ => inv.published p (by simp [inside])
    have same : { s.setPublisher p .epoch with arrived := 0 } = s.setPublisher p .epoch := by
      simp [Barrier.setPublisher, zero]
    rw [same]
    exact ⟨kept, .of_same rfl⟩
  | addEpoch p =>
    obtain ⟨inside, ⟨⟩⟩ := Option.ite_none_right_eq_some.mp h
    have kept : Inv (s.setPublisher p .out) := inv.setPublisher (by simp)
    exact ⟨⟨kept.parties, kept.counted, kept.past, kept.tally, kept.entered, kept.published⟩,
      .of_same rfl⟩

/-- Any other step forgets an arrival or takes the superstep back. -/
theorem harmless_of_kept (inv : Inv s) {e : BarrierEvent P} (h : step s e = some s')
    (orderly : Orderly s e s') (counted : s'.Counted) : s.harmless e = true := by
  cases e with
  | arrive w =>
    apply decide_eq_true
    intro entering opens wraps
    simp only [step, entering, Option.some.injEq] at h
    subst h
    have on := inv.entered w _ entering
    rcases arrive_cases inv entering with ⟨late, -⟩ | ⟨-, -, -, result⟩ | ⟨-, -, waits, -⟩
    · exact late rfl
    · have forward := orderly.monotone on
      rw [result] at forward
      simp only [wraps] at forward
      have zero : s.superstep = 0 := UInt64.le_antisymm forward (UInt64.zero_le)
      rw [zero] at wraps
      exact absurd wraps (by decide)
    · exact waits opens
  | storeSuperstep p =>
    obtain ⟨inside, ⟨⟩⟩ := Option.ite_none_right_eq_some.mp h
    have forward := orderly.monotone (inv.published p (by simp [inside]))
    exact decide_eq_true (UInt64.le_antisymm forward UInt64.zero_le)
  | storeArrived p =>
    obtain ⟨-, ⟨⟩⟩ := Option.ite_none_right_eq_some.mp h
    apply decide_eq_true
    have none : (0 : UInt32).toNat = s.arrived.toNat := counted.trans inv.counted.symm
    exact (UInt32.toNat_inj.mp none).symm
  | _ => rfl

/-! ## Every run -/

theorem inv_reachable (fits : P < 2 ^ 32)
    (h : Machine.Reachable (Machine.guarded step harmless) (ready P) s) : Inv s := by
  refine h.invariant (inv_ready fits) fun r e r' inv moves => ?_
  obtain ⟨fine, moves⟩ := Machine.guarded_eq_some.mp moves
  exact (inv_step inv fine moves).1

/-- As long as the epoch's stores come before the arrivals, all arrivals are counted and open
the barrier in order; a step that breaks this is one that was not harmless. -/
theorem barrier_counts_iff (fits : P < 2 ^ 32)
    (h : Machine.Reachable (Machine.guarded step harmless) (ready P) s) :
    s.Counted ∧ ∀ e s', step s e = some s' →
      (Orderly s e s' ∧ s'.Counted ↔ s.harmless e = true) := by
  have inv := inv_reachable fits h
  refine ⟨inv.counted, fun e s' moves => ⟨?_, ?_⟩⟩
  · rintro ⟨orderly, counted⟩
    exact harmless_of_kept inv moves orderly counted
  · intro fine
    obtain ⟨inv', orderly⟩ := inv_step inv fine moves
    exact ⟨orderly, inv'.counted⟩

end Barrier

section Samples
open Barrier
variable {P : Nat}

/-- The epoch has begun before two workers arrive at superstep 0. -/
def inTurn (v w : Fin P) : List (BarrierEvent P) :=
  [.enable 0, .storeSuperstep 0, .storeArrived 0, .addEpoch 0,
    .call v 0, .call w 0, .arrive v, .arrive w]

theorem twoParties_counted : ∃ s, s.superstep = 1 ∧
    Machine.run (Machine.guarded step harmless) (ready 2) (inTurn 0 1) = some s ∧ s.Counted :=
  ⟨_, rfl, rfl, (barrier_counts_iff (by decide) ⟨inTurn 0 1, rfl⟩).1⟩

/-- A worker sees graph mode and arrives before the publisher resets the count. -/
def earlyArrival (w : Fin P) : List (BarrierEvent P) :=
  [.enable 0, .call w 0, .arrive w, .storeSuperstep 0, .storeArrived 0]

theorem arrival_forgotten : ¬∀ (P : Nat) (s : Barrier P), 0 < P → P < 2 ^ 32 →
    Machine.Reachable step (ready P) s →
      s.Counted ∧ ∀ e s', step s e = some s' → Orderly s e s' := by
  intro claimed
  have counted := (claimed 2 _ (by decide) (by decide) ⟨earlyArrival 0, rfl⟩).1
  exact absurd counted (by unfold Counted; decide)

end Samples

end Yellowstone.Legacy
