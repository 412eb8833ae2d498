import Mathlib.Data.Prod.Lex
import Yellowstone.Scheduling.Scheduler

/-!
# The deadline order, and never early

Items compare by `(forwardAt, insertionOrder)` in the lexicographic order. Only the timing
thread removes from the heap, so the root it read before a wait is still there after it, and
a root that has not become smaller is then a root with the same key.
-/

set_option autoImplicit false

namespace Yellowstone

open Machine

namespace ScheduledItem
variable {Payload : Type}

def key (i : ScheduledItem Payload) : Lex (TimePoint × Nat) := toLex (i.forwardAt, i.insertionOrder)

theorem key_lt {i j : ScheduledItem Payload} : i.key < j.key ↔ i.forwardAt < j.forwardAt ∨
    (i.forwardAt = j.forwardAt ∧ i.insertionOrder < j.insertionOrder) := by
  simp [key, Prod.Lex.lt_iff]

theorem key_eq {i j : ScheduledItem Payload} : i.key = j.key ↔
    i.forwardAt = j.forwardAt ∧ i.insertionOrder = j.insertionOrder := by
  simp [key]

end ScheduledItem

variable {Payload : Type}

theorem earlierDeadline_iff {i j : ScheduledItem Payload} :
    earlierDeadline i j = true ↔ j.key < i.key := by
  unfold earlierDeadline
  rw [ScheduledItem.key_lt]
  split <;> grind

instance : IsStrictWeakOrder (ScheduledItem Payload) fun i j => earlierDeadline i j = true where
  irrefl i := by simp [earlierDeadline_iff]
  trans i j k := by
    simp only [earlierDeadline_iff]
    exact fun hij hjk => hjk.trans hij
  incomp_trans i j k := by
    simp only [earlierDeadline_iff, not_lt]
    exact fun hij hjk => ⟨hij.1.trans hjk.1, hjk.2.trans hij.2⟩

namespace Scheduler
variable {s s' : Scheduler Payload} {a : SchedulerAction Payload} {now : TimePoint}

theorem rootChanged_eq_false {d : TimePoint} {o : Nat} : s.rootChanged d o = false ↔
    ∃ root, s.heap.top = some root ∧ toLex (d, o) ≤ root.key := by
  unfold rootChanged
  cases s.heap.top with
  | none => simp
  | some root =>
    simp only [Bool.or_eq_false_iff, Bool.and_eq_false_iff, decide_eq_false_iff_not,
      Option.some.injEq, exists_eq_left', ScheduledItem.key, Prod.Lex.toLex_le_toLex]
    grind

theorem top_key_le {heap : TreeHeap (ScheduledItem Payload)} {root i : ScheduledItem Payload}
    (ordered : heap.Ordered earlierDeadline) (top : heap.top = some root)
    (hi : i ∈ heap.values) : root.key ≤ i.key := by
  have best := TreeHeap.top_not_outranked ordered top i hi
  by_contra later
  have outranked := earlierDeadline_iff.mpr (not_le.mp later)
  simp [best] at outranked

/-- The root read last is still in the heap, under this key. -/
def Seen (s : Scheduler Payload) (d : TimePoint) (o : Nat) : Prop :=
  ∃ root ∈ s.heap.values, s.observed = some root ∧ root.key = toLex (d, o)

/-- What the timing thread may rely on at a statement between reading a root and extracting. -/
def Expects (s : Scheduler Payload) : Worker Payload → Prop
  | .timedTest d o | .timedBlock d o | .timedBlocked d o | .timedWoken d o => s.Seen d o
  | .timedOut d o clock => s.Seen d o ∧ d ≤ clock
  | .elapsed d o clock => s.Seen d o ∧ d ≤ clock ∧ s.rootChanged d o = false
  | _ => True

structure Watching (s : Scheduler Payload) : Prop where
  ordered : s.heap.Ordered earlierDeadline
  expects : s.Expects s.worker

theorem expects_congr {w : Worker Payload} (heap : s'.heap = s.heap)
    (observed : s'.observed = s.observed) : s'.Expects w ↔ s.Expects w := by
  cases w <;> simp [Expects, Seen, rootChanged, heap, observed]

theorem expects_woken {w : Worker Payload} (h : s.Expects w) : s.Expects w.woken := by
  cases w <;> exact h

theorem Watching.of_same (inv : Watching s) (heap : s'.heap = s.heap)
    (observed : s'.observed = s.observed) (worker : s.Expects s'.worker) : Watching s' :=
  ⟨heap ▸ inv.ordered, (expects_congr heap observed).mpr worker⟩

theorem Seen.grow {d : TimePoint} {o : Nat} (h : s.Seen d o)
    (kept : ∀ i ∈ s.heap.values, i ∈ s'.heap.values) (observed : s'.observed = s.observed) :
    s'.Seen d o := by
  obtain ⟨root, hroot, seen, key⟩ := h
  exact ⟨root, kept root hroot, observed.trans seen, key⟩

theorem seen_schedule {d : TimePoint} {o : Nat} (h : s.Seen d o) (r : Request Payload) :
    (s.schedule r).Seen d o := by
  unfold schedule
  split
  · exact h.grow (fun i hi => (TreeHeap.values_push earlierDeadline s.heap _).mem_iff.mpr
      (List.mem_cons_of_mem _ hi)) rfl
  · exact h

theorem expects_schedule {w : Worker Payload} (h : s.Expects w)
    (unlocked : w.holdsLock = false) (r : Request Payload) : (s.schedule r).Expects w := by
  cases w with
  | timedTest | timedBlock | timedOut | elapsed => cases unlocked
  | timedBlocked | timedWoken => exact seen_schedule h r
  | _ => trivial

theorem watching_schedule (inv : Watching s) (unlocked : s.worker.holdsLock = false)
    (r : Request Payload) : Watching (s.schedule r) := by
  have expects : (s.schedule r).Expects s.worker := expects_schedule inv.expects unlocked r
  refine ⟨?_, worker_schedule (s := s) (r := r) ▸ expects⟩
  unfold schedule
  split
  · exact TreeHeap.ordered_push inv.ordered _
  · exact inv.ordered

theorem Moves.watching {w w' : Worker Payload} {o : Option (ScheduledItem Payload)}
    (h : Moves s w w' o) (inv : s.Expects w) :
    { s with worker := w', observed := o }.Expects w' := by
  cases h with
  | observe root _ top =>
    refine ⟨root, ?_, rfl, rfl⟩
    cases hh : s.heap with
    | none => simp [hh, TreeHeap.top] at top
    | some t =>
      simp only [hh, TreeHeap.top, Option.some.injEq] at top
      simp [← top, HeapTree.values]
  | timedOn | timedBlock | timedAgain => exact inv
  | timeout d o due => exact ⟨inv, due⟩
  | elapse d o c quiet => exact ⟨inv.1, inv.2, (Bool.or_eq_false_iff.mp quiet).2⟩
  | _ => trivial

theorem watching_step (inv : Watching s) (h : step s a = some s') : Watching s' := by
  cases a with
  | schedule r =>
    obtain ⟨unlocked, rfl⟩ := step_schedule.mp h
    exact watching_schedule inv unlocked r
  | notify id =>
    obtain ⟨-, rfl⟩ := step_notify.mp h
    exact inv.of_same rfl rfl (expects_woken inv.expects)
  | start created =>
    obtain ⟨-, -, rfl⟩ := step_start.mp h
    unfold start
    split
    · exact inv
    · split
      · exact inv.of_same rfl rfl trivial
      · exact inv.of_same rfl rfl inv.expects
  | stop =>
    obtain ⟨-, -, rfl⟩ := step_stop.mp h
    exact inv.of_same rfl rfl inv.expects
  | requestStop =>
    obtain ⟨-, ⟨-, rfl⟩ | ⟨-, rfl⟩⟩ := step_requestStop.mp h
    · exact inv.of_same rfl rfl inv.expects
    · exact inv.of_same rfl rfl inv.expects
  | notifyAll =>
    obtain ⟨-, rfl⟩ := step_notifyAll.mp h
    exact inv.of_same rfl rfl (expects_woken inv.expects)
  | join =>
    obtain ⟨-, -, rfl⟩ := step_join.mp h
    exact inv.of_same rfl rfl trivial
  | stopReturn =>
    obtain ⟨-, rfl⟩ := step_stopReturn.mp h
    exact inv.of_same rfl rfl inv.expects
  | setClock now => cases h; exact inv.of_same rfl rfl inv.expects
  | wake =>
    obtain ⟨-, rfl⟩ := step_wake.mp h
    exact inv.of_same rfl rfl (expects_woken inv.expects)
  | work timeout =>
    rcases workStep_cases h with ⟨w, o, move, rfl⟩ | ⟨d, o, c, due, heap, -, -, he, rfl⟩ |
      ⟨due, -, rfl⟩
    · exact ⟨inv.ordered, move.watching inv.expects⟩
    · exact ⟨TreeHeap.ordered_extract inv.ordered he, trivial⟩
    · exact ⟨TreeHeap.ordered_push inv.ordered due, trivial⟩
  | settle outcome =>
    obtain ⟨due, -, rfl⟩ := step_settle.mp h
    cases outcome <;> exact inv.of_same rfl rfl trivial

theorem watching_reachable (h : Reachable step (initial now) s) : Watching s :=
  h.invariant ⟨trivial, trivial⟩ fun _ _ _ inv hstep => watching_step inv hstep

theorem woken_eq_publishing {w : Worker Payload} {due : ScheduledItem Payload} :
    w.woken = .publishing due ↔ w = .publishing due := by
  cases w <;> simp [Worker.woken]

theorem Moves.not_publishing {w w' : Worker Payload} {o : Option (ScheduledItem Payload)}
    (h : Moves s w w' o) (due : ScheduledItem Payload) : w' ≠ .publishing due := by
  cases h <;> exact nofun

/-- One step begins a publication attempt for an item. -/
def Begins (s s' : Scheduler Payload) (due : ScheduledItem Payload) : Prop :=
  (∃ a, step s a = some s') ∧ s.worker ≠ .publishing due ∧ s'.worker = .publishing due

theorem begins_cases {due : ScheduledItem Payload} (begins : Begins s s' due) :
    ∃ d o c heap, s.worker = .elapsed d o c ∧ s.stopRequested = false ∧
      TreeHeap.extract earlierDeadline s.heap = some (due, heap) ∧
      s' = { s with heap := heap, worker := .publishing due } := by
  obtain ⟨⟨a, h⟩, fresh, attempt⟩ := begins
  cases a with
  | schedule r =>
    obtain ⟨-, rfl⟩ := step_schedule.mp h
    exact absurd (worker_schedule ▸ attempt) fresh
  | notify id =>
    obtain ⟨-, rfl⟩ := step_notify.mp h
    exact absurd (woken_eq_publishing.mp attempt) fresh
  | start created =>
    obtain ⟨-, -, rfl⟩ := step_start.mp h
    unfold start at attempt
    split at attempt
    · exact absurd attempt fresh
    · split at attempt
      · cases attempt
      · exact absurd attempt fresh
  | stop =>
    obtain ⟨-, -, rfl⟩ := step_stop.mp h
    exact absurd attempt fresh
  | requestStop =>
    obtain ⟨-, ⟨-, rfl⟩ | ⟨-, rfl⟩⟩ := step_requestStop.mp h
    · exact absurd attempt fresh
    · exact absurd attempt fresh
  | notifyAll =>
    obtain ⟨-, rfl⟩ := step_notifyAll.mp h
    exact absurd (woken_eq_publishing.mp attempt) fresh
  | join =>
    obtain ⟨-, -, rfl⟩ := step_join.mp h
    cases attempt
  | stopReturn =>
    obtain ⟨-, rfl⟩ := step_stopReturn.mp h
    exact absurd attempt fresh
  | setClock now => cases h; exact absurd attempt fresh
  | wake =>
    obtain ⟨-, rfl⟩ := step_wake.mp h
    exact absurd (woken_eq_publishing.mp attempt) fresh
  | work timeout =>
    rcases workStep_cases h with ⟨w, o, move, rfl⟩ | ⟨d, o, c, due', heap, hw, running, he, rfl⟩ |
      ⟨due', -, rfl⟩
    · exact absurd attempt (move.not_publishing due)
    · cases attempt
      exact ⟨d, o, c, heap, hw, running, he, rfl⟩
    · cases attempt
  | settle outcome =>
    obtain ⟨due', -, rfl⟩ := step_settle.mp h
    cases outcome <;> cases attempt

theorem top_of_extract {heap rest : TreeHeap (ScheduledItem Payload)} {due : ScheduledItem Payload}
    (he : TreeHeap.extract earlierDeadline heap = some (due, rest)) : heap.top = some due := by
  cases heap <;> cases he
  rfl

/-- Whenever an attempt begins, its item has the key that was read before the wait, and the
clock that ended the wait had reached its deadline. -/
theorem never_early {due : ScheduledItem Payload} (reached : Reachable step (initial now) s)
    (begins : Begins s s' due) :
    ∃ root clock, s.worker = .elapsed root.forwardAt root.insertionOrder clock ∧
      s.observed = some root ∧ due.forwardAt = root.forwardAt ∧
      due.insertionOrder = root.insertionOrder ∧ due.forwardAt ≤ clock := by
  obtain ⟨d, o, clock, heap, hw, -, he, -⟩ := begins_cases begins
  obtain ⟨ordered, expects⟩ := watching_reachable reached
  rw [hw] at expects
  obtain ⟨⟨root, hroot, seen, key⟩, elapsed, unchanged⟩ := expects
  obtain ⟨top, htop, later⟩ := rootChanged_eq_false.mp unchanged
  have extracted := htop.symm.trans (top_of_extract he)
  cases extracted
  have same : due.key = root.key := le_antisymm (top_key_le ordered htop hroot) (key ▸ later)
  obtain ⟨hd, ho⟩ := ScheduledItem.key_eq.mp same
  have observed : root.forwardAt = d ∧ root.insertionOrder = o := by
    simpa [ScheduledItem.key] using key
  obtain ⟨rfl, rfl⟩ := observed
  exact ⟨root, clock, hw, seen, hd, ho, hd ▸ elapsed⟩

/-- One request for time 5, with the clock at 6 when the wait for it ends. -/
def sampleLabels : List (SchedulerAction Nat) :=
  [.start true, .schedule ⟨none, 7, 70, 5, 0⟩, .work false] ++ timedWait 6

def sampleWait : Scheduler Nat := (run step (initial 0) sampleLabels).getD (initial 0)

def sampleAttempt : Scheduler Nat := (step sampleWait (.work false)).getD (initial 0)

theorem sampleWait_not_early : ∃ root clock,
    sampleWait.worker = .elapsed root.forwardAt root.insertionOrder clock ∧
      sampleWait.observed = some root ∧ 5 = root.forwardAt ∧ 0 = root.insertionOrder ∧
      5 ≤ clock := by
  have reached : Reachable step (initial 0) sampleWait := ⟨sampleLabels, by decide +kernel⟩
  have next : step sampleWait (.work false) = some sampleAttempt := by decide +kernel
  have begins : Begins sampleWait sampleAttempt ⟨5, 0, 1, none, 7, 0, 70⟩ :=
    ⟨⟨_, next⟩, by decide +kernel, by decide +kernel⟩
  exact never_early reached begins

end Scheduler

end Yellowstone
