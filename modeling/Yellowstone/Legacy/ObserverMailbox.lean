import Yellowstone.Legacy.Observer
import Yellowstone.Library.Threads

/-!
# The mailbox of the observer

What the worker does with the notices, what the atomic count says about the mailbox, and which
notices are left when the worker returns. Loads may overtake the worker's store to `m_wake`.
-/

set_option autoImplicit false

namespace Yellowstone.Legacy

open Machine Threads

namespace Observer
variable {Thread : Type} [DecidableEq Thread] {s s' : Observer Thread} {a : ObserverAction Thread}

/-! ## Leases -/

/-- A state is queued only while `m_run` is between two of them. -/
def mayQueue : RunAt → Nat
  | .absent | .next => 1
  | _ => 0

/-- The calls that the worker is on the way to. -/
def owes (held : Notice) : RunAt → List LeaseCall
  | .decrement n => [n.close, n.release]
  | .drain => [held.close, held.release]
  | .release => [held.release]
  | _ => []

def owed (s : Observer Thread) : List LeaseCall :=
  owes s.held s.worker ++ s.states.flatMap fun x => owes s.held x.enter

structure Leased (s : Observer Thread) : Prop where
  queued : s.states.length ≤ mayQueue s.worker
  order : s.pushed = s.taken ++ s.mailbox
  calls : s.calls ++ s.owed = s.taken.flatMap fun n => [n.close, n.release]

@[simp] theorem mayQueue_enter (x : StateType) : mayQueue x.enter = 0 := by cases x <;> rfl

@[simp] theorem mayQueue_woken (place : RunAt) : mayQueue place.woken = mayQueue place := by
  cases place <;> rfl

@[simp] theorem owes_woken (held : Notice) (place : RunAt) :
    owes held place.woken = owes held place := by
  cases place <;> rfl

omit [DecidableEq Thread] in
theorem Leased.states_eq (inv : Leased s) (busy : mayQueue s.worker = 0) : s.states = [] :=
  List.length_eq_zero_iff.mp (Nat.le_zero.mp (busy ▸ inv.queued))

omit [DecidableEq Thread] in
theorem Leased.work (inv : Leased s) (h : Works s s') : Leased s' := by
  have empty := fun busy => inv.states_eq busy
  obtain ⟨queued, order, calls⟩ := inv
  cases h with
  | returns here none =>
    refine ⟨by simp [goto, mayQueue, none], order, ?_⟩
    simpa [owed, goto, owes, here] using calls
  | enters x states here first =>
    have alone : states = [] := by simpa [here, first, mayQueue] using queued
    refine ⟨by simp [goto, alone], order, ?_⟩
    simpa [owed, goto, owes, here, first, alone] using calls
  | pops n mailbox here front =>
    have none := empty (by simp [here, mayQueue])
    refine ⟨by simp [goto, mayQueue, none], by simp [goto, order, front], ?_⟩
    simp only [owed, here, owes, none, List.flatMap_nil, List.append_nil] at calls
    simp [owed, goto, owes, none, calls]
  | decrements n here =>
    have none := empty (by simp [here, mayQueue])
    refine ⟨by simp [changed, mayQueue, none], order, ?_⟩
    simpa [owed, changed, owes, here, none, StateType.enter] using calls
  | closes here =>
    have none := empty (by simp [here, mayQueue])
    refine ⟨by simp [changed, called, mayQueue, none], order, ?_⟩
    simpa [owed, changed, called, owes, here, none, StateType.enter] using calls
  | gives here | releases here =>
    have none := empty (by simp [here, mayQueue])
    refine ⟨by simp [goto, called, mayQueue, none], order, ?_⟩
    simpa [owed, goto, called, owes, here, none] using calls
  | terminates here =>
    have none := empty (by simp [here, mayQueue])
    refine ⟨by simp [goto, mayQueue], order, ?_⟩
    simpa [owed, goto, owes, here, none] using calls
  | loadsCount here | waits here | wakes here | sleeps here | clears here | releaseLoads here =>
    have none := empty (by simp [here, mayQueue])
    refine ⟨by simp [goto, mayQueue, none], order, ?_⟩
    simpa [owed, goto, owes, here, none] using calls
  | stops here | finds _ here | misses here | releaseFinds here | releaseStops here
  | releaseWaits here | tearsDown here =>
    have none := empty (by simp [here, mayQueue])
    refine ⟨by simp [changed, mayQueue, none], order, ?_⟩
    simpa [owed, changed, owes, here, none, StateType.enter] using calls

theorem Leased.step (inv : Leased s) (h : step s a = some s') : Leased s' := by
  cases step_moves h with
  | works future s' h => exact inv.work h
  | advances here =>
    have none := inv.states_eq (by simp [here, mayQueue])
    have calls := inv.calls
    refine ⟨by simp [changed, mayQueue, none], inv.order, ?_⟩
    simpa [owed, changed, owes, here, none, StateType.enter] using calls
  | pushes c n here room =>
    exact ⟨inv.queued, by simp [move, inv.order], inv.calls⟩
  | notifies c here | stopNotifies here =>
    exact ⟨by simpa [move] using inv.queued, inv.order, by simpa [owed, move] using inv.calls⟩
  | starts idle absent =>
    have queued := inv.queued
    have calls := inv.calls
    rw [absent] at queued
    simp only [owed, absent, owes] at calls
    exact ⟨queued, inv.order, calls⟩
  | joins joining ended =>
    obtain ⟨queued, order, calls⟩ := inv
    rcases ended with absent | returned
    · rw [absent] at queued
      simp only [owed, absent] at calls
      exact ⟨queued, order, calls⟩
    · rw [returned] at queued
      simp only [owed, returned] at calls
      exact ⟨queued.trans (Nat.zero_le _), order, calls⟩
  | rouses here =>
    obtain ⟨queued, order, calls⟩ := inv
    rw [here] at queued
    simp only [owed, here] at calls
    exact ⟨queued, order, calls⟩
  | _ => exact ⟨inv.queued, inv.order, inv.calls⟩

theorem leased_reachable (reached : Reachable step new s) : Leased s := by
  induction reached with
  | start => exact ⟨le_rfl, rfl, rfl⟩
  | next r a r' _ moves inv => exact inv.step moves

/-- Notices are taken in the order of their pushes, each one once. For those taken, in this
order, the worker closes the lease and gives it back, once each; a worker that sleeps or has
returned owes no call. -/
theorem closes_and_releases_each (reached : Reachable step new s) :
    s.pushed = s.taken ++ s.mailbox ∧
      s.calls ++ s.owed = (s.taken.flatMap fun n => [n.close, n.release]) ∧
      (s.worker = .asleep ∨ s.worker = .returned → s.owed = []) := by
  have inv := leased_reachable reached
  refine ⟨inv.order, inv.calls, fun resting => ?_⟩
  have none : s.states = [] := inv.states_eq (by rcases resting with h | h <;> simp [h, mayQueue])
  rcases resting with h | h <;> simp [owed, owes, h, none]

def sampleNotice : Notice := ⟨1, 3, 7, some 3⟩

/-- A thread notifies the observer, which drains the partition and waits again. -/
def sampleNotified : List (ObserverAction Bool) :=
  [.start, .notify false sampleNotice, .push false, .count false, .wake false, .notifyOne false] ++
    List.replicate 14 (.work false)

def sampleServed : Observer Bool := (run step new sampleNotified).getD new

theorem sampleServed_releases :
    sampleServed.calls ++ sampleServed.owed = [.closeLease 1 3 7, .release 1 3 7] := by
  have reached : Reachable step new sampleServed := ⟨sampleNotified, rfl⟩
  have taken : sampleServed.taken = [sampleNotice] := by decide +kernel
  have calls := (closes_and_releases_each reached).2.1
  rw [taken] at calls
  exact calls

/-! ## The count -/

section Count
variable [Fintype Thread]

def isCounting (x : NotifyAt) : Bool := x = .counting

/-- A notice is popped and the count not yet lowered. -/
def popping : RunAt → Nat
  | .decrement _ => 1
  | _ => 0

/-- The worker has found the count positive and relies on it. -/
def relies : RunAt → Bool
  | .popMailbox | .decrement _ => true
  | .loadStop count => count ≠ 0
  | _ => false

structure Counted (s : Observer Thread) : Prop where
  leased : Leased s
  room : s.mailbox.length ≤ kMailboxSize
  count : s.mailboxCount.toNat + howMany isCounting s.place = s.mailbox.length + popping s.worker
  positive : relies s.worker = true ∨ .acquire ∈ s.states → 0 < s.mailboxCount.toNat

@[simp] theorem popping_enter (x : StateType) : popping x.enter = 0 := by cases x <;> rfl

@[simp] theorem popping_woken (place : RunAt) : popping place.woken = popping place := by
  cases place <;> rfl

@[simp] theorem relies_woken (place : RunAt) : relies place.woken = relies place := by
  cases place <;> rfl

@[simp] theorem relies_enter (x : StateType) : relies x.enter = decide (x = .acquire) := by
  cases x <;> rfl

theorem popping_le (place : RunAt) : popping place ≤ 1 := by
  cases place <;> simp [popping]

omit [DecidableEq Thread] in
theorem Counted.count_le (inv : Counted s) : s.mailboxCount.toNat ≤ kMailboxSize + 1 := by
  have := inv.count
  have := inv.room
  have := popping_le s.worker
  omega

omit [DecidableEq Thread] in
/-- `AcquireState` finds a notice. -/
theorem Counted.mailbox_ne (inv : Counted s) (here : s.worker = .popMailbox) :
    s.mailbox ≠ [] := by
  have positive := inv.positive (.inl (by simp [here, relies]))
  have count := inv.count
  simp only [here, popping] at count
  exact List.length_pos_iff.mp (by omega)

theorem pos_of_ne_zero {count : UInt32} (h : count ≠ 0) : 0 < count.toNat :=
  Nat.pos_of_ne_zero fun zero => h (UInt32.toNat_inj.mp zero)

theorem toNat_add_one {count : UInt32} (h : count.toNat ≤ kMailboxSize + 1) :
    (count + 1).toNat = count.toNat + 1 := by
  rw [UInt32.toNat_add]
  unfold kMailboxSize at h
  exact Nat.mod_eq_of_lt (by simp; omega)

theorem toNat_sub_one {count : UInt32} (h : 0 < count.toNat) :
    (count - 1).toNat = count.toNat - 1 := by
  apply UInt32.toNat_sub_of_le
  rw [UInt32.le_iff_toNat_le]
  exact h

omit [DecidableEq Thread] in
theorem Counted.work (inv : Counted s) (h : Works s s') : Counted s' := by
  have leased := inv.leased.work h
  have found := fun here => inv.mailbox_ne here
  have empty := fun busy => inv.leased.states_eq busy
  obtain ⟨-, room, count, positive⟩ := inv
  cases h with
  | returns here none =>
    rw [here] at count
    exact ⟨leased, room, count, by simp [goto, relies, none]⟩
  | enters x states here first =>
    have alone : states = [] := by
      simpa [goto] using leased.states_eq (by simp [goto])
    simp only [here, popping] at count
    refine ⟨leased, room, by simpa [goto] using count, fun h => positive (.inr ?_)⟩
    simp only [goto, alone, relies_enter, List.not_mem_nil, or_false] at h
    simp [first, of_decide_eq_true h]
  | loadsCount here =>
    have none := empty (by simp [here, mayQueue])
    rw [here] at count
    refine ⟨leased, room, count, fun h => ?_⟩
    simp only [goto, relies, none, List.not_mem_nil, or_false] at h
    exact pos_of_ne_zero (of_decide_eq_true h)
  | finds c here some' =>
    rw [here] at count
    exact ⟨leased, room, count, fun _ => positive (.inl (by simp [here, relies, some']))⟩
  | releaseFinds here some' =>
    rw [here] at count
    exact ⟨leased, room, count, fun _ => pos_of_ne_zero some'⟩
  | pops n mailbox here front =>
    rw [here, front] at count
    rw [front] at room
    refine ⟨leased, (Nat.le_succ _).trans room, ?_, fun _ =>
      positive (.inl (by simp [here, relies]))⟩
    simp only [goto, popping, List.length_cons] at count ⊢
    omega
  | misses here none => exact absurd none (found here)
  | decrements n here =>
    have lower := toNat_sub_one (positive (.inl (by simp [here, relies])))
    have positive' := positive (.inl (by simp [here, relies]))
    have none := empty (by simp [here, mayQueue])
    rw [here] at count
    refine ⟨leased, room, ?_, by simp [changed, relies, none]⟩
    simp only [changed, popping, lower] at count ⊢
    omega
  | terminates here =>
    rw [here] at count
    exact ⟨leased, room, count, by simp [goto, relies]⟩
  | waits here | wakes here | sleeps here | clears here | releaseLoads here =>
    have none := empty (by simp [here, mayQueue])
    rw [here] at count
    exact ⟨leased, room, count, by simp [goto, relies, none]⟩
  | stops here | releaseStops here | releaseWaits here | tearsDown here =>
    have none := empty (by simp [here, mayQueue])
    rw [here] at count
    exact ⟨leased, room, count, by simp [changed, relies, none]⟩
  | closes here | gives here | releases here =>
    have none := empty (by simp [here, mayQueue])
    rw [here] at count
    exact ⟨leased, room, count, by simp [changed, called, goto, relies, none]⟩

theorem Counted.step (inv : Counted s) (h : step s a = some s') : Counted s' := by
  have leased := inv.leased.step h
  have bound := inv.count_le
  obtain ⟨-, room, count, positive⟩ := id inv
  cases step_moves h with
  | works future s' h => exact inv.work h
  | advances here =>
    have none := inv.leased.states_eq (by simp [here, mayQueue])
    rw [here] at count
    exact ⟨leased, room, count, by simp [changed, relies, none]⟩
  | calls c n here =>
    have counting := howMany_update isCounting s.place c (.pushing n)
    refine ⟨leased, room, ?_, positive⟩
    simp only [here, isCounting, reduceCtorEq, decide_false, Bool.toNat_false] at counting
    simp only [move]
    omega
  | pushes c n here free =>
    have counting := howMany_update isCounting s.place c .counting
    refine ⟨leased, by simpa [move, Nat.succ_le_iff] using free, ?_, positive⟩
    simp only [here, isCounting, reduceCtorEq, decide_false, decide_true, Bool.toNat_false,
      Bool.toNat_true] at counting
    simp only [move, List.length_append, List.length_cons, List.length_nil]
    omega
  | counts c here =>
    have counting := howMany_update isCounting s.place c .waking
    have higher := toNat_add_one bound
    refine ⟨leased, room, ?_, fun _ => by simp only [higher]; omega⟩
    simp only [here, isCounting, reduceCtorEq, decide_false, decide_true, Bool.toNat_false,
      Bool.toNat_true] at counting
    simp only [move, higher]
    omega
  | wakes c here =>
    have counting := howMany_update isCounting s.place c .notifying
    refine ⟨leased, room, ?_, positive⟩
    simp only [here, isCounting, reduceCtorEq, decide_false, Bool.toNat_false] at counting
    simp only [move]
    omega
  | notifies c here =>
    have counting := howMany_update isCounting s.place c .out
    refine ⟨leased, room, ?_, by simpa [move] using positive⟩
    simp only [here, isCounting, reduceCtorEq, decide_false, Bool.toNat_false] at counting
    simp only [move, popping_woken]
    omega
  | starts idle absent =>
    rw [absent] at count positive
    exact ⟨leased, room, count, positive⟩
  | stopNotifies here => exact ⟨leased, room, by simpa using count, by simpa using positive⟩
  | joins joining ended =>
    rcases ended with here | here
    · rw [here] at count positive
      exact ⟨leased, room, count, positive⟩
    · rw [here] at count positive
      exact ⟨leased, room, count, positive⟩
  | rouses here =>
    rw [here] at count positive
    exact ⟨leased, room, count, positive⟩
  | _ => exact ⟨leased, room, count, positive⟩

theorem counted_reachable (reached : Reachable step new s) : Counted s := by
  induction reached with
  | start =>
    refine ⟨leased_reachable (.refl _), Nat.zero_le _, ?_, by simp [new, relies]⟩
    simp [new, popping, howMany_eq_zero.mpr, isCounting]
  | next r a r' _ moves inv => exact inv.step moves

/-- The count is that of the notices in the mailbox, but for those that their threads have not
counted yet and one that the worker has popped already. It is positive when the worker takes a
notice and when it lowers the count, so the pop succeeds and the count does not wrap. -/
theorem mailbox_counted (reached : Reachable step new s) :
    s.mailboxCount.toNat + howMany isCounting s.place =
        s.mailbox.length + popping s.worker ∧
      s.mailbox.length ≤ kMailboxSize ∧
      (s.worker = .popMailbox → s.mailbox ≠ []) ∧
      ∀ n, s.worker = .decrement n → 0 < s.mailboxCount.toNat := by
  have inv := counted_reachable reached
  refine ⟨inv.count, inv.room, inv.mailbox_ne, fun n here => inv.positive (.inl ?_)⟩
  simp [here, relies]

/-- The thread that pushes last counts first, and the worker pops the other notice. -/
def sampleCrossed : List (ObserverAction Bool) :=
  [.start, .notify false sampleNotice, .notify true ⟨2, 5, 9, some 5⟩, .push false, .push true,
    .count true] ++ List.replicate 5 (.work false)

def samplePopped : Observer Bool := (run step new sampleCrossed).getD new

theorem samplePopped_counted :
    samplePopped.mailboxCount.toNat + howMany isCounting samplePopped.place = 1 + 1 ∧
      0 < samplePopped.mailboxCount.toNat := by
  have reached : Reachable step new samplePopped := ⟨sampleCrossed, rfl⟩
  obtain ⟨count, -, -, positive⟩ := mailbox_counted reached
  exact ⟨count, positive sampleNotice (by decide +kernel)⟩

/-! ## The last load of the count -/

/-- The count was zero when it was loaded, and the worker returns unless it is to go on. -/
def leaves (place : RunAt) : Bool :=
  place = .loadStop 0 ∨ place = .releaseStop ∨ place = .terminate ∨ place = .returned

def Leaving (s : Observer Thread) : Prop :=
  leaves s.worker = true ∨ mayQueue s.worker = 1 ∧ (s.states = [] ∨ s.states = [.terminated])

/-- `k` notices have been counted, and if the worker is leaving, taken. -/
structure Covers (k : Nat) (s : Observer Thread) : Prop where
  inv : Counted s
  counted : k + popping s.worker ≤ s.taken.length + s.mailboxCount.toNat
  taken : Leaving s → k ≤ s.taken.length

@[simp] theorem leaves_woken (place : RunAt) : leaves place.woken = leaves place := by
  cases place <;> rfl

@[simp] theorem leaves_enter (x : StateType) : leaves x.enter = decide (x = .terminated) := by
  cases x <;> rfl

omit [DecidableEq Thread] in
/-- The count is loaded before the flag, and both lead out only if the count was zero. -/
theorem Covers.work {k : Nat} (cover : Covers k s) (h : Works s s') : Covers k s' := by
  have inv := cover.inv.work h
  have empty := fun busy => cover.inv.leased.states_eq busy
  have positive := cover.inv.positive
  obtain ⟨-, counted, taken⟩ := cover
  cases h with
  | returns here none =>
    rw [here] at counted
    exact ⟨inv, counted, fun _ => taken (.inr ⟨by simp [here, mayQueue], .inl none⟩)⟩
  | enters x states here first =>
    have alone : states = [] := by simpa [goto] using inv.leased.states_eq (by simp [goto])
    simp only [here, popping] at counted
    refine ⟨inv, by simpa [goto] using counted, fun leaving => taken (.inr ?_)⟩
    simp only [Leaving, goto, leaves_enter, mayQueue_enter] at leaving
    exact ⟨by simp [here, mayQueue], .inr (by simpa [first, alone] using leaving)⟩
  | loadsCount here =>
    simp only [here, popping] at counted
    refine ⟨inv, counted, fun leaving => ?_⟩
    simp only [Leaving, goto, leaves, mayQueue] at leaving
    have zero : s.mailboxCount = 0 := by simpa using leaving
    simpa [goto, zero] using counted
  | releaseLoads here zero =>
    simp only [here, popping] at counted
    refine ⟨inv, counted, fun _ => by simpa [goto, zero] using counted⟩
  | stops here | releaseStops here =>
    have none := empty (by simp [here, mayQueue])
    have before := taken (.inl (by simp [here, leaves]))
    simp only [here, popping] at counted
    exact ⟨inv, counted, fun _ => before⟩
  | terminates here =>
    have before := taken (.inl (by simp [here, leaves]))
    simp only [here, popping] at counted
    exact ⟨inv, counted, fun _ => before⟩
  | pops n mailbox here front =>
    have none := empty (by simp [here, mayQueue])
    simp only [here, popping] at counted
    refine ⟨inv, ?_, fun leaving => ?_⟩
    · simp only [goto, popping, List.length_append, List.length_singleton]
      omega
    · simp [Leaving, goto, leaves, mayQueue] at leaving
  | decrements n here =>
    have none := empty (by simp [here, mayQueue])
    have lower := toNat_sub_one (positive (.inl (by simp [here, relies])))
    simp only [here, popping] at counted
    refine ⟨inv, ?_, fun leaving => ?_⟩
    · simp only [changed, popping, lower]
      omega
    · simp [Leaving, changed, leaves, none] at leaving
  | waits here | wakes here | sleeps here | clears here =>
    simp only [here, popping] at counted
    exact ⟨inv, counted, fun leaving => by simp [Leaving, goto, leaves, mayQueue] at leaving⟩
  | gives here | releases here =>
    simp only [here, popping] at counted
    exact ⟨inv, counted, fun leaving => by simp [Leaving, goto, leaves, mayQueue] at leaving⟩
  | finds _ here | misses here | closes here | releaseFinds here
  | releaseWaits here | tearsDown here =>
    have none := empty (by simp [here, mayQueue])
    simp only [here, popping] at counted
    refine ⟨inv, counted, fun leaving => ?_⟩
    simp [Leaving, changed, called, leaves, none] at leaving

theorem Covers.step {k : Nat} (cover : Covers k s) (h : step s a = some s') : Covers k s' := by
  have inv := cover.inv.step h
  have bound := cover.inv.count_le
  obtain ⟨-, counted, taken⟩ := id cover
  cases step_moves h with
  | works future s' h => exact cover.work h
  | advances here =>
    have none := cover.inv.leased.states_eq (by simp [here, mayQueue])
    simp only [here, popping] at counted
    refine ⟨inv, counted, fun leaving => ?_⟩
    simp [Leaving, changed, leaves, none] at leaving
  | counts c here =>
    have higher := toNat_add_one bound
    refine ⟨inv, ?_, taken⟩
    simp only [move, higher]
    omega
  | notifies c here | stopNotifies here =>
    exact ⟨inv, by simpa [move] using counted, by simpa [Leaving, move] using taken⟩
  | starts idle absent =>
    simp only [absent, popping] at counted
    exact ⟨inv, counted, fun leaving =>
      taken (by simpa [Leaving, absent, leaves, mayQueue] using leaving)⟩
  | joins joining ended =>
    rcases ended with here | here
    · simp only [here, popping] at counted
      exact ⟨inv, counted, fun leaving => taken (by simpa [Leaving, here] using leaving)⟩
    · simp only [here, popping] at counted
      exact ⟨inv, counted, fun _ => taken (.inl (by simp [here, leaves]))⟩
  | rouses here =>
    simp only [here, popping] at counted
    exact ⟨inv, counted, fun leaving => by simp [Leaving, goto, leaves, mayQueue] at leaving⟩
  | _ => exact ⟨inv, counted, taken⟩

theorem covers_later {k : Nat} (cover : Covers k s) (later : Reachable step s s') :
    Covers k s' := by
  induction later with
  | start => exact cover
  | next r a r' _ moves ih => exact ih.step moves

omit [DecidableEq Thread] in
/-- As many notices as have been counted. -/
theorem Counted.covers (inv : Counted s) (staying : ¬Leaving s) :
    Covers (s.pushed.length - howMany isCounting s.place) s := by
  have popped : popping s.worker ≤ s.mailboxCount.toNat := by
    cases here : s.worker with
    | decrement n => exact inv.positive (.inl (by simp [here, relies]))
    | _ => exact Nat.zero_le _
  refine ⟨inv, ?_, fun leaving => absurd leaving staying⟩
  have count := inv.count
  rw [inv.leased.order, List.length_append]
  omega

/-- `m_run` has come to its end; `TerminatedState` has emptied the queue of states. -/
structure Finished (s : Observer Thread) : Prop where
  ended : s.worker = .absent ∨ s.worker = .next ∨ s.worker = .returned
  states : s.states = []

omit [Fintype Thread] in
theorem Finished.step (inv : Finished s) (h : step s a = some s') :
    Finished s' ∧ s'.taken = s.taken := by
  obtain ⟨ended, none⟩ := inv
  cases step_moves h with
  | works future s' h =>
    cases h with
    | returns here _ => exact ⟨⟨.inr (.inr rfl), none⟩, rfl⟩
    | enters x states here first => cases none.symm.trans first
    | _ => simp_all
  | notifies c here | stopNotifies here =>
    refine ⟨⟨?_, none⟩, rfl⟩
    rcases ended with here | here | here <;> simp [here, RunAt.woken]
  | starts idle absent => exact ⟨⟨.inr (.inl rfl), none⟩, rfl⟩
  | joins joining ended => exact ⟨⟨.inl rfl, none⟩, rfl⟩
  | advances here | rouses here => simp_all
  | _ => exact ⟨⟨ended, none⟩, rfl⟩

/-- When the worker has returned, it has taken at least as many notices as had been counted by
the time of any state in which it was not leaving; nothing is taken after its return, restarts
included. -/
theorem returns_having_taken {s'' : Observer Thread} (reached : Reachable step new s)
    (staying : ¬Leaving s) (later : Reachable step s s') (returned : s'.worker = .returned)
    (after : Reachable step s' s'') :
    s.pushed.length ≤ s'.taken.length + howMany isCounting s.place ∧ s''.taken = s'.taken := by
  have cover := covers_later ((counted_reachable reached).covers staying) later
  have taken := cover.taken (.inl (by simp [returned, leaves]))
  refine ⟨by omega, ?_⟩
  have none : s'.states = [] := cover.inv.leased.states_eq (by simp [returned, mayQueue])
  have ended : Finished s'' ∧ s''.taken = s'.taken := by
    induction after with
    | start => exact ⟨⟨.inr (.inr returned), none⟩, rfl⟩
    | next r a r' _ moves ih =>
      obtain ⟨ended, same⟩ := ih.1.step moves
      exact ⟨ended, same.trans ih.2⟩
  exact ended.2

def sampleCounting : List (ObserverAction Bool) :=
  [.start, .work false, .notify false sampleNotice, .push false, .count false]

/-- The observer is stopped, and started again with a notice in its mailbox. -/
def sampleStopped : List (ObserverAction Bool) := .stop :: List.replicate 14 (.work false)

def sampleRestarted : List (ObserverAction Bool) :=
  [.stopWake, .stopNotifyOne, .join, .start, .notify true ⟨2, 5, 9, some 5⟩, .push true,
    .count true, .work false]

def sampleCounted : Observer Bool := (run step new sampleCounting).getD new

def sampleReturned : Observer Bool := (run step sampleCounted sampleStopped).getD new

theorem sampleReturned_taken :
    sampleCounted.pushed.length ≤
        sampleReturned.taken.length + howMany isCounting sampleCounted.place ∧
      ((run step sampleReturned sampleRestarted).getD new).taken = sampleReturned.taken := by
  have staying : ¬Leaving sampleCounted := by
    simp [Leaving, show sampleCounted.worker = .loadCount from rfl, leaves, mayQueue]
  exact returns_having_taken ⟨sampleCounting, rfl⟩ staying ⟨sampleStopped, rfl⟩ rfl
    ⟨sampleRestarted, rfl⟩

/-- Two threads push, and only the one that pushed last counts. The worker returns when it has
taken the other's notice, and leaves the one that was counted. -/
example : (run step (new : Observer Bool) ([.start, .notify false sampleNotice, .push false,
    .notify true ⟨2, 5, 9, some 5⟩, .push true, .count true, .stop] ++
    List.replicate 15 (.work false))).map (fun s => (s.worker, s.mailbox, s.taken)) =
    some (.returned, [⟨2, 5, 9, some 5⟩], [sampleNotice]) := by
  decide +kernel

/-- A `notify` that has returned before `stop` is called, but after the worker's last load of
the count: its notice is left in the mailbox. -/
example : (run step (new : Observer Bool) ([.start, .work false, .work false,
    .notify false sampleNotice, .push false, .count false, .wake false, .notifyOne false, .stop] ++
    List.replicate 4 (.work false))).map (fun s => (s.worker, s.mailbox, s.taken)) =
    some (.returned, [sampleNotice], []) := by
  decide +kernel

end Count

end Observer

end Yellowstone.Legacy
