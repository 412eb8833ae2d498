import Yellowstone.Legacy.ObserverWaking
import Yellowstone.Library.Progress

/-!
# The observer comes to rest

Once no call begins, every step brings the observer closer to a state in which nothing is left
to do, if the worker's store to `m_wake` is not overtaken by a load.
-/

set_option autoImplicit false

namespace Yellowstone.Legacy

open Machine Threads

namespace Observer
variable {Thread : Type} [DecidableEq Thread] {s s' : Observer Thread} {a : ObserverAction Thread}

/-- Partitions of notices are pointed to. -/
def pointed (_ : Observer Thread) : ObserverAction Thread → Bool
  | .notify _ n => n.partition ≠ none
  | _ => true

def orderly (s : Observer Thread) (a : ObserverAction Thread) : Bool :=
  s.inOrder a && s.pointed a

/-- No call begins, and nobody wakes without a reason. -/
def prompt (s : Observer Thread) (a : ObserverAction Thread) : Bool :=
  s.inOrder a &&
    match a with
    | .notify _ _ | .start | .stop | .rouse => false
    | _ => true

def pending : NotifyAt → List Notice
  | .pushing n => [n]
  | _ => []

/-- The notice whose partition the worker is to drain. -/
def drains (held : Notice) : RunAt → List Notice
  | .decrement n => [n]
  | .drain => [held]
  | _ => []

def drainable (s : Observer Thread) : List Notice :=
  drains s.held s.worker ++ s.states.flatMap fun x => drains s.held x.enter

/-- A property of the notices whose partitions are still to be drained. -/
structure Carry (P : Notice → Prop) (s : Observer Thread) : Prop where
  calls : ∀ c, ∀ n ∈ pending (s.place c), P n
  mailbox : ∀ n ∈ s.mailbox, P n
  worker : ∀ n ∈ s.drainable, P n

variable {P : Notice → Prop}

@[simp] theorem drains_woken (held : Notice) (place : RunAt) :
    drains held place.woken = drains held place := by
  cases place <;> rfl

omit [DecidableEq Thread] in
theorem Carry.work (inv : Carry P s) (leased : Leased s) (h : Works s s') : Carry P s' := by
  have after := leased.work h
  have empty := fun busy => leased.states_eq busy
  obtain ⟨calls, mailbox, own⟩ := inv
  cases h with
  | returns here none =>
    exact ⟨calls, mailbox, by simp [drainable, goto, drains, none]⟩
  | enters x states here first =>
    have alone : states = [] := by simpa [goto] using after.states_eq (by simp [goto])
    refine ⟨calls, mailbox, ?_⟩
    simpa [drainable, goto, drains, here, first, alone] using own
  | pops n rest here front =>
    have none := empty (by simp [here, mayQueue])
    rw [front] at mailbox
    refine ⟨calls, fun m hm => mailbox m (List.mem_cons_of_mem _ hm), fun m hm => ?_⟩
    obtain rfl : m = n := by simpa [drainable, goto, drains, none] using hm
    exact mailbox m List.mem_cons_self
  | decrements n here =>
    have none := empty (by simp [here, mayQueue])
    refine ⟨calls, mailbox, ?_⟩
    simpa [drainable, changed, drains, here, none, StateType.enter] using own
  | loadsCount here | waits here | wakes here | sleeps here | clears here | gives here
  | releases here | releaseLoads here | terminates here =>
    have none := empty (by simp [here, mayQueue])
    exact ⟨calls, mailbox, by simp [drainable, goto, called, drains, none]⟩
  | stops here | finds _ here | misses here | closes here | releaseFinds here
  | releaseStops here | releaseWaits here | tearsDown here =>
    have none := empty (by simp [here, mayQueue])
    exact ⟨calls, mailbox, by simp [drainable, changed, called, drains, none, StateType.enter]⟩

theorem pending_move {c : Thread} {x : NotifyAt} (calls : ∀ d, ∀ n ∈ pending (s.place d), P n)
    (own : ∀ n ∈ pending x, P n) (d : Thread) : ∀ n ∈ pending ((s.move c x).place d), P n := by
  by_cases same : d = c
  · subst same
    simpa [move] using own
  · simpa [move, same] using calls d

theorem Carry.step (inv : Carry P s) (leased : Leased s) (begun : ∀ c n, a = .notify c n → P n)
    (h : step s a = some s') : Carry P s' := by
  obtain ⟨calls, mailbox, own⟩ := id inv
  cases step_moves h with
  | works future s' h => exact inv.work leased h
  | calls c n here =>
    refine ⟨pending_move calls fun m hm => ?_, mailbox, own⟩
    obtain rfl := List.mem_singleton.mp hm
    exact begun c m rfl
  | pushes c n here room =>
    refine ⟨pending_move calls nofun, fun m hm => ?_, own⟩
    rcases List.mem_append.mp hm with hm | hm
    · exact mailbox m hm
    · obtain rfl := List.mem_singleton.mp hm
      exact calls c m (by simp [here, pending])
  | counts c here | wakes c here => exact ⟨pending_move calls nofun, mailbox, own⟩
  | notifies c here =>
    exact ⟨pending_move calls nofun, mailbox, by simpa [drainable, move] using own⟩
  | stopNotifies here => exact ⟨calls, mailbox, by simpa [drainable] using own⟩
  | starts out here =>
    simp only [drainable, here, drains] at own
    exact ⟨calls, mailbox, own⟩
  | joins joining ended =>
    rcases ended with here | here
    · simp only [drainable, here, drains] at own
      exact ⟨calls, mailbox, own⟩
    · simp only [drainable, here, drains] at own
      exact ⟨calls, mailbox, own⟩
  | rouses here =>
    simp only [drainable, here, drains] at own
    exact ⟨calls, mailbox, own⟩
  | advances here =>
    have none := leased.states_eq (by simp [here, mayQueue])
    exact ⟨calls, mailbox, by simp [drainable, changed, drains, none, StateType.enter]⟩
  | _ => exact ⟨calls, mailbox, own⟩

/-! ## What is left to do -/

def notifyLeft : NotifyAt → Nat
  | .out => 0
  | .pushing _ => 42
  | .counting => 21
  | .waking => 14
  | .notifying => 7

def stopLeft : StopAt → Nat
  | .out => 0
  | .waking => 15
  | .notifying => 8
  | .joining => 1

/-- The worker's steps until it sleeps, pops a notice or clears the flag. -/
def workLeft : RunAt → Nat
  | .absent | .asleep | .returned => 0
  | .next | .popMailbox => 1
  | .clearWake | .terminate => 2
  | .loadWake => 3
  | .loadStop _ => 5
  | .loadCount => 6
  | .barrier | .releaseStop | .teardown => 8
  | .releaseCount => 9
  | .release => 10
  | .drain => 12
  | .decrement _ => 14

def ownLeft (s : Observer Thread) : Nat :=
  workLeft s.worker + (s.states.map fun x => workLeft x.enter).sum

/-- The flag makes the worker go round once more, and its store is to reach memory. -/
def flagLeft (wake storing : Bool) : Nat :=
  if storing then 1 else if wake then 6 else 0

section Rank
variable [Fintype Thread]

def rank (s : Observer Thread) : Nat :=
  14 * s.mailbox.length + total notifyLeft s.place + stopLeft s.stopper +
    flagLeft s.wake s.storing + ownLeft s

omit [DecidableEq Thread] in
theorem work_descends (inv : Counted s) (alert : Alert s) (h : Works s s') :
    rank s' < rank s := by
  have empty := fun busy => inv.leased.states_eq busy
  cases h with
  | returns here none => simp [rank, ownLeft, goto, workLeft, here, none]
  | enters x states here first => simp [rank, ownLeft, goto, workLeft, here, first]
  | clears here =>
    have none := empty (by simp [here, mayQueue])
    have quiet : s.storing = false := Bool.eq_false_iff.mpr fun storing => by
      cases (alert.storing storing).symm.trans here
    simp [rank, ownLeft, goto, workLeft, here, none, flagLeft, quiet, alert.armed here]
  | pops n mailbox here front =>
    have none := empty (by simp [here, mayQueue])
    simp only [rank, ownLeft, goto, workLeft, here, none, front, List.length_cons, List.map_nil,
      List.sum_nil]
    omega
  | misses here none => exact absurd none (inv.mailbox_ne here)
  | loadsCount here | waits here | wakes here | sleeps here | gives here | releases here
  | releaseLoads here | terminates here =>
    have none := empty (by simp [here, mayQueue])
    simp [rank, ownLeft, goto, called, workLeft, here, none]
  | stops here | finds _ here | decrements _ here | closes here | releaseFinds here
  | releaseStops here | releaseWaits here | tearsDown here =>
    have none := empty (by simp [here, mayQueue])
    simp [rank, ownLeft, changed, called, workLeft, here, none, StateType.enter]

theorem workLeft_woken (place : RunAt) : workLeft place.woken ≤ workLeft place + 3 := by
  cases place <;> simp [RunAt.woken, workLeft]

theorem flagLeft_wake (wake storing : Bool) :
    flagLeft true storing ≤ flagLeft wake storing + 6 := by
  cases wake <;> cases storing <;> simp [flagLeft]

/-- What the invariants say of every state of an orderly run. -/
structure Orderly (s : Observer Thread) : Prop where
  counted : Counted s
  alert : Alert s
  pointed : Carry (fun n => n.partition ≠ none) s

theorem Orderly.step (inv : Orderly s) (h : guarded step orderly s a = some s') : Orderly s' := by
  obtain ⟨allowed, moves⟩ := guarded_eq_some.mp h
  obtain ⟨ordered, points⟩ := Bool.and_eq_true_iff.mp allowed
  refine ⟨inv.counted.step moves, inv.alert.step (guarded_eq_some.mpr ⟨ordered, moves⟩),
    inv.pointed.step inv.counted.leased (fun c n call => ?_) moves⟩
  subst call
  exact of_decide_eq_true points

theorem orderly_reachable (reached : Reachable (guarded step orderly) new s) : Orderly s := by
  induction reached with
  | start =>
    refine ⟨counted_reachable (.refl _), alert_reachable (.refl _), ?_, by simp [new], ?_⟩
    · simp [new, pending]
    · simp [new, drainable, drains, StateType.enter]
  | next r a r' _ moves inv => exact inv.step moves

omit [DecidableEq Thread] [Fintype Thread] in
theorem orderly_of_prompt (h : s.prompt a = true) : s.orderly a = true := by
  obtain ⟨ordered, quiet⟩ := Bool.and_eq_true_iff.mp h
  refine Bool.and_eq_true_iff.mpr ⟨ordered, ?_⟩
  cases a <;> simp [pointed] at quiet ⊢

theorem prompt_descends (inv : Orderly s) (h : guarded step prompt s a = some s') :
    rank s' < rank s := by
  obtain ⟨allowed, moves⟩ := guarded_eq_some.mp h
  cases step_moves moves with
  | works future s' h => exact work_descends inv.counted inv.alert h
  | pushes c n here room =>
    have left := total_update notifyLeft s.place c .counting
    simp only [here, notifyLeft] at left
    simp only [rank, ownLeft, move, List.length_append, List.length_singleton]
    omega
  | counts c here =>
    have left := total_update notifyLeft s.place c .waking
    simp only [here, notifyLeft] at left
    simp only [rank, ownLeft, move]
    omega
  | wakes c here =>
    have left := total_update notifyLeft s.place c .notifying
    have flag := flagLeft_wake s.wake s.storing
    simp only [here, notifyLeft] at left
    simp only [rank, ownLeft, move]
    omega
  | notifies c here =>
    have left := total_update notifyLeft s.place c .out
    have woken := workLeft_woken s.worker
    simp only [here, notifyLeft] at left
    simp only [rank, ownLeft, move]
    omega
  | stopWakes here =>
    have flag := flagLeft_wake s.wake s.storing
    simp only [rank, ownLeft, stopLeft, here]
    omega
  | stopNotifies here =>
    have woken := workLeft_woken s.worker
    simp only [rank, ownLeft, stopLeft, here]
    omega
  | joins joining ended =>
    rcases ended with here | here
    · simp [rank, ownLeft, stopLeft, joining, here]
    · simp [rank, ownLeft, stopLeft, joining, here, workLeft]
  | arrives storing => simp [rank, ownLeft, flagLeft, storing]
  | advances here =>
    have none := inv.counted.leased.states_eq (by simp [here, mayQueue])
    simp [rank, ownLeft, changed, workLeft, here, none, StateType.enter]
  | _ => simp [prompt, inOrder] at allowed

omit [DecidableEq Thread] in
theorem rank_le (inv : Counted s) :
    rank s ≤ 14 * kMailboxSize + 42 * Fintype.card Thread + 35 := by
  have notifiers : total notifyLeft s.place ≤ 42 * Fintype.card Thread :=
    total_le fun x => by cases x <;> simp [notifyLeft]
  have stopper : stopLeft s.stopper ≤ 15 := by cases s.stopper <;> simp [stopLeft]
  have flag : flagLeft s.wake s.storing ≤ 6 := by
    cases s.wake <;> cases s.storing <;> simp [flagLeft]
  have own : ownLeft s ≤ 14 := by
    have queued := inv.leased.queued
    unfold ownLeft
    match states : s.states with
    | [] => cases s.worker <;> simp [workLeft]
    | [x] =>
      rw [states] at queued
      cases here : s.worker <;> simp [here, mayQueue] at queued <;>
        cases x <;> simp [workLeft, StateType.enter]
    | _ :: _ :: _ =>
      rw [states] at queued
      cases here : s.worker <;> simp [here, mayQueue] at queued
  have room := inv.room
  unfold rank
  omega

/-! ## Rest -/

/-- The worker waits for a notice: all are taken, and every call has returned. -/
structure Resting (s : Observer Thread) : Prop where
  worker : s.worker = .asleep
  running : s.stop = false
  stopper : s.stopper = .out
  place : ∀ c, s.place c = .out
  taken : s.taken = s.pushed

/-- There is no worker, and a call of `notify` that has not returned finds the mailbox full. -/
structure Over (s : Observer Thread) : Prop where
  worker : s.worker = .absent ∨ s.worker = .returned
  stopper : s.stopper = .out
  place : ∀ c, s.place c = .out ∨
    ((∃ n, s.place c = .pushing n) ∧ s.mailbox.length = kMailboxSize)

/-- Some thread can go on, and not because other workers arrive at the barrier. -/
def HasNext (s : Observer Thread) : Prop :=
  ∃ a r, a ≠ .advance ∧ guarded step prompt s a = some r

omit [DecidableEq Thread] in
theorem work_enabled (inv : Orderly s) (absent : s.worker ≠ .absent) (awake : s.worker ≠ .asleep)
    (unreturned : s.worker ≠ .returned) (passed : s.worker ≠ .barrier) :
    ∃ s', s.work false = some s' := by
  have room : ∀ {place}, s.worker = place → mayQueue place = 0 →
      s.states.length < kMaxStateBufferSize := fun here busy => by
    rw [inv.counted.leased.states_eq (here ▸ busy)]
    decide
  unfold work
  cases here : s.worker with
  | next => cases s.states <;> exact ⟨_, rfl⟩
  | loadStop count =>
    unfold wait changeState
    rw [if_pos (room here rfl), if_pos (room here rfl)]
    dsimp only
    split
    · exact ⟨_, rfl⟩
    · split <;> exact ⟨_, rfl⟩
  | popMailbox =>
    unfold acquire
    cases mailbox : s.mailbox with
    | nil => exact absurd mailbox (inv.counted.mailbox_ne here)
    | cons n rest => exact ⟨_, rfl⟩
  | drain =>
    have some' := inv.pointed.worker s.held (by simp [drainable, here, drains])
    simp only [drain, if_neg some', changeState, called]
    exact ⟨_, if_pos (room here rfl)⟩
  | decrement n => exact ⟨_, if_pos (room here rfl)⟩
  | releaseStop => exact ⟨_, if_pos (room here rfl)⟩
  | teardown => exact ⟨_, if_pos (room here rfl)⟩
  | releaseCount =>
    simp only [changeState, if_pos (room here rfl)]
    split <;> exact ⟨_, rfl⟩
  | loadCount | loadWake | clearWake | release | terminate => exact ⟨_, rfl⟩
  | absent | asleep | barrier | returned => contradiction

omit [Fintype Thread] in
/-- A thread in a call goes on, unless it finds the mailbox full. -/
theorem notify_enabled (c : Thread) (inside : s.place c ≠ .out)
    (room : (∃ n, s.place c = .pushing n) → s.mailbox.length < kMailboxSize) :
    HasNext s := by
  cases here : s.place c with
  | out => exact absurd here inside
  | pushing n =>
    have free := room ⟨n, here⟩
    exact ⟨.push c, _, by simp,
      guarded_eq_some.mpr ⟨rfl, by simp only [step, here, if_pos free]; rfl⟩⟩
  | counting => exact ⟨.count c, _, by simp, guarded_eq_some.mpr ⟨rfl, if_pos here⟩⟩
  | waking => exact ⟨.wake c, _, by simp, guarded_eq_some.mpr ⟨rfl, if_pos here⟩⟩
  | notifying => exact ⟨.notifyOne c, _, by simp, guarded_eq_some.mpr ⟨rfl, if_pos here⟩⟩

/-- Where no step is possible there is nothing left to do, unless the worker waits for others. -/
theorem rests_if_stuck (inv : Orderly s) (stuck : ¬HasNext s) :
    Resting s ∨ Over s ∨ s.worker = .barrier := by
  have blocked := fun a s' (own : a ≠ .advance) (h : guarded step prompt s a = some s') =>
    stuck ⟨a, s', own, h⟩
  have place : ∀ c, s.place c = .out ∨
      (∃ n, s.place c = .pushing n) ∧ kMailboxSize ≤ s.mailbox.length := by
    intro c
    by_contra inside
    simp only [not_or, not_and, not_le] at inside
    exact stuck (notify_enabled c inside.1 inside.2)
  have still : s.stopper ≠ .waking ∧ s.stopper ≠ .notifying :=
    ⟨fun here => blocked .stopWake _ nofun (guarded_eq_some.mpr ⟨rfl, if_pos here⟩),
      fun here => blocked .stopNotifyOne _ nofun (guarded_eq_some.mpr ⟨rfl, if_pos here⟩)⟩
  have quiet : s.storing = false := Bool.eq_false_iff.mpr fun storing =>
    blocked .storeArrives _ nofun (guarded_eq_some.mpr ⟨rfl, if_pos storing⟩)
  by_cases ended : s.worker = .absent ∨ s.worker = .returned
  · refine .inr (.inl ⟨ended, ?_, fun c => (place c).imp_right (And.imp_right fun full => ?_)⟩)
    · cases here : s.stopper with
      | out => rfl
      | waking => exact absurd here still.1
      | notifying => exact absurd here still.2
      | joining =>
        exact (blocked .join _ nofun (guarded_eq_some.mpr ⟨rfl, if_pos ⟨here, ended⟩⟩)).elim
    · exact le_antisymm inv.counted.room full
  by_cases waits : s.worker = .barrier
  · exact .inr (.inr waits)
  · left
    obtain ⟨present, unreturned⟩ := not_or.mp ended
    have asleep : s.worker = .asleep := by
      by_contra awake
      obtain ⟨s', works⟩ := work_enabled inv present awake unreturned waits
      exact blocked (.work false) s' nofun
        (guarded_eq_some.mpr ⟨by simp [prompt, inOrder, quiet], works⟩)
    have unwanted : ¬(s.mailboxCount ≠ 0 ∨ s.stop = true) := fun wanted => by
      rcases inv.alert.about_to_wake asleep wanted with ⟨c, here | here⟩ | here | here
      · rcases place c with out | ⟨⟨n, pushing⟩, -⟩
        · cases out.symm.trans here
        · cases pushing.symm.trans here
      · rcases place c with out | ⟨⟨n, pushing⟩, -⟩
        · cases out.symm.trans here
        · cases pushing.symm.trans here
      · exact still.1 here
      · exact still.2 here
    obtain ⟨zero, running⟩ := not_or.mp unwanted
    have zero : s.mailboxCount = 0 := not_not.mp zero
    have running : s.stop = false := Bool.eq_false_iff.mpr running
    have uncounted : howMany isCounting s.place = 0 := howMany_eq_zero.mpr fun c => by
      rcases place c with out | ⟨⟨n, pushing⟩, -⟩
      · simp [out, isCounting]
      · simp [pushing, isCounting]
    have empty : s.mailbox.length = 0 := by
      have count := inv.counted.count
      simp only [zero, asleep, popping, uncounted, UInt32.toNat_zero] at count
      omega
    refine ⟨asleep, running, ?_, fun c => (place c).resolve_right ?_, ?_⟩
    · by_contra inside
      cases (inv.alert.stopping inside).symm.trans running
    · rintro ⟨-, full⟩
      rw [empty] at full
      exact absurd full (by decide)
    · rw [inv.counted.leased.order, List.length_eq_zero_iff.mp empty, List.append_nil]

/-- When no call begins any more, the steps are bounded; there is always a next one until every
notice is taken and every call has returned, or there is no worker, or the worker waits for the
other workers of a superstep. -/
theorem comes_to_rest (reached : Reachable (guarded step orderly) new s)
    {as : List (ObserverAction Thread)} (runs : run (guarded step prompt) s as = some s') :
    as.length ≤ 14 * kMailboxSize + 42 * Fintype.card Thread + 35 ∧
      (HasNext s' ∨ Resting s' ∨ Over s' ∨ s'.worker = .barrier) := by
  have inv := orderly_reachable reached
  have next : ∀ (r : Observer Thread) a r', Orderly r → guarded step prompt r a = some r' →
      Orderly r' ∧ rank r' < rank r := fun r a r' kept moves => by
    obtain ⟨allowed, steps⟩ := guarded_eq_some.mp moves
    exact ⟨kept.step (guarded_eq_some.mpr ⟨orderly_of_prompt allowed, steps⟩),
      prompt_descends kept moves⟩
  obtain ⟨kept, descended⟩ := descends next inv runs
  have bound := rank_le inv.counted
  refine ⟨by omega, ?_⟩
  by_cases stuck : HasNext s'
  · exact .inl stuck
  · exact .inr (rests_if_stuck kept stuck)

/-- The notice is taken, and the worker sleeps again. -/
def sampleServe : List (ObserverAction Bool) :=
  [.wake false, .notifyOne false] ++ List.replicate 2 (.work false) ++ .storeArrives ::
    List.replicate 15 (.work false)

def sampleRest : Observer Bool := (run (guarded step prompt) sampleAsleep sampleServe).getD new

theorem sampleRest_rests :
    (sampleServe.length ≤ 14 * kMailboxSize + 42 * Fintype.card Bool + 35 ∧
      (HasNext sampleRest ∨ Resting sampleRest ∨ Over sampleRest ∨
        sampleRest.worker = .barrier)) ∧
      sampleRest.worker = .asleep ∧ sampleRest.taken = [sampleNotice] := by
  have reached : Reachable (guarded step orderly) new sampleAsleep := ⟨sampleSleep, rfl⟩
  have runs : run (guarded step prompt) sampleAsleep sampleServe = some sampleRest := rfl
  exact ⟨comes_to_rest reached runs, rfl, by decide +kernel⟩

end Rank

end Observer

end Yellowstone.Legacy
