import Yellowstone.Legacy.LeaseCustody

/-!
# Leases come home

Once publishers acquire no more, every step of the observers, of the exchange and of those who
still have a lease to pass on brings the bus closer to a state in which the partitions are
back, except those of observers without a worker or whose worker waits for the others of its
superstep.
-/

set_option autoImplicit false

namespace Yellowstone.Legacy

open Machine Threads Exchange

namespace Observer
variable {Thread : Type} [DecidableEq Thread] {s s' : Observer Thread} {a : ObserverAction Thread}

/-- A step makes two calls at most. -/
theorem step_calls_le (h : step s a = some s') : s'.calls.length ≤ s.calls.length + 2 := by
  cases step_moves h with
  | works future s' h =>
    cases h with
    | closes here | gives here | releases here => simp [called, changed, goto]
    | _ => exact Nat.le_add_right _ _
  | _ => exact Nat.le_add_right _ _

theorem rank_pushing [Fintype Thread] {c : Thread} (here : s.place c = .out) (n : Notice) :
    (s.move c (.pushing n)).rank = s.rank + 42 := by
  have moved := total_update notifyLeft s.place c (.pushing n)
  simp only [here, notifyLeft] at moved
  simp only [rank, ownLeft, move]
  omega

end Observer

namespace EventBus
variable {Thread : Type} [DecidableEq Thread] {s s' : EventBus Thread} {w : WorkerID}

/-- The workers' stores are not overtaken. -/
def inOrder (s : EventBus Thread) : EventBusAction Thread → Bool
  | .observe w a => (s.observer w).inOrder a
  | _ => true

/-- What is still to be done for the subscribers of a set goes on, and nothing else. -/
def settling (subscribers : Finset WorkerID) (s : EventBus Thread) :
    EventBusAction Thread → Bool
  | .acquire _ => false
  | .notify w _ _ | .serve w => w ∈ subscribers
  | .observe w a => w ∈ subscribers ∧ (s.observer w).prompt a = true

omit [DecidableEq Thread] in
theorem inOrder_of_settling {subscribers : Finset WorkerID} {a : EventBusAction Thread}
    (h : settling subscribers s a = true) : inOrder s a = true := by
  cases a with
  | observe w a => exact (Bool.and_eq_true_iff.mp (of_decide_eq_true h).2).1
  | _ => rfl

section Rank
variable [Fintype Thread]

structure Orderly (s : EventBus Thread) : Prop where
  kept : Kept s
  each : ∀ w, (s.observer w).Orderly

theorem Orderly.step (inv : Orderly s) {a : EventBusAction Thread}
    (h : guarded step inOrder s a = some s') : Orderly s' := by
  obtain ⟨allowed, taken⟩ := guarded_eq_some.mp h
  refine ⟨inv.kept.step taken, fun w => ?_⟩
  have steps := inv.kept.steps taken
  by_cases other : w ≠ a.subscriber
  · rw [(inv.kept.same steps other).observer]
    exact inv.each w
  obtain rfl := not_not.mp other
  cases steps with
  | refused w | leases w | serves w => exact inv.each w
  | notifies w c l o own moves =>
    rw [show EventBus.observer _ _ = o from Function.update_self ..]
    exact (inv.each w).step (guarded_eq_some.mpr ⟨rfl, moves⟩)
  | observes w a o begun moves =>
    rw [show EventBus.observer _ _ = o from Function.update_self ..]
    refine (inv.each w).step (guarded_eq_some.mpr ⟨Bool.and_eq_true_iff.mpr ⟨allowed, ?_⟩, moves⟩)
    cases a with
    | notify c n => exact absurd rfl (begun c n)
    | _ => rfl

theorem orderly_reachable (reached : Reachable (guarded step inOrder) new s) : Orderly s := by
  apply reached.invariant ⟨kept_new, fun w => Observer.orderly_reachable (.refl _)⟩
  exact fun _ _ _ inv moves => inv.step moves

omit [Fintype Thread] in
theorem Local.calls_le (kept : Local s w) : (s.observer w).calls.length - s.served w ≤ 2 := by
  obtain ⟨leased, -, -, stage, holds⟩ := kept
  have size := congrArg List.length holds.left
  have made := leased.calls_le
  have atMost : (stage.left w).length ≤ 2 := by cases stage <;> simp [Stage.left]
  rw [EventBus.left, List.length_drop] at size
  omega

/-- A call that is being made weighs less than the step that makes it, and a lease more than
the call that passes it on. -/
def rank (s : EventBus Thread) (w : WorkerID) : Nat :=
  3 * (s.observer w).rank + ((s.observer w).calls.length - s.served w) +
    127 * (s.acquired w).length

omit [DecidableEq Thread] in
theorem rank_same (same : Same s s' w) : s'.rank w = s.rank w := by
  rw [rank, same.observer, same.served, same.acquired, rank]

theorem rank_descends (inv : Orderly s) {subscribers : Finset WorkerID}
    {a : EventBusAction Thread} (h : guarded step (settling subscribers) s a = some s') :
    a.subscriber ∈ subscribers ∧ s'.rank a.subscriber < s.rank a.subscriber := by
  obtain ⟨allowed, taken⟩ := guarded_eq_some.mp h
  have steps := inv.kept.steps taken
  clear h taken
  cases steps with
  | refused w | leases w => cases allowed
  | notifies w c l o own moves =>
    refine ⟨of_decide_eq_true allowed, ?_⟩
    obtain ⟨out, ⟨⟩⟩ := Option.ite_none_right_eq_some.mp moves
    have shorter := List.length_erase_of_mem own
    have some' := List.length_pos_of_mem own
    have heavier := Observer.rank_pushing out (l.notice w)
    simp only [EventBusAction.subscriber, rank, observed, Function.update_self, heavier, shorter]
    simp only [Observer.move]
    omega
  | observes w a o begun moves =>
    obtain ⟨inside, prompt⟩ := of_decide_eq_true allowed
    refine ⟨inside, ?_⟩
    have lower := Observer.prompt_descends (inv.each w) (guarded_eq_some.mpr ⟨prompt, moves⟩)
    have calls := Observer.step_calls_le moves
    simp only [EventBusAction.subscriber, rank, observed, Function.update_self]
    omega
  | serves w call exchange calling below moves =>
    refine ⟨of_decide_eq_true allowed, ?_⟩
    simp only [EventBusAction.subscriber, rank, Function.update_self]
    omega

theorem rank_le (inv : Orderly s) (w : WorkerID) :
    s.rank w ≤ 3 * (14 * kMailboxSize + 42 * Fintype.card Thread + 35) + 129 := by
  have observer := Observer.rank_le (inv.each w).counted
  have calls := (inv.kept.each w).calls_le
  have acquired := (inv.kept.each w).onTheWay_le ∅
  simp only [onTheWay] at acquired
  unfold rank
  omega

end Rank

/-! ## Home -/

/-- No step of the observer's own is left, and it may have notices. -/
def Halted (s : EventBus Thread) (w : WorkerID) : Prop :=
  (s.observer w).Over ∨ (s.observer w).worker = .barrier

/-- The subscribers are idle, and the partitions are ready but for those leased for other
subscribers, for one whose observer has no worker, or for one whose worker waits for the others
of its superstep. -/
structure Home (s : EventBus Thread) (subscribers : Finset WorkerID) : Prop where
  idle : ∀ w ∈ subscribers, Idle s w ∨ Halted s w
  ready : ∀ pid, InArray pid → pid ∈ s.exchange.ready ∨
    ∃ w l, s.exchange.dispatcher.tryGet w = some l ∧ l.pid = pid ∧
      (w ∈ subscribers → Halted s w)

/-- Something is left to be done, and not because other workers arrive at the barrier. -/
def HasNext (s : EventBus Thread) (subscribers : Finset WorkerID) : Prop :=
  ∃ a r, (∀ w, a ≠ .observe w .advance) ∧ guarded step (settling subscribers) s a = some r

/-- A call that a worker is in is served. -/
theorem Kept.serve_enabled (inv : Kept s) {call : LeaseCall} (calls : s.call w = some call) :
    ∃ s', s.step (.serve w) = some s' := by
  have granted : ∃ exchange, s.exchange.step call = some exchange := by
    cases (inv.each w).calling calls with
    | closes l holds _ =>
      exact ⟨_, if_pos (inv.partitioned.exclusive.held w l holds.lease)⟩
    | releases l holds _ =>
      rcases release_cases inv.partitioned.roomy holds.lease l.pid l.gen with
        ⟨-, answers⟩ | ⟨-, rc, -, answers⟩
      · exact ⟨_, congrArg (Option.map _) answers⟩
      · exact ⟨_, congrArg (Option.map _) answers⟩
  obtain ⟨exchange, serves⟩ := granted
  simp only [EventBus.step, calls, serves, Option.map_some]
  exact ⟨_, rfl⟩

/-- A lease is passed on through a thread that is in no call. -/
theorem notify_enabled {l : Lease} (own : l ∈ s.acquired w) {c : Thread}
    (out : (s.observer w).place c = .out) : ∃ s', s.step (.notify w c l) = some s' := by
  rw [step, if_pos own, Observer.step, if_pos out]
  exact ⟨_, rfl⟩

/-- A worker that is in no call goes on as its observer says. -/
theorem observe_enabled (none : s.call w = none) {a : ObserverAction Thread} {o : Observer Thread}
    (moves : guarded Observer.step Observer.prompt (s.observer w) a = some o) :
    s.step (.observe w a) = some (s.observed w o) := by
  obtain ⟨prompt, steps⟩ := guarded_eq_some.mp moves
  have may : s.mayTake w a = true := by
    cases a with
    | notify c n => simp [Observer.prompt] at prompt
    | work future | advance => simp [mayTake, none]
    | _ => rfl
  rw [step, if_pos may, steps, Option.map_some]

section Rank
variable [Fintype Thread] {subscribers : Finset WorkerID}

/-- Where no step is possible, an observer has nothing to do with the exchange any more, or it
is halted. -/
theorem idle_if_stuck [Nonempty Thread] (inv : Orderly s) (inside : w ∈ subscribers)
    (stuck : ¬HasNext s subscribers) : Idle s w ∨ Halted s w := by
  have none : s.call w = none := by
    cases calls : s.call w with
    | none => rfl
    | some call =>
      obtain ⟨r, serves⟩ := inv.kept.serve_enabled calls
      exact (stuck ⟨.serve w, r, nofun,
        guarded_eq_some.mpr ⟨decide_eq_true inside, serves⟩⟩).elim
  have halts : ¬(s.observer w).HasNext := by
    rintro ⟨a, o, own, moves⟩
    have prompt := (guarded_eq_some.mp moves).1
    refine stuck ⟨.observe w a, _, fun v same => ?_, guarded_eq_some.mpr
      ⟨decide_eq_true ⟨inside, prompt⟩, observe_enabled none moves⟩⟩
    exact own (EventBusAction.observe.inj same).2
  rcases Observer.rests_if_stuck (inv.each w) halts with resting | ended
  · left
    refine ⟨?_, none, .inl resting⟩
    by_contra left
    obtain ⟨l, own⟩ := List.exists_mem_of_ne_nil _ left
    obtain ⟨c⟩ := ‹Nonempty Thread›
    obtain ⟨r, notifies⟩ := notify_enabled own (resting.place c)
    exact stuck ⟨.notify w c l, r, nofun,
      guarded_eq_some.mpr ⟨decide_eq_true inside, notifies⟩⟩
  · exact .inr ended

/-- When no partition is acquired any more, the steps are bounded, and there is always a next
one until the partitions are back or their workers wait for the others of a superstep. -/
theorem leases_come_home [Nonempty Thread] (reached : Reachable (guarded step inOrder) new s)
    {as : List (EventBusAction Thread)}
    (runs : run (guarded step (settling subscribers)) s as = some s') :
    as.length ≤ subscribers.card *
        (3 * (14 * kMailboxSize + 42 * Fintype.card Thread + 35) + 129) ∧
      (HasNext s' subscribers ∨ Home s' subscribers) := by
  have inv := orderly_reachable reached
  have next : ∀ (r : EventBus Thread) a r', Orderly r →
      guarded step (settling subscribers) r a = some r' →
      Orderly r' ∧ ∑ w ∈ subscribers, r'.rank w < ∑ w ∈ subscribers, r.rank w := by
    intro r a r' kept moves
    obtain ⟨allowed, steps⟩ := guarded_eq_some.mp moves
    refine ⟨kept.step (guarded_eq_some.mpr ⟨inOrder_of_settling allowed, steps⟩), ?_⟩
    obtain ⟨inside, lower⟩ := rank_descends kept moves
    refine Finset.sum_lt_sum (fun w _ => ?_) ⟨a.subscriber, inside, lower⟩
    by_cases other : w = a.subscriber
    · exact other ▸ lower.le
    · exact (rank_same (kept.kept.same (kept.kept.steps steps) other)).le
  obtain ⟨kept, descended⟩ := descends next inv runs
  have bound : ∑ w ∈ subscribers, s.rank w ≤ subscribers.card *
      (3 * (14 * kMailboxSize + 42 * Fintype.card Thread + 35) + 129) :=
    Finset.sum_le_card_nsmul _ _ _ fun w _ => rank_le inv w
  refine ⟨by omega, ?_⟩
  by_cases stuck : HasNext s' subscribers
  · exact .inl stuck
  have idle := fun w inside => idle_if_stuck (w := w) kept inside stuck
  refine .inr ⟨idle, fun pid inArray => ?_⟩
  rcases kept.kept.partitioned.exclusive.once pid inArray with
    ⟨once, -⟩ | ⟨-, w, ⟨l, held, here⟩, -⟩
  · refine .inl (List.count_pos_iff.mp ?_)
    omega
  · refine .inr ⟨w, l, held, here, fun inside => (idle w inside).resolve_left fun home => ?_⟩
    cases held.symm.trans (home.free (kept.kept.each w))

/-- The worker gives the lease back and goes to sleep. -/
def sampleReturned : List (EventBusAction Unit) :=
  .serve 1 :: List.replicate 7 (.observe 1 (.work false)) ++ .observe 1 .storeArrives ::
    List.replicate 3 (.observe 1 (.work false))

def sampleHome : EventBus Unit :=
  (run (guarded step (settling {1})) sampleReleasing sampleReturned).getD new

theorem sampleHome_home :
    (sampleReturned.length ≤ ({1} : Finset WorkerID).card *
        (3 * (14 * kMailboxSize + 42 * Fintype.card Unit + 35) + 129) ∧
      (HasNext sampleHome {1} ∨ Home sampleHome {1})) ∧
      sampleHome.exchange.ready = [1, 2, 3, 4, 5, 6, 7, 8, 9, 10, 11, 12, 13, 14, 15, 0] := by
  have reached : Reachable (guarded step inOrder) new sampleReleasing :=
    ⟨sampleAnnounced ++ sampleClosed, rfl⟩
  have runs : run (guarded step (settling {1})) sampleReleasing sampleReturned = some sampleHome :=
    rfl
  exact ⟨leases_come_home reached runs, by decide +kernel⟩

end Rank

end EventBus

end Yellowstone.Legacy
