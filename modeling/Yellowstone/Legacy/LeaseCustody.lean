import Yellowstone.Legacy.LeaseHandover

/-!
# What leases guarantee

A lease gives its holder the partition alone. The calls that workers make on the exchange are
never refused, and leases close once if no generation 0 is drawn.
-/

set_option autoImplicit false

namespace Yellowstone.Legacy

open Machine Exchange

namespace EventBus
variable {Thread : Type} [DecidableEq Thread] {s s' : EventBus Thread} {w : WorkerID}

/-- Who may touch the events of a partition. -/
inductive Accessor where
  | publisher (w : WorkerID)
  | worker (w : WorkerID)

def Accessor.subscriber : Accessor → WorkerID
  | publisher w | worker w => w

/-- A publisher that has acquired the partition, or a worker that drains it. -/
def Accesses (s : EventBus Thread) (pid : PartitionID) : Accessor → Prop
  | .publisher w => ∃ l ∈ s.acquired w, l.pid = pid
  | .worker w => (s.observer w).worker = .drain ∧ (s.observer w).held.partition = some pid

/-- A worker that drains a partition has the lease, and both its calls to make. -/
theorem Local.drains (kept : Local s w) {stage : Stage Thread} (holds : Holds s w stage)
    (here : (s.observer w).worker = .drain) {pid : PartitionID}
    (held : (s.observer w).held.partition = some pid) :
    ∃ l, stage = .worker l ∧ l.pid = pid := by
  obtain ⟨leased, carry, bound, -⟩ := kept
  have states := leased.states_eq (by simp [here, Observer.mayQueue])
  have owed : (s.observer w).owed =
      [(s.observer w).held.close, (s.observer w).held.release] := by
    simp [Observer.owed, Observer.owes, here, states]
  have pointed : (s.observer w).held.partition = some (s.observer w).held.partitionId :=
    carry.worker _ (by simp [Observer.drainable, Observer.drains, here])
  have left : s.left w = (s.observer w).calls.drop (s.served w) ++
      [(s.observer w).held.close, (s.observer w).held.release] := by
    rw [EventBus.left, Observer.dues, ← leased.calls, owed, List.drop_append_of_le_length bound]
  have size := congrArg List.length (left.symm.trans holds.left)
  rw [List.length_append] at size
  cases stage with
  | worker l =>
    have none : (s.observer w).calls.drop (s.served w) = [] := by
      apply List.eq_nil_of_length_eq_zero
      simpa [Stage.left] using size
    rw [none, List.nil_append, holds.left] at left
    have close := (List.cons.inj left).1
    simp only [Notice.close, Lease.notice, LeaseCall.closeLease.injEq] at close
    rw [pointed] at held
    exact ⟨l, rfl, close.2.1.trans (Option.some.inj held)⟩
  | closed l => simp [Stage.left] at size
  | _ => simp [Stage.left] at size

/-- The stage at which a lease is. -/
def Accessor.stage (l : Lease) : Accessor → Stage Thread
  | publisher _ => .publisher l
  | worker _ => .worker l

theorem Kept.accessor (inv : Kept s) {pid : PartitionID} {x : Accessor} (h : s.Accesses pid x) :
    ∃ l, Holds s x.subscriber (x.stage l) ∧ l.pid = pid := by
  cases x with
  | publisher w =>
    obtain ⟨l, own, same⟩ := h
    obtain ⟨-, -, -, stage, holds⟩ := inv.each w
    rw [holds.acquired] at own
    cases stage with
    | publisher l' =>
      obtain rfl := List.mem_singleton.mp own
      exact ⟨l, holds, same⟩
    | _ => cases own
  | worker w =>
    obtain ⟨here, held⟩ := h
    obtain ⟨-, -, -, stage, holds⟩ := id (inv.each w)
    obtain ⟨l, rfl, same⟩ := (inv.each w).drains holds here held
    exact ⟨l, holds, same⟩

/-- At no time can two publishers or workers access a partition, and nobody accesses one that
is ready to be acquired. -/
theorem accessed_exclusively (reached : Reachable step new s) {pid : PartitionID}
    {x y : Accessor} (accesses : s.Accesses pid x) (accesses' : s.Accesses pid y) :
    x = y ∧ pid ∉ s.exchange.ready := by
  have inv := kept_reachable reached
  obtain ⟨l, holds, rfl⟩ := inv.accessor accesses
  obtain ⟨l', holds', shared⟩ := inv.accessor accesses'
  have lease : s.exchange.dispatcher.tryGet x.subscriber = some l :=
    holds.lease.trans (by cases x <;> rfl)
  have lease' : s.exchange.dispatcher.tryGet y.subscriber = some l' :=
    holds'.lease.trans (by cases y <;> rfl)
  refine ⟨?_, inv.partitioned.notMem_ready lease⟩
  have same : y.subscriber = x.subscriber := by
    by_contra other
    exact inv.partitioned.apart lease lease' other shared
  cases x with
  | publisher w =>
    cases y with
    | publisher w' => exact congrArg Accessor.publisher same.symm
    | worker w' =>
      obtain rfl : w' = w := same
      cases holds.acquired.symm.trans holds'.acquired
  | worker w =>
    cases y with
    | publisher w' =>
      obtain rfl : w' = w := same
      cases holds.acquired.symm.trans holds'.acquired
    | worker w' => exact congrArg Accessor.worker same.symm

/-- A publisher acquires a partition for subscriber 1, whose worker takes the notice. -/
def sampleAnnounced : List (EventBusAction Unit) :=
  [.observe 1 .start, .acquire 1, .notify 1 () ⟨0, 1⟩, .observe 1 (.push ()),
    .observe 1 (.count ()), .observe 1 (.wake ()), .observe 1 (.notifyOne ())] ++
    List.replicate 7 (.observe 1 (.work false))

def sampleDraining : EventBus Unit := (run step new sampleAnnounced).getD new

theorem sampleDraining_exclusive : (0 : PartitionID) ∉ sampleDraining.exchange.ready := by
  have draining : sampleDraining.Accesses 0 (.worker 1) := ⟨rfl, rfl⟩
  exact (accessed_exclusively ⟨sampleAnnounced, rfl⟩ draining draining).2

/-- The leases that publishers have for the subscriber, that some of its callers are passing on,
and that wait for the worker. -/
def onTheWay (s : EventBus Thread) (w : WorkerID) (callers : Finset Thread) : Nat :=
  (s.acquired w).length + ∑ c ∈ callers, (Observer.pending ((s.observer w).place c)).length +
    (s.observer w).mailbox.length

/-- No more than one lease of a subscriber is on its way to the worker. -/
theorem Local.onTheWay_le (kept : Local s w) (callers : Finset Thread) :
    s.onTheWay w callers ≤ 1 := by
  obtain ⟨-, -, -, stage, holds⟩ := kept
  simp only [onTheWay, holds.acquired, holds.pushing, holds.queued]
  cases stage with
  | notifier d l =>
    have one : ∑ c ∈ callers, ((Stage.notifier d l).pushing w c).length =
        if d ∈ callers then 1 else 0 := by
      rw [← Finset.sum_ite_eq' callers d fun _ => 1]
      exact Finset.sum_congr rfl fun c _ => apply_ite List.length ..
    rw [one]
    split <;> simp [Stage.acquired, Stage.queued]
  | _ => simp [Stage.acquired, Stage.pushing, Stage.queued]

/-- The call that a worker is in names the lease registered to it, and a release is granted. No
more than one lease of a subscriber is on its way to the worker, with its publisher, inside
`notify` or in the mailbox. -/
theorem calls_granted (reached : Reachable step new s) (w : WorkerID) :
    (∀ call, s.call w = some call → ∃ l, s.exchange.dispatcher.tryGet w = some l ∧
      (call = .closeLease w l.pid l.gen ∨ call = .release w l.pid l.gen ∧
        ∃ exchange, s.exchange.release w l.pid l.gen = some (0, exchange))) ∧
      ∀ callers, s.onTheWay w callers ≤ 1 := by
  have inv := kept_reachable reached
  constructor
  · intro call calls
    cases (inv.each w).calling calls with
    | closes l holds => exact ⟨l, holds.lease, .inl rfl⟩
    | releases l holds =>
      refine ⟨l, holds.lease, .inr ⟨rfl, ?_⟩⟩
      rcases release_cases inv.partitioned.roomy holds.lease l.pid l.gen with
        ⟨-, frees⟩ | ⟨unclosed, -⟩
      · exact ⟨_, frees⟩
      · cases unclosed.symm.trans (holds.isClosed l rfl)
  · exact (inv.each w).onTheWay_le

/-- The worker closes the lease and is about to give it back. -/
def sampleClosed : List (EventBusAction Unit) :=
  [.observe 1 (.work false), .serve 1, .observe 1 (.work false), .observe 1 (.work false)]

def sampleReleasing : EventBus Unit := (run step sampleDraining sampleClosed).getD new

theorem sampleReleasing_granted :
    ∃ exchange, sampleReleasing.exchange.release 1 0 1 = some (0, exchange) := by
  have reached : Reachable step new sampleReleasing := ⟨sampleAnnounced ++ sampleClosed, rfl⟩
  have calls : sampleReleasing.call 1 = some (.release 1 0 1) := by decide +kernel
  obtain ⟨l, -, close | ⟨same, granted⟩⟩ := (calls_granted reached 1).1 _ calls
  · cases close
  · obtain ⟨-, pid, gen⟩ := LeaseCall.release.inj same
    rwa [← pid, ← gen] at granted

/-- No generation 0 is drawn. -/
def fresh (s : EventBus Thread) : EventBusAction Thread → Bool
  | .acquire w => s.exchange.timely (.acquire w)
  | _ => true

theorem Kept.timely (inv : Kept s) {call : LeaseCall} (calling : Calling s w call) :
    s.exchange.timely call = true := by
  cases calling with
  | closes l holds _ =>
    simp only [Exchange.timely, List.all_eq_true, decide_eq_true_eq]
    intro e mem shared apart
    have held : s.exchange.dispatcher.tryGet e.1 = some e.2 := tryGet_iff.mpr mem
    have same : e.1 = w := by
      by_contra other
      exact inv.partitioned.apart holds.lease held other shared
    rw [same] at held
    cases holds.lease.symm.trans held
    exact absurd rfl apart
  | releases l holds _ => rfl

/-- The calls that publishers and workers make are those for which leases close once. -/
theorem leases_close_once (reached : Reachable (guarded step fresh) new s) :
    ClosesOnce s.exchange := by
  have inv := kept_reachable reached.of_guarded
  suffices law : Reported s.exchange from law.closesOnce inv.partitioned
  clear inv
  induction reached with
  | start => exact reported_new
  | next r a r' reached moves law =>
    obtain ⟨allowed, moves⟩ := guarded_eq_some.mp moves
    have inv := kept_reachable reached.of_guarded
    cases inv.steps moves with
    | refused | notifies | observes => exact law
    | leases w pid ready none front acquires =>
      exact (reported_step inv.partitioned law acquires).mpr allowed
    | serves w call exchange calling below serves =>
      exact (reported_step inv.partitioned law serves).mpr (inv.timely calling)

theorem sampleReleasing_closesOnce : ClosesOnce sampleReleasing.exchange :=
  leases_close_once ⟨sampleAnnounced ++ sampleClosed, rfl⟩

/-- The subscriber has no business with the exchange. -/
structure Idle (s : EventBus Thread) (w : WorkerID) : Prop where
  acquired : s.acquired w = []
  call : s.call w = none
  observer : (s.observer w).Resting ∨ s.observer w = Observer.new

theorem Idle.free (idle : Idle s w) (kept : Local s w) :
    s.exchange.dispatcher.tryGet w = none := by
  obtain ⟨leased, -, bound, stage, holds⟩ := kept
  obtain ⟨acquired, call, observer⟩ := idle
  have none : (s.observer w).owed = [] ∧ (s.observer w).mailbox = [] ∧
      ∀ c, Observer.pending ((s.observer w).place c) = [] := by
    rcases observer with resting | unused
    · have states := leased.states_eq (by simp [resting.worker, Observer.mayQueue])
      have order := leased.order
      refine ⟨by simp [Observer.owed, Observer.owes, resting.worker, states], ?_, fun c => ?_⟩
      · rw [resting.taken] at order
        exact List.self_eq_append_right.mp order
      · rw [resting.place c]
        rfl
    · rw [unused]
      exact ⟨rfl, rfl, fun _ => rfl⟩
  have served := List.getElem?_eq_none_iff.mp call
  have left : s.left w = [] := by
    rw [EventBus.left, Observer.dues, ← leased.calls, none.1, List.append_nil]
    exact List.drop_eq_nil_iff.mpr served
  rw [holds.lease]
  cases stage with
  | nobody => rfl
  | publisher l => cases acquired.symm.trans holds.acquired
  | notifier c l =>
    have some' := (none.2.2 c).symm.trans (holds.pushing c)
    simp [Stage.pushing] at some'
  | mailbox l => cases none.2.1.symm.trans holds.queued
  | worker l | closed l => cases left.symm.trans holds.left

/-- A partition is ready, or leased for a subscriber that has business with the exchange. -/
theorem ready_or_busy (reached : Reachable step new s) {pid : PartitionID}
    (inside : InArray pid) : pid ∈ s.exchange.ready ∨
      ∃ w l, s.exchange.dispatcher.tryGet w = some l ∧ l.pid = pid ∧ ¬Idle s w := by
  have inv := kept_reachable reached
  rcases inv.partitioned.exclusive.once pid inside with ⟨once, -⟩ | ⟨-, w, ⟨l, held, here⟩, -⟩
  · refine .inl (List.count_pos_iff.mp ?_)
    omega
  · refine .inr ⟨w, l, held, here, fun idle => ?_⟩
    cases held.symm.trans (idle.free (inv.each w))

theorem sampleReleasing_busy : ∃ w l, sampleReleasing.exchange.dispatcher.tryGet w = some l ∧
    l.pid = 0 ∧ ¬Idle sampleReleasing w := by
  have reached : Reachable step new sampleReleasing := ⟨sampleAnnounced ++ sampleClosed, rfl⟩
  have taken : (0 : PartitionID) ∉ sampleReleasing.exchange.ready := by decide +kernel
  exact (ready_or_busy reached (by decide)).resolve_left taken

end EventBus

end Yellowstone.Legacy
