import Yellowstone.Legacy.ObserverRest

/-!
# Leases from hand to hand

An exchange, the observers of its subscribers, and publishers that acquire leases for the
subscribers. A publisher passes a lease that it has acquired to `Subscriber::notify` of that
subscriber, once or never, and at any later time; only the observers' workers close leases and
give them back. The worker of an observer waits while the exchange serves its call.
-/

set_option autoImplicit false

namespace Yellowstone.Legacy

open Machine Exchange

structure EventBus (Thread : Type) where
  exchange : Exchange
  /-- The observer of the subscriber with this identifier. -/
  observer : WorkerID → Observer Thread
  /-- Leases acquired for the subscriber and not passed on. -/
  acquired : WorkerID → List Lease
  /-- How many of the worker's calls the exchange has served. -/
  served : WorkerID → Nat

inductive EventBusAction (Thread : Type) where
  | acquire (w : WorkerID)
  /-- The thread calls `notify` of the subscriber. -/
  | notify (w : WorkerID) (c : Thread) (l : Lease)
  /-- Any other step of the subscriber's observer. -/
  | observe (w : WorkerID) (a : ObserverAction Thread)
  /-- The exchange serves the next call of the worker. -/
  | serve (w : WorkerID)

def EventBusAction.subscriber {Thread : Type} : EventBusAction Thread → WorkerID
  | .acquire w | .notify w _ _ | .observe w _ | .serve w => w

/-- What `Subscriber::notify` passes to the observer. -/
def Lease.notice (l : Lease) (w : WorkerID) : Notice := ⟨w, l.pid, l.gen, some l.pid⟩

namespace EventBus
variable {Thread : Type}

def new : EventBus Thread where
  exchange := Exchange.new
  observer := fun _ => Observer.new
  acquired := fun _ => []
  served := fun _ => 0

/-- After `Exchange::acquire`; there is a partition if there is a lease. -/
def granted (s : EventBus Thread) (w : WorkerID) (answer : Lease × Option PartitionID × Exchange) :
    EventBus Thread :=
  { s with
    exchange := answer.2.2
    acquired := if answer.2.1.isSome then
      Function.update s.acquired w (answer.1 :: s.acquired w) else s.acquired }

def observed (s : EventBus Thread) (w : WorkerID) (o : Observer Thread) : EventBus Thread :=
  { s with observer := Function.update s.observer w o }

/-- The next call of the worker, if it is in one. -/
def call (s : EventBus Thread) (w : WorkerID) : Option LeaseCall :=
  (s.observer w).calls[s.served w]?

/-- A worker does nothing else while it is in a call. -/
def mayTake (s : EventBus Thread) (w : WorkerID) : ObserverAction Thread → Bool
  | .notify _ _ => false
  | .work _ | .advance => (s.call w).isNone
  | _ => true

variable [DecidableEq Thread]

def step (s : EventBus Thread) : EventBusAction Thread → Option (EventBus Thread)
  | .acquire w => (s.exchange.acquire w).map (s.granted w)
  | .notify w c l =>
    if l ∈ s.acquired w then
      ((s.observer w).step (.notify c (l.notice w))).map fun o =>
        { s.observed w o with
          acquired := Function.update s.acquired w ((s.acquired w).erase l) }
    else none
  | .observe w a => if s.mayTake w a then ((s.observer w).step a).map (s.observed w) else none
  | .serve w =>
    match s.call w with
    | none => none
    | some call => (s.exchange.step call).map fun exchange =>
        { s with exchange, served := Function.update s.served w (s.served w + 1) }

end EventBus

/-! ## What an observer's step does with its notices -/

namespace Observer
variable {Thread : Type} [DecidableEq Thread] {s s' : Observer Thread} {a : ObserverAction Thread}

/-- The calls for the notices taken. -/
def dues (s : Observer Thread) : List LeaseCall := s.taken.flatMap fun n => [n.close, n.release]

omit [DecidableEq Thread] in
theorem Leased.calls_le (leased : Leased s) : s.calls.length ≤ s.dues.length := by
  rw [dues, ← leased.calls, List.length_append]
  exact Nat.le_add_right _ _

inductive Passes (s s' : Observer Thread) : Prop
  | same : (∀ c, pending (s'.place c) = pending (s.place c)) → s'.mailbox = s.mailbox →
    s'.taken = s.taken → Passes s s'
  | pushed (c : Thread) (n : Notice) : pending (s.place c) = [n] →
    (∀ d, pending (s'.place d) = if d = c then [] else pending (s.place d)) →
    s'.mailbox = s.mailbox ++ [n] → s'.taken = s.taken → Passes s s'
  | popped (n : Notice) : (∀ c, pending (s'.place c) = pending (s.place c)) →
    s.mailbox = n :: s'.mailbox → s'.taken = s.taken ++ [n] → Passes s s'

theorem pending_update (s : Observer Thread) (c : Thread) (x : NotifyAt) (d : Thread) :
    pending ((s.move c x).place d) = if d = c then pending x else pending (s.place d) := by
  by_cases same : d = c
  · simp [move, same]
  · simp [move, same]

theorem pending_quiet {c : Thread} {x y : NotifyAt} (here : s.place c = y)
    (quiet : pending x = pending y) (d : Thread) :
    pending ((s.move c x).place d) = pending (s.place d) := by
  rw [pending_update]
  split
  · rename_i same
    rw [same, here, quiet]
  · rfl

theorem Works.passes (h : Works s s') : Passes s s' := by
  cases h with
  | pops n mailbox here front => exact .popped n (fun _ => rfl) front rfl
  | _ => exact .same (fun _ => rfl) rfl rfl

/-- Calls that were made stay made. -/
theorem step_calls (h : step s a = some s') : s.calls <+: s'.calls := by
  cases step_moves h with
  | works future s' h =>
    cases h with
    | closes here | gives here | releases here => exact List.prefix_append ..
    | _ => exact List.prefix_rfl
  | _ => exact List.prefix_rfl

theorem step_passes (h : step s a = some s') (begun : ∀ c n, a ≠ .notify c n) : Passes s s' := by
  cases step_moves h with
  | calls c n here => exact absurd rfl (begun c n)
  | pushes c n here room =>
    exact .pushed c n (by rw [here, pending]) (pending_update s c .counting) rfl rfl
  | counts c here | wakes c here | notifies c here =>
    exact .same (pending_quiet here rfl) rfl rfl
  | works future s' h => exact h.passes
  | _ => exact .same (fun _ => rfl) rfl rfl

end Observer

namespace Exchange
variable {s s' : Exchange} {w w' : WorkerID} {l l' : Lease}

/-! ## The leases of other workers -/

/-- The lease of a worker is registered, and reported closed, as before. -/
structure Same (s s' : Exchange) (w : WorkerID) : Prop where
  lease : s'.dispatcher.tryGet w = s.dispatcher.tryGet w
  isClosed : ∀ l, s.dispatcher.tryGet w = some l →
    s'.isClosed l.pid l.gen = s.isClosed l.pid l.gen

theorem Partitioned.apart (kept : Partitioned s) (held : s.dispatcher.tryGet w = some l)
    (held' : s.dispatcher.tryGet w' = some l') (other : w' ≠ w) : l'.pid ≠ l.pid := by
  intro shared
  have exclusive := kept.exclusive
  rcases exclusive.once l.pid (exclusive.held w l held) with ⟨-, free⟩ | ⟨-, v, -, unique⟩
  · exact free w l held rfl
  · have mine := unique w ⟨l, held, rfl⟩
    have others := unique w' ⟨l', held', shared⟩
    exact other (others.trans mine.symm)

theorem Partitioned.notMem_ready (kept : Partitioned s) (held : s.dispatcher.tryGet w = some l) :
    l.pid ∉ s.ready := by
  have exclusive := kept.exclusive
  rcases exclusive.once l.pid (exclusive.held w l held) with ⟨-, free⟩ | ⟨absent, -⟩
  · exact absurd rfl (free w l held)
  · exact absent

theorem same_leased (kept : Partitioned s) {pid : PartitionID} {ready : List PartitionID}
    (front : s.ready = pid :: ready) (other : w' ≠ w) : Same s (s.leased w pid ready) w' := by
  refine ⟨AList.lookup_insert_ne other, fun l held => ?_⟩
  have apart : l.pid ≠ pid := by
    intro here
    apply kept.notMem_ready held
    rw [front, here]
    exact List.mem_cons_self
  simp [isClosed, leased, apart]

theorem same_closing (kept : Partitioned s) (held : s.dispatcher.tryGet w = some l)
    (other : w' ≠ w) : Same s (s.closing l.pid l.gen) w' := by
  refine ⟨rfl, fun l' held' => ?_⟩
  simp [isClosed, closing, kept.apart held held' other]

theorem isClosed_closing (s : Exchange) (pid : PartitionID) (gen : UInt32) :
    (s.closing pid gen).isClosed pid gen = true := by
  simp [isClosed, closing]

theorem same_freed (other : w' ≠ w) : Same s (s.freed w l) w' :=
  ⟨AList.lookup_erase_ne other, fun _ _ => rfl⟩

end Exchange

namespace EventBus
variable {Thread : Type} [DecidableEq Thread] {s s' : EventBus Thread} {w : WorkerID}

/-! ## From hand to hand -/

/-- Who has the lease that is registered to a worker, if there is one. -/
inductive Stage (Thread : Type) where
  | nobody
  | publisher (l : Lease)
  | notifier (c : Thread) (l : Lease)
  | mailbox (l : Lease)
  /-- The worker, which is to close it and to give it back. -/
  | worker (l : Lease)
  /-- The worker, which is to give it back. -/
  | closed (l : Lease)

namespace Stage

def lease : Stage Thread → Option Lease
  | nobody => none
  | publisher l | notifier _ l | mailbox l | worker l | closed l => some l

def acquired : Stage Thread → List Lease
  | publisher l => [l]
  | _ => []

def pushing (w : WorkerID) (c : Thread) : Stage Thread → List Notice
  | notifier d l => if c = d then [l.notice w] else []
  | _ => []

def queued (w : WorkerID) : Stage Thread → List Notice
  | mailbox l => [l.notice w]
  | _ => []

def left (w : WorkerID) : Stage Thread → List LeaseCall
  | worker l => [(l.notice w).close, (l.notice w).release]
  | closed l => [(l.notice w).release]
  | _ => []

end Stage

/-- What is left of the calls for the notices that the worker has taken. -/
def left (s : EventBus Thread) (w : WorkerID) : List LeaseCall :=
  (s.observer w).dues.drop (s.served w)

/-- Nobody but the one at the stage has the lease. -/
structure Holds (s : EventBus Thread) (w : WorkerID) (stage : Stage Thread) : Prop where
  lease : s.exchange.dispatcher.tryGet w = stage.lease
  acquired : s.acquired w = stage.acquired
  pushing : ∀ c, Observer.pending ((s.observer w).place c) = stage.pushing w c
  queued : (s.observer w).mailbox = stage.queued w
  left : s.left w = stage.left w
  isClosed : ∀ l, stage = .closed l → s.exchange.isClosed l.pid l.gen = true

structure Local (s : EventBus Thread) (w : WorkerID) : Prop where
  leased : (s.observer w).Leased
  carry : (s.observer w).Carry fun n => n.partition = some n.partitionId
  bound : s.served w ≤ (s.observer w).calls.length
  stage : ∃ stage, Holds s w stage

structure Kept (s : EventBus Thread) : Prop where
  partitioned : Partitioned s.exchange
  each : ∀ w, Local s w

/-- Nothing has changed for the worker. -/
structure Same (s s' : EventBus Thread) (w : WorkerID) : Prop where
  exchange : Exchange.Same s.exchange s'.exchange w
  observer : s'.observer w = s.observer w
  acquired : s'.acquired w = s.acquired w
  served : s'.served w = s.served w

theorem Holds.frame {stage : Stage Thread} (h : Holds s w stage)
    (exchange : Exchange.Same s.exchange s'.exchange w) (observer : s'.observer w = s.observer w)
    (acquired : s'.acquired w = s.acquired w) (served : s'.served w = s.served w) :
    Holds s' w stage where
  lease := exchange.lease.trans h.lease
  acquired := acquired.trans h.acquired
  pushing := observer ▸ h.pushing
  queued := observer ▸ h.queued
  left := by
    rw [EventBus.left, observer, served]
    exact h.left
  isClosed := by
    rintro l rfl
    exact (exchange.isClosed l h.lease).trans (h.isClosed l rfl)

theorem Local.frame (h : Local s w) (same : Same s s' w) : Local s' w := by
  obtain ⟨exchange, observer, acquired, served⟩ := same
  obtain ⟨leased, carry, bound, stage, holds⟩ := h
  refine ⟨observer ▸ leased, observer ▸ carry, ?_, stage,
    holds.frame exchange observer acquired served⟩
  rw [observer, served]
  exact bound

theorem Local.of_observer {o : Observer Thread} (here : s.observer w = o) (leased : o.Leased)
    (carry : o.Carry fun n => n.partition = some n.partitionId)
    (bound : s.served w ≤ o.calls.length) (stage : Stage Thread)
    (lease : s.exchange.dispatcher.tryGet w = stage.lease)
    (acquired : s.acquired w = stage.acquired)
    (pushing : ∀ c, Observer.pending (o.place c) = stage.pushing w c)
    (queued : o.mailbox = stage.queued w) (left : o.dues.drop (s.served w) = stage.left w)
    (isClosed : ∀ l, stage = .closed l → s.exchange.isClosed l.pid l.gen = true) :
    Local s w := by
  subst here
  exact ⟨leased, carry, bound, stage, lease, acquired, pushing, queued, left, isClosed⟩

theorem kept_new : Kept (new : EventBus Thread) := by
  refine ⟨partitioned_new, fun w => ⟨Observer.leased_reachable (.refl _), ⟨?_, nofun, ?_⟩, ?_,
    .nobody, ⟨rfl, rfl, fun c => rfl, rfl, rfl, nofun⟩⟩⟩
  · simp [new, Observer.new, Observer.pending]
  · simp [new, Observer.new, Observer.drainable, Observer.drains, StateType.enter]
  · simp [new]

/-- The call that a worker is in, and what is left after it. -/
inductive Calling (s : EventBus Thread) (w : WorkerID) : LeaseCall → Prop
  | closes (l : Lease) : Holds s w (.worker l) →
    (s.observer w).dues.drop (s.served w + 1) = [(l.notice w).release] →
    Calling s w (.closeLease w l.pid l.gen)
  | releases (l : Lease) : Holds s w (.closed l) →
    (s.observer w).dues.drop (s.served w + 1) = [] → Calling s w (.release w l.pid l.gen)

theorem Local.calling (kept : Local s w) {call : LeaseCall} (calls : s.call w = some call) :
    Calling s w call := by
  obtain ⟨leased, -, -, stage, holds⟩ := kept
  obtain ⟨below, here⟩ := List.getElem?_eq_some_iff.mp calls
  have inside := below.trans_le leased.calls_le
  have first : (s.observer w).dues[s.served w]? = some call := by
    rw [Observer.dues, ← leased.calls, List.getElem?_append_left below]
    exact calls
  obtain ⟨_, here'⟩ := List.getElem?_eq_some_iff.mp first
  have whole : stage.left w = call :: (s.observer w).dues.drop (s.served w + 1) := by
    rw [← holds.left, EventBus.left, List.drop_eq_getElem_cons inside, here']
  cases stage with
  | worker l =>
    obtain ⟨rfl, rest⟩ := List.cons.inj whole
    exact .closes l holds rest.symm
  | closed l =>
    obtain ⟨rfl, rest⟩ := List.cons.inj whole
    exact .releases l holds rest.symm
  | _ => cases whole

/-- What the exchange does when it serves a call of a worker. -/
theorem Kept.serves (inv : Kept s) {call : LeaseCall} (calling : Calling s w call)
    {exchange : Exchange} (moves : s.exchange.step call = some exchange) :
    ∃ l, Holds s w (.worker l) ∧ exchange = s.exchange.closing l.pid l.gen ∧
        (s.observer w).dues.drop (s.served w + 1) = [(l.notice w).release] ∨
      Holds s w (.closed l) ∧ exchange = s.exchange.freed w l ∧
        (s.observer w).dues.drop (s.served w + 1) = [] := by
  cases calling with
  | closes l holds rest =>
    obtain ⟨-, ⟨⟩⟩ := Option.ite_none_right_eq_some.mp moves
    exact ⟨l, .inl ⟨holds, rfl, rest⟩⟩
  | releases l holds rest =>
    obtain ⟨answer, releases, rfl⟩ := Option.map_eq_some_iff.mp moves
    rcases release_cases inv.partitioned.roomy holds.lease l.pid l.gen with
      ⟨-, frees⟩ | ⟨unclosed, -⟩
    · cases releases.symm.trans frees
      exact ⟨l, .inr ⟨holds, rfl, rest⟩⟩
    · cases unclosed.symm.trans (holds.isClosed l rfl)

/-! ## Steps -/

/-- What a step can be. -/
inductive Steps (s : EventBus Thread) : EventBusAction Thread → EventBus Thread → Prop
  | refused (w : WorkerID) : Steps s (.acquire w) s
  | leases (w : WorkerID) (pid : PartitionID) (ready : List PartitionID) :
    s.exchange.dispatcher.tryGet w = none → s.exchange.ready = pid :: ready →
    s.exchange.step (.acquire w) = some (s.exchange.leased w pid ready) →
    Steps s (.acquire w)
      { s with
        exchange := s.exchange.leased w pid ready
        acquired := Function.update s.acquired w
          (⟨pid, (s.exchange.ctrl pid).gen + 1⟩ :: s.acquired w) }
  | notifies (w : WorkerID) (c : Thread) (l : Lease) (o : Observer Thread) : l ∈ s.acquired w →
    (s.observer w).step (.notify c (l.notice w)) = some o →
    Steps s (.notify w c l)
      { s.observed w o with acquired := Function.update s.acquired w ((s.acquired w).erase l) }
  | observes (w : WorkerID) (a : ObserverAction Thread) (o : Observer Thread) :
    (∀ c n, a ≠ .notify c n) → (s.observer w).step a = some o →
    Steps s (.observe w a) (s.observed w o)
  | serves (w : WorkerID) (call : LeaseCall) (exchange : Exchange) : Calling s w call →
    s.served w < (s.observer w).calls.length → s.exchange.step call = some exchange →
    Steps s (.serve w)
      { s with exchange, served := Function.update s.served w (s.served w + 1) }

omit [DecidableEq Thread] in
theorem granted_none (s : EventBus Thread) (w : WorkerID) :
    s.granted w (⟨-1, 0⟩, none, s.exchange) = s := by
  simp [granted]

theorem Kept.steps (inv : Kept s) {a : EventBusAction Thread} (h : s.step a = some s') :
    Steps s a s' := by
  cases a with
  | acquire w =>
    obtain ⟨answer, grants, rfl⟩ := Option.map_eq_some_iff.mp h
    cases held : s.exchange.dispatcher.tryGet w with
    | some l =>
      rw [acquire_idle (.inl held)] at grants
      cases grants
      rw [granted_none]
      exact .refused w
    | none =>
      cases front : s.exchange.ready with
      | nil =>
        rw [acquire_idle (l := {}) (.inr front)] at grants
        cases grants
        rw [granted_none]
        exact .refused w
      | cons pid ready =>
        have acquires := acquire_leases inv.partitioned.roomy held front
        cases grants.symm.trans acquires
        refine .leases w pid ready held front ?_
        rw [Exchange.step, acquires, Option.map_some]
  | notify w c l =>
    obtain ⟨own, h⟩ := Option.ite_none_right_eq_some.mp h
    obtain ⟨o, moves, rfl⟩ := Option.map_eq_some_iff.mp h
    exact .notifies w c l o own moves
  | observe w a =>
    obtain ⟨may, h⟩ := Option.ite_none_right_eq_some.mp h
    obtain ⟨o, moves, rfl⟩ := Option.map_eq_some_iff.mp h
    refine .observes w a o ?_ moves
    rintro c n rfl
    cases may
  | serve w =>
    simp only [step] at h
    split at h
    · cases h
    · rename_i call calls
      obtain ⟨exchange, moves, rfl⟩ := Option.map_eq_some_iff.mp h
      obtain ⟨below, -⟩ := List.getElem?_eq_some_iff.mp calls
      exact .serves w call exchange ((inv.each w).calling calls) below moves

/-- A step changes nothing for the other subscribers. -/
theorem Kept.same (inv : Kept s) {a : EventBusAction Thread} (h : Steps s a s')
    (other : w ≠ a.subscriber) : Same s s' w := by
  cases h with
  | refused v => exact ⟨⟨rfl, fun _ _ => rfl⟩, rfl, rfl, rfl⟩
  | leases v pid ready none front _ =>
    exact ⟨same_leased inv.partitioned front other, rfl, Function.update_of_ne other .., rfl⟩
  | notifies v c l o _ _ =>
    exact ⟨⟨rfl, fun _ _ => rfl⟩, Function.update_of_ne other .., Function.update_of_ne other ..,
      rfl⟩
  | observes v a o _ _ =>
    exact ⟨⟨rfl, fun _ _ => rfl⟩, Function.update_of_ne other .., rfl, rfl⟩
  | serves v call exchange calling _ moves =>
    refine ⟨?_, rfl, rfl, Function.update_of_ne other ..⟩
    obtain ⟨l, ⟨holds, rfl, -⟩ | ⟨holds, rfl, -⟩⟩ := inv.serves calling moves
    · exact same_closing inv.partitioned holds.lease other
    · exact same_freed other

theorem Kept.leases (inv : Kept s) {pid : PartitionID} {ready : List PartitionID}
    (none : s.exchange.dispatcher.tryGet w = none) :
    Local { s with
      exchange := s.exchange.leased w pid ready
      acquired := Function.update s.acquired w
        (⟨pid, (s.exchange.ctrl pid).gen + 1⟩ :: s.acquired w) } w := by
  obtain ⟨leased, carry, bound, stage, holds⟩ := inv.each w
  cases stage with
  | nobody =>
    refine ⟨leased, carry, bound, .publisher ⟨pid, (s.exchange.ctrl pid).gen + 1⟩,
      AList.lookup_insert .., ?_, holds.pushing, holds.queued, holds.left, nofun⟩
    simp [holds.acquired, Stage.acquired]
  | _ => cases none.symm.trans holds.lease

theorem Kept.notifies (inv : Kept s) {c : Thread} {l : Lease} {o : Observer Thread}
    (own : l ∈ s.acquired w)
    (moves : (s.observer w).step (.notify c (l.notice w)) = some o) :
    Local { s.observed w o with
      acquired := Function.update s.acquired w ((s.acquired w).erase l) } w := by
  obtain ⟨leased, carry, bound, stage, holds⟩ := inv.each w
  have carry' := carry.step leased (fun d n call => by cases call; rfl) moves
  have leased' := leased.step moves
  obtain ⟨out, ⟨⟩⟩ := Option.ite_none_right_eq_some.mp moves
  rw [holds.acquired] at own
  cases stage with
  | publisher l' =>
    obtain rfl := List.mem_singleton.mp own
    refine .of_observer (Function.update_self ..) leased' carry' bound (.notifier c l) holds.lease
      ?_ (fun d => ?_) holds.queued holds.left nofun
    · simp [holds.acquired, Stage.acquired]
    · rw [Observer.pending_update, holds.pushing d]
      rfl
  | _ => cases own

theorem Kept.observes (inv : Kept s) {a : ObserverAction Thread} {o : Observer Thread}
    (begun : ∀ c n, a ≠ .notify c n) (moves : (s.observer w).step a = some o) :
    Local (s.observed w o) w := by
  obtain ⟨leased, carry, bound, stage, holds⟩ := inv.each w
  have leased' := leased.step moves
  have carry' := carry.step leased (fun c n call => absurd call (begun c n)) moves
  have bound' : s.served w ≤ o.calls.length := bound.trans (Observer.step_calls moves).length_le
  have here : (s.observed w o).observer w = o := Function.update_self ..
  cases Observer.step_passes moves begun with
  | same places mailbox taken =>
    have dues : o.dues = (s.observer w).dues := by rw [Observer.dues, taken, Observer.dues]
    exact .of_observer here leased' carry' bound' stage holds.lease holds.acquired
      (fun c => (places c).trans (holds.pushing c)) (mailbox.trans holds.queued)
      (dues ▸ holds.left) holds.isClosed
  | pushed c n own others mailbox taken =>
    have dues : o.dues = (s.observer w).dues := by rw [Observer.dues, taken, Observer.dues]
    rw [holds.pushing c] at own
    cases stage with
    | notifier d l =>
      simp only [Stage.pushing] at own
      obtain ⟨rfl, same⟩ : c = d ∧ [l.notice w] = [n] := by
        by_cases same : c = d
        · exact ⟨same, by rwa [if_pos same] at own⟩
        · rw [if_neg same] at own
          cases own
      cases same
      refine .of_observer here leased' carry' bound' (.mailbox l) holds.lease
        holds.acquired (fun e => ?_) ?_ (dues ▸ holds.left) nofun
      · rw [others e, holds.pushing e]
        by_cases same : e = c <;> simp [Stage.pushing, same]
      · rw [mailbox, holds.queued]
        rfl
    | _ => cases own
  | popped n places front taken =>
    have dues : o.dues = (s.observer w).dues ++ [n.close, n.release] := by
      simp [Observer.dues, taken]
    rw [holds.queued] at front
    cases stage with
    | mailbox l =>
      obtain ⟨rfl, empty⟩ := List.cons.inj front
      refine .of_observer here leased' carry' bound' (.worker l) holds.lease holds.acquired
        (fun c => (places c).trans (holds.pushing c)) empty.symm ?_ nofun
      have none : (s.observer w).dues.drop (s.served w) = [] := holds.left
      have inside : s.served w ≤ (s.observer w).dues.length := bound.trans leased.calls_le
      rw [dues]
      exact (List.drop_append_of_le_length inside).trans (by rw [none]; rfl)
    | _ => cases front

theorem Kept.served (inv : Kept s) {call : LeaseCall} (calling : Calling s w call)
    (below : s.served w < (s.observer w).calls.length) {exchange : Exchange}
    (moves : s.exchange.step call = some exchange) :
    Local { s with exchange, served := Function.update s.served w (s.served w + 1) } w := by
  obtain ⟨leased, carry, -, -⟩ := inv.each w
  have now : Function.update s.served w (s.served w + 1) w = s.served w + 1 :=
    Function.update_self ..
  have left := congrArg (s.observer w).dues.drop now
  obtain ⟨l, ⟨holds, rfl, rest⟩ | ⟨holds, rfl, rest⟩⟩ := inv.serves calling moves
  · refine ⟨leased, carry, now.trans_le below, .closed l, holds.lease, holds.acquired,
      holds.pushing, holds.queued, left.trans rest, ?_⟩
    rintro l' ⟨⟩
    exact isClosed_closing s.exchange l.pid l.gen
  · exact ⟨leased, carry, now.trans_le below, .nobody, AList.lookup_erase .., holds.acquired,
      holds.pushing, holds.queued, left.trans rest, nofun⟩

/-- A step concerns one subscriber. -/
theorem Kept.step (inv : Kept s) {a : EventBusAction Thread} (h : s.step a = some s') :
    Kept s' := by
  have steps := inv.steps h
  have mine : Partitioned s'.exchange ∧ Local s' a.subscriber := by
    cases steps with
    | refused w => exact ⟨inv.partitioned, inv.each w⟩
    | leases w pid ready none front moves =>
      exact ⟨partitioned_step inv.partitioned moves, inv.leases none⟩
    | notifies w c l o own moves => exact ⟨inv.partitioned, inv.notifies own moves⟩
    | observes w a o begun moves => exact ⟨inv.partitioned, inv.observes begun moves⟩
    | serves w call exchange calling below moves =>
      exact ⟨partitioned_step inv.partitioned moves, inv.served calling below moves⟩
  refine ⟨mine.1, fun w => ?_⟩
  by_cases own : w = a.subscriber
  · exact own ▸ mine.2
  · exact (inv.each w).frame (inv.same steps own)

theorem kept_reachable (reached : Reachable step new s) : Kept s :=
  reached.invariant kept_new fun _ _ _ inv moves => inv.step moves

end EventBus

end Yellowstone.Legacy
