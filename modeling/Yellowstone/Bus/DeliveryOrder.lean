import Yellowstone.Bus.Delivery

/-!
# Order of delivery

What a subscriber has taken and what is pending, read in this order, carries increasing
sequence numbers within each superstep: a pop moves the boundary only, and a new event goes
behind all others of its superstep. This holds whatever throws, as long as the sequence
counter does not wrap around.
-/

set_option autoImplicit false

namespace Yellowstone

open Machine Throwing

variable {Payload : Type}

/-- The parts of an event that no merge changes and that order it. -/
def Event.stamp (e : Event Payload) : Superstep × Sequence := (e.superstep, e.sequence)

/-- Within a superstep the sequence rises. -/
def Rising (stamps : List (Superstep × Sequence)) : Prop :=
  stamps.Pairwise fun a b => a.1 = b.1 → a.2 < b.2

namespace Partition
variable {merger : Merger Payload} {fault : PushPoint → Option Exn} {event : Event Payload}
  {p after : Partition Payload} {outcome : Except Failure PushResult}

theorem Levelled.sorted_events (h : Levelled p.levels) :
    StableQueue.Sorted Event.superstep p.events :=
  List.pairwise_map.mpr h.sorted_flatten

theorem stamp_storePayload (position : Position) (payload : Payload) :
    ({ p with levels := storePayload position payload p.levels } :
      Partition Payload).events.map Event.stamp = p.events.map Event.stamp := by
  have flat := flatten_storePayload position payload p.levels
  rw [events, events, entries, entries, flat]
  simp only [List.map_map]
  apply List.map_congr_left
  intro node _
  simp only [Function.comp_apply]
  split <;> rfl

theorem events_pushBack (h : Levelled p.levels) (event : Event Payload)
    (afterLevels : after.levels =
      pushBack event.superstep (p.nextPosition, event) (levelFor event.superstep p.levels)) :
    Levelled after.levels ∧
      after.events = StableQueue.enqueue Event.superstep event p.events := by
  let node : Position × Event Payload := (p.nextPosition, event)
  obtain ⟨levelled, present, -⟩ := h.levelFor (s := event.superstep)
  have entries' : after.entries = StableQueue.enqueue nodeStep node p.entries := by
    rw [entries, entries, afterLevels, ← flatten_levelFor event.superstep p.levels]
    exact levelled.flatten_pushBack node present
  refine ⟨afterLevels ▸ levelled.pushBack rfl, ?_⟩
  rw [events, entries', StableQueue.map_enqueue nodeStep Event.superstep Prod.snd fun _ => rfl]
  rfl

theorem events_levelFor (h : Levelled p.levels) (superstep : Superstep)
    (afterLevels : after.levels = levelFor superstep p.levels) :
    Levelled after.levels ∧ after.events = p.events := by
  refine ⟨afterLevels ▸ h.levelFor.1, ?_⟩
  rw [events, entries, afterLevels, flatten_levelFor]
  rfl

/-- Whatever a push does, it ends with the events as they were, but for a payload, or with
one more behind all others of its superstep. -/
theorem push_stamps (levelled : Levelled p.levels)
    (h : exec (push merger fault event) p = (outcome, after)) :
    Levelled after.levels ∧ (after.events.map Event.stamp = p.events.map Event.stamp ∨
      after.events = StableQueue.enqueue Event.superstep event p.events) := by
  cases push_runs h with
  | lost | full | levelThrew => exact ⟨levelled, .inl rfl⟩
  | merged position stored | mergerThrew position stored =>
    exact ⟨levelled.storePayload .., .inl (stamp_storePayload ..)⟩
  | appendThrew =>
    refine (events_levelFor levelled _ rfl).imp_right fun events' => .inl ?_
    rw [events']
  | indexThrew | inserted => exact (events_pushBack levelled event rfl).imp_right .inr

theorem popLocked_events {e : Event Payload} (levelled : Levelled p.levels)
    (h : exec popLocked p = (.ok (some e), after)) :
    p.events = e :: after.events ∧ Levelled after.levels := by
  cases popLocked_runs h with
  | took superstep position _ level levels _ shape =>
    rw [shape] at levelled
    refine ⟨?_, levelled.dropHead⟩
    by_cases last : level = []
    · simp [events, entries, flatten, shape, last]
    · simp [events, entries, flatten, shape, last]

end Partition

namespace Subscriber

/-- What left the partition and what is still in it, in the order of service. -/
def served (o : Subscriber Payload) : List (Event Payload) := o.taken ++ o.partition.events

/-- Served in order, with sequences below a bound. -/
structure Ordered (o : Subscriber Payload) (bound : Sequence) : Prop where
  levelled : Partition.Levelled o.partition.levels
  rising : Rising (o.served.map Event.stamp)
  below : ∀ e ∈ o.served, e.sequence < bound

variable {o o' : Subscriber Payload} {bound bound' : Sequence}

theorem Ordered.of_same (h : o.Ordered bound) (partition : o'.partition = o.partition)
    (taken : o'.taken = o.taken) (grows : bound ≤ bound') : o'.Ordered bound' := by
  have served : o'.served = o.served := by rw [Subscriber.served, partition, taken]; rfl
  exact ⟨partition ▸ h.levelled, served ▸ h.rising,
    fun e he => (h.below e (served ▸ he)).trans_le grows⟩

theorem Ordered.fresh (empty : o.partition.levels = []) (taken : o.taken = []) :
    o.Ordered bound := by
  have served : o.served = [] := by
    simp [Subscriber.served, taken, Partition.events, Partition.entries, Partition.flatten, empty]
  refine ⟨⟨by simp [empty], by simp [empty]⟩, served ▸ .nil, ?_⟩
  intro e he
  rw [served] at he
  cases he

/-- The new event is behind everything served so far. -/
theorem Ordered.push {merger : Merger Payload} {fault : PushPoint → Option Exn}
    {event : Event Payload} {outcome : Except Failure PushResult} (h : o.Ordered event.sequence)
    (hp : exec (Partition.push merger fault event) o.partition = (outcome, o'.partition))
    (taken : o'.taken = o.taken) (grows : event.sequence < bound') : o'.Ordered bound' := by
  obtain ⟨levelled, stamps | events⟩ := Partition.push_stamps h.levelled hp
  · have served : o'.served.map Event.stamp = o.served.map Event.stamp := by
      rw [Subscriber.served, Subscriber.served, List.map_append, List.map_append, stamps, taken]
    refine ⟨levelled, served ▸ h.rising, ?_⟩
    intro e he
    obtain ⟨d, hd, same⟩ := List.mem_map.mp (served ▸ List.mem_map_of_mem he)
    have sequence : d.sequence = e.sequence := (Prod.ext_iff.mp same).2
    exact sequence ▸ (h.below d hd).trans grows
  · have members : ∀ e ∈ o'.served, e = event ∨ e ∈ o.served := by
      intro e he
      rw [Subscriber.served, taken, events] at he
      rcases List.mem_append.mp he with he | he
      · exact .inr (List.mem_append_left _ he)
      · exact (List.mem_cons.mp ((StableQueue.perm_enqueue ..).mem_iff.mp he)).imp_right
          (List.mem_append_right _)
    refine ⟨levelled, ?_, ?_⟩
    · have rising := List.pairwise_map.mp h.rising
      obtain ⟨left, right, across⟩ := List.pairwise_append.mp rising
      have behind : ∀ e ∈ o.served, e.stamp.1 = event.stamp.1 → e.stamp.2 < event.stamp.2 :=
        fun e he _ => h.below e he
      apply List.pairwise_map.mpr
      rw [Subscriber.served, taken, events]
      refine List.pairwise_append.mpr ⟨left, ?_, ?_⟩
      · refine h.levelled.sorted_events.pairwise_enqueue right
          (fun e he => behind e (List.mem_append_right _ he)) ?_
        intro e _ later same
        exact absurd same later.ne
      · intro a ha b hb
        rcases List.mem_cons.mp ((StableQueue.perm_enqueue ..).mem_iff.mp hb) with rfl | hb
        · exact behind a (List.mem_append_left _ ha)
        · exact across a ha b hb
    · intro e he
      rcases members e he with rfl | he
      · exact grows
      · exact (h.below e he).trans grows

/-- A pop only moves the boundary between what was taken and what is pending. -/
theorem Ordered.pop (h : o.Ordered bound) {event : Event Payload}
    (hp : exec Partition.popLocked o.partition = (.ok (some event), o'.partition))
    (taken : o'.taken = o.taken ++ [event]) : o'.Ordered bound := by
  obtain ⟨events, levelled⟩ := Partition.popLocked_events h.levelled hp
  have served : o'.served = o.served := by simp [Subscriber.served, taken, events]
  exact ⟨levelled, served ▸ h.rising, fun e he => h.below e (served ▸ he)⟩

end Subscriber

namespace Traffic

/-- The events of the call under way are yet to come wherever it has not pushed them. -/
structure InOrder (c : Traffic Payload) : Prop where
  objects : ∀ t, (c.objects t).Ordered c.tickets
  frame : ∀ f, c.publishing = some f → f.call.event.sequence = f.call.ticket ∧
    ∀ t ∈ f.unpushed, (c.objects t).Ordered f.call.ticket
  sequence : c.sequence = c.tickets

variable {c c' : Traffic Payload}

theorem InOrder.finish (h : InOrder c) (objects : ∀ t, (c'.objects t).Ordered c'.tickets)
    (publishing : c'.publishing = none) (sequence : c'.sequence = c.sequence)
    (tickets : c'.tickets = c.tickets) : InOrder c' := by
  refine ⟨objects, ?_, ?_⟩
  · intro f hf
    cases publishing.symm.trans hf
  · rw [sequence, tickets, h.sequence]

end Traffic

namespace EventBus
variable {config : BusConfig Payload} {s s' : EventBus Payload} {a : BusAction Payload}

theorem tickets_effect {c : Traffic Payload} (effect : Effect config s a c) :
    s.tickets ≤ c.tickets := by
  cases effect with
  | pushReturned f t rest fault result after =>
    unfold EventBus.pushed
    cases result <;> cases f.call.target <;> exact le_rfl
  | began => exact Nat.le_succ _
  | _ => exact le_rfl

theorem pushed_objects (f : Frame Payload) (t : Token) (rest : List Token) (held : Bool)
    (after : Partition Payload) (result : PushResult) :
    let c := ((s.setPartition t after).pushed f t rest held result).traffic
    (∀ u, u ≠ t → c.objects u = s.objects u) ∧ (c.objects t).partition = after ∧
      (c.objects t).taken = (s.objects t).taken := by
  by_cases fits : result = .full
  · simp +contextual [fits, traffic, objects_full, Subscriber.taken]
  · simp +contextual [traffic, objects_pushed _ _ _ _ _ fits, Subscriber.taken]

theorem pushed_publishing (f : Frame Payload) (t : Token) (rest : List Token) (held : Bool)
    (result : PushResult) :
    let c := (s.pushed f t rest held result).traffic
    c.publishing = none ∨ c.publishing = some (f.record t rest held result) := by
  unfold EventBus.pushed
  cases result with
  | full =>
    cases f.call.target with
    | none => exact .inl rfl
    | some id => exact .inr rfl
  | _ => exact .inr rfl

theorem pushed_counters (f : Frame Payload) (t : Token) (rest : List Token) (held : Bool)
    (result : PushResult) :
    let c := (s.pushed f t rest held result).traffic
    c.sequence = s.sequence ∧ c.tickets = s.tickets := by
  unfold EventBus.pushed
  cases result with
  | full => cases f.call.target <;> exact ⟨rfl, rfl⟩
  | _ => exact ⟨rfl, rfl⟩

theorem inOrder_pushed (inv : s.traffic.InOrder) (logged : s.traffic.Logged) {f : Frame Payload}
    (hf : s.publishing = some f) {t : Token} {rest : List Token} (unpushed : f.unpushed = t :: rest)
    {fault : PushPoint → Option Exn} {result : PushResult} {after : Partition Payload}
    (h : exec (Partition.push config.merger fault f.call.event) (s.objects t).partition =
      (.ok result, after)) (held : Bool) :
    ((s.setPartition t after).pushed f t rest held result).traffic.InOrder := by
  obtain ⟨sequence, yet⟩ := inv.frame f hf
  obtain ⟨others, partition, taken⟩ := pushed_objects (s := s) f t rest held after result
  obtain ⟨sequence', tickets'⟩ :=
    pushed_counters (s := s.setPartition t after) f t rest held result
  have kept : ∀ u bound, u ≠ t → (s.objects u).Ordered bound →
      (((s.setPartition t after).pushed f t rest held result).traffic.objects u).Ordered bound :=
    fun u bound other ordered => others u other ▸ ordered
  have latest : f.call.ticket < s.tickets := Nat.lt_of_succ_le (logged.frame f hf).latest.le
  have own : (s.objects t).Ordered f.call.event.sequence := sequence ▸ yet t (by simp [unpushed])
  refine ⟨?_, ?_, ?_⟩
  · intro u
    by_cases here : u = t
    · subst here
      exact own.push (partition ▸ h) taken (sequence ▸ latest.trans_eq tickets'.symm)
    · exact tickets' ▸ kept u _ here (inv.objects u)
  · intro g hg
    rcases pushed_publishing (s := s.setPartition t after) f t rest held result with none | next
    · cases none.symm.trans hg
    · cases next.symm.trans hg
      have fresh := (logged.frame f hf).fresh unpushed
      refine ⟨sequence, fun u hu => kept u _ (fun here => fresh (here ▸ hu)) (yet u ?_)⟩
      simp [unpushed, show u ∈ rest from hu]
  · exact sequence'.trans (inv.sequence.trans tickets'.symm)

theorem inOrder_effect (inv : s.traffic.InOrder) (logged : s.traffic.Logged)
    {c : Traffic Payload} (bound : c.tickets < wordSize) (effect : Effect config s a c) :
    c.InOrder := by
  have same : ∀ t, (s.objects t).Ordered s.tickets := inv.objects
  cases effect with
  | quiet => exact inv
  | subscribed id partition free built =>
    refine ⟨?_, fun f hf => (nomatch free.symm.trans hf), inv.sequence⟩
    intro t
    by_cases new : t = s.nextToken
    · subst new
      have empty : partition.levels = [] := by
        unfold Partition.construct at built
        split at built <;> cases built
        rfl
      apply Subscriber.Ordered.fresh
      · simpa using empty
      · simp [Subscriber.taken]
    · simpa [new, traffic] using same t
  | began r targets _ free =>
    refine ⟨fun t => (same t).of_same rfl rfl (Nat.le_succ _), ?_, ?_⟩
    · intro f hf
      cases hf
      exact ⟨inv.sequence, fun t _ => same t⟩
    · have sequence : s.sequence = s.tickets := inv.sequence
      exact (congrArg (fun n => (n + 1) % wordSize) sequence).trans (Nat.mod_eq_of_lt bound)
  | accepted f t rest hf =>
    refine ⟨same, ?_, inv.sequence⟩
    intro g hg
    cases hg
    exact inv.frame f hf
  | refused | copyThrew | returned => exact inv.finish same rfl rfl rfl
  | pushReturned f t rest fault result after _ hf _ unpushed h =>
    exact inOrder_pushed inv logged hf unpushed h _
  | pushThrew f t rest fault e after _ hf _ unpushed h =>
    obtain ⟨sequence, yet⟩ := inv.frame f hf
    have latest : f.call.ticket < s.tickets := Nat.lt_of_succ_le (logged.frame f hf).latest.le
    have own : (s.objects t).Ordered f.call.event.sequence :=
      sequence ▸ yet t (by simp [unpushed])
    refine inv.finish ?_ rfl rfl rfl
    intro u
    by_cases here : u = t
    · subst here
      have partition : ((s.setPartition u after).objects u).partition = after := by
        simp [setPartition]
      exact own.push (partition ▸ h) (by simp [traffic, finish, setPartition, Subscriber.taken])
        (sequence ▸ latest)
    · refine (same u).of_same ?_ ?_ le_rfl <;> simp [traffic, finish, setPartition, here]
  | popped id t event after _ h =>
    -- the step keeps any bound on what an object has served
    have keeps : ∀ u bound, (s.objects u).Ordered bound →
        (((s.setPartition t after).happened t (.popped event)).objects u).Ordered bound := by
      intro u bound ordered
      by_cases here : u = t
      · subst here
        have partition : (((s.setPartition u after).happened u (.popped event)).objects
            u).partition = after := by simp [happened, setPartition]
        exact ordered.pop (partition ▸ h) (by simp [happened, setPartition, Subscriber.taken])
      · refine ordered.of_same ?_ ?_ le_rfl <;> simp [happened, setPartition, here]
    refine ⟨fun u => keeps u _ (same u), ?_, inv.sequence⟩
    intro f hf
    obtain ⟨sequence, yet⟩ := inv.frame f hf
    exact ⟨sequence, fun u hu => keeps u _ (yet u hu)⟩
  | handed id t event _ =>
    have keeps : ∀ u bound, (s.objects u).Ordered bound →
        ((s.hand t event).objects u).Ordered bound := by
      intro u bound ordered
      by_cases here : u = t
      · subst here
        refine ordered.of_same ?_ ?_ le_rfl <;> simp [hand, Subscriber.taken]
      · refine ordered.of_same ?_ ?_ le_rfl <;> simp [hand, here]
    refine ⟨fun u => keeps u _ (same u), ?_, inv.sequence⟩
    intro f hf
    obtain ⟨sequence, yet⟩ := inv.frame f hf
    exact ⟨sequence, fun u hu => keeps u _ (yet u hu)⟩

theorem inOrder_reachable (reached : Reachable (step config) (initial config) s)
    (bound : s.tickets < wordSize) : s.traffic.InOrder := by
  induction reached with
  | start => exact ⟨fun t => .fresh rfl rfl, nofun, rfl⟩
  | next r a r' reached moves inv =>
    have effect := step_effect (seated_reachable reached) moves
    have earlier : r.tickets < wordSize := (tickets_effect effect).trans_lt bound
    exact inOrder_effect (inv earlier) (logged_reachable reached) bound effect

/-! ## What the subscribers see -/

/-- The sequence numbers of a superstep in the order in which the subscriber received them. -/
def received (s : EventBus Payload) (t : Token) (superstep : Superstep) : List Sequence :=
  ((s.objects t).handed.filter fun e => e.superstep = superstep).map Event.sequence

structure DeliversInOrder (config : BusConfig Payload) (s : EventBus Payload) : Prop where
  rising : ∀ t superstep, (s.received t superstep).Pairwise (· < ·)
  least : ∀ id s' t event, step config s (.poll id) = some s' →
    s'.consumers id = .holding t event →
    ∀ e ∈ (s.objects t).partition.events, event.superstep ≤ e.superstep
  agree : ∀ t u superstep first second, [first, second].Sublist (s.received t superstep) →
    first ∈ s.received u superstep → second ∈ s.received u superstep →
    [first, second].Sublist (s.received u superstep)

theorem handed_prefix {t : Token} (h : s.Handed t) :
    ∃ rest, (s.objects t).taken = (s.objects t).handed ++ rest := by
  rcases h with ⟨-, all⟩ | ⟨-, event, -, one⟩
  · exact ⟨[], all.trans (List.append_nil _).symm⟩
  · exact ⟨[event], one⟩

theorem received_rising {t : Token} {bound : Sequence} (ordered : (s.objects t).Ordered bound)
    (handed : s.Handed t) (superstep : Superstep) :
    (s.received t superstep).Pairwise (· < ·) := by
  obtain ⟨rest, taken⟩ := handed_prefix handed
  have rising := List.pairwise_map.mp ordered.rising
  rw [Subscriber.served, taken, List.append_assoc] at rising
  have front := (List.pairwise_append.mp rising).1
  refine List.pairwise_map.mpr (List.pairwise_filter.mpr (front.imp ?_))
  intro a b rises ha hb
  exact rises ((of_decide_eq_true ha).trans (of_decide_eq_true hb).symm)

theorem popped_least {id : SubscriberId} {t : Token} {event : Event Payload}
    (levelled : Partition.Levelled (s.objects t).partition.levels)
    (h : step config s (.poll id) = some s') (holding : s'.consumers id = .holding t event) :
    ∀ e ∈ (s.objects t).partition.events, event.superstep ≤ e.superstep := by
  obtain ⟨u, -, pops⟩ := step_poll.mp h
  unfold poll at pops
  split at pops
  · cases pops
    simp [setConsumer] at holding
  · rename_i first after popped
    cases pops
    simp only [setConsumer, Function.update_self, Consumer.holding.injEq] at holding
    obtain ⟨rfl, rfl⟩ := holding
    have events := (Partition.popLocked_events levelled popped).1
    have sorted := levelled.sorted_events
    rw [events] at sorted ⊢
    intro e he
    rcases List.mem_cons.mp he with rfl | he
    · exact le_rfl
    · exact (List.pairwise_cons.mp sorted).1 e he
  · cases pops

theorem sublist_of_rising {l : List Sequence} (rising : l.Pairwise (· < ·)) {first second : Nat}
    (hf : first ∈ l) (hs : second ∈ l) (ordered : first < second) : [first, second].Sublist l := by
  refine List.sublist_of_subperm_of_pairwise (r := (· < ·)) ?_ (by simp [ordered]) rising
  apply List.subperm_of_subset (by simp [ordered.ne])
  intro x hx
  rcases List.mem_pair.mp hx with rfl | rfl
  · exact hf
  · exact hs

/-- In every run that draws fewer than 2^64 sequences. -/
theorem delivers_in_order (reached : Reachable (step config) (initial config) s)
    (bound : s.tickets < wordSize) : DeliversInOrder config s := by
  have inOrder := inOrder_reachable reached bound
  have rising : ∀ t superstep, (s.received t superstep).Pairwise (· < ·) := fun t =>
    received_rising (inOrder.objects t) (handed_reachable reached t)
  refine ⟨rising, ?_, ?_⟩
  · intro id s' t event h holding
    exact popped_least (inOrder.objects t).levelled h holding
  · intro t u superstep a b before ha hb
    have ordered : a < b := by simpa using (rising t superstep).sublist before
    exact sublist_of_rising (rising u superstep) ha hb ordered

def consume (id : SubscriberId) : List (BusAction Payload) :=
  [.work id, .look id, .poll id, .handle id]

/-- Two subscribers receive the same two events, the second of them after a restart. -/
def sampleOrder : List (BusAction Nat) :=
  [.subscribe true, .subscribe true, .start, .register, .startReturn] ++
    publishAll 2 ⟨none, none, 7, 70, 0⟩ ++ consume 1 ++ consume 0 ++ [.stop, .stopReturn] ++
    publishAll 2 ⟨none, none, 8, 80, 0⟩ ++ [.start, .register, .startReturn] ++ consume 0 ++
    consume 1

def sampleReceived : EventBus Nat :=
  (run (step sampleConfig) (initial sampleConfig) sampleOrder).getD (initial sampleConfig)

theorem sampleReceived_in_order : DeliversInOrder sampleConfig sampleReceived ∧
    sampleReceived.received 0 0 = [0, 1] ∧ sampleReceived.received 1 0 = [0, 1] := by
  have reached : Reachable (step sampleConfig) (initial sampleConfig) sampleReceived :=
    ⟨sampleOrder, rfl⟩
  exact ⟨delivers_in_order reached (by decide +kernel), by decide +kernel, by decide +kernel⟩

end EventBus

end Yellowstone
