import Yellowstone.Bus.PartitionBatch
import Yellowstone.Bus.PartitionRuns
import Yellowstone.Bus.Preflight

/-!
# Exactly-once delivery, with coalescing as a fold

The publications of a key form groups: a publication joins the group that is open, and a pop
of the key closes it. Each closed group is one event that was taken from the partition, the
open group is the one event of the key that is pending.
-/

set_option autoImplicit false

namespace Yellowstone

open Machine Throwing

variable {Payload : Type}

/-- The groups of a key that pops have closed, and the one that is open. -/
abbrev Groups (Payload : Type) := List (List (Event Payload)) × List (Event Payload)

def Groups.next (k : Key) (g : Groups Payload) : Happening Payload → Groups Payload
  | .pushed _ _ event => if event.key = k then (g.1, g.2 ++ [event]) else g
  | .popped event => if event.key = k then (g.1 ++ [g.2], []) else g

namespace Subscriber

def groups (o : Subscriber Payload) (k : Key) : Groups Payload :=
  o.history.foldl (Groups.next k) ([], [])

/-- The events that left the partition, in order. -/
def taken (o : Subscriber Payload) : List (Event Payload) :=
  o.history.filterMap fun
    | .pushed .. => none
    | .popped event => some event

end Subscriber

/-- Closed groups are what was taken, open groups are what is pending. -/
structure Folded (merge : Payload → Payload → Payload) (o : Subscriber Payload) : Prop where
  valid : o.partition.Valid
  closed : ∀ k, ofKey k o.taken = (o.groups k).1.filterMap (foldGroup merge)
  pending : ∀ k, ofKey k o.partition.events = (foldGroup merge (o.groups k).2).toList

namespace Folded
variable {merge : Payload → Payload → Payload} {o o' : Subscriber Payload}

theorem of_same (h : Folded merge o) (partition : o'.partition = o.partition)
    (history : o'.history = o.history) : Folded merge o' := by
  obtain ⟨valid, closed, pending⟩ := h
  constructor <;> simpa only [Subscriber.taken, Subscriber.groups, partition, history]

theorem fresh (h : o.partition.Valid) (events : o.partition.events = [])
    (history : o.history = []) : Folded merge o := by
  refine ⟨h, ?_, ?_⟩
  · intro k
    simp [Subscriber.taken, Subscriber.groups, history, ofKey]
  · intro k
    simp [Subscriber.groups, history, events, ofKey, foldGroup]

theorem perm_toList {l : List (Event Payload)} {e : Option (Event Payload)}
    (h : l.Perm e.toList) : l = e.toList := by
  cases e with
  | none => exact List.perm_nil.mp h
  | some e => exact List.perm_singleton.mp h

theorem groups_pushed (o : Subscriber Payload) (caller : Option Nat) (ticket : Nat)
    (event : Event Payload) (k : Key) (partition : Partition Payload) :
    ({ o with partition, history := o.history ++ [.pushed caller ticket event] } :
      Subscriber Payload).groups k =
        if event.key = k then ((o.groups k).1, (o.groups k).2 ++ [event]) else o.groups k := by
  simp [Subscriber.groups, Groups.next]

theorem groups_popped (o : Subscriber Payload) (event : Event Payload) (k : Key)
    (partition : Partition Payload) :
    ({ o with partition, history := o.history ++ [.popped event] } :
      Subscriber Payload).groups k =
        if event.key = k then ((o.groups k).1 ++ [(o.groups k).2], []) else o.groups k := by
  simp [Subscriber.groups, Groups.next]

theorem ofKey_map_absorb {k : Key} (event : Event Payload) (events : List (Event Payload)) :
    ofKey k (events.map (Partition.absorb (.ofFun merge) event)) =
      (ofKey k events).map (Partition.absorb (.ofFun merge) event) := by
  simp [ofKey, List.filter_map, Function.comp_def]

/-- A merge extends the open group of the key. -/
theorem merged (h : Folded merge o) {event stored : Event Payload}
    (hs : stored ∈ o.partition.events) (hk : stored.key = event.key) {after : Partition Payload}
    (valid : after.Valid)
    (events : after.events = o.partition.events.map (Partition.absorb (.ofFun merge) event))
    (caller : Option Nat) (ticket : Nat) :
    Folded merge { o with
      partition := after, history := o.history ++ [.pushed caller ticket event] } := by
  refine ⟨valid, ?_, ?_⟩
  · intro k
    rw [groups_pushed]
    have taken := h.closed k
    split <;> simpa [Subscriber.taken] using taken
  · intro k
    rw [groups_pushed, events, ofKey_map_absorb, h.pending]
    have queued : ofKey event.key o.partition.events = [stored] := by
      have mem : stored ∈ ofKey event.key o.partition.events := by simp [ofKey, hs, hk]
      rw [h.pending] at mem ⊢
      rw [Option.mem_toList.mp mem]
      rfl
    split
    · rename_i same
      subst same
      rw [h.pending] at queued
      have joined : foldGroup merge (o.groups event.key).2 = some stored := by
        cases hg : foldGroup merge (o.groups event.key).2 <;> simp_all
      rw [foldGroup_append merge joined, joined]
      simp [Partition.absorb, hk, Merger.ofFun]
    · rename_i other
      refine List.map_congr_left (fun e he => Partition.absorb_of_ne fun same => other ?_) |>.trans
        (List.map_id _)
      rw [← h.pending] at he
      have key := of_decide_eq_true (List.mem_filter.mp he).2
      exact same.symm.trans key

/-- An insertion opens a group for the key. -/
theorem inserted (h : Folded merge o) {event : Event Payload}
    (absent : o.partition.index.lookup event.key = none) {after : Partition Payload}
    (valid : after.Valid)
    (events : after.events = StableQueue.enqueue Event.superstep event o.partition.events)
    (caller : Option Nat) (ticket : Nat) :
    Folded merge { o with
      partition := after, history := o.history ++ [.pushed caller ticket event] } := by
  have perm : after.events.Perm (event :: o.partition.events) :=
    events ▸ StableQueue.perm_enqueue ..
  refine ⟨valid, ?_, ?_⟩
  · intro k
    rw [groups_pushed]
    have taken := h.closed k
    split <;> simpa [Subscriber.taken] using taken
  · intro k
    rw [groups_pushed]
    have filtered := perm.filter fun e => e.key = k
    split
    · rename_i same
      subst same
      have none : ofKey event.key o.partition.events = [] :=
        List.filter_eq_nil_iff.mpr fun e he same =>
          h.valid.lookup_none.mp absent e he (of_decide_eq_true same)
      have closed : (o.groups event.key).2 = [] := by
        rw [h.pending] at none
        cases hg : foldGroup merge (o.groups event.key).2 with
        | none => exact foldGroup_eq_none.mp hg
        | some e => simp [hg] at none
      rw [List.filter_cons_of_pos (by simp)] at filtered
      rw [show o.partition.events.filter (fun e => e.key = event.key) = [] from none] at filtered
      rw [closed]
      exact perm_toList filtered
    · rename_i other
      rw [List.filter_cons_of_neg (by simpa using other)] at filtered
      exact perm_toList (h.pending k ▸ filtered)

/-- A push merges, inserts, finds no room, or throws where the partition recovers from it and
leaves the events alone. -/
theorem push_cases {p after : Partition Payload} {fault : PushPoint → Option Exn}
    {event : Event Payload} {outcome : Except Failure PushResult} (h : p.Valid)
    (recovers : p.recovers (.push (.ofFun merge) fault event) = true)
    (hp : exec (Partition.push (.ofFun merge) fault event) p = (outcome, after)) :
    (outcome = .ok .coalesced ∧ after.Valid ∧ ∃ stored ∈ p.events, stored.key = event.key ∧
        after.events = p.events.map (Partition.absorb (.ofFun merge) event)) ∨
      (outcome = .ok .inserted ∧ after.Valid ∧ p.index.lookup event.key = none ∧
        after.events = StableQueue.enqueue Event.superstep event p.events) ∨
      (outcome = .ok .full ∧ after = p) ∨
      ∃ e, outcome = .error (.thrown e) ∧ after.Valid ∧ after.events = p.events := by
  cases found : p.index.lookup event.key with
  | some position =>
    obtain ⟨stored, entry, hk⟩ := h.lookup_index.mp found
    have hs := Partition.mem_events.mpr ⟨position, entry⟩
    obtain ⟨p', run, valid, -, events⟩ :=
      Partition.push_coalesced (.ofFun merge) fault h hs hk
    cases hp.symm.trans run
    exact .inl ⟨rfl, valid, stored, hs, hk, events⟩
  | none =>
    by_cases room : p.size < p.capacity
    · have run := Partition.push_absent (.ofFun merge) fault found room
      cases point : p.throwsAt fault event with
      | none =>
        rw [point] at run
        obtain ⟨p', inserts, valid, -, events⟩ :=
          Partition.push_inserted (.ofFun merge) h found room
        cases hp.symm.trans (run.trans inserts)
        exact .inr (.inl ⟨rfl, valid, rfl, events⟩)
      | some thrown =>
        obtain ⟨at', e⟩ := thrown
        have threw : outcome = .error (.thrown e) := by
          rw [point] at run
          cases at' <;> exact congrArg Prod.fst (hp.symm.trans run)
        obtain ⟨_, _, runs, -, valid, -, events⟩ := Partition.push_recovers h recovers
        cases hp.symm.trans runs
        exact .inr (.inr (.inr ⟨e, threw, valid,
          (events e threw).trans (h.absorb_absent _ found)⟩))
    · have run := Partition.push_full (.ofFun merge) fault found (not_lt.mp room)
      cases hp.symm.trans run
      exact .inr (.inr (.inl ⟨rfl, rfl⟩))

/-- A push that is not accepted changes no group. -/
theorem unpushed (h : Folded merge o) {after : Partition Payload} (valid : after.Valid)
    (events : after.events = o.partition.events) :
    Folded merge { o with partition := after } := by
  obtain ⟨-, closed, pending⟩ := h
  exact ⟨valid, closed, events ▸ pending⟩

theorem pushed (h : Folded merge o) {fault : PushPoint → Option Exn} {event : Event Payload}
    {after : Partition Payload} {result : PushResult} (fits : result ≠ .full)
    (recovers : o.partition.recovers (.push (.ofFun merge) fault event) = true)
    (hp : exec (Partition.push (.ofFun merge) fault event) o.partition =
      (.ok result, after)) (caller : Option Nat) (ticket : Nat) :
    Folded merge { o with
      partition := after, history := o.history ++ [.pushed caller ticket event] } := by
  rcases push_cases h.valid recovers hp with ⟨-, valid, stored, hs, hk, events⟩ |
    ⟨-, valid, absent, events⟩ | ⟨full, -⟩ | ⟨e, threw, -⟩
  · exact h.merged hs hk valid events caller ticket
  · exact h.inserted absent valid events caller ticket
  · cases full
    exact absurd rfl fits
  · cases threw

/-- A pop takes the one event of its key, and closes its group. -/
theorem popped (h : Folded merge o) {event : Event Payload} {after : Partition Payload}
    (hp : exec Partition.popLocked o.partition = (.ok (some event), after)) :
    Folded merge { o with partition := after, history := o.history ++ [.popped event] } := by
  cases events : o.partition.events with
  | nil => cases hp.symm.trans (Partition.popLocked_empty h.valid events)
  | cons first rest =>
    obtain ⟨p', run, valid, -, events'⟩ := Partition.popLocked_head h.valid events
    cases hp.symm.trans run
    have pending : ∀ k, ofKey k (event :: rest) = (foldGroup merge (o.groups k).2).toList :=
      events ▸ h.pending
    have own : foldGroup merge (o.groups event.key).2 = some event ∧ ofKey event.key rest = [] := by
      have head := pending event.key
      rw [ofKey, List.filter_cons_of_pos (by simp)] at head
      cases hg : foldGroup merge (o.groups event.key).2 with
      | none => cases hg ▸ head
      | some e =>
        rw [hg] at head
        obtain ⟨rfl, others⟩ := List.cons.inj head
        exact ⟨rfl, others⟩
    refine ⟨valid, ?_, ?_⟩
    · intro k
      rw [groups_popped]
      have closed := h.closed k
      split
      · rename_i same
        subst same
        simp [← closed, own.1, Subscriber.taken, ofKey]
      · rename_i other
        rw [← closed]
        simp [Subscriber.taken, ofKey, other]
    · intro k
      rw [groups_popped, events']
      split
      · rename_i same
        subst same
        exact own.2
      · rename_i other
        rw [← pending]
        simp [ofKey, other]

end Folded

namespace EventBus
variable {config : BusConfig Payload} {merge : Payload → Payload → Payload}
  {s s' : EventBus Payload}

/-- A push throws, if it throws, where its partition recovers from it. -/
def recovering (config : BusConfig Payload) (s : EventBus Payload) : BusAction Payload → Bool
  | .push _ fault =>
    match s.publishing with
    | none => true
    | some f =>
      match f.unpushed with
      | [] => true
      | t :: _ => (s.objects t).partition.recovers (.push config.merger fault f.call.event)
  | _ => true

theorem recovers_of_push {copy : Option Exn} {fault : PushPoint → Option Exn} {f : Frame Payload}
    {t : Token} {rest : List Token}
    (recovers : s.recovering config (.push copy fault) = true) (hf : s.publishing = some f)
    (unpushed : f.unpushed = t :: rest) :
    (s.objects t).partition.recovers (.push config.merger fault f.call.event) = true := by
  simpa only [recovering, hf, unpushed] using recovers

def AllFolded (merge : Payload → Payload → Payload) (c : Traffic Payload) : Prop :=
  ∀ t, Folded merge (c.objects t)

theorem folded_update {objects : Token → Subscriber Payload} {o : Subscriber Payload} {t : Token}
    (inv : ∀ u, Folded merge (objects u)) (ho : Folded merge o) (u : Token) :
    Folded merge (Function.update objects t o u) := by
  by_cases same : u = t
  · subst same
    simpa using ho
  · simpa [same] using inv u

theorem objects_pushed (f : Frame Payload) (t : Token) (rest : List Token) (held : Bool)
    (after : Partition Payload) {result : PushResult} (fits : result ≠ .full) :
    ((s.setPartition t after).pushed f t rest held result).objects =
      Function.update s.objects t { s.objects t with
        partition := after
        history := (s.objects t).history ++
          [.pushed f.call.caller f.call.ticket f.call.event] } := by
  cases result with
  | full => exact absurd rfl fits
  | _ => simp [EventBus.pushed, happened, setPartition]

theorem objects_full (f : Frame Payload) (t : Token) (rest : List Token) (held : Bool)
    (after : Partition Payload) : ((s.setPartition t after).pushed f t rest held .full).objects =
      Function.update s.objects t { s.objects t with partition := after } := by
  unfold EventBus.pushed
  cases f.call.target <;> rfl

theorem folded_effect (total : config.merger = .ofFun merge) {a : BusAction Payload}
    (recovers : s.recovering config a = true) {c : Traffic Payload}
    (inv : AllFolded merge s.traffic) (effect : Effect config s a c) : AllFolded merge c := by
  cases effect with
  | quiet => exact inv
  | subscribed id partition free built =>
    obtain ⟨valid, -, events⟩ := Partition.valid_construct built
    exact folded_update inv (.fresh valid events rfl)
  | began | accepted | refused | copyThrew | returned => exact inv
  | pushReturned f t rest fault result after label hf _ unpushed h =>
    have recovers := recovers_of_push (label ▸ recovers) hf unpushed
    rw [total] at h recovers
    by_cases fits : result = .full
    · subst fits
      rcases Folded.push_cases (inv t).valid recovers h with ⟨merges, -⟩ | ⟨inserts, -⟩ |
        ⟨-, rfl⟩ | ⟨e, threw, -⟩
      · cases merges
      · cases inserts
      · intro u
        rw [show ((s.setPartition t _).pushed f t rest _ .full).traffic.objects = _ from
          objects_full f t rest _ _]
        exact folded_update inv ((inv t).of_same rfl rfl) u
      · cases threw
    · intro u
      rw [show ((s.setPartition t after).pushed f t rest _ result).traffic.objects = _ from
        objects_pushed f t rest _ after fits]
      exact folded_update inv ((inv t).pushed fits recovers h _ _) u
  | pushThrew f t rest fault e after label hf _ unpushed h =>
    have recovers := recovers_of_push (label ▸ recovers) hf unpushed
    rw [total] at h recovers
    rcases Folded.push_cases (inv t).valid recovers h with ⟨merges, -⟩ | ⟨inserts, -⟩ |
      ⟨full, -⟩ | ⟨e, -, valid, events⟩
    · cases merges
    · cases inserts
    · cases full
    · exact folded_update inv ((inv t).unpushed valid events)
  | popped id t event after _ h =>
    have popped := (inv t).popped h
    intro u
    have moved := folded_update (t := t) inv popped u
    simpa [traffic, happened, setPartition] using moved
  | handed id t event _ => exact folded_update inv ((inv t).of_same rfl rfl)

/-! ## From the partition to the handler -/

def Holds (s : EventBus Payload) (id : SubscriberId) (t : Token) (event : Event Payload) : Prop :=
  s.consumers id = .holding t event

/-- What was taken has been handed over, but for the last event if a worker still holds it. -/
def Handed (s : EventBus Payload) (t : Token) : Prop :=
  ((∀ id event, ¬s.Holds id t event) ∧ (s.objects t).taken = (s.objects t).handed) ∨
    ∃ id event, s.Holds id t event ∧ (s.objects t).taken = (s.objects t).handed ++ [event]

theorem Handed.of_same {t : Token} (h : s.Handed t)
    (taken : (s'.objects t).taken = (s.objects t).taken)
    (handed : (s'.objects t).handed = (s.objects t).handed)
    (holds : ∀ id event, s'.Holds id t event ↔ s.Holds id t event) : s'.Handed t := by
  simpa only [Handed, taken, handed, holds] using h

theorem holds_setConsumer {id : SubscriberId} {c : Consumer Payload} {t : Token}
    (before : ∀ event, ¬s.Holds id t event) (after : ∀ event, c ≠ .holding t event)
    (i : SubscriberId) (event : Event Payload) :
    (s.setConsumer id c).Holds i t event ↔ s.Holds i t event := by
  by_cases same : i = id
  · subst same
    simp [Holds, setConsumer, after, show s.consumers i ≠ _ from before event]
  · simp [Holds, setConsumer, same]

/-- Only one worker fetches a given subscriber. -/
theorem Seated.unique (seated : Seated s) {i j : SubscriberId} {t : Token}
    (hi : (s.consumers i).subscriber = some t) (hj : (s.consumers j).subscriber = some t) : i = j :=
  seated.distinct i j t (seated.placed i t hi) (seated.placed j t hj)

theorem Holds.fetched {id : SubscriberId} {t : Token} {event : Event Payload}
    (holds : s.Holds id t event) : (s.consumers id).subscriber = some t := by
  rw [show s.consumers id = .holding t event from holds]
  rfl

theorem handed_push {f : Frame Payload} {copy : Option Exn} {fault : PushPoint → Option Exn}
    (h : s.push config f copy fault = some s') (t : Token) :
    (s'.objects t).taken = (s.objects t).taken ∧ (s'.objects t).handed = (s.objects t).handed := by
  unfold push at h
  split at h
  · rename_i u rest _ _
    split at h
    · cases h
      exact ⟨rfl, rfl⟩
    · dsimp only at h
      split at h
      · rename_i result after _
        cases h
        by_cases fits : result = .full
        · rw [fits, objects_full]
          by_cases same : t = u
          · subst same
            simp [Subscriber.taken]
          · simp [same]
        · rw [objects_pushed _ _ _ _ _ fits]
          by_cases same : t = u
          · subst same
            simp [Subscriber.taken]
          · simp [same]
      · cases h
        by_cases same : t = u
        · subst same
          simp [finish, setPartition, Subscriber.taken]
        · simp [finish, setPartition, same]
      · cases h
  · cases h

theorem handed_poll (seated : Seated s) {id : SubscriberId} {u : Token}
    (hc : s.consumers id = .polling u) (h : s.poll id u = some s') {t : Token}
    (inv : s.Handed t) : s'.Handed t := by
  have idle : ∀ v event, ¬s.Holds id v event := by
    intro v event holds
    cases hc.symm.trans holds
  unfold poll at h
  split at h
  · rename_i after nothing
    cases h
    have kept : ∀ e, (Consumer.idle : Consumer Payload) ≠ .holding t e := by simp
    refine inv.of_same ?_ ?_ fun i event => holds_setConsumer (idle t) kept i event
    all_goals
      by_cases same : t = u
      · subst same
        simp [setConsumer, setPartition, Subscriber.taken]
      · simp [setConsumer, setPartition, same]
  · rename_i event after _
    cases h
    by_cases same : t = u
    · subst same
      refine .inr ⟨id, event, by simp [Holds, setConsumer], ?_⟩
      have none : (s.objects t).taken = (s.objects t).handed := by
        rcases inv with ⟨-, all⟩ | ⟨j, e, holds, -⟩
        · exact all
        · have polling : (s.consumers id).subscriber = some t := by
            simp [hc, Consumer.subscriber]
          exact absurd (seated.unique holds.fetched polling ▸ holds) (idle t e)
      simpa [setConsumer, happened, setPartition, Subscriber.taken] using none
    · refine inv.of_same (by simp [setConsumer, happened, setPartition, same])
        (by simp [setConsumer, happened, setPartition, same]) ?_
      intro i e
      refine holds_setConsumer (s := (s.setPartition u after).happened u (.popped event))
        (idle t) ?_ i e
      intro e held
      cases held
      exact same rfl
  · cases h

theorem handed_handle (seated : Seated s) {id : SubscriberId} {u : Token} {event : Event Payload}
    (hc : s.Holds id u event) {t : Token} (inv : s.Handed t) :
    (s.handle id u event).Handed t := by
  have holder : ∀ v e, s.Holds id v e → v = u ∧ e = event := fun v e holds => by
    cases hc.symm.trans holds
    exact ⟨rfl, rfl⟩
  by_cases same : t = u
  · subst same
    rcases inv with ⟨none, -⟩ | ⟨j, e, holds, taken⟩
    · exact absurd hc (none id event)
    obtain rfl := seated.unique holds.fetched hc.fetched
    obtain ⟨-, rfl⟩ := holder t e holds
    refine .inl ⟨?_, ?_⟩
    · intro i e' holds'
      by_cases here : i = j
      · subst here
        simp [Holds, handle, setConsumer] at holds'
      · have other : s.Holds i t e' := by
          simpa [Holds, handle, hand, setConsumer, here] using holds'
        exact here (seated.unique other.fetched hc.fetched)
    · simpa [handle, hand, setConsumer, Subscriber.taken] using taken
  · refine inv.of_same (by simp [handle, hand, setConsumer, same])
      (by simp [handle, hand, setConsumer, same]) ?_
    intro i e
    have kept : ∀ e, (Consumer.idle : Consumer Payload) ≠ .holding t e := by simp
    exact holds_setConsumer (s := s.hand u event) (fun e holds => same (holder t e holds).1)
      kept i e

theorem handed_step (seated : Seated s) {a : BusAction Payload} (h : step config s a = some s')
    {t : Token} (inv : s.Handed t) : s'.Handed t := by
  cases a with
  | subscribe callable =>
    obtain ⟨-, rfl⟩ := step_subscribe.mp h
    rcases subscribe_cases config s callable with same | ⟨id, p, -, -, -, -, same⟩
    · exact same.symm ▸ inv
    · rw [same]
      by_cases new : t = s.nextToken
      · subst new
        refine .inl ⟨fun i event holds => ?_, by simp [Subscriber.taken]⟩
        have issued := seated.issued i _ (seated.placed i _ (Holds.fetched (s := s) holds))
        exact absurd issued (lt_irrefl _)
      · exact inv.of_same (by simp [new]) (by simp [new]) fun _ _ => .rfl
  | unsubscribe id =>
    obtain ⟨-, rfl⟩ := step_unsubscribe.mp h
    rcases unsubscribe_cases s id with same | ⟨-, -, same⟩
    · exact same.symm ▸ inv
    · exact same.symm ▸ inv
  | publish r =>
    obtain ⟨-, rfl⟩ := step_publish.mp h
    unfold publish
    split
    · exact inv
    · split
      · exact inv
      · exact inv
  | check =>
    obtain ⟨f, -, hf⟩ := step_check.mp h
    unfold check at hf
    split at hf
    · cases hf
    split at hf <;> cases hf <;> exact inv
  | push copy fault =>
    obtain ⟨f, -, hf⟩ := step_push.mp h
    obtain ⟨taken, handed⟩ := handed_push hf t
    apply inv.of_same taken handed
    intro id event
    rw [Holds, (undisturbed_push hf).consumers, Holds]
  | publishReturn =>
    obtain ⟨f, -, hf⟩ := step_publishReturn.mp h
    unfold publishReturn at hf
    split at hf
    · cases hf
      exact inv
    · cases hf
  | start =>
    obtain ⟨-, ⟨-, rfl⟩ | ⟨-, rfl⟩⟩ := step_start.mp h
    · exact inv
    · exact inv
  | register =>
    obtain ⟨-, rfl⟩ := step_register.mp h
    exact inv
  | startReturn =>
    obtain ⟨-, rfl⟩ := step_startReturn.mp h
    exact inv
  | startThrow =>
    obtain ⟨-, -, rfl⟩ := step_startThrow.mp h
    exact inv
  | stop =>
    obtain ⟨-, ⟨-, rfl⟩ | ⟨-, rfl⟩⟩ := step_stop.mp h
    · exact inv
    · exact inv
  | stopReturn =>
    obtain ⟨-, -, rfl⟩ := step_stopReturn.mp h
    exact inv
  | work id =>
    obtain ⟨-, idle, rfl⟩ := step_work.mp h
    unfold work
    split
    · exact inv
    · rename_i u _
      have kept : ∀ e, (Consumer.fetched u : Consumer Payload) ≠ .holding t e := by simp
      refine inv.of_same rfl rfl fun i event => holds_setConsumer ?_ kept i event
      intro e holds
      simp [show s.consumers id = .holding t e from holds, Consumer.isIdle] at idle
  | look id =>
    obtain ⟨u, hc, rfl⟩ := step_look.mp h
    refine inv.of_same rfl rfl fun i event => holds_setConsumer ?_ ?_ i event
    · intro e holds
      cases hc.symm.trans holds
    · intro e
      split <;> simp
  | poll id =>
    obtain ⟨u, hc, hp⟩ := step_poll.mp h
    exact handed_poll seated hc hp inv
  | handle id =>
    obtain ⟨u, event, hc, rfl⟩ := step_handle.mp h
    exact handed_handle seated hc inv

theorem handed_reachable (reached : Reachable (step config) (initial config) s) (t : Token) :
    s.Handed t := by
  induction reached with
  | start => exact .inl ⟨fun _ _ => nofun, rfl⟩
  | next r a r' reached moves inv => exact handed_step (seated_reachable reached) moves inv

theorem folded_reachable (total : config.merger = .ofFun merge)
    (reached : Reachable (guarded (step config) (recovering config)) (initial config) s) :
    AllFolded merge s.traffic := by
  induction reached with
  | start =>
    exact fun t => .fresh ⟨⟨.nil, nofun⟩, nofun, nofun, .nil, .nil, .nil, rfl, le_rfl⟩ rfl rfl
  | next r a r' reached moves inv =>
    obtain ⟨recovers, moves⟩ := guarded_eq_some.mp moves
    exact folded_effect total recovers inv
      (step_effect (seated_reachable reached.of_guarded) moves)

/-- Groups of publications and events of one subscriber correspond one to one. -/
structure DeliversOnce (merge : Payload → Payload → Payload) (s : EventBus Payload) (t : Token) :
    Prop where
  closed : ∀ k, ofKey k (s.objects t).taken =
    ((s.objects t).groups k).1.filterMap (foldGroup merge)
  pending : ∀ k, ofKey k (s.objects t).partition.events =
    (foldGroup merge ((s.objects t).groups k).2).toList
  handed : s.Handed t
  stopped : s.running = false → s.lifecycle = .idle →
    (s.objects t).taken = (s.objects t).handed

theorem handed_of_stopped {t : Token} (seated : Seated s) (handed : s.Handed t)
    (stopped : s.running = false) (free : s.lifecycle = .idle) :
    (s.objects t).taken = (s.objects t).handed := by
  rcases handed with ⟨-, all⟩ | ⟨id, event, holds, -⟩
  · exact all
  · have fetched := holds.fetched
    simp [seated.all_idle stopped free id] at fetched

/-- In every run whose pushes throw only where their partition recovers, every subscriber is
handed each group's fold once, or it is still pending. -/
theorem delivers_once (total : config.merger = .ofFun merge)
    (reached : Reachable (guarded (step config) (recovering config)) (initial config) s)
    (t : Token) : DeliversOnce merge s t := by
  have folded : Folded merge (s.objects t) := folded_reachable total reached t
  have handed := handed_reachable reached.of_guarded t
  exact ⟨folded.closed, folded.pending, handed,
    handed_of_stopped (seated_reachable reached.of_guarded) handed⟩

def failsAt (point : PushPoint) : PushPoint → Option Exn :=
  fun p => if p = point then some .badAlloc else none

/-- A publication throws before it has written anything, two are merged, and a third of the same
key comes after the pop. -/
def sampleTraffic : List (BusAction Nat) :=
  [.subscribe true, .start, .register, .startReturn, .publish ⟨none, none, 7, 9, 0⟩, .check,
    .push none (failsAt .level)] ++ publishAll 1 ⟨none, none, 7, 70, 0⟩ ++
    publishAll 1 ⟨none, some 0, 7, 5, 0⟩ ++ [.work 0, .look 0, .poll 0] ++
    publishAll 1 ⟨none, none, 7, 1, 0⟩ ++ [.stop, .handle 0, .stopReturn]

def sampleStopped : EventBus Nat :=
  (run (guarded (step sampleConfig) (recovering sampleConfig)) (initial sampleConfig)
    sampleTraffic).getD (initial sampleConfig)

theorem sampleStopped_delivers_once : DeliversOnce (· + ·) sampleStopped 0 ∧
    (sampleStopped.objects 0).handed = [⟨7, 0, 1, 75⟩] ∧
    (sampleStopped.objects 0).partition.events = [⟨7, 0, 3, 1⟩] := by
  have reached : Reachable (guarded (step sampleConfig) (recovering sampleConfig))
    (initial sampleConfig) sampleStopped := ⟨sampleTraffic, rfl⟩
  exact ⟨delivers_once rfl reached 0, rfl, rfl⟩

/-- A publication throws at the insertion into the index, a second one is accepted, and the worker
takes an event. -/
def sampleOrphan : List (BusAction Nat) :=
  [.subscribe true, .start, .register, .startReturn, .publish ⟨none, none, 7, 70, 0⟩, .check,
    .push none (failsAt .index)] ++ publishAll 1 ⟨none, none, 8, 80, 0⟩ ++
    [.work 0, .look 0, .poll 0, .handle 0]

def sampleOrphaned : EventBus Nat :=
  (run (step sampleConfig) (initial sampleConfig) sampleOrphan).getD (initial sampleConfig)

/-- The event handed over is the one whose publication threw; the accepted one stays behind. -/
theorem orphan_delivered :
    Reachable (step sampleConfig) (initial sampleConfig) sampleOrphaned ∧
      (sampleOrphaned.objects 0).groups ⟨7, 0⟩ = ([[]], []) ∧
      (sampleOrphaned.objects 0).handed = [⟨7, 0, 0, 70⟩] ∧
      ¬DeliversOnce (· + ·) sampleOrphaned 0 := by
  refine ⟨⟨sampleOrphan, rfl⟩, rfl, rfl, fun delivers => ?_⟩
  have taken : ofKey ⟨7, 0⟩ (sampleOrphaned.objects 0).taken = [] := delivers.closed ⟨7, 0⟩
  have popped : ofKey ⟨7, 0⟩ (sampleOrphaned.objects 0).taken = [⟨7, 0, 0, 70⟩] := rfl
  cases popped.symm.trans taken

end EventBus

end Yellowstone
