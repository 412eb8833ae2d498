import Yellowstone.Bus.Overtaking

/-!
# What holds of every payload

A property that publishers guarantee and that the merger keeps, also when it throws, holds of
every payload on the bus: in a partition, in the call under way, in a worker's hands, and of
all that handlers were given.
-/

set_option autoImplicit false

namespace Yellowstone

open Machine Throwing

variable {Payload : Type} {P : Payload → Prop}

/-- What the merger leaves has the property if both payloads have it, whether it throws or not. -/
def Merger.Keeps (merger : Merger Payload) (P : Payload → Prop) : Prop :=
  ∀ current incoming, P current → P incoming → P (merger current incoming).1

namespace Partition
variable {merger : Merger Payload} {fault : PushPoint → Option Exn} {event : Event Payload}
  {p after : Partition Payload}

/-- Every payload that the levels store has the property. -/
def Bear (P : Payload → Prop) (levels : List (Superstep × Level Payload)) : Prop :=
  ∀ node ∈ flatten levels, P node.2.payload

variable {levels : List (Superstep × Level Payload)}

theorem Bear.storePayload (h : Bear P levels) (position : Position) {payload : Payload}
    (hp : P payload) : Bear P (storePayload position payload levels) := by
  intro node hn
  rw [flatten_storePayload] at hn
  obtain ⟨old, ho, rfl⟩ := List.mem_map.mp hn
  split
  · exact hp
  · exact h old ho

theorem Bear.levelFor (h : Bear P levels) (superstep : Superstep) :
    Bear P (levelFor superstep levels) := by
  intro node hn
  rw [flatten_levelFor] at hn
  exact h node hn

theorem Bear.pushBack (h : Bear P levels) (superstep : Superstep) (position : Position)
    (he : P event.payload) : Bear P (pushBack superstep (position, event) levels) := by
  intro node hn
  obtain ⟨_, changed, hn⟩ := List.mem_flatMap.mp hn
  obtain ⟨l, hl, rfl⟩ := List.mem_map.mp changed
  split at hn
  · rcases List.mem_append.mp hn with hn | hn
    · exact h node (List.mem_flatMap.mpr ⟨l, hl, hn⟩)
    · exact List.mem_singleton.mp hn ▸ he
  · exact h node (List.mem_flatMap.mpr ⟨l, hl, hn⟩)

theorem Bear.nodeAt (h : Bear P p.levels) {position : Position} {stored : Event Payload}
    (found : p.nodeAt position = some stored) : P stored.payload := by
  obtain ⟨_, _, whole, -⟩ := List.lookup_eq_some_iff.mp found
  exact h (position, stored) (by rw [flatten, whole]; simp)

theorem Bear.push (h : Bear P p.levels) (keeps : merger.Keeps P) (he : P event.payload)
    {outcome : Except Failure PushResult}
    (runs : exec (push merger fault event) p = (outcome, after)) : Bear P after.levels := by
  cases push_runs runs with
  | lost | full | levelThrew => exact h
  | merged position stored _ found _ | mergerThrew position stored _ _ found _ =>
    exact h.storePayload position (keeps _ _ (h.nodeAt found) he)
  | appendThrew => exact h.levelFor event.superstep
  | indexThrew | inserted => exact (h.levelFor event.superstep).pushBack event.superstep _ he

theorem Bear.popLocked (h : Bear P p.levels) {result : Option (Event Payload)}
    (runs : exec popLocked p = (.ok result, after)) :
    (∀ e, result = some e → P e.payload) ∧ Bear P after.levels := by
  cases popLocked_runs runs with
  | nothing => exact ⟨nofun, h⟩
  | took superstep position e level levels _ shape =>
    rw [shape] at h
    have first : P e.payload := h (position, e) (by simp [flatten])
    refine ⟨fun e' same => Option.some.inj same ▸ first, ?_⟩
    intro node hn
    apply h node
    by_cases last : level = []
    · simp only [last, if_true] at hn
      exact List.mem_append_right _ hn
    · simp only [last, if_false] at hn
      exact List.mem_cons_of_mem _ hn

end Partition

/-- The payloads of the subscribers' events and of the call under way have the property. -/
structure Traffic.Bear (P : Payload → Prop) (c : Traffic Payload) : Prop where
  pending : ∀ t, Partition.Bear P (c.objects t).partition.levels
  handed : ∀ t, ∀ e ∈ (c.objects t).handed, P e.payload
  publishing : ∀ f, c.publishing = some f → P f.call.event.payload

namespace EventBus
variable {config : BusConfig Payload} {s s' : EventBus Payload} {a : BusAction Payload}

/-- Wherever an event is on the bus, its payload has the property. -/
structure AllBear (P : Payload → Prop) (s : EventBus Payload) : Prop where
  traffic : s.traffic.Bear P
  held : ∀ id t e, s.consumers id = .holding t e → P e.payload

theorem pushed_handed (f : Frame Payload) (t : Token) (rest : List Token) (held : Bool)
    (after : Partition Payload) (result : PushResult) (u : Token) :
    (((s.setPartition t after).pushed f t rest held result).objects u).handed =
      (s.objects u).handed := by
  by_cases fits : result = .full
  · rw [fits, objects_full]
    by_cases here : u = t <;> simp [here]
  · rw [objects_pushed _ _ _ _ _ fits]
    by_cases here : u = t <;> simp [here]

theorem bear_effect (keeps : config.merger.Keeps P) (inv : AllBear P s)
    (publishes : ∀ r, a = .publish r → P r.payload) {c : Traffic Payload}
    (effect : Effect config s a c) : c.Bear P := by
  obtain ⟨⟨pending, handed, publishing⟩, held⟩ := inv
  cases effect with
  | quiet => exact ⟨pending, handed, publishing⟩
  | subscribed id partition free built =>
    have empty : partition.levels = [] := by
      unfold Partition.construct at built
      split at built <;> cases built
      rfl
    refine ⟨fun t => ?_, fun t => ?_, publishing⟩
    · by_cases new : t = s.nextToken
      · subst new
        simp [Partition.Bear, Partition.flatten, empty]
      · simpa [new, traffic] using pending t
    · by_cases new : t = s.nextToken
      · simp [new]
      · simpa [new, traffic] using handed t
  | began r targets label =>
    refine ⟨pending, handed, fun f hf => ?_⟩
    cases hf
    exact publishes r label
  | accepted f t rest hf =>
    refine ⟨pending, handed, fun g hg => ?_⟩
    cases hg
    exact publishing f hf
  | refused | copyThrew | returned =>
    refine ⟨pending, handed, fun g hg => ?_⟩
    cases hg
  | pushReturned f t rest fault result after label hf _ _ h =>
    obtain ⟨others, partition, -⟩ := pushed_objects (s := s) f t rest
      (holds (s.objects t).partition f.call.event) after result
    refine ⟨fun u => ?_, fun u => ?_, fun g hg => ?_⟩
    · by_cases here : u = t
      · subst here
        rw [partition]
        exact (pending u).push keeps (publishing f hf) h
      · rw [others u here]
        exact pending u
    · rw [show ((EventBus.pushed _ f t rest _ result).traffic.objects u).handed = _ from
        pushed_handed f t rest _ after result u]
      exact handed u
    · rcases pushed_publishing (s := s.setPartition t after) f t rest _ result with none | next
      · cases none.symm.trans hg
      · cases next.symm.trans hg
        exact publishing f hf
  | pushThrew f t rest fault e after label hf _ _ h =>
    refine ⟨fun u => ?_, fun u => ?_, fun g hg => ?_⟩
    · by_cases here : u = t
      · subst here
        simpa [traffic, finish, setPartition] using (pending u).push keeps (publishing f hf) h
      · simpa [traffic, finish, setPartition, here] using pending u
    · by_cases here : u = t
      · subst here
        simpa [traffic, finish, setPartition] using handed u
      · simpa [traffic, finish, setPartition, here] using handed u
    · cases hg
  | popped id t event after _ h =>
    refine ⟨fun u => ?_, fun u => ?_, publishing⟩
    · by_cases here : u = t
      · subst here
        simpa [traffic, happened, setPartition] using ((pending u).popLocked h).2
      · simpa [traffic, happened, setPartition, here] using pending u
    · by_cases here : u = t
      · subst here
        simpa [traffic, happened, setPartition] using handed u
      · simpa [traffic, happened, setPartition, here] using handed u
  | handed id t event holding =>
    refine ⟨fun u => ?_, fun u e he => ?_, publishing⟩
    · by_cases here : u = t
      · subst here
        simpa [traffic, hand] using pending u
      · simpa [traffic, hand, here] using pending u
    · by_cases here : u = t
      · subst here
        simp only [traffic, hand, Function.update_self] at he
        rcases List.mem_append.mp he with he | he
        · exact handed u e he
        · exact List.mem_singleton.mp he ▸ held id u event holding
      · exact handed u e (by simpa [traffic, hand, here] using he)

/-- A worker holds what it held or what it has just popped. -/
theorem held_step (inv : AllBear P s) (h : step config s a = some s') (id : SubscriberId)
    (t : Token) (e : Event Payload) (holding : s'.consumers id = .holding t e) : P e.payload := by
  cases own : owns id a with
  | false => exact inv.held id t e ((bystander_step h own).1 ▸ holding)
  | true =>
    cases a with
    | work i =>
      obtain rfl : i = id := of_decide_eq_true own
      obtain ⟨-, idle, rfl⟩ := step_work.mp h
      unfold work at holding
      split at holding
      · exact inv.held i t e holding
      · simp [setConsumer] at holding
    | look i =>
      obtain rfl : i = id := of_decide_eq_true own
      obtain ⟨u, -, rfl⟩ := step_look.mp h
      cases hr : s.running <;> simp [setConsumer, hr] at holding
    | poll i =>
      obtain rfl : i = id := of_decide_eq_true own
      obtain ⟨u, -, hp⟩ := step_poll.mp h
      unfold poll at hp
      split at hp
      · cases hp
        simp [setConsumer] at holding
      · rename_i event after pops
        cases hp
        simp only [setConsumer, Function.update_self, Consumer.holding.injEq] at holding
        obtain ⟨rfl, rfl⟩ := holding
        exact ((inv.traffic.pending u).popLocked pops).1 event rfl
      · cases hp
    | handle i =>
      obtain rfl : i = id := of_decide_eq_true own
      obtain ⟨u, event, -, rfl⟩ := step_handle.mp h
      simp [handle, setConsumer] at holding
    | _ => cases own

theorem bear_step (keeps : config.merger.Keeps P) (seated : Seated s) (inv : AllBear P s)
    (publishes : ∀ r, a = .publish r → P r.payload) (h : step config s a = some s') :
    AllBear P s' :=
  ⟨bear_effect keeps inv publishes (step_effect seated h), held_step inv h⟩

/-- The payload of a publication has the property. -/
def publishesOnly (P : Payload → Prop) [DecidablePred P] (_ : EventBus Payload) :
    BusAction Payload → Bool
  | .publish r => P r.payload
  | _ => true

theorem bear_initial : AllBear P (initial config) :=
  ⟨⟨by simp [initial, traffic, Partition.Bear, Partition.flatten], nofun, nofun⟩, nofun⟩

/-- In every run whose publications have the property. -/
theorem all_bear [DecidablePred P] (keeps : config.merger.Keeps P)
    (reached : Reachable (guarded (step config) (publishesOnly P)) (initial config) s) :
    AllBear P s := by
  induction reached with
  | start => exact bear_initial
  | next r a r' reached moves inv =>
    obtain ⟨allowed, moves⟩ := guarded_eq_some.mp moves
    refine bear_step keeps (seated_reachable reached.of_guarded) inv (fun q label => ?_) moves
    subst label
    exact of_decide_eq_true allowed

/-- A merger that adds, and throws rather than reach 100. -/
def boundedConfig : BusConfig Nat :=
  ⟨1, 2, fun current incoming =>
    if current + incoming < 100 then (current + incoming, none) else (current, some (.user 0)),
    Nat.zero_lt_two⟩

/-- The second publication of event 7 is merged, the third makes the merger throw. -/
def sampleMerges : List (BusAction Nat) :=
  [.subscribe true] ++ publishAll 1 ⟨none, none, 7, 60, 5⟩ ++ publishAll 1 ⟨none, none, 7, 30, 5⟩ ++
    [.publish ⟨none, none, 7, 20, 5⟩, .check, .push none fun _ => none]

def sampleMerged : EventBus Nat :=
  (run (step boundedConfig) (initial boundedConfig) sampleMerges).getD (initial boundedConfig)

theorem sampleMerged_bear :
    AllBear (· < 100) sampleMerged ∧
      (sampleMerged.objects 0).partition.events.map Event.payload = [90] := by
  have keeps : boundedConfig.merger.Keeps (· < 100) := by
    intro current incoming hc _
    simp only [boundedConfig]
    split <;> assumption
  exact ⟨all_bear keeps ⟨sampleMerges, rfl⟩, by decide +kernel⟩

end EventBus

end Yellowstone
