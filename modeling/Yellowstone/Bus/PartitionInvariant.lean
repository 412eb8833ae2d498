import Mathlib.Data.List.Nodup
import Yellowstone.Bus.Partition
import Yellowstone.Library.StableQueue

/-!
# The representation invariant of `Partition`

`entries` is what the levels hold, in the order in which it will be served. The invariant
ties levels, index and counter together; `push` and `popLocked` are then described by what
they do to the entries.
-/

set_option autoImplicit false

namespace Yellowstone

open Throwing

theorem lookup_eq_some_iff_mem {α β : Type} [DecidableEq α] {l : List (α × β)}
    (nodup : (l.map Prod.fst).Nodup) {k : α} {v : β} : l.lookup k = some v ↔ (k, v) ∈ l := by
  induction l with
  | nil => simp
  | cons p l ih =>
    obtain ⟨a, b⟩ := p
    simp only [List.map_cons, List.nodup_cons, List.mem_map] at nodup
    by_cases hk : k = a
    · subst hk
      have absent : (k, v) ∉ l := fun h => nodup.1 ⟨_, h, rfl⟩
      simp [absent, eq_comm]
    · have hka : (k == a) = false := by simpa using hk
      simp [List.lookup_cons, hka, hk, ih nodup.2]

namespace Partition
variable {Payload : Type}

def nodeStep (node : Position × Event Payload) : Superstep := node.2.superstep

/-- The list nodes in the order of the levels. -/
def flatten (levels : List (Superstep × Level Payload)) : Level Payload := levels.flatMap Prod.snd

def entries (p : Partition Payload) : Level Payload := flatten p.levels

def events (p : Partition Payload) : List (Event Payload) := p.entries.map Prod.snd

/-- Levels stand in key order and hold events of their own superstep. -/
structure Levelled (levels : List (Superstep × Level Payload)) : Prop where
  sorted : levels.Pairwise fun a b => a.1 < b.1
  own : ∀ l ∈ levels, ∀ node ∈ l.2, node.2.superstep = l.1

theorem Levelled.tail {l : Superstep × Level Payload} {levels : List (Superstep × Level Payload)}
    (h : Levelled (l :: levels)) : Levelled levels :=
  ⟨(List.pairwise_cons.mp h.sorted).2, fun m hm => h.own m (by simp [hm])⟩

/-- The first node leaves, and its level with it if there is no other. -/
theorem Levelled.dropHead {s : Superstep} {node : Position × Event Payload}
    {level : Level Payload} {levels : List (Superstep × Level Payload)}
    (h : Levelled ((s, node :: level) :: levels)) :
    Levelled (if level = [] then levels else (s, level) :: levels) := by
  split
  · exact h.tail
  · refine ⟨List.pairwise_cons.mpr ⟨(List.pairwise_cons.mp h.sorted).1, h.tail.sorted⟩, ?_⟩
    intro l hl
    rcases List.mem_cons.mp hl with rfl | hl
    · exact fun x hx => h.own _ (List.mem_cons_self ..) x (by simp [hx])
    · exact h.own l (by simp [hl])

theorem Levelled.above {l : Superstep × Level Payload} {levels : List (Superstep × Level Payload)}
    (h : Levelled (l :: levels)) : ∀ node ∈ flatten levels, l.1 < nodeStep node := by
  intro node hnode
  obtain ⟨m, hm, hmem⟩ := List.mem_flatMap.mp hnode
  rw [nodeStep, h.own m (by simp [hm]) node hmem]
  exact (List.pairwise_cons.mp h.sorted).1 m hm

theorem Levelled.sorted_flatten {levels : List (Superstep × Level Payload)}
    (h : Levelled levels) : StableQueue.Sorted nodeStep (flatten levels) := by
  induction levels with
  | nil => exact .nil
  | cons l levels ih =>
    refine List.pairwise_append.mpr ⟨?_, ih h.tail, ?_⟩
    · apply List.pairwise_of_forall_mem_list
      intro a ha b hb
      rw [nodeStep, nodeStep, h.own l (by simp) a ha, h.own l (by simp) b hb]
    · intro a ha b hb
      rw [nodeStep, h.own l (by simp) a ha]
      exact (h.above b hb).le

theorem flatten_openLevel (s : Superstep) (levels : List (Superstep × Level Payload)) :
    flatten (openLevel s levels) = flatten levels := by
  induction levels with
  | nil => rfl
  | cons l levels ih =>
    simp only [openLevel]
    split
    · rfl
    · simpa [flatten] using ih

theorem mem_openLevel {s : Superstep} {levels : List (Superstep × Level Payload)}
    {l : Superstep × Level Payload} : l ∈ openLevel s levels ↔ l = (s, []) ∨ l ∈ levels := by
  induction levels with
  | nil => simp [openLevel]
  | cons m levels ih =>
    simp only [openLevel]
    split
    · simp
    · simp only [List.mem_cons, ih]
      exact or_left_comm

theorem Levelled.openLevel {s : Superstep} {levels : List (Superstep × Level Payload)}
    (h : Levelled levels) (absent : ∀ l ∈ levels, l.1 ≠ s) : Levelled (openLevel s levels) := by
  refine ⟨?_, ?_⟩
  · induction levels with
    | nil => exact List.pairwise_singleton ..
    | cons m levels ih =>
      obtain ⟨hm, hlevels⟩ := List.pairwise_cons.mp h.sorted
      simp only [Partition.openLevel]
      split
      · rename_i hsm
        refine List.pairwise_cons.mpr ⟨?_, h.sorted⟩
        intro l hl
        rcases List.mem_cons.mp hl with rfl | hl
        · exact hsm
        · exact hsm.trans (hm l hl)
      · rename_i hsm
        refine List.pairwise_cons.mpr
          ⟨?_, ih h.tail fun l hl => absent l (by simp [hl])⟩
        intro l hl
        rcases mem_openLevel.mp hl with rfl | hl
        · exact lt_of_le_of_ne (not_lt.mp hsm) (absent m (by simp))
        · exact hm l hl
  · intro l hl
    rcases mem_openLevel.mp hl with rfl | hl
    · simp
    · exact h.own l hl

theorem Levelled.pushBack {s : Superstep} {levels : List (Superstep × Level Payload)}
    (h : Levelled levels) {node : Position × Event Payload} (hs : nodeStep node = s) :
    Levelled (pushBack s node levels) := by
  refine ⟨?_, ?_⟩
  · refine List.pairwise_map.mpr (h.sorted.imp ?_)
    intro a b hab
    split <;> split <;> simpa using hab
  · intro l hl x hx
    obtain ⟨m, hm, rfl⟩ := List.mem_map.mp hl
    split at hx
    · rename_i hms
      rw [if_pos hms]
      rcases List.mem_append.mp hx with hx | hx
      · exact h.own m hm x hx
      · simp_all [nodeStep]
    · rename_i hms
      rw [if_neg hms]
      exact h.own m hm x hx

theorem pushBack_absent {s : Superstep} {levels : List (Superstep × Level Payload)}
    (absent : ∀ l ∈ levels, l.1 ≠ s) (node : Position × Event Payload) :
    pushBack s node levels = levels := by
  have same : ∀ l ∈ levels, (if l.1 = s then (l.1, l.2 ++ [node]) else l) = l := fun l hl =>
    if_neg (absent l hl)
  simpa [pushBack] using List.map_congr_left same

/-- Appending to a level puts the node behind all of its superstep and before all later ones. -/
theorem Levelled.flatten_pushBack {levels : List (Superstep × Level Payload)}
    (h : Levelled levels) (node : Position × Event Payload)
    (present : ∃ l ∈ levels, l.1 = nodeStep node) :
    flatten (Partition.pushBack (nodeStep node) node levels) =
      StableQueue.enqueue nodeStep node (flatten levels) := by
  induction levels with
  | nil => simp at present
  | cons l levels ih =>
    have own : ∀ x ∈ l.2, nodeStep x = l.1 := h.own l (by simp)
    by_cases hl : l.1 = nodeStep node
    · have absent : ∀ m ∈ levels, m.1 ≠ nodeStep node := fun m hm =>
        hl ▸ ((List.pairwise_cons.mp h.sorted).1 m hm).ne'
      have rest := pushBack_absent absent node
      rw [Partition.pushBack] at rest ⊢
      rw [List.map_cons, rest, if_pos hl]
      change l.2 ++ [node] ++ flatten levels =
        StableQueue.enqueue nodeStep node (l.2 ++ flatten levels)
      rw [StableQueue.enqueue_append _ fun x hx => (own x hx).trans hl |>.le,
        StableQueue.enqueue_of_lt _ fun x hx => hl ▸ h.above x hx]
      simp
    · have present' : ∃ m ∈ levels, m.1 = nodeStep node := by
        obtain ⟨m, hm, hms⟩ := present
        rcases List.mem_cons.mp hm with rfl | hm
        · exact absurd hms hl
        · exact ⟨m, hm, hms⟩
      have below : l.1 < nodeStep node := by
        obtain ⟨m, hm, hms⟩ := present'
        exact hms ▸ (List.pairwise_cons.mp h.sorted).1 m hm
      have rest := ih h.tail present'
      rw [Partition.pushBack] at rest ⊢
      rw [List.map_cons, if_neg hl]
      change l.2 ++ flatten (levels.map _) =
        StableQueue.enqueue nodeStep node (l.2 ++ flatten levels)
      rw [rest, StableQueue.enqueue_append _ fun x hx => (own x hx).trans_le below.le]

/-! ## The invariant -/

structure Valid (p : Partition Payload) : Prop where
  levelled : Levelled p.levels
  nonempty : ∀ l ∈ p.levels, l.2 ≠ []
  issued : ∀ node ∈ p.entries, node.1 < p.nextPosition
  positions : (p.entries.map Prod.fst).Nodup
  keys : (p.events.map Event.key).Nodup
  indexed : p.index.Perm (p.entries.map fun node => (node.2.key, node.1))
  counted : p.size = p.entries.length
  bounded : p.size ≤ p.capacity

theorem valid_construct {capacity : Nat} {p : Partition Payload}
    (h : construct capacity = .ok p) : Valid p ∧ p.capacity = capacity ∧ p.events = [] := by
  unfold construct at h
  split at h
  · cases h
  · cases h
    exact ⟨⟨⟨.nil, nofun⟩, nofun, nofun, .nil, .nil, .nil, rfl, Nat.zero_le _⟩, rfl, rfl⟩

variable {p : Partition Payload}

theorem length_events (p : Partition Payload) : p.events.length = p.entries.length :=
  List.length_map _

theorem Valid.size_eq (h : Valid p) : p.size = p.events.length :=
  h.counted.trans p.length_events.symm

theorem Valid.sorted (h : Valid p) : StableQueue.Sorted Event.superstep p.events :=
  List.pairwise_map.mpr h.levelled.sorted_flatten

theorem Valid.nodup_index (h : Valid p) : (p.index.map Prod.fst).Nodup := by
  have perm := h.indexed.map Prod.fst
  apply perm.nodup_iff.mpr
  simpa [events, Function.comp_def] using h.keys

theorem Valid.lookup_index (h : Valid p) {k : Key} {position : Position} :
    p.index.lookup k = some position ↔ ∃ e, (position, e) ∈ p.entries ∧ e.key = k := by
  rw [lookup_eq_some_iff_mem h.nodup_index, h.indexed.mem_iff]
  simp only [List.mem_map, Prod.exists, Prod.mk.injEq]
  exact ⟨fun ⟨_, e, he, hk, hp⟩ => ⟨e, hp ▸ he, hk⟩, fun ⟨e, he, hk⟩ => ⟨_, e, he, hk, rfl⟩⟩

theorem mem_events {e : Event Payload} : e ∈ p.events ↔ ∃ position, (position, e) ∈ p.entries := by
  simp [events]

theorem Valid.lookup_none (h : Valid p) {k : Key} :
    p.index.lookup k = none ↔ ∀ e ∈ p.events, e.key ≠ k := by
  rw [Option.eq_none_iff_forall_ne_some]
  constructor
  · intro none e he hk
    obtain ⟨position, hp⟩ := mem_events.mp he
    exact none position (h.lookup_index.mpr ⟨e, hp, hk⟩)
  · intro absent position found
    obtain ⟨e, he, hk⟩ := h.lookup_index.mp found
    exact absent e (mem_events.mpr ⟨position, he⟩) hk

theorem Valid.nodeAt (h : Valid p) {position : Position} {e : Event Payload}
    (he : (position, e) ∈ p.entries) : p.nodeAt position = some e :=
  (lookup_eq_some_iff_mem h.positions).mpr he

/-! ## What the calls do -/

theorem exec_canAccept (event : Event Payload) : exec (canAccept event) p =
    (.ok ((p.index.lookup event.key).isSome || decide (p.size < p.capacity)), p) := rfl

/-- The queued event of the same key takes in the payload; every other event keeps its own. -/
def absorb (merger : Merger Payload) (event stored : Event Payload) : Event Payload :=
  if stored.key = event.key then
    { stored with payload := (merger stored.payload event.payload).1 }
  else stored

@[simp] theorem key_absorb (merger : Merger Payload) (event stored : Event Payload) :
    (absorb merger event stored).key = stored.key := by
  unfold absorb
  split <;> rfl

@[simp] theorem superstep_absorb (merger : Merger Payload) (event stored : Event Payload) :
    (absorb merger event stored).superstep = stored.superstep := by
  unfold absorb
  split <;> rfl

theorem absorb_of_ne {merger : Merger Payload} {event e : Event Payload}
    (other : e.key ≠ event.key) : absorb merger event e = e := if_neg other

/-! ## What one call can do -/

/-- The levels once `m_levels[superstep]` has been evaluated. -/
def levelFor (s : Superstep) (levels : List (Superstep × Level Payload)) :
    List (Superstep × Level Payload) :=
  if (levels.lookup s).isNone then openLevel s levels else levels

/-- The ways in which a push can run, valid or not the partition. -/
inductive Pushes (merger : Merger Payload) (fault : PushPoint → Option Exn) (event : Event Payload)
    (p : Partition Payload) : Except Failure PushResult → Partition Payload → Prop
  | lost (position : Position) : p.index.lookup event.key = some position →
    p.nodeAt position = none → Pushes merger fault event p (.error .undefinedBehaviour) p
  | merged (position : Position) (stored : Event Payload) :
    p.index.lookup event.key = some position → p.nodeAt position = some stored →
    (merger stored.payload event.payload).2 = none →
    Pushes merger fault event p (.ok .coalesced) { p with
      levels := storePayload position (merger stored.payload event.payload).1 p.levels }
  | mergerThrew (position : Position) (stored : Event Payload) (e : Exn) :
    p.index.lookup event.key = some position → p.nodeAt position = some stored →
    (merger stored.payload event.payload).2 = some e →
    Pushes merger fault event p (.error (.thrown e)) { p with
      levels := storePayload position (merger stored.payload event.payload).1 p.levels }
  | full : p.index.lookup event.key = none → p.capacity ≤ p.size →
    Pushes merger fault event p (.ok .full) p
  | levelThrew (e : Exn) : p.index.lookup event.key = none → p.size < p.capacity →
    fault .level = some e → Pushes merger fault event p (.error (.thrown e)) p
  | appendThrew (e : Exn) : p.index.lookup event.key = none → p.size < p.capacity →
    fault .append = some e → Pushes merger fault event p (.error (.thrown e)) { p with
      levels := levelFor event.superstep p.levels }
  | indexThrew (e : Exn) : p.index.lookup event.key = none → p.size < p.capacity →
    fault .index = some e → Pushes merger fault event p (.error (.thrown e)) { p with
      levels := pushBack event.superstep (p.nextPosition, event) (levelFor event.superstep p.levels)
      nextPosition := p.nextPosition + 1 }
  | inserted : p.index.lookup event.key = none → p.size < p.capacity →
    Pushes merger fault event p (.ok .inserted) { p with
      levels := pushBack event.superstep (p.nextPosition, event) (levelFor event.superstep p.levels)
      index := (event.key, p.nextPosition) :: p.index
      size := p.size + 1
      nextPosition := p.nextPosition + 1 }

theorem push_runs {merger : Merger Payload} {fault : PushPoint → Option Exn}
    {event : Event Payload} {outcome : Except Failure PushResult} {after : Partition Payload}
    (h : exec (push merger fault event) p = (outcome, after)) :
    Pushes merger fault event p outcome after := by
  simp only [push, exec_bind, exec_get] at h
  cases found : p.index.lookup event.key with
  | some position =>
    simp only [found] at h
    cases hn : p.nodeAt position with
    | none =>
      simp only [hn, exec_throw] at h
      cases h
      exact .lost position found hn
    | some stored =>
      simp only [hn, exec_bind, exec_modify] at h
      cases ht : (merger stored.payload event.payload).2 with
      | some e =>
        simp only [ht, mayThrow, exec_throw] at h
        cases h
        exact .mergerThrew position stored e found hn ht
      | none =>
        simp only [ht, mayThrow, exec_pure] at h
        cases h
        exact .merged position stored found hn ht
  | none =>
    simp only [found] at h
    by_cases full : p.size ≥ p.capacity
    · simp only [full, if_true, exec_pure] at h
      cases h
      exact .full found full
    · have room : p.size < p.capacity := not_le.mp full
      simp only [full, if_false] at h
      have levelThrew := fun e => @Pushes.levelThrew _ merger fault event p e found room
      have appendThrew := fun e => @Pushes.appendThrew _ merger fault event p e found room
      have indexThrew := fun e => @Pushes.indexThrew _ merger fault event p e found room
      have inserted := @Pushes.inserted _ merger fault event p found room
      unfold levelFor at appendThrew indexThrew inserted
      cases new : (p.levels.lookup event.superstep).isNone <;> cases level : fault .level <;>
        cases append : fault .append <;> cases index : fault .index <;>
        simp only [new, level, append, index, mayThrow, exec_bind, exec_pure, exec_throw,
          exec_modify, if_true, Bool.false_eq_true, if_false]
          at h appendThrew indexThrew inserted <;>
        cases h
      all_goals first
        | exact inserted
        | exact indexThrew _ rfl
        | exact appendThrew _ rfl
        | exact levelThrew _ level

/-- The ways in which a pop can run, valid or not the partition. -/
inductive Pops (p : Partition Payload) :
    Except Failure (Option (Event Payload)) → Partition Payload → Prop
  | nothing : p.size = 0 → Pops p (.ok none) p
  | lost : p.size ≠ 0 → Pops p (.error .undefinedBehaviour) p
  | took (superstep : Superstep) (position : Position) (event : Event Payload)
    (level : Level Payload) (levels : List (Superstep × Level Payload)) : p.size ≠ 0 →
    p.levels = (superstep, (position, event) :: level) :: levels →
    Pops p (.ok (some event)) { p with
      levels := if level = [] then levels else (superstep, level) :: levels
      index := p.index.filter fun entry => entry.1 ≠ event.key
      size := p.size - 1 }

theorem popLocked_runs {outcome : Except Failure (Option (Event Payload))}
    {after : Partition Payload} (h : exec popLocked p = (outcome, after)) :
    Pops p outcome after := by
  obtain ⟨capacity, levels, index, size, next⟩ := p
  simp only [popLocked, exec_bind, exec_get] at h
  split at h
  · cases h
    exact .nothing ‹_›
  · split at h
    · cases h
      exact .lost ‹_›
    · cases h
      exact .lost ‹_›
    · rename_i superstep position event level levels
      have took := @Pops.took _ ⟨capacity, (superstep, (position, event) :: level) :: levels,
        index, size, next⟩ superstep position event level levels ‹_› rfl
      simp only [exec_bind, exec_modify] at h
      by_cases last : level = []
      · subst last
        simp only [if_true, exec_modify, exec_pure, exec_bind] at h took
        cases h
        exact took
      · simp only [last, if_false, exec_pure] at h took
        cases h
        exact took

theorem flatten_storePayload (position : Position) (payload : Payload)
    (levels : List (Superstep × Level Payload)) :
    flatten (storePayload position payload levels) = (flatten levels).map fun node =>
      if node.1 = position then (node.1, { node.2 with payload }) else node := by
  simp [flatten, storePayload, List.flatMap_map, List.map_flatMap]

theorem Levelled.storePayload {levels : List (Superstep × Level Payload)} (h : Levelled levels)
    (position : Position) (payload : Payload) :
    Levelled (Partition.storePayload position payload levels) := by
  refine ⟨List.pairwise_map.mpr h.sorted, ?_⟩
  intro l hl node hnode
  obtain ⟨m, hm, rfl⟩ := List.mem_map.mp hl
  obtain ⟨x, hx, rfl⟩ := List.mem_map.mp hnode
  split <;> exact h.own m hm x hx

theorem push_coalesced (merger : Merger Payload) (fault : PushPoint → Option Exn)
    {event stored : Event Payload} (h : Valid p) (hs : stored ∈ p.events)
    (hk : stored.key = event.key) :
    ∃ p', exec (push merger fault event) p =
        (match (merger stored.payload event.payload).2 with
          | some e => .error (.thrown e)
          | none => .ok .coalesced, p') ∧
      Valid p' ∧ p'.capacity = p.capacity ∧ p'.events = p.events.map (absorb merger event) := by
  obtain ⟨position, hp⟩ := mem_events.mp hs
  have found : p.index.lookup event.key = some position := h.lookup_index.mpr ⟨stored, hp, hk⟩
  let payload := (merger stored.payload event.payload).1
  let store := fun node : Position × Event Payload =>
    if node.1 = position then (node.1, { node.2 with payload }) else node
  let p' : Partition Payload := { p with levels := storePayload position payload p.levels }
  have entries' : p'.entries = p.entries.map store := flatten_storePayload ..
  have store_eq : ∀ node ∈ p.entries, store node = (node.1, absorb merger event node.2) := by
    rintro ⟨position', e⟩ hnode
    by_cases hpos : position' = position
    · subst hpos
      have he : e = stored := Option.some.inj ((h.nodeAt hnode).symm.trans (h.nodeAt hp))
      subst he
      simp [store, absorb, hk, payload]
    · have hkey : e.key ≠ event.key := fun he =>
        hpos (Option.some.inj ((h.lookup_index.mpr ⟨e, hnode, he⟩).symm.trans found))
      simp [store, absorb, hpos, hkey]
  replace entries' := entries'.trans (List.map_congr_left store_eq)
  have events' : p'.events = p.events.map (absorb merger event) := by
    simp [events, entries', Function.comp_def]
  refine ⟨p', ?_, ⟨h.levelled.storePayload .., ?_, ?_, ?_, ?_, ?_, ?_, h.bounded⟩, rfl, events'⟩
  · simp only [push, exec_bind, exec_get, found, h.nodeAt hp, exec_modify, mayThrow]
    cases (merger stored.payload event.payload).2 <;> rfl
  · intro l hl
    obtain ⟨m, hm, rfl⟩ := List.mem_map.mp hl
    simpa using h.nonempty m hm
  · intro node hnode
    rw [entries'] at hnode
    obtain ⟨x, hx, rfl⟩ := List.mem_map.mp hnode
    exact h.issued x hx
  · simpa [entries', Function.comp_def] using h.positions
  · simpa [events', Function.comp_def] using h.keys
  · simpa [entries', Function.comp_def] using h.indexed
  · simpa [entries'] using h.counted

theorem push_full (merger : Merger Payload) (fault : PushPoint → Option Exn)
    {event : Event Payload} (absent : p.index.lookup event.key = none)
    (full : p.capacity ≤ p.size) : exec (push merger fault event) p = (.ok .full, p) := by
  simp [push, exec_bind, absent, full]

theorem flatten_levelFor (s : Superstep) (levels : List (Superstep × Level Payload)) :
    flatten (levelFor s levels) = flatten levels := by
  unfold levelFor
  split
  · exact flatten_openLevel s levels
  · rfl

theorem Levelled.levelFor {s : Superstep} {levels : List (Superstep × Level Payload)}
    (h : Levelled levels) :
    Levelled (levelFor s levels) ∧ (∃ l ∈ Partition.levelFor s levels, l.1 = s) ∧
      ∀ l ∈ Partition.levelFor s levels, l.1 = s ∨ l ∈ levels := by
  unfold Partition.levelFor
  split
  · rename_i hnone
    have absent : ∀ l ∈ levels, l.1 ≠ s := by
      intro l hl he
      have := List.lookup_eq_none_iff.mp (Option.isNone_iff_eq_none.mp hnone) l hl
      simp [he] at this
    refine ⟨h.openLevel absent, ⟨(s, []), mem_openLevel.mpr (.inl rfl), rfl⟩, ?_⟩
    intro l hl
    exact (mem_openLevel.mp hl).imp (fun he => by rw [he]) id
  · rename_i hsome
    refine ⟨h, ?_, fun l hl => .inr hl⟩
    obtain ⟨l, hl⟩ := Option.ne_none_iff_exists'.mp (mt Option.isNone_iff_eq_none.mpr hsome)
    obtain ⟨_, _, rfl, _⟩ := List.lookup_eq_some_iff.mp hl
    exact ⟨(s, l), by simp, rfl⟩

theorem push_inserted (merger : Merger Payload) {event : Event Payload} (h : Valid p)
    (absent : p.index.lookup event.key = none) (room : p.size < p.capacity) :
    ∃ p', exec (push merger (fun _ => none) event) p = (.ok .inserted, p') ∧
      Valid p' ∧ p'.capacity = p.capacity ∧
      p'.events = StableQueue.enqueue Event.superstep event p.events := by
  let node : Position × Event Payload := (p.nextPosition, event)
  let p' : Partition Payload := ⟨p.capacity,
    pushBack event.superstep node (levelFor event.superstep p.levels),
    (event.key, p.nextPosition) :: p.index, p.size + 1, p.nextPosition + 1⟩
  obtain ⟨levelled, present, members⟩ := h.levelled.levelFor (s := event.superstep)
  have entries' : p'.entries = StableQueue.enqueue nodeStep node p.entries := by
    rw [entries, entries, ← flatten_levelFor event.superstep p.levels]
    exact levelled.flatten_pushBack node present
  have perm : p'.entries.Perm (node :: p.entries) := entries' ▸ StableQueue.perm_enqueue ..
  have events' : p'.events = StableQueue.enqueue Event.superstep event p.events := by
    rw [events, entries', StableQueue.map_enqueue nodeStep Event.superstep Prod.snd fun _ => rfl]
    rfl
  have permEvents : p'.events.Perm (event :: p.events) := perm.map Prod.snd
  refine ⟨p', ?_, ⟨levelled.pushBack rfl, ?_, ?_, ?_, ?_, ?_, ?_, room⟩,
    rfl, events'⟩
  · have notFull : ¬p.size ≥ p.capacity := not_le.mpr room
    simp only [push, exec_bind, exec_get, absent, notFull, if_false, mayThrow, p', levelFor]
    split <;> rfl
  · intro l hl
    obtain ⟨m, hm, rfl⟩ := List.mem_map.mp hl
    split
    · simp
    · rename_i hms
      exact h.nonempty m ((members m hm).resolve_left hms)
  · intro x hx
    rcases List.mem_cons.mp (perm.mem_iff.mp hx) with rfl | hx
    · exact Nat.lt_succ_self _
    · exact (h.issued x hx).trans (Nat.lt_succ_self _)
  · refine (perm.map Prod.fst).nodup_iff.mpr (List.nodup_cons.mpr ⟨?_, h.positions⟩)
    intro hmem
    obtain ⟨x, hx, hxp⟩ := List.mem_map.mp hmem
    exact (h.issued x hx).ne hxp
  · refine (permEvents.map Event.key).nodup_iff.mpr (List.nodup_cons.mpr ⟨?_, h.keys⟩)
    intro hmem
    obtain ⟨x, hx, hxk⟩ := List.mem_map.mp hmem
    exact h.lookup_none.mp absent x hx hxk
  · have indexed := perm.map fun x : Position × Event Payload => (x.2.key, x.1)
    exact (h.indexed.cons _).trans indexed.symm
  · rw [perm.length_eq, List.length_cons, ← h.counted]

theorem popLocked_empty (h : Valid p) (empty : p.events = []) :
    exec popLocked p = (.ok none, p) := by
  have size : p.size = 0 := by rw [h.size_eq, empty]; rfl
  simp [popLocked, exec_bind, size]

theorem popLocked_head {event : Event Payload} {rest : List (Event Payload)} (h : Valid p)
    (head : p.events = event :: rest) :
    ∃ p', exec popLocked p = (.ok (some event), p') ∧ Valid p' ∧ p'.capacity = p.capacity ∧
      p'.events = rest := by
  have size : p.size ≠ 0 := by rw [h.size_eq, head]; simp
  obtain ⟨capacity, levels, index, n, next⟩ := p
  cases levels with
  | nil => cases head
  | cons l levels =>
    obtain ⟨s, level⟩ := l
    cases level with
    | nil => exact absurd rfl (h.nonempty (s, []) (by simp))
    | cons node level =>
      obtain ⟨position, e⟩ := node
      obtain ⟨rfl, rfl⟩ := List.cons_eq_cons.mp head
      let remaining := if level = [] then levels else (s, level) :: levels
      let p' : Partition Payload :=
        ⟨capacity, remaining, index.filter fun entry => entry.1 ≠ e.key, n - 1, next⟩
      have entries' : p'.entries = level ++ flatten levels := by
        simp only [p', entries, remaining]
        split
        · rename_i hlevel
          simp [hlevel]
        · rfl
      have members : ∀ l ∈ remaining, l ∈ levels ∨ (l = (s, level) ∧ level ≠ []) := by
        intro l hl
        simp only [remaining] at hl
        split at hl
        · exact .inl hl
        · rename_i hlevel
          exact (List.mem_cons.mp hl).symm.imp id fun he => ⟨he, hlevel⟩
      have whole : (⟨capacity, (s, (position, e) :: level) :: levels, index, n, next⟩ :
          Partition Payload).entries = (position, e) :: p'.entries := by
        rw [entries']
        rfl
      have levelled := h.levelled
      have positions := h.positions
      have keys := h.keys
      have counted : n = p'.entries.length + 1 := h.counted.trans (by rw [whole]; rfl)
      have bounded : n ≤ capacity := h.bounded
      have issued := h.issued
      have indexed := h.indexed
      simp only [events, whole, List.map_cons, List.nodup_cons, List.mem_cons,
        forall_eq_or_imp] at positions keys issued indexed
      refine ⟨p', ?_, ⟨levelled.dropHead, ?_, issued.2, positions.2, keys.2, ?_, ?_,
        ?_⟩, rfl, ?_⟩
      · simp only [popLocked, exec_bind, exec_get, size, if_false, exec_modify, p', remaining]
        split <;> rfl
      · intro l hl
        rcases members l hl with hl | ⟨rfl, hlevel⟩
        · exact h.nonempty l (by simp [hl])
        · exact hlevel
      · have others : ∀ entry ∈ p'.entries.map fun node => (node.2.key, node.1),
            decide (entry.1 ≠ e.key) = true := by
          intro entry hentry
          obtain ⟨x, hx, rfl⟩ := List.mem_map.mp hentry
          refine decide_eq_true fun he => keys.1 ?_
          exact List.mem_map.mpr ⟨x.2, List.mem_map.mpr ⟨x, hx, rfl⟩, he⟩
        have filtered := indexed.filter fun entry => entry.1 ≠ e.key
        rwa [List.filter_cons_of_neg (by simp), List.filter_eq_self.mpr others] at filtered
      · exact (by omega : n - 1 = p'.entries.length)
      · exact (by omega : n - 1 ≤ capacity)
      · rw [events, entries']
        rfl

end Partition

end Yellowstone
