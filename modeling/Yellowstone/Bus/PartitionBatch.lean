import Yellowstone.Bus.PartitionRefinement

/-!
# Batches

What a partition holds after a list of pushes with no pop between them, in closed form: the
distinct keys in the order of their first events, the payloads of each key folded, the whole
sorted stably by superstep.
-/

set_option autoImplicit false

namespace Yellowstone

open Throwing

theorem eraseDups_snoc {α : Type} [DecidableEq α] (l : List α) (a : α) :
    (l ++ [a]).eraseDups = if a ∈ l.eraseDups then l.eraseDups else l.eraseDups ++ [a] := by
  rw [List.eraseDups_append]
  by_cases known : a ∈ l
  · simp [known, List.removeAll, List.mem_eraseDups]
  · simp [known, List.removeAll, List.mem_eraseDups, List.eraseDups_cons]

theorem nodup_eraseDups {α : Type} [DecidableEq α] (l : List α) : l.eraseDups.Nodup := by
  induction l using List.reverseRecOn with
  | nil => exact .nil
  | append_singleton l a ih =>
    rw [eraseDups_snoc]
    split
    · exact ih
    · rename_i fresh
      rw [List.nodup_append_comm]
      exact List.nodup_cons.mpr ⟨fresh, ih⟩

variable {Payload : Type}

/-- The first publication of a group, with the payloads of the others merged in order. -/
def foldGroup (merge : Payload → Payload → Payload) : List (Event Payload) → Option (Event Payload)
  | [] => none
  | first :: rest =>
    some { first with payload := (rest.map Event.payload).foldl merge first.payload }

def ofKey (k : Key) (events : List (Event Payload)) : List (Event Payload) :=
  events.filter fun e => e.key = k

theorem foldGroup_append (merge : Payload → Payload → Payload) {group : List (Event Payload)}
    {e : Event Payload} (h : foldGroup merge group = some e) (event : Event Payload) :
    foldGroup merge (group ++ [event]) =
      some { e with payload := merge e.payload event.payload } := by
  cases group with
  | nil => cases h
  | cons first rest =>
    cases h
    simp [foldGroup]

theorem foldGroup_eq_none {merge : Payload → Payload → Payload} {group : List (Event Payload)} :
    foldGroup merge group = none ↔ group = [] := by
  cases group <;> simp [foldGroup]

/-! ## The closed form -/

/-- The keys of a batch, in the order of their first events. -/
def distinctKeys (events : List (Event Payload)) : List Key := (events.map Event.key).eraseDups

/-- One event for each key: its first, with the payloads of the key folded. -/
def coalesced (merge : Payload → Payload → Payload) (events : List (Event Payload)) :
    List (Event Payload) :=
  (distinctKeys events).filterMap fun k => foldGroup merge (ofKey k events)

def batch (merge : Payload → Payload → Payload) (events : List (Event Payload)) :
    List (Event Payload) :=
  (coalesced merge events).mergeSort fun a b => a.superstep ≤ b.superstep

/-- What a subscriber sees of an event, the sequence number apart. -/
def Event.content (event : Event Payload) : EventId × Superstep × Payload :=
  (event.id, event.superstep, event.payload)

section Closed
variable {merge : Payload → Payload → Payload} {events : List (Event Payload)}

theorem mem_distinctKeys {k : Key} : k ∈ distinctKeys events ↔ ∃ e ∈ events, e.key = k := by
  simp [distinctKeys, List.mem_eraseDups]

theorem distinctKeys_snoc (events : List (Event Payload)) (event : Event Payload) :
    distinctKeys (events ++ [event]) =
      if event.key ∈ distinctKeys events then distinctKeys events
      else distinctKeys events ++ [event.key] := by
  simp only [distinctKeys, List.map_append, List.map_singleton]
  exact eraseDups_snoc _ _

theorem nodup_distinctKeys (events : List (Event Payload)) : (distinctKeys events).Nodup :=
  nodup_eraseDups _

theorem key_foldGroup {group : List (Event Payload)} {k : Key} {e : Event Payload}
    (own : ∀ x ∈ group, x.key = k) (h : foldGroup merge group = some e) : e.key = k := by
  cases group with
  | nil => cases h
  | cons first rest =>
    cases h
    exact own first (by simp)

/-- A key that is there has a folded event, and a key that is not has none. -/
theorem foldGroup_ofKey (merge : Payload → Payload → Payload) (events : List (Event Payload))
    (k : Key) : (∃ e, foldGroup merge (ofKey k events) = some e ∧ e.key = k) ∨
      k ∉ distinctKeys events := by
  cases folded : foldGroup merge (ofKey k events) with
  | none =>
    refine .inr fun known => ?_
    obtain ⟨e, he, hk⟩ := mem_distinctKeys.mp known
    have mem : e ∈ ofKey k events := List.mem_filter.mpr ⟨he, decide_eq_true hk⟩
    rw [foldGroup_eq_none.mp folded] at mem
    cases mem
  | some e =>
    refine .inl ⟨e, rfl, key_foldGroup (fun x hx => ?_) folded⟩
    exact of_decide_eq_true (List.mem_filter.mp hx).2

theorem keys_coalesced (merge : Payload → Payload → Payload) (events : List (Event Payload)) :
    (coalesced merge events).map Event.key = distinctKeys events := by
  rw [coalesced, List.map_filterMap]
  refine (List.filterMap_congr fun k hk => ?_).trans List.filterMap_some
  obtain ⟨e, folded, key⟩ | absent := foldGroup_ofKey merge events k
  · simp [folded, key]
  · exact absurd hk absent

theorem ofKey_snoc (k : Key) (events : List (Event Payload)) (event : Event Payload) :
    ofKey k (events ++ [event]) = ofKey k events ++ if event.key = k then [event] else [] := by
  by_cases own : event.key = k <;> simp [ofKey, own]

theorem foldGroup_snoc {k : Key} (known : k ∈ distinctKeys events) (event : Event Payload) :
    foldGroup merge (ofKey k (events ++ [event])) =
      (foldGroup merge (ofKey k events)).map (Partition.absorb (.ofFun merge) event) := by
  obtain ⟨e, folded, key⟩ | absent := foldGroup_ofKey merge events k
  · rw [ofKey_snoc, folded, Option.map_some]
    by_cases own : event.key = k
    · rw [if_pos own, foldGroup_append merge folded]
      simp [Partition.absorb, key, own, Merger.ofFun]
    · rw [if_neg own, List.append_nil, folded,
        Partition.absorb_of_ne fun same => own (same.symm.trans key)]
  · exact absurd known absent

/-- An event of a known key is merged into the event of this key. -/
theorem coalesced_known {event : Event Payload} (known : event.key ∈ distinctKeys events) :
    coalesced merge (events ++ [event]) =
      (coalesced merge events).map (Partition.absorb (.ofFun merge) event) := by
  rw [coalesced, distinctKeys_snoc, if_pos known, coalesced, List.map_filterMap]
  exact List.filterMap_congr fun k hk => foldGroup_snoc hk event

theorem coalesced_new {event : Event Payload} (fresh : event.key ∉ distinctKeys events) :
    coalesced merge (events ++ [event]) = coalesced merge events ++ [event] := by
  rw [coalesced, distinctKeys_snoc, if_neg fresh, List.filterMap_append]
  congr 1
  · apply List.filterMap_congr
    intro k hk
    have other : event.key ≠ k := fun same => fresh (same ▸ hk)
    rw [ofKey_snoc, if_neg other, List.append_nil]
  · have none : ofKey event.key events = [] := by
      apply List.filter_eq_nil_iff.mpr
      intro e he key
      exact fresh (mem_distinctKeys.mpr ⟨e, he, of_decide_eq_true key⟩)
    simp [ofKey_snoc, none, foldGroup]

/-! ## One superstep of a batch -/

theorem filter_coalesced (s : Superstep) (events : List (Event Payload)) :
    (coalesced merge events).filter (fun e => e.superstep = s) =
      coalesced merge (events.filter fun e => e.superstep = s) := by
  induction events using List.reverseRecOn with
  | nil => rfl
  | append_singleton events event ih =>
    rw [List.filter_append]
    by_cases own : event.superstep = s
    · -- the event is among those of the superstep, and so are all of its key
      have same : event.key ∈ distinctKeys (events.filter fun e => e.superstep = s) ↔
          event.key ∈ distinctKeys events := by
        rw [mem_distinctKeys, mem_distinctKeys]
        constructor
        · rintro ⟨e, he, key⟩
          exact ⟨e, (List.mem_filter.mp he).1, key⟩
        · rintro ⟨e, he, key⟩
          have superstep : e.superstep = s := (congrArg Key.superstep key).trans own
          exact ⟨e, List.mem_filter.mpr ⟨he, decide_eq_true superstep⟩, key⟩
      rw [List.filter_cons_of_pos (by simpa using own), List.filter_nil]
      by_cases known : event.key ∈ distinctKeys events
      · rw [coalesced_known known, coalesced_known (same.mpr known), ← ih, List.filter_map]
        simp [Function.comp_def]
      · rw [coalesced_new known, coalesced_new (mt same.mp known), ← ih, List.filter_append,
          List.filter_cons_of_pos (by simpa using own), List.filter_nil]
    · rw [List.filter_cons_of_neg (by simpa using own), List.filter_nil, List.append_nil, ← ih]
      by_cases known : event.key ∈ distinctKeys events
      · rw [coalesced_known known, List.filter_map]
        simp only [Function.comp_def, Partition.superstep_absorb]
        refine (List.map_congr_left fun e he => Partition.absorb_of_ne fun key => own ?_).trans
          (List.map_id _)
        have superstep := of_decide_eq_true (List.mem_filter.mp he).2
        exact (congrArg Key.superstep key).symm.trans superstep
      · rw [coalesced_new known, List.filter_append, List.filter_cons_of_neg (by simpa using own)]
        simp

/-- The event with the sequence number taken off. -/
def Event.unnumbered (event : Event Payload) : Event Payload := { event with sequence := 0 }

theorem coalesced_unnumbered (merge : Payload → Payload → Payload)
    (events : List (Event Payload)) :
    coalesced merge (events.map Event.unnumbered) =
      (coalesced merge events).map Event.unnumbered := by
  have keys : distinctKeys (events.map Event.unnumbered) = distinctKeys events := by
    rw [distinctKeys, distinctKeys, List.map_map]
    rfl
  rw [coalesced, coalesced, keys, List.map_filterMap]
  apply List.filterMap_congr
  intro k _
  have own : ofKey k (events.map Event.unnumbered) = (ofKey k events).map Event.unnumbered :=
    List.filter_map ..
  rw [own]
  cases ofKey k events with
  | nil => rfl
  | cons first rest => simp [foldGroup, Event.unnumbered, Function.comp_def]

theorem filter_batch (s : Superstep) (events : List (Event Payload)) :
    (batch merge events).filter (fun e => e.superstep = s) =
      coalesced merge (events.filter fun e => e.superstep = s) :=
  (StableQueue.agree_mergeSort (coalesced merge events) s).trans (filter_coalesced s events)

/-- The contents of a batch are known from its sublists of each superstep. -/
theorem content_batch {events' : List (Event Payload)}
    (same : ∀ s, (events.filter fun e => e.superstep = s).map Event.content =
      (events'.filter fun e => e.superstep = s).map Event.content) :
    (batch merge events).map Event.content = (batch merge events').map Event.content := by
  have sorted : ∀ l : List (Event Payload), StableQueue.Sorted Event.superstep
      ((batch merge l).map Event.unnumbered) := fun l =>
    List.pairwise_map.mpr (StableQueue.sorted_mergeSort (coalesced merge l))
  have own : ∀ (s : Superstep) (l : List (Event Payload)),
      ((batch merge l).map Event.unnumbered).filter (fun e => e.superstep = s) =
        coalesced merge ((l.filter fun e => e.superstep = s).map Event.unnumbered) := by
    intro s l
    rw [coalesced_unnumbered, ← filter_batch, List.filter_map]
    rfl
  have unnumbered : (batch merge events).map Event.unnumbered =
      (batch merge events').map Event.unnumbered := by
    refine (sorted events).eq_of_agree (sorted events') fun s => ?_
    let ofContent : EventId × Superstep × Payload → Event Payload := fun c => ⟨c.1, c.2.1, 0, c.2.2⟩
    have erased := congrArg (List.map ofContent) (same s)
    rw [List.map_map, List.map_map] at erased
    rw [own, own]
    exact congrArg (coalesced merge) erased
  have contents := congrArg (List.map Event.content) unnumbered
  rw [List.map_map, List.map_map] at contents
  exact contents

end Closed

/-! ## Pushing and draining -/

namespace Partition

def pushAll (merger : Merger Payload) (p : Partition Payload) (events : List (Event Payload)) :
    Partition Payload :=
  events.foldl (fun p event => (exec (push merger (fun _ => none) event) p).2) p

/-- Pops until a pop finds nothing, if no more than `fuel` pops are needed. -/
def drain : Nat → Partition Payload → Option (List (Event Payload))
  | 0, _ => none
  | fuel + 1, p =>
    match exec popLocked p with
    | (.ok none, _) => some []
    | (.ok (some event), p') => (drain fuel p').map (event :: ·)
    | (.error _, _) => none

def DrainsTo (p : Partition Payload) (events : List (Event Payload)) : Prop :=
  ∀ fuel, events.length < fuel → drain fuel p = some events

variable {p : Partition Payload}

theorem Valid.drains (h : Valid p) {events : List (Event Payload)} (held : p.events = events) :
    p.DrainsTo events := by
  intro fuel enough
  induction events generalizing p fuel with
  | nil =>
    cases fuel with
    | zero => cases enough
    | succ fuel => rw [drain, popLocked_empty h held]
  | cons event rest ih =>
    cases fuel with
    | zero => cases enough
    | succ fuel =>
      obtain ⟨after, run, valid, -, events⟩ := popLocked_head h held
      rw [drain, run]
      simp only [ih valid events fuel (by simpa using enough), Option.map_some]

variable {merge : Payload → Payload → Payload} {capacity : Nat}

theorem push_coalesces {q events : List (Event Payload)} (event : Event Payload)
    (held : q = coalesced merge events)
    (fits : (distinctKeys (events ++ [event])).length ≤ capacity) :
    (ReferenceQueue.push capacity merge q event).2 = coalesced merge (events ++ [event]) := by
  have keys := keys_coalesced merge events
  rw [← held] at keys
  have queued : (q.any fun e => e.key = event.key) = decide (event.key ∈ distinctKeys events) := by
    rw [← keys, Bool.eq_iff_iff]
    simp
  unfold ReferenceQueue.push
  rw [queued]
  by_cases known : event.key ∈ distinctKeys events
  · rw [coalesced_known known, ← held]
    simp [known, absorb, Merger.ofFun]
  · have count : q.length = (distinctKeys events).length := by
      rw [← keys, List.length_map]
    rw [distinctKeys_snoc, if_neg known, List.length_append] at fits
    have room : q.length ≠ capacity := by
      simp at fits
      omega
    rw [coalesced_new known, ← held]
    simp [known, room]

theorem pushAll_refines (h : Refines p []) (bound : p.capacity = capacity)
    {events : List (Event Payload)} (fits : (distinctKeys events).length ≤ capacity) :
    Refines (pushAll (.ofFun merge) p events) (coalesced merge events) ∧
      (pushAll (.ofFun merge) p events).capacity = capacity := by
  subst bound
  induction events using List.reverseRecOn with
  | nil => exact ⟨h, rfl⟩
  | append_singleton events event ih =>
    have fewer : (distinctKeys events).length ≤ (distinctKeys (events ++ [event])).length := by
      rw [distinctKeys_snoc]
      split <;> simp
    obtain ⟨refines, same⟩ := ih (fewer.trans fits)
    obtain ⟨p', run, kept, next⟩ := push_refines merge refines event
    rw [push_coalesces event rfl (fits.trans same.ge)] at next
    have pushed : pushAll (.ofFun merge) p (events ++ [event]) = p' := by
      simp only [pushAll] at run
      simp only [pushAll, List.foldl_append, List.foldl_cons, List.foldl_nil, run]
    rw [pushed]
    exact ⟨next, kept.trans same⟩

theorem pushAll_drains (built : construct capacity = .ok p) (merge : Payload → Payload → Payload)
    {events : List (Event Payload)} (fits : (distinctKeys events).length ≤ capacity) :
    (pushAll (.ofFun merge) p events).DrainsTo (batch merge events) := by
  obtain ⟨valid, same, empty⟩ := valid_construct built
  have start : Refines p [] := ⟨valid, by rw [empty]; exact fun _ => rfl⟩
  obtain ⟨refines, -⟩ := pushAll_refines start same fits
  apply refines.valid.drains
  refine refines.valid.sorted.eq_of_agree (StableQueue.sorted_mergeSort _) fun s => ?_
  exact (refines.agree s).trans (StableQueue.agree_mergeSort _ s).symm

/-- A batch drains to its closed form, and how the supersteps are interleaved in it does not
matter for what the subscriber sees. -/
theorem batch_law (built : construct capacity = .ok p) (merge : Payload → Payload → Payload)
    (events : List (Event Payload)) (fits : (distinctKeys events).length ≤ capacity) :
    (pushAll (.ofFun merge) p events).DrainsTo (batch merge events) ∧
      ∀ events' : List (Event Payload),
        (∀ s, (events'.filter fun e => e.superstep = s).map Event.content =
          (events.filter fun e => e.superstep = s).map Event.content) →
        ∃ drained, (pushAll (.ofFun merge) p events').DrainsTo drained ∧
          drained.map Event.content = (batch merge events).map Event.content := by
  refine ⟨pushAll_drains built merge fits, ?_⟩
  intro events' same
  refine ⟨batch merge events', pushAll_drains built merge ?_, content_batch same⟩
  have keys : ∀ k, k ∈ distinctKeys events' ↔ k ∈ distinctKeys events := by
    intro k
    have contents : ∀ l : List (Event Payload), k ∈ distinctKeys l ↔
        ∃ c ∈ (l.filter fun e => e.superstep = k.superstep).map Event.content,
          (⟨c.1, c.2.1⟩ : Key) = k := by
      intro l
      simp only [mem_distinctKeys, List.mem_map, List.mem_filter, decide_eq_true_eq,
        exists_exists_and_eq_and]
      constructor
      · rintro ⟨e, he, key⟩
        exact ⟨e, ⟨he, congrArg Key.superstep key⟩, key⟩
      · rintro ⟨e, ⟨he, -⟩, key⟩
        exact ⟨e, he, key⟩
    rw [contents, contents, same]
  have perm : (distinctKeys events').Perm (distinctKeys events) :=
    (List.perm_ext_iff_of_nodup (nodup_distinctKeys _) (nodup_distinctKeys _)).mpr keys
  exact perm.length_eq.le.trans fits

/-- Three keys for three places, and two duplicates when the partition is full. -/
def sampleBatch : List (Event (List Nat)) :=
  [⟨1, 2, 0, [1]⟩, ⟨2, 1, 1, [2]⟩, ⟨1, 1, 2, [3]⟩, ⟨1, 2, 3, [4]⟩, ⟨2, 1, 4, [5]⟩]

theorem sampleBatch_drains :
    (pushAll (.ofFun (· ++ ·)) ⟨3, [], [], 0, 0⟩ sampleBatch).DrainsTo
      (batch (· ++ ·) sampleBatch) ∧
      coalesced (· ++ ·) sampleBatch = [⟨1, 2, 0, [1, 4]⟩, ⟨2, 1, 1, [2, 5]⟩, ⟨1, 1, 2, [3]⟩] :=
  have built : construct 3 = .ok (⟨3, [], [], 0, 0⟩ : Partition (List Nat)) := rfl
  ⟨(batch_law built (· ++ ·) sampleBatch (by decide)).1, by decide⟩

end Partition

end Yellowstone
