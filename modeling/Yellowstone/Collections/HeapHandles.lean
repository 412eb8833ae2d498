import Mathlib.Logic.Equiv.Basic
import Yellowstone.Collections.HeapRefinement

/-!
# Handles

A ledger written from the calls and their results says which heap owns the node of each
handle and which value it has. Every sequence of calls leaves a store that agrees with it.
-/

set_option autoImplicit false

namespace Yellowstone.Collections

open Throwing

/-- The owner and the value of the node behind each handle that is valid. -/
abbrev Ledger (T : Type) := Address → Option (HeapId × T)

namespace Ledger
variable {T : Type}

/-- Contents move between heaps. -/
def reassign (L : Ledger T) (owner : HeapId → HeapId) : Ledger T :=
  fun a => (L a).map fun e => (owner e.1, e.2)

/-- The nodes of a heap are gone. -/
def forget (L : Ledger T) (i : HeapId) : Ledger T :=
  fun a => (L a).filter fun e => e.1 ≠ i

/-- The node at a pointer is gone. -/
def drop (L : Ledger T) (p : NodePtr) : Ledger T :=
  fun a => if p = some a then none else L a

def revalue (L : Ledger T) (node : Address) (v : T) : Ledger T :=
  fun a => (L a).map fun e => if a = node then (e.1, v) else e

/-- The ledger after a call that was made in a store and had a result. -/
def record (L : Ledger T) (μ : Memory T) : HeapOp T → HeapResult T → Ledger T
  | .push i v, .ok (.handle (some node)) => Function.update L node (some (i, v))
  | .pop i, .ok _ => L.drop ((μ.heap i).bind HeapObject.root)
  | .extractTop i, .ok _ => L.drop ((μ.heap i).bind HeapObject.root)
  | .meld i j, .ok _ => L.reassign fun k => if k = j then i else k
  | .moveConstruct i j, .ok _ => L.reassign fun k => if k = j then i else k
  | .moveAssign i j, .ok _ =>
    if i = j then L else (L.forget i).reassign fun k => if k = j then i else k
  | .swap i j, .ok _ => L.reassign (Equiv.swap i j)
  | .increasePriority _ (some node) v, .ok _ => L.revalue node v
  | .clear i, .ok _ => L.forget i
  | .destruct i, .ok _ => L.forget i
  | _, _ => L

end Ledger

/-- The ledger of a sequence of calls. -/
def recordAll {T : Type} (cmp : Comparator T) : Memory T → Ledger T → List (HeapOp T) → Ledger T
  | _, L, [] => L
  | μ, L, op :: ops =>
    let (r, μ') := exec (perform cmp op) μ
    recordAll cmp μ' (L.record μ op r) ops

/-! ## The ledger and the bags -/

section Bags
variable {T : Type} {less : T → T → Bool} {μ : Memory T} {S : Shapes T} {B B' : Bags less}
  {L : Ledger T}

/-- The bag of a heap has the node with the value. -/
def Owns (B : Bags less) (i : HeapId) (e : Entry T) : Prop := ∃ b, B i = some b ∧ e ∈ b.content

def Tracks (L : Ledger T) (B : Bags less) : Prop := ∀ a i v, L a = some (i, v) → Owns B i (a, v)

theorem Owns.alive {i : HeapId} {e : Entry T} (h : Owns B i e) : B i ≠ none := by
  obtain ⟨b, hb, -⟩ := h
  simp [hb]

theorem Owns.of_same {i : HeapId} {e : Entry T} (h : Owns B i e) (same : B' i = B i) :
    Owns B' i e := by
  obtain ⟨b, hb, he⟩ := h
  exact ⟨b, same.trans hb, he⟩

theorem Agree.shape (agree : Agree S B) {i : HeapId} {e : Entry T} (h : Owns B i e) :
    ∃ t, S i = some t ∧ e ∈ t.values := by
  obtain ⟨b, hb, he⟩ := h
  have rel := agree i
  rw [hb] at rel
  cases hS : S i with
  | none => rw [hS] at rel; cases rel
  | some t =>
    rw [hS] at rel
    cases rel with
    | some hr => exact ⟨t, rfl, by simpa [hr.1] using he⟩

/-- A node has one owner and one value. -/
theorem owns_unique (hμ : Shaped less μ S) (agree : Agree S B) {i j : HeapId} {a : Address}
    {v w : T} (h : Owns B i (a, v)) (g : Owns B j (a, w)) : i = j ∧ v = w := by
  obtain ⟨t, hi, hv⟩ := agree.shape h
  obtain ⟨t', hj, hw⟩ := agree.shape g
  have same : i = j := by
    by_contra hij
    exact hμ.apart hij hi hj (List.mem_map.mpr ⟨_, hv, rfl⟩) (List.mem_map.mpr ⟨_, hw, rfl⟩)
  subst same
  obtain rfl := Option.some.inj (hi.symm.trans hj)
  have entry := List.inj_on_of_nodup_map (hμ.nodup hi) hv hw rfl
  exact ⟨rfl, congrArg Prod.snd entry⟩

/-- The top of a bag is the node that the heap object's root pointer names. -/
theorem Agree.root (hμ : Shaped less μ S) (agree : Agree S B) {i : HeapId}
    {b : PriorityBag (lessEntry less)} (hb : B i = some b) :
    (μ.heap i).bind HeapObject.root = b.top.map Prod.fst := by
  have rel := agree i
  rw [hb] at rel
  cases hS : S i with
  | none => rw [hS] at rel; cases rel
  | some t =>
    rw [hS] at rel
    cases rel with
    | some hr =>
      rw [hμ.object, hS, hr.2]
      cases t <;> rfl

theorem Agree.dead (hμ : Shaped less μ S) (agree : Agree S B) {i : HeapId}
    (gone : μ.heap i = none) : B i = none := by
  have rel := agree i
  rw [hμ.none_of_heap gone] at rel
  cases hb : B i with
  | none => rfl
  | some b => rw [hb] at rel; cases rel

/-- The node of a handle in the ledger, in the store. -/
theorem Owns.handle {i : HeapId} {a : Address} {v : T} (hμ : Shaped less μ S)
    (agree : Agree S B) (h : Owns B i (a, v)) : NodeOf μ i a ∧ (∀ j, NodeOf μ j a → j = i) ∧
      exec (PairingHeap.handleValue (some a)) μ = (.ok v, μ) := by
  obtain ⟨t, hi, hv⟩ := agree.shape h
  refine ⟨⟨objectOf t, by rw [hμ.object, hi]; rfl, ?_⟩, ?_, PairingHeap.handleValue_spec hμ hi hv⟩
  · have linked := (linked_iff (a := a) (hμ.linked hi)).mpr
    rw [first_asForest, addresses_asForest] at linked
    exact linked (List.mem_map.mpr ⟨_, hv, rfl⟩)
  · intro j owner
    obtain ⟨t', w, hj, hw⟩ := hμ.entry_of_node owner
    by_contra hji
    exact hμ.apart hji hj hi (List.mem_map.mpr ⟨_, hw, rfl⟩) (List.mem_map.mpr ⟨_, hv, rfl⟩)

theorem Tracks.mono (h : Tracks L B) (keeps : ∀ k e, Owns B k e → Owns B' k e) : Tracks L B' :=
  fun a k w ha => keeps k _ (h a k w ha)

theorem Tracks.reassign (h : Tracks L B) {owner : HeapId → HeapId}
    (moves : ∀ k e, Owns B k e → Owns B' (owner k) e) : Tracks (L.reassign owner) B' := by
  intro a k w ha
  obtain ⟨⟨k', w'⟩, ha', same⟩ := Option.map_eq_some_iff.mp ha
  cases same
  exact moves k' _ (h a k' w' ha')

theorem Tracks.forget (h : Tracks L B) {i : HeapId}
    (keeps : ∀ k e, k ≠ i → Owns B k e → Owns B' k e) : Tracks (L.forget i) B' := by
  intro a k w ha
  obtain ⟨ha', other⟩ := Option.filter_eq_some_iff.mp ha
  exact keeps k _ (of_decide_eq_true other) (h a k w ha')

theorem Tracks.drop (h : Tracks L B) {p : NodePtr}
    (keeps : ∀ k e, p ≠ some e.1 → Owns B k e → Owns B' k e) : Tracks (L.drop p) B' := by
  intro a k w ha
  unfold Ledger.drop at ha
  split at ha
  · cases ha
  · exact keeps k _ ‹_› (h a k w ha)

theorem Tracks.revalue (h : Tracks L B) {node : Address} {v : T}
    (changes : ∀ k e, Owns B k e → Owns B' k (if e.1 = node then (e.1, v) else e)) :
    Tracks (L.revalue node v) B' := by
  intro a k w ha
  obtain ⟨⟨k', w'⟩, ha', same⟩ := Option.map_eq_some_iff.mp ha
  have changed := changes k' _ (h a k' w' ha')
  split at same
  · rename_i here
    cases same
    simpa [here] using changed
  · rename_i other
    cases same
    simpa [other] using changed

/-- One heap has another bag; the other heaps own what they owned. -/
theorem Owns.update {i k : HeapId} {e : Entry T} {b : Option (PriorityBag (lessEntry less))}
    (h : Owns B k e) (here : k = i → ∃ b', b = some b' ∧ e ∈ b'.content) :
    Owns (Function.update B i b) k e := by
  by_cases same : k = i
  · obtain ⟨b', hb, he⟩ := here same
    subst same
    exact ⟨b', by simpa using hb, he⟩
  · exact h.of_same (by simp [same])

theorem Owns.mem {i : HeapId} {e : Entry T} {b : PriorityBag (lessEntry less)} (h : Owns B i e)
    (hb : B i = some b) : e ∈ b.content := by
  obtain ⟨b', hb', he⟩ := h
  obtain rfl := Option.some.inj (hb'.symm.trans hb)
  exact he

/-- A removal takes the top of its bag and nothing else. -/
theorem owns_removed {i k : HeapId} {e : Entry T} {b b' : PriorityBag (lessEntry less)}
    {x : Entry T} (hb : B i = some b) (content : b.content = x ::ₘ b'.content)
    (other : e.1 ≠ x.1) (h : Owns B k e) : Owns (Function.update B i (some b')) k e := by
  refine h.update fun same => ⟨b', rfl, ?_⟩
  have mem := (same ▸ h).mem hb
  rw [content, Multiset.mem_cons] at mem
  exact mem.resolve_left fun he => other (congrArg Prod.fst he)

/-- The contents of `j` are now in `i`, which had none, or none that are kept. -/
theorem owns_moved {i j k : HeapId} {e : Entry T} {c : PriorityBag (lessEntry less)}
    {b : PriorityBag (lessEntry less)} (hij : i ≠ j) (hc : B j = some c) (h : Owns B k e)
    (away : k ≠ i) :
    Owns (Function.update (Function.update B i (some c)) j (some b))
      (if k = j then i else k) e := by
  by_cases from' : k = j
  · subst from'
    rw [if_pos rfl]
    exact ⟨c, by simp [hij], h.mem hc⟩
  · rw [if_neg from']
    exact h.of_same (by simp [from', away])

end Bags

section Steps
variable {T : Type} {cmp : Comparator T} {μ : Memory T} {S : Shapes T} {B B' : Bags cmp.less}
  {L : Ledger T}

theorem tracks_push {i : HeapId} {node : Address} {v : T} (tracks : Tracks L B)
    {b b' : PriorityBag (lessEntry cmp.less)} (hb : B i = some b)
    (content : b'.content = (node, v) ::ₘ b.content) :
    Tracks (Function.update L node (some (i, v))) (Function.update B i (some b')) := by
  intro a k w ha
  rw [Function.update_apply] at ha
  split at ha
  · rename_i here
    cases ha
    exact ⟨b', by simp, by simp [content, here]⟩
  · have h := tracks a k w ha
    refine h.update fun same => ⟨b', rfl, ?_⟩
    subst same
    rw [content]
    exact Multiset.mem_cons_of_mem (h.mem hb)

theorem tracks_pop {i : HeapId} (hμ : Shaped cmp.less μ S) (agree : Agree S B)
    (tracks : Tracks L B) {b b' : PriorityBag (lessEntry cmp.less)} {x : Entry T}
    (hb : B i = some b) (top : b.top = some x) (content : b.content = x ::ₘ b'.content) :
    Tracks (L.drop ((μ.heap i).bind HeapObject.root)) (Function.update B i (some b')) := by
  rw [agree.root hμ hb, top]
  refine tracks.drop fun k e kept h => owns_removed hb content (fun same => kept ?_) h
  rw [Option.map_some, same]

theorem tracks_moveAssign {i j : HeapId} (hij : i ≠ j) (tracks : Tracks L B)
    {c : PriorityBag (lessEntry cmp.less)} (hc : B j = some c) :
    Tracks ((L.forget i).reassign fun k => if k = j then i else k)
      (Function.update (Function.update B i (some c)) j (some .empty)) := by
  have kept : Tracks (L.forget i) (Function.update B i none) :=
    tracks.forget fun k e other h => h.of_same (by simp [other])
  apply kept.reassign
  intro k e h
  have away : k ≠ i := by
    rintro rfl
    exact h.alive (by simp)
  exact owns_moved hij hc (h.of_same (by simp [away])) away

theorem tracks_swap {i j : HeapId} (tracks : Tracks L B)
    {b c : PriorityBag (lessEntry cmp.less)} (hb : B i = some b) (hc : B j = some c) :
    Tracks (L.reassign (Equiv.swap i j))
      (Function.update (Function.update B i (some c)) j (some b)) := by
  apply tracks.reassign
  intro k e h
  by_cases left : k = i
  · subst left
    rw [Equiv.swap_apply_left]
    exact ⟨b, by simp, h.mem hb⟩
  · by_cases right : k = j
    · subst right
      rw [Equiv.swap_apply_right]
      exact ⟨c, by simp [Ne.symm left], h.mem hc⟩
    · rw [Equiv.swap_apply_of_ne_of_ne left right]
      exact h.of_same (by simp [left, right])

theorem tracks_meld {i j : HeapId} (hij : i ≠ j) (tracks : Tracks L B)
    {b c b' : PriorityBag (lessEntry cmp.less)} (hb : B i = some b) (hc : B j = some c)
    (content : b'.content = b.content + c.content) :
    Tracks (L.reassign fun k => if k = j then i else k)
      (Function.update (Function.update B j (some .empty)) i (some b')) := by
  apply tracks.reassign
  intro k e h
  by_cases from' : k = j
  · subst from'
    rw [if_pos rfl]
    exact ⟨b', by simp, by rw [content]; exact Multiset.mem_add.mpr (.inr (h.mem hc))⟩
  · rw [if_neg from']
    have h' : Owns (Function.update B j (some .empty)) k e := h.of_same (by simp [from'])
    refine h'.update fun same => ⟨b', rfl, ?_⟩
    subst same
    rw [content]
    exact Multiset.mem_add.mpr (.inl (h.mem hb))

theorem tracks_increase {i : HeapId} {node : Address} {v old : T} (hμ : Shaped cmp.less μ S)
    (agree : Agree S B) {b b' : PriorityBag (lessEntry cmp.less)}
    {rest : Multiset (Entry T)} (hb : B i = some b) (content : b.content = (node, old) ::ₘ rest)
    (content' : b'.content = (node, v) ::ₘ rest) (k : HeapId) (e : Entry T) (h : Owns B k e) :
    Owns (Function.update B i (some b')) k (if e.1 = node then (e.1, v) else e) := by
  have owner : Owns B i (node, old) := ⟨b, hb, by simp [content]⟩
  obtain ⟨a, w⟩ := e
  by_cases here : a = node
  · subst here
    obtain ⟨rfl, -⟩ := owns_unique hμ agree h owner
    exact ⟨b', by simp, by simp [content']⟩
  · simp only [here, if_false]
    refine h.update fun same => ⟨b', rfl, ?_⟩
    subst same
    have mem := h.mem hb
    rw [content, Multiset.mem_cons] at mem
    rw [content', Multiset.mem_cons]
    exact .inr (mem.resolve_left fun he => here (congrArg Prod.fst he))

/-- The ledger follows every result that the specification allows. -/
theorem tracks_step {op : HeapOp T} {r : HeapResult T} (hμ : Shaped cmp.less μ S)
    (agree : Agree S B) (tracks : Tracks L B) (legal : Admissible μ op) (spec : Spec B op r B') :
    Tracks (L.record μ op r) B' := by
  have fresh : ∀ {i : HeapId} {b : Option (PriorityBag (lessEntry cmp.less))}, μ.heap i = none →
      Tracks L (Function.update B i b) := by
    intro i b gone
    exact tracks.mono fun k e h => h.update fun same =>
      absurd (agree.dead hμ gone) (same ▸ h.alive)
  cases op with
  | construct i =>
    obtain ⟨rfl, rfl⟩ := spec
    exact fresh legal
  | constructRange i values =>
    obtain ⟨rfl, b, -, -, rfl⟩ := spec
    exact fresh legal
  | moveConstruct i j =>
    obtain ⟨rfl, c, hc, rfl⟩ := spec
    have dead := agree.dead hμ legal.1
    have hij : i ≠ j := by
      rintro rfl
      cases dead.symm.trans hc
    exact tracks.reassign fun k e h => owns_moved hij hc h fun same => absurd dead (same ▸ h.alive)
  | moveAssign i j =>
    obtain ⟨rfl, moved⟩ := spec
    by_cases hij : i = j
    · rw [if_pos hij] at moved
      subst moved
      simpa [Ledger.record, hij] using tracks
    · rw [if_neg hij] at moved
      obtain ⟨c, hc, rfl⟩ := moved
      simp only [Ledger.record, hij, if_false]
      exact tracks_moveAssign hij tracks hc
  | destruct i =>
    obtain ⟨rfl, rfl⟩ := spec
    exact tracks.forget fun k e other h => h.of_same (by simp [other])
  | size i =>
    obtain ⟨rfl, _, -, rfl⟩ := spec
    exact tracks
  | empty i =>
    obtain ⟨rfl, _, -, rfl⟩ := spec
    exact tracks
  | top i =>
    obtain ⟨rfl, _, -, found⟩ := spec
    exact tracks
  | push i v =>
    obtain ⟨b, node, hb, -, rfl, b', content, rfl⟩ := spec
    exact tracks_push tracks hb content
  | pop i =>
    obtain ⟨b, hb, outcome⟩ := spec
    cases top : b.top with
    | none =>
      rw [top] at outcome
      obtain ⟨rfl, rfl⟩ := outcome
      exact tracks
    | some x =>
      rw [top] at outcome
      obtain ⟨rfl, b', content, rfl⟩ := outcome
      exact tracks_pop hμ agree tracks hb top content
  | extractTop i =>
    obtain ⟨b, hb, outcome⟩ := spec
    cases top : b.top with
    | none =>
      rw [top] at outcome
      obtain ⟨rfl, rfl⟩ := outcome
      exact tracks
    | some x =>
      rw [top] at outcome
      obtain ⟨rfl, b', content, rfl⟩ := outcome
      exact tracks_pop hμ agree tracks hb top content
  | meld i j =>
    obtain ⟨rfl, melded⟩ := spec
    by_cases hij : i = j
    · rw [if_pos hij] at melded
      subst hij melded
      change Tracks (L.reassign fun k => if k = i then i else k) B'
      apply tracks.reassign
      intro k e h
      by_cases here : k = i
      · rwa [if_pos here, ← here]
      · rwa [if_neg here]
    · rw [if_neg hij] at melded
      obtain ⟨b, c, b', hb, hc, content, rfl⟩ := melded
      exact tracks_meld hij tracks hb hc content
  | increasePriority i handle v =>
    cases handle with
    | none =>
      obtain ⟨rfl, rfl⟩ := spec
      exact tracks
    | some node =>
      obtain ⟨b, old, rest, hb, content, outcome⟩ := spec
      split at outcome
      · obtain ⟨rfl, rfl⟩ := outcome
        exact tracks
      · obtain ⟨rfl, b', content', rfl⟩ := outcome
        exact tracks.revalue (tracks_increase hμ agree hb content content')
  | clear i =>
    obtain ⟨rfl, rfl⟩ := spec
    exact tracks.forget fun k e other h => h.of_same (by simp [other])
  | swap i j =>
    obtain ⟨rfl, b, c, hb, hc, rfl⟩ := spec
    exact tracks_swap tracks hb hc
  | handleValue handle =>
    cases handle with
    | none =>
      obtain ⟨rfl, rfl⟩ := spec
      exact tracks
    | some node =>
      obtain ⟨rfl, _⟩ := spec
      exact tracks

/-- A replaced value is that of one node, and the values of the others stay. -/
theorem increase_changes_one [IsStrictWeakOrder T fun a b => cmp.less a b = true]
    (total : cmp.Total) (hμ : Shaped cmp.less μ S) (agree : Agree S B) {i : HeapId}
    {node : Address} {v : T} (legal : Admissible μ (.increasePriority i (some node) v))
    {j : HeapId} {a : Address} {w : T} (h : Owns B j (a, w)) :
    let (r, μ') := exec (perform cmp (.increasePriority i (some node) v)) μ
    exec (PairingHeap.handleValue (some a)) μ' =
      (.ok (if a = node ∧ r.isOk = true then v else w), μ') := by
  obtain ⟨B', spec, S', hμ', agree'⟩ := step_simulates total ⟨S, hμ, agree⟩ legal
  obtain ⟨b, old, rest, hb, content, outcome⟩ := spec
  split at outcome
  · obtain ⟨rfl, refused⟩ := outcome
    simpa [refused, Except.isOk, Except.toBool] using (h.handle hμ' agree').2.2
  · obtain ⟨accepted, b', content', rfl⟩ := outcome
    have changed := tracks_increase hμ agree hb content content' j (a, w) h
    by_cases here : a = node
    · rw [if_pos here] at changed
      simpa [accepted, here, Except.isOk, Except.toBool] using (changed.handle hμ' agree').2.2
    · rw [if_neg here] at changed
      simpa [accepted, here, Except.isOk, Except.toBool] using (changed.handle hμ' agree').2.2

variable [IsStrictWeakOrder T fun a b => cmp.less a b = true]

theorem run_tracks (total : cmp.Total) {ops : List (HeapOp T)} (sim : Simulates μ B)
    (tracks : Tracks L B) (legal : Legal cmp μ ops) :
    ∃ B' : Bags cmp.less, Simulates (performAll cmp μ ops).2 B' ∧
      Tracks (recordAll cmp μ L ops) B' := by
  induction ops generalizing μ B L with
  | nil => exact ⟨B, sim, tracks⟩
  | cons op ops ih =>
    obtain ⟨S, hμ, agree⟩ := sim
    obtain ⟨B₁, spec, sim₁⟩ := step_simulates total ⟨S, hμ, agree⟩ legal.1
    exact ih sim₁ (tracks_step hμ agree tracks legal.1 spec) legal.2

/-- Every handle in the ledger names a node of its owner and of no other heap, with its value;
`increase_priority` gives a value to the node of its handle and to no other node. -/
theorem handles_stable (total : cmp.Total) (ops : List (HeapOp T))
    (legal : Legal cmp (Memory.empty T) ops) :
    let μ := (performAll cmp (Memory.empty T) ops).2
    (∀ a i v, recordAll cmp (Memory.empty T) (fun _ => none) ops a = some (i, v) →
      NodeOf μ i a ∧ (∀ j, NodeOf μ j a → j = i) ∧
        exec (PairingHeap.handleValue (some a)) μ = (.ok v, μ)) ∧
    ∀ i node v, Admissible μ (.increasePriority i (some node) v) →
      let (r, μ') := exec (perform cmp (.increasePriority i (some node) v)) μ
      ∀ j a w, NodeOf μ j a → exec (PairingHeap.handleValue (some a)) μ = (.ok w, μ) →
        exec (PairingHeap.handleValue (some a)) μ' =
          (.ok (if a = node ∧ r.isOk = true then v else w), μ') := by
  intro μ
  have none : Tracks (fun _ => none) (fun _ => none : Bags cmp.less) := by
    intro a i v ha
    cases ha
  obtain ⟨B, ⟨S, hμ, agree⟩, tracks⟩ := run_tracks total simulates_empty none legal
  constructor
  · intro a i v ha
    exact (tracks a i v ha).handle hμ agree
  · intro i node v admissible j a w owner value
    obtain ⟨t, u, hj, hu⟩ := hμ.entry_of_node owner
    obtain ⟨b, hb, content, -⟩ := agree.bag hj
    have owns : Owns B j (a, u) := ⟨b, hb, by simpa [content] using hu⟩
    obtain rfl : u = w := by
      have read := PairingHeap.handleValue_spec hμ hj hu
      exact Except.ok.inj (Prod.mk.inj (read.symm.trans value)).1
    exact increase_changes_one total hμ agree admissible owns

end Steps

/-- Two handles: one is melded away from its heap and raised, the other extracted. -/
def twoHandles : List (HeapOp Nat) :=
  [.construct 0, .construct 1, .push 0 3, .push 1 5, .meld 0 1, .increasePriority 0 (some 0) 9,
    .swap 0 1, .extractTop 1, .push 0 2]

theorem twoHandles_stable :
    NodeOf (performAll largestFirst (Memory.empty Nat) twoHandles).2 1 1 ∧
      recordAll largestFirst (Memory.empty Nat) (fun _ => none) twoHandles 0 = none := by
  have legal : Legal largestFirst (Memory.empty Nat) twoHandles := by
    refine ⟨rfl, rfl, nofun, nofun, ⟨nofun, nofun⟩, ⟨_, rfl, ?_⟩, ⟨nofun, nofun⟩, nofun, nofun,
      trivial⟩
    exact .child rfl (.here rfl)
  exact ⟨((handles_stable (fun _ => rfl) twoHandles legal).1 1 1 5 (by decide)).1, by decide⟩

end Yellowstone.Collections
