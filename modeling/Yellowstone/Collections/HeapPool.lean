import Mathlib.Logic.Equiv.Basic
import Yellowstone.Collections.HeapDetach

/-!
# Every operation of `PairingHeap` on a store of many heaps

`Shaped` gives each live heap object a tree: linked in the store, in heap order, counted by
the size field, and sharing no node with another heap. Each operation is run on a shaped
store; the heaps it does not name keep their trees.
-/

set_option autoImplicit false

namespace Yellowstone.Collections

open Throwing

/-- The tree of each heap object that is alive. -/
abbrev Shapes (T : Type) := HeapId → Option (TreeHeap (Entry T))

def objectOf {T : Type} (h : TreeHeap (Entry T)) : HeapObject := ⟨rootPtr h, h.values.length⟩

structure Shaped {T : Type} (less : T → T → Bool) (μ : Memory T) (S : Shapes T) : Prop where
  object : ∀ i, μ.heap i = (S i).map objectOf
  linked : ∀ {i h}, S i = some h → HeapAt μ.node h
  ordered : ∀ {i h}, S i = some h → h.Ordered (lessEntry less)
  nodup : ∀ {i h}, S i = some h → (heapAddresses h).Nodup
  issued : ∀ {i h}, S i = some h → ∀ a ∈ heapAddresses h, a < μ.fresh
  apart : ∀ {i j h g}, i ≠ j → S i = some h → S j = some g →
    (heapAddresses h).Disjoint (heapAddresses g)

theorem shaped_empty {T : Type} (less : T → T → Bool) :
    Shaped less (Memory.empty T) fun _ => none :=
  ⟨fun _ => rfl, nofun, nofun, nofun, nofun, fun _ h => nomatch h⟩

namespace Shaped
variable {T : Type} {less : T → T → Bool} {μ μ' : Memory T} {S : Shapes T}

/-- The nodes of the heaps have not been written. -/
theorem of_same (hμ : Shaped less μ S) (object : μ'.heap = μ.heap) (fresh : μ.fresh ≤ μ'.fresh)
    (node : ∀ i h, S i = some h → ∀ a ∈ heapAddresses h, μ'.node a = μ.node a) :
    Shaped less μ' S := by
  refine ⟨?_, ?_, hμ.ordered, hμ.nodup, ?_, hμ.apart⟩
  · intro i
    rw [object]
    exact hμ.object i
  · intro i h hi
    exact (hμ.linked hi).congr (node i h hi)
  · intro i h hi a ha
    exact (hμ.issued hi a ha).trans_le fresh

theorem count (hμ : Shaped less μ S) (k : Nat) : Shaped less { μ with comparisons := k } S :=
  hμ.of_same rfl le_rfl fun _ _ _ _ _ => rfl

theorem unissued (hμ : Shaped less μ S) {i : HeapId} {h : TreeHeap (Entry T)} (hi : S i = some h) :
    μ.fresh ∉ heapAddresses h := fun ha =>
  lt_irrefl _ (hμ.issued hi _ ha)

/-- What has to be shown when one heap gets another tree and the others keep theirs. -/
theorem update (hμ : Shaped less μ S) {i : HeapId} {s : Option (TreeHeap (Entry T))}
    (object : μ'.heap = Function.update μ.heap i (s.map objectOf)) (fresh : μ.fresh ≤ μ'.fresh)
    (frame : ∀ j g, j ≠ i → S j = some g → ∀ a ∈ heapAddresses g, μ'.node a = μ.node a)
    (linked : ∀ h, s = some h → HeapAt μ'.node h)
    (ordered : ∀ h, s = some h → h.Ordered (lessEntry less))
    (nodup : ∀ h, s = some h → (heapAddresses h).Nodup)
    (issued : ∀ h, s = some h → ∀ a ∈ heapAddresses h, a < μ'.fresh)
    (apart : ∀ h, s = some h → ∀ j g, j ≠ i → S j = some g →
      (heapAddresses h).Disjoint (heapAddresses g)) :
    Shaped less μ' (Function.update S i s) := by
  have cases : ∀ {j h}, Function.update S i s j = some h →
      (j = i ∧ s = some h) ∨ (j ≠ i ∧ S j = some h) := by
    intro j h hj
    by_cases hji : j = i
    · subst hji
      exact .inl ⟨rfl, by simpa using hj⟩
    · exact .inr ⟨hji, by simpa [hji] using hj⟩
  refine ⟨?_, ?_, ?_, ?_, ?_, ?_⟩
  · intro j
    rw [object]
    by_cases hji : j = i
    · simp [hji]
    · simp [hji, hμ.object]
  · intro j h hj
    rcases cases hj with ⟨_, hs⟩ | ⟨hji, hS⟩
    · exact linked _ hs
    · exact (hμ.linked hS).congr (frame _ _ hji hS)
  · intro j h hj
    rcases cases hj with ⟨_, hs⟩ | ⟨_, hS⟩
    · exact ordered _ hs
    · exact hμ.ordered hS
  · intro j h hj
    rcases cases hj with ⟨_, hs⟩ | ⟨_, hS⟩
    · exact nodup _ hs
    · exact hμ.nodup hS
  · intro j h hj a ha
    rcases cases hj with ⟨_, hs⟩ | ⟨_, hS⟩
    · exact issued _ hs a ha
    · exact (hμ.issued hS a ha).trans_le fresh
  · intro j k h g hjk hj hk
    rcases cases hj with ⟨rfl, hs⟩ | ⟨hji, hS⟩
    · rcases cases hk with ⟨rfl, _⟩ | ⟨hki, hSk⟩
      · exact absurd rfl hjk
      · exact apart _ hs _ _ hki hSk
    · rcases cases hk with ⟨rfl, hs⟩ | ⟨_, hSk⟩
      · exact fun a ha hb => apart _ hs _ _ hji hS hb ha
      · exact hμ.apart hjk hS hSk

/-- An operation that only rearranges nodes of one heap. -/
theorem modify (hμ : Shaped less μ S) {i : HeapId} {h h' : TreeHeap (Entry T)}
    (hi : S i = some h) (object : μ'.heap = Function.update μ.heap i (some (objectOf h')))
    (fresh : μ'.fresh = μ.fresh) (frame : ∀ a, a ∉ heapAddresses h → μ'.node a = μ.node a)
    (linked : HeapAt μ'.node h') (ordered : h'.Ordered (lessEntry less))
    (sub : (heapAddresses h').Subperm (heapAddresses h)) :
    Shaped less μ' (Function.update S i (some h')) := by
  apply hμ.update object fresh.ge
  · intro j g hji hg a ha
    exact frame a fun hah => hμ.apart hji hg hi ha hah
  · rintro _ ⟨⟩; exact linked
  · rintro _ ⟨⟩; exact ordered
  · rintro _ ⟨⟩
    obtain ⟨l, perm, sublist⟩ := sub
    exact perm.nodup (sublist.nodup (hμ.nodup hi))
  · rintro _ ⟨⟩ a ha
    exact fresh ▸ hμ.issued hi a (sub.subset ha)
  · rintro _ ⟨⟩ j g hji hg a ha hag
    exact hμ.apart hji hg hi hag (sub.subset ha)

/-- Two heap objects exchange their trees; no node is written. -/
theorem exchange (hμ : Shaped less μ S) {i j : HeapId} :
    Shaped less ((μ.setHeap i (μ.heap j)).setHeap j (μ.heap i))
      (Function.update (Function.update S i (S j)) j (S i)) := by
  -- both sides read the old objects through one renaming
  have rename : ∀ {α : Type} (f : HeapId → α), Function.update (Function.update f i (f j)) j (f i) =
      f ∘ Equiv.swap i j := by
    intro α f
    funext k
    simp only [Function.update_apply, Function.comp, Equiv.swap_apply_def]
    split
    · rename_i hkj
      subst hkj
      split <;> simp_all
    · split <;> simp_all
  rw [rename]
  refine ⟨?_, fun h => hμ.linked h, fun h => hμ.ordered h, fun h => hμ.nodup h,
    fun h => hμ.issued h, fun hkl h g => hμ.apart (by simpa using hkl) h g⟩
  intro k
  have heap : ((μ.setHeap i (μ.heap j)).setHeap j (μ.heap i)).heap = _ := rename μ.heap
  rw [heap]
  exact hμ.object _

end Shaped

namespace PairingHeap
variable {T : Type} {cmp : Comparator T} {μ : Memory T} {S : Shapes T}

theorem exec_object {i : HeapId} {h : TreeHeap (Entry T)} {less : T → T → Bool}
    (hμ : Shaped less μ S) (hi : S i = some h) : exec (object i) μ = (.ok (objectOf h), μ) := by
  simp [object, exec_bind, hμ.object, hi]

@[simp] theorem exec_setObject (i : HeapId) (o : HeapObject) :
    exec (setObject i o) μ = (.ok ⟨⟩, μ.setHeap i (some o)) := rfl

@[simp] theorem node_setHeap (i : HeapId) (o : Option HeapObject) :
    (μ.setHeap i o).node = μ.node := rfl

@[simp] theorem fresh_setHeap (i : HeapId) (o : Option HeapObject) :
    (μ.setHeap i o).fresh = μ.fresh := rfl

section Observers
variable {less : T → T → Bool} {i : HeapId} {h : TreeHeap (Entry T)}

theorem size_spec (hμ : Shaped less μ S) (hi : S i = some h) :
    exec (size i) μ = (.ok h.values.length, μ) := by
  rw [size, exec_bind_of_ok (exec_object hμ hi)]
  rfl

theorem empty_spec (hμ : Shaped less μ S) (hi : S i = some h) :
    exec (empty i) μ = (.ok (decide (h.values = [])), μ) := by
  rw [empty, exec_bind_of_ok (exec_object hμ hi)]
  cases h <;> simp [objectOf, rootPtr, HeapTree.values]

theorem top_empty (hμ : Shaped less μ S) (hi : S i = some none) :
    exec (top i) μ =
      (.error (.outOfRange "PairingHeap::top() called on an empty heap."), μ) := by
  rw [top, exec_bind_of_ok (exec_object hμ hi)]
  rfl

theorem top_spec {t : HeapTree (Entry T)} (hμ : Shaped less μ S) (hi : S i = some (some t)) :
    exec (top i) μ = (.ok t.value.2, μ) := by
  have root := ((heapAt_some _ _).mp (hμ.linked hi)).1
  rw [top, exec_bind_of_ok (exec_object hμ hi)]
  exact (exec_bind_of_ok (exec_load root)).trans rfl

theorem handleValue_spec {p : Address} {v : T} (hμ : Shaped less μ S) (hi : S i = some h)
    (hp : (p, v) ∈ h.values) : exec (handleValue (some p)) μ = (.ok v, μ) := by
  obtain ⟨n, hn, hv⟩ := Holds.alive (hμ.linked hi) (e := (p, v)) (by simpa using hp)
  exact (exec_bind_of_ok (exec_load hn)).trans (by simp [hv])

end Observers

section Lifetime
variable {less : T → T → Bool} {i j : HeapId}

theorem construct_spec (hμ : Shaped less μ S) :
    exec (construct i) μ = (.ok ⟨⟩, μ.setHeap i (some {})) ∧
      Shaped less (μ.setHeap i (some {})) (Function.update S i (some none)) := by
  refine ⟨rfl, hμ.update rfl le_rfl (fun _ _ _ _ _ _ => rfl) ?_ ?_ ?_ ?_ ?_⟩
  · rintro _ ⟨⟩; trivial
  · rintro _ ⟨⟩; trivial
  · rintro _ ⟨⟩; exact List.nodup_nil
  · rintro _ ⟨⟩; simp
  · rintro _ ⟨⟩ j g _ _; simp

theorem end_spec (hμ : Shaped less μ S) :
    Shaped less (μ.setHeap i none) (Function.update S i none) :=
  hμ.update rfl le_rfl (fun _ _ _ _ _ _ => rfl) nofun nofun nofun nofun nofun

theorem clear_spec {h : TreeHeap (Entry T)} (hμ : Shaped less μ S) (hi : S i = some h) :
    ∃ μ', exec (clear i) μ = (.ok ⟨⟩, μ') ∧
      Shaped less μ' (Function.update S i (some none)) ∧ μ'.fresh = μ.fresh := by
  obtain ⟨μ₁, destroy, -, frame⟩ := destroyTree_spec (hμ.linked hi) (hμ.nodup hi) (hμ.issued hi)
  refine ⟨μ₁.setHeap i (some {}), ?_, hμ.modify hi ?_ frame.fresh frame.node trivial trivial ?_,
    frame.fresh⟩
  · rw [clear, exec_bind_of_ok (exec_object hμ hi)]
    exact exec_bind_of_ok destroy
  · rw [← frame.heap]
    rfl
  · exact List.nil_subperm

theorem destruct_spec {h : TreeHeap (Entry T)} (hμ : Shaped less μ S) (hi : S i = some h) :
    ∃ μ', exec (destruct i) μ = (.ok ⟨⟩, μ') ∧ Shaped less μ' (Function.update S i none) := by
  obtain ⟨μ₁, run, hμ₁, -⟩ := clear_spec hμ hi
  refine ⟨μ₁.setHeap i none, exec_bind_of_ok run, ?_⟩
  simpa using end_spec (i := i) hμ₁

theorem swap_spec {h g : TreeHeap (Entry T)} (hμ : Shaped less μ S) (hi : S i = some h)
    (hj : S j = some g) :
    ∃ μ', exec (swap i j) μ = (.ok ⟨⟩, μ') ∧
      Shaped less μ' (Function.update (Function.update S i (some g)) j (some h)) := by
  refine ⟨_, (exec_bind_of_ok (exec_object hμ hi)).trans
    (exec_bind_of_ok (exec_object hμ hj)), ?_⟩
  have swapped := hμ.exchange (i := i) (j := j)
  simpa only [hμ.object, hi, hj, Option.map_some] using swapped

/-- Moving into a heap that holds nothing is an exchange with it. -/
theorem move_spec {g : TreeHeap (Entry T)} (hμ : Shaped less μ S) (hij : i ≠ j)
    (hi : S i = some none) (hj : S j = some g) :
    Shaped less ((μ.setHeap j (some {})).setHeap i (some (objectOf g)))
      (Function.update (Function.update S i (some g)) j (some none)) := by
  have swapped := hμ.exchange (i := i) (j := j)
  simp only [hμ.object, hi, hj, Option.map_some] at swapped
  have comm : (μ.setHeap i (some (objectOf g))).setHeap j (some {}) =
      (μ.setHeap j (some {})).setHeap i (some (objectOf g)) := by
    simp [Memory.setHeap, Function.update_comm hij]
  exact comm ▸ swapped

theorem moveConstruct_spec {g : TreeHeap (Entry T)} (hμ : Shaped less μ S) (hi : S i = none)
    (hj : S j = some g) :
    ∃ μ', exec (moveConstruct i j) μ = (.ok ⟨⟩, μ') ∧
      Shaped less μ' (Function.update (Function.update S i (some g)) j (some none)) := by
  have hij : i ≠ j := by
    rintro rfl
    simp [hi] at hj
  refine ⟨_, exec_bind_of_ok (exec_object hμ hj), ?_⟩
  have moved := move_spec (construct_spec (i := i) hμ).2 hij (by simp)
    (by simpa [Ne.symm hij] using hj)
  have comm : ((μ.setHeap i (some {})).setHeap j (some {})).setHeap i (some (objectOf g)) =
      (μ.setHeap j (some {})).setHeap i (some (objectOf g)) := by
    simp [Memory.setHeap, Function.update_comm hij]
  simpa only [comm, Function.update_idem] using moved

theorem moveAssign_spec {h g : TreeHeap (Entry T)} (hμ : Shaped less μ S) (hij : i ≠ j)
    (hi : S i = some h) (hj : S j = some g) :
    ∃ μ', exec (moveAssign i j) μ = (.ok ⟨⟩, μ') ∧
      Shaped less μ' (Function.update (Function.update S i (some g)) j (some none)) := by
  obtain ⟨μ₁, run, hμ₁, -⟩ := clear_spec hμ hi
  have hj₁ : Function.update S i (some none) j = some g := by simpa [Ne.symm hij] using hj
  have moved := move_spec hμ₁ hij (by simp) hj₁
  rw [Function.update_idem] at moved
  refine ⟨_, ?_, moved⟩
  rw [moveAssign, if_neg hij]
  exact (exec_bind_of_ok run).trans (exec_bind_of_ok (exec_object hμ₁ hj₁))

theorem moveAssign_self (i : HeapId) : exec (moveAssign (T := T) i i) μ = (.ok ⟨⟩, μ) := by
  simp [moveAssign]

end Lifetime

section Unchanged
variable {less : T → T → Bool} {i : HeapId}

theorem pop_empty (hμ : Shaped less μ S) (hi : S i = some none) :
    exec (pop cmp i) μ =
      (.error (.outOfRange "PairingHeap::pop() called on an empty heap."), μ) := by
  rw [pop, exec_bind_of_ok (exec_object hμ hi)]
  rfl

theorem extractTop_empty (hμ : Shaped less μ S) (hi : S i = some none) :
    exec (extractTop cmp i) μ =
      (.error (.outOfRange "PairingHeap::extract_top() called on an empty heap."), μ) := by
  rw [extractTop, exec_bind_of_ok (exec_object hμ hi)]
  rfl

theorem meld_self {h : TreeHeap (Entry T)} (hμ : Shaped less μ S) (hi : S i = some h) :
    exec (meld cmp i i) μ = (.ok ⟨⟩, μ) := by
  rw [meld, exec_bind_of_ok (exec_object hμ hi), exec_bind_of_ok (exec_object hμ hi)]
  simp

end Unchanged

section Contents
variable {i j : HeapId} [IsStrictWeakOrder T fun a b => cmp.less a b = true]

omit [IsStrictWeakOrder T fun a b => cmp.less a b = true] in
/-- A new node is in no heap. -/
theorem allocate_spec (hμ : Shaped cmp.less μ S) (v : T) :
    ∃ μ', exec (allocate v) μ = (.ok μ.fresh, μ') ∧ Shaped cmp.less μ' S ∧
      μ'.fresh = μ.fresh + 1 ∧ μ'.heap = μ.heap ∧
      HeapAt μ'.node (some ⟨(μ.fresh, v), .nil⟩) := by
  refine ⟨{ μ.write μ.fresh { value := v } with fresh := μ.fresh + 1 }, rfl,
    hμ.of_same rfl (Nat.le_succ _) ?_, rfl, rfl, ?_⟩
  · intro k g hk a ha
    have : a ≠ μ.fresh := fun he => hμ.unissued hk (he ▸ ha)
    simp [Memory.write, this]
  · rw [heapAt_some]
    simp [Memory.write]

omit [IsStrictWeakOrder T fun a b => cmp.less a b = true] in
theorem fresh_apart {h : TreeHeap (Entry T)} (hμ : Shaped cmp.less μ S) (hi : S i = some h)
    (v : T) : (heapAddresses h ++ heapAddresses (some ⟨(μ.fresh, v), .nil⟩)).Nodup := by
  simpa [List.nodup_append, hμ.nodup hi] using fun a ha (he : a = μ.fresh) =>
    hμ.unissued hi (he ▸ ha)

theorem emplace_spec (total : cmp.Total) {h : TreeHeap (Entry T)} (hμ : Shaped cmp.less μ S)
    (hi : S i = some h) (v : T) :
    ∃ μ', exec (emplace cmp i v) μ = (.ok (some μ.fresh), μ') ∧ μ'.fresh = μ.fresh + 1 ∧
      Shaped cmp.less μ' (Function.update S i
        (some (TreeHeap.push (lessEntry cmp.less) h (μ.fresh, v)))) := by
  obtain ⟨μ₁, allocated, hμ₁, fresh₁, -, single⟩ := allocate_spec hμ v
  have nodup := fresh_apart hμ hi v
  obtain ⟨μ₂, meld, held₂, frame⟩ := meldNodes_spec total (hμ₁.linked hi) single nodup
  have perm := heapAddresses_meld cmp h (some ⟨(μ.fresh, v), .nil⟩)
  have split : ∀ a ∈ heapAddresses (TreeHeap.push (lessEntry cmp.less) h (μ.fresh, v)),
      a ∈ heapAddresses h ∨ a = μ.fresh := by
    intro a ha
    simpa using List.mem_append.mp (perm.mem_iff.mp ha)
  have sized : objectOf (TreeHeap.push (lessEntry cmp.less) h (μ.fresh, v)) =
      ⟨rootPtr (TreeHeap.push (lessEntry cmp.less) h (μ.fresh, v)), h.values.length + 1⟩ := by
    simp [objectOf, (TreeHeap.values_push (lessEntry cmp.less) h (μ.fresh, v)).length_eq]
  refine ⟨μ₂.setHeap i (some (objectOf (TreeHeap.push (lessEntry cmp.less) h (μ.fresh, v)))), ?_,
    frame.fresh.trans fresh₁, hμ₁.update ?_ frame.fresh.ge ?_ ?_ ?_ ?_ ?_ ?_⟩
  · have attempt : exec (tryCatch (meldNodes cmp (objectOf h).root (some μ.fresh)) fun e => do
        deallocate μ.fresh
        throw e) μ₁ = (.ok (rootPtr (TreeHeap.push (lessEntry cmp.less) h (μ.fresh, v))), μ₂) := by
      rw [exec_tryCatch]
      erw [meld]
      rfl
    rw [emplace, exec_bind_of_ok allocated, exec_bind_of_ok (exec_object hμ₁ hi)]
    erw [exec_bind_of_ok attempt]
    rw [sized]
    rfl
  · simp only [Memory.setHeap, frame.heap]
    rfl
  · intro k g hki hk a ha
    apply frame.node a
    intro hmem
    rcases List.mem_append.mp hmem with hah | haf
    · exact hμ.apart hki hk hi ha hah
    · obtain rfl : a = μ.fresh := by simpa using haf
      exact hμ.unissued hk ha
  · rintro _ ⟨⟩; exact held₂
  · rintro _ ⟨⟩; exact TreeHeap.ordered_push (hμ.ordered hi) _
  · rintro _ ⟨⟩; exact perm.nodup_iff.mpr nodup
  · rintro _ ⟨⟩ a ha
    rw [fresh_setHeap, frame.fresh, fresh₁]
    rcases split a ha with hah | rfl
    · exact (hμ.issued hi a hah).trans (Nat.lt_succ_self _)
    · exact Nat.lt_succ_self _
  · rintro _ ⟨⟩ k g hki hk a ha hag
    rcases split a ha with hah | rfl
    · exact hμ.apart hki hk hi hag hah
    · exact hμ.unissued hk hag

theorem pop_spec (total : cmp.Total) {t : HeapTree (Entry T)} (hμ : Shaped cmp.less μ S)
    (hi : S i = some (some t)) :
    ∃ μ', exec (pop cmp i) μ = (.ok ⟨⟩, μ') ∧ Shaped cmp.less μ' (Function.update S i
      (some (TreeHeap.pairs (lessEntry cmp.less) t.children))) := by
  obtain ⟨⟨r, v⟩, cs⟩ := t
  obtain ⟨root, children⟩ := (heapAt_some _ _).mp (hμ.linked hi)
  have nodup := hμ.nodup hi
  simp only [heapAddresses_some, List.nodup_cons] at nodup root children ⊢
  let μ₁ := μ.write r ⟨v, none, none, none, none⟩
  have children₁ : Holds μ₁.node (some r) none cs := (holds_write nodup.1).mpr children
  obtain ⟨μ₂, combine, held, frame⟩ := combineChildren_spec total children₁ nodup.2
    fun a ha => hμ.issued hi a (by simp [ha])
  have root₂ : μ₂.node r = some ⟨v, none, none, none, none⟩ := by
    rw [frame.node r nodup.1]
    simp [μ₁]
  have perm : (heapAddresses (TreeHeap.pairs (lessEntry cmp.less) cs)).Perm (addresses cs) :=
    (TreeHeap.values_pairs (lessEntry cmp.less) cs).map Prod.fst
  have apart : ∀ a ∈ heapAddresses (TreeHeap.pairs (lessEntry cmp.less) cs), a ≠ r :=
    fun a ha he => nodup.1 (perm.mem_iff.mp (he ▸ ha))
  have sized : objectOf (TreeHeap.pairs (lessEntry cmp.less) cs) =
      ⟨rootPtr (TreeHeap.pairs (lessEntry cmp.less) cs), cs.values.length⟩ := by
    simp [objectOf, (TreeHeap.values_pairs (lessEntry cmp.less) cs).length_eq]
  refine ⟨(μ₂.erase r).setHeap i (some (objectOf (TreeHeap.pairs (lessEntry cmp.less) cs))), ?_,
    hμ.modify hi ?_ frame.fresh ?_ ?_ (TreeHeap.ordered_pairs (hμ.ordered hi).2) ?_⟩
  · rw [pop, exec_bind_of_ok (exec_object hμ hi), sized]
    refine (exec_bind_of_ok (exec_load root)).trans ((exec_bind_of_ok (exec_update _ root)).trans
      ((exec_bind_of_ok combine).trans ((exec_bind_of_ok (exec_setObject _ _)).trans ?_)))
    simp only [deallocate, bind_assoc]
    rw [exec_bind_of_ok (exec_load (by simpa using root₂)), exec_bind_of_ok (exec_modify _ _)]
    simp [Memory.erase, Memory.setHeap, objectOf, HeapTree.values]
  · simp only [Memory.setHeap, Memory.erase, frame.heap]
    rfl
  · intro a ha
    simp only [heapAddresses_some, List.mem_cons, not_or] at ha
    simp [Memory.erase, ha.1, frame.node a ha.2, μ₁]
  · exact held.congr fun a ha => by simp [Memory.erase, apart a ha]
  · exact perm.subperm.trans (List.sublist_cons_self r (addresses cs)).subperm

theorem extractTop_spec (total : cmp.Total) {t : HeapTree (Entry T)} (hμ : Shaped cmp.less μ S)
    (hi : S i = some (some t)) :
    ∃ μ', exec (extractTop cmp i) μ = (.ok t.value.2, μ') ∧ Shaped cmp.less μ' (Function.update S i
      (some (TreeHeap.pairs (lessEntry cmp.less) t.children))) := by
  have root := ((heapAt_some _ _).mp (hμ.linked hi)).1
  obtain ⟨μ', run, hμ'⟩ := pop_spec total hμ hi
  refine ⟨μ', ?_, hμ'⟩
  rw [extractTop, exec_bind_of_ok (exec_object hμ hi)]
  exact (exec_bind_of_ok (exec_load root)).trans (exec_bind_of_ok run)

theorem meld_spec (total : cmp.Total) {h g : TreeHeap (Entry T)} (hμ : Shaped cmp.less μ S)
    (hij : i ≠ j) (hi : S i = some h) (hj : S j = some g) :
    ∃ μ', exec (meld cmp i j) μ = (.ok ⟨⟩, μ') ∧ Shaped cmp.less μ'
      (Function.update (Function.update S j (some none)) i
        (some (TreeHeap.meld (lessEntry cmp.less) h g))) := by
  have start : exec (meld cmp i j) μ = exec (if i = j ∨ rootPtr g = none then pure ⟨⟩ else do
      let root ← meldNodes cmp (rootPtr h) (rootPtr g)
      setObject i ⟨root, h.values.length + g.values.length⟩
      setObject j {}) μ :=
    (exec_bind_of_ok (exec_object hμ hi)).trans (exec_bind_of_ok (exec_object hμ hj))
  cases g with
  | none =>
    refine ⟨μ, by rw [start]; simp [rootPtr], ?_⟩
    rw [TreeHeap.meld_none, ← hi, ← hj, Function.update_eq_self, Function.update_eq_self]
    exact hμ
  | some t =>
    have nodup : (heapAddresses h ++ heapAddresses (some t)).Nodup := by
      rw [List.nodup_append]
      exact ⟨hμ.nodup hi, hμ.nodup hj, fun a ha b hb he => hμ.apart hij hi hj ha (he ▸ hb)⟩
    obtain ⟨μ₁, run, held, frame⟩ := meldNodes_spec total (hμ.linked hi) (hμ.linked hj) nodup
    have perm := heapAddresses_meld cmp h (some t)
    have split : ∀ a ∈ heapAddresses (TreeHeap.meld (lessEntry cmp.less) h (some t)),
        a ∈ heapAddresses h ∨ a ∈ heapAddresses (some t) := fun a ha =>
      List.mem_append.mp (perm.mem_iff.mp ha)
    have sized : objectOf (TreeHeap.meld (lessEntry cmp.less) h (some t)) =
        ⟨rootPtr (TreeHeap.meld (lessEntry cmp.less) h (some t)),
          h.values.length + (TreeHeap.values (some t)).length⟩ := by
      simp [objectOf, (TreeHeap.values_meld (lessEntry cmp.less) h (some t)).length_eq]
    have others : ∀ {k k'}, k ≠ i → Function.update S j (some none) k = some k' →
        k' = none ∨ (k ≠ j ∧ S k = some k') := by
      intro k k' _ hk
      by_cases hkj : k = j
      · subst hkj
        exact .inl (by simpa using hk.symm)
      · exact .inr ⟨hkj, by simpa [hkj] using hk⟩
    refine ⟨(μ₁.setHeap i
        (some (objectOf (TreeHeap.meld (lessEntry cmp.less) h (some t))))).setHeap j (some {}), ?_,
      (construct_spec (i := j) hμ).2.update ?_ frame.fresh.ge
        ?_ ?_ ?_ ?_ ?_ ?_⟩
    · rw [start, if_neg (by simp [hij, rootPtr]), exec_bind_of_ok run, sized]
      rfl
    · simp [Memory.setHeap, frame.heap, Function.update_comm hij]
    · intro k g hki hk a ha
      rcases others hki hk with rfl | ⟨hkj, hSk⟩
      · simp at ha
      · apply frame.node a
        intro hmem
        rcases List.mem_append.mp hmem with hah | hat
        · exact hμ.apart hki hSk hi ha hah
        · exact hμ.apart hkj hSk hj ha hat
    · rintro _ ⟨⟩; exact held
    · rintro _ ⟨⟩; exact TreeHeap.ordered_meld (hμ.ordered hi) (hμ.ordered hj)
    · rintro _ ⟨⟩; exact perm.nodup_iff.mpr nodup
    · rintro _ ⟨⟩ a ha
      rw [fresh_setHeap, fresh_setHeap, frame.fresh]
      rcases split a ha with hah | hat
      · exact hμ.issued hi a hah
      · exact hμ.issued hj a hat
    · rintro _ ⟨⟩ k g hki hk a ha hag
      rcases others hki hk with rfl | ⟨hkj, hSk⟩
      · simp at hag
      · rcases split a ha with hah | hat
        · exact hμ.apart hki hSk hi hag hah
        · exact hμ.apart hkj hSk hj hag hat

end Contents

end PairingHeap

end Yellowstone.Collections
