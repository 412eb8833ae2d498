import Yellowstone.Collections.HeapLinks

/-!
# The loops that take a tree apart

`combine_children` and `destroy_tree` said of nodes and pointers: which nodes they touch,
what becomes of every link, and that the loops end.
-/

set_option autoImplicit false

namespace Yellowstone.Collections

open Throwing PairingHeap

/-! ## Combining the children of an old root -/

section Combine
variable {T : Type} {cmp : Comparator T} {μ μ' : Memory T}

/-- The children of an old root: a list of trees of distinct live nodes. -/
structure SiblingTrees (μ : Memory T) (oldRoot : Address) (trees : Forest (Entry T)) : Prop where
  linked : Holds μ.node (some oldRoot) none trees
  distinct : (oldRoot :: addresses trees).Nodup
  issued : ∀ a ∈ addresses trees, a < μ.fresh

/-- The store holds the one tree that the recursion makes of the children. -/
structure Combined (less : T → T → Bool) (oldRoot : Address) (trees : Forest (Entry T))
    (result : NodePtr) (μ μ' : Memory T) : Prop where
  returned : result = rootPtr (TreeHeap.pairs (lessEntry less) trees)
  tree : HeapAt μ'.node (TreeHeap.pairs (lessEntry less) trees)
  noOther : ∀ t, HeapAt μ'.node t → rootPtr t = result → t = TreeHeap.pairs (lessEntry less) trees
  unhung : ∀ a n, result = some a → μ'.node a = some n →
    n.parent = none ∧ n.previousSibling = none ∧ n.nextSibling = none
  sameEntries : (TreeHeap.pairs (lessEntry less) trees).values.Perm trees.values
  distinct : (heapAddresses (TreeHeap.pairs (lessEntry less) trees)).Nodup
  reached : ∀ a, Linked μ'.node result a ↔ a ∈ addresses trees
  released : ∀ a ∈ addresses trees, ∀ n, μ'.node a = some n → ¬n.PointsTo oldRoot
  outside : ∀ a, a ∉ addresses trees → μ'.node a = μ.node a
  heaps : μ'.heap = μ.heap

/-- `combine_children` returns, and what it returns is the tree of the recursion. -/
theorem combineChildren_combines (total : cmp.Total) {oldRoot : Address}
    {trees : Forest (Entry T)} (h : SiblingTrees μ oldRoot trees) :
    ∃ result μ', exec (combineChildren cmp (first trees)) μ = (.ok result, μ') ∧
      Combined cmp.less oldRoot trees result μ μ' := by
  obtain ⟨apart, nodup⟩ := List.nodup_cons.mp h.distinct
  obtain ⟨μ', run, held, frame⟩ := combineChildren_spec total h.linked nodup h.issued
  have entries := TreeHeap.values_pairs (lessEntry cmp.less) trees
  have nodes : (heapAddresses (TreeHeap.pairs (lessEntry cmp.less) trees)).Perm
      (addresses trees) := entries.map Prod.fst
  refine ⟨_, μ', run, ?_⟩
  constructor
  case returned => rfl
  case tree => exact held
  case noOther => exact fun t ht same => HeapAt.unique ht held same
  case unhung => exact fun a n root hn => held.root root hn
  case sameEntries => exact entries
  case distinct => exact nodes.nodup_iff.mpr nodup
  case reached =>
    intro a
    rw [← first_asForest, linked_iff held, addresses_asForest, nodes.mem_iff]
  case released =>
    intro a ha n hn pointer
    rw [← nodes.mem_iff, ← addresses_asForest] at ha
    rcases Holds.inside held ha hn pointer with mem | none | none
    · rw [addresses_asForest, nodes.mem_iff] at mem
      exact apart mem
    · cases none
    · cases none
  case outside => exact frame.node
  case heaps => exact frame.heap

end Combine

/-- One root with two children, after two comparisons. -/
def threeNodes : List (HeapOp Nat) := [.construct 0, .push 0 3, .push 0 2, .push 0 1]

def threeNodesMemory : Memory Nat := (performAll largestFirst (Memory.empty Nat) threeNodes).2

/-- The children `1` and `2` of the root `3`. -/
theorem threeNodes_combined : ∃ result μ',
    exec (combineChildren largestFirst (some 2)) threeNodesMemory = (.ok result, μ') ∧
      Combined largestFirst.less 0 (.node (2, 1) .nil (.node (1, 2) .nil .nil)) result
        threeNodesMemory μ' :=
  have children : SiblingTrees threeNodesMemory 0 (.node (2, 1) .nil (.node (1, 2) .nil .nil)) :=
    ⟨⟨rfl, trivial, rfl, trivial, trivial⟩, by decide, by decide⟩
  combineChildren_combines (fun _ => rfl) children

/-! ## Destroying a tree -/

section Destroy
variable {T : Type} {μ μ' : Memory T}

theorem count_deletes (log : List Access) (a : Address) :
    log.count (.deletes a) = (log.filterMap Access.deleted).count a := by
  induction log with
  | nil => rfl
  | cons x log ih =>
    cases x with
    | touches b => simpa [List.filterMap_cons, Access.deleted] using ih
    | deletes b => simp [Access.deleted, List.count_cons, ih]

/-- The accesses of a run and the store it leaves: the nodes below the root are gone. -/
structure Destroyed (root : NodePtr) (log : List Access) (μ μ' : Memory T) : Prop where
  once : ∀ a, Linked μ.node root a → log.count (.deletes a) = 1
  only : ∀ x ∈ log, Linked μ.node root x.node
  untouched : log.Pairwise fun x y => ∀ a, x = .deletes a → y.node ≠ a
  gone : ∀ a, Linked μ.node root a → μ'.node a = none
  outside : ∀ a, ¬Linked μ.node root a → μ'.node a = μ.node a
  heaps : μ'.heap = μ.heap

theorem DeletesOnce.count {nodes : List Address} {log : List Access} (h : DeletesOnce nodes log)
    (nodup : nodes.Nodup) {a : Address} (ha : a ∈ nodes) : log.count (.deletes a) = 1 := by
  rw [count_deletes, h.deleted.count_eq]
  exact List.count_eq_one_of_mem nodup ha

/-- `destroy_tree` returns, having deleted each node of the tree once and used none after. -/
theorem destroyTree_destroys {t : TreeHeap (Entry T)} (ht : HeapAt μ.node t)
    (nodup : (heapAddresses t).Nodup) (issued : ∀ a ∈ heapAddresses t, a < μ.fresh) :
    ∃ log μ', exec (destroyTree (rootPtr t)) μ = (.ok ⟨⟩, μ') ∧
      exec (destroyTreeLogged (rootPtr t)) μ = (.ok log, μ') ∧
      Destroyed (rootPtr t) log μ μ' := by
  have linked : ∀ a, Linked μ.node (rootPtr t) a ↔ a ∈ heapAddresses t := by
    intro a
    rw [← first_asForest, linked_iff ht, addresses_asForest]
  obtain ⟨log, μ', run, deletes, gone, frame⟩ := destroyTreeLogged_spec ht nodup issued
  refine ⟨log, μ', ?_, run, ?_⟩
  · rw [← destroyTreeLogged_forgets, exec_map, run]
  · constructor
    case once => exact fun a ha => deletes.count nodup ((linked a).mp ha)
    case only => exact fun x hx => (linked _).mpr (deletes.within x hx)
    case untouched => exact deletes.last
    case gone => exact fun a ha => gone a ((linked a).mp ha)
    case outside => exact fun a ha => frame.node a (mt (linked a).mpr ha)
    case heaps => exact frame.heap

end Destroy

theorem threeNodes_destroyed : ∃ log μ',
    exec (destroyTree (some 0)) threeNodesMemory = (.ok ⟨⟩, μ') ∧
      exec (destroyTreeLogged (some 0)) threeNodesMemory = (.ok log, μ') ∧
      Destroyed (some 0) log threeNodesMemory μ' :=
  destroyTree_destroys (t := some ⟨(0, 3), .node (2, 1) .nil (.node (1, 2) .nil .nil)⟩)
    ⟨rfl, ⟨rfl, trivial, rfl, trivial, trivial⟩, trivial⟩ (by decide) (by decide)

end Yellowstone.Collections
