import Mathlib.Logic.Relation
import Yellowstone.Collections.HeapRefinement

/-!
# The links of the nodes

What every sequence of calls leaves in the store, said of the four pointers of a node and
without reference to a tree: the nodes below a root form one, and each node can be found
from its parent and from its siblings.
-/

set_option autoImplicit false

namespace Yellowstone.Collections

open Throwing

section Links
variable {T : Type}

/-- One pointer down the tree: to the first child, or to the next sibling. -/
def Follows (cells : Cells T) (a b : Address) : Prop :=
  ∃ n, cells a = some n ∧ (n.firstChild = some b ∨ n.nextSibling = some b)

/-- One of the four pointers of a node leads there. -/
def Node.PointsTo (n : Node T) (b : Address) : Prop :=
  n.parent = some b ∨ n.previousSibling = some b ∨ n.firstChild = some b ∨ n.nextSibling = some b

/-- The list of siblings that starts at a pointer has the node. -/
inductive Listed (cells : Cells T) : NodePtr → Address → Prop
  | here (a : Address) : Listed cells (some a) a
  | next {a b : Address} {n : Node T} :
    cells a = some n → Listed cells n.nextSibling b → Listed cells (some a) b

/-- The nodes of a heap object and how they are linked. Every pointer of a node is null or leads to
a node. -/
structure WellLinked (less : T → T → Bool) (cells : Cells T) (o : HeapObject)
    (nodes : List Address) : Prop where
  reached : ∀ a, a ∈ nodes ↔ Linked cells o.root a
  inside : ∀ a ∈ nodes, ∀ n b, cells a = some n → n.PointsTo b → b ∈ nodes
  distinct : nodes.Nodup
  counted : nodes.length = o.size
  acyclic : ∀ a ∈ nodes, ¬Relation.TransGen (Follows cells) a a
  unshared : ∀ a ∈ nodes, ∀ b ∈ nodes, ∀ c, Follows cells a c → Follows cells b c → a = b
  root : ∀ r n, o.root = some r → cells r = some n →
    n.parent = none ∧ n.previousSibling = none ∧ n.nextSibling = none
  parent : ∀ a ∈ nodes, ∀ n, cells a = some n → o.root ≠ some a →
    ∃ p ∈ nodes, ∃ m, n.parent = some p ∧ cells p = some m ∧ Listed cells m.firstChild a
  children : ∀ p ∈ nodes, ∀ m a n, cells p = some m → Listed cells m.firstChild a →
    cells a = some n → n.parent = some p
  siblings : ∀ a ∈ nodes, ∀ b ∈ nodes, ∀ n m, cells a = some n → cells b = some m →
    (n.nextSibling = some b ↔ m.previousSibling = some a)
  firstChild : ∀ a ∈ nodes, ∀ n, cells a = some n → o.root ≠ some a →
    (n.previousSibling = none ↔ ∃ p ∈ nodes, ∃ m, cells p = some m ∧ m.firstChild = some a)
  ordered : ∀ a ∈ nodes, ∀ n p m, cells a = some n → n.parent = some p → cells p = some m →
    less m.value n.value = false

end Links

/-! ## What a forest says about its nodes -/

section Forests
variable {T : Type} {cells : Cells T} {p q : NodePtr} {f : Forest (Entry T)}

theorem Holds.head (h : Holds cells p q f) {b : Address} (hb : first f = some b) :
    b ∈ addresses f ∧ ∃ m, cells b = some m ∧ m.parent = p ∧ m.previousSibling = q := by
  cases f with
  | nil => cases hb
  | node e cs ss =>
    cases hb
    exact ⟨by simp, _, h.1, rfl, rfl⟩

/-- Where the pointers of a node lead, and what points back. -/
theorem Holds.forward (h : Holds cells p q f) {a : Address} {n : Node T} (ha : a ∈ addresses f)
    (hn : cells a = some n) :
    (∀ b, n.firstChild = some b → b ∈ addresses f ∧
      ∃ m, cells b = some m ∧ m.parent = some a ∧ m.previousSibling = none) ∧
    ∀ b, n.nextSibling = some b → b ∈ addresses f ∧
      ∃ m, cells b = some m ∧ m.parent = n.parent ∧ m.previousSibling = some a := by
  induction f generalizing p q with
  | nil => cases ha
  | node e cs ss ihc ihs =>
    obtain ⟨he, hcs, hss⟩ := h
    simp only [addresses_node, List.mem_cons, List.mem_append] at ha ⊢
    rcases ha with rfl | ha | ha
    · obtain rfl := Option.some.inj (he.symm.trans hn)
      constructor
      · intro b hb
        obtain ⟨mem, found⟩ := hcs.head hb
        exact ⟨.inr (.inl mem), found⟩
      · intro b hb
        obtain ⟨mem, found⟩ := hss.head hb
        exact ⟨.inr (.inr mem), found⟩
    · obtain ⟨child, sibling⟩ := ihc hcs ha
      exact ⟨fun b hb => (child b hb).imp_left fun mem => .inr (.inl mem),
        fun b hb => (sibling b hb).imp_left fun mem => .inr (.inl mem)⟩
    · obtain ⟨child, sibling⟩ := ihs hss ha
      exact ⟨fun b hb => (child b hb).imp_left fun mem => .inr (.inr mem),
        fun b hb => (sibling b hb).imp_left fun mem => .inr (.inr mem)⟩

/-- Every pointer stays inside the forest, except those by which the forest hangs. -/
theorem Holds.inside (h : Holds cells p q f) {a b : Address} {n : Node T} (ha : a ∈ addresses f)
    (hn : cells a = some n) (pointer : n.PointsTo b) :
    b ∈ addresses f ∨ p = some b ∨ q = some b := by
  induction f generalizing p q with
  | nil => cases ha
  | node e cs ss ihc ihs =>
    obtain ⟨he, hcs, hss⟩ := h
    simp only [addresses_node, List.mem_cons, List.mem_append] at ha ⊢
    rcases ha with rfl | ha | ha
    · obtain rfl := Option.some.inj (he.symm.trans hn)
      rcases pointer with parent | previous | child | sibling
      · exact .inr (.inl parent)
      · exact .inr (.inr previous)
      · exact .inl (.inr (.inl (hcs.head child).1))
      · exact .inl (.inr (.inr (hss.head sibling).1))
    · rcases ihc hcs ha with mem | parent | previous
      · exact .inl (.inr (.inl mem))
      · exact .inl (.inl (Option.some.inj parent).symm)
      · cases previous
    · rcases ihs hss ha with mem | parent | previous
      · exact .inl (.inr (.inr mem))
      · exact .inr (.inl parent)
      · exact .inl (.inl (Option.some.inj previous).symm)

/-- The node stands in the list at `head`, whose nodes have parent `p`; before it there is
`q`, if it is the first, or a node whose next sibling it is. -/
def Placed (cells : Cells T) (p q head : NodePtr) (a : Address) (n : Node T) : Prop :=
  n.parent = p ∧ Listed cells head a ∧ (n.previousSibling = q ∧ head = some a ∨
    ∃ b m, n.previousSibling = some b ∧ cells b = some m ∧ m.nextSibling = some a)

theorem Holds.placed (h : Holds cells p q f) {a : Address} {n : Node T} (ha : a ∈ addresses f)
    (hn : cells a = some n) : Placed cells p q (first f) a n ∨
      ∃ b ∈ addresses f, ∃ m, cells b = some m ∧ Placed cells (some b) none m.firstChild a n := by
  induction f generalizing p q with
  | nil => cases ha
  | node e cs ss ihc ihs =>
    obtain ⟨he, hcs, hss⟩ := h
    simp only [addresses_node, List.mem_cons, List.mem_append] at ha ⊢
    rcases ha with rfl | ha | ha
    · obtain rfl := Option.some.inj (he.symm.trans hn)
      exact .inl ⟨rfl, .here _, .inl ⟨rfl, rfl⟩⟩
    · rcases ihc hcs ha with placed | ⟨b, hb, m, hm, placed⟩
      · exact .inr ⟨e.1, .inl rfl, _, he, placed⟩
      · exact .inr ⟨b, .inr (.inl hb), m, hm, placed⟩
    · rcases ihs hss ha with ⟨parent, listed, before⟩ | ⟨b, hb, m, hm, placed⟩
      · refine .inl ⟨parent, .next he listed, .inr ?_⟩
        rcases before with ⟨previous, head⟩ | found
        · exact ⟨e.1, _, previous, he, head⟩
        · exact found
      · exact .inr ⟨b, .inr (.inr hb), m, hm, placed⟩

/-- A node is a root of the forest, or its parent is not outranked by it. -/
theorem Holds.not_outranked {less : T → T → Bool} (h : Holds cells p q f)
    (ordered : f.Ordered (lessEntry less)) {a : Address} {n : Node T} (ha : a ∈ addresses f)
    (hn : cells a = some n) : ((a, n.value) ∈ f.roots ∧ n.parent = p) ∨
      ∃ b m, n.parent = some b ∧ cells b = some m ∧ less m.value n.value = false := by
  induction f generalizing p q with
  | nil => cases ha
  | node e cs ss ihc ihs =>
    obtain ⟨he, hcs, hss⟩ := h
    obtain ⟨below, orderedc, ordereds⟩ := ordered
    simp only [addresses_node, List.mem_cons, List.mem_append] at ha
    rcases ha with rfl | ha | ha
    · obtain rfl := Option.some.inj (he.symm.trans hn)
      exact .inl ⟨by simp, rfl⟩
    · rcases ihc hcs orderedc ha with ⟨mem, parent⟩ | found
      · exact .inr ⟨e.1, _, parent, he, below _ mem⟩
      · exact .inr found
    · exact (ihs hss ordereds ha).imp_left fun ⟨mem, parent⟩ => ⟨by simp [mem], parent⟩

/-- The addresses of a forest come in an order that every pointer down the tree follows. -/
theorem Holds.follows (h : Holds cells p q f) {a b : Address} (ha : a ∈ addresses f)
    (hab : Follows cells a b) : [a, b].Sublist (addresses f) := by
  induction f generalizing p q with
  | nil => cases ha
  | node e cs ss ihc ihs =>
    obtain ⟨he, hcs, hss⟩ := h
    simp only [addresses_node, List.mem_cons, List.mem_append] at ha ⊢
    rcases ha with rfl | ha | ha
    · obtain ⟨n, hn, down⟩ := hab
      obtain rfl := Option.some.inj (he.symm.trans hn)
      apply List.Sublist.cons_cons
      apply List.singleton_sublist.mpr
      rcases down with child | sibling
      · exact List.mem_append_left _ (hcs.head child).1
      · exact List.mem_append_right _ (hss.head sibling).1
    · exact ((ihc hcs ha).trans (List.sublist_append_left ..)).cons _
    · exact ((ihs hss ha).trans (List.sublist_append_right ..)).cons _

theorem idxOf_lt_of_sublist {a b : Address} {l : List Address} (nodup : l.Nodup)
    (h : [a, b].Sublist l) : l.idxOf a < l.idxOf b := by
  induction l with
  | nil => cases h
  | cons x l ih =>
    obtain ⟨fresh, nodup⟩ := List.nodup_cons.mp nodup
    cases h with
    | cons _ h =>
      have hxa : x ≠ a := fun same => fresh (same ▸ h.subset (by simp))
      have hxb : x ≠ b := fun same => fresh (same ▸ h.subset (by simp))
      rw [List.idxOf_cons_ne _ hxa, List.idxOf_cons_ne _ hxb]
      exact Nat.succ_lt_succ (ih nodup h)
    | cons_cons _ h =>
      have hab : a ≠ b := fun same => fresh (same ▸ h.subset (by simp))
      rw [List.idxOf_cons_self, List.idxOf_cons_ne _ hab]
      exact Nat.succ_pos _

theorem Holds.acyclic (h : Holds cells p q f) (nodup : (addresses f).Nodup) {a : Address}
    (ha : a ∈ addresses f) : ¬Relation.TransGen (Follows cells) a a := by
  have later : ∀ b, Relation.TransGen (Follows cells) a b →
      b ∈ addresses f ∧ (addresses f).idxOf a < (addresses f).idxOf b := by
    intro b path
    induction path with
    | single step =>
      have pair := h.follows ha step
      exact ⟨pair.subset (by simp), idxOf_lt_of_sublist nodup pair⟩
    | tail _ step ih =>
      have pair := h.follows ih.1 step
      exact ⟨pair.subset (by simp), ih.2.trans (idxOf_lt_of_sublist nodup pair)⟩
  exact fun cycle => lt_irrefl _ (later a cycle).2

/-- The nodes of one list have one parent. -/
theorem Holds.parent_of_listed (h : Holds cells p q f) {head parent : NodePtr} {a : Address}
    {n : Node T} (listed : Listed cells head a)
    (start : ∀ b, head = some b → b ∈ addresses f ∧ ∃ m, cells b = some m ∧ m.parent = parent)
    (hn : cells a = some n) : n.parent = parent := by
  induction listed with
  | here a =>
    obtain ⟨-, m, hm, same⟩ := start a rfl
    obtain rfl := Option.some.inj (hm.symm.trans hn)
    exact same
  | @next a b k hk listed ih =>
    obtain ⟨mem, m, hm, same⟩ := start a rfl
    obtain rfl := Option.some.inj (hm.symm.trans hk)
    refine ih (fun c hc => ?_) hn
    obtain ⟨mem', m', hm', parent', -⟩ := (h.forward mem hm).2 c hc
    exact ⟨mem', m', hm', parent'.trans same⟩

end Forests

section Trees
variable {T : Type} {cells : Cells T} {t : TreeHeap (Entry T)} {a : Address} {n : Node T}

theorem HeapAt.root (h : HeapAt cells t) (root : rootPtr t = some a) (hn : cells a = some n) :
    n.parent = none ∧ n.previousSibling = none ∧ n.nextSibling = none := by
  cases t with
  | none => cases root
  | some t =>
    cases root
    obtain rfl := Option.some.inj (((heapAt_some cells t).mp h).1.symm.trans hn)
    exact ⟨rfl, rfl, rfl⟩

/-- A node other than the root stands in the child list of its parent. -/
theorem HeapAt.placed (h : HeapAt cells t) (ha : a ∈ heapAddresses t) (hn : cells a = some n)
    (inner : rootPtr t ≠ some a) : ∃ p ∈ heapAddresses t, ∃ m, cells p = some m ∧
      Placed cells (some p) none m.firstChild a n := by
  rw [← addresses_asForest] at ha ⊢
  rcases Holds.placed h ha hn with ⟨-, listed, -⟩ | found
  · rw [first_asForest] at listed
    cases hr : rootPtr t with
    | none => rw [hr] at listed; cases listed
    | some r =>
      rw [hr] at listed inner
      cases listed with
      | here => exact absurd rfl inner
      | next hm listed =>
        rw [(h.root hr hm).2.2] at listed
        cases listed
  · exact found

theorem HeapAt.previous (h : HeapAt cells t) (ha : a ∈ heapAddresses t) (hn : cells a = some n)
    {b : Address} (before : n.previousSibling = some b) :
    ∃ m, cells b = some m ∧ m.nextSibling = some a := by
  rw [← addresses_asForest] at ha
  have found : ∀ {p head}, Placed cells p none head a n →
      ∃ m, cells b = some m ∧ m.nextSibling = some a := by
    rintro p head ⟨-, -, ⟨none, -⟩ | ⟨b', m, previous, hm, next⟩⟩
    · cases none.symm.trans before
    · obtain rfl := Option.some.inj (previous.symm.trans before)
      exact ⟨m, hm, next⟩
  rcases Holds.placed h ha hn with placed | ⟨_, _, _, _, placed⟩
  · exact found placed
  · exact found placed

theorem HeapAt.wellLinked {less : T → T → Bool} (h : HeapAt cells t)
    (ordered : t.Ordered (lessEntry less)) (nodup : (heapAddresses t).Nodup) :
    WellLinked less cells (objectOf t) (heapAddresses t) := by
  have linked := fun b => linked_iff (a := b) h
  have forward := fun {b m} => @Holds.forward _ _ none none _ h b m
  rw [first_asForest, addresses_asForest] at linked
  rw [addresses_asForest] at forward
  have down : ∀ b ∈ heapAddresses t, ∀ c, Follows cells b c → ∃ m k, cells b = some m ∧
      cells c = some k ∧ (k.parent = some b ∧ k.previousSibling = none ∨
        k.previousSibling = some b) := by
    rintro b hb c ⟨m, hm, child | sibling⟩
    · obtain ⟨-, k, hk, back⟩ := (forward hb hm).1 c child
      exact ⟨m, k, hm, hk, .inl back⟩
    · obtain ⟨-, k, hk, -, back⟩ := (forward hb hm).2 c sibling
      exact ⟨m, k, hm, hk, .inr back⟩
  constructor
  case reached => exact fun b => (linked b).symm
  case inside =>
    intro b hb m c hm pointer
    rw [← addresses_asForest] at hb ⊢
    exact (Holds.inside h hb hm pointer).resolve_right (by simp)
  case distinct => exact nodup
  case counted => exact List.length_map ..
  case acyclic =>
    intro b hb
    rw [← addresses_asForest] at hb nodup
    exact Holds.acyclic h nodup hb
  case unshared =>
    intro b hb c hc d hbd hcd
    obtain ⟨-, k, -, hk, back⟩ := down b hb d hbd
    obtain ⟨-, k', -, hk', back'⟩ := down c hc d hcd
    obtain rfl := Option.some.inj (hk.symm.trans hk')
    rcases back with ⟨parent, none⟩ | previous <;> rcases back' with ⟨parent', none'⟩ | previous'
    · exact Option.some.inj (parent.symm.trans parent')
    · cases none.symm.trans previous'
    · cases none'.symm.trans previous
    · exact Option.some.inj (previous.symm.trans previous')
  case root => exact fun r m hr hm => h.root hr hm
  case parent =>
    intro b hb m hm inner
    obtain ⟨p, hp, k, hk, parent, listed, -⟩ := h.placed hb hm inner
    exact ⟨p, hp, k, parent, hk, listed⟩
  case children =>
    intro p hp m b k hm listed hk
    refine Holds.parent_of_listed h listed (fun c hc => ?_) hk
    obtain ⟨mem, l, hl, parent, -⟩ := (forward hp hm).1 c hc
    rw [addresses_asForest]
    exact ⟨mem, l, hl, parent⟩
  case siblings =>
    intro b hb c hc m k hm hk
    constructor
    · intro next
      obtain ⟨-, l, hl, -, previous⟩ := (forward hb hm).2 c next
      obtain rfl := Option.some.inj (hl.symm.trans hk)
      exact previous
    · intro previous
      obtain ⟨l, hl, next⟩ := h.previous hc hk previous
      obtain rfl := Option.some.inj (hl.symm.trans hm)
      exact next
  case firstChild =>
    intro b hb m hm inner
    constructor
    · intro none
      obtain ⟨p, hp, k, hk, -, -, ⟨-, head⟩ | ⟨_, _, previous, -⟩⟩ := h.placed hb hm inner
      · exact ⟨p, hp, k, hk, head⟩
      · cases none.symm.trans previous
    · rintro ⟨p, hp, k, hk, head⟩
      obtain ⟨-, l, hl, -, none⟩ := (forward hp hk).1 b head
      obtain rfl := Option.some.inj (hl.symm.trans hm)
      exact none
  case ordered =>
    intro b hb m p k hm hp hk
    rw [← addresses_asForest] at hb
    rcases Holds.not_outranked h (ordered_asForest.mpr ordered) hb hm with ⟨-, none⟩ | found
    · cases none.symm.trans hp
    · obtain ⟨p', k', hp', hk', below⟩ := found
      obtain rfl := Option.some.inj (hp'.symm.trans hp)
      obtain rfl := Option.some.inj (hk'.symm.trans hk)
      exact below

end Trees

section Runs
variable {T : Type} {cmp : Comparator T} [IsStrictWeakOrder T fun a b => cmp.less a b = true]

/-- After any sequence of calls the nodes of each heap are linked as a tree in heap order, and no
node is in two heaps. -/
theorem heaps_wellLinked (total : cmp.Total) (ops : List (HeapOp T))
    (legal : Legal cmp (Memory.empty T) ops) :
    let μ := (performAll cmp (Memory.empty T) ops).2
    (∀ i o, μ.heap i = some o → ∃ nodes, WellLinked cmp.less μ.node o nodes) ∧
      ∀ i j o o', i ≠ j → μ.heap i = some o → μ.heap j = some o' →
        ∀ a, Linked μ.node o.root a → ¬Linked μ.node o'.root a := by
  intro μ
  obtain ⟨B, -, S, hμ, -⟩ := run_simulates total simulates_empty legal
  have shape : ∀ i o, μ.heap i = some o → ∃ t, S i = some t ∧ objectOf t = o := by
    intro i o ho
    rw [hμ.object] at ho
    exact Option.map_eq_some_iff.mp ho
  constructor
  · intro i o ho
    obtain ⟨t, hi, rfl⟩ := shape i o ho
    exact ⟨_, (hμ.linked hi).wellLinked (hμ.ordered hi) (hμ.nodup hi)⟩
  · intro i j o o' hij ho ho' a ha ha'
    obtain ⟨t, hi, rfl⟩ := shape i o ho
    obtain ⟨t', hj, rfl⟩ := shape j o' ho'
    have mem := ((hμ.linked hi).wellLinked (hμ.ordered hi) (hμ.nodup hi)).reached a
    have mem' := ((hμ.linked hj).wellLinked (hμ.ordered hj) (hμ.nodup hj)).reached a
    exact hμ.apart hij hi hj (mem.mpr ha) (mem'.mpr ha')

end Runs

theorem twoHeaps_wellLinked :
    ∃ nodes, WellLinked largestFirst.less
      (performAll largestFirst (Memory.empty Nat) twoHeaps).2.node ⟨some 2, 1⟩ nodes :=
  (heaps_wellLinked (fun _ => rfl) twoHeaps twoHeaps_legal).1 0 _ rfl

end Yellowstone.Collections
