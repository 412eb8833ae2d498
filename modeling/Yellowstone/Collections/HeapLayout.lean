import Yellowstone.Collections.PairingHeap
import Yellowstone.Library.PairingForest

/-!
# Which forest the links of a store describe

`Holds cells parent previous f` says that the nodes of the forest `f` are alive, carry its
values and are linked exactly as `f` is shaped. Everything an operation may disturb is
named by `addresses`; what lies outside is unchanged by `Holds.congr`.
-/

set_option autoImplicit false

namespace Yellowstone.Collections

open Throwing

/-- A value together with the address of the node that carries it. -/
abbrev Entry (T : Type) := Address × T

abbrev Cells (T : Type) := Address → Option (Node T)

section Layout
variable {T : Type}

def first : Forest (Entry T) → NodePtr
  | .nil => none
  | .node e _ _ => some e.1

def addresses (f : Forest (Entry T)) : List Address := f.values.map Prod.fst

def Holds (cells : Cells T) (parent previous : NodePtr) : Forest (Entry T) → Prop
  | .nil => True
  | .node e cs ss =>
    cells e.1 = some ⟨e.2, parent, previous, first cs, first ss⟩ ∧
    Holds cells (some e.1) none cs ∧ Holds cells parent (some e.1) ss

@[simp] theorem first_nil : first (.nil : Forest (Entry T)) = none := rfl

@[simp] theorem first_node (e : Entry T) (cs ss : Forest (Entry T)) :
    first (.node e cs ss) = some e.1 := rfl

@[simp] theorem addresses_nil : addresses (.nil : Forest (Entry T)) = [] := rfl

@[simp] theorem addresses_node (e : Entry T) (cs ss : Forest (Entry T)) :
    addresses (.node e cs ss) = e.1 :: (addresses cs ++ addresses ss) := by
  simp [addresses]

@[simp] theorem holds_nil (cells : Cells T) (p q : NodePtr) : Holds cells p q .nil := trivial

@[simp] theorem holds_node (cells : Cells T) (p q : NodePtr) (e : Entry T)
    (cs ss : Forest (Entry T)) :
    Holds cells p q (.node e cs ss) ↔
      cells e.1 = some ⟨e.2, p, q, first cs, first ss⟩ ∧
      Holds cells (some e.1) none cs ∧ Holds cells p (some e.1) ss := Iff.rfl

theorem Holds.congr {cells cells' : Cells T} {p q : NodePtr} {f : Forest (Entry T)}
    (h : Holds cells p q f) (same : ∀ a ∈ addresses f, cells' a = cells a) :
    Holds cells' p q f := by
  induction f generalizing p q with
  | nil => trivial
  | node e cs ss ihc ihs =>
    simp only [addresses_node, List.mem_cons, List.mem_append] at same
    exact ⟨(same e.1 (.inl rfl)).trans h.1, ihc h.2.1 fun a ha => same a (.inr (.inl ha)),
      ihs h.2.2 fun a ha => same a (.inr (.inr ha))⟩

/-- The links determine the forest. -/
theorem Holds.unique {cells : Cells T} {p q p' q' : NodePtr} {f g : Forest (Entry T)}
    (hf : Holds cells p q f) (hg : Holds cells p' q' g) (same : first f = first g) : f = g := by
  induction f generalizing p q p' q' g with
  | nil =>
    cases g with
    | nil => rfl
    | node e' cs' ss' => cases same
  | node e cs ss ihc ihs =>
    cases g with
    | nil => cases same
    | node e' cs' ss' =>
      obtain ⟨he, hcs, hss⟩ := hf
      obtain ⟨he', hcs', hss'⟩ := hg
      have address : e.1 = e'.1 := Option.some.inj same
      rw [address, he'] at he
      simp only [Option.some.injEq, Node.mk.injEq] at he
      obtain ⟨value, -, -, child, sibling⟩ := he
      rw [ihc hcs hcs' child.symm, ihs hss hss' sibling.symm, Prod.ext address value.symm]

theorem Holds.alive {cells : Cells T} {p q : NodePtr} {f : Forest (Entry T)}
    (h : Holds cells p q f) {e : Entry T} (he : e ∈ f.values) :
    ∃ n, cells e.1 = some n ∧ n.value = e.2 := by
  induction f generalizing p q with
  | nil => simp at he
  | node v cs ss ihc ihs =>
    simp only [Forest.values_node, List.mem_cons, List.mem_append] at he
    rcases he with rfl | he | he
    · exact ⟨_, h.1, rfl⟩
    · exact ihc h.2.1 he
    · exact ihs h.2.2 he

/-- Only the first root records its previous sibling. -/
theorem Holds.setPrevious {cells cells' : Cells T} {p q q' : NodePtr} {f : Forest (Entry T)}
    (h : Holds cells p q f) (nodup : (addresses f).Nodup)
    (head : ∀ a n, first f = some a → cells a = some n →
      cells' a = some { n with previousSibling := q' })
    (same : ∀ a ∈ addresses f, first f ≠ some a → cells' a = cells a) :
    Holds cells' p q' f := by
  cases f with
  | nil => trivial
  | node e cs ss =>
    simp only [addresses_node, List.nodup_cons, List.mem_append, not_or] at nodup
    simp only [addresses_node, List.mem_cons, List.mem_append, first_node] at same
    refine ⟨head e.1 _ rfl h.1, h.2.1.congr ?_, h.2.2.congr ?_⟩
    · intro a ha
      exact same a (.inr (.inl ha)) fun he => nodup.1.1 (Option.some.inj he ▸ ha)
    · intro a ha
      exact same a (.inr (.inr ha)) fun he => nodup.1.2 (Option.some.inj he ▸ ha)

end Layout

/-! ## Heaps -/

section Heaps
variable {T : Type}

def lessEntry (less : T → T → Bool) (a b : Entry T) : Bool := less a.2 b.2

instance (less : T → T → Bool) [IsStrictWeakOrder T fun a b => less a b = true] :
    IsStrictWeakOrder (Entry T) fun a b => lessEntry less a b = true :=
  inferInstanceAs (IsStrictWeakOrder _ (Order.Preimage Prod.snd fun a b => less a b = true))

def rootPtr : TreeHeap (Entry T) → NodePtr
  | none => none
  | some t => some t.value.1

def heapAddresses (h : TreeHeap (Entry T)) : List Address := h.values.map Prod.fst

/-- The tree of a heap, seen as a forest of one root. -/
def asForest : TreeHeap (Entry T) → Forest (Entry T)
  | none => .nil
  | some t => .node t.value t.children .nil

/-- The root has null parent and sibling links and the tree below it is linked. -/
def HeapAt (cells : Cells T) (h : TreeHeap (Entry T)) : Prop := Holds cells none none (asForest h)

@[simp] theorem first_asForest (h : TreeHeap (Entry T)) : first (asForest h) = rootPtr h := by
  cases h <;> rfl

@[simp] theorem addresses_asForest (h : TreeHeap (Entry T)) :
    addresses (asForest h) = heapAddresses h := by
  cases h <;> simp [asForest, heapAddresses, HeapTree.values, addresses]

@[simp] theorem values_asForest (h : TreeHeap (Entry T)) : (asForest h).values = h.values := by
  cases h <;> simp [asForest, HeapTree.values]

@[simp] theorem heapAddresses_none : heapAddresses (none : TreeHeap (Entry T)) = [] := rfl

@[simp] theorem heapAddresses_some (t : HeapTree (Entry T)) :
    heapAddresses (some t) = t.value.1 :: addresses t.children := rfl

theorem heapAt_none (cells : Cells T) : HeapAt cells none := trivial

theorem heapAt_some (cells : Cells T) (t : HeapTree (Entry T)) :
    HeapAt cells (some t) ↔
      cells t.value.1 = some ⟨t.value.2, none, none, first t.children, none⟩ ∧
      Holds cells (some t.value.1) none t.children := by
  simp [HeapAt, asForest]

theorem HeapAt.unique {cells : Cells T} {g h : TreeHeap (Entry T)} (hg : HeapAt cells g)
    (hh : HeapAt cells h) (same : rootPtr g = rootPtr h) : g = h := by
  have forests : asForest g = asForest h := Holds.unique hg hh (by simpa using same)
  cases g with
  | none =>
    cases h with
    | none => rfl
    | some t => cases forests
  | some s =>
    cases h with
    | none => cases forests
    | some t =>
      obtain ⟨value, children⟩ := s
      cases forests
      rfl

theorem HeapAt.congr {cells cells' : Cells T} {h : TreeHeap (Entry T)} (hh : HeapAt cells h)
    (same : ∀ a ∈ heapAddresses h, cells' a = cells a) : HeapAt cells' h :=
  Holds.congr hh (by simpa using same)

end Heaps

end Yellowstone.Collections
