import Mathlib.Data.Multiset.MapFold
import Yellowstone.Library.PairingForest

/-!
# Multisets with a chosen top

What a priority queue is for: a multiset of values, one of which is shown as the top. An
empty bag shows nothing, any other bag a value that no value in it outranks. Which of
several such values is shown is left open; a heap in order represents one choice.
-/

set_option autoImplicit false

universe u

structure PriorityBag {α : Type u} (less : α → α → Bool) where
  content : Multiset α
  top : Option α
  top_eq_none : top = none ↔ content = 0
  top_mem : ∀ v, top = some v → v ∈ content
  top_best : ∀ v, top = some v → ∀ w ∈ content, less v w = false

namespace PriorityBag
variable {α : Type u} {less : α → α → Bool}

def empty : PriorityBag less where
  content := 0
  top := none
  top_eq_none := by simp
  top_mem := nofun
  top_best := nofun

/-- The bag whose values the heap holds and whose top is the heap's root. -/
def Represents (h : TreeHeap α) (b : PriorityBag less) : Prop :=
  b.content = h.values ∧ b.top = h.top

theorem represents_empty : Represents none (empty : PriorityBag less) := ⟨rfl, rfl⟩

theorem exists_represents [IsStrictWeakOrder α fun a b => less a b = true] {h : TreeHeap α}
    (ordered : h.Ordered less) : ∃ b : PriorityBag less, Represents h b := by
  refine ⟨⟨h.values, h.top, ?_, ?_, ?_⟩, rfl, rfl⟩
  · rw [TreeHeap.top_eq_none, Multiset.coe_eq_zero]
  · intro v hv
    cases h with
    | none => cases hv
    | some t => cases hv; simp [HeapTree.values]
  · intro v hv w hw
    exact TreeHeap.top_not_outranked ordered hv w (by simpa using hw)

end PriorityBag
