import Mathlib.Algebra.BigOperators.Fin
import Mathlib.Algebra.Order.BigOperators.Group.Finset
import Mathlib.Data.Fintype.BigOperators

/-!
# Counting threads by where they are

A program counter for each of finitely many threads. How many stand at places of a kind, and
what all of them still have to do, changes only through the threads that move.
-/

set_option autoImplicit false

universe u v

namespace Threads
variable {ι : Type u} {κ : Type v} [Fintype ι]

/-- The sum over the threads of a weight of their places. -/
def total (weight : κ → Nat) (place : ι → κ) : Nat := ∑ i, weight (place i)

/-- How many threads are at a place of a kind. -/
def howMany (p : κ → Bool) (place : ι → κ) : Nat := ∑ i, (p (place i)).toNat

variable {weight : κ → Nat} {p q : κ → Bool} {place : ι → κ}

theorem total_update [DecidableEq ι] (weight : κ → Nat) (place : ι → κ) (i : ι) (x : κ) :
    total weight (Function.update place i x) + weight (place i) =
      total weight place + weight x := by
  have moved : (fun j => weight (Function.update place i x j)) =
      Function.update (fun j => weight (place j)) i (weight x) := by
    funext j
    by_cases here : j = i
    · simp [here]
    · simp [here]
  have split := Finset.add_sum_erase Finset.univ (fun j => weight (place j)) (Finset.mem_univ i)
  rw [total, total, moved, Finset.sum_update_of_mem (Finset.mem_univ i),
    Finset.sdiff_singleton_eq_erase]
  omega

theorem total_le {bound : Nat} (each : ∀ x, weight x ≤ bound) :
    total weight place ≤ bound * Fintype.card ι := by
  have sum := Finset.sum_le_card_nsmul Finset.univ (fun i => weight (place i)) bound
    fun i _ => each (place i)
  simpa [total, Nat.mul_comm] using sum

theorem howMany_update [DecidableEq ι] (p : κ → Bool) (place : ι → κ) (i : ι) (x : κ) :
    howMany p (Function.update place i x) + (p (place i)).toNat =
      howMany p place + (p x).toNat :=
  total_update (fun y => (p y).toNat) place i x

theorem howMany_eq_zero : howMany p place = 0 ↔ ∀ i, p (place i) = false := by
  simp [howMany]

theorem howMany_pos : 0 < howMany p place ↔ ∃ i, p (place i) = true := by
  rw [Nat.pos_iff_ne_zero, Ne, howMany_eq_zero]
  simp

end Threads
