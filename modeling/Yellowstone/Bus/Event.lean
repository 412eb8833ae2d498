import Mathlib.Init

/-!
# Events

The event that the bus transports, the key under which partitions coalesce, and the
exceptions that calls may end in.
-/

set_option autoImplicit false

namespace Yellowstone

/-- The range of `std::uint64_t` and of `std::size_t`. -/
abbrev wordSize : Nat := UInt64.size

/-- Identifiers are only compared, so their width plays no role. -/
abbrev EventId := Nat

abbrev Superstep := Nat

abbrev Sequence := Nat

abbrev SubscriberId := Nat

/-- The id that a loop from 0 upwards finds free is the least free one. -/
theorem least_vacant {α : Type} {slots : List (Option α)} {id : SubscriberId}
    (found : slots.findIdx? Option.isNone = some id) :
    slots[id]? = some none ∧ ∀ j < id, ∃ x, slots[j]? = some (some x) := by
  obtain ⟨inside, free, before⟩ := List.findIdx?_eq_some_iff_getElem.mp found
  constructor
  · rw [List.getElem?_eq_getElem inside]
    exact congrArg some (Option.isNone_iff_eq_none.mp free)
  · intro j below
    have occupied := before j below
    rw [Option.isNone_iff_eq_none, ← ne_eq, Option.ne_none_iff_exists'] at occupied
    obtain ⟨x, same⟩ := occupied
    exact ⟨x, by rw [List.getElem?_eq_getElem (Nat.lt_trans below inside), same]⟩

inductive Exn where
  | overflowError (what : String)
  | invalidArgument (what : String)
  | outOfRange (what : String)
  | lengthError (what : String)
  | logicError (what : String)
  | badAlloc
  | user (tag : Nat)
deriving DecidableEq, Repr

structure Event (Payload : Type) where
  id : EventId
  superstep : Superstep
  sequence : Sequence
  payload : Payload
deriving DecidableEq, Repr

structure Key where
  id : EventId
  superstep : Superstep
deriving DecidableEq, Repr

/-- `Partition::m_key`. -/
def Event.key {Payload : Type} (event : Event Payload) : Key := ⟨event.id, event.superstep⟩

end Yellowstone
