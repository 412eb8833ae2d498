import Yellowstone.Bus.Event
import Yellowstone.Library.Exec

/-!
# `Partition`

A partition is a sorted map of levels, each a list of events in insertion order, an index
from keys to list positions, and a counter. List nodes have an identity, so that an index
entry can be read as the iterator it is. Every call runs under the partition's mutex.
-/

set_option autoImplicit false

namespace Yellowstone

open Throwing

/-- Why a call did not return: it threw, or its behaviour is undefined. -/
inductive Failure where
  | thrown (e : Exn)
  | undefinedBehaviour
deriving DecidableEq, Repr

inductive PushResult where
  | inserted
  | coalesced
  | full
deriving DecidableEq, Repr

/-- What the merger leaves in the stored payload, and what it throws, if it throws. -/
abbrev Merger (Payload : Type) := Payload → Payload → Payload × Option Exn

def Merger.ofFun {Payload : Type} (merge : Payload → Payload → Payload) : Merger Payload :=
  fun current incoming => (merge current incoming, none)

/-- The identity of a list node, which is what an iterator holds. -/
abbrev Position := Nat

abbrev Level (Payload : Type) := List (Position × Event Payload)

structure Partition (Payload : Type) where
  capacity : Nat
  levels : List (Superstep × Level Payload)
  index : List (Key × Position)
  size : Nat
  nextPosition : Position
deriving DecidableEq, Repr

abbrev PartitionProg (Payload : Type) := Throwing Failure (Partition Payload)

/-- The statements of `push` that allocate or copy, and may throw for it. -/
inductive PushPoint where
  | level
  | append
  | index
deriving DecidableEq, Repr

namespace Partition
variable {Payload : Type}

/-- `Partition::Partition`; the merger is callable. -/
def construct (capacity : Nat) : Except Exn (Partition Payload) :=
  if capacity = 0 then throw (.invalidArgument "partition capacity must be greater than zero")
  else pure ⟨capacity, [], [], 0, 0⟩

/-- `m_levels[superstep]` for a superstep without a level: an empty one, in key order. -/
def openLevel (superstep : Superstep) :
    List (Superstep × Level Payload) → List (Superstep × Level Payload)
  | [] => [(superstep, [])]
  | (s, level) :: rest =>
    if superstep < s then (superstep, []) :: (s, level) :: rest
    else (s, level) :: openLevel superstep rest

def pushBack (superstep : Superstep) (node : Position × Event Payload)
    (levels : List (Superstep × Level Payload)) : List (Superstep × Level Payload) :=
  levels.map fun l => if l.1 = superstep then (l.1, l.2 ++ [node]) else l

/-- `found->second`: the event at a position, wherever its list node stands. -/
def nodeAt (p : Partition Payload) (position : Position) : Option (Event Payload) :=
  (p.levels.flatMap Prod.snd).lookup position

def storePayload (position : Position) (payload : Payload)
    (levels : List (Superstep × Level Payload)) : List (Superstep × Level Payload) :=
  levels.map fun l => (l.1, l.2.map fun node =>
    if node.1 = position then (node.1, { node.2 with payload }) else node)

def mayThrow (e : Option Exn) : PartitionProg Payload PUnit :=
  match e with
  | some e => throw (.thrown e)
  | none => pure ⟨⟩

/-- `Partition::can_accept`. -/
def canAccept (event : Event Payload) : PartitionProg Payload Bool := do
  let p ← get
  pure ((p.index.lookup event.key).isSome || decide (p.size < p.capacity))

/-- `Partition::push`, with the exception that each of its points throws, if any. -/
def push (merger : Merger Payload) (fault : PushPoint → Option Exn) (event : Event Payload) :
    PartitionProg Payload PushResult := do
  let key := event.key
  let p ← get
  match p.index.lookup key with
  | some position =>
    match p.nodeAt position with
    | none => throw .undefinedBehaviour
    | some stored => do
      let (payload, thrown) := merger stored.payload event.payload
      modify fun p => { p with levels := storePayload position payload p.levels }
      mayThrow thrown
      pure .coalesced
  | none =>
    if p.size ≥ p.capacity then pure .full
    else do
      if (p.levels.lookup event.superstep).isNone then
        mayThrow (fault .level)
        modify fun p => { p with levels := openLevel event.superstep p.levels }
      mayThrow (fault .append)
      let position := p.nextPosition
      modify fun p => { p with
        levels := pushBack event.superstep (position, event) p.levels
        nextPosition := position + 1 }
      mayThrow (fault .index)
      modify fun p => { p with index := (key, position) :: p.index }
      modify fun p => { p with size := p.size + 1 }
      pure .inserted

/-- `Partition::m_pop_locked`, which `pop` and `wait_pop_for` run under the lock. -/
def popLocked : PartitionProg Payload (Option (Event Payload)) := do
  let p ← get
  if p.size = 0 then pure none
  else match p.levels with
    | [] => throw .undefinedBehaviour
    | (_, []) :: _ => throw .undefinedBehaviour
    | (superstep, (_, event) :: level) :: levels => do
      let key := event.key
      modify fun p => { p with levels := (superstep, level) :: levels }
      modify fun p => { p with index := p.index.filter fun entry => entry.1 ≠ key }
      modify fun p => { p with size := p.size - 1 }
      if level = [] then modify fun p => { p with levels := levels }
      pure (some event)

/-- `Partition::empty`. -/
def empty : PartitionProg Payload Bool := do
  pure ((← get).size = 0)

end Partition

end Yellowstone
