import Yellowstone.Library.Exec

/-!
# The node store and the code of `PairingHeap`

Nodes live at addresses and heap objects under identifiers; a null pointer is `none`.
What a program wrote before it threw stays written. `invalidAccess` is a dereference of
null or of a dead node, and `unfinished` a loop that has run more rounds than there were
ever nodes: the source has neither, and both are shown unreachable.
-/

set_option autoImplicit false

namespace Yellowstone.Collections

abbrev Address := Nat

/-- `Node*`. -/
abbrev NodePtr := Option Address

structure Node (T : Type) where
  value : T
  parent : NodePtr := none
  previousSibling : NodePtr := none
  firstChild : NodePtr := none
  nextSibling : NodePtr := none
deriving DecidableEq, Repr

/-- The members of one `PairingHeap` object. -/
structure HeapObject where
  root : NodePtr := none
  size : Nat := 0
deriving DecidableEq, Repr

abbrev HeapId := Nat

inductive HeapError where
  | outOfRange (what : String)
  | invalidArgument (what : String)
  | logicError (what : String)
  | comparatorThrew
  | invalidAccess
  | unfinished
deriving DecidableEq, Repr

structure Memory (T : Type) where
  node : Address → Option (Node T)
  /-- No address from here on was ever handed out. -/
  fresh : Address
  heap : HeapId → Option HeapObject
  comparisons : Nat

def Memory.empty (T : Type) : Memory T := ⟨fun _ => none, 0, fun _ => none, 0⟩

/-- `Compare`: what it answers, and at which of its calls it throws instead. -/
structure Comparator (T : Type) where
  less : T → T → Bool
  throwsAt : Nat → Bool

abbrev HeapProg (T : Type) := Throwing HeapError (Memory T)

section Store
variable {T : Type}

def Memory.write (μ : Memory T) (a : Address) (n : Node T) : Memory T :=
  { μ with node := Function.update μ.node a (some n) }

def Memory.erase (μ : Memory T) (a : Address) : Memory T :=
  { μ with node := Function.update μ.node a none }

def Memory.setHeap (μ : Memory T) (i : HeapId) (h : Option HeapObject) : Memory T :=
  { μ with heap := Function.update μ.heap i h }

def load (p : NodePtr) : HeapProg T (Node T) := do
  match p.bind (← get).node with
  | some n => pure n
  | none => throw .invalidAccess

/-- Writes fields of the node at `p`. -/
def update (p : NodePtr) (f : Node T → Node T) : HeapProg T PUnit :=
  match p with
  | none => throw .invalidAccess
  | some a => do
    let n ← load (some a)
    modify fun μ => μ.write a (f n)

def allocate (value : T) : HeapProg T Address := do
  let μ ← get
  set { μ.write μ.fresh { value } with fresh := μ.fresh + 1 }
  pure μ.fresh

def deallocate (a : Address) : HeapProg T PUnit := do
  let _ ← load (some a)
  modify fun μ => μ.erase a

def object (this : HeapId) : HeapProg T HeapObject := do
  match (← get).heap this with
  | some h => pure h
  | none => throw .invalidAccess

/-- Writes members of a heap object, or starts its lifetime. -/
def setObject (this : HeapId) (h : HeapObject) : HeapProg T PUnit :=
  modify fun μ => μ.setHeap this (some h)

def endObject (this : HeapId) : HeapProg T PUnit :=
  modify fun μ => μ.setHeap this none

def compare (cmp : Comparator T) (lhs rhs : T) : HeapProg T Bool := do
  let call := (← get).comparisons
  modify fun μ => { μ with comparisons := call + 1 }
  if cmp.throwsAt call then throw .comparatorThrew
  else pure (cmp.less lhs rhs)

end Store

namespace PairingHeap
variable {T : Type} (cmp : Comparator T)

def clearLinks (p : NodePtr) : HeapProg T PUnit := do
  update p fun n => { n with parent := none }
  update p fun n => { n with previousSibling := none }
  update p fun n => { n with nextSibling := none }

/-- `if (p != nullptr) p->previous_sibling = q`, which five of the functions below end in. -/
def setPrevious (p q : NodePtr) : HeapProg T PUnit :=
  if p ≠ none then update p fun n => { n with previousSibling := q } else pure ⟨⟩

/-- The link writes of `meld_nodes` once `lhs` is known to be the new root. -/
def linkChild (lhs rhs : Address) : HeapProg T NodePtr := do
  clearLinks (some lhs)
  update (some rhs) fun n => { n with parent := some lhs }
  update (some rhs) fun n => { n with previousSibling := none }
  let child := (← load (some lhs)).firstChild
  update (some rhs) fun n => { n with nextSibling := child }
  setPrevious child (some rhs)
  update (some lhs) fun n => { n with firstChild := some rhs }
  pure (some lhs)

/-- `PairingHeap::meld_nodes`. -/
def meldNodes : NodePtr → NodePtr → HeapProg T NodePtr
  | none, rhs => pure rhs
  | some lhs, none => pure (some lhs)
  | some lhs, some rhs => do
    let l ← load (some lhs)
    let r ← load (some rhs)
    -- the root that compares before the other has the lower priority
    if ← compare cmp l.value r.value then linkChild rhs lhs else linkChild lhs rhs

/-- Puts `merged` in front of the reversed list of paired roots. -/
def prependPaired (merged pairedRoots : NodePtr) : HeapProg T PUnit := do
  update merged fun n => { n with nextSibling := pairedRoots }
  setPrevious pairedRoots merged

/-- First loop of `combine_children`; a round without fuel stands for an endless loop. -/
def pairAdjacent : Nat → (pairedRoots current : NodePtr) → HeapProg T NodePtr
  | _, pairedRoots, none => pure pairedRoots
  | 0, _, some _ => throw .unfinished
  | rounds + 1, pairedRoots, some first => do
    let second := (← load (some first)).nextSibling
    let next ← match second with
      | none => pure none
      | some s => do pure (← load (some s)).nextSibling
    clearLinks (some first)
    let merged ← match second with
      | none => pure (some first)
      | some s => do
        clearLinks (some s)
        meldNodes cmp (some first) (some s)
    prependPaired merged pairedRoots
    pairAdjacent rounds merged next

/-- Second loop of `combine_children`. -/
def meldRoots : Nat → (result current : NodePtr) → HeapProg T NodePtr
  | _, result, none => pure result
  | 0, _, some _ => throw .unfinished
  | rounds + 1, result, some current => do
    let next := (← load (some current)).nextSibling
    clearLinks (some current)
    setPrevious next none
    let result ← meldNodes cmp (some current) result
    meldRoots rounds result next

/-- `PairingHeap::combine_children`. -/
def combineChildren (firstChild : NodePtr) : HeapProg T NodePtr := do
  let rounds := (← get).fresh
  let pairedRoots ← pairAdjacent cmp rounds none firstChild
  meldRoots cmp rounds none pairedRoots

/-- `PairingHeap::detach_from_parent`. -/
def detachFromParent (node : Address) : HeapProg T PUnit := do
  let n ← load (some node)
  if n.parent = none then return
  if n.previousSibling ≠ none then
    update n.previousSibling fun m => { m with nextSibling := n.nextSibling }
  else
    update n.parent fun m => { m with firstChild := n.nextSibling }
  setPrevious n.nextSibling n.previousSibling
  clearLinks (some node)

/-- Loop of `destroy_tree`. -/
def destroyLoop : Nat → (current : NodePtr) → HeapProg T PUnit
  | _, none => pure ()
  | 0, some _ => throw .unfinished
  | rounds + 1, some current => do
    let n ← load (some current)
    match n.firstChild with
    | some child => do
      let c ← load (some child)
      update (some current) fun m => { m with firstChild := c.nextSibling }
      setPrevious c.nextSibling none
      update (some child) fun m => { m with parent := none }
      update (some child) fun m => { m with previousSibling := none }
      update (some child) fun m => { m with nextSibling := some current }
      destroyLoop rounds (some child)
    | none => do
      deallocate current
      destroyLoop rounds n.nextSibling

/-- `PairingHeap::destroy_tree`: each node enters the chain once and leaves it once. -/
def destroyTree (root : NodePtr) : HeapProg T PUnit := do
  let rounds := 2 * (← get).fresh
  destroyLoop rounds root

/-- `PairingHeap::PairingHeap(compare)`. -/
def construct (this : HeapId) : HeapProg T PUnit := setObject this {}

/-- `PairingHeap::clear`. -/
def clear (this : HeapId) : HeapProg T PUnit := do
  destroyTree (← object this).root
  setObject this {}

/-- `PairingHeap::emplace`, behind both overloads of `push`. -/
def emplace (this : HeapId) (value : T) : HeapProg T NodePtr := do
  let node ← allocate value
  let h ← object this
  let root ← tryCatch (meldNodes cmp h.root (some node)) fun e => do
    deallocate node
    throw e
  setObject this { h with root := root, size := h.size + 1 }
  pure (some node)

/-- The loop of the range constructor. -/
def emplaceAll (this : HeapId) : List T → HeapProg T PUnit
  | [] => pure ()
  | v :: vs => do
    let _ ← emplace cmp this v
    emplaceAll this vs

/-- `PairingHeap::PairingHeap(first, last, compare)`: a throw leaves no object behind. -/
def constructRange (this : HeapId) (values : List T) : HeapProg T PUnit := do
  construct this
  tryCatch (emplaceAll cmp this values) fun e => do
    clear this
    endObject this
    throw e

/-- `PairingHeap::~PairingHeap`. -/
def destruct (this : HeapId) : HeapProg T PUnit := do
  clear this
  endObject this

/-- `PairingHeap::PairingHeap(PairingHeap&&)`. -/
def moveConstruct (this other : HeapId) : HeapProg T PUnit := do
  let h ← object other
  setObject other {}
  setObject this h

/-- `PairingHeap::operator=(PairingHeap&&)`. -/
def moveAssign (this other : HeapId) : HeapProg T PUnit := do
  if this = other then return
  clear this
  let h ← object other
  setObject other {}
  setObject this h

/-- `PairingHeap::size`. -/
def size (this : HeapId) : HeapProg T Nat := do
  pure (← object this).size

/-- `PairingHeap::empty`. -/
def empty (this : HeapId) : HeapProg T Bool := do
  pure ((← object this).root = none)

/-- `PairingHeap::top`. -/
def top (this : HeapId) : HeapProg T T := do
  match (← object this).root with
  | none => throw (.outOfRange "PairingHeap::top() called on an empty heap.")
  | some r => do pure (← load (some r)).value

/-- `PairingHeap::pop`. -/
def pop (this : HeapId) : HeapProg T PUnit := do
  let h ← object this
  match h.root with
  | none => throw (.outOfRange "PairingHeap::pop() called on an empty heap.")
  | some oldRoot => do
    let children := (← load (some oldRoot)).firstChild
    update (some oldRoot) fun n => { n with firstChild := none }
    let root ← combineChildren cmp children
    setObject this { h with root := root }
    deallocate oldRoot
    setObject this { h with root := root, size := h.size - 1 }

/-- `PairingHeap::extract_top`. -/
def extractTop (this : HeapId) : HeapProg T T := do
  match (← object this).root with
  | none => throw (.outOfRange "PairingHeap::extract_top() called on an empty heap.")
  | some r => do
    let result := (← load (some r)).value
    pop cmp this
    pure result

/-- `PairingHeap::meld`. -/
def meld (this other : HeapId) : HeapProg T PUnit := do
  let h ← object this
  let o ← object other
  if this = other ∨ o.root = none then return
  let root ← meldNodes cmp h.root o.root
  setObject this { h with root := root, size := h.size + o.size }
  setObject other {}

/-- `PairingHeap::increase_priority`. -/
def increasePriority (this : HeapId) (handle : NodePtr) (newValue : T) : HeapProg T PUnit := do
  match handle with
  | none =>
    throw (.invalidArgument "PairingHeap::increase_priority() received an empty handle.")
  | some node => do
    let old ← load (some node)
    if ← compare cmp newValue old.value then
      throw (.invalidArgument "The replacement value would lower the node's priority.")
    update (some node) fun n => { n with value := newValue }
    let h ← object this
    if some node = h.root ∨ old.parent = none then return
    let parent ← load old.parent
    if ← compare cmp parent.value newValue then
      detachFromParent node
      let root ← meldNodes cmp h.root (some node)
      setObject this { h with root := root }

/-- `PairingHeap::swap`. -/
def swap (this other : HeapId) : HeapProg T PUnit := do
  let h ← object this
  let o ← object other
  setObject this o
  setObject other h

/-- `Handle::value`. -/
def handleValue (handle : NodePtr) : HeapProg T T := do
  match handle with
  | none => throw (.logicError "The pairing-heap handle is empty.")
  | some node => do pure (← load (some node)).value

end PairingHeap

end Yellowstone.Collections
