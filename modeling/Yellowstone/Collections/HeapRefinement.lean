import Yellowstone.Collections.HeapIncrease
import Yellowstone.Library.PriorityBag

/-!
# `PairingHeap` refines a multiset priority queue

A program makes calls on any number of heaps that share one `Compare`. The specification
keeps a bag of handle and value pairs for each heap that is alive and says which results a
call may have. Every sequence of legal calls has results that the specification allows.
-/

set_option autoImplicit false

namespace Yellowstone.Collections

open Throwing

section Program
variable {T : Type}

/-- A call. `push` stands for `emplace` as well, which both overloads of `push` forward to. -/
inductive HeapOp (T : Type) where
  | construct (this : HeapId)
  | constructRange (this : HeapId) (values : List T)
  | moveConstruct (this other : HeapId)
  | moveAssign (this other : HeapId)
  | destruct (this : HeapId)
  | size (this : HeapId)
  | empty (this : HeapId)
  | top (this : HeapId)
  | push (this : HeapId) (value : T)
  | pop (this : HeapId)
  | extractTop (this : HeapId)
  | meld (this other : HeapId)
  | increasePriority (this : HeapId) (handle : NodePtr) (newValue : T)
  | clear (this : HeapId)
  | swap (this other : HeapId)
  | handleValue (handle : NodePtr)
deriving DecidableEq, Repr

inductive HeapOut (T : Type) where
  | done
  | handle (node : NodePtr)
  | value (value : T)
  | count (count : Nat)
  | flag (flag : Bool)
deriving DecidableEq, Repr

abbrev HeapResult (T : Type) := Except HeapError (HeapOut T)

def perform (cmp : Comparator T) : HeapOp T → HeapProg T (HeapOut T)
  | .construct this => (fun _ => .done) <$> PairingHeap.construct this
  | .constructRange this values => (fun _ => .done) <$> PairingHeap.constructRange cmp this values
  | .moveConstruct this other => (fun _ => .done) <$> PairingHeap.moveConstruct this other
  | .moveAssign this other => (fun _ => .done) <$> PairingHeap.moveAssign this other
  | .destruct this => (fun _ => .done) <$> PairingHeap.destruct this
  | .size this => .count <$> PairingHeap.size this
  | .empty this => .flag <$> PairingHeap.empty this
  | .top this => .value <$> PairingHeap.top this
  | .push this value => .handle <$> PairingHeap.emplace cmp this value
  | .pop this => (fun _ => .done) <$> PairingHeap.pop cmp this
  | .extractTop this => .value <$> PairingHeap.extractTop cmp this
  | .meld this other => (fun _ => .done) <$> PairingHeap.meld cmp this other
  | .increasePriority this handle newValue =>
    (fun _ => .done) <$> PairingHeap.increasePriority cmp this handle newValue
  | .clear this => (fun _ => .done) <$> PairingHeap.clear this
  | .swap this other => (fun _ => .done) <$> PairingHeap.swap this other
  | .handleValue handle => .value <$> PairingHeap.handleValue handle

/-- Following child and sibling links from a pointer arrives at the node. -/
inductive Linked (cells : Cells T) : NodePtr → Address → Prop
  | here {a : Address} {n : Node T} : cells a = some n → Linked cells (some a) a
  | child {a b : Address} {n : Node T} :
    cells a = some n → Linked cells n.firstChild b → Linked cells (some a) b
  | sibling {a b : Address} {n : Node T} :
    cells a = some n → Linked cells n.nextSibling b → Linked cells (some a) b

/-- The handle's node is alive and belongs to this heap. -/
def NodeOf (μ : Memory T) (this : HeapId) (node : Address) : Prop :=
  ∃ o, μ.heap this = some o ∧ Linked μ.node o.root node

/-- Objects are constructed before they are used, and handles are empty or name live nodes. -/
def Admissible (μ : Memory T) : HeapOp T → Prop
  | .construct this | .constructRange this _ => μ.heap this = none
  | .moveConstruct this other => μ.heap this = none ∧ μ.heap other ≠ none
  | .moveAssign this other | .meld this other | .swap this other =>
    μ.heap this ≠ none ∧ μ.heap other ≠ none
  | .destruct this | .size this | .empty this | .top this | .push this _ | .pop this
  | .extractTop this | .clear this => μ.heap this ≠ none
  | .increasePriority this none _ => μ.heap this ≠ none
  | .increasePriority this (some node) _ => NodeOf μ this node
  | .handleValue none => True
  | .handleValue (some node) => ∃ this, NodeOf μ this node

/-- The results of a sequence of calls, and the store they leave. -/
def performAll (cmp : Comparator T) : Memory T → List (HeapOp T) → List (HeapResult T) × Memory T
  | μ, [] => ([], μ)
  | μ, op :: ops =>
    let (r, μ₁) := exec (perform cmp op) μ
    let (rs, μ₂) := performAll cmp μ₁ ops
    (r :: rs, μ₂)

def Legal (cmp : Comparator T) : Memory T → List (HeapOp T) → Prop
  | _, [] => True
  | μ, op :: ops => Admissible μ op ∧ Legal cmp (exec (perform cmp op) μ).2 ops

end Program

/-! ## The specification -/

section Specification
variable {T : Type} {less : T → T → Bool}

/-- The bag of each heap that is alive. -/
abbrev Bags (less : T → T → Bool) := HeapId → Option (PriorityBag (lessEntry less))

def Unused (B : Bags less) (node : Address) : Prop :=
  ∀ i b, B i = some b → ∀ e ∈ b.content, e.1 ≠ node

/-- Which results a call may have, and the bags it may leave. -/
def Spec (B : Bags less) : HeapOp T → HeapResult T → Bags less → Prop
  | .construct i, r, B' => r = .ok .done ∧ B' = Function.update B i (some .empty)
  | .constructRange i values, r, B' => r = .ok .done ∧
    ∃ b, b.content.map Prod.snd = (values : Multiset T) ∧ (∀ e ∈ b.content, Unused B e.1) ∧
      B' = Function.update B i (some b)
  | .moveConstruct i j, r, B' => r = .ok .done ∧
    ∃ c, B j = some c ∧ B' = Function.update (Function.update B i (some c)) j (some .empty)
  | .moveAssign i j, r, B' => r = .ok .done ∧
    if i = j then B' = B
    else ∃ c, B j = some c ∧ B' = Function.update (Function.update B i (some c)) j (some .empty)
  | .destruct i, r, B' => r = .ok .done ∧ B' = Function.update B i none
  | .size i, r, B' => B' = B ∧ ∃ b, B i = some b ∧ r = .ok (.count b.content.card)
  | .empty i, r, B' => B' = B ∧ ∃ b, B i = some b ∧ r = .ok (.flag (decide (b.content.card = 0)))
  | .top i, r, B' => B' = B ∧ ∃ b, B i = some b ∧
    match b.top with
    | none => r = .error (.outOfRange "PairingHeap::top() called on an empty heap.")
    | some e => r = .ok (.value e.2)
  | .push i v, r, B' => ∃ b node, B i = some b ∧ Unused B node ∧ r = .ok (.handle (some node)) ∧
    ∃ b', b'.content = (node, v) ::ₘ b.content ∧ B' = Function.update B i (some b')
  | .pop i, r, B' => ∃ b, B i = some b ∧
    match b.top with
    | none => r = .error (.outOfRange "PairingHeap::pop() called on an empty heap.") ∧ B' = B
    | some e => r = .ok .done ∧
      ∃ b', b.content = e ::ₘ b'.content ∧ B' = Function.update B i (some b')
  | .extractTop i, r, B' => ∃ b, B i = some b ∧
    match b.top with
    | none =>
      r = .error (.outOfRange "PairingHeap::extract_top() called on an empty heap.") ∧ B' = B
    | some e => r = .ok (.value e.2) ∧
      ∃ b', b.content = e ::ₘ b'.content ∧ B' = Function.update B i (some b')
  | .meld i j, r, B' => r = .ok .done ∧
    if i = j then B' = B
    else ∃ b c b', B i = some b ∧ B j = some c ∧ b'.content = b.content + c.content ∧
      B' = Function.update (Function.update B j (some .empty)) i (some b')
  | .increasePriority _ none _, r, B' => B' = B ∧
    r = .error (.invalidArgument "PairingHeap::increase_priority() received an empty handle.")
  | .increasePriority i (some node) v, r, B' => ∃ b old rest, B i = some b ∧
    b.content = (node, old) ::ₘ rest ∧
    if less v old then B' = B ∧
      r = .error (.invalidArgument "The replacement value would lower the node's priority.")
    else r = .ok .done ∧
      ∃ b', b'.content = (node, v) ::ₘ rest ∧ B' = Function.update B i (some b')
  | .clear i, r, B' => r = .ok .done ∧ B' = Function.update B i (some .empty)
  | .swap i j, r, B' => r = .ok .done ∧
    ∃ b c, B i = some b ∧ B j = some c ∧
      B' = Function.update (Function.update B i (some c)) j (some b)
  | .handleValue none, r, B' => B' = B ∧
    r = .error (.logicError "The pairing-heap handle is empty.")
  | .handleValue (some node), r, B' => B' = B ∧
    ∃ i b v, B i = some b ∧ (node, v) ∈ b.content ∧ r = .ok (.value v)

/-- A sequence of calls and results that the specification allows. -/
inductive Explains : Bags less → List (HeapOp T) → List (HeapResult T) → Bags less → Prop
  | nil (B : Bags less) : Explains B [] [] B
  | cons {B B₁ B₂ : Bags less} {op : HeapOp T} {r : HeapResult T} {ops : List (HeapOp T)}
    {rs : List (HeapResult T)} :
    Spec B op r B₁ → Explains B₁ ops rs B₂ → Explains B (op :: ops) (r :: rs) B₂

end Specification

/-! ## Simulation -/

theorem linked_iff {T : Type} {cells : Cells T} {p q : NodePtr} {f : Forest (Entry T)}
    {a : Address} (h : Holds cells p q f) : Linked cells (first f) a ↔ a ∈ addresses f := by
  induction f generalizing p q with
  | nil => simpa using fun hl => by cases hl
  | node e cs ss ihc ihs =>
    obtain ⟨he, hcs, hss⟩ := h
    simp only [first_node, addresses_node, List.mem_cons, List.mem_append, ← ihc hcs, ← ihs hss]
    constructor
    · intro hl
      cases hl with
      | here hn => exact .inl rfl
      | child hn hl => rw [he] at hn; cases hn; exact .inr (.inl hl)
      | sibling hn hl => rw [he] at hn; cases hn; exact .inr (.inr hl)
    · rintro (rfl | hl | hl)
      · exact .here he
      · exact .child he hl
      · exact .sibling he hl

section Simulation
variable {T : Type} {less : T → T → Bool} {μ μ' : Memory T} {S : Shapes T} {B : Bags less}

/-- Each heap that is alive has a tree that represents its bag. -/
def Agree (S : Shapes T) (B : Bags less) : Prop :=
  ∀ i, Option.Rel PriorityBag.Represents (S i) (B i)

def Simulates (μ : Memory T) (B : Bags less) : Prop := ∃ S, Shaped less μ S ∧ Agree S B

theorem simulates_empty :
    Simulates (Memory.empty T) fun _ => (none : Option (PriorityBag (lessEntry less))) :=
  ⟨_, shaped_empty less, fun _ => .none⟩

theorem Agree.update (agree : Agree S B) (i : HeapId) {s : Option (TreeHeap (Entry T))}
    {b : Option (PriorityBag (lessEntry less))} (h : Option.Rel PriorityBag.Represents s b) :
    Agree (Function.update S i s) (Function.update B i b) := by
  intro k
  by_cases hk : k = i
  · subst hk; simpa using h
  · simpa [hk] using agree k

theorem Agree.bag (agree : Agree S B) {i : HeapId} {h : TreeHeap (Entry T)} (hi : S i = some h) :
    ∃ b, B i = some b ∧ b.content = h.values ∧ b.top = h.top := by
  have rel := agree i
  rw [hi] at rel
  cases hb : B i with
  | none => rw [hb] at rel; cases rel
  | some b => rw [hb] at rel; cases rel with | some hr => exact ⟨b, rfl, hr⟩

theorem Shaped.heap_of_ne (hμ : Shaped less μ S) {i : HeapId} (hi : μ.heap i ≠ none) :
    ∃ h, S i = some h := by
  refine Option.ne_none_iff_exists'.mp fun hS => hi ?_
  rw [hμ.object, hS]
  rfl

theorem Shaped.none_of_heap (hμ : Shaped less μ S) {i : HeapId} (hi : μ.heap i = none) :
    S i = none := by
  simpa [hμ.object] using hi

theorem Shaped.entry_of_node (hμ : Shaped less μ S) {i : HeapId} {a : Address}
    (ha : NodeOf μ i a) : ∃ h v, S i = some h ∧ (a, v) ∈ h.values := by
  obtain ⟨o, ho, hl⟩ := ha
  rw [hμ.object] at ho
  obtain ⟨h, hi, rfl⟩ := Option.map_eq_some_iff.mp ho
  have mem := (linked_iff (hμ.linked hi)).mp (by simpa [objectOf] using hl)
  simp only [addresses_asForest, heapAddresses, List.mem_map, Prod.exists, exists_and_right,
    exists_eq_right] at mem
  obtain ⟨v, hv⟩ := mem
  exact ⟨h, v, hi, hv⟩

theorem Agree.unused (agree : Agree S B) (hμ : Shaped less μ S) {a : Address}
    (ha : μ.fresh ≤ a) : Unused B a := by
  intro i b hb e he hea
  have rel := agree i
  rw [hb] at rel
  cases hS : S i with
  | none => rw [hS] at rel; cases rel
  | some h =>
    rw [hS] at rel
    cases rel with
    | some hr =>
      have mem : e ∈ h.values := by simpa [hr.1] using he
      have issued := hμ.issued hS e.1 (List.mem_map.mpr ⟨e, mem, rfl⟩)
      exact (hea ▸ issued).not_ge ha

/-- One heap gets a new tree; its bag follows. -/
theorem Simulates.update [IsStrictWeakOrder T fun a b => less a b = true] {i : HeapId}
    {h : TreeHeap (Entry T)} (hμ : Shaped less μ (Function.update S i (some h)))
    (agree : Agree S B) :
    ∃ b : PriorityBag (lessEntry less), b.content = h.values ∧
      Simulates μ (Function.update B i (some b)) := by
  obtain ⟨b, hb⟩ := PriorityBag.exists_represents (hμ.ordered (Function.update_self ..))
  exact ⟨b, hb.1, _, hμ, agree.update i (.some hb)⟩

end Simulation

section Steps
variable {T : Type} {cmp : Comparator T} {μ : Memory T} {S : Shapes T} {B : Bags cmp.less}

theorem exec_done {α β : Type} {x : HeapProg T α} {f : α → β} {a : α} {μ' : Memory T}
    (h : exec x μ = (.ok a, μ')) : exec (f <$> x) μ = (.ok (f a), μ') := by
  simp [h]

theorem exec_failed {α β : Type} {x : HeapProg T α} {f : α → β} {e : HeapError} {μ' : Memory T}
    (h : exec x μ = (.error e, μ')) : exec (f <$> x) μ = (.error e, μ') := by
  simp [h]

variable [IsStrictWeakOrder T fun a b => cmp.less a b = true]

theorem emplaceAll_spec (total : cmp.Total) {i : HeapId} {h : TreeHeap (Entry T)}
    (hμ : Shaped cmp.less μ S) (hi : S i = some h) (values : List T) :
    ∃ μ' h' es, exec (PairingHeap.emplaceAll cmp i values) μ = (.ok ⟨⟩, μ') ∧
      Shaped cmp.less μ' (Function.update S i (some h')) ∧ h'.values.Perm (es ++ h.values) ∧
      es.map Prod.snd = values.reverse ∧ ∀ e ∈ es, μ.fresh ≤ e.1 := by
  induction values generalizing μ S h with
  | nil =>
    exact ⟨μ, h, [], rfl, by rwa [Function.update_eq_self_iff.mpr hi.symm], .refl _, rfl, nofun⟩
  | cons v vs ih =>
    obtain ⟨μ₁, run₁, fresh₁, hμ₁⟩ := PairingHeap.emplace_spec total hμ hi v
    obtain ⟨μ₂, h', es, run₂, hμ₂, perm, snd, fresh₂⟩ := ih hμ₁ (Function.update_self ..)
    refine ⟨μ₂, h', es ++ [(μ.fresh, v)], ?_, by simpa using hμ₂, ?_, by simp [snd], ?_⟩
    · rw [PairingHeap.emplaceAll, exec_bind_of_ok run₁, run₂]
    · have pushed := TreeHeap.values_push (lessEntry cmp.less) h (μ.fresh, v)
      simpa using perm.trans (pushed.append_left es)
    · intro e he
      rcases List.mem_append.mp he with he | he
      · exact ((Nat.le_succ μ.fresh).trans fresh₁.ge).trans (fresh₂ e he)
      · simp_all

/-- Removing the top, shared by `pop` and `extract_top`. -/
theorem remove_top {i : HeapId} {t : HeapTree (Entry T)} {μ' : Memory T} (agree : Agree S B)
    (hi : S i = some (some t)) (hμ' : Shaped cmp.less μ' (Function.update S i
      (some (TreeHeap.pairs (lessEntry cmp.less) t.children)))) :
    ∃ b, B i = some b ∧ b.top = some t.value ∧
      ∃ b', b.content = t.value ::ₘ b'.content ∧ Simulates μ' (Function.update B i (some b')) := by
  obtain ⟨b, hb, content, top⟩ := agree.bag hi
  obtain ⟨b', content', sim⟩ := Simulates.update hμ' agree
  refine ⟨b, hb, top, b', ?_, sim⟩
  rw [content, content', Multiset.cons_coe, Multiset.coe_eq_coe]
  exact ((TreeHeap.values_pairs (lessEntry cmp.less) t.children).cons t.value).symm

theorem step_pop (total : cmp.Total) {i : HeapId} (hμ : Shaped cmp.less μ S) (agree : Agree S B)
    (alive : μ.heap i ≠ none) :
    ∃ B', Spec B (.pop i) (exec (perform cmp (.pop i)) μ).1 B' ∧
      Simulates (exec (perform cmp (.pop i)) μ).2 B' := by
  obtain ⟨h, hi⟩ := hμ.heap_of_ne alive
  cases h with
  | none =>
    obtain ⟨b, hb, -, top⟩ := agree.bag hi
    rw [perform, exec_failed (PairingHeap.pop_empty hμ hi)]
    exact ⟨B, ⟨b, hb, by rw [top]; exact ⟨rfl, rfl⟩⟩, S, hμ, agree⟩
  | some t =>
    obtain ⟨μ', run, hμ'⟩ := PairingHeap.pop_spec total hμ hi
    obtain ⟨b, hb, top, b', content, sim⟩ := remove_top agree hi hμ'
    rw [perform, exec_done run]
    exact ⟨_, ⟨b, hb, by rw [top]; exact ⟨rfl, b', content, rfl⟩⟩, sim⟩

theorem step_extractTop (total : cmp.Total) {i : HeapId} (hμ : Shaped cmp.less μ S)
    (agree : Agree S B) (alive : μ.heap i ≠ none) :
    ∃ B', Spec B (.extractTop i) (exec (perform cmp (.extractTop i)) μ).1 B' ∧
      Simulates (exec (perform cmp (.extractTop i)) μ).2 B' := by
  obtain ⟨h, hi⟩ := hμ.heap_of_ne alive
  cases h with
  | none =>
    obtain ⟨b, hb, -, top⟩ := agree.bag hi
    rw [perform, exec_failed (PairingHeap.extractTop_empty hμ hi)]
    exact ⟨B, ⟨b, hb, by rw [top]; exact ⟨rfl, rfl⟩⟩, S, hμ, agree⟩
  | some t =>
    obtain ⟨μ', run, hμ'⟩ := PairingHeap.extractTop_spec total hμ hi
    obtain ⟨b, hb, top, b', content, sim⟩ := remove_top agree hi hμ'
    rw [perform, exec_done run]
    exact ⟨_, ⟨b, hb, by rw [top]; exact ⟨rfl, b', content, rfl⟩⟩, sim⟩

theorem step_increasePriority (total : cmp.Total) {i : HeapId} {node : Address} {v : T}
    (hμ : Shaped cmp.less μ S) (agree : Agree S B) (alive : NodeOf μ i node) :
    ∃ B', Spec B (.increasePriority i (some node) v)
        (exec (perform cmp (.increasePriority i (some node) v)) μ).1 B' ∧
      Simulates (exec (perform cmp (.increasePriority i (some node) v)) μ).2 B' := by
  obtain ⟨h, old, hi, hp⟩ := hμ.entry_of_node alive
  obtain ⟨b, hb, content, -⟩ := agree.bag hi
  obtain ⟨rest, split, replaced⟩ := perm_raiseAt (v := v) (hμ.nodup hi) hp
  have content' : b.content = (node, old) ::ₘ ↑rest := by
    rw [content, Multiset.cons_coe, Multiset.coe_eq_coe]
    exact split
  cases lower : cmp.less v old with
  | true =>
    obtain ⟨μ', run, hμ'⟩ := PairingHeap.increasePriority_lower total hμ hi hp lower
    rw [perform, exec_failed run]
    exact ⟨B, ⟨b, old, rest, hb, content', by simp [lower]⟩, S, hμ', agree⟩
  | false =>
    obtain ⟨μ', h', run, hμ', perm⟩ := PairingHeap.increasePriority_spec total hμ hi hp lower
    obtain ⟨b', hb', sim⟩ := Simulates.update hμ' agree
    rw [perform, exec_done run]
    refine ⟨_, ⟨b, old, rest, hb, content', ?_⟩, sim⟩
    rw [if_neg (by simp [lower])]
    refine ⟨rfl, b', ?_, rfl⟩
    rw [hb', Multiset.cons_coe, Multiset.coe_eq_coe]
    exact perm.trans replaced

theorem step_meld (total : cmp.Total) {i j : HeapId} (hμ : Shaped cmp.less μ S)
    (agree : Agree S B) (alive : μ.heap i ≠ none ∧ μ.heap j ≠ none) :
    ∃ B', Spec B (.meld i j) (exec (perform cmp (.meld i j)) μ).1 B' ∧
      Simulates (exec (perform cmp (.meld i j)) μ).2 B' := by
  obtain ⟨h, hi⟩ := hμ.heap_of_ne alive.1
  obtain ⟨g, hj⟩ := hμ.heap_of_ne alive.2
  by_cases hij : i = j
  · subst hij
    rw [perform, exec_done (PairingHeap.meld_self hμ hi)]
    exact ⟨B, ⟨rfl, by simp⟩, S, hμ, agree⟩
  · obtain ⟨b, hb, content, -⟩ := agree.bag hi
    obtain ⟨c, hc, content', -⟩ := agree.bag hj
    obtain ⟨μ', run, hμ'⟩ := PairingHeap.meld_spec total hμ hij hi hj
    obtain ⟨b', hb', sim⟩ := Simulates.update hμ'
      (agree.update j (.some PriorityBag.represents_empty))
    rw [perform, exec_done run]
    refine ⟨_, ⟨rfl, ?_⟩, sim⟩
    rw [if_neg hij]
    refine ⟨b, c, b', hb, hc, ?_, rfl⟩
    rw [hb', content, content', Multiset.coe_add, Multiset.coe_eq_coe]
    exact TreeHeap.values_meld (lessEntry cmp.less) h g

omit [IsStrictWeakOrder T fun a b => cmp.less a b = true] in
theorem step_move {i j : HeapId} {h g : TreeHeap (Entry T)} {μ' : Memory T} (agree : Agree S B)
    (hj : S j = some g) (hμ' : Shaped cmp.less μ'
      (Function.update (Function.update S i (some g)) j (some h)))
    {b : PriorityBag (lessEntry cmp.less)}
    (hb : PriorityBag.Represents h b) :
    ∃ c, B j = some c ∧
      Simulates μ' (Function.update (Function.update B i (some c)) j (some b)) := by
  obtain ⟨c, hc, rep⟩ := agree.bag hj
  exact ⟨c, hc, _, hμ', (agree.update i (.some rep)).update j (.some hb)⟩

theorem step_constructRange (total : cmp.Total) {i : HeapId} {values : List T}
    (hμ : Shaped cmp.less μ S) (agree : Agree S B) :
    ∃ B', Spec B (.constructRange i values) (exec (perform cmp (.constructRange i values)) μ).1 B' ∧
      Simulates (exec (perform cmp (.constructRange i values)) μ).2 B' := by
  obtain ⟨constructed, hμ₁⟩ := PairingHeap.construct_spec (i := i) hμ
  obtain ⟨μ', h', es, run, hμ', perm, snd, fresh⟩ :=
    emplaceAll_spec total hμ₁ (Function.update_self ..) values
  rw [Function.update_idem] at hμ'
  obtain ⟨b, hb, sim⟩ := Simulates.update hμ' agree
  have all : exec (PairingHeap.constructRange cmp i values) μ = (.ok ⟨⟩, μ') := by
    rw [PairingHeap.constructRange, exec_bind_of_ok constructed, exec_tryCatch, run]
  simp only [TreeHeap.values_none, List.append_nil] at perm
  rw [perform, exec_done all]
  refine ⟨_, ⟨rfl, b, ?_, fun e he => agree.unused hμ (fresh e ?_), rfl⟩, sim⟩
  · rw [hb, Multiset.map_coe, Multiset.coe_eq_coe]
    exact (perm.map Prod.snd).trans (snd ▸ values.reverse_perm)
  · exact perm.mem_iff.mp (by simpa [hb] using he)

/-- Every call has a result that the specification allows and leaves bags that it allows. -/
theorem step_simulates (total : cmp.Total) {op : HeapOp T} (sim : Simulates μ B)
    (legal : Admissible μ op) :
    ∃ B', Spec B op (exec (perform cmp op) μ).1 B' ∧
      Simulates (exec (perform cmp op) μ).2 B' := by
  obtain ⟨S, hμ, agree⟩ := sim
  cases op with
  | construct i =>
    obtain ⟨run, hμ'⟩ := PairingHeap.construct_spec (i := i) hμ
    rw [perform, exec_done run]
    exact ⟨_, ⟨rfl, rfl⟩, _, hμ', agree.update i (.some PriorityBag.represents_empty)⟩
  | constructRange i values => exact step_constructRange total hμ agree
  | moveConstruct i j =>
    obtain ⟨g, hj⟩ := hμ.heap_of_ne legal.2
    obtain ⟨μ', run, hμ'⟩ := PairingHeap.moveConstruct_spec hμ (hμ.none_of_heap legal.1) hj
    obtain ⟨c, hc, sim⟩ := step_move agree hj hμ' PriorityBag.represents_empty
    rw [perform, exec_done run]
    exact ⟨_, ⟨rfl, c, hc, rfl⟩, sim⟩
  | moveAssign i j =>
    obtain ⟨h, hi⟩ := hμ.heap_of_ne legal.1
    obtain ⟨g, hj⟩ := hμ.heap_of_ne legal.2
    by_cases hij : i = j
    · subst hij
      rw [perform, exec_done (PairingHeap.moveAssign_self i)]
      exact ⟨B, ⟨rfl, by simp⟩, S, hμ, agree⟩
    · obtain ⟨μ', run, hμ'⟩ := PairingHeap.moveAssign_spec hμ hij hi hj
      obtain ⟨c, hc, sim⟩ := step_move agree hj hμ' PriorityBag.represents_empty
      rw [perform, exec_done run]
      exact ⟨_, ⟨rfl, by rw [if_neg hij]; exact ⟨c, hc, rfl⟩⟩, sim⟩
  | destruct i =>
    obtain ⟨h, hi⟩ := hμ.heap_of_ne legal
    obtain ⟨μ', run, hμ'⟩ := PairingHeap.destruct_spec hμ hi
    rw [perform, exec_done run]
    exact ⟨_, ⟨rfl, rfl⟩, _, hμ', agree.update i .none⟩
  | size i =>
    obtain ⟨h, hi⟩ := hμ.heap_of_ne legal
    obtain ⟨b, hb, content, -⟩ := agree.bag hi
    rw [perform, exec_done (PairingHeap.size_spec hμ hi)]
    exact ⟨B, ⟨rfl, b, hb, by simp [content]⟩, S, hμ, agree⟩
  | empty i =>
    obtain ⟨h, hi⟩ := hμ.heap_of_ne legal
    obtain ⟨b, hb, content, -⟩ := agree.bag hi
    rw [perform, exec_done (PairingHeap.empty_spec hμ hi)]
    exact ⟨B, ⟨rfl, b, hb, by simp [content]⟩, S, hμ, agree⟩
  | top i =>
    obtain ⟨h, hi⟩ := hμ.heap_of_ne legal
    obtain ⟨b, hb, -, top⟩ := agree.bag hi
    cases h with
    | none =>
      rw [perform, exec_failed (PairingHeap.top_empty hμ hi)]
      exact ⟨B, ⟨rfl, b, hb, by rw [top]; rfl⟩, S, hμ, agree⟩
    | some t =>
      rw [perform, exec_done (PairingHeap.top_spec hμ hi)]
      exact ⟨B, ⟨rfl, b, hb, by rw [top]; rfl⟩, S, hμ, agree⟩
  | push i v =>
    obtain ⟨h, hi⟩ := hμ.heap_of_ne legal
    obtain ⟨b, hb, content, -⟩ := agree.bag hi
    obtain ⟨μ', run, -, hμ'⟩ := PairingHeap.emplace_spec total hμ hi v
    obtain ⟨b', hb', sim⟩ := Simulates.update hμ' agree
    rw [perform, exec_done run]
    refine ⟨_, ⟨b, μ.fresh, hb, agree.unused hμ le_rfl, rfl, b', ?_, rfl⟩, sim⟩
    rw [hb', content, Multiset.cons_coe, Multiset.coe_eq_coe]
    exact TreeHeap.values_push (lessEntry cmp.less) h (μ.fresh, v)
  | pop i => exact step_pop total hμ agree legal
  | extractTop i => exact step_extractTop total hμ agree legal
  | meld i j => exact step_meld total hμ agree legal
  | increasePriority i handle v =>
    cases handle with
    | none =>
      rw [perform, exec_failed (PairingHeap.increasePriority_empty i v)]
      exact ⟨B, ⟨rfl, rfl⟩, S, hμ, agree⟩
    | some node => exact step_increasePriority total hμ agree legal
  | clear i =>
    obtain ⟨h, hi⟩ := hμ.heap_of_ne legal
    obtain ⟨μ', run, hμ', -⟩ := PairingHeap.clear_spec hμ hi
    rw [perform, exec_done run]
    exact ⟨_, ⟨rfl, rfl⟩, _, hμ', agree.update i (.some PriorityBag.represents_empty)⟩
  | swap i j =>
    obtain ⟨h, hi⟩ := hμ.heap_of_ne legal.1
    obtain ⟨g, hj⟩ := hμ.heap_of_ne legal.2
    obtain ⟨b, hb, rep⟩ := agree.bag hi
    obtain ⟨μ', run, hμ'⟩ := PairingHeap.swap_spec hμ hi hj
    obtain ⟨c, hc, sim⟩ := step_move agree hj hμ' rep
    rw [perform, exec_done run]
    exact ⟨_, ⟨rfl, b, c, hb, hc, rfl⟩, sim⟩
  | handleValue handle =>
    cases handle with
    | none => exact ⟨B, ⟨rfl, rfl⟩, S, hμ, agree⟩
    | some node =>
      obtain ⟨i, owner⟩ := legal
      obtain ⟨h, v, hi, hp⟩ := hμ.entry_of_node owner
      obtain ⟨b, hb, content, -⟩ := agree.bag hi
      rw [perform, exec_done (PairingHeap.handleValue_spec hμ hi hp)]
      exact ⟨B, ⟨rfl, i, b, v, hb, by simpa [content] using hp, rfl⟩, S, hμ, agree⟩

theorem run_simulates (total : cmp.Total) {ops : List (HeapOp T)} (sim : Simulates μ B)
    (legal : Legal cmp μ ops) :
    ∃ B', Explains B ops (performAll cmp μ ops).1 B' ∧
      Simulates (performAll cmp μ ops).2 B' := by
  induction ops generalizing μ B with
  | nil => exact ⟨B, .nil B, sim⟩
  | cons op ops ih =>
    obtain ⟨B₁, spec, sim₁⟩ := step_simulates total sim legal.1
    obtain ⟨B₂, explains, sim₂⟩ := ih sim₁ legal.2
    exact ⟨B₂, .cons spec explains, sim₂⟩

/-- Any sequence of calls on heaps that start out nonexistent is explained by bags. -/
theorem pairingHeap_refines_bags (total : cmp.Total) (ops : List (HeapOp T))
    (legal : Legal cmp (Memory.empty T) ops) :
    ∃ B : Bags cmp.less,
      Explains (fun _ => none) ops (performAll cmp (Memory.empty T) ops).1 B := by
  obtain ⟨B, explains, -⟩ := run_simulates total simulates_empty legal
  exact ⟨B, explains⟩

end Steps

/-- Larger numbers first, never throwing. -/
def largestFirst : Comparator Nat := ⟨fun a b => decide (a < b), fun _ => false⟩

instance : IsStrictWeakOrder Nat fun a b => largestFirst.less a b = true := by
  refine { irrefl := ?_, trans := ?_, incomp_trans := ?_ } <;>
    simp only [largestFirst, decide_eq_true_eq] <;> omega

/-- Two heaps with ties, melded; a child is raised past the root and the rest drained. -/
def twoHeaps : List (HeapOp Nat) :=
  [.constructRange 0 [4, 7], .construct 1, .push 1 7, .meld 0 1, .meld 0 0,
    .increasePriority 0 (some 0) 9, .top 0, .pop 0, .extractTop 0, .size 0, .pop 1]

theorem twoHeaps_legal : Legal largestFirst (Memory.empty Nat) twoHeaps := by
  refine ⟨rfl, rfl, nofun, ⟨nofun, nofun⟩, ⟨nofun, nofun⟩, ⟨_, rfl, ?_⟩, nofun, nofun, nofun, nofun,
    nofun, trivial⟩
  exact .child rfl (.sibling rfl (.here rfl))

theorem twoHeaps_refine_bags :
    (performAll largestFirst (Memory.empty Nat) twoHeaps).1 =
        [.ok .done, .ok .done, .ok (.handle (some 2)), .ok .done, .ok .done, .ok .done,
          .ok (.value 9), .ok .done, .ok (.value 7), .ok (.count 1),
          .error (.outOfRange "PairingHeap::pop() called on an empty heap.")] ∧
      ∃ B : Bags largestFirst.less, Explains (fun _ => none) twoHeaps
        (performAll largestFirst (Memory.empty Nat) twoHeaps).1 B :=
  ⟨rfl, pairingHeap_refines_bags (fun _ => rfl) twoHeaps twoHeaps_legal⟩

end Yellowstone.Collections
