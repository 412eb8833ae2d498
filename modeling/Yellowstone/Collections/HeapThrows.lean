import Yellowstone.Collections.HeapLoops

/-!
# A comparator that throws

`meld_nodes` compares before it writes, so `push` and `meld` leave every heap as it was. `pop`
gives up the child list before it compares, and `increase_priority` has stored the new value,
and perhaps cut the node out, before its later comparisons.
-/

set_option autoImplicit false

namespace Yellowstone.Collections

open Throwing

/-! ## What a program can reach -/

section Confinement
variable {T α β : Type} {A : Set Address}

def Inside (A : Set Address) (p : NodePtr) : Prop := ∀ a, p = some a → a ∈ A

/-- The links down the tree. -/
def Node.LeadsInto (A : Set Address) (n : Node T) : Prop :=
  Inside A n.firstChild ∧ Inside A n.nextSibling

def Closed (A : Set Address) (cells : Cells T) : Prop :=
  ∀ a ∈ A, ∀ n, cells a = some n → n.LeadsInto A

/-- However the program ends, it has written to nodes of the set only, and no link leads out. -/
def Confined (A : Set Address) (x : HeapProg T α) (result : α → Prop) : Prop :=
  ∀ μ, Closed A μ.node → Closed A (exec x μ).2.node ∧
    (∀ a, a ∉ A → (exec x μ).2.node a = μ.node a) ∧ (exec x μ).2.heap = μ.heap ∧
    ∀ v, (exec x μ).1 = .ok v → result v

theorem inside_none : Inside A none := nofun

theorem inside_some {a : Address} (ha : a ∈ A) : Inside A (some a) := by
  rintro _ ⟨⟩
  exact ha

theorem confined_pure {v : α} {result : α → Prop} (h : result v) :
    Confined A (pure v : HeapProg T α) result := by
  intro μ closed
  refine ⟨closed, fun _ _ => rfl, rfl, ?_⟩
  rintro _ ⟨⟩
  exact h

theorem confined_throw {e : HeapError} {result : α → Prop} :
    Confined A (throw e : HeapProg T α) result :=
  fun _ closed => ⟨closed, fun _ _ => rfl, rfl, nofun⟩

theorem confined_bind {x : HeapProg T α} {f : α → HeapProg T β} {mid : α → Prop}
    {result : β → Prop} (hx : Confined A x mid) (hf : ∀ v, mid v → Confined A (f v) result) :
    Confined A (x >>= f) result := by
  intro μ closed
  obtain ⟨closed₁, node₁, heap₁, value⟩ := hx μ closed
  rw [exec_bind]
  rcases hr : exec x μ with ⟨e | v, μ₁⟩
  · rw [hr] at closed₁ node₁ heap₁
    exact ⟨closed₁, node₁, heap₁, nofun⟩
  · rw [hr] at closed₁ node₁ heap₁ value
    obtain ⟨closed₂, node₂, heap₂, value₂⟩ := hf v (value v rfl) μ₁ closed₁
    exact ⟨closed₂, fun a ha => (node₂ a ha).trans (node₁ a ha), heap₂.trans heap₁, value₂⟩

theorem confined_get : Confined A (get : HeapProg T (Memory T)) fun _ => True :=
  fun _ closed => ⟨closed, fun _ _ => rfl, rfl, fun _ _ => trivial⟩

theorem confined_load {p : NodePtr} (hp : Inside A p) :
    Confined A (load p : HeapProg T (Node T)) (Node.LeadsInto A) := by
  intro μ closed
  cases p with
  | none => exact confined_throw μ closed
  | some a =>
    cases ha : μ.node a with
    | none =>
      have run : exec (load (some a)) μ = (.error .invalidAccess, μ) := by
        simp [load, exec_bind, ha]
      rw [run]
      exact ⟨closed, fun _ _ => rfl, rfl, by simp⟩
    | some n =>
      rw [exec_load ha]
      refine ⟨closed, fun _ _ => rfl, rfl, ?_⟩
      rintro _ ⟨⟩
      exact closed a (hp a rfl) n ha

theorem confined_update {p : NodePtr} (hp : Inside A p) {f : Node T → Node T}
    (keeps : ∀ n, n.LeadsInto A → (f n).LeadsInto A) :
    Confined A (update p f) fun _ => True := by
  cases p with
  | none => exact confined_throw
  | some a =>
    apply confined_bind (confined_load hp)
    intro n hn μ closed
    refine ⟨?_, ?_, rfl, fun _ _ => trivial⟩
    · intro b hb m hm
      simp only [exec_modify, node_write] at hm
      split at hm
      · cases hm
        exact keeps n hn
      · exact closed b hb m hm
    · intro b hb
      have : b ≠ a := by
        rintro rfl
        exact hb (hp b rfl)
      simp [this]

theorem confined_compare {cmp : Comparator T} {x y : T} :
    Confined A (compare cmp x y) fun _ => True := by
  intro μ closed
  cases answer : cmp.throwsAt μ.comparisons with
  | true =>
    rw [compare_throws answer]
    exact ⟨closed, fun _ _ => rfl, rfl, nofun⟩
  | false =>
    rw [compare_answers answer]
    exact ⟨closed, fun _ _ => rfl, rfl, fun _ _ => trivial⟩

end Confinement

namespace PairingHeap
variable {T : Type} {A : Set Address} {cmp : Comparator T}

theorem confined_clearLinks {p : NodePtr} (hp : Inside A p) :
    Confined A (clearLinks p : HeapProg T PUnit) fun _ => True := by
  refine confined_bind (confined_update hp fun n hn => hn) ?_
  intro _ _
  refine confined_bind (confined_update hp fun n hn => hn) ?_
  intro _ _
  exact confined_update hp fun n hn => ⟨hn.1, inside_none⟩

theorem confined_setPrevious {p q : NodePtr} (hp : Inside A p) :
    Confined A (setPrevious p q : HeapProg T PUnit) fun _ => True := by
  unfold setPrevious
  split
  · exact confined_update hp fun n hn => hn
  · exact confined_pure trivial

theorem confined_linkChild {lhs rhs : Address} (hl : lhs ∈ A) (hr : rhs ∈ A) :
    Confined A (linkChild lhs rhs : HeapProg T NodePtr) (Inside A) := by
  have left := inside_some hl
  have right := inside_some hr
  apply confined_bind (confined_clearLinks left)
  intro _ _
  refine confined_bind (confined_update right fun n hn => hn) ?_
  intro _ _
  refine confined_bind (confined_update right fun n hn => hn) ?_
  intro _ _
  apply confined_bind (confined_load left)
  intro l hl
  refine confined_bind (confined_update right fun n hn => ⟨hn.1, hl.1⟩) ?_
  intro _ _
  apply confined_bind (confined_setPrevious hl.1)
  intro _ _
  refine confined_bind (confined_update left fun n hn => ⟨right, hn.2⟩) ?_
  intro _ _
  exact confined_pure left

theorem confined_meldNodes {p q : NodePtr} (hp : Inside A p) (hq : Inside A q) :
    Confined A (meldNodes cmp p q) (Inside A) := by
  cases p with
  | none => exact confined_pure hq
  | some l =>
    cases q with
    | none => exact confined_pure hp
    | some r =>
      apply confined_bind (confined_load hp)
      intro _ _
      apply confined_bind (confined_load hq)
      intro _ _
      apply confined_bind confined_compare
      intro less _
      split
      · exact confined_linkChild (hq r rfl) (hp l rfl)
      · exact confined_linkChild (hp l rfl) (hq r rfl)

theorem confined_prependPaired {p q : NodePtr} (hp : Inside A p) (hq : Inside A q) :
    Confined A (prependPaired p q : HeapProg T PUnit) fun _ => True := by
  refine confined_bind (confined_update hp fun n hn => ⟨hn.1, hq⟩) ?_
  intro _ _
  exact confined_setPrevious hq

theorem confined_pairAdjacent (rounds : Nat) {paired current : NodePtr} (hp : Inside A paired)
    (hc : Inside A current) : Confined A (pairAdjacent cmp rounds paired current) (Inside A) := by
  induction rounds generalizing paired current with
  | zero =>
    cases current with
    | none => exact confined_pure hp
    | some first => exact confined_throw
  | succ rounds ih =>
    cases current with
    | none => exact confined_pure hp
    | some first =>
      apply confined_bind (confined_load hc)
      intro n hn
      cases second : n.nextSibling with
      | none =>
        simp only [pure_bind]
        apply confined_bind (confined_clearLinks hc)
        intro _ _
        apply confined_bind (confined_prependPaired hc hp)
        intro _ _
        exact ih hc inside_none
      | some s =>
        have hs : Inside A (some s) := second ▸ hn.2
        simp only [pure_bind]
        apply confined_bind (confined_load hs)
        intro m hm
        apply confined_bind (confined_clearLinks hc)
        intro _ _
        apply confined_bind (confined_clearLinks hs)
        intro _ _
        apply confined_bind (confined_meldNodes hc hs)
        intro merged hmerged
        apply confined_bind (confined_prependPaired hmerged hp)
        intro _ _
        exact ih hmerged hm.2

theorem confined_meldRoots (rounds : Nat) {result current : NodePtr} (hr : Inside A result)
    (hc : Inside A current) : Confined A (meldRoots cmp rounds result current) (Inside A) := by
  induction rounds generalizing result current with
  | zero =>
    cases current with
    | none => exact confined_pure hr
    | some root => exact confined_throw
  | succ rounds ih =>
    cases current with
    | none => exact confined_pure hr
    | some root =>
      apply confined_bind (confined_load hc)
      intro n hn
      apply confined_bind (confined_clearLinks hc)
      intro _ _
      apply confined_bind (confined_setPrevious hn.2)
      intro _ _
      apply confined_bind (confined_meldNodes hc hr)
      intro merged hmerged
      exact ih hmerged hn.2

variable (cmp) in
theorem confined_combineChildren {p : NodePtr} (hp : Inside A p) :
    Confined A (combineChildren cmp p) (Inside A) := by
  apply confined_bind confined_get
  intro μ _
  apply confined_bind (confined_pairAdjacent μ.fresh inside_none hp)
  intro paired hpaired
  exact confined_meldRoots μ.fresh inside_none hpaired

end PairingHeap

/-! ## What a heap has kept -/

section Kept
variable {T : Type} {less : T → T → Bool} {μ : Memory T} {S S' : Shapes T} {i : HeapId}
  {h : TreeHeap (Entry T)}

/-- Each heap has the values that it had, in some order. -/
def SameValues (S S' : Shapes T) : Prop :=
  ∀ i, Option.Rel (fun h h' => (h.values.map Prod.snd).Perm (h'.values.map Prod.snd)) (S i) (S' i)

/-- The heaps are linked, in heap order and counted, and none has gained or lost a value. -/
def Intact (less : T → T → Bool) (S : Shapes T) (μ : Memory T) : Prop :=
  ∃ S', Shaped less μ S' ∧ SameValues S S'

theorem Shaped.intact (hμ : Shaped less μ S) : Intact less S μ := by
  refine ⟨S, hμ, ?_⟩
  intro i
  cases S i with
  | none => exact .none
  | some h => exact .some (.refl _)

/-- The tree that an intact heap has now, if its object has not been written. -/
theorem Intact.tree (intact : Intact less S μ) (hi : S i = some h)
    (object : μ.heap i = some (objectOf h)) : ∃ h', HeapAt μ.node h' ∧ rootPtr h' = rootPtr h ∧
      (h.values.map Prod.snd).Perm (h'.values.map Prod.snd) := by
  obtain ⟨S', hμ, same⟩ := intact
  have rel := same i
  rw [hi] at rel
  cases hS : S' i with
  | none =>
    rw [hS] at rel
    cases rel
  | some h' =>
    rw [hS] at rel
    cases rel with
    | some perm =>
      have object' := hμ.object i
      rw [object, hS] at object'
      have root : rootPtr h = rootPtr h' := congrArg HeapObject.root (Option.some.inj object')
      exact ⟨h', hμ.linked hS, root.symm, perm⟩

end Kept

namespace PairingHeap
variable {T : Type} {cmp : Comparator T} {μ : Memory T} {S : Shapes T} {i j : HeapId}

variable (cmp) in
/-- Nothing but the comparison fails in `meld_nodes`, and it comes before any write. -/
theorem meldNodes_ends {g h : TreeHeap (Entry T)} (hg : HeapAt μ.node g) (hh : HeapAt μ.node h)
    (nodup : (heapAddresses g ++ heapAddresses h).Nodup) :
    exec (meldNodes cmp (rootPtr g) (rootPtr h)) μ = (.error .comparatorThrew, μ.compared) ∨
      ∃ p μ', exec (meldNodes cmp (rootPtr g) (rootPtr h)) μ = (.ok p, μ') := by
  cases g with
  | none => exact .inr ⟨_, μ, rfl⟩
  | some s =>
    cases h with
    | none => exact .inr ⟨_, μ, rfl⟩
    | some t =>
      rw [meldNodes_asks hg hh]
      cases answer : cmp.throwsAt μ.comparisons with
      | true => exact .inl (exec_bind_of_error (compare_throws answer _ _))
      | false =>
        rw [exec_bind_of_ok (compare_answers answer _ _)]
        cases cmp.less s.value.2 t.value.2 with
        | true =>
          obtain ⟨μ', run, -⟩ := @linkChild_spec _ μ.compared _ _ hh hg
            (List.perm_append_comm.nodup nodup)
          exact .inr ⟨_, μ', run⟩
        | false =>
          obtain ⟨μ', run, -⟩ := @linkChild_spec _ μ.compared _ _ hg hh nodup
          exact .inr ⟨_, μ', run⟩

theorem emplace_threw {h : TreeHeap (Entry T)} (hμ : Shaped cmp.less μ S) (hi : S i = some h)
    {v : T} (threw : (exec (emplace cmp i v) μ).1 = .error .comparatorThrew) :
    Intact cmp.less S (exec (emplace cmp i v) μ).2 := by
  obtain ⟨μ₁, allocated, hμ₁, fresh₁, -, single⟩ := allocate_spec hμ v
  have nodup := fresh_apart hμ hi v
  rw [emplace, exec_bind_of_ok allocated, exec_bind_of_ok (exec_object hμ₁ hi)] at threw ⊢
  rcases meldNodes_ends cmp (hμ₁.linked hi) single nodup with meld | ⟨p, μ₂, meld⟩
  · have node : μ₁.compared.node μ.fresh = some ⟨v, none, none, none, none⟩ :=
      ((heapAt_some _ _).mp single).1
    have attempt : exec (tryCatch (meldNodes cmp (objectOf h).root (some μ.fresh)) fun e => do
        deallocate μ.fresh
        throw e) μ₁ = (.error .comparatorThrew, μ₁.compared.erase μ.fresh) := by
      rw [exec_tryCatch]
      erw [meld]
      simp only [deallocate, bind_assoc]
      rw [exec_bind_of_ok (exec_load node), exec_bind_of_ok (exec_modify _ _), exec_throw]
    rw [exec_bind_of_error attempt]
    apply Shaped.intact
    refine hμ₁.of_same rfl le_rfl ?_
    intro k g hk a ha
    have : a ≠ μ.fresh := fun he => hμ.unissued hk (he ▸ ha)
    simp [Memory.erase, Memory.compared, this]
  · have attempt : exec (tryCatch (meldNodes cmp (objectOf h).root (some μ.fresh)) fun e => do
        deallocate μ.fresh
        throw e) μ₁ = (.ok p, μ₂) := by
      rw [exec_tryCatch]
      erw [meld]
    rw [exec_bind_of_ok attempt] at threw
    cases threw

theorem meld_threw {h g : TreeHeap (Entry T)} (hμ : Shaped cmp.less μ S) (hi : S i = some h)
    (hj : S j = some g) (threw : (exec (meld cmp i j) μ).1 = .error .comparatorThrew) :
    Intact cmp.less S (exec (meld cmp i j) μ).2 := by
  rw [meld, exec_bind_of_ok (exec_object hμ hi), exec_bind_of_ok (exec_object hμ hj)] at threw ⊢
  by_cases trivially : i = j ∨ (objectOf g).root = none
  · rw [if_pos trivially] at threw
    cases threw
  · rw [if_neg trivially] at threw ⊢
    have hij : i ≠ j := fun same => trivially (.inl same)
    have nodup : (heapAddresses h ++ heapAddresses g).Nodup := by
      rw [List.nodup_append]
      exact ⟨hμ.nodup hi, hμ.nodup hj, fun a ha b hb he => hμ.apart hij hi hj ha (he ▸ hb)⟩
    rcases meldNodes_ends cmp (hμ.linked hi) (hμ.linked hj) nodup with
      meld | ⟨p, μ₁, meld⟩
    · erw [exec_bind_of_error meld]
      exact (hμ.count _).intact
    · erw [exec_bind_of_ok meld] at threw
      cases threw

/-- The old root has lost its children, and its heap their values. -/
theorem pop_threw {h : TreeHeap (Entry T)} (hμ : Shaped cmp.less μ S) (hi : S i = some h)
    (threw : (exec (pop cmp i) μ).1 = .error .comparatorThrew) :
    ¬Intact cmp.less S (exec (pop cmp i) μ).2 := by
  cases h with
  | none =>
    rw [pop_empty hμ hi] at threw
    cases threw
  | some t =>
    obtain ⟨⟨r, v⟩, cs⟩ := t
    obtain ⟨root, children⟩ := (heapAt_some _ _).mp (hμ.linked hi)
    have nodup := hμ.nodup hi
    simp only [heapAddresses_some, List.nodup_cons] at nodup root children
    let μ₁ := μ.write r ⟨v, none, none, none, none⟩
    have children₁ : Holds μ₁.node (some r) none cs := (holds_write nodup.1).mpr children
    have closed : Closed {a | a ∈ addresses cs} μ₁.node := by
      intro a ha n hn
      obtain ⟨child, sibling⟩ := children₁.forward ha hn
      exact ⟨fun b hb => (child b hb).1, fun b hb => (sibling b hb).1⟩
    have entry : Inside {a | a ∈ addresses cs} (first cs) := fun b hb => (children₁.head hb).1
    obtain ⟨-, outside, heap, -⟩ := confined_combineChildren cmp entry μ₁ closed
    have root₂ : (exec (combineChildren cmp (first cs)) μ₁).2.node r =
        some ⟨v, none, none, none, none⟩ := by
      rw [outside r nodup.1]
      simp [μ₁]
    have start : exec (pop cmp i) μ = exec (combineChildren cmp (first cs) >>= fun root => do
        setObject i ⟨root, (TreeHeap.values (some ⟨(r, v), cs⟩)).length⟩
        deallocate r
        setObject i ⟨root, (TreeHeap.values (some ⟨(r, v), cs⟩)).length - 1⟩) μ₁ := by
      rw [pop, exec_bind_of_ok (exec_object hμ hi)]
      exact (exec_bind_of_ok (exec_load root)).trans (exec_bind_of_ok (exec_update _ root))
    rw [start] at threw ⊢
    rcases run : exec (combineChildren cmp (first cs)) μ₁ with ⟨e | p, μ₂⟩
    · rw [run] at root₂ heap
      rw [exec_bind_of_error run]
      intro intact
      have object : μ₂.heap i = some (objectOf (some ⟨(r, v), cs⟩)) := by
        rw [heap]
        simp [μ₁, hμ.object, hi]
      obtain ⟨h', held, same, perm⟩ := intact.tree hi object
      -- the root is alone in the tree that it has now
      have alone : HeapAt μ₂.node (some ⟨(r, v), .nil⟩) := by
        rw [heapAt_some]
        exact ⟨root₂, trivial⟩
      obtain rfl := held.unique alone same
      cases cs with
      | nil =>
        have done : exec (combineChildren cmp none) μ₁ = (.ok none, μ₁) := by
          rw [combineChildren, exec_bind_of_ok (exec_get μ₁)]
          cases μ₁.fresh <;> rfl
        cases done.symm.trans run
      | node c ccs css => simpa [HeapTree.values] using perm.length_eq
    · rw [run] at root₂
      rw [exec_bind_of_ok run, exec_bind_of_ok (exec_setObject _ _)] at threw
      simp only [deallocate, bind_assoc] at threw
      rw [exec_bind_of_ok (exec_load (by simpa using root₂))] at threw
      cases threw

theorem extractTop_threw {h : TreeHeap (Entry T)} (hμ : Shaped cmp.less μ S) (hi : S i = some h)
    (threw : (exec (extractTop cmp i) μ).1 = .error .comparatorThrew) :
    ¬Intact cmp.less S (exec (extractTop cmp i) μ).2 := by
  cases h with
  | none =>
    rw [extractTop_empty hμ hi] at threw
    cases threw
  | some t =>
    have root := ((heapAt_some _ _).mp (hμ.linked hi)).1
    have start : exec (extractTop cmp i) μ = exec (pop cmp i >>= fun _ => pure t.value.2) μ := by
      rw [extractTop, exec_bind_of_ok (exec_object hμ hi)]
      exact exec_bind_of_ok (exec_load root)
    rw [start] at threw ⊢
    rcases run : exec (pop cmp i) μ with ⟨e | _, μ₁⟩
    · rw [exec_bind_of_error run] at threw ⊢
      cases threw
      have broken := pop_threw hμ hi (by rw [run])
      rwa [run] at broken
    · rw [exec_bind_of_ok run] at threw
      cases threw

section Raise
variable {p : Address} {old v : T} {h : TreeHeap (Entry T)}

/-- In heap order a parent is not outranked by the value that its child already has. -/
theorem parent_not_outranked (hμ : Shaped cmp.less μ S) (hi : S i = some h)
    (hp : (p, old) ∈ h.values) {q : Entry T}
    (hq : (asForest h).parentOf (isAt p) none = some q) : cmp.less q.2 old = false := by
  obtain ⟨n, hn, rfl⟩ := Holds.alive (hμ.linked hi) (e := (p, old)) (by simpa using hp)
  have parent := parent_eq hμ hi hp hn
  rw [hq] at parent
  have hpa : p ∈ addresses (asForest h) := by simpa [heapAddresses] using ⟨_, hp⟩
  rcases Holds.not_outranked (hμ.linked hi) (ordered_asForest.mpr (hμ.ordered hi)) hpa hn with
    ⟨-, none⟩ | ⟨b, m, above, hm, below⟩
  · cases none.symm.trans parent
  · cases above.symm.trans parent
    obtain ⟨k, hk, same⟩ := Holds.alive (hμ.linked hi)
      ((Forest.parentOf_mem hq).resolve_left (by simp)).1
    cases hm.symm.trans hk
    rwa [← same]

/-- Storing another value is a loss, storing the old one is none. -/
theorem raised_intact (hμ : Shaped cmp.less μ S) (hi : S i = some h) (hp : (p, old) ∈ h.values)
    {n : Node T} (hn : μ.node p = some n) (value : n.value = old) :
    Intact cmp.less S (raised μ p n v).compared ↔ v = old := by
  constructor
  · intro intact
    have object : (raised μ p n v).compared.heap i = some (objectOf h) := by
      simp [raised, Memory.compared, hμ.object, hi]
    obtain ⟨h', held, same, perm⟩ := intact.tree hi object
    have root : rootPtr h' = rootPtr (raiseHeap p v h) := by
      rw [same, ← first_asForest, ← first_asForest, asForest_raiseHeap, first_map_raiseAt]
    obtain rfl := held.unique (linked_raised hμ hi hn) root
    obtain ⟨rest, before, after⟩ := perm_raiseAt (v := v) (hμ.nodup hi) hp
    have swapped : (old :: rest.map Prod.snd).Perm (v :: rest.map Prod.snd) := by
      rw [values_raiseHeap] at perm
      exact (before.map Prod.snd).symm.trans (perm.trans (after.map Prod.snd))
    have same : old ::ₘ (rest.map Prod.snd : Multiset T) = v ::ₘ ↑(rest.map Prod.snd) :=
      Multiset.coe_eq_coe.mpr swapped
    exact ((Multiset.cons_inj_left _).mp same).symm
  · rintro rfl
    apply Shaped.intact
    refine hμ.of_same rfl le_rfl ?_
    intro k g _ a _
    by_cases ha : a = p
    · subst ha
      simp [raised, Memory.compared, hn, ← value]
    · simp [raised, Memory.compared, ha]

/-- The subtree that was cut out is missing from the heap that still counts it. -/
theorem detached_not_intact {t sub : HeapTree (Entry T)} {rest : Forest (Entry T)}
    {μ' : Memory T} (hi : S i = some (some t)) (object : μ'.heap i = some (objectOf (some t)))
    (cut : t.children.cut (isAt p) = some (sub, rest))
    (held : HeapAt μ'.node (some ⟨raiseAt p v t.value, rest.map (raiseAt p v)⟩)) :
    ¬Intact cmp.less S μ' := by
  intro intact
  obtain ⟨h', held', same, perm⟩ := intact.tree hi object
  obtain rfl := held'.unique held (by simpa [rootPtr] using same)
  have all := (Forest.values_cut cut).length_eq
  have kept := perm.length_eq
  simp only [TreeHeap.values_some, HeapTree.values, List.length_map, List.length_cons,
    List.length_append, Forest.values_map] at all kept
  omega

theorem increasePriority_threw (hμ : Shaped cmp.less μ S) (hi : S i = some h)
    (hp : (p, old) ∈ h.values)
    (threw : (exec (increasePriority cmp i (some p) v) μ).1 = .error .comparatorThrew) :
    Intact cmp.less S (exec (increasePriority cmp i (some p) v) μ).2 ↔
      cmp.throwsAt μ.comparisons = true ∨ v = old := by
  obtain ⟨n, hn, rfl⟩ := Holds.alive (hμ.linked hi) (e := (p, old)) (by simpa using hp)
  cases first : cmp.throwsAt μ.comparisons with
  | true =>
    rw [increasePriority, exec_bind_of_ok (exec_load hn),
      exec_bind_of_error (compare_throws first _ _)]
    exact iff_of_true (hμ.count _).intact (.inl rfl)
  | false =>
    cases up : cmp.less v n.value with
    | true =>
      rw [increasePriority, exec_bind_of_ok (exec_load hn),
        exec_bind_of_ok (compare_answers first _ _), up] at threw
      cases threw
    | false =>
      cases hq : (asForest h).parentOf (isAt p) none with
      | none =>
        rw [increasePriority_raises first hμ hi hn up,
          if_pos (.inr (by simp [parent_eq hμ hi hp hn, hq]))] at threw
        cases threw
      | some q =>
        rw [increasePriority_asks first hμ hi hp hn up hq] at threw ⊢
        cases second : cmp.throwsAt (raised μ p n v).comparisons with
        | true =>
          rw [exec_bind_of_error (compare_throws second _ _)]
          simpa using raised_intact hμ hi hp hn rfl
        | false =>
          rw [exec_bind_of_ok (compare_answers second _ _)] at threw ⊢
          cases outranked : cmp.less q.2 v with
          | false =>
            rw [outranked] at threw
            cases threw
          | true =>
            simp only [outranked, if_true] at threw ⊢
            obtain ⟨t, rfl, -, hpc⟩ := parentOf_asForest hq
            obtain ⟨sub, rest, cut⟩ := cut_exists hpc
            obtain ⟨μ₁, detach, hrest, hsub, nodup, frame⟩ := @detachRaised_spec _
              (raised μ p n v).compared _ _ _ _ _ (linked_raised hμ hi hn) (hμ.nodup hi) cut
            rw [exec_bind_of_ok detach] at threw ⊢
            have root : sub.value.1 = p := isAt_iff.mp (Forest.sel_of_cut cut)
            have ends := meldNodes_ends cmp hrest hsub
              (by simpa [heapAddresses, addresses, HeapTree.values] using nodup)
            simp only [rootPtr, raiseAt_fst, HeapTree.value_map, root] at ends threw ⊢
            rcases ends with meld | ⟨r, μ₂, meld⟩
            · rw [exec_bind_of_error meld]
              have object : μ₁.compared.heap i = some (objectOf (some t)) := by
                rw [Memory.compared, frame.heap]
                simp [raised, Memory.compared, hμ.object, hi]
              have lost : ¬Intact cmp.less S μ₁.compared :=
                detached_not_intact hi object cut hrest
              have other : v ≠ n.value := by
                rintro rfl
                simp [parent_not_outranked hμ hi hp hq] at outranked
              simp [lost, other]
            · rw [exec_bind_of_ok meld] at threw
              cases threw

end Raise

end PairingHeap

/-! ## Every operation that compares -/

section Operations
variable {T : Type} {cmp : Comparator T} {μ : Memory T} {S : Shapes T}

/-- The operations that rearrange heaps by comparing values. -/
def HeapOp.compares : HeapOp T → Bool
  | .push .. | .pop _ | .extractTop _ | .meld .. | .increasePriority .. => true
  | _ => false

/-- The call compares before it writes: in `increase_priority` the comparison that throws is the
first one, or the new value is the old one. -/
def ThrowsEarly (cmp : Comparator T) (μ : Memory T) : HeapOp T → Prop
  | .push .. | .meld .. => True
  | .increasePriority _ (some node) newValue =>
    cmp.throwsAt μ.comparisons = true ∨ ∃ n, μ.node node = some n ∧ n.value = newValue
  | _ => False

theorem exec_map_threw {α β : Type} {x : HeapProg T α} {f : α → β} {e : HeapError}
    (threw : (exec (f <$> x) μ).1 = .error e) :
    (exec x μ).1 = .error e ∧ (exec (f <$> x) μ).2 = (exec x μ).2 := by
  rcases run : exec x μ with ⟨e' | v, μ'⟩
  · rw [exec_map, run] at threw ⊢
    cases threw
    exact ⟨rfl, rfl⟩
  · rw [exec_map, run] at threw
    cases threw

/-- A comparator's exception leaves the heaps as they were in no other calls than these. -/
theorem intact_iff_throwsEarly (hμ : Shaped cmp.less μ S) {op : HeapOp T}
    (compares : op.compares = true) (legal : Admissible μ op)
    (threw : (exec (perform cmp op) μ).1 = .error .comparatorThrew) :
    Intact cmp.less S (exec (perform cmp op) μ).2 ↔ ThrowsEarly cmp μ op := by
  cases op with
  | push i v =>
    obtain ⟨h, hi⟩ := hμ.heap_of_ne legal
    obtain ⟨threw, memory⟩ := exec_map_threw threw
    rw [perform, memory]
    exact iff_of_true (PairingHeap.emplace_threw hμ hi threw) trivial
  | pop i =>
    obtain ⟨h, hi⟩ := hμ.heap_of_ne legal
    obtain ⟨threw, memory⟩ := exec_map_threw threw
    rw [perform, memory]
    exact iff_of_false (PairingHeap.pop_threw hμ hi threw) id
  | extractTop i =>
    obtain ⟨h, hi⟩ := hμ.heap_of_ne legal
    obtain ⟨threw, memory⟩ := exec_map_threw threw
    rw [perform, memory]
    exact iff_of_false (PairingHeap.extractTop_threw hμ hi threw) id
  | meld i j =>
    obtain ⟨h, hi⟩ := hμ.heap_of_ne legal.1
    obtain ⟨g, hj⟩ := hμ.heap_of_ne legal.2
    obtain ⟨threw, memory⟩ := exec_map_threw threw
    rw [perform, memory]
    exact iff_of_true (PairingHeap.meld_threw hμ hi hj threw) trivial
  | increasePriority i handle v =>
    obtain ⟨threw, memory⟩ := exec_map_threw threw
    rw [perform, memory]
    cases handle with
    | none => cases threw
    | some node =>
      obtain ⟨h, old, hi, hp⟩ := hμ.entry_of_node legal
      obtain ⟨n, hn, value⟩ := Holds.alive (hμ.linked hi) (e := (node, old)) (by simpa using hp)
      rw [PairingHeap.increasePriority_threw hμ hi hp threw]
      apply or_congr_right
      constructor
      · rintro rfl
        exact ⟨n, hn, value⟩
      · rintro ⟨m, hm, rfl⟩
        cases hm.symm.trans hn
        exact value
  | _ => cases compares

end Operations

/-- The larger number first; one comparison throws. -/
def throwingAt (call : Nat) : Comparator Nat := ⟨largestFirst.less, fun k => k == call⟩

theorem threeNodes_shaped : ∃ S, Shaped largestFirst.less threeNodesMemory S := by
  have total : largestFirst.Total := fun _ => rfl
  obtain ⟨-, -, S, hμ, -⟩ := run_simulates total simulates_empty
    (show Legal largestFirst (Memory.empty Nat) threeNodes from
      ⟨rfl, nofun, nofun, nofun, trivial⟩)
  exact ⟨S, hμ⟩

/-- The first comparison of `increase_priority` throws. -/
theorem threeNodes_kept : ∃ S, Shaped largestFirst.less threeNodesMemory S ∧
    Intact largestFirst.less S
      (exec (perform (throwingAt 2) (.increasePriority 0 (some 2) 5)) threeNodesMemory).2 := by
  obtain ⟨S, hμ⟩ := threeNodes_shaped
  have child : NodeOf threeNodesMemory 0 2 := ⟨_, rfl, .child rfl (.here rfl)⟩
  exact ⟨S, hμ, (@intact_iff_throwsEarly _ (throwingAt 2) _ _ hμ
    (.increasePriority 0 (some 2) 5) rfl child rfl).mpr (.inl rfl)⟩

/-- `pop` has given up the child list when the comparison of the two children throws. -/
theorem not_always_intact : ¬∀ (cmp : Comparator Nat) (μ : Memory Nat) (S : Shapes Nat)
    (op : HeapOp Nat), IsStrictWeakOrder Nat (fun a b => cmp.less a b = true) →
      Shaped cmp.less μ S → op.compares = true → Admissible μ op →
        (exec (perform cmp op) μ).1 = .error .comparatorThrew →
          Intact cmp.less S (exec (perform cmp op) μ).2 := by
  intro claimed
  obtain ⟨S, hμ⟩ := threeNodes_shaped
  have intact := claimed (throwingAt 2) threeNodesMemory S (.pop 0)
    (inferInstanceAs (IsStrictWeakOrder Nat fun a b => largestFirst.less a b = true)) hμ rfl
    nofun rfl
  obtain ⟨h, hi⟩ := hμ.heap_of_ne (i := 0) nofun
  obtain ⟨threw, memory⟩ := exec_map_threw (x := PairingHeap.pop (throwingAt 2) 0)
    (f := fun _ => HeapOut.done) (μ := threeNodesMemory) (e := .comparatorThrew) rfl
  rw [perform, memory] at intact
  exact @PairingHeap.pop_threw _ (throwingAt 2) _ _ _ _ hμ hi threw intact

end Yellowstone.Collections
