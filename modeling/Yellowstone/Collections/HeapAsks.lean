import Yellowstone.Collections.HeapThrows

/-!
# How often one call compares

A bound on the comparisons of a program is read off its statements. Only the loops of
`combine_children` need more: a round writes next siblings of the trees it has taken, so
the chain of those still to come is as it was, and `k` siblings take `k - 1` comparisons.
-/

set_option autoImplicit false

namespace Yellowstone.Collections

open Throwing

/-! ## What a program can ask -/

section Metering
variable {T α β : Type} {A : Set Address} {m n : Nat}

/-- The next sibling that the node at `a` records, if the node is alive. -/
def nextOf (μ : Memory T) (a : Address) : Option NodePtr := (μ.node a).map Node.nextSibling

/-- However the program ends, it has compared at most `n` times, and nodes outside the set
still record the same next sibling. -/
def Metered (A : Set Address) (n : Nat) (x : HeapProg T α) (result : α → Prop) : Prop :=
  ∀ μ, (exec x μ).2.comparisons ≤ μ.comparisons + n ∧
    (∀ a, a ∉ A → nextOf (exec x μ).2 a = nextOf μ a) ∧
    ∀ v, (exec x μ).1 = .ok v → result v

theorem metered_pure {v : α} {result : α → Prop} (h : result v) :
    Metered A n (pure v : HeapProg T α) result := by
  refine fun _ => ⟨Nat.le_add_right _ _, fun _ _ => rfl, ?_⟩
  rintro _ ⟨⟩
  exact h

theorem metered_throw {e : HeapError} {result : α → Prop} :
    Metered A n (throw e : HeapProg T α) result :=
  fun _ => ⟨Nat.le_add_right _ _, fun _ _ => rfl, nofun⟩

theorem metered_bind {x : HeapProg T α} {f : α → HeapProg T β} {mid : α → Prop}
    {result : β → Prop} (hx : Metered A m x mid) (hf : ∀ v, mid v → Metered A n (f v) result) :
    Metered A (n + m) (x >>= f) result := by
  intro μ
  obtain ⟨count₁, next₁, value⟩ := hx μ
  rw [exec_bind]
  rcases hr : exec x μ with ⟨e | v, μ₁⟩
  · rw [hr] at count₁ next₁
    exact ⟨count₁.trans (by omega), next₁, nofun⟩
  · rw [hr] at count₁ next₁ value
    obtain ⟨count₂, next₂, value₂⟩ := hf v (value v rfl) μ₁
    refine ⟨?_, fun a ha => (next₂ a ha).trans (next₁ a ha), value₂⟩
    simp only at count₁ ⊢
    omega

/-- A part that never compares adds nothing. -/
theorem metered_seq {x : HeapProg T α} {f : α → HeapProg T β} {mid : α → Prop}
    {result : β → Prop} (hx : Metered A 0 x mid) (hf : ∀ v, mid v → Metered A n (f v) result) :
    Metered A n (x >>= f) result :=
  metered_bind hx hf

theorem Metered.mono {x : HeapProg T α} {result result' : α → Prop} (h : Metered A m x result)
    (le : m ≤ n) (weaker : ∀ v, result v → result' v) : Metered A n x result' := by
  intro μ
  obtain ⟨count, next, value⟩ := h μ
  exact ⟨by omega, next, fun v hv => weaker v (value v hv)⟩

theorem metered_get : Metered A 0 (get : HeapProg T (Memory T)) fun _ => True :=
  fun _ => ⟨le_rfl, fun _ _ => rfl, fun _ _ => trivial⟩

theorem metered_load (p : NodePtr) : Metered A 0 (load p : HeapProg T (Node T)) fun _ => True := by
  unfold load
  refine metered_seq metered_get fun μ _ => ?_
  split
  · exact metered_pure trivial
  · exact metered_throw

theorem metered_modify {g : Memory T → Memory T} (count : ∀ μ, (g μ).comparisons = μ.comparisons)
    (next : ∀ μ a, a ∉ A → nextOf (g μ) a = nextOf μ a) :
    Metered A 0 (modify g : HeapProg T PUnit) fun _ => True :=
  fun μ => ⟨(count μ).le, next μ, fun _ _ => trivial⟩

theorem nextOf_write {μ : Memory T} {a b : Address} {n : Node T} (h : b ≠ a) :
    nextOf (μ.write a n) b = nextOf μ b := by
  simp [nextOf, h]

theorem metered_update {p : NodePtr} (hp : Inside A p) (f : Node T → Node T) :
    Metered A 0 (update p f) fun _ => True := by
  cases p with
  | none => exact metered_throw
  | some a =>
    refine metered_seq (metered_load _) fun n _ => metered_modify (fun _ => rfl) fun μ b hb => ?_
    exact nextOf_write fun he => hb (he ▸ hp a rfl)

/-- A write to any node that leaves its next sibling. -/
theorem metered_update_keeps (p : NodePtr) {f : Node T → Node T}
    (keeps : ∀ n, (f n).nextSibling = n.nextSibling) :
    Metered A 0 (update p f) fun _ => True := by
  cases p with
  | none => exact metered_throw
  | some a =>
    intro μ
    cases ha : μ.node a with
    | none =>
      have run : exec (update (some a) f) μ = (.error .invalidAccess, μ) := by
        simp [update, load, exec_bind, ha]
      rw [run]
      exact ⟨le_rfl, fun _ _ => rfl, fun _ _ => trivial⟩
    | some n =>
      rw [exec_update f ha]
      refine ⟨le_rfl, fun b _ => ?_, fun _ _ => trivial⟩
      by_cases hb : b = a
      · subst hb
        simp [nextOf, ha, keeps]
      · exact nextOf_write hb

theorem metered_compare (cmp : Comparator T) (x y : T) :
    Metered A 1 (compare cmp x y) fun _ => True := by
  intro μ
  cases answer : cmp.throwsAt μ.comparisons with
  | true =>
    rw [compare_throws answer]
    exact ⟨le_rfl, fun _ _ => rfl, nofun⟩
  | false =>
    rw [compare_answers answer]
    exact ⟨le_rfl, fun _ _ => rfl, fun _ _ => trivial⟩

theorem metered_ask {cmp : Comparator T} {x y : T} {f : Bool → HeapProg T β} {result : β → Prop}
    (hf : ∀ b, Metered A n (f b) result) : Metered A (n + 1) (compare cmp x y >>= f) result :=
  metered_bind (metered_compare cmp x y) fun b _ => hf b

theorem metered_tryCatch {x : HeapProg T α} {handler : HeapError → HeapProg T α}
    {result : α → Prop} (hx : Metered A n x result)
    (hh : ∀ e, Metered A 0 (handler e) result) : Metered A n (tryCatch x handler) result := by
  intro μ
  obtain ⟨count₁, next₁, value⟩ := hx μ
  rw [exec_tryCatch]
  rcases hr : exec x μ with ⟨e | v, μ₁⟩
  · rw [hr] at count₁ next₁
    obtain ⟨count₂, next₂, value₂⟩ := hh e μ₁
    exact ⟨count₂.trans count₁, fun a ha => (next₂ a ha).trans (next₁ a ha), value₂⟩
  · rw [hr] at count₁ next₁ value
    exact ⟨count₁, next₁, value⟩

/-- What comes after a metered part may rely on the siblings that the part has left alone. -/
theorem Metered.before {x : HeapProg T α} {f : α → HeapProg T β} {mid : α → Prop} {μ : Memory T}
    (hx : Metered A m x mid) (hf : ∀ v μ', (∀ a, a ∉ A → nextOf μ' a = nextOf μ a) → mid v →
      (exec (f v) μ').2.comparisons ≤ μ'.comparisons + n) :
    (exec (x >>= f) μ).2.comparisons ≤ μ.comparisons + (n + m) := by
  obtain ⟨count, next, value⟩ := hx μ
  rw [exec_bind]
  rcases hr : exec x μ with ⟨e | v, μ₁⟩
  · rw [hr] at count
    simp only at count ⊢
    omega
  · rw [hr] at count next value
    have rest := hf v μ₁ next (value v rfl)
    simp only at count rest ⊢
    omega

end Metering

namespace PairingHeap
variable {T : Type} {A : Set Address} {cmp : Comparator T}

theorem metered_clearLinks {p : NodePtr} (hp : Inside A p) :
    Metered A 0 (clearLinks p : HeapProg T PUnit) fun _ => True :=
  metered_seq (metered_update hp _) fun _ _ => metered_seq (metered_update hp _) fun _ _ =>
    metered_update hp _

theorem metered_setPrevious (p q : NodePtr) :
    Metered A 0 (setPrevious p q : HeapProg T PUnit) fun _ => True := by
  unfold setPrevious
  split
  · exact metered_update_keeps p fun _ => rfl
  · exact metered_pure trivial

theorem metered_linkChild {lhs rhs : Address} (hl : lhs ∈ A) (hr : rhs ∈ A) :
    Metered A 0 (linkChild lhs rhs : HeapProg T NodePtr) (Inside A) := by
  have left := inside_some hl
  have right := inside_some hr
  refine metered_seq (metered_clearLinks left) fun _ _ => ?_
  refine metered_seq (metered_update right _) fun _ _ => ?_
  refine metered_seq (metered_update right _) fun _ _ => ?_
  refine metered_seq (metered_load _) fun _ _ => ?_
  refine metered_seq (metered_update right _) fun _ _ => ?_
  refine metered_seq (metered_setPrevious _ _) fun _ _ => ?_
  refine metered_seq (metered_update left _) fun _ _ => ?_
  exact metered_pure left

theorem metered_meldNodes {p q : NodePtr} (hp : Inside A p) (hq : Inside A q) :
    Metered A 1 (meldNodes cmp p q) (Inside A) := by
  cases p with
  | none => exact metered_pure hq
  | some l =>
    cases q with
    | none => exact metered_pure hp
    | some r =>
      refine metered_seq (metered_load _) fun _ _ => metered_seq (metered_load _) fun _ _ => ?_
      apply metered_ask
      intro less
      split
      · exact metered_linkChild (hq r rfl) (hp l rfl)
      · exact metered_linkChild (hp l rfl) (hq r rfl)

theorem metered_prependPaired {p : NodePtr} (hp : Inside A p) (q : NodePtr) :
    Metered A 0 (prependPaired p q : HeapProg T PUnit) fun _ => True :=
  metered_seq (metered_update hp _) fun _ _ => metered_setPrevious _ _

/-! ## The two passes -/

/-- The nodes of the list, from `p` on, are alive and each is the next sibling of the one before. -/
def Siblings (μ : Memory T) : NodePtr → List Address → Prop
  | p, [] => p = none
  | p, a :: l => p = some a ∧ ∃ next, nextOf μ a = some next ∧ Siblings μ next l

theorem Siblings.congr {μ μ' : Memory T} {p : NodePtr} {l : List Address} (h : Siblings μ p l)
    (same : ∀ a ∈ l, nextOf μ' a = nextOf μ a) : Siblings μ' p l := by
  induction l generalizing p with
  | nil => exact h
  | cons a l ih =>
    obtain ⟨rfl, next, hnext, rest⟩ := h
    exact ⟨rfl, next, (same a (by simp)).trans hnext,
      ih rest fun b hb => same b (List.mem_cons_of_mem a hb)⟩

theorem siblings_roots {μ : Memory T} {p q : NodePtr} {f : Forest (Entry T)}
    (h : Holds μ.node p q f) : Siblings μ (first f) (f.roots.map Prod.fst) := by
  induction f generalizing q with
  | nil => rfl
  | node e cs ss _ ih => exact ⟨rfl, first ss, by simp [nextOf, h.1], ih h.2.2⟩

theorem nodup_roots {f : Forest (Entry T)} (nodup : (addresses f).Nodup) :
    (f.roots.map Prod.fst).Nodup := by
  induction f with
  | nil => exact List.nodup_nil
  | node e cs ss _ ih =>
    simp only [addresses_node, List.nodup_cons, List.mem_append, not_or] at nodup
    refine List.nodup_cons.mpr ⟨fun he => nodup.1.2 ?_, ih (List.nodup_append.mp nodup.2).2.1⟩
    obtain ⟨v, hv, same⟩ := List.mem_map.mp he
    exact List.mem_map.mpr ⟨v, Forest.mem_values_of_mem_roots hv, same⟩

/-- What one round of the first loop does with two siblings, once it knows the next. -/
def meldPair (cmp : Comparator T) (a b : Address) (paired : NodePtr) : HeapProg T NodePtr := do
  clearLinks (some a)
  clearLinks (some b)
  let merged ← meldNodes cmp (some a) (some b)
  prependPaired merged paired
  pure merged

theorem metered_meldPair {a b : Address} (ha : a ∈ A) (hb : b ∈ A) (paired : NodePtr) :
    Metered A 1 (meldPair cmp a b paired) fun _ => True := by
  refine metered_seq (metered_clearLinks (inside_some ha)) fun _ _ => ?_
  refine metered_seq (metered_clearLinks (inside_some hb)) fun _ _ => ?_
  apply metered_bind (metered_meldNodes (inside_some ha) (inside_some hb))
  intro merged inside
  exact metered_seq (metered_prependPaired inside paired) fun _ _ => metered_pure trivial

theorem pairAdjacent_two {μ : Memory T} {a b : Address} {n n' : Node T} (rounds : Nat)
    (paired : NodePtr) (ha : μ.node a = some n) (hb : μ.node b = some n')
    (next : n.nextSibling = some b) :
    exec (pairAdjacent cmp (rounds + 1) paired (some a)) μ =
      exec (meldPair cmp a b paired >>= fun merged =>
        pairAdjacent cmp rounds merged n'.nextSibling) μ := by
  rw [pairAdjacent, exec_bind_of_ok (exec_load ha), next]
  simp only [meldPair, bind_assoc, pure_bind]
  rw [exec_bind_of_ok (exec_load hb)]

/-- A round of the first loop takes two siblings and compares once. -/
theorem pairAdjacent_asks {μ : Memory T} (rounds : Nat) {paired current : NodePtr}
    {l : List Address} (chain : Siblings μ current l) (nodup : l.Nodup) :
    (exec (pairAdjacent cmp rounds paired current) μ).2.comparisons ≤
      μ.comparisons + l.length / 2 := by
  induction rounds generalizing μ paired current l with
  | zero => cases current <;> exact Nat.le_add_right _ _
  | succ rounds ih =>
    match l with
    | [] =>
      obtain rfl := chain
      exact Nat.le_add_right _ _
    | [a] =>
      obtain ⟨rfl, next, hnext, rfl⟩ := chain
      obtain ⟨n, hn, alone⟩ := Option.map_eq_some_iff.mp hnext
      have everywhere := inside_some (Set.mem_univ a)
      rw [pairAdjacent, exec_bind_of_ok (exec_load hn), alone]
      simp only [pure_bind]
      have free : Metered Set.univ 0 (clearLinks (some a) >>= fun _ =>
          prependPaired (some a) paired >>= fun _ =>
            pairAdjacent cmp rounds (some a) none) fun _ => True := by
        refine metered_seq (metered_clearLinks everywhere) fun _ _ => ?_
        refine metered_seq (metered_prependPaired everywhere paired) fun _ _ => ?_
        cases rounds <;> exact metered_pure trivial
      exact (free μ).1.trans (Nat.le_add_right _ _)
    | a :: b :: l =>
      obtain ⟨rfl, next, hnext, rfl, after, hafter, rest⟩ := chain
      obtain ⟨n, ha, next⟩ := Option.map_eq_some_iff.mp hnext
      obtain ⟨n', hb, rfl⟩ := Option.map_eq_some_iff.mp hafter
      simp only [List.nodup_cons, List.mem_cons, not_or] at nodup
      rw [pairAdjacent_two rounds paired ha hb next]
      have pair := @metered_meldPair _ {a, b} cmp a b (by simp) (by simp) paired
      have half : (a :: b :: l).length / 2 = l.length / 2 + 1 := by
        simp only [List.length_cons]
        omega
      rw [half]
      refine pair.before fun merged μ' same _ => ih (rest.congr fun c hc => same c ?_) nodup.2.2
      rintro (rfl | rfl)
      · exact nodup.1.2 hc
      · exact nodup.2.1 hc

/-- What one round of the second loop does with a tree. -/
def meldRoot (cmp : Comparator T) (a : Address) (next result : NodePtr) : HeapProg T NodePtr := do
  clearLinks (some a)
  setPrevious next none
  meldNodes cmp (some a) result

theorem metered_meldRoot {a : Address} {n : Nat} {result : NodePtr} (ha : a ∈ A) (next : NodePtr)
    (meld : Metered A n (meldNodes cmp (some a) result) (Inside A)) :
    Metered A n (meldRoot cmp a next result) (Inside A) :=
  metered_seq (metered_clearLinks (inside_some ha)) fun _ _ =>
    metered_seq (metered_setPrevious _ _) fun _ _ => meld

theorem meldRoots_one {μ : Memory T} {a : Address} {n : Node T} (rounds : Nat) (result : NodePtr)
    (ha : μ.node a = some n) : exec (meldRoots cmp (rounds + 1) result (some a)) μ =
      exec (meldRoot cmp a n.nextSibling result >>= fun merged =>
        meldRoots cmp rounds merged n.nextSibling) μ := by
  rw [meldRoots, exec_bind_of_ok (exec_load ha)]
  simp only [meldRoot, bind_assoc]

/-- A round of the second loop compares once. -/
theorem meldRoots_asks {μ : Memory T} (rounds : Nat) {result current : NodePtr} {l : List Address}
    (chain : Siblings μ current l) (nodup : l.Nodup) (apart : ∀ a, result = some a → a ∉ l) :
    (exec (meldRoots cmp rounds result current) μ).2.comparisons ≤ μ.comparisons + l.length := by
  induction rounds generalizing μ result current l with
  | zero => cases current <;> exact Nat.le_add_right _ _
  | succ rounds ih =>
    cases l with
    | nil =>
      obtain rfl := chain
      exact Nat.le_add_right _ _
    | cons a l =>
      obtain ⟨rfl, next, hnext, rest⟩ := chain
      obtain ⟨n, ha, rfl⟩ := Option.map_eq_some_iff.mp hnext
      have nodup' := List.nodup_cons.mp nodup
      have outside : ∀ c ∈ l, ¬(c = a ∨ result = some c) := by
        rintro c hc (rfl | hr)
        · exact nodup'.1 hc
        · exact apart c hr (List.mem_cons_of_mem a hc)
      have meld := @metered_meldNodes _ {c | c = a ∨ result = some c} cmp (some a) result
        (inside_some (.inl rfl)) fun c hc => .inr hc
      rw [meldRoots_one rounds result ha]
      refine (metered_meldRoot (.inl rfl) n.nextSibling meld).before fun merged μ' same inside => ?_
      exact ih (rest.congr fun c hc => same c (outside c hc)) nodup'.2
        fun c hc hcl => outside c hcl (inside c hc)

/-- The first tree is taken as it is. -/
theorem meldRoots_asks_none {μ : Memory T} (rounds : Nat) {current : NodePtr} {l : List Address}
    (chain : Siblings μ current l) (nodup : l.Nodup) :
    (exec (meldRoots cmp rounds none current) μ).2.comparisons ≤
      μ.comparisons + (l.length - 1) := by
  cases rounds with
  | zero => cases current <;> exact Nat.le_add_right _ _
  | succ rounds =>
    cases l with
    | nil =>
      obtain rfl := chain
      exact Nat.le_add_right _ _
    | cons a l =>
      obtain ⟨rfl, next, hnext, rest⟩ := chain
      obtain ⟨n, ha, rfl⟩ := Option.map_eq_some_iff.mp hnext
      obtain ⟨fresh, nodup⟩ := List.nodup_cons.mp nodup
      have meld : Metered {a} 0 (meldNodes cmp (some a) none) (Inside {a}) :=
        metered_pure (inside_some rfl)
      rw [meldRoots_one rounds none ha]
      have round := metered_meldRoot (Set.mem_singleton a) n.nextSibling meld
      refine round.before fun merged μ' same inside => ?_
      refine meldRoots_asks rounds (rest.congr fun c hc => same c ?_) nodup fun c hc hcl => ?_
      · rintro rfl
        exact fresh hc
      · obtain rfl := inside c hc
        exact fresh hcl

theorem length_roots_collect (less : Entry T → Entry T → Bool) (f g : Forest (Entry T)) :
    (TreeHeap.collect less g f).roots.length = (f.roots.length + 1) / 2 + g.roots.length := by
  induction f using TreeHeap.pairs.induct generalizing g with
  | case1 => simp [TreeHeap.collect]
  | case2 a as => simp [TreeHeap.collect, Nat.add_comm]
  | case3 a as b bs rest ih =>
    rw [TreeHeap.collect, ih]
    simp only [Forest.roots_node, List.length_cons]
    omega

/-- Half of the comparisons are made in the first pass and, but for one, half in the second. -/
theorem combineChildren_asks (total : cmp.Total) {μ : Memory T} {f : Forest (Entry T)}
    {p q : NodePtr} (hf : Holds μ.node p q f) (nodup : (addresses f).Nodup)
    (issued : ∀ a ∈ addresses f, a < μ.fresh) :
    (exec (combineChildren cmp (first f)) μ).2.comparisons ≤
      μ.comparisons + (f.roots.length - 1) := by
  obtain ⟨μ₁, pair, paired, frame⟩ := pairAdjacent_spec total hf (holds_nil _ _ _)
    (by simpa using nodup) (roots_le_fresh nodup issued)
  have perm := addresses_collect cmp f .nil
  rw [addresses_nil, List.append_nil] at perm
  have first := @pairAdjacent_asks _ cmp _ μ.fresh none _ _ (siblings_roots hf) (nodup_roots nodup)
  have second := @meldRoots_asks_none _ cmp _ μ.fresh _ _ (siblings_roots paired)
    (nodup_roots (perm.nodup_iff.mpr nodup))
  rw [first_nil] at pair
  rw [pair] at first
  rw [List.length_map] at first second
  have roots := length_roots_collect (lessEntry cmp.less) f .nil
  rw [combineChildren, exec_bind_of_ok (exec_get μ), exec_bind_of_ok pair]
  simp only [Forest.roots_nil, List.length_nil] at first second roots ⊢
  omega

/-! ## The members -/

/-- What a whole call can ask: where its writes go does not matter. -/
abbrev Asks {α : Type} (n : Nat) (x : HeapProg T α) : Prop :=
  Metered Set.univ n x fun _ => True

/-- A part that never compares leaves the bound of the part before it. -/
theorem comparisons_then {α β : Type} {x : HeapProg T α} {f : α → HeapProg T β} {μ : Memory T}
    {c : Nat} (hx : (exec x μ).2.comparisons ≤ c) (hf : ∀ v, Asks 0 (f v)) :
    (exec (x >>= f) μ).2.comparisons ≤ c := by
  rw [exec_bind]
  rcases hr : exec x μ with ⟨e | v, μ₁⟩
  · rw [hr] at hx
    exact hx
  · rw [hr] at hx
    exact (hf v μ₁).1.trans hx

theorem everywhere (p : NodePtr) : Inside Set.univ p := fun a _ => Set.mem_univ a

theorem asks_object (i : HeapId) : Asks 0 (object i : HeapProg T HeapObject) := by
  unfold object
  refine metered_seq metered_get fun μ _ => ?_
  split
  · exact metered_pure trivial
  · exact metered_throw

theorem asks_setObject (i : HeapId) (o : HeapObject) :
    Asks 0 (setObject i o : HeapProg T PUnit) :=
  metered_modify (fun _ => rfl) fun _ _ _ => rfl

theorem asks_deallocate (a : Address) : Asks 0 (deallocate a : HeapProg T PUnit) :=
  metered_seq (metered_load _) fun _ _ =>
    metered_modify (fun _ => rfl) fun _ b hb => absurd (Set.mem_univ b) hb

theorem asks_meldNodes (cmp : Comparator T) (p q : NodePtr) : Asks 1 (meldNodes cmp p q) :=
  (metered_meldNodes (everywhere p) (everywhere q)).mono le_rfl fun _ _ => trivial

theorem asks_destroyLoop (rounds : Nat) (p : NodePtr) :
    Asks 0 (destroyLoop rounds p : HeapProg T PUnit) := by
  induction rounds generalizing p with
  | zero =>
    cases p with
    | none => exact metered_pure trivial
    | some a => exact metered_throw
  | succ rounds ih =>
    cases p with
    | none => exact metered_pure trivial
    | some a =>
      refine metered_seq (metered_load _) fun n _ => ?_
      split
      · refine metered_seq (metered_load _) fun c _ => ?_
        refine metered_seq (metered_update (everywhere _) _) fun _ _ => ?_
        refine metered_seq (metered_setPrevious _ _) fun _ _ => ?_
        refine metered_seq (metered_update (everywhere _) _) fun _ _ => ?_
        refine metered_seq (metered_update (everywhere _) _) fun _ _ => ?_
        refine metered_seq (metered_update (everywhere _) _) fun _ _ => ?_
        exact ih _
      · exact metered_seq (asks_deallocate a) fun _ _ => ih _

theorem asks_clear (i : HeapId) : Asks 0 (clear i : HeapProg T PUnit) :=
  metered_seq (asks_object i) fun _ _ =>
    metered_seq (metered_seq metered_get fun _ _ => asks_destroyLoop _ _) fun _ _ =>
      asks_setObject i _

theorem asks_destruct (i : HeapId) : Asks 0 (destruct i : HeapProg T PUnit) :=
  metered_seq (asks_clear i) fun _ _ => metered_modify (fun _ => rfl) fun _ _ _ => rfl

theorem asks_moveConstruct (i j : HeapId) : Asks 0 (moveConstruct i j : HeapProg T PUnit) :=
  metered_seq (asks_object j) fun _ _ => metered_seq (asks_setObject j _) fun _ _ =>
    asks_setObject i _

theorem asks_moveAssign (i j : HeapId) : Asks 0 (moveAssign i j : HeapProg T PUnit) := by
  unfold moveAssign
  split
  · exact metered_pure trivial
  · exact metered_seq (asks_clear i) fun _ _ => asks_moveConstruct i j

theorem asks_swap (i j : HeapId) : Asks 0 (swap i j : HeapProg T PUnit) :=
  metered_seq (asks_object i) fun _ _ => metered_seq (asks_object j) fun _ _ =>
    metered_seq (asks_setObject i _) fun _ _ => asks_setObject j _

theorem asks_detachFromParent (a : Address) : Asks 0 (detachFromParent a : HeapProg T PUnit) := by
  refine metered_seq (metered_load _) fun n _ => ?_
  split
  · exact metered_pure trivial
  · have rest : Asks 0 (setPrevious n.nextSibling n.previousSibling >>= fun _ =>
        clearLinks (some a) : HeapProg T PUnit) :=
      metered_seq (metered_setPrevious _ _) fun _ _ => metered_clearLinks (everywhere _)
    simp only
    split <;> exact metered_seq (metered_update (everywhere _) _) fun _ _ => rest

theorem asks_allocate (v : T) : Asks 0 (allocate v : HeapProg T Address) :=
  fun _ => ⟨le_rfl, fun a ha => absurd (Set.mem_univ a) ha, fun _ _ => trivial⟩

theorem asks_emplace (cmp : Comparator T) (i : HeapId) (v : T) : Asks 1 (emplace cmp i v) := by
  refine metered_seq (asks_allocate v) fun a _ => metered_seq (asks_object i) fun h _ => ?_
  have attempt : Asks 1 (tryCatch (meldNodes cmp h.root (some a)) fun e =>
      deallocate a >>= fun _ => throw e) :=
    metered_tryCatch (asks_meldNodes cmp _ _) fun e =>
      metered_seq (asks_deallocate a) fun _ _ => metered_throw
  refine metered_bind attempt fun root _ => ?_
  exact metered_seq (asks_setObject i _) fun _ _ => metered_pure trivial

theorem asks_meld (cmp : Comparator T) (i j : HeapId) : Asks 1 (meld cmp i j) := by
  refine metered_seq (asks_object i) fun h _ => metered_seq (asks_object j) fun o _ => ?_
  split
  · exact metered_pure trivial
  · refine metered_bind (asks_meldNodes cmp _ _) fun root _ => ?_
    exact metered_seq (asks_setObject i _) fun _ _ => asks_setObject j _

theorem asks_increasePriority (cmp : Comparator T) (i : HeapId) (p : NodePtr) (v : T) :
    Asks 3 (increasePriority cmp i p v) := by
  cases p with
  | none => exact metered_throw
  | some node =>
    refine metered_seq (metered_load _) fun n _ => metered_ask fun lower => ?_
    split
    · exact metered_throw
    refine metered_seq (metered_update (everywhere _) _) fun _ _ => ?_
    refine metered_seq (asks_object i) fun h _ => ?_
    split
    · exact metered_pure trivial
    refine metered_seq (metered_load _) fun parent _ => metered_ask fun higher => ?_
    split
    · refine metered_seq (asks_detachFromParent node) fun _ _ => ?_
      exact metered_bind (asks_meldNodes cmp _ _) fun root _ => asks_setObject i _
    · exact metered_pure trivial

/-- What follows the passes of `pop` compares no more. -/
theorem pop_asks (total : cmp.Total) {μ : Memory T} {S : Shapes T} {i : HeapId}
    {t : HeapTree (Entry T)} (hμ : Shaped cmp.less μ S) (hi : S i = some (some t)) :
    (exec (pop cmp i) μ).2.comparisons ≤ μ.comparisons + (t.children.roots.length - 1) := by
  obtain ⟨⟨r, v⟩, cs⟩ := t
  obtain ⟨root, children⟩ := (heapAt_some _ _).mp (hμ.linked hi)
  have nodup := hμ.nodup hi
  simp only [heapAddresses_some, List.nodup_cons] at nodup root children ⊢
  have children₁ : Holds (μ.write r ⟨v, none, none, none, none⟩).node (some r) none cs :=
    (holds_write nodup.1).mpr children
  have passes := combineChildren_asks total children₁ nodup.2
    fun a ha => hμ.issued hi a (by simp [ha])
  have start : exec (pop cmp i) μ = exec (combineChildren cmp (first cs) >>= fun root => do
      setObject i ⟨root, cs.values.length + 1⟩
      deallocate r
      setObject i ⟨root, cs.values.length⟩) (μ.write r ⟨v, none, none, none, none⟩) := by
    rw [pop, exec_bind_of_ok (exec_object hμ hi)]
    exact (exec_bind_of_ok (exec_load root)).trans (exec_bind_of_ok (exec_update _ root))
  rw [start]
  exact comparisons_then passes fun root => metered_seq (asks_setObject i _) fun _ _ =>
    metered_seq (asks_deallocate r) fun _ _ => asks_setObject i _

theorem extractTop_asks {μ : Memory T} {S : Shapes T} {i : HeapId} {t : HeapTree (Entry T)}
    (hμ : Shaped cmp.less μ S) (hi : S i = some (some t)) :
    (exec (extractTop cmp i) μ).2.comparisons ≤ (exec (pop cmp i) μ).2.comparisons := by
  have root := ((heapAt_some _ _).mp (hμ.linked hi)).1
  have start : exec (extractTop cmp i) μ = exec (pop cmp i >>= fun _ => pure t.value.2) μ := by
    rw [extractTop, exec_bind_of_ok (exec_object hμ hi)]
    exact exec_bind_of_ok (exec_load root)
  rw [start]
  exact comparisons_then le_rfl fun _ => metered_pure trivial

end PairingHeap

end Yellowstone.Collections
