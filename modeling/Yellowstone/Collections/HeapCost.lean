import Yellowstone.Collections.HeapAsks
import Yellowstone.Library.PairingCost

/-!
# How often a program of heap calls compares

No bound on one `pop` is below the number of siblings, but over a whole program the
potential of the trees pays for it: in any sequence of calls a `pop` costs at most twice the
logarithm of the size, a `push` or a `meld` one comparison and one logarithm, an
`increase_priority` three comparisons and one logarithm.
-/

set_option autoImplicit false

namespace Yellowstone.Collections

open Throwing

/-! ## Savings -/

section Savings
variable {T : Type} {S : Shapes T} {φ : ℝ}

noncomputable def savings : Option (TreeHeap (Entry T)) → ℝ
  | none => 0
  | some h => h.potential

@[simp] theorem savings_none : savings (none : Option (TreeHeap (Entry T))) = 0 := rfl

@[simp] theorem savings_some (h : TreeHeap (Entry T)) : savings (some h) = h.potential := rfl

theorem savings_nonneg (s : Option (TreeHeap (Entry T))) : 0 ≤ savings s := by
  cases s with
  | none => exact le_rfl
  | some h => exact h.potential_nonneg

/-- The potentials of all heaps that are alive amount to `φ`. -/
def Banked (S : Shapes T) (φ : ℝ) : Prop :=
  ∃ s : Finset HeapId, (∀ i, i ∉ s → S i = none) ∧ ∑ i ∈ s, savings (S i) = φ

theorem banked_empty : Banked (fun _ => none : Shapes T) 0 := ⟨∅, fun _ _ => rfl, rfl⟩

theorem Banked.nonneg (h : Banked S φ) : 0 ≤ φ := by
  obtain ⟨s, -, rfl⟩ := h
  exact Finset.sum_nonneg fun i _ => savings_nonneg (S i)

/-- One heap gets another tree. -/
theorem Banked.update (h : Banked S φ) (i : HeapId) (x : Option (TreeHeap (Entry T))) :
    Banked (Function.update S i x) (φ - savings (S i) + savings x) := by
  obtain ⟨s, outside, rfl⟩ := h
  refine ⟨insert i s, fun k hk => ?_, ?_⟩
  · obtain ⟨hki, hks⟩ := not_or.mp (fun h => hk (Finset.mem_insert.mpr h))
    rw [Function.update_of_ne hki]
    exact outside k hks
  · have before : ∑ k ∈ insert i s, savings (S k) = ∑ k ∈ s, savings (S k) :=
      Finset.sum_insert_of_eq_zero_if_notMem fun hi => by rw [outside i hi, savings_none]
    rw [← before, ← Finset.add_sum_erase _ _ (Finset.mem_insert_self i s),
      ← Finset.add_sum_erase _ (fun k => savings (S k)) (Finset.mem_insert_self i s),
      Function.update_self]
    have rest : ∑ k ∈ (insert i s).erase i, savings (Function.update S i x k) =
        ∑ k ∈ (insert i s).erase i, savings (S k) :=
      Finset.sum_congr rfl fun k hk => by rw [Function.update_of_ne (Finset.ne_of_mem_erase hk)]
    rw [rest]
    ring

/-- `k` comparisons and the potential that is left are covered by `c`. -/
def Solvent (S : Shapes T) (k : Nat) (c : ℝ) : Prop := ∃ φ, Banked S φ ∧ k + φ ≤ c

theorem Solvent.update {k k' : Nat} {a c : ℝ} (h : Solvent S k c) (i : HeapId)
    {x : Option (TreeHeap (Entry T))} (paid : k' + savings x ≤ k + savings (S i) + a) :
    Solvent (Function.update S i x) k' (c + a) := by
  obtain ⟨φ, banked, le⟩ := h
  exact ⟨_, banked.update i x, by linarith⟩

theorem Solvent.le {k : Nat} {c : ℝ} (h : Solvent S k c) : k ≤ c := by
  obtain ⟨φ, banked, le⟩ := h
  have := banked.nonneg
  linarith

theorem Solvent.fewer {k k' : Nat} {c : ℝ} (h : Solvent S k c) (le : k' ≤ k) :
    Solvent S k' c := by
  obtain ⟨φ, banked, paid⟩ := h
  have le : (k' : ℝ) ≤ k := by exact_mod_cast le
  exact ⟨φ, banked, by linarith⟩

theorem Solvent.mono {k : Nat} {c c' : ℝ} (h : Solvent S k c) (le : c ≤ c') : Solvent S k c' := by
  obtain ⟨φ, banked, paid⟩ := h
  exact ⟨φ, banked, paid.trans le⟩

end Savings

/-! ## The account of a program -/

section Account
variable {T : Type} {cmp : Comparator T} {μ : Memory T} {S : Shapes T} {c : ℝ} {i j : HeapId}

/-- The size that a heap object records. -/
def sizeIn (μ : Memory T) (i : HeapId) : Nat := ((μ.heap i).map HeapObject.size).getD 0

/-- What a call adds to the bound on the number of comparisons. -/
noncomputable def amortized (μ : Memory T) : HeapOp T → ℝ
  | .push i _ => 1 + lg (sizeIn μ i + 1)
  | .constructRange _ values => values.length * (1 + lg values.length)
  | .pop i | .extractTop i => 2 * lg (sizeIn μ i)
  | .meld i j => 1 + lg (sizeIn μ i + sizeIn μ j)
  | .increasePriority i _ _ => 3 + lg (sizeIn μ i)
  | .construct _ | .moveConstruct _ _ | .moveAssign _ _ | .destruct _ | .size _ | .empty _
  | .top _ | .clear _ | .swap _ _ | .handleValue _ => 0

noncomputable def amortizedAll (cmp : Comparator T) : Memory T → List (HeapOp T) → ℝ
  | _, [] => 0
  | μ, op :: ops => amortized μ op + amortizedAll cmp (exec (perform cmp op) μ).2 ops

theorem amortized_nonneg (μ : Memory T) (op : HeapOp T) : 0 ≤ amortized μ op := by
  have log := lg_nonneg
  cases op with
  | constructRange i values =>
    exact mul_nonneg (Nat.cast_nonneg _) (by linarith [log values.length])
  | push i v => simp only [amortized]; linarith [log (sizeIn μ i + 1)]
  | pop i | extractTop i => simp only [amortized]; linarith [log (sizeIn μ i)]
  | meld i j => simp only [amortized]; linarith [log (sizeIn μ i + sizeIn μ j)]
  | increasePriority i p v => simp only [amortized]; linarith [log (sizeIn μ i)]
  | _ => exact le_rfl

theorem Shaped.sizeIn_eq {less : T → T → Bool} {h : TreeHeap (Entry T)} (hμ : Shaped less μ S)
    (hi : S i = some h) : sizeIn μ i = h.values.length := by
  simp [sizeIn, hμ.object, hi, objectOf]

theorem exec_map_snd {α β : Type} (f : α → β) (x : HeapProg T α) (μ : Memory T) :
    (exec (f <$> x) μ).2 = (exec x μ).2 := by
  rw [exec_map]
  rcases exec x μ with ⟨e | v, μ'⟩ <;> rfl

def Account (less : T → T → Bool) (μ : Memory T) (c : ℝ) : Prop :=
  ∃ S, Shaped less μ S ∧ Solvent S μ.comparisons c

variable [IsStrictWeakOrder T fun a b => cmp.less a b = true]

theorem emplace_solvent (total : cmp.Total) {h : TreeHeap (Entry T)} (hμ : Shaped cmp.less μ S)
    (solvent : Solvent S μ.comparisons c) (hi : S i = some h) (v : T) :
    ∃ μ' h', exec (PairingHeap.emplace cmp i v) μ = (.ok (some μ.fresh), μ') ∧
      Shaped cmp.less μ' (Function.update S i (some h')) ∧
      h'.values.Perm ((μ.fresh, v) :: h.values) ∧
      Solvent (Function.update S i (some h')) μ'.comparisons
        (c + (1 + lg (h.values.length + 1))) := by
  obtain ⟨μ', run, -, hμ'⟩ := PairingHeap.emplace_spec total hμ hi v
  have asked := (PairingHeap.asks_emplace cmp i v μ).1
  rw [run] at asked
  have asked : (μ'.comparisons : ℝ) ≤ μ.comparisons + 1 := by exact_mod_cast asked
  have pushed := TreeHeap.potential_push_le (lessEntry cmp.less) h (μ.fresh, v)
  refine ⟨μ', _, run, hμ', TreeHeap.values_push _ h _, solvent.update i ?_⟩
  rw [hi, savings_some, savings_some]
  linarith

theorem emplaceAll_solvent (total : cmp.Total) {h : TreeHeap (Entry T)} {n : Nat} (values : List T)
    (hμ : Shaped cmp.less μ S) (solvent : Solvent S μ.comparisons c) (hi : S i = some h)
    (bound : h.values.length + values.length ≤ n) :
    ∃ μ' h', exec (PairingHeap.emplaceAll cmp i values) μ = (.ok ⟨⟩, μ') ∧
      Shaped cmp.less μ' (Function.update S i (some h')) ∧
      (h'.values.map Prod.snd).Perm (values ++ h.values.map Prod.snd) ∧
      Solvent (Function.update S i (some h')) μ'.comparisons (c + values.length * (1 + lg n)) := by
  induction values generalizing μ S h c with
  | nil =>
    have same : Function.update S i (some h) = S := Function.update_eq_self_iff.mpr hi.symm
    refine ⟨μ, h, rfl, ?_, .refl _, ?_⟩
    · rwa [same]
    · rw [same]
      simpa using solvent
  | cons v vs ih =>
    obtain ⟨μ₁, h₁, run₁, hμ₁, perm₁, solvent₁⟩ := emplace_solvent total hμ solvent hi v
    have size := perm₁.length_eq
    rw [List.length_cons] at bound size
    obtain ⟨μ₂, h₂, run₂, hμ₂, perm₂, solvent₂⟩ :=
      ih hμ₁ solvent₁ (Function.update_self ..) (by omega)
    rw [Function.update_idem] at hμ₂ solvent₂
    refine ⟨μ₂, h₂, ?_, hμ₂, ?_, solvent₂.mono ?_⟩
    · rw [PairingHeap.emplaceAll, exec_bind_of_ok run₁, run₂]
    · exact perm₂.trans (((perm₁.map Prod.snd).append_left vs).trans List.perm_middle)
    · have := lg_le_lg (m := h.values.length + 1) (n := n) (by omega)
      rw [List.length_cons]
      push_cast
      linarith

omit [IsStrictWeakOrder T fun a b => cmp.less a b = true] in
theorem pop_solvent {t : HeapTree (Entry T)} {k : Nat} (solvent : Solvent S μ.comparisons c)
    (hi : S i = some (some t))
    (asked : k ≤ μ.comparisons + (t.children.roots.length - 1)) :
    Solvent (Function.update S i (some (TreeHeap.pairs (lessEntry cmp.less) t.children))) k
      (c + 2 * lg t.values.length) := by
  have extracted := TreeHeap.extract_cost (lessEntry cmp.less) t
  have asked : (k : ℝ) ≤ μ.comparisons + ((t.children.roots.length - 1 : Nat) : ℝ) := by
    exact_mod_cast asked
  apply solvent.update
  rw [hi, savings_some, savings_some]
  linarith

theorem meld_solvent (total : cmp.Total) {h g : TreeHeap (Entry T)} (hμ : Shaped cmp.less μ S)
    (solvent : Solvent S μ.comparisons c) (hij : i ≠ j) (hi : S i = some h) (hj : S j = some g) :
    Account cmp.less (exec (PairingHeap.meld cmp i j) μ).2
      (c + (1 + lg (h.values.length + g.values.length))) := by
  obtain ⟨μ', run, hμ'⟩ := PairingHeap.meld_spec total hμ hij hi hj
  have asked := (PairingHeap.asks_meld cmp i j μ).1
  rw [run] at asked ⊢
  have asked : (μ'.comparisons : ℝ) ≤ μ.comparisons + 1 := by exact_mod_cast asked
  have melded := TreeHeap.potential_meld_le (lessEntry cmp.less) h g
  -- the potential of the other heap is handed over
  have given : Solvent (Function.update S j (some none)) μ.comparisons (c + -g.potential) :=
    solvent.update j (by rw [hj, savings_some, savings_some, TreeHeap.potential_none]; linarith)
  have taken : Solvent (Function.update (Function.update S j (some none)) i
      (some (TreeHeap.meld (lessEntry cmp.less) h g))) μ'.comparisons
      (c + -g.potential + (g.potential + (1 + lg (h.values.length + g.values.length)))) := by
    apply given.update
    rw [Function.update_of_ne hij, hi, savings_some, savings_some]
    linarith
  exact ⟨_, hμ', taken.mono (by linarith)⟩

omit [IsStrictWeakOrder T fun a b => cmp.less a b = true] in
theorem potential_raiseHeap (p : Address) (v : T) (h : TreeHeap (Entry T)) :
    (raiseHeap p v h).potential = h.potential := by
  cases h with
  | none => rfl
  | some t => simp [raiseHeap]

/-- The links in the store say which tree a heap has come to hold. -/
theorem Shaped.tree_eq {less : T → T → Bool} {h g : TreeHeap (Entry T)} {o : HeapObject}
    (hμ : Shaped less μ (Function.update S i (some h))) (held : HeapAt μ.node g)
    (object : μ.heap i = some o) (root : o.root = rootPtr g) : h = g := by
  have mine := hμ.object i
  rw [Function.update_self, object] at mine
  cases mine
  exact (hμ.linked (Function.update_self ..)).unique held root

theorem increase_solvent (total : cmp.Total) {h : TreeHeap (Entry T)} {p : Address} {old v : T}
    (hμ : Shaped cmp.less μ S) (solvent : Solvent S μ.comparisons c) (hi : S i = some h)
    (hp : (p, old) ∈ h.values) (up : cmp.less v old = false) :
    Account cmp.less (exec (PairingHeap.increasePriority cmp i (some p) v) μ).2
      (c + (3 + lg h.values.length)) := by
  obtain ⟨μ', h', run, hμ', -⟩ := PairingHeap.increasePriority_spec total hμ hi hp up
  have asked := (PairingHeap.asks_increasePriority cmp i (some p) v μ).1
  rw [run] at asked ⊢
  have asked : (μ'.comparisons : ℝ) ≤ μ.comparisons + 3 := by exact_mod_cast asked
  suffices cheap : h'.potential ≤ h.potential + lg h.values.length by
    refine ⟨_, hμ', solvent.update i ?_⟩
    rw [hi, savings_some, savings_some]
    linarith
  have log := lg_nonneg h.values.length
  obtain ⟨n, hn, rfl⟩ := Holds.alive (hμ.linked hi) (e := (p, old)) (by simpa using hp)
  have object : (PairingHeap.raised μ p n v).heap i = some (objectOf h) := by
    simp [PairingHeap.raised, Memory.compared, hμ.object, hi]
  have stays : (PairingHeap.raised μ p n v).node = μ'.node →
      (PairingHeap.raised μ p n v).heap = μ'.heap → h'.potential = h.potential := by
    intro node heap
    have same := hμ'.tree_eq (node ▸ PairingHeap.linked_raised hμ hi hn) (heap ▸ object)
      (by cases h <;> simp [objectOf, rootPtr, raiseHeap])
    rw [same, potential_raiseHeap]
  cases hq : (asForest h).parentOf (isAt p) none with
  | none =>
    rw [PairingHeap.increasePriority_raises (total _) hμ hi hn up,
      if_pos (.inr (by simp [PairingHeap.parent_eq hμ hi hp hn, hq]))] at run
    cases run
    rw [stays rfl rfl]
    linarith
  | some q =>
    have start := PairingHeap.increasePriority_asks (total _) hμ hi hp hn up hq
    rw [exec_bind_of_ok (compare_answers (total _) _ _), run] at start
    obtain ⟨t, rfl, -, hpc⟩ := parentOf_asForest hq
    cases hless : cmp.less q.2 v with
    | false =>
      rw [hless] at start
      cases start
      rw [stays rfl rfl]
      linarith
    | true =>
      obtain ⟨sub, rest, cut⟩ := PairingHeap.cut_exists hpc
      obtain ⟨μ₄, regrafted, held, frame⟩ := @PairingHeap.regraft_spec _ _
        (PairingHeap.raised μ p n v).compared _ _ total _ _ _
        (PairingHeap.linked_raised hμ hi hn) (hμ.nodup hi) cut
      simp only [hless, if_true] at start
      rw [← bind_assoc, exec_bind_of_ok regrafted] at start
      cases start
      rw [hμ'.tree_eq held (Function.update_self ..) rfl]
      exact TreeHeap.regraft_cost (lessEntry cmp.less) (raiseAt p v) cut

omit [IsStrictWeakOrder T fun a b => cmp.less a b = true] in
/-- Two heaps exchange their trees, or one gives its tree up. -/
theorem Solvent.exchange {k : Nat} {h g : TreeHeap (Entry T)} (solvent : Solvent S k c)
    (hj : S j = some g) (le : h.potential ≤ savings (S i)) :
    Solvent (Function.update (Function.update S i (some g)) j (some h)) k c := by
  have taken : Solvent (Function.update S i (some g)) k (c + (g.potential - savings (S i))) :=
    solvent.update i (by rw [savings_some]; linarith)
  have holds : Function.update S i (some g) j = some g := by
    by_cases hij : j = i
    · rw [hij, Function.update_self]
    · rw [Function.update_of_ne hij, hj]
  have given : Solvent (Function.update (Function.update S i (some g)) j (some h)) k
      (c + (g.potential - savings (S i)) + (h.potential - g.potential)) :=
    taken.update j (by rw [holds, savings_some, savings_some]; linarith)
  exact given.mono (by linarith)

omit [IsStrictWeakOrder T fun a b => cmp.less a b = true] in
theorem Solvent.release {k : Nat} {x : Option (TreeHeap (Entry T))} (solvent : Solvent S k c)
    (i : HeapId) (empty : savings x = 0) : Solvent (Function.update S i x) k c := by
  have := savings_nonneg (S i)
  rw [← add_zero c]
  exact solvent.update i (by rw [empty]; linarith)

theorem constructRange_solvent (total : cmp.Total) (hμ : Shaped cmp.less μ S)
    (solvent : Solvent S μ.comparisons c) (i : HeapId) (values : List T) :
    ∃ μ' h', exec (PairingHeap.constructRange cmp i values) μ = (.ok ⟨⟩, μ') ∧
      Shaped cmp.less μ' (Function.update S i (some h')) ∧
      (h'.values.map Prod.snd).Perm values ∧
      Solvent (Function.update S i (some h')) μ'.comparisons
        (c + values.length * (1 + lg values.length)) := by
  obtain ⟨constructed, hμ₁⟩ := PairingHeap.construct_spec (i := i) hμ
  obtain ⟨μ', h', run, hμ', perm, solvent'⟩ := emplaceAll_solvent total values hμ₁
    (solvent.release i rfl) (Function.update_self ..) (by simp : _ ≤ values.length)
  rw [Function.update_idem] at hμ' solvent'
  refine ⟨μ', h', ?_, hμ', by simpa using perm, solvent'⟩
  rw [PairingHeap.constructRange, exec_bind_of_ok constructed, exec_tryCatch, run]

/-- Every legal call keeps the account balanced. -/
theorem step_account (total : cmp.Total) {op : HeapOp T} (account : Account cmp.less μ c)
    (legal : Admissible μ op) :
    Account cmp.less (exec (perform cmp op) μ).2 (c + amortized μ op) := by
  obtain ⟨S, hμ, solvent⟩ := account
  -- calls that find nothing to do leave the store as it is
  have unchanged : Account cmp.less μ (c + amortized μ op) :=
    ⟨S, hμ, solvent.mono (by linarith [amortized_nonneg μ op])⟩
  cases op with
  | construct i =>
    have constructed := (PairingHeap.construct_spec (i := i) hμ).2
    rw [amortized, add_zero]
    exact ⟨_, constructed, solvent.release i rfl⟩
  | constructRange i values =>
    obtain ⟨μ', h', run, hμ', -, solvent'⟩ := constructRange_solvent total hμ solvent i values
    rw [perform, exec_map_snd, run]
    exact ⟨_, hμ', solvent'⟩
  | moveConstruct i j =>
    obtain ⟨g, hj⟩ := hμ.heap_of_ne legal.2
    obtain ⟨μ', run, hμ'⟩ := PairingHeap.moveConstruct_spec hμ (hμ.none_of_heap legal.1) hj
    have asked := (PairingHeap.asks_moveConstruct i j μ).1
    rw [perform, exec_map_snd, amortized, add_zero]
    rw [run] at asked ⊢
    exact ⟨_, hμ', (solvent.fewer asked).exchange hj (savings_nonneg _)⟩
  | moveAssign i j =>
    obtain ⟨h, hi⟩ := hμ.heap_of_ne legal.1
    obtain ⟨g, hj⟩ := hμ.heap_of_ne legal.2
    by_cases hij : i = j
    · subst hij
      rw [perform, exec_map_snd, PairingHeap.moveAssign_self i]
      exact unchanged
    · obtain ⟨μ', run, hμ'⟩ := PairingHeap.moveAssign_spec hμ hij hi hj
      have asked := (PairingHeap.asks_moveAssign i j μ).1
      rw [perform, exec_map_snd, amortized, add_zero]
      rw [run] at asked ⊢
      exact ⟨_, hμ', (solvent.fewer asked).exchange hj (savings_nonneg _)⟩
  | destruct i =>
    obtain ⟨h, hi⟩ := hμ.heap_of_ne legal
    obtain ⟨μ', run, hμ'⟩ := PairingHeap.destruct_spec hμ hi
    have asked := (PairingHeap.asks_destruct i μ).1
    rw [perform, exec_map_snd, amortized, add_zero]
    rw [run] at asked ⊢
    exact ⟨_, hμ', (solvent.fewer asked).release i rfl⟩
  | size i =>
    obtain ⟨h, hi⟩ := hμ.heap_of_ne legal
    rw [perform, exec_map_snd, PairingHeap.size_spec hμ hi]
    exact unchanged
  | empty i =>
    obtain ⟨h, hi⟩ := hμ.heap_of_ne legal
    rw [perform, exec_map_snd, PairingHeap.empty_spec hμ hi]
    exact unchanged
  | top i =>
    obtain ⟨h, hi⟩ := hμ.heap_of_ne legal
    rw [perform, exec_map_snd]
    cases h with
    | none =>
      rw [PairingHeap.top_empty hμ hi]
      exact unchanged
    | some t =>
      rw [PairingHeap.top_spec hμ hi]
      exact unchanged
  | push i v =>
    obtain ⟨h, hi⟩ := hμ.heap_of_ne legal
    obtain ⟨μ', h', run, hμ', -, solvent'⟩ := emplace_solvent total hμ solvent hi v
    rw [perform, exec_map_snd, run, amortized, hμ.sizeIn_eq hi]
    exact ⟨_, hμ', solvent'⟩
  | pop i =>
    obtain ⟨h, hi⟩ := hμ.heap_of_ne legal
    rw [perform, exec_map_snd]
    cases h with
    | none =>
      rw [PairingHeap.pop_empty hμ hi]
      exact unchanged
    | some t =>
      obtain ⟨μ', run, hμ'⟩ := PairingHeap.pop_spec total hμ hi
      have asked := PairingHeap.pop_asks total hμ hi
      rw [amortized, hμ.sizeIn_eq hi]
      rw [run] at asked ⊢
      exact ⟨_, hμ', pop_solvent solvent hi asked⟩
  | extractTop i =>
    obtain ⟨h, hi⟩ := hμ.heap_of_ne legal
    rw [perform, exec_map_snd]
    cases h with
    | none =>
      rw [PairingHeap.extractTop_empty hμ hi]
      exact unchanged
    | some t =>
      obtain ⟨μ', run, hμ'⟩ := PairingHeap.extractTop_spec total hμ hi
      have asked := (PairingHeap.extractTop_asks hμ hi).trans (PairingHeap.pop_asks total hμ hi)
      rw [amortized, hμ.sizeIn_eq hi]
      rw [run] at asked ⊢
      exact ⟨_, hμ', pop_solvent solvent hi asked⟩
  | meld i j =>
    obtain ⟨h, hi⟩ := hμ.heap_of_ne legal.1
    obtain ⟨g, hj⟩ := hμ.heap_of_ne legal.2
    rw [perform, exec_map_snd]
    by_cases hij : i = j
    · subst hij
      rw [PairingHeap.meld_self hμ hi]
      exact unchanged
    · rw [amortized, hμ.sizeIn_eq hi, hμ.sizeIn_eq hj]
      exact meld_solvent total hμ solvent hij hi hj
  | increasePriority i handle v =>
    rw [perform, exec_map_snd]
    cases handle with
    | none =>
      rw [PairingHeap.increasePriority_empty i v]
      exact unchanged
    | some node =>
      obtain ⟨h, old, hi, hp⟩ := hμ.entry_of_node legal
      rw [amortized, hμ.sizeIn_eq hi]
      cases lower : cmp.less v old with
      | true =>
        obtain ⟨μ', run, hμ'⟩ := PairingHeap.increasePriority_lower total hμ hi hp lower
        have asked := (PairingHeap.asks_increasePriority cmp i (some node) v μ).1
        rw [run] at asked ⊢
        have asked : (μ'.comparisons : ℝ) ≤ μ.comparisons + 3 := by exact_mod_cast asked
        have log := lg_nonneg h.values.length
        refine ⟨Function.update S i (S i), by rwa [Function.update_eq_self], solvent.update i ?_⟩
        linarith
      | false => exact increase_solvent total hμ solvent hi hp lower
  | clear i =>
    obtain ⟨h, hi⟩ := hμ.heap_of_ne legal
    obtain ⟨μ', run, hμ', -⟩ := PairingHeap.clear_spec hμ hi
    have asked := (PairingHeap.asks_clear i μ).1
    rw [perform, exec_map_snd, amortized, add_zero]
    rw [run] at asked ⊢
    exact ⟨_, hμ', (solvent.fewer asked).release i rfl⟩
  | swap i j =>
    obtain ⟨h, hi⟩ := hμ.heap_of_ne legal.1
    obtain ⟨g, hj⟩ := hμ.heap_of_ne legal.2
    obtain ⟨μ', run, hμ'⟩ := PairingHeap.swap_spec hμ hi hj
    have asked := (PairingHeap.asks_swap i j μ).1
    rw [perform, exec_map_snd, amortized, add_zero]
    rw [run] at asked ⊢
    exact ⟨_, hμ', (solvent.fewer asked).exchange hj (by rw [hi, savings_some])⟩
  | handleValue handle =>
    rw [perform, exec_map_snd]
    cases handle with
    | none => exact unchanged
    | some node =>
      obtain ⟨i, owner⟩ := legal
      obtain ⟨h, v, hi, hp⟩ := hμ.entry_of_node owner
      rw [PairingHeap.handleValue_spec hμ hi hp]
      exact unchanged

theorem run_account (total : cmp.Total) {ops : List (HeapOp T)} (account : Account cmp.less μ c)
    (legal : Legal cmp μ ops) :
    Account cmp.less (performAll cmp μ ops).2 (c + amortizedAll cmp μ ops) := by
  induction ops generalizing μ c with
  | nil => simpa [performAll, amortizedAll] using account
  | cons op ops ih =>
    have rest := ih (step_account total account legal.1) legal.2
    rw [amortizedAll, ← add_assoc]
    exact rest

/-- In a program of legal calls that starts without heaps, the comparisons made number no more
than the amortized costs of its calls add up to. -/
theorem comparisons_amortized (total : cmp.Total) (ops : List (HeapOp T))
    (legal : Legal cmp (Memory.empty T) ops) :
    (performAll cmp (Memory.empty T) ops).2.comparisons ≤
      amortizedAll cmp (Memory.empty T) ops := by
  have start : Account cmp.less (Memory.empty T) 0 :=
    ⟨_, shaped_empty cmp.less, 0, banked_empty, by simp [Memory.empty]⟩
  obtain ⟨S, -, solvent⟩ := run_account total start legal
  simpa using solvent.le

/-- Taking the top until nothing is left gives the values in order of priority. -/
theorem drain_sorts (total : cmp.Total) {n m : Nat} {h : TreeHeap (Entry T)}
    (hμ : Shaped cmp.less μ S) (solvent : Solvent S μ.comparisons c) (hi : S i = some h)
    (size : h.values.length = n) (le : n ≤ m) :
    ∃ sorted : List T, (performAll cmp μ (List.replicate n (.extractTop i))).1 =
        sorted.map (fun v => .ok (.value v)) ∧
      sorted.Perm (h.values.map Prod.snd) ∧
      sorted.Pairwise (fun a b => cmp.less a b = false) ∧
      (performAll cmp μ (List.replicate n (.extractTop i))).2.comparisons ≤
        c + n * (2 * lg m) := by
  induction n generalizing μ S c h with
  | zero =>
    refine ⟨[], rfl, ?_, .nil, by simpa [performAll] using solvent.le⟩
    rw [List.length_eq_zero_iff.mp size]
    exact .nil
  | succ n ih =>
    cases h with
    | none => simp at size
    | some t =>
      obtain ⟨μ₁, run, hμ₁⟩ := PairingHeap.extractTop_spec total hμ hi
      have asked := (PairingHeap.extractTop_asks hμ hi).trans (PairingHeap.pop_asks total hμ hi)
      rw [run] at asked
      have perm := TreeHeap.values_pairs (lessEntry cmp.less) t.children
      have length : (TreeHeap.pairs (lessEntry cmp.less) t.children).values.length = n := by
        simpa [HeapTree.values, perm.length_eq] using size
      obtain ⟨sorted, results, same, ordered, spent⟩ := ih hμ₁ (pop_solvent solvent hi asked)
        (Function.update_self ..) length (by omega)
      have first : exec (perform cmp (.extractTop i)) μ = (.ok (.value t.value.2), μ₁) :=
        exec_done run
      have lower := lg_le_lg (m := t.values.length) (n := m) (by simp at size; omega)
      refine ⟨t.value.2 :: sorted, ?_, ?_, ?_, ?_⟩
      · rw [List.replicate_succ, performAll, first]
        simp only [List.map_cons, results]
      · exact (same.trans (perm.map Prod.snd)).cons t.value.2
      · refine List.pairwise_cons.mpr ⟨fun v hv => ?_, ordered⟩
        obtain ⟨e, he, rfl⟩ := List.mem_map.mp (same.mem_iff.mp hv)
        have root : TreeHeap.top (some t) = some t.value := rfl
        exact TreeHeap.top_not_outranked (hμ.ordered hi) root e
          (List.mem_cons_of_mem t.value (perm.mem_iff.mp he))
      · rw [List.replicate_succ, performAll, first]
        push_cast
        linarith

/-- A heap built from a range and then emptied sorts the range, with at most `n` comparisons
and three times `n` logarithms. -/
theorem constructRange_sorts (total : cmp.Total) (i : HeapId) (values : List T) :
    ∃ sorted : List T, (performAll cmp (Memory.empty T) (.constructRange i values ::
        List.replicate values.length (.extractTop i))).1 =
        .ok .done :: sorted.map (fun v => .ok (.value v)) ∧
      sorted.Perm values ∧ sorted.Pairwise (fun a b => cmp.less a b = false) ∧
      (performAll cmp (Memory.empty T) (.constructRange i values ::
        List.replicate values.length (.extractTop i))).2.comparisons ≤
        values.length * (1 + 3 * lg values.length) := by
  have solvent : Solvent (fun _ => none : Shapes T) (Memory.empty T).comparisons 0 :=
    ⟨0, banked_empty, by simp [Memory.empty]⟩
  obtain ⟨μ₁, h, run, hμ₁, perm, solvent₁⟩ :=
    constructRange_solvent total (shaped_empty cmp.less) solvent i values
  have first : exec (perform cmp (.constructRange i values)) (Memory.empty T) = (.ok .done, μ₁) :=
    exec_done run
  have size : h.values.length = values.length := by simpa using perm.length_eq
  obtain ⟨sorted, results, same, ordered, spent⟩ :=
    drain_sorts total hμ₁ solvent₁ (Function.update_self ..) size le_rfl
  rw [performAll, first]
  refine ⟨sorted, by simp only [results], same.trans perm, ordered, spent.trans ?_⟩
  linarith

end Account

theorem twoHeaps_amortized :
    ((performAll largestFirst (Memory.empty Nat) twoHeaps).2.comparisons : ℝ) ≤
      amortizedAll largestFirst (Memory.empty Nat) twoHeaps :=
  comparisons_amortized (fun _ => rfl) twoHeaps twoHeaps_legal

theorem threeValues_sorted :
    ∃ sorted : List Nat, (performAll largestFirst (Memory.empty Nat) (.constructRange 0 [4, 7, 4] ::
        List.replicate 3 (.extractTop 0))).1 =
        .ok .done :: sorted.map (fun v => .ok (.value v)) ∧
      sorted.Perm [4, 7, 4] ∧ sorted.Pairwise (fun a b => largestFirst.less a b = false) ∧
      (performAll largestFirst (Memory.empty Nat) (.constructRange 0 [4, 7, 4] ::
        List.replicate 3 (.extractTop 0))).2.comparisons ≤ 3 * (1 + 3 * lg 3) :=
  constructRange_sorts (fun _ => rfl) 0 [4, 7, 4]

end Yellowstone.Collections
