import Yellowstone.Library.PairingForest
import Mathlib

/-!
# The potential of a pairing heap

A forest is read as the binary tree of its first-child and next-sibling links; its
potential is the sum of the binary logarithms of the sizes of all subtrees of that tree.
One comparison melds two trees, so the two passes over `k` roots make `k - 1` of them, and
what they cost beyond a logarithm is paid for by the potential they release.
-/

set_option autoImplicit false

universe u v

/-- The binary logarithm of a size; that of `0` is `0`. -/
noncomputable def lg (n : Nat) : ℝ := Real.logb (2 : Nat) n

theorem lg_eq_logb (n : Nat) : lg n = Real.logb 2 n := by
  rw [lg, Nat.cast_ofNat]

theorem lg_one : lg 1 = 0 := by simp [lg]

theorem lg_two : lg 2 = 1 := by simp [lg_eq_logb, Real.logb_self_eq_one]

theorem lg_nonneg (n : Nat) : 0 ≤ lg n := by
  cases n with
  | zero => simp [lg]
  | succ n =>
    rw [lg_eq_logb]
    exact Real.logb_nonneg one_lt_two (by simp)

theorem lg_le_lg {m n : Nat} (h : m ≤ n) : lg m ≤ lg n := by
  cases m with
  | zero => simpa [lg] using lg_nonneg n
  | succ m =>
    rw [lg_eq_logb, lg_eq_logb]
    apply Real.logb_le_logb_of_le one_lt_two
    · exact_mod_cast Nat.succ_pos m
    · exact_mod_cast h

/-- The logarithm is concave: two sizes gain by being equal. -/
theorem lg_add_lg_le {m n : Nat} (hm : 0 < m) (hn : 0 < n) :
    lg m + lg n + 2 ≤ 2 * lg (m + n) := by
  have hm' : (0 : ℝ) < m := by exact_mod_cast hm
  have hn' : (0 : ℝ) < n := by exact_mod_cast hn
  have square : (m : ℝ) * n * 2 ^ 2 ≤ ((m + n : Nat) : ℝ) ^ 2 := by
    push_cast
    linarith [sq_nonneg ((m : ℝ) - n)]
  have logs := Real.logb_le_logb_of_le one_lt_two (by positivity) square
  rw [Real.logb_mul (by positivity) (by positivity), Real.logb_mul hm'.ne' hn'.ne',
    Real.logb_pow, Real.logb_pow, Real.logb_self_eq_one one_lt_two] at logs
  norm_num at logs
  simpa [lg_eq_logb] using logs

namespace Forest
variable {α : Type u} {β : Type v}

noncomputable def potential : Forest α → ℝ
  | nil => 0
  | node _ cs ss => lg (1 + cs.values.length + ss.values.length) + potential cs + potential ss

@[simp] theorem potential_nil : (nil : Forest α).potential = 0 := rfl

@[simp] theorem potential_node (v : α) (cs ss : Forest α) : (node v cs ss).potential =
    lg (1 + cs.values.length + ss.values.length) + cs.potential + ss.potential := rfl

@[simp] theorem potential_map (g : α → β) (f : Forest α) : (f.map g).potential = f.potential := by
  induction f with
  | nil => rfl
  | node v cs ss ihc ihs => simp [ihc, ihs]

theorem potential_nonneg (f : Forest α) : 0 ≤ f.potential := by
  induction f with
  | nil => exact le_rfl
  | node v cs ss ihc ihs =>
    have := lg_nonneg (1 + cs.values.length + ss.values.length)
    rw [potential_node]
    linarith

end Forest

namespace TreeHeap
variable {α : Type u} {β : Type v} (less : α → α → Bool)

noncomputable def potential : TreeHeap α → ℝ
  | none => 0
  | some t => lg t.values.length + t.children.potential

@[simp] theorem potential_none : potential (none : TreeHeap α) = 0 := rfl

@[simp] theorem potential_some (t : HeapTree α) :
    potential (some t) = lg t.values.length + t.children.potential := rfl

theorem potential_nonneg (h : TreeHeap α) : 0 ≤ h.potential := by
  cases h with
  | none => exact le_rfl
  | some t =>
    have := lg_nonneg t.values.length
    have := t.children.potential_nonneg
    rw [potential_some]
    linarith

/-- Whichever tree wins, the loser's children and the winner's hang below one new node. -/
theorem potential_children_link (s t : HeapTree α) : (HeapTree.link less s t).children.potential =
    lg (1 + s.children.values.length + t.children.values.length) + s.children.potential +
      t.children.potential := by
  unfold HeapTree.link
  split
  · rfl
  · rw [Forest.potential_node, Nat.add_right_comm]
    ring

theorem potential_link (s t : HeapTree α) : potential (some (HeapTree.link less s t)) =
    lg (s.values.length + t.values.length) +
      lg (1 + s.children.values.length + t.children.values.length) + s.children.potential +
      t.children.potential := by
  rw [potential_some, potential_children_link, (HeapTree.values_link less s t).length_eq,
    List.length_append]
  ring

theorem potential_link_le (s t : HeapTree α) : potential (some (HeapTree.link less s t)) ≤
    potential (some s) + potential (some t) + lg (s.values.length + t.values.length) := by
  have smaller : lg (1 + s.children.values.length + t.children.values.length) ≤
      lg s.values.length + lg t.values.length := by
    have product : 1 + s.children.values.length + t.children.values.length ≤
        s.values.length * t.values.length := by
      simp only [HeapTree.values, List.length_cons]
      nlinarith [Nat.zero_le (s.children.values.length * t.children.values.length)]
    refine (lg_le_lg product).trans ?_
    have positive : ∀ r : HeapTree α, ((r.values.length : Nat) : ℝ) ≠ 0 := by
      intro r
      rw [HeapTree.values, List.length_cons]
      exact Nat.cast_ne_zero.mpr r.children.values.length.succ_ne_zero
    simp only [lg_eq_logb]
    rw [Nat.cast_mul, Real.logb_mul (positive s) (positive t)]
  rw [potential_link, potential_some, potential_some]
  linarith

theorem potential_meld_le (g h : TreeHeap α) : (meld less g h).potential ≤
    g.potential + h.potential + lg (g.values.length + h.values.length) := by
  have log := lg_nonneg (g.values.length + h.values.length)
  cases g with
  | none =>
    rw [none_meld, potential_none]
    linarith
  | some s =>
    cases h with
    | none =>
      rw [meld_none, potential_none]
      linarith
    | some t => exact potential_link_le less s t

theorem potential_push_le (h : TreeHeap α) (v : α) :
    (push less h v).potential ≤ h.potential + lg (h.values.length + 1) := by
  have melded := potential_meld_le less h (some ⟨v, .nil⟩)
  simpa [push, HeapTree.values, lg_one] using melded

theorem pairs_node (v : α) (cs ss : Forest α) : ∃ t, pairs less (.node v cs ss) = some t := by
  cases ss with
  | nil => exact ⟨⟨v, cs⟩, rfl⟩
  | node w ds rest => cases h : pairs less rest <;> exact ⟨_, by rw [pairs, h]; rfl⟩

/-- The last meld of the two passes, with the tree that the later roots have become. -/
theorem potential_pairs {a b c : α} {as bs cs rest : Forest α} :
    (pairs less (.node a as (.node b bs (.node c cs rest)))).potential =
      lg (as.values.length + bs.values.length + 2 + (Forest.node c cs rest).values.length) +
      lg (as.values.length + bs.values.length + 1 + (Forest.node c cs rest).values.length) +
      lg (1 + as.values.length + bs.values.length) + as.potential + bs.potential +
      ((pairs less (.node c cs rest)).potential - lg (Forest.node c cs rest).values.length) := by
  obtain ⟨u, hu⟩ := pairs_node less c cs rest
  have size := (values_pairs less (.node c cs rest)).length_eq
  have linked := (HeapTree.values_link less ⟨a, as⟩ ⟨b, bs⟩).length_eq
  have children := potential_children_link less ⟨a, as⟩ ⟨b, bs⟩
  rw [pairs, hu, meld, potential_link, potential_some, children]
  rw [hu] at size
  simp only [values_some, HeapTree.values, List.length_cons, List.length_append] at size linked ⊢
  rw [linked, size]
  have first : as.values.length + 1 + (bs.values.length + 1) =
      as.values.length + bs.values.length + 2 := by omega
  have second : 1 + (HeapTree.link less ⟨a, as⟩ ⟨b, bs⟩).children.values.length +
      u.children.values.length =
      as.values.length + bs.values.length + 1 + (Forest.node c cs rest).values.length := by omega
  rw [first, second]
  ring

/-- With the rest of size `y` and the two neighbours' children of size `x`, both logarithms
stay two below twice that of the sum, which pays for the two comparisons of a round. -/
theorem pairs_cost {f : Forest α} (hf : f ≠ .nil) : (pairs less f).potential + f.roots.length ≤
    f.potential + 3 * lg f.values.length + 1 := by
  induction f using pairs.induct with
  | case1 => exact absurd rfl hf
  | case2 a as =>
    have log := lg_nonneg (as.values.length + 1)
    simp [pairs, HeapTree.values, Nat.add_comm 1]
    linarith
  | case3 a as b bs rest ih =>
    -- what every case compares: the sizes of the two neighbours' children and of the rest
    generalize hx : as.values.length + bs.values.length + 1 = x at *
    have front : 1 + as.values.length + bs.values.length = x := by omega
    cases rest with
    | nil =>
      have one := lg_le_lg (m := 2) (n := x + 1) (by omega)
      have grow := lg_le_lg (m := x) (n := x + 1) (by omega)
      have node := lg_nonneg (1 + bs.values.length)
      have sum : as.values.length + 1 + (bs.values.length + 1) = x + 1 := by omega
      have whole : 1 + as.values.length + (bs.values.length + 1) = x + 1 := by omega
      have total : as.values.length + (bs.values.length + 1) + 1 = x + 1 := by omega
      simp only [pairs, meld_none, potential_link, HeapTree.values_mk, Forest.potential_node,
        Forest.potential_nil, Forest.values_node, Forest.values_nil, Forest.roots_node,
        Forest.roots_nil, List.length_cons, List.length_append, List.length_nil, sum, whole, total,
        front, lg_two, Nat.add_zero] at one ⊢
      push_cast
      linarith
    | node c cs rest =>
      have paid := ih (by simp)
      rw [potential_pairs]
      generalize hr : (Forest.node c cs rest).values.length = y at *
      have pos : 0 < y := by rw [← hr]; simp
      have concave := lg_add_lg_le (m := x) (n := y) (by omega) pos
      have grow := lg_le_lg (m := x + y) (n := x + y + 1) (by omega)
      have later := lg_le_lg (m := y) (n := 1 + bs.values.length + y) (by omega)
      have outer : as.values.length + bs.values.length + 2 + y = x + y + 1 := by omega
      have whole : 1 + as.values.length + (bs.values.length + y + 1) = x + y + 1 := by omega
      have total : as.values.length + (bs.values.length + y + 1) + 1 = x + y + 1 := by omega
      simp only [Forest.potential_node _ as, Forest.potential_node _ bs, Forest.values_node _ as,
        Forest.values_node _ bs, Forest.roots_node a, Forest.roots_node b, List.length_cons,
        List.length_append, hr, hx, outer, whole, total, front] at paid ⊢
      push_cast
      linarith

/-- Removing the root of `n` values costs what the two passes compare; the root's own term,
which goes with it, pays for one of the three logarithms. -/
theorem extract_cost (t : HeapTree α) :
    (pairs less t.children).potential + ((t.children.roots.length - 1 : Nat) : ℝ) ≤
      potential (some t) + 2 * lg t.values.length := by
  have log := lg_nonneg t.values.length
  rw [potential_some]
  cases hf : t.children with
  | nil =>
    simp only [pairs, potential_none, Forest.roots_nil, Forest.potential_nil]
    norm_num
    linarith
  | node v cs ss =>
    have passes := pairs_cost less (f := .node v cs ss) (by simp)
    have smaller := lg_le_lg (m := (Forest.node v cs ss).values.length) (n := t.values.length)
      (by simp [HeapTree.values, hf])
    rw [Forest.roots_node, List.length_cons] at passes ⊢
    push_cast [Nat.add_sub_cancel] at passes ⊢
    linarith

/-- The cut subtree and what is left have no more potential than the whole had. -/
theorem potential_cut {sel : α → Bool} {f rest : Forest α} {t : HeapTree α}
    (h : f.cut sel = some (t, rest)) : potential (some t) + rest.potential ≤ f.potential := by
  induction f generalizing rest with
  | nil => cases h
  | node v cs ss ihc ihs =>
    rw [Forest.potential_node]
    rcases Forest.cut_node_cases h with ⟨-, rfl, rfl⟩ | ⟨-, cs', cut, rfl⟩ | ⟨-, -, ss', cut, rfl⟩
    · have smaller := lg_le_lg (m := (HeapTree.mk v cs).values.length)
        (n := 1 + cs.values.length + rest.values.length) (by simp [HeapTree.values]; omega)
      rw [potential_some]
      linarith
    · have paid := ihc cut
      have fewer := (Forest.values_cut cut).length_eq
      rw [List.length_append] at fewer
      have smaller := lg_le_lg (m := 1 + cs'.values.length + ss.values.length)
        (n := 1 + cs.values.length + ss.values.length) (by omega)
      rw [Forest.potential_node]
      linarith
    · have paid := ihs cut
      have fewer := (Forest.values_cut cut).length_eq
      rw [List.length_append] at fewer
      have smaller := lg_le_lg (m := 1 + cs.values.length + ss'.values.length)
        (n := 1 + cs.values.length + ss.values.length) (by omega)
      rw [Forest.potential_node]
      linarith

/-- Cutting a subtree out and melding it with what is left, with any values in both. -/
theorem regraft_cost {sel : α → Bool} {t : HeapTree α} {sub : HeapTree α} {rest : Forest α}
    (g : α → α) (h : t.children.cut sel = some (sub, rest)) :
    potential (some (HeapTree.link less ⟨g t.value, rest.map g⟩ (sub.map g))) ≤
      potential (some t) + lg t.values.length := by
  have cut := potential_cut h
  have size := (Forest.values_cut h).length_eq
  rw [List.length_append] at size
  have linked := potential_link_le less ⟨g t.value, rest.map g⟩ (sub.map g)
  have root := lg_le_lg (m := rest.values.length + 1) (n := t.values.length)
    (by simp [HeapTree.values]; omega)
  have whole : rest.values.length + 1 + sub.values.length = t.values.length := by
    simp [HeapTree.values] at size ⊢
    omega
  simp only [potential_some, HeapTree.values_mk, HeapTree.values_treeMap, List.length_cons,
    Forest.values_map, List.length_map, HeapTree.children_map, Forest.potential_map, whole]
    at linked cut ⊢
  linarith

end TreeHeap
