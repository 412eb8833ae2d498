import Mathlib.Data.List.Nodup
import Yellowstone.Collections.HeapPool

/-!
# `increase_priority`

A raised node stays where it is unless it outranks its parent; then its subtree is cut out
and melded with the rest of its heap.
-/

set_option autoImplicit false

namespace Yellowstone.Collections

open Throwing

section Trees
variable {T : Type} {less : T → T → Bool} {p : Address} {v : T}

theorem map_raiseAt_other {l : List (Entry T)} (h : p ∉ l.map Prod.fst) :
    l.map (raiseAt p v) = l := by
  have same : ∀ e ∈ l, raiseAt p v e = e := fun e he =>
    raiseAt_other v fun hep => h (List.mem_map.mpr ⟨e, he, hep⟩)
  simpa using List.map_congr_left same

/-- Raising replaces one entry of a heap and no other. -/
theorem perm_raiseAt {l : List (Entry T)} {old : T} (nodup : (l.map Prod.fst).Nodup)
    (hp : (p, old) ∈ l) :
    ∃ rest, l.Perm ((p, old) :: rest) ∧ (l.map (raiseAt p v)).Perm ((p, v) :: rest) := by
  obtain ⟨s, t, rfl⟩ := List.append_of_mem hp
  refine ⟨s ++ t, List.perm_middle, ?_⟩
  simp only [List.map_append, List.map_cons, List.nodup_append, List.nodup_cons,
    List.mem_cons] at nodup
  have hs : p ∉ s.map Prod.fst := fun h => nodup.2.2 p h p (.inl rfl) rfl
  rw [List.map_append, List.map_cons, map_raiseAt_other hs, map_raiseAt_other nodup.2.1.1,
    raiseAt_at v (show ((p, old) : Entry T).1 = p from rfl)]
  exact List.perm_middle

theorem mapForest_raiseAt_other {f : Forest (Entry T)} (h : p ∉ addresses f) :
    f.map (raiseAt p v) = f :=
  Forest.map_id_of_values fun e he => raiseAt_other v fun hep =>
    h (List.mem_map.mpr ⟨e, he, hep⟩)

theorem ordered_asForest {h : TreeHeap (Entry T)} :
    (asForest h).Ordered (lessEntry less) ↔ h.Ordered (lessEntry less) := by
  cases h with
  | none => rfl
  | some t => simp [asForest, TreeHeap.Ordered, HeapTree.Ordered]

theorem countP_isAt_le {l : List (Entry T)} (nodup : (l.map Prod.fst).Nodup) (p : Address) :
    l.countP (isAt p) ≤ 1 := by
  have := List.nodup_iff_count.mp nodup p
  rwa [List.count, List.countP_map] at this

def raiseHeap (p : Address) (v : T) (h : TreeHeap (Entry T)) : TreeHeap (Entry T) :=
  h.map (HeapTree.map (raiseAt p v))

@[simp] theorem asForest_raiseHeap (h : TreeHeap (Entry T)) :
    asForest (raiseHeap p v h) = (asForest h).map (raiseAt p v) := by
  cases h <;> rfl

@[simp] theorem values_raiseHeap (h : TreeHeap (Entry T)) :
    (raiseHeap p v h).values = h.values.map (raiseAt p v) := by
  cases h <;> simp [raiseHeap]

@[simp] theorem heapAddresses_raiseHeap (h : TreeHeap (Entry T)) :
    heapAddresses (raiseHeap p v h) = heapAddresses h := by
  simp [heapAddresses]

@[simp] theorem objectOf_raiseHeap (h : TreeHeap (Entry T)) :
    objectOf (raiseHeap p v h) = objectOf h := by
  cases h <;> simp [objectOf, raiseHeap, rootPtr, HeapTree.values]

/-- The root has no parent, so a node with a parent is in some child list. -/
theorem parentOf_asForest {h : TreeHeap (Entry T)} {q : Entry T}
    (hq : (asForest h).parentOf (isAt p) none = some q) :
    ∃ t, h = some t ∧ t.value.1 ≠ p ∧ p ∈ addresses t.children := by
  cases h with
  | none => cases hq
  | some t =>
    simp only [asForest, Forest.parentOf] at hq
    split at hq
    · cases hq
    · rename_i hroot
      split at hq
      · rename_i hany
        refine ⟨t, rfl, by simpa using hroot, ?_⟩
        simpa [addresses, isAt] using hany
      · cases hq

variable [IsStrictWeakOrder T fun a b => less a b = true]

/-- In place: the raised node does not outrank its parent. -/
theorem ordered_raise {h : TreeHeap (Entry T)} {old : T} (ordered : h.Ordered (lessEntry less))
    (nodup : (heapAddresses h).Nodup) (hp : (p, old) ∈ h.values) (up : less v old = false)
    (below : ∀ q, (asForest h).parentOf (isAt p) none = some q → less q.2 v = false) :
    (raiseHeap p v h).Ordered (lessEntry less) := by
  rw [← ordered_asForest, asForest_raiseHeap]
  have unique : ∀ e ∈ (asForest h).values, isAt p e = true → e = (p, old) := by
    intro e he hep
    rw [values_asForest] at he
    exact List.inj_on_of_nodup_map nodup he hp (isAt_iff.mp hep)
  have below' : ∀ q, (asForest h).parentOf (isAt p) none = some q → ∀ e ∈ (asForest h).values,
      isAt p e = true → lessEntry less q (raiseAt p v e) = false := by
    intro q hq e _ hsel
    rw [raiseAt_at v (isAt_iff.mp hsel)]
    exact below q hq
  refine Forest.ordered_map_of_parent (ordered_asForest.mpr ordered)
    (countP_isAt_le (by simpa [heapAddresses] using nodup) p) ?_
    ?_ below'
  · intro e _ hsel
    exact raiseAt_other v fun hep => by simp [isAt, hep] at hsel
  · intro e he hsel
    rw [raiseAt_at v (isAt_iff.mp hsel), unique e he hsel]
    exact up

/-- Cut out: both parts are ordered, the raised root included. -/
theorem ordered_cut_raise {t sub : HeapTree (Entry T)} {rest : Forest (Entry T)}
    (ordered : t.Ordered (lessEntry less)) (nodup : (heapAddresses (some t)).Nodup)
    (cut : t.children.cut (isAt p) = some (sub, rest)) (up : less v sub.value.2 = false) :
    (TreeHeap.meld (lessEntry less)
      (some ⟨raiseAt p v t.value, rest.map (raiseAt p v)⟩)
      (some (sub.map (raiseAt p v)))).Ordered (lessEntry less) := by
  obtain ⟨osub, orest⟩ := Forest.ordered_cut ordered.2 cut
  have perm := (Forest.values_cut cut).map Prod.fst
  have hp := isAt_iff.mp (Forest.sel_of_cut cut)
  rw [heapAddresses_some, List.nodup_cons] at nodup
  have parts := perm.nodup_iff.mp nodup.2
  simp only [List.map_append, HeapTree.values, List.map_cons, hp, List.nodup_append,
    List.nodup_cons, List.mem_cons] at parts
  have hrest : p ∉ addresses rest := fun h => parts.2.2 p (.inl rfl) p h rfl
  have hroot : t.value.1 ≠ p := by
    rintro rfl
    exact nodup.1 (perm.mem_iff.mpr (by simp [HeapTree.values, hp]))
  have hsub : sub.map (raiseAt p v) = ⟨(p, v), sub.children⟩ := by
    rw [HeapTree.map, raiseAt_at v hp, mapForest_raiseAt_other parts.1.1]
  rw [raiseAt_other v hroot, mapForest_raiseAt_other hrest, hsub]
  exact TreeHeap.ordered_meld (g := some _) (h := some _)
    ⟨fun w hw => ordered.1 w (Forest.roots_cut cut w hw), orest⟩
    ⟨fun w hw => @TreeHeap.not_less_trans _ (lessEntry less) _ _ sub.value _ up
      (osub.1 w hw), osub.2⟩

end Trees

namespace PairingHeap
variable {T : Type} {cmp : Comparator T} {μ : Memory T} {S : Shapes T} {i : HeapId}
  {h : TreeHeap (Entry T)} {p : Address} {old v : T}

theorem increasePriority_empty (i : HeapId) (v : T) :
    exec (increasePriority cmp i none v) μ =
      (.error (.invalidArgument "PairingHeap::increase_priority() received an empty handle."), μ) :=
  rfl

theorem increasePriority_lower (total : cmp.Total) (hμ : Shaped cmp.less μ S) (hi : S i = some h)
    (hp : (p, old) ∈ h.values) (lower : cmp.less v old = true) :
    ∃ μ', exec (increasePriority cmp i (some p) v) μ =
        (.error (.invalidArgument "The replacement value would lower the node's priority."), μ') ∧
      Shaped cmp.less μ' S := by
  obtain ⟨n, hn, rfl⟩ := Holds.alive (hμ.linked hi) (e := (p, old)) (by simpa using hp)
  refine ⟨_, ?_, hμ.count (μ.comparisons + 1)⟩
  rw [increasePriority, exec_bind_of_ok (exec_load hn),
    exec_bind_of_ok (compare_answers (total _) _ _)]
  simp [lower, Memory.compared]

/-- The tree that is left when the raised subtree is cut out and melded back at the top. -/
def regraft (less : T → T → Bool) (p : Address) (v : T) (t sub : HeapTree (Entry T))
    (rest : Forest (Entry T)) : TreeHeap (Entry T) :=
  TreeHeap.meld (lessEntry less) (some ⟨raiseAt p v t.value, rest.map (raiseAt p v)⟩)
    (some (sub.map (raiseAt p v)))

theorem values_regraft {less : T → T → Bool} {t sub : HeapTree (Entry T)}
    {rest : Forest (Entry T)} (cut : t.children.cut (isAt p) = some (sub, rest)) :
    (regraft less p v t sub rest).values.Perm (t.values.map (raiseAt p v)) := by
  have children := (Forest.values_cut cut).map (raiseAt p v)
  calc
    (regraft less p v t sub rest).values.Perm
        ((raiseAt p v t.value :: rest.values.map (raiseAt p v)) ++
          sub.values.map (raiseAt p v)) := by
      simpa [regraft] using TreeHeap.values_meld (lessEntry less)
        (some ⟨raiseAt p v t.value, rest.map (raiseAt p v)⟩) (some (sub.map (raiseAt p v)))
    List.Perm _ (raiseAt p v t.value ::
        (sub.values.map (raiseAt p v) ++ rest.values.map (raiseAt p v))) :=
      List.perm_append_comm.cons _
    List.Perm _ (t.values.map (raiseAt p v)) := by
      simpa [HeapTree.values] using children.symm

/-- The raised subtree is cut out of its heap: both are trees of their own. -/
theorem detachRaised_spec {t sub : HeapTree (Entry T)} {rest : Forest (Entry T)}
    (held : HeapAt μ.node (some (t.map (raiseAt p v)))) (nodup : (heapAddresses (some t)).Nodup)
    (cut : t.children.cut (isAt p) = some (sub, rest)) :
    ∃ μ', exec (detachFromParent p) μ = (.ok ⟨⟩, μ') ∧
      HeapAt μ'.node (some ⟨raiseAt p v t.value, rest.map (raiseAt p v)⟩) ∧
      HeapAt μ'.node (some (sub.map (raiseAt p v))) ∧
      (t.value.1 :: (addresses rest ++ heapAddresses (some sub))).Nodup ∧
      Frame (heapAddresses (some t)) μ μ' := by
  obtain ⟨root, children⟩ := (heapAt_some _ _).mp held
  have counts := ((Forest.values_cut cut).map Prod.fst).count_eq
  have cut' := @Forest.cut_map _ _ (raiseAt p v) (isAt p) (isAt p) t.children
    fun e => by simp [isAt]
  rw [cut] at cut'
  obtain ⟨μ₁, detach, hrest, hcut, hroot, frame₁⟩ := detachFromParent_spec cut' children
    (n := ⟨(raiseAt p v t.value).2, none, none, none, none⟩) root
    (by simpa using nodup)
  refine ⟨μ₁, detach, ?_, hcut, ?_, frame₁.mono ?_⟩
  · exact (heapAt_some _ _).mpr ⟨by simpa [withLink] using hroot, by simpa using hrest⟩
  · apply nodup_of_count nodup
    intro x
    have := counts x
    simp [List.count_cons, addresses, heapAddresses, HeapTree.values] at this ⊢
    omega
  · intro x
    simp [List.count_cons]

theorem regraft_spec (total : cmp.Total) {t sub : HeapTree (Entry T)} {rest : Forest (Entry T)}
    (held : HeapAt μ.node (some (t.map (raiseAt p v)))) (nodup : (heapAddresses (some t)).Nodup)
    (cut : t.children.cut (isAt p) = some (sub, rest)) :
    ∃ μ', exec (detachFromParent p >>= fun _ => meldNodes cmp (rootPtr (some t)) (some p)) μ =
        (.ok (rootPtr (regraft cmp.less p v t sub rest)), μ') ∧
      HeapAt μ'.node (regraft cmp.less p v t sub rest) ∧ Frame (heapAddresses (some t)) μ μ' := by
  have hsub := isAt_iff.mp (Forest.sel_of_cut cut)
  have counts := ((Forest.values_cut cut).map Prod.fst).count_eq
  obtain ⟨μ₁, detach, hrest, hcut, nodup', frame₁⟩ := detachRaised_spec held nodup cut
  obtain ⟨μ₂, meld, held₂, frame₂⟩ := meldNodes_spec total hrest hcut
    (by simpa [heapAddresses, addresses, HeapTree.values] using nodup')
  refine ⟨μ₂, ?_, held₂, frame₁.trans (frame₂.mono ?_)⟩
  · rw [exec_bind_of_ok detach]
    simpa [rootPtr, hsub, regraft] using meld
  · intro x
    have := counts x
    simp [List.count_cons, heapAddresses, HeapTree.values] at this ⊢
    omega

/-- The first comparison has been answered and the new value is stored. -/
def raised (μ : Memory T) (p : Address) (n : Node T) (v : T) : Memory T :=
  μ.compared.write p { n with value := v }

section Raised
variable {n : Node T} {q : Entry T}

theorem increasePriority_raises (answers : cmp.throwsAt μ.comparisons = false)
    (hμ : Shaped cmp.less μ S) (hi : S i = some h) (hn : μ.node p = some n)
    (up : cmp.less v n.value = false) :
    exec (increasePriority cmp i (some p) v) μ = exec (do
      if some p = rootPtr h ∨ n.parent = none then return
      let parent ← load n.parent
      if ← compare cmp parent.value v then
        detachFromParent p
        let root ← meldNodes cmp (rootPtr h) (some p)
        setObject i ⟨root, h.values.length⟩) (raised μ p n v) := by
  have hn₁ : μ.compared.node p = some n := hn
  have object₂ : exec (object i) (raised μ p n v) = (.ok (objectOf h), raised μ p n v) := by
    simp [object, exec_bind, raised, Memory.compared, hμ.object, hi]
  rw [increasePriority, exec_bind_of_ok (exec_load hn),
    exec_bind_of_ok (compare_answers answers _ _)]
  simp only [up]
  exact (exec_bind_of_ok (exec_update _ hn₁)).trans (exec_bind_of_ok object₂)

theorem parent_eq (hμ : Shaped cmp.less μ S) (hi : S i = some h) (hp : (p, old) ∈ h.values)
    (hn : μ.node p = some n) :
    n.parent = ((asForest h).parentOf (isAt p) none).map Prod.fst := by
  have hpa : p ∈ addresses (asForest h) := by simpa [heapAddresses] using ⟨_, hp⟩
  exact @Holds.parent _ _ p n none none _ (hμ.linked hi) (by simpa using hμ.nodup hi) hpa hn

/-- The parent of the raised node is compared with it. -/
theorem increasePriority_asks (answers : cmp.throwsAt μ.comparisons = false)
    (hμ : Shaped cmp.less μ S) (hi : S i = some h) (hp : (p, old) ∈ h.values)
    (hn : μ.node p = some n) (up : cmp.less v n.value = false)
    (hq : (asForest h).parentOf (isAt p) none = some q) :
    exec (increasePriority cmp i (some p) v) μ = exec (do
      if ← compare cmp q.2 v then
        detachFromParent p
        let root ← meldNodes cmp (rootPtr h) (some p)
        setObject i ⟨root, h.values.length⟩) (raised μ p n v) := by
  obtain ⟨t, rfl, hroot, -⟩ := parentOf_asForest hq
  obtain ⟨hqv, hqp⟩ := (Forest.parentOf_mem hq).resolve_left (by simp)
  obtain ⟨m, hm, same⟩ := Holds.alive (hμ.linked hi) hqv
  have hm₂ : (raised μ p n v).node q.1 = some m := by
    have : q.1 ≠ p := by simpa [isAt] using hqp
    simp [raised, Memory.compared, this, hm]
  rw [increasePriority_raises answers hμ hi hn up,
    if_neg (by simp [rootPtr, Ne.symm hroot, parent_eq hμ hi hp hn, hq]),
    parent_eq hμ hi hp hn, hq, Option.map_some, exec_bind_of_ok (exec_load hm₂), same]

/-- The value is stored and no link is touched. -/
theorem linked_raised (hμ : Shaped cmp.less μ S) (hi : S i = some h) (hn : μ.node p = some n) :
    HeapAt (raised μ p n v).node (raiseHeap p v h) := by
  rw [HeapAt, asForest_raiseHeap]
  exact Holds.raise (hμ.linked hi) hn v

theorem cut_exists {t : HeapTree (Entry T)} (hp : p ∈ addresses t.children) :
    ∃ sub rest, t.children.cut (isAt p) = some (sub, rest) := by
  obtain ⟨⟨sub, rest⟩, cut⟩ : ∃ r, t.children.cut (isAt p) = some r := by
    apply Option.ne_none_iff_exists'.mp
    intro hnone
    obtain ⟨e, he, hep⟩ := List.mem_map.mp hp
    simpa [isAt, hep] using Forest.cut_eq_none_iff.mp hnone e he
  exact ⟨sub, rest, cut⟩

end Raised

variable [IsStrictWeakOrder T fun a b => cmp.less a b = true]

theorem increasePriority_spec (total : cmp.Total) (hμ : Shaped cmp.less μ S) (hi : S i = some h)
    (hp : (p, old) ∈ h.values) (up : cmp.less v old = false) :
    ∃ μ' h', exec (increasePriority cmp i (some p) v) μ = (.ok ⟨⟩, μ') ∧
      Shaped cmp.less μ' (Function.update S i (some h')) ∧
      h'.values.Perm (h.values.map (raiseAt p v)) := by
  obtain ⟨n, hn, rfl⟩ := Holds.alive (hμ.linked hi) (e := (p, old)) (by simpa using hp)
  have hpa : p ∈ heapAddresses h := List.mem_map.mpr ⟨_, hp, rfl⟩
  have stay : (∀ q, (asForest h).parentOf (isAt p) none = some q → cmp.less q.2 v = false) →
      Shaped cmp.less (raised μ p n v) (Function.update S i (some (raiseHeap p v h))) := by
    intro below
    refine hμ.modify hi ?_ rfl ?_ (linked_raised hμ hi hn)
      (ordered_raise (hμ.ordered hi) (hμ.nodup hi) hp up below)
      (heapAddresses_raiseHeap h ▸ List.Subperm.refl _)
    · simp [raised, Memory.compared, hμ.object, hi]
    · intro a ha
      have : a ≠ p := fun he => ha (he ▸ hpa)
      simp [raised, Memory.compared, this]
  cases hq : (asForest h).parentOf (isAt p) none with
  | none =>
    refine ⟨raised μ p n v, raiseHeap p v h, ?_, stay fun q h => ?_, by simp⟩
    · rw [increasePriority_raises (total _) hμ hi hn up,
        if_pos (.inr (by simp [parent_eq hμ hi hp hn, hq]))]
      rfl
    · rw [hq] at h
      cases h
  | some q =>
    have start := increasePriority_asks (total _) hμ hi hp hn up hq
    rw [exec_bind_of_ok (compare_answers (total _) _ _)] at start
    obtain ⟨t, rfl, -, hpc⟩ := parentOf_asForest hq
    cases hless : cmp.less q.2 v with
    | false =>
      refine ⟨(raised μ p n v).compared, raiseHeap p v (some t), ?_,
        (stay fun q' hq' => ?_).count _, by simp⟩
      · rw [start, hless]
        rfl
      · rw [hq] at hq'
        cases hq'
        exact hless
    | true =>
      simp only [hless, if_true] at start
      obtain ⟨sub, rest, cut⟩ := cut_exists hpc
      obtain ⟨μ₄, run, held, frame⟩ := @regraft_spec _ _ (raised μ p n v).compared _ _ total _ _ _
        (linked_raised hμ hi hn) (hμ.nodup hi) cut
      have perm := @values_regraft _ _ v cmp.less _ _ _ cut
      have sized : objectOf (regraft cmp.less p v t sub rest) =
          ⟨rootPtr (regraft cmp.less p v t sub rest), (TreeHeap.values (some t)).length⟩ := by
        simp [objectOf, perm.length_eq]
      have subAt := Forest.sel_of_cut cut
      have hsub : sub.value = (p, n.value) := by
        refine List.inj_on_of_nodup_map (hμ.nodup hi) ?_ hp (isAt_iff.mp subAt)
        have : sub.value ∈ t.children.values :=
          (Forest.values_cut cut).mem_iff.mpr (by simp [HeapTree.values])
        simp [HeapTree.values, this]
      refine ⟨μ₄.setHeap i (some (objectOf (regraft cmp.less p v t sub rest))), _, ?_,
        hμ.modify hi ?_ frame.fresh (fun a ha => ?_) held
          (ordered_cut_raise (hμ.ordered hi) (hμ.nodup hi) cut (by rwa [hsub])) ?_,
        by simpa using perm⟩
      · rw [start, sized, ← bind_assoc]
        exact exec_bind_of_ok run
      · simp [Memory.setHeap, frame.heap, raised, Memory.compared]
      · have hap : a ≠ p := fun he => ha (he ▸ hpa)
        simp [frame.node a ha, raised, Memory.compared, hap]
      · have := perm.map Prod.fst
        simpa [heapAddresses] using this.subperm

end PairingHeap

end Yellowstone.Collections
