import Yellowstone.Collections.HeapLayout

/-!
# `meld_nodes` and `combine_children` build the textbook trees

Each program is run on a store that holds its arguments; the result holds the tree that
the library operation computes, and nothing outside the arguments' nodes has changed.
-/

set_option autoImplicit false

namespace Yellowstone.Collections

open Throwing

section Primitives
variable {T : Type} {μ : Memory T} {a : Address} {n : Node T}

@[simp] theorem node_write (b : Address) :
    (μ.write a n).node b = if b = a then some n else μ.node b := by
  simp [Memory.write, Function.update_apply]

@[simp] theorem fresh_write : (μ.write a n).fresh = μ.fresh := rfl

@[simp] theorem heap_write : (μ.write a n).heap = μ.heap := rfl

@[simp] theorem comparisons_write : (μ.write a n).comparisons = μ.comparisons := rfl

theorem exec_load (h : μ.node a = some n) : exec (load (some a)) μ = (.ok n, μ) := by
  simp [load, exec_bind, h]

theorem exec_update (f : Node T → Node T) (h : μ.node a = some n) :
    exec (update (some a) f) μ = (.ok ⟨⟩, μ.write a (f n)) := by
  simp [update, exec_bind, exec_load h]

/-- The comparator answers at every call, without throwing. -/
def Comparator.Total (cmp : Comparator T) : Prop := ∀ k, cmp.throwsAt k = false

def Memory.compared (μ : Memory T) : Memory T := { μ with comparisons := μ.comparisons + 1 }

theorem compare_answers {cmp : Comparator T} (answers : cmp.throwsAt μ.comparisons = false)
    (x y : T) : exec (compare cmp x y) μ = (.ok (cmp.less x y), μ.compared) := by
  simp [compare, exec_bind, answers, Memory.compared]

theorem compare_throws {cmp : Comparator T} (throws : cmp.throwsAt μ.comparisons = true)
    (x y : T) : exec (compare cmp x y) μ = (.error .comparatorThrew, μ.compared) := by
  simp [compare, exec_bind, throws, Memory.compared]

end Primitives

/-- Separation facts are derived from one another by counting addresses. -/
theorem nodup_of_count {l l' : List Address} (h : l.Nodup)
    (le : ∀ x, l'.count x ≤ l.count x) : l'.Nodup :=
  List.nodup_iff_count.mpr fun x =>
    Nat.le_trans (le x) (List.nodup_iff_count.mp h x)

/-- What a program may have changed: the nodes it touched and the comparison counter. -/
structure Frame {T : Type} (touched : List Address) (μ μ' : Memory T) : Prop where
  node : ∀ a, a ∉ touched → μ'.node a = μ.node a
  fresh : μ'.fresh = μ.fresh
  heap : μ'.heap = μ.heap

namespace Frame
variable {T : Type} {μ μ' μ'' : Memory T} {l l' : List Address}

theorem refl (l : List Address) (μ : Memory T) : Frame l μ μ := ⟨fun _ _ => rfl, rfl, rfl⟩

theorem trans (h : Frame l μ μ') (k : Frame l μ' μ'') : Frame l μ μ'' :=
  ⟨fun a ha => (k.node a ha).trans (h.node a ha), k.fresh.trans h.fresh, k.heap.trans h.heap⟩

theorem mono (h : Frame l μ μ') (le : ∀ x, l.count x ≤ l'.count x) : Frame l' μ μ' :=
  ⟨fun a ha => h.node a fun hl => by
    have := List.count_pos_iff.mpr hl
    have := List.count_eq_zero.mpr ha
    have := le a
    omega, h.fresh, h.heap⟩

theorem node_eq (h : Frame l μ μ') {a : Address} (apart : (l ++ [a]).Nodup) :
    μ'.node a = μ.node a :=
  h.node a fun ha => (List.nodup_append.mp apart).2.2 a ha a (by simp) rfl

theorem holds (frame : Frame l μ μ') {p q : NodePtr} {f : Forest (Entry T)}
    (apart : (l ++ addresses f).Nodup) (h : Holds μ.node p q f) : Holds μ'.node p q f :=
  h.congr fun a ha => frame.node a fun hl => (List.nodup_append.mp apart).2.2 a hl a ha rfl

theorem heapAt (frame : Frame l μ μ') {h : TreeHeap (Entry T)}
    (apart : (l ++ heapAddresses h).Nodup) (hh : HeapAt μ.node h) : HeapAt μ'.node h :=
  frame.holds (by simpa using apart) hh

end Frame

namespace PairingHeap
variable {T : Type} {cmp : Comparator T} {μ : Memory T}

theorem exec_clearLinks {a : Address} {n : Node T} (h : μ.node a = some n) :
    exec (clearLinks (some a)) μ = (.ok ⟨⟩, μ.write a { n with
      parent := none, previousSibling := none, nextSibling := none }) := by
  rw [clearLinks, exec_bind_of_ok (exec_update _ h), exec_bind_of_ok (exec_update _ (by simp; rfl)),
    exec_update _ (by simp; rfl)]
  simp [Memory.write]

/-- A write outside a forest is invisible to it. -/
theorem holds_write {a : Address} {n : Node T} {p q : NodePtr} {f : Forest (Entry T)}
    (ha : a ∉ addresses f) : Holds (μ.write a n).node p q f ↔ Holds μ.node p q f := by
  have same : ∀ b ∈ addresses f, (μ.write a n).node b = μ.node b := fun b hb => by
    have : b ≠ a := fun he => ha (he ▸ hb)
    simp [this]
  exact ⟨fun h => h.congr fun b hb => (same b hb).symm, fun h => h.congr same⟩

/-- The loser becomes the winner's first child and the old first child its next sibling. -/
theorem linkChild_spec {s t : HeapTree (Entry T)} (hs : HeapAt μ.node (some s))
    (ht : HeapAt μ.node (some t))
    (nodup : (heapAddresses (some s) ++ heapAddresses (some t)).Nodup) :
    ∃ μ', exec (linkChild s.value.1 t.value.1) μ = (.ok (some s.value.1), μ') ∧
      HeapAt μ'.node (some ⟨s.value, .node t.value t.children s.children⟩) ∧
      Frame (heapAddresses (some s) ++ heapAddresses (some t)) μ μ' := by
  obtain ⟨⟨l, x⟩, cs⟩ := s
  obtain ⟨⟨r, y⟩, ds⟩ := t
  rw [heapAt_some] at hs ht
  obtain ⟨hl, hcs⟩ := hs
  obtain ⟨hr, hds⟩ := ht
  simp only [heapAddresses_some, List.nodup_append, List.nodup_cons, List.mem_cons] at *
  obtain ⟨⟨hlc, ncs⟩, ⟨hrd, nds⟩, disj⟩ := nodup
  have hlr : l ≠ r := disj l (.inl rfl) r (.inl rfl)
  have hld : l ∉ addresses ds := fun h => disj l (.inl rfl) l (.inr h) rfl
  have hrc : r ∉ addresses cs := fun h => disj r (.inr h) r (.inl rfl) rfl
  cases cs with
  | nil =>
    refine ⟨_, by
      simp [linkChild, setPrevious, exec_bind, exec_clearLinks, exec_update, exec_load, hl, hr, hlr,
        hlr.symm]
      rfl, ?_, ?_⟩
    · rw [heapAt_some]
      simp [hlr.symm, holds_write, hds, hld, hrd]
    · refine ⟨?_, rfl, rfl⟩
      intro a ha
      simp only [List.mem_append, List.mem_cons, not_or] at ha
      simp [ha]
  | node e es fs =>
    obtain ⟨c, z⟩ := e
    obtain ⟨hc, hes, hfs⟩ := hcs
    simp only [addresses_node, List.nodup_cons, List.nodup_append, List.mem_cons,
      List.mem_append, not_or] at hlc hrc ncs disj
    obtain ⟨hlc, hle, hlf⟩ := hlc
    obtain ⟨hrc, hre, hrf⟩ := hrc
    obtain ⟨⟨hce, hcf⟩, nes, nfs, _⟩ := ncs
    have hcd : c ∉ addresses ds := fun h => disj c (.inr (.inl rfl)) c (.inr h) rfl
    refine ⟨_, by
      simp [linkChild, setPrevious, exec_bind, exec_clearLinks, exec_update, exec_load, hl, hr, hc,
        hlr, hlr.symm, hlc, Ne.symm hlc, Ne.symm hrc]
      rfl, ?_, ?_⟩
    · rw [heapAt_some]
      simp [hlr.symm, Ne.symm hlc, hrc, holds_write, hds, hes, hfs, hld, hrd, hcd, hle, hlf, hre,
        hrf, hce, hcf]
    · refine ⟨?_, rfl, rfl⟩
      intro a ha
      simp only [addresses_node, List.mem_append, List.mem_cons, not_or] at ha
      simp [ha]

/-- The comparison is the first thing that `meld_nodes` does. -/
theorem meldNodes_asks {s t : HeapTree (Entry T)} (hs : HeapAt μ.node (some s))
    (ht : HeapAt μ.node (some t)) :
    exec (meldNodes cmp (rootPtr (some s)) (rootPtr (some t))) μ =
      exec (compare cmp s.value.2 t.value.2 >>= fun less =>
        if less then linkChild t.value.1 s.value.1 else linkChild s.value.1 t.value.1) μ := by
  have ls := exec_load ((heapAt_some _ _).mp hs).1
  have lt := exec_load ((heapAt_some _ _).mp ht).1
  simp only [rootPtr, meldNodes, exec_bind, ls, lt]

theorem meldNodes_spec (total : cmp.Total) {g h : TreeHeap (Entry T)} (hg : HeapAt μ.node g)
    (hh : HeapAt μ.node h) (nodup : (heapAddresses g ++ heapAddresses h).Nodup) :
    ∃ μ', exec (meldNodes cmp (rootPtr g) (rootPtr h)) μ =
        (.ok (rootPtr (TreeHeap.meld (lessEntry cmp.less) g h)), μ') ∧
      HeapAt μ'.node (TreeHeap.meld (lessEntry cmp.less) g h) ∧
      Frame (heapAddresses g ++ heapAddresses h) μ μ' := by
  cases g with
  | none => exact ⟨μ, by simp [rootPtr, meldNodes], hh, .refl _ μ⟩
  | some s =>
    cases h with
    | none => exact ⟨μ, by simp [rootPtr, meldNodes], hg, .refl _ μ⟩
    | some t =>
      simp only [TreeHeap.meld, HeapTree.link, lessEntry]
      rw [meldNodes_asks hg hh, exec_bind_of_ok (compare_answers (total _) _ _)]
      by_cases hless : cmp.less s.value.2 t.value.2 = true
      · simp only [hless, if_true]
        obtain ⟨μ', run, held, frame⟩ := @linkChild_spec _ μ.compared _ _ hh hg
          (List.perm_append_comm.nodup nodup)
        exact ⟨μ', run, held, ⟨fun a ha => frame.node a fun h =>
          ha (List.perm_append_comm.mem_iff.mp h), frame.fresh, frame.heap⟩⟩
      · simp only [hless]
        obtain ⟨μ', run, held, frame⟩ := @linkChild_spec _ μ.compared _ _ hg hh nodup
        exact ⟨μ', run, held, ⟨frame.node, frame.fresh, frame.heap⟩⟩

/-- Unlinking a node leaves a tree of its own, with the same children. -/
theorem clearLinks_spec {e : Entry T} {cs : Forest (Entry T)} {p q next : NodePtr}
    (he : μ.node e.1 = some ⟨e.2, p, q, first cs, next⟩) (hcs : Holds μ.node (some e.1) none cs)
    (nodup : (e.1 :: addresses cs).Nodup) :
    ∃ μ', exec (clearLinks (some e.1)) μ = (.ok ⟨⟩, μ') ∧ HeapAt μ'.node (some ⟨e, cs⟩) ∧
      Frame [e.1] μ μ' := by
  refine ⟨_, exec_clearLinks he, ?_, ⟨?_, rfl, rfl⟩⟩
  · rw [heapAt_some]
    exact ⟨by simp, (holds_write (List.nodup_cons.mp nodup).1).mpr hcs⟩
  · intro a ha
    have hae : a ≠ e.1 := by simpa using ha
    simp [hae]

/-- Redirecting the first root's previous link leaves the forest as it is otherwise. -/
theorem setPrevious_spec {f : Forest (Entry T)} {p q : NodePtr} (hf : Holds μ.node p q f)
    (nodup : (addresses f).Nodup) (r : NodePtr) :
    ∃ μ', exec (setPrevious (first f) r) μ = (.ok ⟨⟩, μ') ∧ Holds μ'.node p r f ∧
      Frame (addresses f) μ μ' := by
  cases f with
  | nil => exact ⟨μ, by simp [setPrevious], trivial, .refl _ μ⟩
  | node e cs ss =>
    refine ⟨μ.write e.1 ⟨e.2, p, r, first cs, first ss⟩, ?_, ?_, ⟨?_, rfl, rfl⟩⟩
    · simp [setPrevious, exec_update _ hf.1]
    · apply hf.setPrevious nodup
      · intro a n hfirst hn
        cases hfirst
        rw [hf.1] at hn
        cases hn
        simp
      · intro a _ hfirst
        have : a ≠ e.1 := fun h => hfirst (by simp [h])
        simp [this]
    · intro a ha
      simp only [addresses_node, List.mem_cons, not_or] at ha
      simp [ha.1]

theorem heapAddresses_meld (cmp : Comparator T) (g h : TreeHeap (Entry T)) :
    (heapAddresses (TreeHeap.meld (lessEntry cmp.less) g h)).Perm
      (heapAddresses g ++ heapAddresses h) := by
  simpa [heapAddresses] using (TreeHeap.values_meld (lessEntry cmp.less) g h).map Prod.fst

theorem prependPaired_spec {t : HeapTree (Entry T)} {g : Forest (Entry T)}
    (ht : HeapAt μ.node (some t)) (hg : Holds μ.node none none g)
    (nodup : (heapAddresses (some t) ++ addresses g).Nodup) :
    ∃ μ', exec (prependPaired (some t.value.1) (first g)) μ = (.ok ⟨⟩, μ') ∧
      Holds μ'.node none none (.node t.value t.children g) ∧
      Frame (heapAddresses (some t) ++ addresses g) μ μ' := by
  obtain ⟨⟨a, x⟩, cs⟩ := t
  rw [heapAt_some] at ht
  obtain ⟨ha, hcs⟩ := ht
  simp only [heapAddresses_some, List.nodup_append, List.nodup_cons, List.mem_cons] at *
  obtain ⟨⟨hac, ncs⟩, ng, disj⟩ := nodup
  have hag : a ∉ addresses g := fun h => disj a (.inl rfl) a h rfl
  cases g with
  | nil =>
    refine ⟨_, by simp [prependPaired, setPrevious, exec_update _ ha]; rfl, ?_, ?_⟩
    · simp [holds_write, hac, hcs]
    · refine ⟨?_, rfl, rfl⟩
      intro b hb
      simp only [List.mem_append, List.mem_cons, not_or] at hb
      simp [hb]
  | node e es gs =>
    obtain ⟨c, z⟩ := e
    obtain ⟨hc, hes, hgs⟩ := hg
    simp only [addresses_node, List.mem_cons, List.mem_append, not_or, List.nodup_cons]
      at hag ng disj
    have hcc : c ∉ addresses cs := fun h => disj c (.inr h) c (.inl rfl) rfl
    refine ⟨_, by
      simp [prependPaired, setPrevious, exec_bind, exec_update, ha, hc, Ne.symm hag.1]
      rfl, ?_, ?_⟩
    · simp [holds_write, hac, hcs, hag, hes, hgs, ng, hcc]
    · refine ⟨?_, rfl, rfl⟩
      intro b hb
      simp only [addresses_node, List.mem_append, List.mem_cons, not_or] at hb
      simp [hb]

/-- The first loop collects the melded neighbours in reverse order. One round takes two
roots, so as many rounds as roots are enough. -/
theorem pairAdjacent_spec (total : cmp.Total) {f g : Forest (Entry T)} {p q : NodePtr}
    {rounds : Nat} (hf : Holds μ.node p q f) (hg : Holds μ.node none none g)
    (nodup : (addresses f ++ addresses g).Nodup) (enough : f.roots.length ≤ rounds) :
    ∃ μ', exec (pairAdjacent cmp rounds (first g) (first f)) μ =
        (.ok (first (TreeHeap.collect (lessEntry cmp.less) g f)), μ') ∧
      Holds μ'.node none none (TreeHeap.collect (lessEntry cmp.less) g f) ∧
      Frame (addresses f ++ addresses g) μ μ' := by
  induction f using TreeHeap.pairs.induct generalizing g p q μ rounds with
  | case1 => exact ⟨μ, by simp [pairAdjacent, TreeHeap.collect], hg, .refl _ μ⟩
  | case2 a as =>
    obtain ⟨rounds, rfl⟩ : ∃ r, rounds = r + 1 := ⟨rounds - 1, by simp at enough; omega⟩
    obtain ⟨ha, has, -⟩ := hf
    simp only [addresses_node, addresses_nil, List.append_nil] at nodup ⊢
    obtain ⟨μ₁, clear, held, frame₁⟩ := clearLinks_spec ha has (List.nodup_append.mp nodup).1
    have hg₁ := frame₁.holds (nodup_of_count nodup fun x => by simp [List.count_cons]) hg
    obtain ⟨μ₂, prepend, done, frame₂⟩ := prependPaired_spec held hg₁ nodup
    refine ⟨μ₂, ?_, done, (frame₁.mono ?_).trans frame₂⟩
    · simp only [first_node, pairAdjacent]
      rw [exec_bind_of_ok (exec_load ha)]
      simp only [first_nil, pure_bind]
      rw [exec_bind_of_ok clear, exec_bind_of_ok prepend]
      cases rounds <;> simp [pairAdjacent, TreeHeap.collect]
    · intro x
      simp [List.count_cons]
  | case3 a as b bs rest ih =>
    obtain ⟨rounds, rfl⟩ : ∃ r, rounds = r + 1 := ⟨rounds - 1, by simp at enough; omega⟩
    obtain ⟨ha, has, hb, hbs, hrest⟩ := hf
    simp only [addresses_node] at nodup ⊢
    have sep := fun l' => @nodup_of_count _ l' nodup
    simp [List.count_cons] at sep
    -- both trees become roots of their own, and are melded
    obtain ⟨μ₁, clear₁, held₁, frame₁⟩ := clearLinks_spec ha has
      (sep _ fun x => by simp [List.count_cons])
    have hb₁ : μ₁.node b.1 = _ :=
      (frame₁.node_eq (sep _ fun x => by simp [List.count_cons]; omega)).trans hb
    have hbs₁ := frame₁.holds (sep _ fun x => by simp [List.count_cons]; omega) hbs
    obtain ⟨μ₂, clear₂, held₂, frame₂⟩ := clearLinks_spec hb₁ hbs₁
      (sep _ fun x => by simp [List.count_cons]; omega)
    have held₁' := frame₂.heapAt (sep _ fun x => by simp [List.count_cons]; omega) held₁
    obtain ⟨μ₃, meld, held₃, frame₃⟩ := meldNodes_spec total held₁' held₂
      (sep _ fun x => by simp [List.count_cons])
    have perm := (heapAddresses_meld cmp (some ⟨a, as⟩) (some ⟨b, bs⟩)).count_eq
    simp only [TreeHeap.collect, TreeHeap.meld] at meld held₃ perm ⊢
    generalize HeapTree.link (lessEntry cmp.less) ⟨a, as⟩ ⟨b, bs⟩ = m at *
    simp [List.count_cons] at perm
    have frame₁₃ : Frame (a.1 :: addresses as ++ b.1 :: addresses bs) μ μ₃ :=
      ((frame₁.mono fun x => by simp [List.count_cons]).trans
        (frame₂.mono fun x => by simp [List.count_cons]; omega)).trans
        (frame₃.mono fun x => by simp [List.count_cons])
    -- the merged tree joins the collected ones; the remaining roots have not been touched
    have hg₃ := frame₁₃.holds (sep _ fun x => by simp [List.count_cons]) hg
    obtain ⟨μ₄, prepend, held₄, frame₄⟩ := prependPaired_spec held₃ hg₃
      (sep _ fun x => by have := perm x; simp [List.count_cons]; omega)
    have hrest₃ := frame₁₃.holds (sep _ fun x => by simp [List.count_cons]) hrest
    have hrest₄ := frame₄.holds
      (sep _ fun x => by have := perm x; simp [List.count_cons]; omega) hrest₃
    obtain ⟨μ₅, run, done, frame₅⟩ := ih hrest₄ held₄
      (sep _ fun x => by have := perm x; simp [List.count_cons]; omega)
      (show _ ≤ rounds by simp at enough; omega)
    refine ⟨μ₅, ?_, done, ?_⟩
    · simp only [first_node, pairAdjacent]
      rw [exec_bind_of_ok (exec_load ha)]
      simp only [first_node]
      rw [exec_bind_of_ok (exec_load hb)]
      simp only [pure_bind]
      rw [exec_bind_of_ok clear₁, exec_bind_of_ok clear₂]
      erw [exec_bind_of_ok meld, exec_bind_of_ok prepend]
      exact run
    · refine (frame₁₃.mono fun x => ?_).trans
        ((frame₄.mono fun x => ?_).trans (frame₅.mono fun x => ?_)) <;>
        (have counts := perm x; simp [List.count_cons] <;> omega)

/-- The second loop drains the collected roots into the result. -/
theorem meldRoots_spec (total : cmp.Total) {g : Forest (Entry T)} {r : TreeHeap (Entry T)}
    {rounds : Nat} {q : NodePtr} (hg : Holds μ.node none q g) (hr : HeapAt μ.node r)
    (nodup : (addresses g ++ heapAddresses r).Nodup) (enough : g.roots.length ≤ rounds) :
    ∃ μ', exec (meldRoots cmp rounds (rootPtr r) (first g)) μ =
        (.ok (rootPtr (TreeHeap.drain (lessEntry cmp.less) r g)), μ') ∧
      HeapAt μ'.node (TreeHeap.drain (lessEntry cmp.less) r g) ∧
      Frame (addresses g ++ heapAddresses r) μ μ' := by
  induction g generalizing r μ rounds q with
  | nil => exact ⟨μ, by simp [meldRoots, TreeHeap.drain], hr, .refl _ μ⟩
  | node a as rest _ ih =>
    obtain ⟨rounds, rfl⟩ : ∃ k, rounds = k + 1 := ⟨rounds - 1, by simp at enough; omega⟩
    obtain ⟨ha, has, hrest⟩ := hg
    simp only [addresses_node] at nodup ⊢
    have sep := fun l' => @nodup_of_count _ l' nodup
    simp [List.count_cons] at sep
    obtain ⟨μ₁, clear, held₁, frame₁⟩ := clearLinks_spec ha has
      (sep _ fun x => by simp [List.count_cons])
    have hrest₁ := frame₁.holds (sep _ fun x => by simp [List.count_cons]; omega) hrest
    obtain ⟨μ₂, reset, hrest₂, frame₂⟩ := setPrevious_spec hrest₁
      (sep _ fun x => by omega) none
    have held₂ := frame₂.heapAt (sep _ fun x => by simp [List.count_cons]; omega) held₁
    have hr₂ := frame₂.heapAt (sep _ fun x => by simp; omega)
      (frame₁.heapAt (sep _ fun x => by simp [List.count_cons]; omega) hr)
    obtain ⟨μ₃, meld, held₃, frame₃⟩ := meldNodes_spec total held₂ hr₂
      (sep _ fun x => by simp [List.count_cons])
    have perm := (heapAddresses_meld cmp (some ⟨a, as⟩) r).count_eq
    simp [List.count_cons] at perm
    obtain ⟨μ₄, run, done, frame₄⟩ := ih
      (frame₃.holds (sep _ fun x => by simp [List.count_cons]; omega) hrest₂) held₃
      (sep _ fun x => by have := perm x; simp; omega)
      (show _ ≤ rounds by simp at enough; omega)
    refine ⟨μ₄, ?_, done, ?_⟩
    · simp only [first_node, meldRoots]
      rw [exec_bind_of_ok (exec_load ha), exec_bind_of_ok clear, exec_bind_of_ok reset]
      erw [exec_bind_of_ok meld]
      exact run
    · refine (frame₁.mono fun x => ?_).trans ((frame₂.mono fun x => ?_).trans
        ((frame₃.mono fun x => ?_).trans (frame₄.mono fun x => ?_))) <;>
        (have counts := perm x; simp [List.count_cons] <;> omega)

theorem addresses_collect (cmp : Comparator T) (f g : Forest (Entry T)) :
    (addresses (TreeHeap.collect (lessEntry cmp.less) g f)).Perm (addresses f ++ addresses g) := by
  simpa [addresses] using (TreeHeap.values_collect (lessEntry cmp.less) f g).map Prod.fst

/-- Distinct nodes number no more than the addresses handed out. -/
theorem roots_le_fresh {f : Forest (Entry T)} (nodup : (addresses f).Nodup)
    (issued : ∀ a ∈ addresses f, a < μ.fresh) : f.roots.length ≤ μ.fresh := by
  have le := (nodup.subperm fun a ha => List.mem_range.mpr (issued a ha)).length_le
  rw [List.length_range, addresses, List.length_map] at le
  exact f.length_roots_le.trans le

/-- `combine_children` terminates with the tree of the textbook recursion. -/
theorem combineChildren_spec (total : cmp.Total) {f : Forest (Entry T)} {p q : NodePtr}
    (hf : Holds μ.node p q f) (nodup : (addresses f).Nodup)
    (issued : ∀ a ∈ addresses f, a < μ.fresh) :
    ∃ μ', exec (combineChildren cmp (first f)) μ =
        (.ok (rootPtr (TreeHeap.pairs (lessEntry cmp.less) f)), μ') ∧
      HeapAt μ'.node (TreeHeap.pairs (lessEntry cmp.less) f) ∧ Frame (addresses f) μ μ' := by
  obtain ⟨μ₁, pair, paired, frame₁⟩ := pairAdjacent_spec total hf (holds_nil _ _ _)
    (by simpa using nodup) (roots_le_fresh nodup issued)
  have perm := addresses_collect cmp f .nil
  rw [addresses_nil, List.append_nil] at perm frame₁
  have issued₁ : ∀ a ∈ addresses (TreeHeap.collect (lessEntry cmp.less) .nil f), a < μ₁.fresh :=
    fun a ha => frame₁.fresh ▸ issued a (perm.mem_iff.mp ha)
  obtain ⟨μ₂, run, held, frame₂⟩ := meldRoots_spec total paired (heapAt_none _)
    (by simpa using perm.nodup_iff.mpr nodup)
    (roots_le_fresh (perm.nodup_iff.mpr nodup) issued₁)
  rw [TreeHeap.drain_collect] at run held
  refine ⟨μ₂, ?_, held, frame₁.trans (frame₂.mono ?_)⟩
  · rw [combineChildren, exec_bind_of_ok (exec_get μ)]
    exact (exec_bind_of_ok pair).trans (frame₁.fresh ▸ run)
  · intro x
    simp [perm.count_eq]

end PairingHeap

end Yellowstone.Collections
