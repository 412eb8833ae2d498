import Yellowstone.Collections.HeapMeld

/-!
# Cutting a subtree out, and `destroy_tree`

`detach_from_parent` finds the subtree by the links of its root alone, wherever it hangs.
`destroy_tree` flattens child lists into a chain; only the two links it follows matter.
-/

set_option autoImplicit false

namespace Yellowstone.Collections

open Throwing PairingHeap

section Detach
variable {T : Type} {μ : Memory T}

/-- A child list is entered through its parent's child link or an elder sibling's link. -/
def withLink (previous : NodePtr) (n : Node T) (head : NodePtr) : Node T :=
  match previous with
  | none => { n with firstChild := head }
  | some _ => { n with nextSibling := head }

def isAt (p : Address) (e : Entry T) : Bool := e.1 == p

@[simp] theorem isAt_iff {p : Address} {e : Entry T} : isAt p e = true ↔ e.1 = p := by
  simp [isAt]

/-- Detaching the first node of a child list. -/
theorem detachHead_spec {e : Entry T} {cs ss : Forest (Entry T)} {q : Address}
    {previous : NodePtr} {n : Node T} (hf : Holds μ.node (some q) previous (.node e cs ss))
    (entry : μ.node (previous.getD q) = some (withLink previous n (some e.1)))
    (nodup : (previous.getD q :: addresses (.node e cs ss)).Nodup) :
    ∃ μ', exec (detachFromParent e.1) μ = (.ok ⟨⟩, μ') ∧
      Holds μ'.node (some q) previous ss ∧ HeapAt μ'.node (some ⟨e, cs⟩) ∧
      μ'.node (previous.getD q) = some (withLink previous n (first ss)) ∧
      Frame (previous.getD q :: addresses (.node e cs ss)) μ μ' := by
  obtain ⟨he, hcs, hss⟩ := hf
  have sep := fun l' => @nodup_of_count _ l' nodup
  simp [List.count_cons] at sep
  let μ₁ := μ.write (previous.getD q) (withLink previous n (first ss))
  have frame₁ : Frame [previous.getD q] μ μ₁ := by
    refine ⟨?_, rfl, rfl⟩
    intro a ha
    have : a ≠ previous.getD q := by simpa using ha
    simp [μ₁, this]
  obtain ⟨μ₂, redirect, hss₂, frame₂⟩ := setPrevious_spec
    (frame₁.holds (sep _ fun x => by simp [List.count_cons]; omega) hss)
    (sep _ fun x => by omega) previous
  have frame₁₂ : Frame (previous.getD q :: addresses ss) μ μ₂ :=
    (frame₁.mono fun x => by simp [List.count_cons]).trans
      (frame₂.mono fun x => by simp [List.count_cons])
  have he₂ : μ₂.node e.1 = _ :=
    (frame₁₂.node_eq (sep _ fun x => by simp [List.count_cons])).trans he
  have hcs₂ := frame₁₂.holds (sep _ fun x => by simp [List.count_cons]; omega) hcs
  obtain ⟨μ₃, clear, held, frame₃⟩ := clearLinks_spec he₂ hcs₂
    (sep _ fun x => by simp [List.count_cons]; omega)
  refine ⟨μ₃, ?_, frame₃.holds (sep _ fun x => by simp [List.count_cons]; omega) hss₂, held,
    ?_, (frame₁₂.mono fun x => ?_).trans (frame₃.mono fun x => ?_)⟩
  · rw [detachFromParent, exec_bind_of_ok (exec_load he)]
    simp only [reduceCtorEq, if_false]
    cases previous with
    | none =>
      exact (exec_bind_of_ok (exec_update _ entry)).trans ((exec_bind_of_ok redirect).trans clear)
    | some b =>
      exact (exec_bind_of_ok (exec_update _ entry)).trans ((exec_bind_of_ok redirect).trans clear)
  · rw [frame₃.node_eq (sep _ fun x => by simp [List.count_cons]; omega),
      frame₂.node_eq (sep _ fun x => by simp [List.count_cons]; omega)]
    simp [μ₁]
  · simp [List.count_cons]; omega
  · simp [List.count_cons]; omega

/-- The subtree may hang anywhere below `q`; the entry link changes if it hung there first. -/
theorem detachFromParent_spec {p : Address} {f rest : Forest (Entry T)}
    {sub : HeapTree (Entry T)} (h : f.cut (isAt p) = some (sub, rest)) {q : Address}
    {previous : NodePtr} {n : Node T} (hf : Holds μ.node (some q) previous f)
    (entry : μ.node (previous.getD q) = some (withLink previous n (first f)))
    (nodup : (previous.getD q :: addresses f).Nodup) :
    ∃ μ', exec (detachFromParent p) μ = (.ok ⟨⟩, μ') ∧
      Holds μ'.node (some q) previous rest ∧ HeapAt μ'.node (some sub) ∧
      μ'.node (previous.getD q) = some (withLink previous n (first rest)) ∧
      Frame (previous.getD q :: addresses f) μ μ' := by
  induction f generalizing rest q previous n with
  | nil => cases h
  | node e cs ss ihc ihs =>
    have sep := fun l' => @nodup_of_count _ l' nodup
    simp [List.count_cons] at sep
    rcases Forest.cut_node_cases h with ⟨he, rfl, rfl⟩ | ⟨_, cs', hc, rfl⟩ | ⟨_, _, ss', hs, rfl⟩
    · obtain rfl := isAt_iff.mp he
      exact detachHead_spec hf entry nodup
    · obtain ⟨he, hcs, hss⟩ := hf
      obtain ⟨μ', run, hcs', held, he', frame⟩ := ihc hc hcs
        (n := ⟨e.2, some q, previous, none, first ss⟩) he
        (sep _ fun x => by simp [List.count_cons]; omega)
      refine ⟨μ', run, ⟨he', hcs', frame.holds ?_ hss⟩, held, ?_, frame.mono ?_⟩
      · exact sep _ fun x => by simp [List.count_cons]
      · exact (frame.node_eq (sep _ fun x => by simp [List.count_cons]; omega)).trans entry
      · intro x
        simp [List.count_cons]; omega
    · obtain ⟨he, hcs, hss⟩ := hf
      obtain ⟨μ', run, hss', held, he', frame⟩ := ihs hs hss
        (n := ⟨e.2, some q, previous, first cs, none⟩) he
        (sep _ fun x => by simp [List.count_cons]; omega)
      refine ⟨μ', run, ⟨he', frame.holds ?_ hcs, hss'⟩, held, ?_, frame.mono ?_⟩
      · exact sep _ fun x => by simp [List.count_cons]; omega
      · exact (frame.node_eq (sep _ fun x => by simp [List.count_cons]; omega)).trans entry
      · intro x
        simp [List.count_cons]; omega

end Detach

/-! ## Values and parents -/

section Raise
variable {T : Type} {cells : Cells T}

/-- Stores a value in the node at one address. -/
def raiseAt (p : Address) (v : T) (e : Entry T) : Entry T := if e.1 = p then (p, v) else e

@[simp] theorem raiseAt_fst (p : Address) (v : T) (e : Entry T) : (raiseAt p v e).1 = e.1 := by
  unfold raiseAt
  split <;> simp_all

@[simp] theorem fst_comp_raiseAt (p : Address) (v : T) : Prod.fst ∘ raiseAt p v = Prod.fst :=
  funext (raiseAt_fst p v)

theorem raiseAt_at {p : Address} (v : T) {e : Entry T} (h : e.1 = p) : raiseAt p v e = (p, v) :=
  if_pos h

theorem raiseAt_other {p : Address} (v : T) {e : Entry T} (h : e.1 ≠ p) : raiseAt p v e = e :=
  if_neg h

@[simp] theorem first_map_raiseAt (p : Address) (v : T) (f : Forest (Entry T)) :
    first (f.map (raiseAt p v)) = first f := by
  cases f <;> simp

@[simp] theorem addresses_map_raiseAt (p : Address) (v : T) (f : Forest (Entry T)) :
    addresses (f.map (raiseAt p v)) = addresses f := by
  simp [addresses]

/-- Writing a value changes no link, so the forest keeps its shape. -/
theorem Holds.raise {p : Address} {n : Node T} {q previous : NodePtr} {f : Forest (Entry T)}
    (h : Holds cells q previous f) (hp : cells p = some n) (v : T) :
    Holds (Function.update cells p (some { n with value := v })) q previous
      (f.map (raiseAt p v)) := by
  induction f generalizing q previous with
  | nil => trivial
  | node e cs ss ihc ihs =>
    obtain ⟨he, hcs, hss⟩ := h
    simp only [Forest.map_node, holds_node, raiseAt_fst, first_map_raiseAt]
    refine ⟨?_, ihc hcs, ihs hss⟩
    by_cases hep : e.1 = p
    · rw [hep, hp] at he
      cases he
      simp [hep, raiseAt_at v hep]
    · simp [hep, raiseAt_other v hep, he]

/-- The parent link of a node names its parent in the forest. -/
theorem Holds.parent {p : Address} {n : Node T} {above : Option (Entry T)} {previous : NodePtr}
    {f : Forest (Entry T)} (h : Holds cells (above.map Prod.fst) previous f)
    (nodup : (addresses f).Nodup) (hp : p ∈ addresses f) (hn : cells p = some n) :
    n.parent = (f.parentOf (isAt p) above).map Prod.fst := by
  induction f generalizing above previous with
  | nil => simp at hp
  | node e cs ss ihc ihs =>
    obtain ⟨he, hcs, hss⟩ := h
    simp only [addresses_node, List.nodup_cons, List.nodup_append, List.mem_cons,
      List.mem_append] at nodup hp
    by_cases hep : e.1 = p
    · rw [hep, hn] at he
      cases he
      simp [Forest.parentOf, hep]
    · simp only [Forest.parentOf, if_neg (mt isAt_iff.mp hep)]
      have any : cs.values.any (isAt p) = true ↔ p ∈ addresses cs := by
        simp [addresses, isAt]
      by_cases hpc : p ∈ addresses cs
      · rw [if_pos (any.mpr hpc)]
        exact @ihc (some e) _ hcs nodup.2.1 hpc
      · rw [if_neg (mt any.mp hpc)]
        exact ihs hss nodup.2.2.1 ((hp.resolve_left (Ne.symm hep)).resolve_left hpc)

end Raise

/-! ## Destruction -/

section Destroy
variable {T : Type} {μ : Memory T}

/-- The links that `destroy_tree` follows: the parent and previous links are left open. -/
def Chained (cells : Cells T) : Forest (Entry T) → Prop
  | .nil => True
  | .node e cs ss =>
    (∃ n, cells e.1 = some n ∧ n.firstChild = first cs ∧ n.nextSibling = first ss) ∧
    Chained cells cs ∧ Chained cells ss

theorem Holds.chained {cells : Cells T} {p q : NodePtr} {f : Forest (Entry T)}
    (h : Holds cells p q f) : Chained cells f := by
  induction f generalizing p q with
  | nil => trivial
  | node e cs ss ihc ihs => exact ⟨⟨_, h.1, rfl, rfl⟩, ihc h.2.1, ihs h.2.2⟩

theorem Chained.congr {cells cells' : Cells T} {f : Forest (Entry T)} (h : Chained cells f)
    (same : ∀ a ∈ addresses f, ∀ n, cells a = some n → ∃ n', cells' a = some n' ∧
      n'.firstChild = n.firstChild ∧ n'.nextSibling = n.nextSibling) : Chained cells' f := by
  induction f with
  | nil => trivial
  | node e cs ss ihc ihs =>
    simp only [addresses_node, List.mem_cons, List.mem_append] at same
    obtain ⟨⟨n, hn, hfirst, hnext⟩, hcs, hss⟩ := h
    obtain ⟨n', hn', hfirst', hnext'⟩ := same e.1 (.inl rfl) n hn
    exact ⟨⟨n', hn', hfirst'.trans hfirst, hnext'.trans hnext⟩,
      ihc hcs fun a ha => same a (.inr (.inl ha)), ihs hss fun a ha => same a (.inr (.inr ha))⟩

/-- Resetting a previous link keeps every chain and every other node. -/
theorem resetPrevious_spec {f : Forest (Entry T)} (hf : Chained μ.node f) (r : NodePtr) :
    ∃ μ', exec (setPrevious (first f) r) μ = (.ok ⟨⟩, μ') ∧
      (∀ a n, μ.node a = some n → ∃ n', μ'.node a = some n' ∧
        n'.firstChild = n.firstChild ∧ n'.nextSibling = n.nextSibling) ∧
      Frame (addresses f) μ μ' := by
  cases f with
  | nil => exact ⟨μ, by simp [setPrevious], fun a n hn => ⟨n, hn, rfl, rfl⟩, .refl _ μ⟩
  | node e cs ss =>
    obtain ⟨⟨n, hn, _⟩, _⟩ := hf
    refine ⟨μ.write e.1 { n with previousSibling := r }, ?_, ?_,
      ⟨?_, rfl, rfl⟩⟩
    · simp [setPrevious, exec_update _ hn]
    · intro a m hm
      by_cases hae : a = e.1
      · rw [hae, hn] at hm
        cases hm
        exact ⟨{ n with previousSibling := r }, by simp [hae], rfl, rfl⟩
      · exact ⟨m, by simp [hae, hm], rfl, rfl⟩
    · intro a ha
      simp only [addresses_node, List.mem_cons, not_or] at ha
      simp [ha.1]

theorem Chained.of_frame {touched : List Address} {μ' : Memory T} {f : Forest (Entry T)}
    (h : Chained μ.node f) (frame : Frame touched μ μ') (apart : (touched ++ addresses f).Nodup) :
    Chained μ'.node f := by
  refine h.congr fun a ha n hn => ⟨n, ?_, rfl, rfl⟩
  rw [frame.node a fun hl => (List.nodup_append.mp apart).2.2 a hl a ha rfl, hn]

/-- What the loop does to a node: it follows or writes a link of it, or deletes it. -/
inductive Access where
  | touches (node : Address)
  | deletes (node : Address)
deriving DecidableEq, Repr

def Access.node : Access → Address
  | touches a | deletes a => a

def Access.deleted : Access → Option Address
  | touches _ => none
  | deletes a => some a

/-- The loop of `destroy_tree` with a record of its accesses. -/
def destroyLogged : Nat → (current : NodePtr) → HeapProg T (List Access)
  | _, none => pure []
  | 0, some _ => throw .unfinished
  | rounds + 1, some current => do
    let n ← load (some current)
    match n.firstChild with
    | some child => do
      let c ← load (some child)
      update (some current) fun m => { m with firstChild := c.nextSibling }
      setPrevious c.nextSibling none
      update (some child) fun m => { m with parent := none }
      update (some child) fun m => { m with previousSibling := none }
      update (some child) fun m => { m with nextSibling := some current }
      let later ← destroyLogged rounds (some child)
      pure (.touches current :: .touches child :: (c.nextSibling.toList.map .touches ++ later))
    | none => do
      deallocate current
      let later ← destroyLogged rounds n.nextSibling
      pure (.touches current :: .deletes current :: later)

/-- The record changes nothing. -/
theorem destroyLogged_forgets (rounds : Nat) (p : NodePtr) :
    (fun _ => ⟨⟩) <$> destroyLogged rounds p = (destroyLoop rounds p : HeapProg T PUnit) := by
  induction rounds generalizing p with
  | zero => cases p <;> rfl
  | succ rounds ih =>
    cases p with
    | none => rfl
    | some current =>
      simp only [destroyLogged, destroyLoop, map_bind]
      apply bind_congr
      intro n
      cases n.firstChild with
      | none => simp only [← ih, map_eq_pure_bind, bind_assoc, pure_bind]
      | some child => simp only [← ih, map_eq_pure_bind, bind_assoc, pure_bind]

/-- One round at a node with a child moves that child to the front of the chain. -/
theorem destroyLogged_promote {e c : Entry T} {ccs crest ss : Forest (Entry T)}
    (hf : Chained μ.node (.node e (.node c ccs crest) ss))
    (nodup : (addresses (.node e (.node c ccs crest) ss)).Nodup) :
    ∃ μ', (∀ rounds, exec (destroyLogged (rounds + 1) (some e.1)) μ =
        exec (do
          let later ← destroyLogged rounds (some c.1)
          pure (.touches e.1 :: .touches c.1 ::
            ((first crest).toList.map .touches ++ later))) μ') ∧
      Chained μ'.node (.node c ccs (.node e crest ss)) ∧
      Frame (addresses (.node e (.node c ccs crest) ss)) μ μ' := by
  obtain ⟨⟨n, hn, hfirst, hnext⟩, ⟨⟨m, hm, hmfirst, hmnext⟩, hccs, hcrest⟩, hss⟩ := hf
  simp only [addresses_node] at nodup ⊢
  have sep := fun l' => @nodup_of_count _ l' nodup
  simp [List.count_cons] at sep
  let μ₁ := μ.write e.1 { n with firstChild := m.nextSibling }
  have frame₁ : Frame [e.1] μ μ₁ := by
    refine ⟨?_, rfl, rfl⟩
    intro a ha
    have : a ≠ e.1 := by simpa using ha
    simp [μ₁, this]
  have hcrest₁ := hcrest.of_frame frame₁ (sep _ fun x => by simp [List.count_cons]; omega)
  obtain ⟨μ₂, reset, keep, frame₂⟩ := resetPrevious_spec hcrest₁ none
  have frame₁₂ : Frame (e.1 :: addresses crest) μ μ₂ :=
    (frame₁.mono fun x => by simp [List.count_cons]).trans
      (frame₂.mono fun x => by simp [List.count_cons])
  have hm₂ : μ₂.node c.1 = some m :=
    (frame₁₂.node_eq (sep _ fun x => by simp [List.count_cons]; omega)).trans hm
  let m' : Node T := { m with parent := none, previousSibling := none, nextSibling := some e.1 }
  let μ₃ := μ₂.write c.1 m'
  have frame₃ : Frame [c.1] μ₂ μ₃ := by
    refine ⟨?_, rfl, rfl⟩
    intro a ha
    have : a ≠ c.1 := by simpa using ha
    simp [μ₃, this]
  have frame : Frame (c.1 :: e.1 :: addresses crest) μ μ₃ :=
    (frame₁₂.mono fun x => by simp [List.count_cons]).trans
      (frame₃.mono fun x => by simp [List.count_cons])
  refine ⟨μ₃, fun rounds => ?_, ⟨⟨m', by simp [μ₃], hmfirst, rfl⟩,
    hccs.of_frame frame (sep _ fun x => by simp [List.count_cons]; omega),
    ⟨{ n with firstChild := m.nextSibling }, ?_, hmnext, hnext⟩,
    (hcrest₁.congr fun a _ => keep a).of_frame frame₃
      (sep _ fun x => by simp [List.count_cons]; omega),
    hss.of_frame frame (sep _ fun x => by simp [List.count_cons]; omega)⟩,
    frame.mono fun x => by simp [List.count_cons]; omega⟩
  · rw [destroyLogged, exec_bind_of_ok (exec_load hn), hfirst]
    have redirect : exec (setPrevious m.nextSibling none) μ₁ = (.ok ⟨⟩, μ₂) := hmnext ▸ reset
    dsimp only [first_node]
    rw [exec_bind_of_ok (exec_load hm), exec_bind_of_ok (exec_update _ hn)]
    erw [exec_bind_of_ok redirect]
    rw [exec_bind_of_ok (exec_update _ hm₂), exec_bind_of_ok (exec_update _ (by simp; rfl)),
      exec_bind_of_ok (exec_update _ (by simp; rfl))]
    simp [Memory.write, μ₃, m', hmnext]
  · rw [frame₃.node_eq (sep _ fun x => by simp [List.count_cons]; omega),
      frame₂.node_eq (sep _ fun x => by simp [List.count_cons]; omega)]
    simp [μ₁]

/-- A deleted node is left alone, and the nodes that are deleted are those of the forest. -/
structure DeletesOnce (nodes : List Address) (log : List Access) : Prop where
  deleted : (log.filterMap Access.deleted).Perm nodes
  within : ∀ x ∈ log, x.node ∈ nodes
  last : log.Pairwise fun x y => ∀ a, x = .deletes a → y.node ≠ a

theorem deletesOnce_promote {e c : Entry T} {ccs crest ss : Forest (Entry T)} {log : List Access}
    (h : DeletesOnce (addresses (.node c ccs (.node e crest ss))) log)
    (perm : (addresses (.node c ccs (.node e crest ss))).Perm
      (addresses (.node e (.node c ccs crest) ss))) :
    DeletesOnce (addresses (.node e (.node c ccs crest) ss))
      (.touches e.1 :: .touches c.1 :: ((first crest).toList.map .touches ++ log)) := by
  have touched : ∀ x ∈ (first crest).toList.map Access.touches,
      ∃ b, x = .touches b ∧ b ∈ addresses crest := by
    intro x hx
    cases crest with
    | nil => cases hx
    | node d ds dss =>
      obtain rfl := List.mem_singleton.mp hx
      exact ⟨d.1, rfl, by simp⟩
  refine ⟨?_, ?_, ?_⟩
  · have none : ((first crest).toList.map Access.touches).filterMap Access.deleted = [] := by
      apply List.filterMap_eq_nil_iff.mpr
      intro x hx
      obtain ⟨b, rfl, -⟩ := touched x hx
      rfl
    simpa [List.filterMap_cons, Access.deleted, none] using h.deleted.trans perm
  · intro x hx
    simp only [List.mem_cons, List.mem_append] at hx
    rcases hx with rfl | rfl | hx | hx
    · simp [Access.node]
    · simp [Access.node]
    · obtain ⟨b, rfl, hb⟩ := touched x hx
      simp [Access.node, hb]
    · exact perm.mem_iff.mp (h.within x hx)
  · refine .cons (by rintro _ _ _ ⟨⟩) (.cons (by rintro _ _ _ ⟨⟩) ?_)
    rw [List.pairwise_append]
    refine ⟨?_, h.last, ?_⟩
    · rw [List.pairwise_map]
      exact List.pairwise_of_forall fun _ _ _ => by rintro ⟨⟩
    · intro x hx y _ a same
      obtain ⟨b, rfl, -⟩ := touched x hx
      cases same

theorem deletesOnce_delete {e : Entry T} {ss : Forest (Entry T)} {log : List Access}
    (h : DeletesOnce (addresses ss) log) (fresh : e.1 ∉ addresses ss) :
    DeletesOnce (addresses (.node e .nil ss)) (.touches e.1 :: .deletes e.1 :: log) := by
  refine ⟨?_, ?_, ?_⟩
  · simpa [List.filterMap_cons, Access.deleted] using h.deleted.cons e.1
  · intro x hx
    simp only [List.mem_cons] at hx
    rcases hx with rfl | rfl | hx
    · simp [Access.node]
    · simp [Access.node]
    · simp [h.within x hx]
  · refine .cons (by rintro _ _ _ ⟨⟩) (.cons ?_ h.last)
    rintro y hy _ ⟨⟩ same
    exact fresh (same ▸ h.within y hy)

/-- The rounds left are bounded by the nodes not yet in the chain and the nodes not yet
deleted; every round lowers their sum by one. -/
theorem destroyLogged_spec (rounds : Nat) {f : Forest (Entry T)} (hf : Chained μ.node f)
    (nodup : (addresses f).Nodup) (enough : 2 * f.values.length ≤ rounds + f.roots.length) :
    ∃ log μ', exec (destroyLogged rounds (first f)) μ = (.ok log, μ') ∧
      DeletesOnce (addresses f) log ∧ (∀ a ∈ addresses f, μ'.node a = none) ∧
      Frame (addresses f) μ μ' := by
  induction rounds generalizing f μ with
  | zero =>
    cases f with
    | nil => exact ⟨[], μ, rfl, ⟨.nil, by simp, .nil⟩, by simp, .refl _ μ⟩
    | node e cs ss =>
      have := (Forest.node e cs ss).length_roots_le
      simp only [Forest.values_node, Forest.roots_node, List.length_cons] at enough this
      omega
  | succ rounds ih =>
    cases f with
    | nil => exact ⟨[], μ, rfl, ⟨.nil, by simp, .nil⟩, by simp, .refl _ μ⟩
    | node e cs ss =>
      simp only [Forest.values_node, Forest.roots_node, List.length_cons, List.length_append]
        at enough
      cases cs with
      | nil =>
        obtain ⟨⟨n, hn, hfirst, hnext⟩, -, hss⟩ := hf
        have fresh : e.1 ∉ addresses ss ∧ (addresses ss).Nodup := by simpa using nodup
        have erased : Frame [e.1] μ (μ.erase e.1) := by
          refine ⟨?_, rfl, rfl⟩
          intro a ha
          have : a ≠ e.1 := by simpa using ha
          simp [Memory.erase, this]
        obtain ⟨log, μ', run, once, gone, frame⟩ := ih (hss.of_frame erased (by simpa using nodup))
          fresh.2 (by simp only [Forest.values_nil, List.length_nil] at enough; omega)
        refine ⟨_, μ', ?_, deletesOnce_delete once fresh.1, ?_, (erased.mono ?_).trans
          (frame.mono ?_)⟩
        · rw [first_node, destroyLogged, exec_bind_of_ok (exec_load hn), hfirst, hnext]
          simp only [first_nil, deallocate, bind_assoc]
          rw [exec_bind_of_ok (exec_load hn), exec_bind_of_ok (exec_modify _ _),
            exec_bind_of_ok run]
          rfl
        · intro a ha
          simp only [addresses_node, addresses_nil, List.nil_append] at ha
          rcases List.mem_cons.mp ha with rfl | ha
          · rw [frame.node e.1 fresh.1]
            simp [Memory.erase]
          · exact gone a ha
        · intro x
          simp [List.count_cons]
        · intro x
          simp [List.count_cons]
      | node c ccs crest =>
        obtain ⟨μ₁, promote, hf₁, frame₁⟩ := destroyLogged_promote hf nodup
        have perm : (addresses (.node c ccs (.node e crest ss))).Perm
            (addresses (.node e (.node c ccs crest) ss)) := by
          apply List.perm_iff_count.mpr
          intro x
          simp [List.count_cons]
          omega
        obtain ⟨log, μ', run, once, gone, frame⟩ := ih hf₁ (perm.nodup_iff.mpr nodup) (by
          simp only [Forest.values_node, Forest.roots_node, List.length_cons,
            List.length_append] at enough ⊢
          omega)
        refine ⟨_, μ', ?_, deletesOnce_promote once perm, fun a ha => gone a (perm.mem_iff.mpr ha),
          frame₁.trans (frame.mono fun x => (perm.count_eq x).le)⟩
        rw [first_node, promote]
        exact exec_bind_of_ok run

/-- `destroy_tree` with a record of its accesses. -/
def destroyTreeLogged (root : NodePtr) : HeapProg T (List Access) := do
  let rounds := 2 * (← get).fresh
  destroyLogged rounds root

theorem destroyTreeLogged_forgets (root : NodePtr) :
    (fun _ => ⟨⟩) <$> destroyTreeLogged root = (destroyTree root : HeapProg T PUnit) := by
  simp only [destroyTreeLogged, destroyTree, map_bind, destroyLogged_forgets]

theorem destroyTreeLogged_spec {h : TreeHeap (Entry T)} (hh : HeapAt μ.node h)
    (nodup : (heapAddresses h).Nodup) (issued : ∀ a ∈ heapAddresses h, a < μ.fresh) :
    ∃ log μ', exec (destroyTreeLogged (rootPtr h)) μ = (.ok log, μ') ∧
      DeletesOnce (heapAddresses h) log ∧ (∀ a ∈ heapAddresses h, μ'.node a = none) ∧
      Frame (heapAddresses h) μ μ' := by
  rw [← addresses_asForest] at nodup issued ⊢
  have le := (nodup.subperm fun a ha => List.mem_range.mpr (issued a ha)).length_le
  rw [List.length_range, addresses, List.length_map] at le
  rw [← first_asForest]
  simpa only [destroyTreeLogged, exec_bind_of_ok (exec_get μ)] using
    destroyLogged_spec (2 * μ.fresh) (Holds.chained hh) nodup (by omega)

/-- `destroy_tree` returns, deletes the nodes of the tree and writes to no other node. -/
theorem destroyTree_spec {h : TreeHeap (Entry T)} (hh : HeapAt μ.node h)
    (nodup : (heapAddresses h).Nodup) (issued : ∀ a ∈ heapAddresses h, a < μ.fresh) :
    ∃ μ', exec (destroyTree (rootPtr h)) μ = (.ok ⟨⟩, μ') ∧
      (∀ a ∈ heapAddresses h, μ'.node a = none) ∧ Frame (heapAddresses h) μ μ' := by
  obtain ⟨log, μ', run, -, gone, frame⟩ := destroyTreeLogged_spec hh nodup issued
  refine ⟨μ', ?_, gone, frame⟩
  rw [← destroyTreeLogged_forgets, exec_map, run]

end Destroy

end Yellowstone.Collections
