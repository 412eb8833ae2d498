import Mathlib.Order.RelClasses
import Mathlib.Data.List.Perm.Basic
import Mathlib.Data.Multiset.Basic

/-!
# Pairing heaps as forests

A forest is stored first child, next sibling, so one constructor serves trees and lists
of trees. `less a b` says that `b` outranks `a`; `Ordered` says that no value outranks the
value above it. `pairs` is the textbook two-at-a-time recursion, and `drain (collect ..)`
the two passes over a list of roots that compute it.
-/

set_option autoImplicit false

universe u v

/-- A forest: the first root, the forest of its children, the forest of its later siblings. -/
inductive Forest (α : Type u) where
  | nil
  | node (value : α) (children siblings : Forest α)
deriving DecidableEq, Repr

namespace Forest
variable {α : Type u} {β : Type v}

def roots : Forest α → List α
  | nil => []
  | node v _ ss => v :: roots ss

def values : Forest α → List α
  | nil => []
  | node v cs ss => v :: (values cs ++ values ss)

def map (g : α → β) : Forest α → Forest β
  | nil => nil
  | node v cs ss => node (g v) (map g cs) (map g ss)

/-- No value outranks the value of its parent. -/
def Ordered (less : α → α → Bool) : Forest α → Prop
  | nil => True
  | node v cs ss => (∀ w ∈ cs.roots, less v w = false) ∧ Ordered less cs ∧ Ordered less ss

@[simp] theorem roots_nil : (nil : Forest α).roots = [] := rfl

@[simp] theorem roots_node (v : α) (cs ss : Forest α) :
    (node v cs ss).roots = v :: ss.roots := rfl

@[simp] theorem values_nil : (nil : Forest α).values = [] := rfl

@[simp] theorem values_node (v : α) (cs ss : Forest α) :
    (node v cs ss).values = v :: (cs.values ++ ss.values) := rfl

@[simp] theorem map_nil (g : α → β) : (nil : Forest α).map g = nil := rfl

@[simp] theorem map_node (g : α → β) (v : α) (cs ss : Forest α) :
    (node v cs ss).map g = node (g v) (cs.map g) (ss.map g) := rfl

@[simp] theorem ordered_nil (less : α → α → Bool) : (nil : Forest α).Ordered less := trivial

@[simp] theorem ordered_node (less : α → α → Bool) (v : α) (cs ss : Forest α) :
    (node v cs ss).Ordered less ↔
      (∀ w ∈ cs.roots, less v w = false) ∧ cs.Ordered less ∧ ss.Ordered less := Iff.rfl

@[simp] theorem roots_map (g : α → β) (f : Forest α) : (f.map g).roots = f.roots.map g := by
  induction f with
  | nil => rfl
  | node v cs ss _ ih => simp [ih]

@[simp] theorem values_map (g : α → β) (f : Forest α) : (f.map g).values = f.values.map g := by
  induction f with
  | nil => rfl
  | node v cs ss ihc ihs => simp [ihc, ihs]

theorem length_roots_le (f : Forest α) : f.roots.length ≤ f.values.length := by
  induction f with
  | nil => simp
  | node v cs ss _ ih => simp; omega

theorem map_id_of_values {g : α → α} {f : Forest α} (hg : ∀ v ∈ f.values, g v = v) :
    f.map g = f := by
  induction f with
  | nil => rfl
  | node v cs ss ihc ihs =>
    simp only [values_node, List.mem_cons, List.mem_append] at hg
    simp only [map_node, hg v (.inl rfl), ihc fun w hw => hg w (.inr (.inl hw)),
      ihs fun w hw => hg w (.inr (.inr hw))]

theorem mem_values_of_mem_roots {v : α} {f : Forest α} (h : v ∈ f.roots) : v ∈ f.values := by
  induction f with
  | nil => simp at h
  | node w cs ss _ ih =>
    rcases List.mem_cons.mp h with rfl | h
    · simp
    · simp [ih h]

end Forest

/-- A nonempty heap is one tree; the empty heap is none. -/
structure HeapTree (α : Type u) where
  value : α
  children : Forest α
deriving DecidableEq, Repr

namespace HeapTree
variable {α : Type u} {β : Type v} (less : α → α → Bool)

def values (t : HeapTree α) : List α := t.value :: t.children.values

def map (g : α → β) (t : HeapTree α) : HeapTree β := ⟨g t.value, t.children.map g⟩

def Ordered (t : HeapTree α) : Prop :=
  (∀ w ∈ t.children.roots, less t.value w = false) ∧ t.children.Ordered less

/-- The left tree stays the root on ties; the loser becomes the first child. -/
def link (s t : HeapTree α) : HeapTree α :=
  if less s.value t.value then ⟨t.value, .node s.value s.children t.children⟩
  else ⟨s.value, .node t.value t.children s.children⟩

@[simp] theorem values_mk (v : α) (cs : Forest α) :
    (HeapTree.mk v cs).values = v :: cs.values := rfl

@[simp] theorem value_map (g : α → β) (t : HeapTree α) : (t.map g).value = g t.value := rfl

@[simp] theorem children_map (g : α → β) (t : HeapTree α) :
    (t.map g).children = t.children.map g := rfl

@[simp] theorem values_treeMap (g : α → β) (t : HeapTree α) :
    (t.map g).values = t.values.map g := by
  simp [values]

theorem values_link (s t : HeapTree α) : (link less s t).values.Perm (s.values ++ t.values) := by
  unfold link
  split
  · exact (@List.perm_middle _ _ s.values _).symm
  · exact (@List.perm_append_comm _ t.values _).cons s.value

theorem ordered_link {s t : HeapTree α} (hs : s.Ordered less) (ht : t.Ordered less)
    (asymm : ∀ a b, less a b = true → less b a = false) : (link less s t).Ordered less := by
  unfold link
  split
  · rename_i h
    refine ⟨?_, hs.1, hs.2, ht.2⟩
    intro w hw
    rcases List.mem_cons.mp hw with rfl | hw
    · exact asymm _ _ h
    · exact ht.1 w hw
  · rename_i h
    refine ⟨?_, ht.1, ht.2, hs.2⟩
    intro w hw
    rcases List.mem_cons.mp hw with rfl | hw
    · simpa using h
    · exact hs.1 w hw

end HeapTree

/-- A heap is empty or one tree. -/
abbrev TreeHeap (α : Type u) := Option (HeapTree α)

namespace TreeHeap
variable {α : Type u} {β : Type v} (less : α → α → Bool)

def values : TreeHeap α → List α
  | none => []
  | some t => t.values

def Ordered : TreeHeap α → Prop
  | none => True
  | some t => t.Ordered less

def meld : TreeHeap α → TreeHeap α → TreeHeap α
  | none, h => h
  | some s, none => some s
  | some s, some t => some (s.link less t)

/-- The textbook recursion: meld two neighbours, then meld the result into the rest. -/
def pairs : Forest α → TreeHeap α
  | .nil => none
  | .node a as .nil => some ⟨a, as⟩
  | .node a as (.node b bs rest) =>
    meld less (some (HeapTree.link less ⟨a, as⟩ ⟨b, bs⟩)) (pairs rest)

/-- First pass: meld neighbours from left to right, keeping the results in reverse order. -/
def collect (paired : Forest α) : Forest α → Forest α
  | .nil => paired
  | .node a as .nil => .node a as paired
  | .node a as (.node b bs rest) =>
    let merged := HeapTree.link less ⟨a, as⟩ ⟨b, bs⟩
    collect (.node merged.value merged.children paired) rest

/-- Second pass: meld the collected trees from right to left. -/
def drain (result : TreeHeap α) : Forest α → TreeHeap α
  | .nil => result
  | .node a as rest => drain (meld less (some ⟨a, as⟩) result) rest

def push (h : TreeHeap α) (v : α) : TreeHeap α := meld less h (some ⟨v, .nil⟩)

def top : TreeHeap α → Option α
  | none => none
  | some t => some t.value

/-- Removes the top and returns it together with the remaining heap. -/
def extract : TreeHeap α → Option (α × TreeHeap α)
  | none => none
  | some t => some (t.value, pairs less t.children)

@[simp] theorem values_none : values (none : TreeHeap α) = [] := rfl

@[simp] theorem values_some (t : HeapTree α) : values (some t) = t.values := rfl

@[simp] theorem meld_none (h : TreeHeap α) : meld less h none = h := by cases h <;> rfl

@[simp] theorem none_meld (h : TreeHeap α) : meld less none h = h := rfl

/-- The two passes compute the recursion. -/
theorem drain_collect (f paired : Forest α) :
    drain less none (collect less paired f) = drain less (pairs less f) paired := by
  induction f using pairs.induct generalizing paired with
  | case1 => rfl
  | case2 a as => rfl
  | case3 a as b bs rest ih => rw [collect, ih, drain, pairs]

theorem values_meld (g h : TreeHeap α) :
    (meld less g h).values.Perm (g.values ++ h.values) := by
  cases g with
  | none => exact .refl _
  | some s =>
    cases h with
    | none => simp
    | some t => exact HeapTree.values_link less s t

theorem values_pairs (f : Forest α) : (pairs less f).values.Perm f.values := by
  induction f using pairs.induct with
  | case1 => exact .refl _
  | case2 a as => simp [pairs]
  | case3 a as b bs rest ih =>
    calc
      (pairs less (.node a as (.node b bs rest))).values.Perm
          ((HeapTree.link less ⟨a, as⟩ ⟨b, bs⟩).values ++ (pairs less rest).values) :=
        values_meld less _ _
      List.Perm _ ((a :: as.values ++ b :: bs.values) ++ rest.values) :=
        (HeapTree.values_link less _ _).append ih
      _ = (Forest.node a as (.node b bs rest)).values := by simp

theorem values_collect (f paired : Forest α) :
    (collect less paired f).values.Perm (f.values ++ paired.values) := by
  induction f using pairs.induct generalizing paired with
  | case1 => exact .refl _
  | case2 a as => simp [collect]
  | case3 a as b bs rest ih =>
    have linked := HeapTree.values_link less ⟨a, as⟩ ⟨b, bs⟩
    calc
      (collect less paired (.node a as (.node b bs rest))).values.Perm
          (rest.values ++ ((HeapTree.link less ⟨a, as⟩ ⟨b, bs⟩).values ++ paired.values)) := ih _
      List.Perm _ (rest.values ++ ((a :: as.values ++ b :: bs.values) ++ paired.values)) :=
        (linked.append_right paired.values).append_left rest.values
      List.Perm _ (((a :: as.values ++ b :: bs.values) ++ rest.values) ++ paired.values) := by
        simpa only [List.append_assoc] using
          (List.perm_append_comm_assoc rest.values (a :: as.values ++ b :: bs.values) paired.values)
      _ = (Forest.node a as (.node b bs rest)).values ++ paired.values := by simp

theorem values_push (h : TreeHeap α) (v : α) : (push less h v).values.Perm (v :: h.values) :=
  (values_meld less h (some ⟨v, .nil⟩)).trans List.perm_append_comm

theorem values_extract {h rest : TreeHeap α} {v : α}
    (he : extract less h = some (v, rest)) : h.values.Perm (v :: rest.values) := by
  cases h with
  | none => cases he
  | some t => cases he; exact ((values_pairs less t.children).symm.cons t.value)

theorem top_eq_none {h : TreeHeap α} : h.top = none ↔ h.values = [] := by
  cases h <;> simp [top, HeapTree.values]

/-! Relabelling the values commutes with every operation, if it keeps the order. -/

def relabel (g : α → β) (h : TreeHeap α) : TreeHeap β := Option.map (HeapTree.map g) h

section Relabelling
variable {less' : β → β → Bool} {g : α → β}
variable (agree : ∀ a b, less' (g a) (g b) = less a b)
include agree

theorem relabel_link (s t : HeapTree α) :
    (HeapTree.link less s t).map g = HeapTree.link less' (s.map g) (t.map g) := by
  unfold HeapTree.link
  rw [HeapTree.value_map, HeapTree.value_map, agree]
  split
  · rfl
  · rfl

theorem relabel_meld (h k : TreeHeap α) :
    relabel g (meld less h k) = meld less' (relabel g h) (relabel g k) := by
  cases h with
  | none => rfl
  | some s =>
    cases k with
    | none => rfl
    | some t => exact congrArg some (relabel_link less agree s t)

theorem relabel_pairs (f : Forest α) :
    relabel g (pairs less f) = pairs less' (f.map g) := by
  induction f using pairs.induct with
  | case1 => rfl
  | case2 a as => rfl
  | case3 a as b bs rest ih =>
    simp only [pairs, Forest.map_node]
    rw [relabel_meld less agree, ih]
    apply congrArg (fun k => meld less' k (pairs less' (rest.map g)))
    exact congrArg some (relabel_link less agree ⟨a, as⟩ ⟨b, bs⟩)

theorem relabel_push (h : TreeHeap α) (v : α) :
    relabel g (push less h v) = push less' (relabel g h) (g v) :=
  relabel_meld less agree h (some ⟨v, .nil⟩)

theorem relabel_extract (h : TreeHeap α) : extract less' (relabel g h) =
    (extract less h).map fun r => (g r.1, relabel g r.2) := by
  cases h with
  | none => rfl
  | some t =>
    have rest := relabel_pairs less agree t.children
    simp only [extract, relabel, Option.map_some, HeapTree.value_map,
      HeapTree.children_map] at rest ⊢
    rw [← rest]

end Relabelling

section Ordered
variable {less} [IsStrictWeakOrder α fun a b => less a b = true]

theorem less_asymm (a b : α) (h : less a b = true) : less b a = false := by
  by_contra hb
  have haa : less a a = true :=
    IsTrans.trans (r := fun a b => less a b = true) a b a h (by simpa using hb)
  exact irrefl (r := fun a b => less a b = true) a haa

/-- Not being outranked is transitive: the incomparability axiom in positive form. -/
theorem not_less_trans {a b c : α} (hab : less a b = false) (hbc : less b c = false) :
    less a c = false := by
  by_contra hac
  replace hac : less a c = true := by simpa using hac
  have tr := fun x y z => IsTrans.trans (r := fun a b => less a b = true) x y z
  have hba : less b a = false := by
    by_contra h
    have := tr b a c (by simpa using h) hac
    simp [hbc] at this
  have hcb : less c b = false := by
    by_contra h
    have := tr a c b hac (by simpa using h)
    simp [hab] at this
  have hinc := @IsStrictWeakOrder.incomp_trans _ (fun a b => less a b = true) _ a b c
    (by simp [hab, hba]) (by simp [hbc, hcb])
  exact hinc.1 hac

theorem ordered_meld {g h : TreeHeap α} (hg : g.Ordered less) (hh : h.Ordered less) :
    (meld less g h).Ordered less := by
  cases g with
  | none => exact hh
  | some s =>
    cases h with
    | none => exact hg
    | some t => exact HeapTree.ordered_link less hg hh less_asymm

theorem ordered_pairs {f : Forest α} (hf : f.Ordered less) : (pairs less f).Ordered less := by
  induction f using pairs.induct with
  | case1 => trivial
  | case2 a as => exact ⟨hf.1, hf.2.1⟩
  | case3 a as b bs rest ih =>
    obtain ⟨ha, has, hb, hbs, hrest⟩ := hf
    exact ordered_meld (g := some _)
      (HeapTree.ordered_link less (s := ⟨a, as⟩) (t := ⟨b, bs⟩) ⟨ha, has⟩ ⟨hb, hbs⟩ less_asymm)
      (ih hrest)

theorem ordered_push {h : TreeHeap α} (hh : h.Ordered less) (v : α) :
    (push less h v).Ordered less :=
  ordered_meld hh (h := some ⟨v, .nil⟩) ⟨by simp, trivial⟩

theorem ordered_extract {h rest : TreeHeap α} {v : α} (hh : h.Ordered less)
    (he : extract less h = some (v, rest)) : rest.Ordered less := by
  cases h with
  | none => cases he
  | some t => cases he; exact ordered_pairs hh.2

theorem not_outranked_of_roots {v : α} {f : Forest α} (hf : f.Ordered less)
    (hr : ∀ w ∈ f.roots, less v w = false) : ∀ w ∈ f.values, less v w = false := by
  induction f generalizing v with
  | nil => simp
  | node u cs ss ihc ihs =>
    obtain ⟨hu, hcs, hss⟩ := hf
    have hvu : less v u = false := hr u (by simp)
    intro w hw
    simp only [Forest.values_node, List.mem_cons, List.mem_append] at hw
    rcases hw with rfl | hw | hw
    · exact hvu
    · exact not_less_trans hvu (ihc hcs hu w hw)
    · exact ihs hss (fun x hx => hr x (by simp [hx])) w hw

/-- The top of an ordered heap is outranked by nothing in it. -/
theorem top_not_outranked {h : TreeHeap α} {v : α} (hh : h.Ordered less)
    (ht : h.top = some v) : ∀ w ∈ h.values, less v w = false := by
  cases h with
  | none => simp
  | some t =>
    cases ht
    intro w hw
    rcases List.mem_cons.mp hw with rfl | hw
    · have hi := irrefl (r := fun a b => less a b = true) t.value
      simpa using hi
    · exact not_outranked_of_roots hh.2 hh.1 w hw

end Ordered

end TreeHeap

namespace Forest
variable {α : Type u} {β : Type v}

/-- Cuts out the subtree rooted at the first selected value. -/
def cut (sel : α → Bool) : Forest α → Option (HeapTree α × Forest α)
  | nil => none
  | node v cs ss =>
    if sel v then some (⟨v, cs⟩, ss)
    else match cut sel cs with
      | some (t, cs') => some (t, node v cs' ss)
      | none => match cut sel ss with
        | some (t, ss') => some (t, node v cs ss')
        | none => none

/-- The parent of the selected value, where the roots of the forest hang below `above`. -/
def parentOf (sel : α → Bool) (above : Option α) : Forest α → Option α
  | nil => none
  | node v cs ss =>
    if sel v then above
    else if cs.values.any sel then parentOf sel (some v) cs
    else parentOf sel above ss

theorem cut_eq_none_iff {sel : α → Bool} {f : Forest α} :
    f.cut sel = none ↔ ∀ v ∈ f.values, sel v = false := by
  induction f with
  | nil => simp [cut]
  | node v cs ss ihc ihs =>
    simp only [cut, values_node, List.mem_cons, List.mem_append]
    constructor
    · intro h
      split at h
      · cases h
      · rename_i hv
        split at h
        · cases h
        · rename_i hcs
          split at h
          · cases h
          · rename_i hss
            rintro w (rfl | hw | hw)
            · simpa using hv
            · exact ihc.mp hcs w hw
            · exact ihs.mp hss w hw
    · intro h
      rw [if_neg (by simp [h v (.inl rfl)]), ihc.mpr fun w hw => h w (.inr (.inl hw)),
        ihs.mpr fun w hw => h w (.inr (.inr hw))]

/-- What `cut` can answer, one case for each place the selected value may stand in. -/
theorem cut_node_cases {sel : α → Bool} {v : α} {cs ss rest : Forest α} {t : HeapTree α}
    (h : (node v cs ss).cut sel = some (t, rest)) :
    (sel v = true ∧ t = ⟨v, cs⟩ ∧ rest = ss) ∨
    (sel v = false ∧ ∃ cs', cs.cut sel = some (t, cs') ∧ rest = node v cs' ss) ∨
    (sel v = false ∧ cs.cut sel = none ∧
      ∃ ss', ss.cut sel = some (t, ss') ∧ rest = node v cs ss') := by
  simp only [cut] at h
  split at h
  · rename_i hv
    cases h
    exact .inl ⟨hv, rfl, rfl⟩
  · rename_i hv
    replace hv : sel v = false := by simpa using hv
    split at h
    · rename_i t' cs' hcs
      cases h
      exact .inr (.inl ⟨hv, cs', hcs, rfl⟩)
    · rename_i hcs
      split at h
      · rename_i t' ss' hss
        cases h
        exact .inr (.inr ⟨hv, hcs, ss', hss, rfl⟩)
      · cases h

theorem values_cut {sel : α → Bool} {f rest : Forest α} {t : HeapTree α}
    (h : f.cut sel = some (t, rest)) : f.values.Perm (t.values ++ rest.values) := by
  induction f generalizing rest with
  | nil => cases h
  | node v cs ss ihc ihs =>
    rcases cut_node_cases h with ⟨_, rfl, rfl⟩ | ⟨_, cs', hcs, rfl⟩ | ⟨_, _, ss', hss, rfl⟩
    · simp
    · calc
        (node v cs ss).values.Perm (v :: ((t.values ++ cs'.values) ++ ss.values)) :=
          ((ihc hcs).append_right ss.values).cons v
        List.Perm _ (t.values ++ (node v cs' ss).values) := by
          simpa using List.perm_middle.symm
    · calc
        (node v cs ss).values.Perm (v :: (cs.values ++ (t.values ++ ss'.values))) :=
          ((ihs hss).append_left cs.values).cons v
        List.Perm _ (v :: (t.values ++ (cs.values ++ ss'.values))) := by
          apply List.Perm.cons v
          simpa using (@List.perm_append_comm _ cs.values t.values).append_right
            ss'.values
        List.Perm _ (t.values ++ (node v cs ss').values) := by
          simpa using List.perm_middle.symm

theorem sel_of_cut {sel : α → Bool} {f rest : Forest α} {t : HeapTree α}
    (h : f.cut sel = some (t, rest)) : sel t.value = true := by
  induction f generalizing rest with
  | nil => cases h
  | node v cs ss ihc ihs =>
    rcases cut_node_cases h with ⟨hv, rfl, rfl⟩ | ⟨_, cs', hcs, rfl⟩ | ⟨_, _, ss', hss, rfl⟩
    · exact hv
    · exact ihc hcs
    · exact ihs hss

theorem roots_cut {sel : α → Bool} {f rest : Forest α} {t : HeapTree α}
    (h : f.cut sel = some (t, rest)) : ∀ w ∈ rest.roots, w ∈ f.roots := by
  induction f generalizing rest with
  | nil => cases h
  | node v cs ss ihc ihs =>
    rcases cut_node_cases h with ⟨_, rfl, rfl⟩ | ⟨_, cs', hcs, rfl⟩ | ⟨_, _, ss', hss, rfl⟩
    · exact fun w hw => List.mem_cons_of_mem v hw
    · exact fun w hw => hw
    · intro w hw
      rcases List.mem_cons.mp hw with rfl | hw
      · simp
      · exact List.mem_cons_of_mem v (ihs hss w hw)

/-- Both parts of an ordered forest that is cut in two are ordered. -/
theorem ordered_cut {less : α → α → Bool} {sel : α → Bool} {f rest : Forest α} {t : HeapTree α}
    (hf : f.Ordered less) (h : f.cut sel = some (t, rest)) :
    t.Ordered less ∧ rest.Ordered less := by
  induction f generalizing rest with
  | nil => cases h
  | node v cs ss ihc ihs =>
    obtain ⟨hv, hcs, hss⟩ := hf
    rcases cut_node_cases h with ⟨_, rfl, rfl⟩ | ⟨_, cs', hc, rfl⟩ | ⟨_, _, ss', hs, rfl⟩
    · exact ⟨⟨hv, hcs⟩, hss⟩
    · obtain ⟨ht, hcs'⟩ := ihc hcs hc
      exact ⟨ht, fun w hw => hv w (roots_cut hc w hw), hcs', hss⟩
    · obtain ⟨ht, hss'⟩ := ihs hss hs
      exact ⟨ht, hv, hcs, hss'⟩

theorem cut_map {g : α → β} {sel : α → Bool} {sel' : β → Bool} (f : Forest α)
    (hsel : ∀ v, sel' (g v) = sel v) :
    (f.map g).cut sel' = (f.cut sel).map fun p => (p.1.map g, p.2.map g) := by
  induction f with
  | nil => rfl
  | node v cs ss ihc ihs =>
    simp only [map_node, cut, hsel, ihc, ihs]
    split
    · rfl
    · cases cs.cut sel with
      | some p => rfl
      | none => cases ss.cut sel <;> rfl

theorem parentOf_root {sel : α → Bool} {above : Option α} {f : Forest α} {w : α}
    (hw : w ∈ f.roots) (hsel : sel w = true) (once : f.values.countP sel ≤ 1) :
    parentOf sel above f = above := by
  induction f with
  | nil => simp at hw
  | node v cs ss _ ih =>
    simp only [parentOf]
    by_cases hv : sel v = true
    · rw [if_pos hv]
    · rw [if_neg hv]
      have hw : w ∈ ss.roots := by
        rcases List.mem_cons.mp hw with rfl | hw
        · exact absurd hsel hv
        · exact hw
      simp only [values_node, List.countP_cons, List.countP_append, hv] at once
      have hss : 0 < ss.values.countP sel :=
        List.countP_pos_iff.mpr ⟨w, mem_values_of_mem_roots hw, hsel⟩
      have hcs : cs.values.countP sel = 0 := by omega
      rw [if_neg (by simpa [List.countP_eq_zero] using hcs), ih hw (by omega)]

theorem parentOf_mem {sel : α → Bool} {above : Option α} {f : Forest α} {q : α}
    (h : parentOf sel above f = some q) :
    above = some q ∨ (q ∈ f.values ∧ sel q = false) := by
  induction f generalizing above with
  | nil => cases h
  | node v cs ss ihc ihs =>
    simp only [parentOf] at h
    split at h
    · exact .inl h
    · rename_i hv
      split at h
      · rcases ihc h with hq | ⟨hq, hs⟩
        · cases hq
          exact .inr ⟨by simp, by simpa using hv⟩
        · exact .inr ⟨by simp [hq], hs⟩
      · exact (ihs h).imp id fun ⟨hq, hs⟩ => ⟨by simp [hq], hs⟩

/-- Raising one value in place keeps the order if it does not come to outrank its parent. -/
theorem ordered_map_of_parent {less : α → α → Bool} [IsStrictWeakOrder α fun a b => less a b = true]
    {sel : α → Bool} {raise : α → α} {above : Option α} {f : Forest α} (hf : f.Ordered less)
    (once : f.values.countP sel ≤ 1) (other : ∀ v ∈ f.values, sel v = false → raise v = v)
    (up : ∀ v ∈ f.values, sel v = true → less (raise v) v = false)
    (below : ∀ q, parentOf sel above f = some q →
      ∀ v ∈ f.values, sel v = true → less q (raise v) = false) :
    (f.map raise).Ordered less := by
  induction f generalizing above with
  | nil => trivial
  | node v cs ss ihc ihs =>
    obtain ⟨hv, hcs, hss⟩ := hf
    simp only [values_node, List.countP_cons, List.countP_append] at once
    simp only [values_node, List.mem_cons, List.mem_append] at other up below
    have keep : ∀ g : Forest α, (∀ w ∈ g.values, w ∈ cs.values ∨ w ∈ ss.values) →
        g.values.countP sel = 0 → g.map raise = g := by
      intro g hg h0
      refine map_id_of_values fun w hw => other w (.inr (hg w hw)) ?_
      simpa using (List.countP_eq_zero.mp h0) w hw
    have keepc := keep cs fun w hw => .inl hw
    have keeps := keep ss fun w hw => .inr hw
    simp only [map_node, ordered_node]
    by_cases hsv : sel v = true
    · rw [if_pos hsv] at once
      rw [keepc (by omega), keeps (by omega)]
      exact ⟨fun w hw => TreeHeap.not_less_trans (up v (.inl rfl) hsv) (hv w hw), hcs, hss⟩
    · rw [other v (.inl rfl) (by simpa using hsv)]
      simp only [parentOf, if_neg hsv] at below
      by_cases hc : cs.values.countP sel = 0
      · have hany : ¬cs.values.any sel = true := by simpa [List.countP_eq_zero] using hc
        rw [keepc hc]
        rw [if_neg hany] at below
        exact ⟨hv, hcs, ihs hss (by omega) (fun w hw => other w (.inr (.inr hw)))
          (fun w hw => up w (.inr (.inr hw)))
          fun q hq w hw => below q hq w (.inr (.inr hw))⟩
      · have hany : cs.values.any sel = true := by
          obtain ⟨w, hw, hsw⟩ := List.countP_pos_iff.mp (Nat.pos_of_ne_zero hc)
          exact List.any_eq_true.mpr ⟨w, hw, hsw⟩
        rw [keeps (by omega)]
        rw [if_pos hany] at below
        have below' := fun q hq w hw => below q hq w (.inr (.inl hw))
        refine ⟨?_, ihc hcs (by omega) (fun w hw => other w (.inr (.inl hw)))
          (fun w hw => up w (.inr (.inl hw))) below', hss⟩
        intro w hw
        rw [roots_map] at hw
        obtain ⟨u, hu, rfl⟩ := List.mem_map.mp hw
        have huc := mem_values_of_mem_roots hu
        by_cases hsu : sel u = true
        · exact below' v (parentOf_root hu hsu (by omega)) u huc hsu
        · rw [other u (.inr (.inl huc)) (by simpa using hsu)]
          exact hv u hu

end Forest
