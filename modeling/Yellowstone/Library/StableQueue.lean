import Mathlib.Data.List.MinMax
import Mathlib.Data.List.Sort

/-!
# Queues sorted stably by a key

A queue in arrival order serves the first of the values with least key. Kept sorted, with
a new value behind those of its key, it serves its head. Two lists agree when they hold
the same values of each key in the same order.
-/

set_option autoImplicit false

universe u v

namespace StableQueue
variable {α : Type u} {κ : Type v} [LinearOrder κ] (key : α → κ)

/-- Inserts behind every value of the same or a smaller key. -/
def enqueue (x : α) (l : List α) : List α := l.orderedInsert (fun a b => key a < key b) x

def Sorted (l : List α) : Prop := l.Pairwise fun a b => key a ≤ key b

/-- The first value, in arrival order, that no key undercuts. -/
def firstLeast (q : List α) : Option α := q.find? fun x => q.all fun y => key x ≤ key y

def dropFirstLeast (q : List α) : List α := q.eraseP fun x => q.all fun y => key x ≤ key y

def Agree (l q : List α) : Prop :=
  ∀ k, (l.filter fun x => key x = k) = q.filter fun x => key x = k

theorem enqueue_append {x : α} {l r : List α} (h : ∀ y ∈ l, key y ≤ key x) :
    enqueue key x (l ++ r) = l ++ enqueue key x r := by
  induction l with
  | nil => rfl
  | cons y l ih =>
    have hy : ¬key x < key y := not_lt.mpr (h y (by simp))
    simp only [enqueue, List.cons_append, List.orderedInsert_cons, if_neg hy] at ih ⊢
    rw [ih fun z hz => h z (by simp [hz])]

theorem enqueue_of_lt {x : α} {l : List α} (h : ∀ y ∈ l, key x < key y) :
    enqueue key x l = x :: l := by
  cases l with
  | nil => rfl
  | cons y l => simp [enqueue, h y]

theorem enqueue_before {x y : α} (h : key x < key y) (l r : List α) :
    enqueue key x (l ++ y :: r) = enqueue key x l ++ y :: r := by
  induction l with
  | nil => simp [enqueue, h]
  | cons z l ih =>
    by_cases hz : key x < key z
    · simp [enqueue, hz]
    · simpa [enqueue, hz] using ih

theorem perm_enqueue (x : α) (l : List α) : (enqueue key x l).Perm (x :: l) :=
  List.perm_orderedInsert _ x l

theorem map_enqueue {β : Type u} (key' : β → κ) (f : α → β) (hf : ∀ x, key' (f x) = key x)
    (x : α) (l : List α) : (enqueue key x l).map f = enqueue key' (f x) (l.map f) :=
  List.map_orderedInsert _ _ f l x (by simp [hf]) (by simp [hf])

variable {key}

/-- What relates the old values to a new one, and the new one to all of larger key, survives. -/
theorem Sorted.pairwise_enqueue {R : α → α → Prop} {l : List α} (h : Sorted key l)
    (related : l.Pairwise R) {x : α} (behind : ∀ y ∈ l, R y x)
    (before : ∀ y ∈ l, key x < key y → R x y) : (StableQueue.enqueue key x l).Pairwise R := by
  induction l with
  | nil => exact List.pairwise_singleton ..
  | cons y l ih =>
    obtain ⟨hy, hl⟩ := List.pairwise_cons.mp h
    obtain ⟨ry, rl⟩ := List.pairwise_cons.mp related
    simp only [StableQueue.enqueue, List.orderedInsert_cons]
    split
    · rename_i hxy
      refine List.pairwise_cons.mpr ⟨?_, related⟩
      intro z hz
      rcases List.mem_cons.mp hz with rfl | hz'
      · exact before z hz hxy
      · exact before z hz (hxy.trans_le (hy z hz'))
    · refine List.pairwise_cons.mpr ⟨?_, ih hl rl (fun z hz => behind z (by simp [hz]))
        fun z hz => before z (by simp [hz])⟩
      intro z hz
      rcases List.mem_cons.mp ((perm_enqueue key x l).mem_iff.mp hz) with rfl | hz
      · exact behind y (by simp)
      · exact ry z hz

theorem Sorted.enqueue_behind {x y : α} {l r : List α} (h : Sorted key (l ++ y :: r))
    (later : key y ≤ key x) :
    StableQueue.enqueue key x (l ++ y :: r) = l ++ y :: StableQueue.enqueue key x r := by
  obtain ⟨-, -, across⟩ := List.pairwise_append.mp h
  have front : ∀ z ∈ l ++ [y], key z ≤ key x := by
    intro z hz
    rcases List.mem_append.mp hz with hz | hz
    · exact (across z hz y (by simp)).trans later
    · exact List.mem_singleton.mp hz ▸ later
  have append := enqueue_append key (r := r) front
  simpa using append

/-- The new value is the last of its key and no other key's values move. -/
theorem Sorted.filter_enqueue {l : List α} (h : Sorted key l) (x : α) (k : κ) :
    ((StableQueue.enqueue key x l).filter fun y => key y = k) =
      (l ++ [x]).filter fun y => key y = k := by
  induction l with
  | nil => rfl
  | cons y l ih =>
    obtain ⟨hy, hl⟩ := List.pairwise_cons.mp h
    simp only [StableQueue.enqueue, List.orderedInsert_cons] at ih ⊢
    split
    · rename_i hxy
      have larger : ∀ z ∈ y :: l, key x < key z := by
        intro z hz
        rcases List.mem_cons.mp hz with rfl | hz
        · exact hxy
        · exact hxy.trans_le (hy z hz)
      by_cases hk : key x = k
      · have none : ((y :: l).filter fun z => key z = k) = [] :=
          List.filter_eq_nil_iff.mpr fun z hz => by simpa [← hk] using (larger z hz).ne'
        rw [List.filter_append, none, List.filter_cons_of_pos (by simpa using hk), none]
        simp [hk]
      · rw [List.filter_append, List.filter_cons_of_neg (by simpa using hk)]
        simp [hk]
    · rw [List.cons_append, List.filter_cons, ih hl, List.filter_cons]

/-! ## Overtaking -/

section Overtaking
variable (key)

/-- How many values have a key below a bound. -/
def lower (k : κ) (l : List α) : Nat := l.countP fun x => key x < k

/-- What comes to stand before a value has smaller keys than it, and is no more than what came. -/
structure Overtaken (e : α) (l l' front front' : List α) : Prop where
  kept : (front'.filter fun x => key e ≤ key x) = front.filter fun x => key e ≤ key x
  few : front'.length + lower key (key e) l ≤ front.length + lower key (key e) l'

variable {key} {e : α} {l l' l'' front front' front'' : List α}

theorem Overtaken.same (h : lower key (key e) l ≤ lower key (key e) l') :
    Overtaken key e l l' front front :=
  ⟨rfl, Nat.add_le_add_left h _⟩

theorem Overtaken.trans (h : Overtaken key e l l' front front')
    (h' : Overtaken key e l' l'' front' front'') : Overtaken key e l l'' front front'' := by
  refine ⟨h'.kept.trans h.kept, ?_⟩
  have := h.few
  have := h'.few
  omega

theorem lower_arrival (k : κ) (x : α) (served waiting : List α) :
    lower key k (served ++ enqueue key x waiting) =
      lower key k (served ++ waiting) + if key x < k then 1 else 0 := by
  have counts := (perm_enqueue key x waiting).countP_eq fun y => decide (key y < k)
  rw [List.countP_cons] at counts
  rw [lower, lower, List.countP_append, List.countP_append, counts, ← Nat.add_assoc]
  simp

theorem filter_enqueue_of_neg (x : α) (l : List α) {P : α → Bool} (h : ¬P x) :
    (enqueue key x l).filter P = l.filter P := by
  rw [enqueue, List.orderedInsert_eq_take_drop, List.filter_append, List.filter_cons_of_neg h,
    ← List.filter_append, List.takeWhile_append_dropWhile]

theorem Sorted.overtaken_waiting {l behind : List α} (sorted : Sorted key (l ++ e :: behind))
    (served : List α) (x : α) :
    ∃ l' behind', StableQueue.enqueue key x (l ++ e :: behind) = l' ++ e :: behind' ∧
      Overtaken key e (served ++ (l ++ e :: behind))
        (served ++ StableQueue.enqueue key x (l ++ e :: behind)) (served ++ l) (served ++ l') := by
  by_cases before : key x < key e
  · refine ⟨StableQueue.enqueue key x l, behind, enqueue_before key before .., ⟨?_, ?_⟩⟩
    · rw [List.filter_append, filter_enqueue_of_neg x l (by simpa using before), List.filter_append]
    · have longer := (perm_enqueue key x l).length_eq
      rw [lower_arrival, if_pos before]
      simp only [List.length_append, List.length_cons] at longer ⊢
      omega
  · refine ⟨l, StableQueue.enqueue key x behind, sorted.enqueue_behind (not_lt.mp before), .same ?_⟩
    rw [lower_arrival]
    omega

/-- A value that is enqueued overtakes those of larger keys that still wait, and no other. -/
theorem Sorted.overtaken {served waiting behind : List α} (sorted : Sorted key waiting) (x : α)
    (h : served ++ waiting = front ++ e :: behind) :
    ∃ front' behind', served ++ StableQueue.enqueue key x waiting = front' ++ e :: behind' ∧
      Overtaken key e (served ++ waiting) (served ++ StableQueue.enqueue key x waiting)
        front front' ∧ (front.length < served.length → front' = front) := by
  by_cases short : front.length < served.length
  · obtain ⟨r, rfl, rest⟩ : ∃ r, served = front ++ e :: r ∧ behind = r ++ waiting := by
      rcases List.append_eq_append_iff.mp h with ⟨l, rfl, -⟩ | ⟨r, rfl, rest⟩
      · rw [List.length_append] at short
        omega
      · cases r with
        | nil => simp at short
        | cons y r =>
          obtain ⟨rfl, rfl⟩ := List.cons.inj rest
          exact ⟨r, rfl, rfl⟩
    refine ⟨front, r ++ StableQueue.enqueue key x waiting, by simp, .same ?_, fun _ => rfl⟩
    rw [lower_arrival]
    omega
  · obtain ⟨l, rfl, rfl⟩ : ∃ l, front = served ++ l ∧ waiting = l ++ e :: behind := by
      rcases List.append_eq_append_iff.mp h with ⟨l, rfl, rest⟩ | ⟨r, rfl, rest⟩
      · exact ⟨l, rfl, rest⟩
      · cases r with
        | nil => exact ⟨[], by simp, rest.symm⟩
        | cons y r => simp at short
    obtain ⟨l', behind', waits, overtaken⟩ := sorted.overtaken_waiting served x
    refine ⟨served ++ l', behind', ?_, overtaken, fun h => absurd h short⟩
    rw [waits, List.append_assoc]

end Overtaking

variable {l q : List α}

theorem Agree.perm (h : Agree key l q) : l.Perm q := by
  classical
  apply List.perm_iff_count.mpr
  intro x
  have hx := congrArg (List.count x) (h (key x))
  rwa [List.count_filter (by simp), List.count_filter (by simp)] at hx

theorem Agree.enqueue (h : Agree key l q) (sorted : Sorted key l) (x : α) :
    Agree key (StableQueue.enqueue key x l) (q ++ [x]) := by
  intro k
  rw [sorted.filter_enqueue, List.filter_append, List.filter_append, h k]

theorem Agree.map (h : Agree key l q) {f : α → α} (hf : ∀ x, key (f x) = key x) :
    Agree key (l.map f) (q.map f) := by
  intro k
  simpa [List.filter_map, Function.comp_def, hf] using congrArg (List.map f) (h k)

/-- A sorted list is known from its sublists of each key. -/
theorem Sorted.eq_of_agree (hl : Sorted key l) (hq : Sorted key q) (agree : Agree key l q) :
    l = q := by
  induction l generalizing q with
  | nil => exact (List.nil_perm.mp agree.perm).symm
  | cons x l ih =>
    cases q with
    | nil => exact absurd agree.perm.length_eq (by simp)
    | cons y q =>
      obtain ⟨hx, sorted⟩ := List.pairwise_cons.mp hl
      obtain ⟨hy, sorted'⟩ := List.pairwise_cons.mp hq
      have xy : key x ≤ key y := by
        rcases List.mem_cons.mp (agree.perm.mem_iff.mpr (List.mem_cons_self ..)) with rfl | h
        · exact le_rfl
        · exact hx y h
      have yx : key y ≤ key x := by
        rcases List.mem_cons.mp (agree.perm.mem_iff.mp (List.mem_cons_self ..)) with rfl | h
        · exact le_rfl
        · exact hy x h
      have same : key y = key x := le_antisymm yx xy
      have head := agree (key x)
      rw [List.filter_cons_of_pos (by simp), List.filter_cons_of_pos (by simpa using same)] at head
      obtain ⟨rfl, -⟩ := List.cons_eq_cons.mp head
      rw [ih sorted sorted' ?_]
      intro k
      have rest := agree k
      by_cases hk : key x = k
      · rw [List.filter_cons_of_pos (by simpa using hk),
          List.filter_cons_of_pos (by simpa using hk)] at rest
        exact (List.cons_eq_cons.mp rest).2
      · rwa [List.filter_cons_of_neg (by simpa using hk),
          List.filter_cons_of_neg (by simpa using hk)] at rest

theorem sorted_mergeSort (l : List α) : Sorted key (l.mergeSort fun x y => key x ≤ key y) := by
  have sorted : (l.mergeSort fun x y => key x ≤ key y).Pairwise
      fun x y => decide (key x ≤ key y) = true :=
    List.pairwise_mergeSort (fun x y z => by simpa using le_trans)
      (fun x y => by simpa using le_total _ _) l
  exact sorted.imp fun h => of_decide_eq_true h

/-- Sorting keeps the order among the values of each key. -/
theorem agree_mergeSort (l : List α) : Agree key (l.mergeSort fun x y => key x ≤ key y) l := by
  intro k
  let own := l.filter fun x => key x = k
  have level : own.Pairwise fun x y => decide (key x ≤ key y) = true := by
    apply List.pairwise_of_forall_mem_list
    intro x hx y hy
    have hx := of_decide_eq_true (List.mem_filter.mp hx).2
    have hy := of_decide_eq_true (List.mem_filter.mp hy).2
    exact decide_eq_true (hx.trans hy.symm).le
  have kept : own.Sublist (l.mergeSort fun x y => key x ≤ key y) :=
    List.sublist_mergeSort (fun x y z => by simpa using le_trans)
      (fun x y => by simpa using le_total _ _) level (List.filter_sublist ..)
  have kept' := kept.filter fun x => decide (key x = k)
  rw [List.filter_filter] at kept'
  simp only [Bool.and_self] at kept'
  refine (kept'.eq_of_length ?_).symm
  exact (((List.mergeSort_perm l _).filter _).length_eq).symm

theorem firstLeast_eq_none : firstLeast key q = none ↔ q = [] := by
  refine ⟨?_, fun h => h ▸ rfl⟩
  intro h
  by_contra hq
  obtain ⟨x, hx⟩ := Option.ne_none_iff_exists'.mp (mt (List.argmin_eq_none (f := key)).mp hq)
  refine List.find?_eq_none.mp h x (List.argmin_mem hx) ?_
  simpa using fun y hy => List.le_of_mem_argmin hy hx

/-- Serving the head of the sorted list is serving the first value of least key. -/
theorem Agree.serve {x : α} (h : Agree key (x :: l) q) (sorted : Sorted key (x :: l)) :
    firstLeast key q = some x ∧ Agree key l (dropFirstLeast key q) := by
  have least : ∀ y ∈ q, key x ≤ key y := by
    intro y hy
    rcases List.mem_cons.mp (h.perm.mem_iff.mpr hy) with rfl | hy
    · exact le_rfl
    · exact (List.pairwise_cons.mp sorted).1 y hy
  have hx : x ∈ q := h.perm.mem_iff.mp (by simp)
  have same : ∀ y ∈ q, (q.all fun z => key y ≤ key z) = decide (key y = key x) := by
    intro y hy
    rw [Bool.eq_iff_iff]
    simp only [List.all_eq_true, decide_eq_true_eq]
    exact ⟨fun hall => le_antisymm (hall x hx) (least y hy), fun he z hz => he ▸ least z hz⟩
  have head := h (key x)
  rw [List.filter_cons_of_pos (by simp)] at head
  obtain ⟨s, t, rfl, before, -, after⟩ := List.filter_eq_cons_iff.mp head.symm
  replace before : ∀ y ∈ s, (decide (key y = key x)) = false := by simpa using before
  constructor
  · rw [firstLeast, List.find?_eq_some_iff_append]
    refine ⟨by rw [same x hx]; simp, s, t, rfl, ?_⟩
    intro y hy
    rw [same y (by simp [hy]), before y hy]
    rfl
  · rw [dropFirstLeast, List.eraseP_append_right _ fun y hy => by
      rw [same y (by simp [hy]), before y hy]
      simp, List.eraseP_cons_of_pos (by rw [same x hx]; simp)]
    intro k
    have hk := h k
    by_cases hxk : key x = k
    · subst hxk
      have none : (s.filter fun y => key y = key x) = [] :=
        List.filter_eq_nil_iff.mpr fun y hy => by simpa using before y hy
      rw [List.filter_append, none]
      exact after.symm
    · simpa [hxk] using hk

end StableQueue
