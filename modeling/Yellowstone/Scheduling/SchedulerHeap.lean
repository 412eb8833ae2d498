import Yellowstone.Collections.HeapPool
import Yellowstone.Scheduling.SchedulerDeadline

/-!
# The heap of a scheduler in the store

`m_schedule_heap` is a `PairingHeap` with `EarlierDeadline`, of which the scheduler uses
`emplace` and `push`, `top`, `empty` and `extract_top`. Forgetting the addresses of its nodes
turns each of these into the operation on trees that the scheduler's steps are written with.
-/

set_option autoImplicit false

namespace Yellowstone

open Machine Throwing

namespace Scheduler
variable {Payload : Type}

/-- `EarlierDeadline` is `noexcept`. -/
def deadlines : Collections.Comparator (ScheduledItem Payload) := ⟨earlierDeadline, fun _ => false⟩

abbrev Store (Payload : Type) := Collections.Memory (ScheduledItem Payload)

variable {μ : Store Payload} {i : Collections.HeapId} {heap rest : TreeHeap (ScheduledItem Payload)}

/-- The heap object holds these items, in a tree of this shape. -/
def Backs (μ : Store Payload) (i : Collections.HeapId)
    (heap : TreeHeap (ScheduledItem Payload)) : Prop :=
  ∃ S h, Collections.Shaped earlierDeadline μ S ∧ S i = some h ∧ TreeHeap.relabel Prod.snd h = heap

instance : IsStrictWeakOrder (ScheduledItem Payload) fun a b => deadlines.less a b = true :=
  inferInstanceAs (IsStrictWeakOrder _ fun a b => earlierDeadline a b = true)

theorem deadlines_total : (deadlines : Collections.Comparator (ScheduledItem Payload)).Total := by
  intro k
  rfl

theorem lessEntry_agree (a b : Collections.Entry (ScheduledItem Payload)) :
    earlierDeadline a.2 b.2 = Collections.lessEntry earlierDeadline a b := rfl

theorem backs_updated {S : Collections.Shapes (ScheduledItem Payload)}
    {h : TreeHeap (Collections.Entry (ScheduledItem Payload))}
    (shaped : Collections.Shaped deadlines.less μ (Function.update S i (some h))) :
    Backs μ i (TreeHeap.relabel Prod.snd h) :=
  ⟨_, h, shaped, Function.update_self .., rfl⟩

theorem backs_construct (i : Collections.HeapId) :
    ∃ μ : Store Payload,
      exec (Collections.PairingHeap.construct i) (Collections.Memory.empty _) = (.ok ⟨⟩, μ) ∧
        Backs μ i none := by
  have empty := Collections.shaped_empty
    (deadlines : Collections.Comparator (ScheduledItem Payload)).less
  obtain ⟨run, shaped⟩ := Collections.PairingHeap.construct_spec (i := i) empty
  exact ⟨_, run, backs_updated shaped⟩

theorem backs_emplace (backs : Backs μ i heap) (item : ScheduledItem Payload) :
    ∃ p μ', exec (Collections.PairingHeap.emplace deadlines i item) μ = (.ok p, μ') ∧
      Backs μ' i (TreeHeap.push earlierDeadline heap item) := by
  obtain ⟨S, h, shaped, hi, rfl⟩ := backs
  obtain ⟨μ', run, -, shaped'⟩ :=
    Collections.PairingHeap.emplace_spec deadlines_total shaped hi item
  have pushed := TreeHeap.relabel_push _ lessEntry_agree h (μ.fresh, item)
  exact ⟨_, μ', run, pushed ▸ backs_updated shaped'⟩

theorem backs_extractTop (backs : Backs μ i heap) {due : ScheduledItem Payload}
    (extracted : TreeHeap.extract earlierDeadline heap = some (due, rest)) :
    ∃ μ', exec (Collections.PairingHeap.extractTop deadlines i) μ = (.ok due, μ') ∧
      Backs μ' i rest := by
  obtain ⟨S, h, shaped, hi, rfl⟩ := backs
  cases h with
  | none => cases extracted
  | some t =>
    obtain ⟨μ', run, shaped'⟩ :=
      Collections.PairingHeap.extractTop_spec deadlines_total shaped hi
    rw [TreeHeap.relabel_extract _ lessEntry_agree] at extracted
    cases extracted
    exact ⟨μ', run, backs_updated shaped'⟩

theorem backs_top (backs : Backs μ i heap) {root : ScheduledItem Payload}
    (top : heap.top = some root) :
    exec (Collections.PairingHeap.top i) μ = (.ok root, μ) := by
  obtain ⟨S, h, shaped, hi, rfl⟩ := backs
  cases h with
  | none => cases top
  | some t =>
    cases top
    exact Collections.PairingHeap.top_spec shaped hi

theorem backs_empty (backs : Backs μ i heap) :
    exec (Collections.PairingHeap.empty i) μ = (.ok heap.top.isNone, μ) := by
  obtain ⟨S, h, shaped, hi, rfl⟩ := backs
  rw [Collections.PairingHeap.empty_spec shaped hi]
  cases h with
  | none => rfl
  | some t => simp [HeapTree.values, TreeHeap.relabel, TreeHeap.top]

/-- What one step of the scheduler does to the store. -/
inductive StoreStep (i : Collections.HeapId) (μ : Store Payload) : Store Payload → Prop
  | none : StoreStep i μ μ
  | emplace (item : ScheduledItem Payload) (p : Collections.NodePtr) (μ' : Store Payload) :
    exec (Collections.PairingHeap.emplace deadlines i item) μ = (.ok p, μ') → StoreStep i μ μ'
  | extractTop (due : ScheduledItem Payload) (μ' : Store Payload) :
    exec (Collections.PairingHeap.extractTop deadlines i) μ = (.ok due, μ') → StoreStep i μ μ'

variable {s s' : Scheduler Payload} {now : TimePoint}

/-- Every step of the scheduler is at most one call on the heap object. -/
theorem step_backed {a : SchedulerAction Payload} (backs : Backs μ i s.heap)
    (h : step s a = some s') : ∃ μ', StoreStep i μ μ' ∧ Backs μ' i s'.heap := by
  cases a with
  | schedule r =>
    obtain ⟨-, rfl⟩ := step_schedule.mp h
    unfold schedule
    split
    · obtain ⟨p, μ', run, backs'⟩ := backs_emplace backs _
      exact ⟨μ', .emplace _ p μ' run, backs'⟩
    · exact ⟨μ, .none, backs⟩
  | notify id =>
    obtain ⟨-, rfl⟩ := step_notify.mp h
    exact ⟨μ, .none, backs⟩
  | start created =>
    obtain ⟨-, -, rfl⟩ := step_start.mp h
    have heap : (s.start created).heap = s.heap := by
      unfold start
      split
      · rfl
      · split <;> rfl
    exact ⟨μ, .none, heap ▸ backs⟩
  | stop =>
    obtain ⟨-, -, rfl⟩ := step_stop.mp h
    exact ⟨μ, .none, backs⟩
  | requestStop =>
    obtain ⟨-, ⟨-, rfl⟩ | ⟨-, rfl⟩⟩ := step_requestStop.mp h
    · exact ⟨μ, .none, backs⟩
    · exact ⟨μ, .none, backs⟩
  | notifyAll =>
    obtain ⟨-, rfl⟩ := step_notifyAll.mp h
    exact ⟨μ, .none, backs⟩
  | join =>
    obtain ⟨-, -, rfl⟩ := step_join.mp h
    exact ⟨μ, .none, backs⟩
  | stopReturn =>
    obtain ⟨-, rfl⟩ := step_stopReturn.mp h
    exact ⟨μ, .none, backs⟩
  | setClock now =>
    cases h
    exact ⟨μ, .none, backs⟩
  | wake =>
    obtain ⟨-, rfl⟩ := step_wake.mp h
    exact ⟨μ, .none, backs⟩
  | work timeout =>
    rcases workStep_cases h with ⟨w, o, -, rfl⟩ | ⟨d, o, c, due, heap, -, -, extracted, rfl⟩ |
      ⟨due, -, rfl⟩
    · exact ⟨μ, .none, backs⟩
    · obtain ⟨μ', run, backs'⟩ := backs_extractTop backs extracted
      exact ⟨μ', .extractTop due μ' run, backs'⟩
    · obtain ⟨p, μ', run, backs'⟩ := backs_emplace backs due
      exact ⟨μ', .emplace due p μ' run, backs'⟩
  | settle outcome =>
    obtain ⟨due, -, rfl⟩ := step_settle.mp h
    have heap : (s.settle due outcome).heap = s.heap := by
      cases outcome <;> rfl
    exact ⟨μ, .none, heap ▸ backs⟩

/-- In every run the items are in a heap object that those calls have built. -/
theorem reachable_backed (reached : Reachable step (initial now) s) (i : Collections.HeapId) :
    ∃ μ : Store Payload, Relation.ReflTransGen (StoreStep i)
      ((Collections.Memory.empty _).setHeap i (some {})) μ ∧ Backs μ i s.heap := by
  induction reached with
  | start =>
    obtain ⟨μ, run, backs⟩ := backs_construct i
    cases run
    exact ⟨_, .refl, backs⟩
  | next r a r' _ moves ih =>
    obtain ⟨μ, built, backs⟩ := ih
    obtain ⟨μ', call, backs'⟩ := step_backed backs moves
    exact ⟨μ', built.tail call, backs'⟩

end Scheduler

end Yellowstone
