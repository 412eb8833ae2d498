import Mathlib.Logic.Function.Basic
import Mathlib.Logic.Relation
import Yellowstone.Library.LockProgram
import Yellowstone.Library.Machine

/-!
# Threads that run programs with locks

A pool lets each thread run one call after another; `entry` says which program a call is, from
the memory it finds. A thread whose next step waits for a lock that another one holds waits for
that thread. If the locks that a waiting thread holds are below the one it waits for, no thread
waits for itself, and what a thread waits for ends at a thread that can move.
-/

set_option autoImplicit false

structure LockPool (Thread Lock σ ι ε Op : Type) where
  owner : Lock → Option Thread
  /-- What is left of the thread's call. -/
  code : Thread → LockProgram σ Lock ι ε Unit
  call : Thread → Option Op
  memory : σ

inductive PoolAction (Thread Op ι : Type) where
  | begin (t : Thread) (op : Op)
  | advance (t : Thread) (choice : ι)

/-- A call, and its first steps. -/
def PoolAction.calling {Thread Op ι : Type} (t : Thread) (op : Op) (steps : Nat) (choice : ι) :
    List (PoolAction Thread Op ι) :=
  .begin t op :: List.replicate steps (.advance t choice)

namespace LockPool
variable {Thread Lock σ ι ε Op : Type}

/-- No thread is in a call. -/
def idle (memory : σ) : LockPool Thread Lock σ ι ε Op where
  owner := fun _ => none
  code := fun _ => .done ()
  call := fun _ => none
  memory := memory

section Moves
variable [DecidableEq Thread] [DecidableEq Lock]

/-- The thread has taken a step, and this is left of its call. -/
def moved (s : LockPool Thread Lock σ ι ε Op) (t : Thread)
    (next : LockProgram σ Lock ι ε Unit) : LockPool Thread Lock σ ι ε Op :=
  { s with code := Function.update s.code t next }

def setOwner (s : LockPool Thread Lock σ ι ε Op) (l : Lock) (owner : Option Thread) :
    LockPool Thread Lock σ ι ε Op :=
  { s with owner := Function.update s.owner l owner }

def advance (s : LockPool Thread Lock σ ι ε Op) (t : Thread) (choice : ι) :
    Option (LockPool Thread Lock σ ι ε Op) :=
  match s.code t with
  | .done _ | .raise _ => none
  | .acquire l next =>
    if (s.owner l).isNone then some ((s.moved t next).setOwner l (some t)) else none
  | .release l next => some ((s.moved t next).setOwner l none)
  | .await l next => if (s.owner l).isNone then some (s.moved t next) else none
  | .access update next => some { s.moved t (next s.memory) with memory := update s.memory }
  | .choose next => some (s.moved t (next choice))

def step (entry : Thread → Op → σ → Option (LockProgram σ Lock ι ε Unit))
    (s : LockPool Thread Lock σ ι ε Op) :
    PoolAction Thread Op ι → Option (LockPool Thread Lock σ ι ε Op)
  | .begin t op =>
    if (s.code t).finished then
      (entry t op s.memory).map fun p =>
        { s.moved t p with call := Function.update s.call t (some op) }
    else none
  | .advance t choice => s.advance t choice

end Moves

/-- The next step of the thread waits for a lock that the other one holds. -/
def WaitsFor (s : LockPool Thread Lock σ ι ε Op) (t u : Thread) : Prop :=
  ∃ l, (s.code t).wants = some l ∧ s.owner l = some u

/-- Some thread waits, over others, for itself. -/
def CircularWait (s : LockPool Thread Lock σ ι ε Op) : Prop :=
  ∃ t, Relation.TransGen s.WaitsFor t t

/-- The thread is in a call, and its next step waits for no other thread. -/
def Ready (s : LockPool Thread Lock σ ι ε Op) (t : Thread) : Prop :=
  (s.code t).finished = false ∧ ∀ u, ¬ s.WaitsFor t u

/-- A waiting thread holds only locks that are below the one it waits for. -/
def Ascending (s : LockPool Thread Lock σ ι ε Op) (rank : Lock → Nat) : Prop :=
  ∀ t u l l', (s.code t).wants = some l → s.owner l = some u → s.owner l' = some t →
    rank l' < rank l

/-- Every call waits as the rule for it allows, and the thread holds what its code says. -/
def Disciplined [DecidableEq Lock] (rule : Thread → Option Op → List Lock → Lock → Prop)
    (s : LockPool Thread Lock σ ι ε Op) : Prop :=
  ∀ t, ∃ held : List Lock, held.Nodup ∧ (∀ l, l ∈ held ↔ s.owner l = some t) ∧
    (s.code t).Keeps (rule t (s.call t)) [] [] held

section Waits
variable {s : LockPool Thread Lock σ ι ε Op} {rank : Lock → Nat} {t u v : Thread}

/-- Along waits, the locks waited for rise. -/
theorem Ascending.rises (ascending : s.Ascending rank)
    (path : Relation.TransGen s.WaitsFor t u) :
    ∃ l l', (s.code t).wants = some l ∧ s.owner l' = some u ∧ rank l ≤ rank l' := by
  induction path with
  | single edge =>
    obtain ⟨l, wants, owner⟩ := edge
    exact ⟨l, l, wants, owner, Nat.le_refl _⟩
  | tail _ edge ih =>
    obtain ⟨l, l', wants, owner, le⟩ := ih
    obtain ⟨m, wantsNext, ownerNext⟩ := edge
    have lt := ascending _ _ m l' wantsNext ownerNext owner
    exact ⟨l, m, wants, ownerNext, by omega⟩

theorem Ascending.not_circularWait (ascending : s.Ascending rank) : ¬ s.CircularWait := by
  rintro ⟨t, path⟩
  obtain ⟨u, ⟨m, wants', owner'⟩, _⟩ := Relation.TransGen.head'_iff.mp path
  obtain ⟨l, l', wants, owner, le⟩ := ascending.rises path
  have lt := ascending t u m l' wants' owner' owner
  cases wants.symm.trans wants'
  omega

/-- What a thread waits for ends at a thread that waits for nobody. -/
theorem Ascending.ends (ascending : s.Ascending rank) {bound : Nat}
    (below : ∀ l, rank l < bound) (t : Thread) :
    ∃ u, Relation.ReflTransGen s.WaitsFor t u ∧ ∀ v, ¬ s.WaitsFor u v := by
  -- induction on how far below the bound the locks waited for are
  suffices h : ∀ n t, (∀ l v, (s.code t).wants = some l → s.owner l = some v →
      bound ≤ rank l + n) → ∃ u, Relation.ReflTransGen s.WaitsFor t u ∧ ∀ v, ¬ s.WaitsFor u v by
    exact h bound t fun l _ _ _ => Nat.le_add_left bound (rank l)
  intro n
  induction n with
  | zero =>
    intro t high
    refine ⟨t, .refl, ?_⟩
    rintro v ⟨l, wants, owner⟩
    have := high l v wants owner
    have := below l
    omega
  | succ n ih =>
    intro t high
    by_cases waits : ∃ v, s.WaitsFor t v
    · obtain ⟨v, l, wants, owner⟩ := waits
      have near := high l v wants owner
      have higher : ∀ l' w, (s.code v).wants = some l' → s.owner l' = some w →
          bound ≤ rank l' + n := by
        intro l' w wants' owner'
        have := ascending v w l' l wants' owner' owner
        omega
      obtain ⟨u, path, last⟩ := ih v higher
      exact ⟨u, .head ⟨l, wants, owner⟩ path, last⟩
    · exact ⟨t, .refl, fun v edge => waits ⟨v, edge⟩⟩

end Waits

section Discipline
variable [DecidableEq Lock] {rule : Thread → Option Op → List Lock → Lock → Prop}
  {s : LockPool Thread Lock σ ι ε Op} {rank : Lock → Nat} {t u : Thread} {l : Lock}

theorem disciplined_idle (memory : σ) :
    Disciplined rule (idle memory : LockPool Thread Lock σ ι ε Op) := by
  intro t
  exact ⟨[], List.nodup_nil, by simp [idle], rfl⟩

/-- A waiting thread waits as its rule allows, with the locks that it owns. -/
theorem Disciplined.waiting (disciplined : s.Disciplined rule)
    (wants : (s.code t).wants = some l) :
    ∃ held, (∀ l', l' ∈ held ↔ s.owner l' = some t) ∧ rule t (s.call t) held l := by
  obtain ⟨held, _, owned, keeps⟩ := disciplined t
  exact ⟨held, owned, keeps.wants wants⟩

/-- The owner of a lock is in a call. -/
theorem Disciplined.busy (disciplined : s.Disciplined rule) (owner : s.owner l = some t) :
    (s.code t).finished = false := by
  obtain ⟨held, _, owned, keeps⟩ := disciplined t
  have mem := (owned l).mpr owner
  cases hc : s.code t with
  | done _ | raise _ =>
    rw [hc] at keeps
    cases keeps
    cases mem
  | _ => rfl

/-- A thread in a call is ready, or waits over others for one that is. -/
theorem Disciplined.ends (disciplined : s.Disciplined rule) (ascending : s.Ascending rank)
    {bound : Nat} (below : ∀ l, rank l < bound) (busy : (s.code t).finished = false) :
    ∃ u, Relation.ReflTransGen s.WaitsFor t u ∧ s.Ready u := by
  obtain ⟨u, path, last⟩ := ascending.ends below t
  refine ⟨u, path, ?_, last⟩
  cases path with
  | refl => exact busy
  | tail _ edge =>
    obtain ⟨l, _, owner⟩ := edge
    exact disciplined.busy owner

variable [DecidableEq Thread]

/-- A thread that is ready can take its step. -/
theorem Ready.advance (ready : s.Ready t) (choice : ι) : ∃ s', s.advance t choice = some s' := by
  obtain ⟨busy, free⟩ := ready
  have owner : ∀ l, (s.code t).wants = some l → (s.owner l).isNone = true := by
    intro l wants
    cases ho : s.owner l with
    | none => rfl
    | some u => exact absurd ⟨l, wants, ho⟩ (free u)
  unfold LockPool.advance
  cases hc : s.code t with
  | done _ | raise _ => simp [hc, LockProgram.finished] at busy
  | acquire l p | await l p => simp [owner l (by rw [hc]; rfl)]
  | _ => simp

variable {s' : LockPool Thread Lock σ ι ε Op} {choice : ι}

/-- The thread that moves holds what the rest of its code expects. -/
theorem Disciplined.advance_self (disciplined : s.Disciplined rule)
    (moves : s.advance t choice = some s') :
    ∃ held : List Lock, held.Nodup ∧ (∀ l, l ∈ held ↔ s'.owner l = some t) ∧
      (s'.code t).Keeps (rule t (s'.call t)) [] [] held := by
  obtain ⟨held, nodup, owned, keeps⟩ := disciplined t
  unfold LockPool.advance at moves
  cases hc : s.code t with
  | done _ | raise _ => simp [hc] at moves
  | acquire l p =>
    simp only [hc, Option.ite_none_right_eq_some, Option.isNone_iff_eq_none,
      Option.some.injEq] at moves
    obtain ⟨free, rfl⟩ := moves
    rw [hc] at keeps
    have absent : l ∉ held := by
      rw [owned, free]
      simp
    refine ⟨l :: held, List.nodup_cons.mpr ⟨absent, nodup⟩, ?_, ?_⟩
    · intro l'
      by_cases hl : l' = l
      · simp [setOwner, hl]
      · simp [setOwner, moved, hl, owned]
    · simpa [moved, setOwner] using keeps.2
  | release l p =>
    simp only [hc, Option.some.injEq] at moves
    subst moves
    rw [hc] at keeps
    refine ⟨held.erase l, nodup.erase l, ?_, by simpa [moved, setOwner] using keeps.2⟩
    intro l'
    rw [nodup.mem_erase_iff]
    by_cases hl : l' = l
    · simp [setOwner, hl]
    · simp [setOwner, moved, hl, owned]
  | await l p =>
    simp only [hc, Option.ite_none_right_eq_some, Option.some.injEq] at moves
    obtain ⟨_, rfl⟩ := moves
    rw [hc] at keeps
    exact ⟨held, nodup, owned, by simpa [moved] using keeps.2⟩
  | access update p =>
    simp only [hc, Option.some.injEq] at moves
    subst moves
    rw [hc] at keeps
    exact ⟨held, nodup, owned, by simpa [moved] using keeps s.memory⟩
  | choose p =>
    simp only [hc, Option.some.injEq] at moves
    subst moves
    rw [hc] at keeps
    exact ⟨held, nodup, owned, by simpa [moved] using keeps choice⟩

/-- A thread that does not move keeps its code, its call and its locks. -/
theorem Disciplined.advance_other (disciplined : s.Disciplined rule)
    (moves : s.advance t choice = some s') (other : u ≠ t) :
    s'.code u = s.code u ∧ s'.call u = s.call u ∧
      ∀ l, s'.owner l = some u ↔ s.owner l = some u := by
  obtain ⟨held, _, owned, keeps⟩ := disciplined t
  unfold LockPool.advance at moves
  cases hc : s.code t with
  | done _ | raise _ => simp [hc] at moves
  | acquire l p =>
    simp only [hc, Option.ite_none_right_eq_some, Option.isNone_iff_eq_none,
      Option.some.injEq] at moves
    obtain ⟨free, rfl⟩ := moves
    refine ⟨by simp [moved, setOwner, other], rfl, ?_⟩
    intro l'
    by_cases hl : l' = l
    · simp [setOwner, hl, free, other.symm]
    · simp [setOwner, moved, hl]
  | release l p =>
    simp only [hc, Option.some.injEq] at moves
    subst moves
    rw [hc] at keeps
    have owner := (owned l).mp keeps.1
    refine ⟨by simp [moved, setOwner, other], rfl, ?_⟩
    intro l'
    by_cases hl : l' = l
    · simp [setOwner, hl, owner, other.symm]
    · simp [setOwner, moved, hl]
  | await l p =>
    simp only [hc, Option.ite_none_right_eq_some, Option.some.injEq] at moves
    obtain ⟨_, rfl⟩ := moves
    simp [moved, other]
  | access update p | choose p =>
    simp only [hc, Option.some.injEq] at moves
    subst moves
    simp [moved, other]

theorem Disciplined.advance (disciplined : s.Disciplined rule)
    (moves : s.advance t choice = some s') : s'.Disciplined rule := by
  intro u
  by_cases same : u = t
  · subst same
    exact disciplined.advance_self moves
  · obtain ⟨code, call, owner⟩ := disciplined.advance_other moves same
    obtain ⟨held, nodup, owned, keeps⟩ := disciplined u
    rw [code, call]
    exact ⟨held, nodup, fun l => (owned l).trans (owner l).symm, keeps⟩

variable {entry : Thread → Op → σ → Option (LockProgram σ Lock ι ε Unit)}

/-- If every call keeps its rule, every step leaves the pool disciplined. -/
theorem Disciplined.step {a : PoolAction Thread Op ι}
    (entries : ∀ t op m p, entry t op m = some p → p.Keeps (rule t (some op)) [] [] [])
    (disciplined : s.Disciplined rule) (moves : step entry s a = some s') :
    s'.Disciplined rule := by
  cases a with
  | advance t choice => exact disciplined.advance moves
  | begin t op =>
    simp only [LockPool.step, Option.ite_none_right_eq_some, Option.map_eq_some_iff] at moves
    obtain ⟨finished, p, started, rfl⟩ := moves
    intro u
    by_cases same : u = t
    · subst same
      refine ⟨[], List.nodup_nil, ?_, by simpa [moved] using entries u op _ p started⟩
      intro l
      simp only [List.not_mem_nil, false_iff]
      intro owner
      -- an owner would be in a call
      have busy := disciplined.busy owner
      rw [finished] at busy
      cases busy
    · simpa [moved, same] using disciplined u

/-- In every run all calls keep their rules. -/
theorem disciplined_of_reachable
    (entries : ∀ t op m p, entry t op m = some p → p.Keeps (rule t (some op)) [] [] [])
    {memory : σ} (reached : Machine.Reachable (LockPool.step entry) (idle memory) s) :
    s.Disciplined rule :=
  reached.invariant (disciplined_idle memory) fun _ _ _ h moves => h.step entries moves

end Discipline
end LockPool
