import Mathlib.Data.List.Basic

/-!
# Programs that take locks

A program is the tree of what a thread may still do. `access` touches the memory that the
threads share, `choose` leaves a decision to the environment, and `raise` leaves every scope
around it, as an exception does. A scope's lock is released however the scope is left.

`Keeps` is the discipline of a program: with which locks in hand it waits for another one. It
has one rule for each way of building a program.
-/

set_option autoImplicit false

inductive LockProgram (σ Lock ι ε α : Type) where
  | done (result : α)
  | raise (e : ε)
  | acquire (l : Lock) (next : LockProgram σ Lock ι ε α)
  | release (l : Lock) (next : LockProgram σ Lock ι ε α)
  /-- Waits until nobody holds the lock, and does not take it. -/
  | await (l : Lock) (next : LockProgram σ Lock ι ε α)
  | access (update : σ → σ) (next : σ → LockProgram σ Lock ι ε α)
  | choose (next : ι → LockProgram σ Lock ι ε α)

namespace LockProgram
variable {σ Lock ι ε ε' α β : Type}

def bind (p : LockProgram σ Lock ι ε α) (f : α → LockProgram σ Lock ι ε β) :
    LockProgram σ Lock ι ε β :=
  match p with
  | done a => f a
  | raise e => raise e
  | acquire l p => acquire l (p.bind f)
  | release l p => release l (p.bind f)
  | await l p => await l (p.bind f)
  | access update p => access update fun s => (p s).bind f
  | choose p => choose fun c => (p c).bind f

instance : Monad (LockProgram σ Lock ι ε) where
  pure := done
  bind := bind

def lock (l : Lock) : LockProgram σ Lock ι ε Unit := acquire l (done ())

def unlock (l : Lock) : LockProgram σ Lock ι ε Unit := release l (done ())

def atomically (f : σ → α × σ) : LockProgram σ Lock ι ε α :=
  access (fun s => (f s).2) fun s => done (f s).1

def load (f : σ → α) : LockProgram σ Lock ι ε α := access id fun s => done (f s)

def ask (f : ι → α) : LockProgram σ Lock ι ε α := choose fun c => done (f c)

def ofExcept : Except ε α → LockProgram σ Lock ι ε α
  | .ok a => done a
  | .error e => raise e

/-- The program with `leave` run at its end, whether it returns or raises. -/
def ensuring (p : LockProgram σ Lock ι ε α) (leave : LockProgram σ Lock ι ε Unit) :
    LockProgram σ Lock ι ε α :=
  match p with
  | done a => leave.bind fun _ => done a
  | raise e => leave.bind fun _ => raise e
  | acquire l p => acquire l (p.ensuring leave)
  | release l p => release l (p.ensuring leave)
  | await l p => await l (p.ensuring leave)
  | access update p => access update fun s => (p s).ensuring leave
  | choose p => choose fun c => (p c).ensuring leave

/-- The scope of a `lock_guard`. -/
def withLock (l : Lock) (body : LockProgram σ Lock ι ε α) : LockProgram σ Lock ι ε α :=
  acquire l (body.ensuring (unlock l))

/-- What the program raises becomes its result. -/
def attempt : LockProgram σ Lock ι ε α → LockProgram σ Lock ι ε' (Except ε α)
  | done a => done (.ok a)
  | raise e => done (.error e)
  | acquire l p => acquire l p.attempt
  | release l p => release l p.attempt
  | await l p => await l p.attempt
  | access update p => access update fun s => (p s).attempt
  | choose p => choose fun c => (p c).attempt

def awaitAll : List Lock → LockProgram σ Lock ι ε Unit
  | [] => done ()
  | l :: ls => await l (awaitAll ls)

/-- A wait on a condition variable gives the lock away and takes it back whenever it wakes. -/
def conditionWait (l : Lock) : Nat → LockProgram σ Lock ι ε Unit
  | 0 => done ()
  | wakeups + 1 => release l (acquire l (conditionWait l wakeups))

def finished : LockProgram σ Lock ι ε α → Bool
  | done _ | raise _ => true
  | _ => false

/-- The lock that the program's next step waits for. -/
def wants : LockProgram σ Lock ι ε α → Option Lock
  | acquire l _ | await l _ => some l
  | _ => none

section Discipline
variable [DecidableEq Lock]

/-- With these locks in hand the program waits only as the rule allows, releases what it
holds, and has the locks `final` when it returns and `thrown` when it raises. -/
def Keeps (rule : List Lock → Lock → Prop) (thrown final : List Lock) (held : List Lock) :
    LockProgram σ Lock ι ε α → Prop
  | done _ => held = final
  | raise _ => held = thrown
  | acquire l p => rule held l ∧ Keeps rule thrown final (l :: held) p
  | release l p => l ∈ held ∧ Keeps rule thrown final (held.erase l) p
  | await l p => rule held l ∧ Keeps rule thrown final held p
  | access _ p => ∀ s, Keeps rule thrown final held (p s)
  | choose p => ∀ c, Keeps rule thrown final held (p c)

/-- However the program ends, it ends with the locks that it began with. -/
abbrev Restores (rule : List Lock → Lock → Prop) (held : List Lock)
    (p : LockProgram σ Lock ι ε α) : Prop :=
  p.Keeps rule held held held

variable {rule : List Lock → Lock → Prop} {thrown mid final held : List Lock}

namespace Keeps
variable {p : LockProgram σ Lock ι ε α} {l : Lock}

theorem wants (h : p.Keeps rule thrown final held) (next : p.wants = some l) : rule held l := by
  cases p with
  | acquire l' p | await l' p =>
    cases next
    exact h.1
  | _ => cases next

theorem bind (first : p.Keeps rule thrown mid held) {f : α → LockProgram σ Lock ι ε β}
    (rest : ∀ a, (f a).Keeps rule thrown final mid) :
    (p >>= f).Keeps rule thrown final held := by
  change (p.bind f).Keeps rule thrown final held
  induction p generalizing held with
  | done a =>
    cases first
    exact rest a
  | raise e => exact first
  | acquire l p ih | release l p ih | await l p ih => exact ⟨first.1, ih first.2⟩
  | access update p ih | choose p ih =>
    intro s
    exact ih s (first s)

theorem ensuring (body : p.Keeps rule mid mid held) {leave : LockProgram σ Lock ι ε Unit}
    (after : leave.Keeps rule final final mid) :
    (p.ensuring leave).Keeps rule final final held := by
  induction p generalizing held with
  | done a =>
    cases body
    exact after.bind fun _ => rfl
  | raise e =>
    cases body
    exact after.bind fun _ => rfl
  | acquire l p ih | release l p ih | await l p ih => exact ⟨body.1, ih body.2⟩
  | access update p ih | choose p ih =>
    intro s
    exact ih s (body s)

/-- Once its raising is caught a program only returns. -/
theorem attempt (body : p.Keeps rule final final held) :
    (p.attempt : LockProgram σ Lock ι ε' _).Keeps rule thrown final held := by
  induction p generalizing held with
  | done a | raise e => exact body
  | acquire l p ih | release l p ih | await l p ih => exact ⟨body.1, ih body.2⟩
  | access update p ih | choose p ih =>
    intro s
    exact ih s (body s)

theorem pure {a : α} : (pure a : LockProgram σ Lock ι ε α).Keeps rule thrown held held := rfl

theorem raise {e : ε} : (raise e : LockProgram σ Lock ι ε α).Keeps rule held final held := rfl

theorem ofExcept (x : Except ε α) :
    (ofExcept x : LockProgram σ Lock ι ε α).Restores rule held := by
  cases x <;> rfl

theorem atomically (f : σ → α × σ) :
    (atomically f : LockProgram σ Lock ι ε α).Keeps rule thrown held held := fun _ => rfl

theorem load (f : σ → α) :
    (load f : LockProgram σ Lock ι ε α).Keeps rule thrown held held := fun _ => rfl

theorem ask (f : ι → α) :
    (ask f : LockProgram σ Lock ι ε α).Keeps rule thrown held held := fun _ => rfl

theorem lock (allowed : rule held l) :
    (lock l : LockProgram σ Lock ι ε Unit).Keeps rule thrown (l :: held) held :=
  ⟨allowed, rfl⟩

theorem unlock :
    (unlock l : LockProgram σ Lock ι ε Unit).Keeps rule thrown held (l :: held) :=
  ⟨List.mem_cons_self, List.erase_cons_head l held⟩

theorem withLock (allowed : rule held l) (body : Restores rule (l :: held) p) :
    (p.withLock l).Restores rule held :=
  ⟨allowed, body.ensuring unlock⟩

theorem awaitAll {ls : List Lock} (allowed : ∀ l ∈ ls, rule held l) :
    (awaitAll ls : LockProgram σ Lock ι ε Unit).Keeps rule thrown held held := by
  induction ls with
  | nil => rfl
  | cons l ls ih =>
    have ⟨first, rest⟩ := List.forall_mem_cons.mp allowed
    exact ⟨first, ih rest⟩

theorem conditionWait (allowed : rule held l) (wakeups : Nat) :
    (conditionWait l wakeups : LockProgram σ Lock ι ε Unit).Keeps rule thrown
      (l :: held) (l :: held) := by
  induction wakeups with
  | zero => rfl
  | succ wakeups ih =>
    refine ⟨List.mem_cons_self, ?_⟩
    rw [List.erase_cons_head]
    exact ⟨allowed, ih⟩

end Keeps
end Discipline
end LockProgram
