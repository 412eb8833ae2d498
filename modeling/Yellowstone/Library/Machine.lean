import Mathlib.Data.List.Induction

/-!
# Runs of labelled machines

A machine is a partial step function: the label of a step carries every choice the
environment makes, so a run is the list of its labels. `Reachable` is about all
runs from a given state; the rules below are the only inductions over runs that a
development needs.
-/

set_option autoImplicit false

namespace Machine

universe u v
variable {σ : Type u} {α : Type v} (step : σ → α → Option σ)

def run : σ → List α → Option σ
  | s, [] => some s
  | s, a :: as => (step s a).bind fun t => run t as

def Reachable (s t : σ) : Prop := ∃ as, run step s as = some t

/-- The machine restricted to the steps that a condition on state and label allows. -/
def guarded (allowed : σ → α → Bool) (s : σ) (a : α) : Option σ :=
  if allowed s a then step s a else none

/-- The condition on a step that the state after it is as wanted. -/
def leadingTo (wanted : σ → Bool) (s : σ) (a : α) : Bool := (step s a).all wanted

variable {step}

@[simp] theorem run_nil (s : σ) : run step s [] = some s := rfl

@[simp] theorem run_cons (s : σ) (a : α) (as : List α) :
    run step s (a :: as) = (step s a).bind fun t => run step t as := rfl

theorem run_append (s : σ) (as bs : List α) :
    run step s (as ++ bs) = (run step s as).bind fun t => run step t bs := by
  induction as generalizing s with
  | nil => rfl
  | cons a as ih =>
    cases h : step s a with
    | none => simp [h]
    | some t => simp [h, ih]

theorem run_snoc_eq_some {s t : σ} {as : List α} {a : α} :
    run step s (as ++ [a]) = some t ↔ ∃ m, run step s as = some m ∧ step m a = some t := by
  rw [run_append]
  cases h : run step s as with
  | none => simp
  | some m => cases ha : step m a <;> simp [ha]

theorem Reachable.refl (s : σ) : Reachable step s s := ⟨[], rfl⟩

theorem Reachable.next {s t r : σ} {a : α} (h : Reachable step s t) (ha : step t a = some r) :
    Reachable step s r := by
  obtain ⟨as, has⟩ := h
  exact ⟨as ++ [a], run_snoc_eq_some.mpr ⟨t, has, ha⟩⟩

theorem Reachable.trans {s t r : σ} (h : Reachable step s t) (k : Reachable step t r) :
    Reachable step s r := by
  obtain ⟨as, has⟩ := h
  obtain ⟨bs, hbs⟩ := k
  exact ⟨as ++ bs, by rw [run_append, has]; exact hbs⟩

/-- Run induction: what the first state has and one step preserves holds of every
reachable state. The step may use that its source is reachable. -/
@[elab_as_elim, induction_eliminator]
theorem Reachable.induct {s : σ} {motive : ∀ t, Reachable step s t → Prop}
    (start : motive s (.refl s))
    (next : ∀ r a r' (reached : Reachable step s r) (moves : step r a = some r'),
      motive r reached → motive r' (reached.next moves))
    {t : σ} (reached : Reachable step s t) : motive t reached := by
  obtain ⟨as, has⟩ := reached
  induction as using List.reverseRecOn generalizing t with
  | nil => cases has; exact start
  | append_singleton as a ih =>
    obtain ⟨m, hm, ha⟩ := run_snoc_eq_some.mp has
    exact next m a t ⟨as, hm⟩ ha (ih hm)

/-- An invariant is what holds at the start and survives each step on its own. -/
theorem Reachable.invariant {s t : σ} {inv : σ → Prop} (h : Reachable step s t)
    (start : inv s) (next : ∀ r a r', inv r → step r a = some r' → inv r') : inv t := by
  induction h with
  | start => exact start
  | next r a r' _ ha hr => exact next r a r' hr ha

/-- A part of a machine whose moves the whole machine's steps are runs of. -/
theorem Reachable.project {τ : Type u} {β : Type v} {part : τ → β → Option τ} {f : σ → τ}
    {s t : σ} (h : Reachable step s t)
    (each : ∀ r a r', step r a = some r' → Reachable part (f r) (f r')) :
    Reachable part (f s) (f t) := by
  induction h with
  | start => exact .refl (f s)
  | next r a r' _ ha hr => exact hr.trans (each r a r' ha)

theorem guarded_eq_some {allowed : σ → α → Bool} {s t : σ} {a : α} :
    guarded step allowed s a = some t ↔ allowed s a = true ∧ step s a = some t := by
  unfold guarded
  split <;> simp_all

theorem Reachable.of_guarded {allowed : σ → α → Bool} {s t : σ}
    (h : Reachable (guarded step allowed) s t) : Reachable step s t := by
  induction h with
  | start => exact .refl s
  | next r a r' _ ha hr => exact hr.next (guarded_eq_some.mp ha).2

theorem Reachable.relax {allowed allowed' : σ → α → Bool} {s t : σ}
    (weaker : ∀ r a, allowed r a = true → allowed' r a = true)
    (h : Reachable (guarded step allowed) s t) : Reachable (guarded step allowed') s t := by
  induction h with
  | start => exact .refl s
  | next r a r' _ ha hr =>
    obtain ⟨allows, moves⟩ := guarded_eq_some.mp ha
    exact hr.next (guarded_eq_some.mpr ⟨weaker r a allows, moves⟩)

/-- If every step leads to a wanted state, every state reached is one. -/
theorem Reachable.wanted {wanted : σ → Bool} {s t : σ} (start : wanted s = true)
    (h : Reachable (guarded step (leadingTo step wanted)) s t) : wanted t = true := by
  induction h with
  | start => exact start
  | next r a r' _ ha _ =>
    obtain ⟨allowed, ha⟩ := guarded_eq_some.mp ha
    simpa [leadingTo, ha] using allowed

end Machine
