import Yellowstone.Library.Machine

/-!
# Bounded progress

A rank that every step lowers, unless the step meets the goal, bounds the length of a run
that has not met it; if moreover some step is always possible, such a run can be continued
until it does.
-/

set_option autoImplicit false

namespace Machine

universe u v
variable {σ : Type u} {α : Type v} (step : σ → α → Option σ)

/-- Some step of the run meets the goal. -/
def Meets (goal : σ → α → σ → Prop) : σ → List α → Prop
  | _, [] => False
  | s, a :: as => ∃ t, step s a = some t ∧ (goal s a t ∨ Meets goal t as)

variable {step} {inv : σ → Prop} {rank : σ → Nat} {goal : σ → α → σ → Prop}

theorem meets_or_descends
    (next : ∀ s a t, inv s → step s a = some t → goal s a t ∨ (inv t ∧ rank t < rank s))
    {s t : σ} {as : List α} (start : inv s) (runs : run step s as = some t) :
    Meets step goal s as ∨ (inv t ∧ as.length + rank t ≤ rank s) := by
  induction as generalizing s with
  | nil =>
    cases runs
    exact .inr ⟨start, by simp⟩
  | cons a as ih =>
    obtain ⟨m, moves, rest⟩ := Option.bind_eq_some_iff.mp runs
    rcases next s a m start moves with met | ⟨kept, lower⟩
    · exact .inl ⟨m, moves, .inl met⟩
    · rcases ih kept rest with met | ⟨kept, descended⟩
      · exact .inl ⟨m, moves, .inr met⟩
      · refine .inr ⟨kept, ?_⟩
        rw [List.length_cons]
        omega

/-- A run of steps that all lower the rank. -/
theorem descends (next : ∀ s a t, inv s → step s a = some t → inv t ∧ rank t < rank s)
    {s t : σ} {as : List α} (start : inv s) (runs : run step s as = some t) :
    inv t ∧ as.length + rank t ≤ rank s := by
  induction as generalizing s with
  | nil =>
    cases runs
    exact ⟨start, by simp⟩
  | cons a as ih =>
    obtain ⟨m, moves, rest⟩ := Option.bind_eq_some_iff.mp runs
    obtain ⟨kept, lower⟩ := next s a m start moves
    obtain ⟨kept, descended⟩ := ih kept rest
    refine ⟨kept, ?_⟩
    rw [List.length_cons]
    omega

/-- A run that has not met the goal is shorter than the rank, and can go on. -/
theorem bounded_progress
    (next : ∀ s a t, inv s → step s a = some t → goal s a t ∨ (inv t ∧ rank t < rank s))
    (positive : ∀ s, inv s → 0 < rank s) (enabled : ∀ s, inv s → ∃ a t, step s a = some t)
    {s t : σ} {as : List α} (start : inv s) (runs : run step s as = some t) :
    Meets step goal s as ∨ (as.length < rank s ∧ ∃ a r, step t a = some r) := by
  rcases meets_or_descends next start runs with met | ⟨kept, descended⟩
  · exact .inl met
  · have := positive t kept
    exact .inr ⟨by omega, enabled t kept⟩

end Machine
