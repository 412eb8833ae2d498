import Mathlib.Logic.Function.Basic

/-!
# Running programs that write and may throw

`exec x s` runs a program of `ExceptT ε (StateM σ)`. A throw keeps the state that was
written before it. The rules evaluate straight-line programs one statement at a time.
-/

set_option autoImplicit false

universe u

abbrev Throwing (ε σ : Type u) := ExceptT ε (StateM σ)

namespace Throwing
variable {ε σ α β : Type u}

def exec (x : Throwing ε σ α) (s : σ) : Except ε α × σ := x.run.run s

theorem exec_bind (x : Throwing ε σ α) (f : α → Throwing ε σ β) (s : σ) :
    exec (x >>= f) s = match exec x s with
      | (.ok a, t) => exec (f a) t
      | (.error e, t) => (.error e, t) := by
  change (_ : Id _) = _
  unfold exec
  rcases h : x.run.run s with ⟨_ | _, _⟩
  all_goals
    simp only [ExceptT.run, bind, ExceptT.bind, ExceptT.mk, StateT.bind, StateT.run,
      ExceptT.bindCont] at *
  · rw [h]
    rfl
  · rw [h]

@[simp] theorem exec_pure (a : α) (s : σ) : exec (pure a : Throwing ε σ α) s = (.ok a, s) := rfl

@[simp] theorem exec_throw (e : ε) (s : σ) :
    exec (throw e : Throwing ε σ α) s = (.error e, s) := rfl

@[simp] theorem exec_get (s : σ) : exec (get : Throwing ε σ σ) s = (.ok s, s) := rfl

@[simp] theorem exec_modify (f : σ → σ) (s : σ) :
    exec (modify f : Throwing ε σ PUnit) s = (.ok ⟨⟩, f s) := rfl

@[simp] theorem exec_map (f : α → β) (x : Throwing ε σ α) (s : σ) :
    exec (f <$> x) s = match exec x s with
      | (.ok a, t) => (.ok (f a), t)
      | (.error e, t) => (.error e, t) := by
  rw [map_eq_pure_bind, exec_bind]
  rfl

theorem exec_tryCatch (x : Throwing ε σ α) (handler : ε → Throwing ε σ α) (s : σ) :
    exec (tryCatch x handler) s = match exec x s with
      | (.ok a, t) => (.ok a, t)
      | (.error e, t) => exec (handler e) t := by
  change (_ : Id _) = _
  unfold exec
  rcases h : x.run.run s with ⟨_ | _, _⟩
  all_goals
    simp only [ExceptT.run, tryCatch, tryCatchThe, MonadExceptOf.tryCatch, ExceptT.tryCatch,
      ExceptT.mk, StateT.bind, StateT.run, bind] at *
  · rw [h]
  · rw [h]
    rfl

/-- Sequencing after a first program that is known to return. -/
theorem exec_bind_of_ok {x : Throwing ε σ α} {f : α → Throwing ε σ β} {s t : σ} {a : α}
    (hx : exec x s = (.ok a, t)) : exec (x >>= f) s = exec (f a) t := by
  rw [exec_bind, hx]

/-- What throws ends the sequence. -/
theorem exec_bind_of_error {x : Throwing ε σ α} {f : α → Throwing ε σ β} {s t : σ} {e : ε}
    (hx : exec x s = (.error e, t)) : exec (x >>= f) s = (.error e, t) := by
  rw [exec_bind, hx]

end Throwing
