import Mathlib.Data.List.Forall2

/-! # Machines that write one output for each input

A step takes a state and an input to a state and an output. The outputs of a run on a list
are those of its parts; a weight of the outputs bounds what a run can gain when a part of
its input is left out. -/

namespace Mealy

variable {σ α β : Type*} (step : σ → α → σ × β)

/-- The state after a list of inputs. -/
def final : σ → List α → σ
  | s, [] => s
  | s, a :: as => final (step s a).1 as

/-- The outputs for a list of inputs. -/
def outputs : σ → List α → List β
  | _, [] => []
  | s, a :: as => (step s a).2 :: outputs (step s a).1 as

variable {step} {s t : σ} {as bs : List α}

theorem outputs_append : outputs step s (as ++ bs) =
    outputs step s as ++ outputs step (final step s as) bs := by
  induction as generalizing s with
  | nil => rfl
  | cons a as ih => exact congrArg (List.cons _) ih

theorem outputs_length : (outputs step s as).length = as.length := by
  induction as generalizing s with
  | nil => rfl
  | cons a as ih => exact congrArg Nat.succ ih

/-- A machine that sees a view of its inputs only, and fills the inputs into what it writes. -/
theorem outputs_eq_zipWith {γ δ : Type*} {view : α → δ} {frame : σ → δ → σ × γ} {place : γ → α → β}
    (h : ∀ s a, step s a = ((frame s (view a)).1, place (frame s (view a)).2 a)) (s : σ)
    (as : List α) :
    outputs step s as = List.zipWith place (outputs frame s (as.map view)) as := by
  induction as generalizing s with
  | nil => rfl
  | cons a as ih => rw [outputs, h, ih, List.map_cons, outputs, List.zipWith_cons_cons]

/-! ## The weight of a run -/

section Weight

variable (step) (w : β → ℕ)

/-- The weight of the outputs. -/
def cost : σ → List α → ℕ
  | _, [] => 0
  | s, a :: as => w (step s a).2 + cost (step s a).1 as

variable {step} {w}

theorem cost_cons (s : σ) (a : α) (as : List α) :
    cost step w s (a :: as) = w (step s a).2 + cost step w (step s a).1 as := rfl

/-- Among the states in `I`, `D s t` bounds how much heavier a run from `s` is than the same run
from `t`. -/
structure Bounds (step : σ → α → σ × β) (w : β → ℕ) (I : σ → Prop) (D : σ → σ → ℕ) : Prop where
  closed : ∀ s a, I s → I (step s a).1
  bound : ∀ s t a, I s → I t → w (step s a).2 + D (step s a).1 (step t a).1 ≤ D s t + w (step t a).2

variable {I : σ → Prop} {D : σ → σ → ℕ}

theorem Bounds.cost_le (hD : Bounds step w I D) (hs : I s) (ht : I t) (as : List α) :
    cost step w s as ≤ D s t + cost step w t as := by
  induction as generalizing s t with
  | nil => exact Nat.zero_le _
  | cons a as ih =>
      have hstep := hD.bound s t a hs ht
      have hrest := ih (hD.closed s a hs) (hD.closed t a ht)
      rw [cost_cons, cost_cons]
      omega

/-- A part of the input can be left out without making the run heavier, where no input costs
less than what the state before it could gain over the state after it. -/
theorem Bounds.cost_drop_le (hD : Bounds step w I D)
    (hdrop : ∀ s a, I s → D s (step s a).1 ≤ w (step s a).2) (hs : I s) (as bs : List α) :
    cost step w s bs ≤ cost step w s (as ++ bs) := by
  induction as generalizing s with
  | nil => exact Nat.le_refl _
  | cons a as ih =>
      have hle := hD.cost_le hs (hD.closed s a hs) bs
      have hcost := hdrop s a hs
      have hrest := ih (hD.closed s a hs)
      rw [List.cons_append, cost_cons]
      omega

end Weight

end Mealy
