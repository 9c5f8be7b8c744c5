import Mathlib.Data.List.Basic

/-! # Runs of a partial transition function

A step function answers `none` where an event is not enabled. Runs are either
executed (`exec`) or described by the states they reach under a restriction on
their steps (`Reach`). -/

namespace Transition

variable {σ ε : Type*}

/-- Executes the events in order and stops at the first one that is not enabled. -/
def exec (step : σ → ε → Option σ) : σ → List ε → Option σ
  | s, [] => some s
  | s, e :: es => (step s e).bind fun s' => exec step s' es

/-- The states reached from an initial one by steps that all satisfy `allowed`. -/
inductive Reach (step : σ → ε → Option σ) (allowed : σ → ε → Prop) (init : σ → Prop) :
    σ → Prop where
  | start {s} : init s → Reach step allowed init s
  | next {s e s'} : Reach step allowed init s → allowed s e → step s e = some s' →
      Reach step allowed init s'

variable {step : σ → ε → Option σ} {allowed : σ → ε → Prop} {init : σ → Prop}

/-- An invariant that holds initially and is kept by every allowed step holds in
every state reached. -/
theorem Reach.invariant {Inv : σ → Prop} (hinit : ∀ s, init s → Inv s)
    (hstep : ∀ s e s', Inv s → allowed s e → step s e = some s' → Inv s') {s : σ}
    (h : Reach step allowed init s) : Inv s := by
  induction h with
  | start hs => exact hinit _ hs
  | next _ ha he ih => exact hstep _ _ _ ih ha he

/-- The events of `es`, executed from `s`, are all allowed where they happen. -/
def AllowedAlong (step : σ → ε → Option σ) (allowed : σ → ε → Prop) : σ → List ε → Prop
  | _, [] => True
  | s, e :: es => allowed s e ∧ ∀ s', step s e = some s' → AllowedAlong step allowed s' es

/-- Whether a given execution is allowed can be checked by running it. -/
instance AllowedAlong.decidable [∀ s e, Decidable (allowed s e)] :
    ∀ (s : σ) (es : List ε), Decidable (AllowedAlong step allowed s es)
  | _, [] => isTrue trivial
  | s, e :: es =>
      match h : step s e with
      | none => decidable_of_iff (allowed s e) (by simp [AllowedAlong, h])
      | some s' =>
          have := AllowedAlong.decidable s' es
          decidable_of_iff (allowed s e ∧ AllowedAlong step allowed s' es)
            (by simp [AllowedAlong, h])

/-- An execution whose events are allowed reaches the state it computes. -/
theorem Reach.of_exec {s t : σ} {es : List ε} (hs : Reach step allowed init s)
    (ha : AllowedAlong step allowed s es) (he : exec step s es = some t) :
    Reach step allowed init t := by
  induction es generalizing s with
  | nil =>
      obtain rfl : s = t := by simpa [exec] using he
      exact hs
  | cons e es ih =>
      simp only [exec, Option.bind_eq_some_iff] at he
      obtain ⟨s', hstep, hrest⟩ := he
      exact ih (.next hs ha.1 hstep) (ha.2 s' hstep) hrest

/-- Where an execution leads can be checked by running it. -/
theorem exec_of_decide {P : σ → Prop} [DecidablePred P] {s : σ} {es : List ε}
    (h : (exec step s es).any (fun t => decide (P t)) = true) :
    ∃ t, exec step s es = some t ∧ P t := by
  obtain ⟨t, ht, hP⟩ := (Option.any_eq_true _ _).mp h
  exact ⟨t, ht, of_decide_eq_true hP⟩

/-- Where an invariant makes each step keep a property exactly if the step is allowed, an
execution has the property throughout exactly if all its steps are allowed. -/
theorem allowedAlong_iff {Inv Good : σ → Prop}
    (hinv : ∀ s e s', Inv s → step s e = some s' → Inv s')
    (hgood : ∀ s e s', Inv s → Good s → step s e = some s' → (Good s' ↔ allowed s e))
    {s t : σ} {es : List ε} (hs : Inv s) (hg : Good s) (he : exec step s es = some t) :
    (∀ pre u, pre <+: es → exec step s pre = some u → Good u) ↔
      AllowedAlong step allowed s es := by
  induction es generalizing s with
  | nil =>
      refine iff_of_true ?_ trivial
      intro pre u hpre hu
      obtain rfl := List.prefix_nil.mp hpre
      obtain rfl : s = u := by simpa [exec] using hu
      exact hg
  | cons e es ih =>
      simp only [exec, Option.bind_eq_some_iff] at he
      obtain ⟨s', hstep, hrest⟩ := he
      have hexec : ∀ pre, exec step s (e :: pre) = exec step s' pre := by
        intro pre
        simp [exec, hstep]
      constructor
      · intro h
        have hg' : Good s' := h [e] s' ⟨es, rfl⟩ (by simp [exec, hstep])
        refine ⟨(hgood s e s' hs hg hstep).mp hg', ?_⟩
        intro s₁ hs₁
        obtain rfl := Option.some.inj (hstep.symm.trans hs₁)
        apply (ih (hinv s e s' hs hstep) hg' hrest).mp
        intro pre u hpre hu
        exact h (e :: pre) u (by simpa using hpre) (by rw [hexec, hu])
      · rintro ⟨he, hes⟩ pre u hpre hu
        have hg' : Good s' := (hgood s e s' hs hg hstep).mpr he
        rcases List.prefix_cons_iff.mp hpre with rfl | ⟨pre', rfl, hpre'⟩
        · obtain rfl : s = u := by simpa [exec] using hu
          exact hg
        · rw [hexec] at hu
          exact (ih (hinv s e s' hs hstep) hg' hrest).mpr (hes s' hstep) pre' u hpre' hu

/-! ## Monitors

A monitor runs beside a total system and stops where a property is about to break. -/

/-- A monitor that stops exactly at the steps that break `Safe` accepts exactly the runs
along which `Safe` holds throughout. -/
theorem monitor_iff {σ τ ε : Type*} (act : σ → ε → σ) (next : τ → ε → Option τ) {Safe : σ → Prop}
    {Tracks : σ → τ → Prop}
    (hkeep : ∀ s t e t', Tracks s t → Safe s → next t e = some t' →
      Tracks (act s e) t' ∧ Safe (act s e))
    (hbreak : ∀ s t e, Tracks s t → next t e = none → ¬Safe (act s e))
    {s : σ} {t : τ} (ht : Tracks s t) (hs : Safe s) (es : List ε) :
    (∀ pre, pre <+: es → Safe (pre.foldl act s)) ↔ (exec next t es).isSome := by
  induction es generalizing s t with
  | nil => simpa [exec] using hs
  | cons e es ih =>
      cases hn : next t e with
      | none =>
          simp only [exec, hn, Option.bind_none, Option.isSome_none, Bool.false_eq_true, iff_false]
          intro hall
          exact hbreak s t e ht hn (hall [e] ⟨es, rfl⟩)
      | some t' =>
          obtain ⟨ht', hs'⟩ := hkeep s t e t' ht hs hn
          simp only [exec, hn, Option.bind_some, ← ih ht' hs']
          constructor
          · intro hall pre hpre
            exact hall (e :: pre) (by simpa using hpre)
          · intro hall pre hpre
            rcases List.prefix_cons_iff.mp hpre with rfl | ⟨rest, rfl, hrest⟩
            · exact hs
            · exact hall rest hrest

end Transition
