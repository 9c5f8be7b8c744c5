import Mathlib.Data.List.Basic
import Mathlib.Order.Basic

/-! # Searching for a window of usable indices

The search moves a window over `[0, size)` from some start, past the first index that stops
it, once around the end, and gives up when as many indices as there are have been tested. -/

namespace WindowSearch

/-- The offset of the first index of the window at `cur` that is not usable. -/
def blocked (usable : ℕ → Bool) (n cur : ℕ) : Option ℕ :=
  (List.range n).find? fun i => !usable (cur + i)

/-- The loop, `tested` indices in: `none` where the fuel runs out, `some none` where it
gives up. -/
def search (usable : ℕ → Bool) (size n : ℕ) : ℕ → ℕ → ℕ → Option (Option ℕ)
  | 0, _, _ => none
  | fuel + 1, cur, tested =>
      if cur + n > size then search usable size n fuel 0 (tested + (size - cur))
      else
        match blocked usable n cur with
        | none => some (some cur)
        | some i =>
            if tested + (i + 1) ≥ size then some none
            else search usable size n fuel (cur + (i + 1)) (tested + (i + 1))

/-- The window at `cur` lies in the range and can be used. -/
def Fits (usable : ℕ → Bool) (size n cur : ℕ) : Prop :=
  cur + n ≤ size ∧ ∀ i < n, usable (cur + i) = true

variable {usable : ℕ → Bool} {size n start fuel cur tested h i : ℕ}

theorem blocked_eq_none : blocked usable n cur = none ↔ ∀ i < n, usable (cur + i) = true := by
  simp [blocked, List.find?_eq_none]

theorem blocked_spec (hb : blocked usable n cur = some i) : i < n ∧ usable (cur + i) = false := by
  have hmem := List.mem_of_find?_eq_some hb
  have hprop := List.find?_some hb
  exact ⟨List.mem_range.mp hmem, by simpa using hprop⟩

/-- Every window up to the index that stops one contains that index. -/
theorem not_fits_of_blocked (hb : blocked usable n cur = some i) (hle : cur ≤ h)
    (hlt : h < cur + (i + 1)) : ¬Fits usable size n h := by
  rintro ⟨-, hall⟩
  obtain ⟨hi, hfalse⟩ := blocked_spec hb
  have htrue := hall (cur + i - h) (by omega)
  rw [show h + (cur + i - h) = cur + i by omega] at htrue
  exact absurd (htrue.symm.trans hfalse) (by decide)

theorem search_sound (hs : search usable size n fuel cur tested = some (some h)) :
    Fits usable size n h := by
  induction fuel generalizing cur tested with
  | zero => simp [search] at hs
  | succ fuel ih =>
      rw [search] at hs
      split_ifs at hs with hend
      · exact ih hs
      · cases hb : blocked usable n cur with
        | none =>
            obtain rfl : cur = h := by simpa [hb] using hs
            exact ⟨Nat.le_of_not_gt hend, blocked_eq_none.mp hb⟩
        | some i =>
            simp only [hb] at hs
            split_ifs at hs with htested
            · simp at hs
            · exact ih hs

/-- What the search has ruled out: the windows between its start and the current one; after
the wrap those from the start on and those before the current one; or all of them. -/
inductive Ruled (usable : ℕ → Bool) (size n start cur tested : ℕ) : Prop
  | first (count : start + tested = cur)
      (none : ∀ h, start ≤ h → h < cur → ¬Fits usable size n h)
  | wrapped (count : start + tested = size + cur)
      (none : ∀ h, start ≤ h ∨ h < cur → ¬Fits usable size n h)
  | all (none : ∀ h, ¬Fits usable size n h)

theorem Ruled.wrap (hr : Ruled usable size n start cur tested) (hcur : cur ≤ size)
    (hend : cur + n > size) : Ruled usable size n start 0 (tested + (size - cur)) := by
  have hbeyond : ∀ h, cur ≤ h → ¬Fits usable size n h := fun h hle hfit => by
    have := hfit.1
    omega
  cases hr with
  | first count none =>
      refine .wrapped (by omega) fun h hh => ?_
      rcases hh with hh | hh
      · exact if hlt : h < cur then none h hh hlt else hbeyond h (Nat.le_of_not_lt hlt)
      · exact absurd hh h.not_lt_zero
  | wrapped count none =>
      exact .all fun h => if hlt : h < cur then none h (.inr hlt) else hbeyond h (by omega)
  | all none => exact .all none

theorem Ruled.advance (hr : Ruled usable size n start cur tested)
    (hb : blocked usable n cur = some i) :
    Ruled usable size n start (cur + (i + 1)) (tested + (i + 1)) := by
  have hpast : ∀ h, cur ≤ h → h < cur + (i + 1) → ¬Fits usable size n h :=
    fun h => not_fits_of_blocked hb
  cases hr with
  | first count none =>
      refine .first (by omega) fun h hle hlt => ?_
      exact if hc : h < cur then none h hle hc else hpast h (Nat.le_of_not_lt hc) hlt
  | wrapped count none =>
      refine .wrapped (by omega) fun h hh => ?_
      rcases hh with hh | hh
      · exact none h (.inl hh)
      · exact if hc : h < cur then none h (.inr hc) else hpast h (Nat.le_of_not_lt hc) hh
  | all none => exact .all none

/-- When as many indices are tested as there are, nothing is left. -/
theorem Ruled.exhausted (hr : Ruled usable size n start cur tested) (hn : 0 < n)
    (hcur : cur ≤ size) (htested : tested ≥ size) : ∀ h, ¬Fits usable size n h := by
  cases hr with
  | first count none =>
      intro h hfit
      have hle := hfit.1
      exact none h (by omega) (by omega) hfit
  | wrapped count none => exact fun h => none h (by omega)
  | all none => exact none

theorem search_complete_aux (hn : 0 < n) (hcur : cur ≤ size)
    (hr : Ruled usable size n start cur tested)
    (hs : search usable size n fuel cur tested = some none) :
    ∀ h, ¬Fits usable size n h := by
  induction fuel generalizing cur tested with
  | zero => simp [search] at hs
  | succ fuel ih =>
      rw [search] at hs
      split_ifs at hs with hend
      · exact ih (Nat.zero_le size) (hr.wrap hcur hend) hs
      · cases hb : blocked usable n cur with
        | none => simp [hb] at hs
        | some i =>
            have hi := (blocked_spec hb).1
            simp only [hb] at hs
            split_ifs at hs with htested
            · exact (hr.advance hb).exhausted hn (by omega) htested
            · exact ih (by omega) (hr.advance hb) hs

/-- The search gives up only where no window fits. -/
theorem search_complete (hn : 0 < n) (hstart : start ≤ size)
    (hs : search usable size n fuel start 0 = some none) : ∀ h, ¬Fits usable size n h :=
  search_complete_aux hn hstart (.first rfl fun _ hle hlt => absurd hlt (Nat.not_lt.mpr hle)) hs

/-- A test adds to the count, and a wrap puts the window where the next step tests it. -/
theorem search_isSome (hle : n ≤ size) (hcur : cur ≤ size)
    (hfuel : 2 * (size - tested) + (if cur + n > size then 1 else 0) < fuel) :
    (search usable size n fuel cur tested).isSome = true := by
  induction fuel generalizing cur tested with
  | zero => omega
  | succ fuel ih =>
      rw [search]
      by_cases hend : cur + n > size
      · rw [if_pos hend]
        refine ih (Nat.zero_le size) ?_
        rw [if_pos hend] at hfuel
        rw [if_neg (by omega)]
        omega
      · rw [if_neg hend]
        cases hb : blocked usable n cur with
        | none => rfl
        | some i =>
            have hi := (blocked_spec hb).1
            simp only
            split_ifs with htested
            · rfl
            · refine ih (by omega) ?_
              rw [if_neg hend] at hfuel
              split_ifs <;> omega

/-- The search as a function, with fuel enough for every start. -/
def find (usable : ℕ → Bool) (size n start : ℕ) : Option ℕ :=
  (search usable size n (2 * size + 2) start 0).join

theorem search_eq_find (hle : n ≤ size) (hstart : start ≤ size) :
    search usable size n (2 * size + 2) start 0 = some (find usable size n start) := by
  have hsome : (search usable size n (2 * size + 2) start 0).isSome = true :=
    search_isSome hle hstart (by split_ifs <;> omega)
  obtain ⟨r, hr⟩ := Option.isSome_iff_exists.mp hsome
  simp [find, hr]

theorem find_fits (hf : find usable size n start = some h) : Fits usable size n h := by
  cases hs : search usable size n (2 * size + 2) start 0 with
  | none => simp [find, hs] at hf
  | some r => exact search_sound (hs.trans (congrArg some (by simpa [find, hs] using hf)))

theorem find_eq_none_iff (hn : 0 < n) (hle : n ≤ size) (hstart : start ≤ size) :
    find usable size n start = none ↔ ∀ h, ¬Fits usable size n h := by
  constructor
  · intro hf
    exact search_complete hn hstart (hf ▸ search_eq_find hle hstart)
  · intro hnone
    cases hf : find usable size n start with
    | none => rfl
    | some h => exact absurd (find_fits hf) (hnone h)

/-- A start whose window fits is found at once. -/
theorem find_of_fits (hfit : Fits usable size n start) :
    find usable size n start = some start := by
  have hend : ¬start + n > size := Nat.not_lt.mpr hfit.1
  simp [find, search, hend, blocked_eq_none.mpr hfit.2]

end WindowSearch
