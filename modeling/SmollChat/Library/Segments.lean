import Mathlib.Data.List.TakeWhile

/-! # Lists made of segments

A segment is a marked element followed by unmarked ones, so a list that is made of segments
determines them, even beside one from which whole segments may be missing. -/

namespace Segments

variable {α τ : Type*}

/-- A marked element with the unmarked ones after it. -/
def IsSegment (p : α → Bool) (l : List α) : Prop :=
  ∃ x xs, l = x :: xs ∧ p x = true ∧ ∀ y ∈ xs, p y = false

variable {p : α → Bool} {f g : τ → List α} {ts : List τ}

theorem IsSegment.countP {l : List α} (h : IsSegment p l) : l.countP p = 1 := by
  obtain ⟨x, xs, rfl, hx, hxs⟩ := h
  have hnone : xs.countP p = 0 := List.countP_eq_zero.mpr fun y hy => by simp [hxs y hy]
  simp [hx, hnone]

/-- There is one mark for each segment. -/
theorem countP_flatMap (hf : ∀ t ∈ ts, IsSegment p (f t)) :
    (ts.flatMap f).countP p = ts.length := by
  induction ts with
  | nil => rfl
  | cons t ts ih =>
      rw [List.flatMap_cons, List.countP_append, (hf t List.mem_cons_self).countP,
        ih fun t ht => hf t (List.mem_cons_of_mem _ ht), List.length_cons]
      omega

theorem countP_flatMap_le (hg : ∀ t ∈ ts, g t = [] ∨ IsSegment p (g t)) :
    (ts.flatMap g).countP p ≤ ts.length := by
  induction ts with
  | nil => exact Nat.le_refl 0
  | cons t ts ih =>
      have hrest := ih fun t ht => hg t (List.mem_cons_of_mem _ ht)
      rw [List.flatMap_cons, List.countP_append, List.length_cons]
      rcases hg t List.mem_cons_self with hnil | hsegment
      · rw [hnil, List.countP_nil]
        omega
      · rw [hsegment.countP]
        omega

/-- What is made of segments begins with a mark, or is empty. -/
theorem takeWhile_flatMap (hg : ∀ t ∈ ts, g t = [] ∨ IsSegment p (g t)) :
    (ts.flatMap g).takeWhile (fun y => !p y) = [] := by
  induction ts with
  | nil => rfl
  | cons t ts ih =>
      rcases hg t List.mem_cons_self with hnil | ⟨x, xs, heq, hx, -⟩
      · rw [List.flatMap_cons, hnil]
        exact ih fun t ht => hg t (List.mem_cons_of_mem _ ht)
      · simp [heq, hx]

theorem takeWhile_append {xs rest : List α} (hxs : ∀ y ∈ xs, p y = false)
    (hrest : rest.takeWhile (fun y => !p y) = []) :
    (xs ++ rest).takeWhile (fun y => !p y) = xs := by
  rw [List.takeWhile_append_of_pos fun y hy => by simp [hxs y hy], hrest, List.append_nil]

/-- Two lists of segments, the second of which may lack some, agree as a whole only if
they agree segment by segment. -/
theorem flatMap_eq_iff (hf : ∀ t ∈ ts, IsSegment p (f t))
    (hg : ∀ t ∈ ts, g t = [] ∨ IsSegment p (g t)) :
    ts.flatMap g = ts.flatMap f ↔ ∀ t ∈ ts, g t = f t := by
  induction ts with
  | nil => simp
  | cons t ts ih =>
      have hf' : ∀ t ∈ ts, IsSegment p (f t) := fun t ht => hf t (List.mem_cons_of_mem _ ht)
      have hg' : ∀ t ∈ ts, g t = [] ∨ IsSegment p (g t) :=
        fun t ht => hg t (List.mem_cons_of_mem _ ht)
      rw [List.forall_mem_cons, ← ih hf' hg', List.flatMap_cons, List.flatMap_cons]
      constructor
      · intro heq
        rcases hg t List.mem_cons_self with hnil | ⟨y, ys, hy, -, hys⟩
        · -- a missing segment is a mark too few
          have hcount := congrArg (List.countP p) heq
          rw [hnil, List.nil_append, List.countP_append, (hf t List.mem_cons_self).countP,
            countP_flatMap hf'] at hcount
          have hle := countP_flatMap_le hg'
          omega
        · obtain ⟨x, xs, hx, -, hxs⟩ := hf t List.mem_cons_self
          rw [hx, hy, List.cons_append, List.cons_append, List.cons.injEq] at heq
          obtain ⟨rfl, heq⟩ := heq
          have hwhile := congrArg (List.takeWhile fun y => !p y) heq
          rw [takeWhile_append hys (takeWhile_flatMap hg'),
            takeWhile_append hxs (takeWhile_flatMap fun t ht => .inr (hf' t ht))] at hwhile
          subst hwhile
          exact ⟨by rw [hx, hy], List.append_cancel_left heq⟩
      · rintro ⟨ht, hts⟩
        rw [ht, hts]

end Segments
