import Mathlib.Data.List.Flatten

/-! # Output since the last mark

Entries of a log have an output and may be marked. An accumulator that every marked entry
empties holds the output since the last of them. -/

namespace Since

variable {α β : Type*}

/-- The output of the entries that no marked entry follows. -/
def since (out : α → List β) (mark : α → Bool) : List α → List β
  | [] => []
  | x :: xs => if xs.any mark then since out mark xs else out x ++ since out mark xs

variable {out : α → List β} {mark mark' : α → Bool} {x : α} {xs : List α}

theorem since_cons_of_any (h : xs.any mark = true) :
    since out mark (x :: xs) = since out mark xs :=
  if_pos h

theorem since_cons_of_none (h : xs.any mark = false) :
    since out mark (x :: xs) = out x ++ since out mark xs :=
  if_neg (by simp [h])

theorem since_of_none (h : xs.any mark = false) : since out mark xs = xs.flatMap out := by
  induction xs with
  | nil => rfl
  | cons x xs ih =>
      rw [List.any_cons, Bool.or_eq_false_iff] at h
      rw [since_cons_of_none h.2, ih h.2, List.flatMap_cons]

theorem since_length_le (xs : List α) :
    (since out mark xs).length ≤ (xs.flatMap out).length := by
  induction xs with
  | nil => exact Nat.le_refl 0
  | cons x xs ih =>
      rw [List.flatMap_cons, List.length_append]
      by_cases h : xs.any mark = true
      · rw [since_cons_of_any h]
        omega
      · rw [since_cons_of_none (by simpa using h), List.length_append]
        omega

/-- Beyond its last mark a log cannot have more output than without any. -/
theorem since_eq_append_iff {ys : List β} (h : xs.any mark' = false) :
    since out mark xs = ys ++ since out mark' xs ↔
      ys = [] ∧ since out mark xs = since out mark' xs := by
  constructor
  · intro heq
    have hle : (since out mark xs).length ≤ (xs.flatMap out).length := since_length_le xs
    rw [heq, since_of_none h, List.length_append] at hle
    have hnil : ys = [] := by
      apply List.eq_nil_of_length_eq_zero
      omega
    rw [hnil, List.nil_append] at heq
    exact ⟨hnil, heq⟩
  · rintro ⟨rfl, heq⟩
    exact heq

/-- A property of all ways to split a list, by its first element. -/
theorem forall_split_cons {P : α → List α → Prop} :
    (∀ before y after, x :: xs = before ++ y :: after → P y after) ↔
      P x xs ∧ ∀ before y after, xs = before ++ y :: after → P y after := by
  constructor
  · intro h
    exact ⟨h [] x xs rfl, fun before y after heq => h (x :: before) y after (by simp [heq])⟩
  · rintro ⟨hx, hxs⟩ before y after heq
    cases before with
    | nil =>
        obtain ⟨rfl, rfl⟩ := List.cons.inj heq
        exact hx
    | cons z before => exact hxs before y after (List.cons.inj heq).2

/-- Two kinds of marks leave the same output exactly when every entry with output is
followed by marks of both kinds or of neither. -/
theorem since_eq_iff : since out mark xs = since out mark' xs ↔
    ∀ before x after, xs = before ++ x :: after → out x ≠ [] →
      after.any mark = after.any mark' := by
  induction xs with
  | nil => simp [since]
  | cons x xs ih =>
      rw [forall_split_cons (P := fun x after => out x ≠ [] → after.any mark = after.any mark'),
        ← ih]
      cases hm : xs.any mark with
      | true =>
          cases hm' : xs.any mark' with
          | true => simp [since_cons_of_any hm, since_cons_of_any hm']
          | false => simp [since_cons_of_any hm, since_cons_of_none hm', since_eq_append_iff hm']
      | false =>
          cases hm' : xs.any mark' with
          | true =>
              rw [since_cons_of_none hm, since_cons_of_any hm', eq_comm, since_eq_append_iff hm,
                eq_comm (a := since out mark xs)]
              simp
          | false => simp [since_cons_of_none hm, since_cons_of_none hm']

end Since
