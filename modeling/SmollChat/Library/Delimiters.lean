import Mathlib.Data.List.Infix

/-! # Texts up to a delimiter

A text is free of a delimiter where the delimiter, put behind it, does not begin earlier. Such
texts can be read back from what they are written into. -/

namespace Delimiters

variable {α : Type*} {d a b x y : List α}

/-- Behind `a`, `d` occurs at the end of `a` and not before. -/
def FreeOf (d a : List α) : Prop := ∀ i < a.length, ¬d <+: (a ++ d).drop i

instance [DecidableEq α] (d a : List α) : Decidable (FreeOf d a) :=
  inferInstanceAs (Decidable (∀ i < a.length, _))

theorem FreeOf.length_le (hb : FreeOf d b) (h : a ++ (d ++ x) = b ++ (d ++ y)) :
    b.length ≤ a.length := by
  by_contra hlt
  rw [not_le] at hlt
  have hdrop : (b ++ (d ++ y)).drop a.length = d ++ x := by rw [← h, List.drop_left]
  have hshort : (b ++ d).drop a.length <+: (b ++ (d ++ y)).drop a.length := by
    rw [← List.append_assoc]
    exact (List.prefix_append _ _).drop _
  rw [hdrop] at hshort
  refine hb a.length hlt (List.prefix_of_prefix_length_le (List.prefix_append d x) hshort ?_)
  rw [List.length_drop, List.length_append]
  omega

/-- The first occurrence of the delimiter divides the text in one way. -/
theorem FreeOf.append_inj (ha : FreeOf d a) (hb : FreeOf d b)
    (h : a ++ (d ++ x) = b ++ (d ++ y)) : a = b ∧ x = y := by
  have hlen : a.length = b.length := le_antisymm (ha.length_le h.symm) (hb.length_le h)
  obtain ⟨hab, hrest⟩ := List.append_inj h hlen
  exact ⟨hab, List.append_cancel_left hrest⟩

end Delimiters
