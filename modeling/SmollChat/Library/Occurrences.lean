import Mathlib.Data.List.Infix

/-! # Texts without the occurrences of markers

A letter is covered if it belongs to an occurrence of a marker. A text that grows piece by
piece is stripped piece by piece exactly where no marker ends in the new piece. -/

namespace Occurrences

variable {α : Type*} [DecidableEq α]

/-- The letter at `i` belongs to an occurrence of a marker. -/
def covered (markers : List (List α)) (x : List α) (i : ℕ) : Bool :=
  (List.range (i + 1)).any fun k =>
    markers.any fun m => m.isPrefixOf (x.drop k) && decide (i < k + m.length)

/-- The letters that no occurrence covers. -/
def strip (markers : List (List α)) (x : List α) : List α :=
  (x.zipIdx.filter fun a => !covered markers x a.2).map Prod.fst

/-- An occurrence in `w ++ p` ends in `p`. -/
def EndsIn (m w p : List α) : Prop := ∃ k, m <+: (w ++ p).drop k ∧ w.length < k + m.length

instance (m w p : List α) : Decidable (EndsIn m w p) :=
  decidable_of_iff
    (∃ k < (w ++ p).length + 2, m <+: (w ++ p).drop k ∧ w.length < k + m.length) <| by
    constructor
    · rintro ⟨k, -, h⟩
      exact ⟨k, h⟩
    · rintro ⟨k, hfront, hlt⟩
      by_cases hk : k < (w ++ p).length + 2
      · exact ⟨k, hk, hfront, hlt⟩
      · refine ⟨(w ++ p).length + 1, by omega, ?_, by simp only [List.length_append]; omega⟩
        rw [List.drop_eq_nil_of_le (by omega)] at hfront ⊢
        exact hfront

variable {markers : List (List α)} {w p x : List α} {i : ℕ}

theorem covered_iff : covered markers x i = true ↔
    ∃ k ≤ i, ∃ m ∈ markers, m <+: x.drop k ∧ i < k + m.length := by
  simp only [covered, List.any_eq_true, List.mem_range, Nat.lt_add_one_iff, Bool.and_eq_true,
    List.isPrefixOf_iff_prefix, decide_eq_true_eq]

theorem covered_lt (h : covered markers x i = true) : i < x.length := by
  obtain ⟨k, hk, m, -, hfront, hlt⟩ := covered_iff.mp h
  have hle := hfront.length_le
  rw [List.length_drop] at hle
  omega

/-- The occurrences in the front of a text stay. -/
theorem covered_append (h : covered markers w i = true) : covered markers (w ++ p) i = true := by
  have hi := covered_lt h
  obtain ⟨k, hk, m, hm, hfront, hlt⟩ := covered_iff.mp h
  refine covered_iff.mpr ⟨k, hk, m, hm, ?_, hlt⟩
  rw [List.drop_append_of_le_length (by omega)]
  exact hfront.trans (List.prefix_append _ _)

/-- No others appear there as long as none ends behind it. -/
theorem covered_of_append (hends : ∀ m ∈ markers, ¬EndsIn m w p)
    (h : covered markers (w ++ p) i = true) : i < w.length ∧ covered markers w i = true := by
  obtain ⟨k, hk, m, hm, hfront, hlt⟩ := covered_iff.mp h
  have hinside : k + m.length ≤ w.length := by
    by_contra hbeyond
    exact hends m hm ⟨k, hfront, by omega⟩
  refine ⟨by omega, covered_iff.mpr ⟨k, hk, m, hm, ?_, hlt⟩⟩
  rw [List.drop_append_of_le_length (by omega)] at hfront
  exact List.prefix_of_prefix_length_le hfront (List.prefix_append _ _)
    (by rw [List.length_drop]; omega)

/-- The letters of `p`, which stands behind `w`, that no occurrence covers. -/
def stripBehind (markers : List (List α)) (w p : List α) : List α :=
  ((p.zipIdx w.length).filter fun a => !covered markers (w ++ p) a.2).map Prod.fst

/-- What remains of the front of a text. -/
def stripFront (markers : List (List α)) (w p : List α) : List α :=
  (w.zipIdx.filter fun a => !covered markers (w ++ p) a.2).map Prod.fst

theorem strip_append (markers : List (List α)) (w p : List α) :
    strip markers (w ++ p) = stripFront markers w p ++ stripBehind markers w p := by
  simp [strip, stripFront, stripBehind, List.zipIdx_append]

theorem stripFront_sublist (markers : List (List α)) (w p : List α) :
    List.Sublist (stripFront markers w p) (strip markers w) := by
  apply List.Sublist.map
  apply List.monotone_filter_right
  intro a ha
  rw [Bool.not_eq_true', Bool.eq_false_iff] at ha ⊢
  exact fun hcovered => ha (covered_append hcovered)

theorem stripBehind_length_le (markers : List (List α)) (w p : List α) :
    (stripBehind markers w p).length ≤ p.length := by
  rw [stripBehind, List.length_map]
  exact (List.length_filter_le _ _).trans_eq (List.length_zipIdx)

/-- The new piece is kept whole only if none of its letters is covered. -/
theorem uncovered_of_length (h : (stripBehind markers w p).length = p.length) (hi : w.length ≤ i)
    (hlt : i < (w ++ p).length) : covered markers (w ++ p) i = false := by
  rw [List.length_append] at hlt
  rw [stripBehind, List.length_map, ← List.length_zipIdx (i := w.length) (l := p),
    List.length_filter_eq_length_iff] at h
  have hmem : (p[i - w.length], i) ∈ p.zipIdx w.length := by
    rw [List.mk_mem_zipIdx_iff_le_and_getElem?_sub]
    exact ⟨hi, List.getElem?_eq_getElem (by omega)⟩
  simpa using h _ hmem

/-- A text grows by the whole of a piece exactly if no marker ends in the piece. -/
theorem strip_append_iff (hne : ∀ m ∈ markers, m ≠ []) :
    strip markers (w ++ p) = strip markers w ++ p ↔ ∀ m ∈ markers, ¬EndsIn m w p := by
  rw [strip_append]
  constructor
  · rintro heq m hm ⟨k, hfront, hbehind⟩
    have hlength := congrArg List.length heq
    have hfrontLength := (stripFront_sublist markers w p).length_le
    have hbehindLength := stripBehind_length_le markers w p
    simp only [List.length_append] at hlength
    have hle := hfront.length_le
    rw [List.length_drop] at hle
    have hpos : 0 < m.length := List.length_pos_iff.mpr (hne m hm)
    -- the last letter of the occurrence
    have hlast : covered markers (w ++ p) (k + m.length - 1) = false :=
      uncovered_of_length (by omega) (by omega) (by omega)
    have hcovered : covered markers (w ++ p) (k + m.length - 1) = true :=
      covered_iff.mpr ⟨k, by omega, m, hm, hfront, by omega⟩
    rw [hlast] at hcovered
    cases hcovered
  · intro hends
    have hfront : stripFront markers w p = strip markers w := by
      refine congrArg _ (List.filter_congr fun a _ => ?_)
      congr 1
      rw [Bool.eq_iff_iff]
      exact ⟨fun h => (covered_of_append hends h).2, covered_append⟩
    have hbehind : stripBehind markers w p = p := by
      have hall : ∀ a ∈ p.zipIdx w.length, (!covered markers (w ++ p) a.2) = true := by
        intro a ha
        rw [Bool.not_eq_true', Bool.eq_false_iff]
        intro h
        have hlt := (covered_of_append hends h).1
        have hle := List.le_snd_of_mem_zipIdx ha
        omega
      rw [stripBehind, List.filter_eq_self.mpr hall, List.zipIdx_map_fst]
    rw [hfront, hbehind]

end Occurrences
