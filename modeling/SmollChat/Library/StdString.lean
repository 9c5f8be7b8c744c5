import Mathlib.Data.List.DropRight
import Mathlib.Data.List.Infix

/-! # The `std::string` operations used for cleaning text

Positions are counted from the front; `none` stands for `npos`. -/

namespace StdString

variable {α : Type*} [DecidableEq α]

/-- `s.find(t)`: the position of the first occurrence of `t`. -/
def find (t : List α) : List α → Option ℕ
  | [] => if t = [] then some 0 else none
  | x :: s => if t.isPrefixOf (x :: s) then some 0 else (find t s).map (· + 1)

/-- `s.erase(pos, n)` -/
def erase (s : List α) (pos n : ℕ) : List α := s.take pos ++ s.drop (pos + n)

/-- `while ((pos = s.find(t)) != npos) s.erase(pos, t.length());` with a bound on
the number of rounds. -/
def eraseEach (t : List α) : ℕ → List α → List α
  | 0, s => s
  | rounds + 1, s =>
      match find t s with
      | none => s
      | some pos => eraseEach t rounds (erase s pos t.length)

/-- `s.find_first_not_of(set)` -/
def findFirstNotOf (set s : List α) : Option ℕ := s.findIdx? fun x => decide (x ∉ set)

/-- `s.find_last_not_of(set)` -/
def findLastNotOf (set s : List α) : Option ℕ :=
  (s.reverse.findIdx? fun x => decide (x ∉ set)).map (s.length - 1 - ·)

/-- `s.erase(0, s.find_first_not_of(set))`; erasing `npos` characters erases all. -/
def trimFront (set s : List α) : List α :=
  match findFirstNotOf set s with
  | none => []
  | some n => erase s 0 n

/-- `s.erase(s.find_last_not_of(set) + 1)`; `npos + 1` is position `0`. -/
def trimBack (set s : List α) : List α :=
  match findLastNotOf set s with
  | none => s.take 0
  | some n => s.take (n + 1)

/-! ## Occurrences -/

variable {s t : List α} {pos : ℕ}

theorem find_eq_none_iff : find t s = none ↔ ¬t <:+: s := by
  induction s with
  | nil =>
      rw [find, List.infix_nil]
      split <;> simp [*]
  | cons x s ih =>
      rw [find, List.infix_cons_iff, not_or, ← ih, ← List.isPrefixOf_iff_prefix]
      split <;> simp [*]

/-- The occurrence `find` answers. -/
theorem find_eq_some (h : find t s = some pos) : ∃ a b, s = a ++ t ++ b ∧ a.length = pos := by
  induction s generalizing pos with
  | nil =>
      rw [find] at h
      split at h
      · rename_i hnil
        exact ⟨[], [], by simp [hnil], by simpa using h⟩
      · cases h
  | cons x s ih =>
      rw [find] at h
      split at h
      · rename_i hfront
        obtain ⟨b, hb⟩ := List.isPrefixOf_iff_prefix.mp hfront
        exact ⟨[], b, by simp [hb], by simpa using h⟩
      · obtain ⟨n, hn, rfl⟩ := Option.map_eq_some_iff.mp h
        obtain ⟨a, b, rfl, hlength⟩ := ih hn
        exact ⟨x :: a, b, rfl, by simp [hlength]⟩

omit [DecidableEq α] in
theorem erase_occurrence (a t b : List α) : erase (a ++ t ++ b) a.length t.length = a ++ b := by
  simp [erase]

theorem erase_length_lt (hne : t ≠ []) (h : find t s = some pos) :
    (erase s pos t.length).length < s.length := by
  obtain ⟨a, b, rfl, rfl⟩ := find_eq_some h
  have hpos : 0 < t.length := List.length_pos_iff.mpr hne
  rw [erase_occurrence]
  simp only [List.length_append]
  omega

theorem eraseEach_of_find_none (h : find t s = none) (rounds : ℕ) : eraseEach t rounds s = s := by
  cases rounds with
  | zero => rfl
  | succ rounds => rw [eraseEach, h]

/-- The number of rounds does not matter where it is enough for the text. -/
theorem eraseEach_rounds (hne : t ≠ []) {n n' : ℕ} (hn : s.length ≤ n) (hn' : s.length ≤ n') :
    eraseEach t n s = eraseEach t n' s := by
  induction n generalizing s n' with
  | zero =>
      obtain rfl : s = [] := by simpa using hn
      have hnone : find t [] = none := by rw [find, if_neg hne]
      rw [eraseEach_of_find_none hnone, eraseEach_of_find_none hnone]
  | succ n ih =>
      cases hfind : find t s with
      | none => rw [eraseEach_of_find_none hfind, eraseEach_of_find_none hfind]
      | some pos =>
          have hlt := erase_length_lt hne hfind
          cases n' with
          | zero => omega
          | succ n' =>
              rw [eraseEach, eraseEach, hfind]
              exact ih (by omega) (by omega)

theorem find_eraseEach (hne : t ≠ []) {rounds : ℕ} (hle : s.length ≤ rounds) :
    find t (eraseEach t rounds s) = none := by
  induction rounds generalizing s with
  | zero =>
      obtain rfl : s = [] := by simpa using hle
      simp [eraseEach, find, hne]
  | succ rounds ih =>
      rw [eraseEach]
      split
      · assumption
      · rename_i pos hfind
        have hlt := erase_length_lt hne hfind
        exact ih (by omega)

theorem eraseEach_subset (t : List α) (rounds : ℕ) (s : List α) : eraseEach t rounds s ⊆ s := by
  induction rounds generalizing s with
  | zero => exact List.Subset.refl s
  | succ rounds ih =>
      rw [eraseEach]
      split
      · exact List.Subset.refl s
      · have herase : ∀ pos, erase s pos t.length ⊆ s := fun pos =>
          List.append_subset.mpr ⟨List.take_subset _ _, List.drop_subset _ _⟩
        exact List.Subset.trans (ih _) (herase _)

/-! ## Texts in two parts -/

omit [DecidableEq α] in
/-- A separator that is not part of `t` ends each occurrence. -/
theorem prefix_append_cons {z : α} (hz : z ∉ t) (w v : List α) :
    t <+: w ++ z :: v ↔ t <+: w := by
  constructor
  · intro hfront
    rcases List.prefix_or_prefix_of_prefix hfront (List.prefix_append w (z :: v)) with
      hle | ⟨r, rfl⟩
    · exact hle
    · rw [List.prefix_append_right_inj] at hfront
      cases r with
      | nil => rw [List.append_nil]
      | cons y r =>
          obtain ⟨rfl, -⟩ := List.cons_prefix_cons.mp hfront
          exact absurd (List.mem_append_right w List.mem_cons_self) hz
  · exact fun hfront => hfront.trans (List.prefix_append _ _)

theorem find_append_cons {z : α} (hz : z ∉ t) (w v : List α) :
    find t (w ++ z :: v) = (find t w).or ((find t v).map (· + (w.length + 1))) := by
  induction w with
  | nil =>
      rw [List.nil_append, find, find]
      by_cases hnil : t = []
      · simp [hnil]
      · have hfront : t.isPrefixOf (z :: v) = false := by
          rw [Bool.eq_false_iff]
          intro hfront
          have hle := (prefix_append_cons hz [] v).mp (List.isPrefixOf_iff_prefix.mp hfront)
          exact hnil (List.prefix_nil.mp hle)
        simp [hnil, hfront]
  | cons x w ih =>
      have hfront : t.isPrefixOf (x :: (w ++ z :: v)) = t.isPrefixOf (x :: w) := by
        rw [Bool.eq_iff_iff, List.isPrefixOf_iff_prefix, List.isPrefixOf_iff_prefix]
        exact prefix_append_cons hz (x :: w) v
      rw [List.cons_append, find, find, hfront, ih]
      split
      · rfl
      · cases find t w with
        | some pos => rfl
        | none => simp [Function.comp_def, Nat.add_assoc]

/-- The part before the separator is treated as if it stood alone. -/
theorem eraseEach_append_cons {z : α} (hz : z ∉ t) (rounds : ℕ) (w v : List α) :
    ∃ v', eraseEach t rounds (w ++ z :: v) = eraseEach t rounds w ++ z :: v' := by
  induction rounds generalizing w v with
  | zero => exact ⟨v, rfl⟩
  | succ rounds ih =>
      have hfind := find_append_cons hz w v
      cases hw : find t w with
      | some pos =>
          obtain ⟨a, b, rfl, rfl⟩ := find_eq_some hw
          rw [hw, Option.some_or] at hfind
          obtain ⟨v', hv'⟩ := ih (a ++ b) v
          refine ⟨v', ?_⟩
          have herase : erase (a ++ t ++ b ++ z :: v) a.length t.length = a ++ b ++ z :: v := by
            have hocc := erase_occurrence a t (b ++ z :: v)
            simpa using hocc
          rw [eraseEach, hfind, eraseEach, hw]
          simp only [herase, erase_occurrence, hv']
      | none =>
          rw [hw, Option.none_or] at hfind
          rw [eraseEach_of_find_none hw]
          cases hv : find t v with
          | none =>
              rw [hv] at hfind
              exact ⟨v, eraseEach_of_find_none hfind _⟩
          | some pos =>
              obtain ⟨a, b, rfl, rfl⟩ := find_eq_some hv
              rw [hv, Option.map_some] at hfind
              obtain ⟨v', hv'⟩ := ih w (a ++ b)
              rw [eraseEach_of_find_none hw] at hv'
              refine ⟨v', ?_⟩
              have herase : erase (w ++ z :: (a ++ t ++ b)) (a.length + (w.length + 1)) t.length =
                  w ++ z :: (a ++ b) := by
                have hocc := erase_occurrence (w ++ z :: a) t b
                have hlength : (w ++ z :: a).length = a.length + (w.length + 1) := by
                  simp only [List.length_append, List.length_cons]
                  omega
                rw [hlength] at hocc
                simpa using hocc
              rw [eraseEach, hfind]
              simp only [herase, hv']

/-! ## Trimming -/

theorem trimFront_eq (set s : List α) :
    trimFront set s = s.dropWhile fun x => decide (x ∈ set) := by
  unfold trimFront findFirstNotOf
  rw [List.dropWhile_eq_drop_findIdx_not]
  simp only [← decide_not]
  cases h : s.findIdx? fun x => decide (x ∉ set) with
  | none =>
      have hle := List.findIdx?_eq_none_iff_findIdx_eq.mp h
      simp only [hle, List.drop_length]
  | some n =>
      obtain ⟨-, hn⟩ := List.findIdx?_eq_some_iff_findIdx_eq.mp h
      simp only [hn, erase, List.take_zero, List.nil_append, Nat.zero_add]

theorem trimBack_eq (set s : List α) :
    trimBack set s = s.rdropWhile fun x => decide (x ∈ set) := by
  unfold trimBack findLastNotOf List.rdropWhile
  rw [List.dropWhile_eq_drop_findIdx_not]
  simp only [← decide_not]
  cases h : s.reverse.findIdx? fun x => decide (x ∉ set) with
  | none =>
      have hle := List.findIdx?_eq_none_iff_findIdx_eq.mp h
      simp only [hle, List.drop_length]
      rfl
  | some n =>
      obtain ⟨hlt, hn⟩ := List.findIdx?_eq_some_iff_findIdx_eq.mp h
      rw [List.length_reverse] at hlt
      have hpos : s.length - 1 - n + 1 = s.length - n := by omega
      simp only [hn, Option.map_some, List.drop_reverse, List.reverse_reverse, hpos]

omit [DecidableEq α] in
/-- What contains no trimmed letter survives the trimming. -/
theorem infix_dropWhile_iff {p : α → Bool} (hne : t ≠ []) (ht : ∀ x ∈ t, p x = false) :
    t <:+: s.dropWhile p ↔ t <:+: s := by
  constructor
  · exact fun h => h.trans (List.dropWhile_suffix p).isInfix
  · intro h
    rw [← List.takeWhile_append_dropWhile (p := p) (l := s)] at h
    have hfront {l : List α} (hl : l ≠ []) (hmem : ∀ x ∈ l, x ∈ t)
        (hin : ∀ x ∈ l, x ∈ s.takeWhile p) : False := by
      obtain ⟨x, hx⟩ := List.exists_mem_of_ne_nil l hl
      have hp := List.mem_takeWhile_imp (hin x hx)
      rw [ht x (hmem x hx)] at hp
      cases hp
    rcases List.infix_append_iff_ne_nil.mp h with hin | hin | ⟨l₁, l₂, hl₁, -, rfl, hin, -⟩
    · exact (hfront hne (fun _ hx => hx) fun _ hx => hin.subset hx).elim
    · exact hin
    · exact (hfront hl₁ (fun _ hx => List.mem_append_left l₂ hx) fun _ hx => hin.subset hx).elim

omit [DecidableEq α] in
theorem infix_rdropWhile_iff {p : α → Bool} (hne : t ≠ []) (ht : ∀ x ∈ t, p x = false) :
    t <:+: s.rdropWhile p ↔ t <:+: s := by
  have hrev := infix_dropWhile_iff (s := s.reverse) (t := t.reverse) (p := p) (by simpa using hne)
    (by simpa using ht)
  rw [List.reverse_infix] at hrev
  rw [← hrev, ← List.reverse_infix, List.rdropWhile, List.reverse_reverse]

omit [DecidableEq α] in
theorem dropWhile_append_cons {p : α → Bool} {z : α} (hz : p z = false) (w v : List α) :
    (w ++ z :: v).dropWhile p = w.dropWhile p ++ z :: v := by
  induction w with
  | nil => simp [hz]
  | cons x w ih =>
      rw [List.cons_append, List.dropWhile_cons, List.dropWhile_cons, ih]
      split <;> rfl

omit [DecidableEq α] in
theorem rdropWhile_append_cons {p : α → Bool} {z : α} (hz : p z = false) (w v : List α) :
    ∃ v', (w ++ z :: v).rdropWhile p = w ++ z :: v' := by
  refine ⟨(v.reverse.dropWhile p).reverse, ?_⟩
  have hrev : (w ++ z :: v).reverse = v.reverse ++ z :: w.reverse := by simp
  rw [List.rdropWhile, hrev, dropWhile_append_cons hz]
  simp

end StdString
