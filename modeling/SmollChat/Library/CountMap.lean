import Mathlib.Data.List.Nodup
import Mathlib.Order.Bounds.Basic

/-! # Counting maps

An ordered map from keys to counts, where a key whose count falls to zero is erased. The
first and the last entry then hold the least and the greatest key present. -/

/-- The entries in key order. -/
structure CountMap (κ : Type*) [LinearOrder κ] where
  entries : List (κ × ℕ)
  sorted : entries.Pairwise fun a b => a.1 < b.1
  positive : ∀ e ∈ entries, 0 < e.2

namespace CountMap

variable {κ : Type*} [LinearOrder κ]

/-! ## Entry lists -/

/-- The count stored for `k`; `0` where the map has no such key. -/
def countIn (k : κ) : List (κ × ℕ) → ℕ
  | [] => 0
  | (k', n) :: rest => if k = k' then n else countIn k rest

/-- `map[k]++` -/
def incIn (k : κ) : List (κ × ℕ) → List (κ × ℕ)
  | [] => [(k, 1)]
  | (k', n) :: rest =>
      if k < k' then (k, 1) :: (k', n) :: rest
      else if k = k' then (k', n + 1) :: rest
      else (k', n) :: incIn k rest

/-- `it = map.find(k); if (--it->second == 0) map.erase(it)`; nothing without the key. -/
def decIn (k : κ) : List (κ × ℕ) → List (κ × ℕ)
  | [] => []
  | (k', n) :: rest =>
      if k = k' then if n - 1 = 0 then rest else (k', n - 1) :: rest
      else (k', n) :: decIn k rest

variable {k k' : κ} {l : List (κ × ℕ)} {m m₁ m₂ : CountMap κ}

theorem countIn_eq_zero (h : ∀ e ∈ l, e.1 ≠ k) : countIn k l = 0 := by
  induction l with
  | nil => rfl
  | cons e rest ih =>
      obtain ⟨hne, hrest⟩ := List.forall_mem_cons.mp h
      simpa [countIn, Ne.symm hne] using ih hrest

theorem countIn_incIn (k k' : κ) (hs : l.Pairwise fun a b => a.1 < b.1) :
    countIn k' (incIn k l) = countIn k' l + if k' = k then 1 else 0 := by
  induction l with
  | nil => by_cases h : k' = k <;> simp [incIn, countIn, h]
  | cons e rest ih =>
      obtain ⟨a, n⟩ := e
      obtain ⟨hhead, htail⟩ := List.pairwise_cons.mp hs
      by_cases hlt : k < a
      · -- a key below the first one is not in the list
        have habs : countIn k ((a, n) :: rest) = 0 :=
          countIn_eq_zero (List.forall_mem_cons.mpr
            ⟨hlt.ne', fun e he => (hlt.trans (hhead e he)).ne'⟩)
        by_cases h : k' = k
        · subst h
          simp [incIn, hlt, habs, countIn.eq_2 k' k']
        · simp [incIn, hlt, countIn, h]
      · by_cases heq : k = a
        · subst heq
          by_cases h : k' = k <;> simp [incIn, countIn, h]
        · by_cases h : k' = a
          · subst h
            simp [incIn, hlt, heq, countIn, Ne.symm heq]
          · simp [incIn, hlt, heq, countIn, h, ih htail]

theorem mem_incIn {e : κ × ℕ} (he : e ∈ incIn k l) : e ∈ l ∨ e.1 = k := by
  induction l with
  | nil => exact .inr (by simp [List.mem_singleton.mp he])
  | cons a rest ih =>
      obtain ⟨a, n⟩ := a
      rw [incIn] at he
      split_ifs at he with hlt heq
      · rcases List.mem_cons.mp he with rfl | he
        · exact .inr rfl
        · exact .inl he
      · rcases List.mem_cons.mp he with rfl | he
        · exact .inr heq.symm
        · exact .inl (List.mem_cons_of_mem _ he)
      · rcases List.mem_cons.mp he with rfl | he
        · exact .inl List.mem_cons_self
        · exact (ih he).imp_left (List.mem_cons_of_mem _)

theorem sorted_incIn (hs : l.Pairwise fun a b => a.1 < b.1) :
    (incIn k l).Pairwise fun a b => a.1 < b.1 := by
  induction l with
  | nil => simp [incIn]
  | cons e rest ih =>
      obtain ⟨a, n⟩ := e
      obtain ⟨hhead, htail⟩ := List.pairwise_cons.mp hs
      rw [incIn]
      split_ifs with hlt heq
      · refine List.pairwise_cons.mpr ⟨fun b hb => ?_, hs⟩
        rcases List.mem_cons.mp hb with rfl | hb
        · exact hlt
        · exact hlt.trans (hhead b hb)
      · exact List.pairwise_cons.mpr ⟨hhead, htail⟩
      · refine List.pairwise_cons.mpr ⟨fun b hb => ?_, ih htail⟩
        rcases mem_incIn hb with hb | hb
        · exact hhead b hb
        · exact hb ▸ lt_of_le_of_ne (not_lt.mp hlt) (Ne.symm heq)

theorem positive_incIn (hp : ∀ e ∈ l, 0 < e.2) : ∀ e ∈ incIn k l, 0 < e.2 := by
  induction l with
  | nil => simp [incIn]
  | cons a rest ih =>
      obtain ⟨a, n⟩ := a
      obtain ⟨hn, hrest⟩ := List.forall_mem_cons.mp hp
      rw [incIn]
      split_ifs
      · exact List.forall_mem_cons.mpr ⟨Nat.one_pos, hp⟩
      · exact List.forall_mem_cons.mpr ⟨Nat.succ_pos n, hrest⟩
      · exact List.forall_mem_cons.mpr ⟨hn, ih hrest⟩

theorem sublist_keys_decIn (k : κ) (l : List (κ × ℕ)) :
    ((decIn k l).map Prod.fst).Sublist (l.map Prod.fst) := by
  induction l with
  | nil => exact .slnil
  | cons e rest ih =>
      obtain ⟨a, n⟩ := e
      rw [decIn]
      split_ifs
      · exact List.sublist_cons_self _ _
      · exact List.Sublist.refl _
      · exact ih.cons_cons a

theorem sorted_iff_keys :
    (l.Pairwise fun a b => a.1 < b.1) ↔ (l.map Prod.fst).Pairwise (· < ·) := by
  rw [List.pairwise_map]

theorem sorted_decIn (hs : l.Pairwise fun a b => a.1 < b.1) :
    (decIn k l).Pairwise fun a b => a.1 < b.1 :=
  sorted_iff_keys.mpr ((sorted_iff_keys.mp hs).sublist (sublist_keys_decIn k l))

theorem positive_decIn (hp : ∀ e ∈ l, 0 < e.2) : ∀ e ∈ decIn k l, 0 < e.2 := by
  induction l with
  | nil => simp [decIn]
  | cons a rest ih =>
      obtain ⟨a, n⟩ := a
      obtain ⟨hn, hrest⟩ := List.forall_mem_cons.mp hp
      rw [decIn]
      split_ifs with _ hzero
      · exact hrest
      · exact List.forall_mem_cons.mpr ⟨Nat.pos_of_ne_zero hzero, hrest⟩
      · exact List.forall_mem_cons.mpr ⟨hn, ih hrest⟩

theorem countIn_decIn (k k' : κ) (hs : l.Pairwise fun a b => a.1 < b.1) :
    countIn k' (decIn k l) = countIn k' l - if k' = k then 1 else 0 := by
  induction l with
  | nil => simp [decIn, countIn]
  | cons e rest ih =>
      obtain ⟨a, n⟩ := e
      obtain ⟨hhead, htail⟩ := List.pairwise_cons.mp hs
      by_cases hka : k = a
      · subst hka
        by_cases hzero : n - 1 = 0
        · by_cases h : k' = k
          · subst h
            have habs := countIn_eq_zero fun e he => (hhead e he).ne'
            simp [decIn, hzero, countIn, habs]
          · simp [decIn, hzero, countIn, h]
        · by_cases h : k' = k <;> simp [decIn, hzero, countIn, h]
      · by_cases h : k' = a
        · subst h
          simp [decIn, hka, countIn, Ne.symm hka]
        · simp [decIn, hka, countIn, h, ih htail]

theorem mem_iff_countIn {n : ℕ} (hs : l.Pairwise fun a b => a.1 < b.1)
    (hp : ∀ e ∈ l, 0 < e.2) : (k, n) ∈ l ↔ countIn k l = n ∧ 0 < n := by
  induction l with
  | nil => simp only [List.not_mem_nil, countIn, false_iff]; omega
  | cons e rest ih =>
      obtain ⟨a, m⟩ := e
      obtain ⟨hhead, htail⟩ := List.pairwise_cons.mp hs
      obtain ⟨hm, hrest⟩ := List.forall_mem_cons.mp hp
      by_cases h : k = a
      · subst h
        have hnot : (k, n) ∉ rest := fun hmem => lt_irrefl k (hhead _ hmem)
        simp only [List.mem_cons, hnot, or_false, countIn, if_true, Prod.mk.injEq, true_and]
        exact ⟨fun heq => ⟨heq.symm, heq ▸ hm⟩, fun heq => heq.1.symm⟩
      · simp [countIn, h, ih htail hrest]

/-! ## The map -/

def empty : CountMap κ := ⟨[], .nil, by simp⟩

def count (m : CountMap κ) (k : κ) : ℕ := countIn k m.entries

def inc (m : CountMap κ) (k : κ) : CountMap κ :=
  ⟨incIn k m.entries, sorted_incIn m.sorted, positive_incIn m.positive⟩

def dec (m : CountMap κ) (k : κ) : CountMap κ :=
  ⟨decIn k m.entries, sorted_decIn m.sorted, positive_decIn m.positive⟩

/-- The key of `begin()`. -/
def minKey? (m : CountMap κ) : Option κ := m.entries.head?.map Prod.fst

/-- The key of `rbegin()`. -/
def maxKey? (m : CountMap κ) : Option κ := m.entries.getLast?.map Prod.fst

/-- The map that counts the entries of a list. -/
def ofList (ks : List κ) : CountMap κ := ks.foldr (fun k m => m.inc k) empty

@[simp] theorem count_empty (k : κ) : (empty : CountMap κ).count k = 0 := rfl

@[simp] theorem count_inc (m : CountMap κ) (k k' : κ) :
    (m.inc k).count k' = m.count k' + if k' = k then 1 else 0 :=
  countIn_incIn k k' m.sorted

@[simp] theorem count_dec (m : CountMap κ) (k k' : κ) :
    (m.dec k).count k' = m.count k' - if k' = k then 1 else 0 :=
  countIn_decIn k k' m.sorted

@[simp] theorem count_ofList (ks : List κ) (k : κ) : (ofList ks).count k = ks.count k := by
  induction ks with
  | nil => rfl
  | cons a ks ih =>
      rw [ofList, List.foldr_cons, count_inc, List.count_cons]
      simp only [beq_iff_eq, eq_comm (a := a)]
      exact congrArg (· + _) ih

/-- Maps that count alike are the same map. -/
theorem ext_count (h : ∀ k, m₁.count k = m₂.count k) : m₁ = m₂ := by
  obtain ⟨l₁, hs₁, hp₁⟩ := m₁
  obtain ⟨l₂, hs₂, hp₂⟩ := m₂
  have hnodup : ∀ {l : List (κ × ℕ)}, (l.Pairwise fun a b => a.1 < b.1) → l.Nodup :=
    fun hs => hs.imp fun hlt heq => hlt.ne (congrArg Prod.fst heq)
  have hperm : l₁.Perm l₂ := by
    refine (List.perm_ext_iff_of_nodup (hnodup hs₁) (hnodup hs₂)).mpr fun e => ?_
    rw [← e.eta, mem_iff_countIn hs₁ hp₁, mem_iff_countIn hs₂ hp₂]
    simp only [show countIn e.1 l₁ = countIn e.1 l₂ from h e.1]
  have heq : l₁ = l₂ :=
    hperm.eq_of_pairwise (fun a b _ _ hab hba => absurd hab hba.asymm) hs₁ hs₂
  subst heq
  rfl

theorem exists_mem_iff : (∃ n, (k, n) ∈ m.entries) ↔ 0 < m.count k := by
  simp only [mem_iff_countIn m.sorted m.positive]
  exact ⟨fun ⟨n, heq, hpos⟩ => (show 0 < countIn k m.entries from heq ▸ hpos),
    fun hpos => ⟨_, rfl, hpos⟩⟩

theorem minKey?_eq_none : m.minKey? = none ↔ ∀ k, m.count k = 0 := by
  constructor
  · intro h k
    have hnil : m.entries = [] := by simpa [minKey?] using h
    simp [count, hnil, countIn]
  · intro h
    have hmem : ∀ e, e ∉ m.entries := fun e he =>
      (exists_mem_iff.mp ⟨e.2, he⟩).ne' (h e.1)
    simp [minKey?, List.eq_nil_iff_forall_not_mem.mpr hmem]

theorem maxKey?_eq_none : m.maxKey? = none ↔ m.minKey? = none := by
  simp [maxKey?, minKey?]

/-- The first entry holds the least key present. -/
theorem minKey?_eq_some : m.minKey? = some k ↔ IsLeast {k' | 0 < m.count k'} k := by
  have hsome : ∀ {k}, m.minKey? = some k → IsLeast {k' | 0 < m.count k'} k := by
    intro k h
    cases hl : m.entries with
    | nil => simp [minKey?, hl] at h
    | cons e rest =>
        obtain rfl : e.1 = k := by simpa [minKey?, hl] using h
        have hsorted := List.pairwise_cons.mp (hl ▸ m.sorted)
        refine ⟨exists_mem_iff.mp ⟨e.2, hl ▸ List.mem_cons_self⟩, fun k' hk' => ?_⟩
        obtain ⟨n, hn⟩ := exists_mem_iff.mpr hk'
        rcases List.mem_cons.mp (hl ▸ hn) with heq | hn
        · exact (congrArg Prod.fst heq).ge
        · exact (hsorted.1 _ hn).le
  refine ⟨hsome, fun hk => ?_⟩
  cases h : m.minKey? with
  | none => exact absurd (minKey?_eq_none.mp h k) hk.1.ne'
  | some a => exact congrArg some ((hsome h).unique hk)

/-- The last entry holds the greatest key present. -/
theorem maxKey?_eq_some : m.maxKey? = some k ↔ IsGreatest {k' | 0 < m.count k'} k := by
  have hsome : ∀ {k}, m.maxKey? = some k → IsGreatest {k' | 0 < m.count k'} k := by
    intro k h
    obtain ⟨e, hlast, rfl⟩ := Option.map_eq_some_iff.mp h
    obtain ⟨front, hl⟩ := List.getLast?_eq_some_iff.mp hlast
    have hsorted := List.pairwise_append.mp (hl ▸ m.sorted)
    refine ⟨exists_mem_iff.mp ⟨e.2, by simp [hl]⟩, fun k' hk' => ?_⟩
    obtain ⟨n, hn⟩ := exists_mem_iff.mpr hk'
    rcases List.mem_append.mp (hl ▸ hn) with hn | hn
    · exact (hsorted.2.2 _ hn e List.mem_cons_self).le
    · exact (congrArg Prod.fst (List.mem_singleton.mp hn)).le
  refine ⟨hsome, fun hk => ?_⟩
  cases h : m.maxKey? with
  | none => exact absurd (minKey?_eq_none.mp (maxKey?_eq_none.mp h) k) hk.1.ne'
  | some a => exact congrArg some ((hsome h).unique hk)

end CountMap
