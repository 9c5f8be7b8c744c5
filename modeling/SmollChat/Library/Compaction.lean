import Mathlib.Algebra.Order.BigOperators.Group.Finset
import Mathlib.Order.Interval.Finset.Nat

/-! # Planning a compaction

Cells below some `n` are free or used, and `used` of them are in use. The plan fills each run
of free cells below `used` with used cells from the end and gives every cell its target;
`n` stands for a cell that stays where it is. The number of runs moved is limited. -/

namespace Compaction

/-- The number of free cells from `i` on, below `used`. -/
def holeSize (free : ℕ → Bool) (used : ℕ) : ℕ → ℕ → ℕ
  | 0, _ => 0
  | fuel + 1, i => if i < used ∧ free i then holeSize free used fuel (i + 1) + 1 else 0

/-- A used cell that has no target yet. -/
def movable (free : ℕ → Bool) (n : ℕ) (ids : List ℕ) (i : ℕ) : Bool :=
  !free i && ids[i]? == some n

/-- The search from the end: where the `nh`-th movable cell above `i0` is, and how many were
found. -/
def searchBack (free : ℕ → Bool) (n nh i0 : ℕ) (ids : List ℕ) : ℕ → ℕ → ℕ × ℕ
  | 0, nf => (i0, nf)
  | is + 1, nf =>
      if is + 1 ≤ i0 then (i0, nf)
      else if movable free n ids (is + 1) then
        if nf + 1 = nh then (is + 1, nf + 1) else searchBack free n nh i0 ids is (nf + 1)
      else searchBack free n nh i0 ids is nf

/-- The state of the loop that fills a hole: the targets, the runs moved so far, the cells of
the hole filled so far, and whether the last cell was moved. -/
structure Fill where
  ids : List ℕ
  nMoves : ℕ
  nf : ℕ
  cont : Bool
  deriving DecidableEq

/-- The loop that fills the hole at `i0` with movable cells from `i1` on; the flag says that
the limit stopped it. -/
def fillHole (free : ℕ → Bool) (n maxMoves nh i0 : ℕ) : ℕ → ℕ → Fill → Bool × Fill
  | 0, _, f => (false, f)
  | fuel + 1, i1, f =>
      if !movable free n f.ids i1 then
        if f.nMoves = maxMoves then (true, f)
        else fillHole free n maxMoves nh i0 fuel (i1 + 1) { f with cont := false }
      else
        let f := { f with
          ids := f.ids.set i1 (i0 + f.nf)
          nMoves := if f.cont then f.nMoves else f.nMoves + 1
          cont := true
          nf := f.nf + 1 }
        if f.nf = nh then (false, f) else fillHole free n maxMoves nh i0 fuel (i1 + 1) f

/-- The loop over the cells below `used`, with the targets and the runs moved; `none` where
the cells from the end do not suffice for a hole. -/
def assign (free : ℕ → Bool) (n used maxMoves : ℕ) :
    ℕ → ℕ → List ℕ → ℕ → Option (List ℕ × ℕ)
  | 0, _, ids, nMoves => some (ids, nMoves)
  | fuel + 1, i0, ids, nMoves =>
      if i0 < used then
        if !free i0 then assign free n used maxMoves fuel (i0 + 1) (ids.set i0 i0) nMoves
        else
          let nh := holeSize free used used (i0 + 1) + 1
          let (is, nf) := searchBack free n nh i0 ids (n - 1) 0
          if nf ≠ nh then none
          else
            let (stop, f) := fillHole free n maxMoves nh i0 (n - is) is ⟨ids, nMoves, 0, false⟩
            if stop ∨ f.nMoves = maxMoves then some (f.ids, f.nMoves)
            else assign free n used maxMoves fuel (i0 + nh) f.ids f.nMoves
      else some (ids, nMoves)

/-- The plan for all cells. -/
def plan (free : ℕ → Bool) (n used maxMoves : ℕ) : Option (List ℕ × ℕ) :=
  assign free n used maxMoves used 0 (List.replicate n n) 0

variable {free : ℕ → Bool} {n used maxMoves nh i0 i1 nf is bound fuel : ℕ} {ids : List ℕ}
  {m : ℕ → Bool}

/-! ## Counting -/

/-- How many `i` with `a ≤ i < n` satisfy `m`. -/
def countIn (m : ℕ → Bool) (a n : ℕ) : ℕ := ((Finset.Ico a n).filter fun i => m i).card

theorem countIn_of_lt {a : ℕ} (h : a < n) :
    countIn m a n = countIn m (a + 1) n + if m a then 1 else 0 := by
  have hico : Finset.Ico a n = insert a (Finset.Ico (a + 1) n) := by
    ext i
    simp only [Finset.mem_insert, Finset.mem_Ico]
    omega
  rw [countIn, countIn, hico, Finset.filter_insert]
  by_cases hm : m a = true
  · rw [if_pos hm, if_pos hm, Finset.card_insert_of_notMem (by simp)]
  · simp [hm]

theorem countIn_of_ge {a : ℕ} (h : n ≤ a) : countIn m a n = 0 := by
  rw [countIn, Finset.Ico_eq_empty_of_le h]
  rfl

theorem countIn_anti {a b : ℕ} (h : a ≤ b) : countIn m b n ≤ countIn m a n :=
  Finset.card_le_card (Finset.filter_subset_filter _ (Finset.Ico_subset_Ico_left h))

theorem countIn_congr {m' : ℕ → Bool} {a : ℕ} (h : ∀ i, a ≤ i → i < n → m i = m' i) :
    countIn m a n = countIn m' a n := by
  refine congrArg Finset.card (Finset.filter_congr fun i hi => ?_)
  obtain ⟨ha, hn⟩ := Finset.mem_Ico.mp hi
  rw [h i ha hn]

theorem countIn_eq_zero {a : ℕ} : countIn m a n = 0 ↔ ∀ i, a ≤ i → i < n → m i = false := by
  rw [countIn, Finset.card_eq_zero, Finset.filter_eq_empty_iff]
  simp only [Finset.mem_Ico, and_imp, Bool.not_eq_true]

theorem countIn_split {a b : ℕ} (hab : a ≤ b) (hbn : b ≤ n) :
    countIn m a n = countIn m a b + countIn m b n := by
  rw [countIn, countIn, countIn, ← Finset.Ico_union_Ico_eq_Ico hab hbn, Finset.filter_union,
    Finset.card_union_of_disjoint]
  exact Finset.disjoint_filter_filter (Finset.Ico_disjoint_Ico_consecutive a b n)

theorem countIn_all {a k : ℕ} (h : ∀ j < k, m (a + j) = true) : countIn m a (a + k) = k := by
  rw [countIn, Finset.filter_true_of_mem, Nat.card_Ico, Nat.add_sub_cancel_left]
  intro i hi
  obtain ⟨ha, hk⟩ := Finset.mem_Ico.mp hi
  simpa [Nat.add_sub_cancel' ha] using h (i - a) (by omega)

/-! ## Holes -/

theorem holeSize_spec (free : ℕ → Bool) (fuel : ℕ) {i : ℕ} (hle : i ≤ used) :
    i + holeSize free used fuel i ≤ used ∧
      ∀ j < holeSize free used fuel i, free (i + j) = true := by
  induction fuel generalizing i with
  | zero => simp [holeSize, hle]
  | succ fuel ih =>
      rw [holeSize]
      split_ifs with h
      · obtain ⟨hbound, hall⟩ := ih (i := i + 1) h.1
        refine ⟨by omega, fun j hj => ?_⟩
        cases j with
        | zero => exact h.2
        | succ j =>
            rw [show i + (j + 1) = i + 1 + j by omega]
            exact hall j (by omega)
      · exact ⟨hle, by simp⟩

/-- The search from the end finds the cells a hole needs, if they are there. -/
theorem searchBack_spec (his : is < n) (hcount : countIn (movable free n ids) (is + 1) n = nf)
    (hnf : nf < nh) (htotal : nh ≤ countIn (movable free n ids) (i0 + 1) n) :
    ∃ r, searchBack free n nh i0 ids is nf = (r, nh) ∧ r < n ∧ movable free n ids r = true ∧
      countIn (movable free n ids) r n = nh := by
  induction is generalizing nf with
  | zero =>
      have := countIn_anti (m := movable free n ids) (n := n) (a := 0 + 1) (b := i0 + 1) (by omega)
      omega
  | succ is ih =>
      rw [searchBack]
      have hstep := countIn_of_lt (m := movable free n ids) his
      split_ifs with hend hm hdone
      · have := countIn_anti (m := movable free n ids) (n := n) (a := is + 1 + 1)
          (b := i0 + 1) (by omega)
        omega
      · rw [if_pos hm] at hstep
        exact ⟨is + 1, by rw [hdone], his, hm, by omega⟩
      · rw [if_pos hm] at hstep
        exact ih (by omega) (by omega) (by omega)
      · rw [if_neg hm] at hstep
        exact ih (by omega) (by omega) hnf

/-! ## Targets -/

/-- A cell stays, or is used and comes from behind to a free cell below `bound`; no two cells
have the same target. -/
structure Targets (free : ℕ → Bool) (n used bound : ℕ) (ids : List ℕ) : Prop where
  length : ids.length = n
  target : ∀ i t : ℕ, ids[i]? = some t → t = n ∨ t = i ∧ i < used ∧ free i = false ∨
    used ≤ i ∧ free i = false ∧ t < bound ∧ free t = true
  inj : ∀ i j t : ℕ, ids[i]? = some t → ids[j]? = some t → t < n → i = j

theorem Targets.mono (h : Targets free n used bound ids) {bound' : ℕ} (hle : bound ≤ bound') :
    Targets free n used bound' ids where
  length := h.length
  target i t ht := (h.target i t ht).imp_right fun h =>
    h.imp_right fun h => ⟨h.1, h.2.1, h.2.2.1.trans_le hle, h.2.2.2⟩
  inj := h.inj

theorem targets_replicate (free : ℕ → Bool) (n used bound : ℕ) :
    Targets free n used bound (List.replicate n n) where
  length := List.length_replicate
  target i t ht := .inl (List.eq_of_mem_replicate (List.mem_of_getElem? ht))
  inj i j t ht _ hlt := by
    have := List.eq_of_mem_replicate (List.mem_of_getElem? ht)
    omega

/-- A cell gets a target that no other cell has. -/
theorem Targets.set (h : Targets free n used bound ids) {i t : ℕ}
    (ht : t = i ∧ i < used ∧ free i = false ∨
      used ≤ i ∧ free i = false ∧ t < bound ∧ free t = true)
    (hfresh : ∀ j : ℕ, ids[j]? = some t → j = i) : Targets free n used bound (ids.set i t) where
  length := by rw [List.length_set, h.length]
  target j t' hj := by
    rw [List.getElem?_set] at hj
    split_ifs at hj with heq hlt
    · obtain rfl := Option.some.inj hj
      exact .inr (heq ▸ ht)
    · exact h.target j t' hj
  inj j j' t' hj hj' hlt := by
    rw [List.getElem?_set] at hj hj'
    split_ifs at hj hj' with h1 h2 h3 h4
    · exact h1.symm.trans h3
    · obtain rfl := Option.some.inj hj
      exact h1.symm.trans (hfresh j' hj').symm
    · obtain rfl := Option.some.inj hj'
      exact (hfresh j hj).trans (by assumption)
    · exact h.inj j j' t' hj hj' hlt

/-- A used cell below `used` keeps its place. -/
theorem Targets.stay (h : Targets free n used bound ids) (hn : used ≤ n) (hi : i0 < used)
    (hfree : free i0 = false) : Targets free n used bound (ids.set i0 i0) :=
  h.set (.inl ⟨rfl, hi, hfree⟩) fun j hj => by
    rcases h.target j i0 hj with h | h | h
    · omega
    · exact h.1.symm
    · simp [hfree] at h

/-- A used cell from behind goes to the next free cell. -/
theorem Targets.fill (h : Targets free n used bound ids) (hn : used ≤ n) (hi : used ≤ i1)
    (hused : free i1 = false) (hb : bound < used) (hfree : free bound = true) :
    Targets free n used (bound + 1) (ids.set i1 bound) :=
  (h.mono (Nat.le_succ bound)).set (.inr ⟨hi, hused, Nat.lt_succ_self bound, hfree⟩) fun j hj => by
    rcases h.target j bound hj with h | h | h
    · omega
    · rw [h.1] at hfree
      simp [h.2.2] at hfree
    · omega

theorem movable_set_of_ne {i j t : ℕ} (hij : i ≠ j) :
    movable free n (ids.set i t) j = movable free n ids j := by
  rw [movable, movable, List.getElem?_set_ne hij]

/-- The state after a cell is moved. -/
def Fill.move (f : Fill) (i0 i1 : ℕ) : Fill where
  ids := f.ids.set i1 (i0 + f.nf)
  nMoves := if f.cont then f.nMoves else f.nMoves + 1
  nf := f.nf + 1
  cont := true

theorem fillHole_move {f : Fill} (hm : movable free n f.ids i1 = true) :
    fillHole free n maxMoves nh i0 (fuel + 1) i1 f =
      if f.nf + 1 = nh then (false, f.move i0 i1)
      else fillHole free n maxMoves nh i0 fuel (i1 + 1) (f.move i0 i1) := by
  simp only [fillHole, hm, Bool.not_true, Bool.false_eq_true, if_false]
  rfl

theorem fillHole_skip {f : Fill} (hm : movable free n f.ids i1 = false) :
    fillHole free n maxMoves nh i0 (fuel + 1) i1 f =
      if f.nMoves = maxMoves then (true, f)
      else fillHole free n maxMoves nh i0 fuel (i1 + 1) { f with cont := false } := by
  simp only [fillHole, hm, Bool.not_false, if_true]

/-- What the loop that fills a hole leaves. -/
structure Filled (free : ℕ → Bool) (n used maxMoves nh i0 i1 : ℕ) (f : Fill)
    (r : Bool × Fill) : Prop where
  targets : Targets free n used (i0 + nh) r.2.ids
  before : ∀ i < i1, r.2.ids[i]? = f.ids[i]?
  moves : r.2.nMoves + f.nf ≤ f.nMoves + nh
  mono : f.nMoves ≤ r.2.nMoves
  started : f.cont = false → movable free n f.ids i1 = true → f.nMoves < r.2.nMoves
  stopped : r.1 = true → r.2.nMoves = maxMoves
  finished : r.1 = false → countIn (movable free n r.2.ids) i1 n = 0

/-- A hole is filled with the movable cells from `i1` on, or the limit stops it. -/
theorem fillHole_spec (maxMoves : ℕ) {f : Fill} (hn : used ≤ n) (hi : used ≤ i1)
    (hfuel : fuel = n - i1) (hle : i0 + nh ≤ used) (hholes : ∀ j < nh, free (i0 + j) = true)
    (ht : Targets free n used (i0 + f.nf) f.ids)
    (hcount : countIn (movable free n f.ids) i1 n + f.nf = nh) (hnf : f.nf < nh) :
    Filled free n used maxMoves nh i0 i1 f
      (fillHole free n maxMoves nh i0 fuel i1 f) := by
  induction fuel generalizing i1 f with
  | zero =>
      rw [countIn_of_ge (by omega)] at hcount
      omega
  | succ fuel ih =>
      have hlt : i1 < n := by omega
      have hstep := countIn_of_lt (m := movable free n f.ids) hlt
      cases hm : movable free n f.ids i1 with
      | true =>
          rw [hm, if_pos rfl] at hstep
          have hused : free i1 = false := by
            simp only [movable, Bool.and_eq_true, Bool.not_eq_true'] at hm
            exact hm.1
          have hset := ht.fill hn hi hused (by omega) (hholes f.nf hnf)
          have hafter : countIn (movable free n (f.move i0 i1).ids) (i1 + 1) n =
              countIn (movable free n f.ids) (i1 + 1) n :=
            countIn_congr fun i hi _ => movable_set_of_ne (by omega)
          have hlen : i1 < f.ids.length := by rw [ht.length]; exact hlt
          have hself : (f.move i0 i1).ids[i1]? = some (i0 + f.nf) := List.getElem?_set_self hlen
          have hbefore : ∀ i < i1, (f.move i0 i1).ids[i]? = f.ids[i]? := fun i hi =>
            List.getElem?_set_ne (by omega)
          have hmoves : (f.move i0 i1).nMoves ≤ f.nMoves + 1 := by
            simp only [Fill.move]
            split_ifs <;> omega
          have hnext : (f.move i0 i1).nf = f.nf + 1 := rfl
          have hmono : f.nMoves ≤ (f.move i0 i1).nMoves := by
            simp only [Fill.move]
            split_ifs <;> omega
          have hstart : f.cont = false → f.nMoves < (f.move i0 i1).nMoves := fun h => by
            simp [Fill.move, h]
          have hclosed : ∀ ids : List ℕ, ids[i1]? = some (i0 + f.nf) →
              movable free n ids i1 = false := fun ids h => by
            simp only [movable, h, Bool.and_eq_false_iff]
            right
            simp
            omega
          rw [fillHole_move hm]
          split_ifs with hdone
          · refine ⟨hset.mono (by omega), hbefore, by simp only; omega, hmono,
              fun h _ => hstart h, by simp, fun _ => ?_⟩
            rw [countIn_of_lt hlt, hafter, hclosed _ hself]
            simp
            omega
          · have hrest : Filled free n used maxMoves nh i0 (i1 + 1) (f.move i0 i1)
                (fillHole free n maxMoves nh i0 fuel (i1 + 1) (f.move i0 i1)) :=
              ih (by omega) (by omega) hset (by rw [hafter]; omega) (by omega)
            have hrestMoves := hrest.moves
            refine ⟨hrest.targets, fun i hi => (hrest.before i (by omega)).trans (hbefore i hi),
              by omega, hmono.trans hrest.mono, fun h _ => (hstart h).trans_le hrest.mono,
              hrest.stopped, fun hstop => ?_⟩
            rw [countIn_of_lt hlt, hrest.finished hstop,
              hclosed _ ((hrest.before i1 (Nat.lt_succ_self i1)).trans hself)]
            rfl
      | false =>
          rw [hm, if_neg Bool.false_ne_true] at hstep
          rw [fillHole_skip hm]
          split_ifs with hmax
          · exact ⟨ht.mono (by omega), fun _ _ => rfl, by simp only; omega, le_rfl, by simp [hm],
              fun _ => hmax, by simp⟩
          · have hrest : Filled free n used maxMoves nh i0 (i1 + 1) { f with cont := false }
                (fillHole free n maxMoves nh i0 fuel (i1 + 1) { f with cont := false }) :=
              ih (by omega) (by omega) ht (by simp only; omega) hnf
            refine ⟨hrest.targets, fun i hi => hrest.before i (by omega), hrest.moves, hrest.mono,
              by simp [hm], hrest.stopped, fun hstop => ?_⟩
            rw [countIn_of_lt hlt, hrest.finished hstop]
            have hsame := hrest.before i1 (Nat.lt_succ_self i1)
            rw [movable] at hm ⊢
            rw [hsame, hm]
            rfl

/-! ## The plan -/

/-- What the plan leaves: targets for all cells and, below the limit, no used cell behind
`used` without one. -/
structure Planned (free : ℕ → Bool) (n used maxMoves : ℕ) (ids : List ℕ) (nMoves : ℕ) : Prop where
  targets : Targets free n used used ids
  moves : nMoves ≤ used
  all : nMoves ≠ maxMoves → ∀ i, used ≤ i → i < n → movable free n ids i = false

/-- There are as many movable cells behind `used` as there are holes left to fill, so the
search from the end always succeeds. -/
theorem assign_spec (maxMoves nMoves : ℕ) (hn : used ≤ n) (hi : i0 ≤ used)
    (hfuel : used - i0 ≤ fuel) (ht : Targets free n used i0 ids) (hmoves : nMoves ≤ i0)
    (hbalance : countIn (movable free n ids) used n = countIn free i0 used) :
    ∃ ids' nMoves', assign free n used maxMoves fuel i0 ids nMoves = some (ids', nMoves') ∧
      Planned free n used maxMoves ids' nMoves' ∧ nMoves ≤ nMoves' ∧
      (nMoves' = nMoves → ∀ i, i0 ≤ i → i < used → free i = false) := by
  induction fuel generalizing i0 ids nMoves with
  | zero =>
      obtain rfl : i0 = used := by omega
      rw [countIn_of_ge le_rfl] at hbalance
      exact ⟨ids, nMoves, rfl, ⟨ht, hmoves, fun _ => countIn_eq_zero.mp hbalance⟩, le_rfl,
        fun _ i hi hlt => absurd hlt (Nat.not_lt.mpr hi)⟩
  | succ fuel ih =>
      rw [assign]
      by_cases hlt : i0 < used
      · rw [if_pos hlt]
        have hstep := countIn_of_lt (m := free) hlt
        have hnext : i0 + 1 ≤ used := hlt
        cases hfree : free i0 with
        | false =>
            rw [hfree, if_neg Bool.false_ne_true] at hstep
            have hsame : countIn (movable free n (ids.set i0 i0)) used n =
                countIn (movable free n ids) used n :=
              countIn_congr fun i hi _ => movable_set_of_ne (by omega)
            obtain ⟨ids', nMoves', hassign, hplanned, hmono, hidle⟩ := ih nMoves hnext
              (by omega) ((ht.mono (Nat.le_succ i0)).stay hn hlt hfree) (by omega) (by omega)
            refine ⟨ids', nMoves', hassign, hplanned, hmono, fun heq i hi hlt' => ?_⟩
            rcases Nat.eq_or_lt_of_le hi with rfl | hi
            · exact hfree
            · exact hidle heq i hi hlt'
        | true =>
            obtain ⟨hbound, hall⟩ := holeSize_spec free used hnext
            generalize hnh : holeSize free used used (i0 + 1) + 1 = nh
            have hholes : ∀ j < nh, free (i0 + j) = true := fun j hj => by
              cases j with
              | zero => exact hfree
              | succ j =>
                  rw [show i0 + (j + 1) = i0 + 1 + j by omega]
                  exact hall j (by omega)
            have hle : i0 + nh ≤ used := by omega
            have hsplit := countIn_split (m := free) (Nat.le_add_right i0 nh) hle
            rw [countIn_all hholes] at hsplit
            have hmore := countIn_anti (m := movable free n ids) (n := n) (a := i0 + 1) hlt
            obtain ⟨r, hback, hr, hm, hcount⟩ : ∃ r, searchBack free n nh i0 ids (n - 1) 0 =
                (r, nh) ∧ r < n ∧ movable free n ids r = true ∧
                  countIn (movable free n ids) r n = nh :=
              searchBack_spec (by omega) (countIn_of_ge (by omega)) (by omega) (by omega)
            have hrused : used ≤ r := by
              by_contra hlt'
              have hone := countIn_of_lt (m := movable free n ids) hr
              rw [if_pos hm] at hone
              have := countIn_anti (m := movable free n ids) (n := n) (a := r + 1) (b := used)
                (by omega)
              omega
            have hfilled : Filled free n used maxMoves nh i0 r ⟨ids, nMoves, 0, false⟩
                (fillHole free n maxMoves nh i0 (n - r) r ⟨ids, nMoves, 0, false⟩) :=
              fillHole_spec maxMoves hn hrused rfl hle hholes ht hcount (by simp only; omega)
            have hfilledMoves := hfilled.moves
            have hmore' : nMoves < _ := hfilled.started rfl hm
            simp only [Bool.not_true, Bool.false_eq_true, if_false, hback, ne_eq, not_true_eq_false]
            by_cases hstop : (fillHole free n maxMoves nh i0 (n - r) r ⟨ids, nMoves, 0, false⟩).1 =
                true ∨
              (fillHole free n maxMoves nh i0 (n - r) r ⟨ids, nMoves, 0, false⟩).2.nMoves =
                maxMoves
            · rw [if_pos hstop]
              exact ⟨_, _, rfl, ⟨hfilled.targets.mono hle, by simp only at hfilledMoves; omega,
                fun hne => absurd (hstop.elim hfilled.stopped id) hne⟩, hmore'.le,
                fun heq => absurd heq hmore'.ne'⟩
            · rw [if_neg hstop]
              have hfin := hfilled.finished (by simpa using (not_or.mp hstop).1)
              have hafter := countIn_split (m := movable free n
                (fillHole free n maxMoves nh i0 (n - r) r ⟨ids, nMoves, 0, false⟩).2.ids)
                hrused hr.le
              have hbefore := countIn_split (m := movable free n ids) hrused hr.le
              have hsame : countIn (movable free n
                  (fillHole free n maxMoves nh i0 (n - r) r ⟨ids, nMoves, 0, false⟩).2.ids)
                  used r = countIn (movable free n ids) used r :=
                countIn_congr fun i _ hi => by rw [movable, movable, hfilled.before i hi]
              obtain ⟨ids', nMoves', hassign, hplanned, hmono, -⟩ := ih
                (fillHole free n maxMoves nh i0 (n - r) r ⟨ids, nMoves, 0, false⟩).2.nMoves hle
                (by omega) hfilled.targets (by simp only at hfilledMoves; omega) (by omega)
              exact ⟨ids', nMoves', hassign, hplanned, (hmore'.trans_le hmono).le,
                fun heq => absurd heq (hmore'.trans_le hmono).ne'⟩
      · obtain rfl : i0 = used := by omega
        rw [countIn_of_ge le_rfl] at hbalance
        rw [if_neg hlt]
        exact ⟨ids, nMoves, rfl, ⟨ht, hmoves, fun _ => countIn_eq_zero.mp hbalance⟩, le_rfl,
          fun _ i hi hlt => absurd hlt (Nat.not_lt.mpr hi)⟩

/-- Where as many cells are used behind `used` as are free below it, there is a plan. -/
theorem plan_spec (free : ℕ → Bool) (maxMoves : ℕ) (hn : used ≤ n)
    (hbalance : countIn (fun i => !free i) used n = countIn free 0 used) :
    ∃ ids nMoves, plan free n used maxMoves = some (ids, nMoves) ∧
      Planned free n used maxMoves ids nMoves ∧
      (nMoves = 0 → ∀ i < used, free i = false) := by
  have hbalance' : countIn (movable free n (List.replicate n n)) used n = countIn free 0 used := by
    rw [← hbalance]
    exact countIn_congr fun i _ hi => by simp [movable, hi]
  obtain ⟨ids, nMoves, hplan, hplanned, -, hidle⟩ := assign_spec maxMoves 0 hn
    (Nat.zero_le used) le_rfl (targets_replicate free n used 0) le_rfl hbalance'
  exact ⟨ids, nMoves, hplan, hplanned, fun h i => hidle h i (Nat.zero_le i)⟩

theorem assign_idle (maxMoves nMoves : ℕ) (h : ∀ i < used, free i = false) :
    ∃ ids', assign free n used maxMoves fuel i0 ids nMoves = some (ids', nMoves) := by
  induction fuel generalizing i0 ids with
  | zero => exact ⟨ids, rfl⟩
  | succ fuel ih =>
      rw [assign]
      split_ifs with hlt hfree
      · exact ih
      · simp [h i0 hlt] at hfree
      · exact ⟨ids, rfl⟩

/-- Without a free cell below `used` nothing is moved. -/
theorem plan_idle (n maxMoves : ℕ) (h : ∀ i < used, free i = false) :
    ∃ ids, plan free n used maxMoves = some (ids, 0) :=
  assign_idle maxMoves 0 h

end Compaction
