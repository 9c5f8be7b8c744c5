import SmollChat.Verification.KvCache.Slots

/-! # Defragmentation

The plan of `defrag_prepare` always exists, its moves rearrange the cells, and unless the
limit on moves stops it the used cells end up in front. -/

namespace SmollChat

open KvCells Compaction

namespace KvCells

variable {b : Bool} {l : List KvCell} {i : ℕ} {x : KvCell}

/-! ## Counting used cells -/

theorem free_of (hx : l[i]? = some x) (hvalid : x.Valid) :
    ((of b l).isEmpty i).getD false = (x.pos == -1) := by
  rw [KvCache.isEmpty_of hx hvalid]
  rfl

theorem lt_usedMaxP1 (hi : i ∈ usedOf l) : i < (of b l).usedMaxP1 := by
  have hne : usedOf l ≠ ∅ := Finset.ne_empty_of_mem hi
  have hsup : i ≤ (usedOf l).sup id := Finset.le_sup (f := id) hi
  rw [usedMaxP1, if_neg (by exact hne)]
  exact Nat.lt_succ_of_le hsup

theorem usedMaxP1_le : (of b l).usedMaxP1 ≤ l.length := by
  rw [usedMaxP1]
  split_ifs with h
  · exact Nat.zero_le _
  · refine Nat.succ_le_of_lt ((Finset.sup_lt_iff ?_).mpr fun i hi => ?_)
    · obtain ⟨i, hi⟩ := Finset.nonempty_iff_ne_empty.mpr h
      exact (Nat.zero_le i).trans_lt (Finset.mem_range.mp (Finset.mem_filter.mp hi).1)
    · exact Finset.mem_range.mp (Finset.mem_filter.mp hi).1

theorem getUsed_le : (of b l).getUsed ≤ (of b l).usedMaxP1 := by
  have hsub : usedOf l ⊆ Finset.range (of b l).usedMaxP1 := fun i hi =>
    Finset.mem_range.mpr (lt_usedMaxP1 hi)
  rw [← Finset.card_range (of b l).usedMaxP1]
  exact Finset.card_le_card hsub

/-- The used cells are those that are not free below `used_max_p1`. -/
theorem getUsed_eq_countIn (hvalid : ∀ x ∈ l, x.Valid) :
    (of b l).getUsed =
      countIn (fun i => !((of b l).isEmpty i).getD false) 0 (of b l).usedMaxP1 := by
  refine congrArg Finset.card (Finset.ext fun i => ?_)
  rw [Finset.mem_filter, Finset.mem_Ico]
  constructor
  · intro hi
    obtain ⟨x, hx, hpos⟩ := mem_usedOf.mp hi
    have hfree := free_of (b := b) hx (hvalid x (List.mem_of_getElem? hx))
    refine ⟨⟨Nat.zero_le i, lt_usedMaxP1 hi⟩, ?_⟩
    simpa [hfree] using hpos
  · rintro ⟨⟨-, hlt⟩, hfree⟩
    have hx := List.getElem?_eq_getElem (hlt.trans_le usedMaxP1_le)
    have hpos := free_of (b := b) hx (hvalid _ (List.mem_of_getElem? hx))
    exact mem_usedOf.mpr ⟨_, hx, by simpa [hpos] using hfree⟩

theorem countIn_not (m : ℕ → Bool) (a k : ℕ) :
    countIn m a (a + k) + countIn (fun i => !m i) a (a + k) = k := by
  induction k with
  | zero => simp [countIn]
  | succ k ih =>
      have h1 := countIn_split (m := m) (a := a) (b := a + k) (n := a + (k + 1)) (by omega)
        (by omega)
      have h2 := countIn_split (m := fun i => !m i) (a := a) (b := a + k) (n := a + (k + 1))
        (by omega) (by omega)
      have h3 := countIn_of_lt (m := m) (a := a + k) (n := a + (k + 1)) (by omega)
      have h4 := countIn_of_lt (m := fun i => !m i) (a := a + k) (n := a + (k + 1)) (by omega)
      have h5 := countIn_of_ge (m := m) (a := a + k + 1) (n := a + (k + 1)) (by omega)
      have h6 := countIn_of_ge (m := fun i => !m i) (a := a + k + 1) (n := a + (k + 1)) (by omega)
      cases hm : m (a + k) <;> simp [hm] at h3 h4 <;> omega

/-- As many cells are used behind the number of used cells as are free before it. -/
theorem balance (hvalid : ∀ x ∈ l, x.Valid) :
    countIn (fun i => !((of b l).isEmpty i).getD false) (of b l).getUsed (of b l).usedMaxP1 =
      countIn (fun i => ((of b l).isEmpty i).getD false) 0 (of b l).getUsed := by
  have hall := getUsed_eq_countIn (b := b) hvalid
  have hsplit := countIn_split (m := fun i => !((of b l).isEmpty i).getD false)
    (Nat.zero_le (of b l).getUsed) (getUsed_le (b := b))
  have hnot := countIn_not (fun i => ((of b l).isEmpty i).getD false) 0 (of b l).getUsed
  rw [Nat.zero_add] at hnot
  omega

theorem card_usedOf (l : List KvCell) : (usedOf l).card = l.countP fun x => x.pos ≠ -1 := by
  induction l using List.reverseRecOn with
  | nil => rfl
  | append_singleton l x ih =>
      have hnot : l.length ∉ usedOf l := fun h => by
        simpa using (Finset.mem_filter.mp h).1
      have hiff : usedOf (l ++ [x]) =
          if x.pos = -1 then usedOf l else insert l.length (usedOf l) := by
        ext i
        rcases lt_trichotomy i l.length with h | h | h
        · split_ifs <;> simp [mem_usedOf, List.getElem?_append_left h, h.ne]
        · subst h
          split_ifs with hx <;> simp [mem_usedOf, hx]
        · have hout : (l ++ [x])[i]? = none := by simp; omega
          have hout' : l[i]? = none := by simp; omega
          split_ifs <;> simp [mem_usedOf, hout, hout', h.ne']
      rw [hiff, List.countP_append, ← ih]
      split_ifs with hx
      · simp [hx]
      · simp [hx, Finset.card_insert_of_notMem hnot]

end KvCells

namespace KvCache

variable {k : KvCache} {b : Bool} {l : List KvCell} {i n used : ℕ} {rest : List ℕ}

/-! ## The moves -/

/-- The targets from cell `i` on, against the cells as they are when the loop is at `i`. -/
structure Movable (l : List KvCell) (n used i : ℕ) (rest : List ℕ) : Prop where
  target : ∀ j t : ℕ, rest[j]? = some t → t ≤ n ∧ (t = n ∨ t = i + j ∨
    used ≤ i + j ∧ t < used ∧ (∃ x, l[i + j]? = some x ∧ x.pos ≠ -1) ∧ l[t]? = some .empty)
  inj : ∀ j j' t : ℕ, rest[j]? = some t → rest[j']? = some t → t < n → j = j'

def Moved (n i t : ℕ) : Prop := t ≠ n ∧ t ≠ i

/-- The moves assert nothing false; a moved cell leaves a free one, and behind `used`
nothing else changes. -/
theorem applyMoves_of (hn : used ≤ n) (hm : Movable l n used i rest) :
    ∃ l', applyMoves (.of b l) n i rest = some (.of b l') ∧ l'.Perm l ∧
      (∀ j, used ≤ j → (j < i ∨ i + rest.length ≤ j) → l'[j]? = l[j]?) ∧
      ∀ j t : ℕ, rest[j]? = some t → used ≤ i + j →
        (Moved n (i + j) t → l'[i + j]? = some .empty) ∧
        (¬Moved n (i + j) t → l'[i + j]? = l[i + j]?) := by
  induction rest generalizing l i with
  | nil => exact ⟨l, rfl, .refl l, fun _ _ _ => rfl, by simp⟩
  | cons t rest ih =>
      obtain ⟨htn, hcase⟩ := hm.target 0 t rfl
      rw [Nat.add_zero] at hcase
      by_cases hskip : t = n ∨ t = i
      · have hm' : Movable l n used (i + 1) rest :=
          ⟨fun j t' ht' => by
            have h := hm.target (j + 1) t' ht'
            rwa [show i + (j + 1) = i + 1 + j by omega] at h,
          fun j j' t' hj hj' hlt => by simpa using hm.inj (j + 1) (j' + 1) t' hj hj' hlt⟩
        obtain ⟨l', happly, hperm, hframe, hrest⟩ := ih hm'
        refine ⟨l', ?_, hperm, fun j hj hout => hframe j hj ?_, fun j t' ht' hj => ?_⟩
        · rw [applyMoves, guard_bind htn, if_pos hskip]
          exact happly
        · rw [List.length_cons] at hout
          omega
        · cases j with
          | zero =>
              obtain rfl : t = t' := by simpa using ht'
              have hnot : ¬Moved n (i + 0) t := fun h => hskip.elim h.1 h.2
              exact ⟨fun h => absurd h hnot, fun _ => hframe i hj (.inl (Nat.lt_succ_self i))⟩
          | succ j =>
              have h := hrest j t' ht'
              rw [show i + 1 + j = i + (j + 1) by omega] at h
              exact h hj
      · obtain ⟨hused, htlt, ⟨x, hx, hpos⟩, hfree⟩ :=
          (hcase.resolve_left (not_or.mp hskip).1).resolve_left (not_or.mp hskip).2
        have hset : ∀ j, used ≤ j → j ≠ i → ((l.set t x).set i .empty)[j]? = l[j]? :=
          fun j hj hne => by
            rw [List.getElem?_set_ne hne.symm, List.getElem?_set_ne (by omega)]
        have hm' : Movable ((l.set t x).set i .empty) n used (i + 1) rest := by
          refine ⟨fun j t' ht' => ?_, fun j j' t' hj hj' hlt => by
            simpa using hm.inj (j + 1) (j' + 1) t' hj hj' hlt⟩
          obtain ⟨hle, hcase'⟩ := hm.target (j + 1) t' ht'
          rw [show i + (j + 1) = i + 1 + j by omega] at hcase'
          refine ⟨hle, hcase'.imp_right fun h => h.imp_right fun h => ?_⟩
          obtain ⟨hj, ht'lt, hsrc, hdst⟩ := h
          have hne : t ≠ t' := by
            rintro rfl
            have := hm.inj 0 (j + 1) t rfl ht' (by omega)
            omega
          rw [hset _ hj (by omega), List.getElem?_set_ne (by omega), List.getElem?_set_ne hne]
          exact ⟨hj, ht'lt, hsrc, hdst⟩
        obtain ⟨l', happly, hperm, hframe, hrest⟩ := ih hm'
        have hswap : ((l.set t x).set i .empty).Perm l := by
          obtain ⟨hi, rfl⟩ := List.getElem?_eq_some_iff.mp hx
          obtain ⟨ht, hte⟩ := List.getElem?_eq_some_iff.mp hfree
          rw [← hte]
          exact List.set_set_perm ht hi
        refine ⟨l', ?_, hperm.trans hswap, fun j hj hout => ?_, fun j t' ht' hj => ?_⟩
        · rw [applyMoves, guard_bind htn, if_neg hskip, mv_of hx hfree hpos]
          exact happly
        · rw [List.length_cons] at hout
          rw [hframe j hj (by omega), hset j hj (by omega)]
        · cases j with
          | zero =>
              obtain rfl : t = t' := by simpa using ht'
              have hi : i < (l.set t x).length := by
                rw [List.length_set]
                exact (List.getElem?_eq_some_iff.mp hx).1
              refine ⟨fun _ => ?_, fun h => absurd (not_or.mp hskip) h⟩
              rw [Nat.add_zero, hframe i hused (.inl (Nat.lt_succ_self i)),
                List.getElem?_set_self hi]
          | succ j =>
              have h := hrest j t' ht'
              rw [show i + 1 + j = i + (j + 1) by omega, hset _ hj (by omega)] at h
              exact h hj

/-! ## The whole defragmentation -/

/-- The plan of a valid cache names used cells to move and free cells to move them to. -/
theorem movable_of_targets {ids : List ℕ} (hgood : ∀ x ∈ l, x.Good)
    (ht : Targets (fun i => ((KvCells.of b l).isEmpty i).getD false) (KvCells.of b l).usedMaxP1
      (KvCells.of b l).getUsed (KvCells.of b l).getUsed ids) :
    Movable l (KvCells.of b l).usedMaxP1 (KvCells.of b l).getUsed 0 ids := by
  refine ⟨fun j t hj => ?_, ht.inj⟩
  rw [Nat.zero_add]
  have hjn : j < (KvCells.of b l).usedMaxP1 := by
    rw [← ht.length]
    exact (List.getElem?_eq_some_iff.mp hj).1
  rcases ht.target j t hj with h | h | ⟨hused, hjfree, htlt, htfree⟩
  · exact ⟨h.le, .inl h⟩
  · exact ⟨by omega, .inr (.inl h.1)⟩
  · have htn : t < (KvCells.of b l).usedMaxP1 := htlt.trans_le getUsed_le
    have hx := List.getElem?_eq_getElem (hjn.trans_le usedMaxP1_le)
    have hy := List.getElem?_eq_getElem (htn.trans_le usedMaxP1_le)
    rw [free_of hx (hgood _ (List.mem_of_getElem? hx)).toValid] at hjfree
    rw [free_of hy (hgood _ (List.mem_of_getElem? hy)).toValid] at htfree
    refine ⟨htn.le, .inr (.inr ⟨hused, htlt, ⟨_, hx, by simpa using hjfree⟩, ?_⟩)⟩
    rw [hy, (hgood _ (List.mem_of_getElem? hy)).free (by simpa using htfree)]

/-- Where every used cell behind has a target, the used cells end up in front. -/
theorem usedOf_of_planned {ids : List ℕ} {l' : List KvCell} (hgood : ∀ x ∈ l, x.Good)
    (hall : ∀ i, (KvCells.of b l).getUsed ≤ i → i < (KvCells.of b l).usedMaxP1 →
      movable (fun i => ((KvCells.of b l).isEmpty i).getD false) (KvCells.of b l).usedMaxP1 ids
        i = false)
    (ht : Targets (fun i => ((KvCells.of b l).isEmpty i).getD false) (KvCells.of b l).usedMaxP1
      (KvCells.of b l).getUsed (KvCells.of b l).getUsed ids)
    (hperm : l'.Perm l)
    (hframe : ∀ j, (KvCells.of b l).getUsed ≤ j → ids.length ≤ j → l'[j]? = l[j]?)
    (hmoved : ∀ j t : ℕ, ids[j]? = some t → (KvCells.of b l).getUsed ≤ j →
      (Moved (KvCells.of b l).usedMaxP1 j t → l'[j]? = some .empty) ∧
      (¬Moved (KvCells.of b l).usedMaxP1 j t → l'[j]? = l[j]?)) :
    usedOf l' = Finset.range (KvCells.of b l).getUsed := by
  have hsub : usedOf l' ⊆ Finset.range (KvCells.of b l).getUsed := fun i hi => by
    obtain ⟨x, hx, hpos⟩ := mem_usedOf.mp hi
    rw [Finset.mem_range]
    by_contra hge
    have hge := Nat.not_lt.mp hge
    by_cases hlt : i < (KvCells.of b l).usedMaxP1
    · have hilt : i < ids.length := hlt.trans_eq ht.length.symm
      have hti := List.getElem?_eq_getElem hilt
      have hnone := hall i hge hlt
      by_cases hmv : Moved (KvCells.of b l).usedMaxP1 i ids[i]
      · obtain rfl := Option.some.inj (((hmoved i _ hti hge).1 hmv).symm.trans hx)
        exact hpos KvCell.empty_pos
      · rw [(hmoved i _ hti hge).2 hmv] at hx
        have hfree := free_of (b := b) hx (hgood x (List.mem_of_getElem? hx)).toValid
        have htarget := ht.target i _ hti
        by_cases heq : ids[i] = (KvCells.of b l).usedMaxP1
        · simp [movable, hti, heq, hfree, hpos] at hnone
        · have hself : ids[i] = i := by
            by_contra hne
            exact hmv ⟨heq, hne⟩
          rcases htarget with h | h | h
          · exact heq h
          · omega
          · omega
    · have hlen := ht.length
      rw [hframe i hge (by omega)] at hx
      exact hlt (lt_usedMaxP1 (mem_usedOf.mpr ⟨x, hx, hpos⟩))
  refine Finset.eq_of_subset_of_card_le hsub (le_of_eq ?_)
  rw [Finset.card_range, card_usedOf, hperm.countP_eq, ← card_usedOf]
  rfl

/-- `defrag_prepare` never finds too few cells for a hole, and what it returns can be moved.
It returns nothing only where no cell is free before a used one. -/
theorem defragPrepare_spec (hk : k.Valid) (maxMoves : ℕ) :
    ∃ ids, k.defragPrepare maxMoves = some ids ∧
      (ids = [] → usedOf k.cells.cells = Finset.range k.cells.getUsed) ∧
      (ids ≠ [] →
        Targets (fun i => (k.cells.isEmpty i).getD false) k.cells.usedMaxP1 k.cells.getUsed
          k.cells.getUsed ids ∧
        Movable k.cells.cells k.cells.usedMaxP1 k.cells.getUsed 0 ids ∧
        (k.cells.getUsed < maxMoves → ∀ i, k.cells.getUsed ≤ i → i < k.cells.usedMaxP1 →
          movable (fun i => (k.cells.isEmpty i).getD false) k.cells.usedMaxP1 ids i = false)) := by
  have hvalid : ∀ x ∈ k.cells.cells, x.Valid := fun x hx => (hk.cells x hx).toValid
  obtain ⟨c, head, nPad, nSwa, swaType⟩ := k
  obtain ⟨b, l, rfl⟩ : ∃ b l, c = .of b l := ⟨_, _, hk.indexes⟩
  obtain ⟨ids, nMoves, hplan, hplanned, hidle⟩ := plan_spec
    (fun i => ((KvCells.of b l).isEmpty i).getD false) maxMoves (getUsed_le (b := b) (l := l))
    (balance hvalid)
  refine ⟨if nMoves = 0 then [] else ids, ?_, fun he => ?_, fun hne => ?_⟩
  · simp only [defragPrepare]
    rw [guard_bind getUsed_le, hplan]
    rfl
  · have hsub : Finset.range (KvCells.of b l).getUsed ⊆ usedOf l := fun i hi => by
      have hlt := Finset.mem_range.mp hi
      have hx := List.getElem?_eq_getElem ((hlt.trans_le getUsed_le).trans_le usedMaxP1_le)
      have hfree := hidle ?_ i hlt
      · rw [free_of hx (hvalid _ (List.mem_of_getElem? hx))] at hfree
        exact mem_usedOf.mpr ⟨_, hx, by simpa using hfree⟩
      · by_contra hne0
        have hnil : ids = [] := (if_neg hne0).symm.trans he
        have hlen := hplanned.targets.length
        rw [hnil, List.length_nil] at hlen
        have := getUsed_le (b := b) (l := l)
        omega
    refine (Finset.eq_of_subset_of_card_le hsub (le_of_eq ?_)).symm
    rw [Finset.card_range]
    rfl
  · rw [if_neg fun h => hne (if_pos h)]
    refine ⟨hplanned.targets, movable_of_targets hk.cells hplanned.targets,
      fun hlt => hplanned.all ?_⟩
    have := hplanned.moves
    simp only at hlt
    omega

/-- The moves of `defrag_prepare` rearrange the cells, and with enough of them the used cells
fill the front. -/
theorem defrag_spec (hk : k.Valid) (maxMoves : ℕ) :
    ∃ ids, k.defragPrepare maxMoves = some ids ∧
      (ids ≠ [] → ∃ l', applyMoves k.cells ids.length 0 ids = some (.of k.cells.hasShift l') ∧
        l'.Perm k.cells.cells ∧
        (k.cells.getUsed < maxMoves → usedOf l' = Finset.range k.cells.getUsed)) := by
  obtain ⟨ids, hids, -, hspec⟩ := defragPrepare_spec hk maxMoves
  refine ⟨ids, hids, fun hne => ?_⟩
  obtain ⟨htargets, hmovable, hall⟩ := hspec hne
  obtain ⟨c, head, nPad, nSwa, swaType⟩ := k
  obtain ⟨b, l, rfl⟩ : ∃ b l, c = .of b l := ⟨_, _, hk.indexes⟩
  obtain ⟨l', happly, hperm, hframe, hmoved⟩ := applyMoves_of (b := b) getUsed_le hmovable
  rw [htargets.length]
  refine ⟨l', happly, hperm, fun hlt => usedOf_of_planned hk.cells (hall hlt) htargets hperm
    (fun j hj hout => hframe j hj (.inr ((Nat.zero_add _).trans_le hout))) fun j t hj hge => ?_⟩
  have h := hmoved j t hj (hge.trans_eq (Nat.zero_add j).symm)
  rwa [Nat.zero_add] at h

theorem defragPrepare_compact (hk : k.Valid) (maxMoves : ℕ)
    (hcompact : usedOf k.cells.cells = Finset.range k.cells.getUsed) :
    k.defragPrepare maxMoves = some [] := by
  obtain ⟨c, head, nPad, nSwa, swaType⟩ := k
  obtain ⟨b, l, rfl⟩ : ∃ b l, c = .of b l := ⟨_, _, hk.indexes⟩
  have hfree : ∀ i < (KvCells.of b l).getUsed, ((KvCells.of b l).isEmpty i).getD false = false :=
    fun i hi => by
      obtain ⟨x, hx, hpos⟩ := mem_usedOf.mp (hcompact ▸ Finset.mem_range.mpr hi)
      have hgood := hk.cells x (List.mem_of_getElem? hx)
      exact (free_of (l := l) hx hgood.toValid).trans (beq_eq_false_iff_ne.mpr hpos)
  obtain ⟨ids, hplan⟩ := plan_idle (KvCells.of b l).usedMaxP1 maxMoves hfree
  simp only [defragPrepare]
  rw [guard_bind getUsed_le, hplan]
  rfl

end KvCache

end SmollChat
