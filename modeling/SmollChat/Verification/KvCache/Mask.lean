import SmollChat.Verification.KvCache.Linear

/-! # What a token attends to

The row of the mask for a token leaves open the cells of the token's sequence with positions
up to its own. No used cell lies behind the end of the row. -/

namespace SmollChat

open KvCells

namespace KvCache

variable {k k' : KvCache} {b : Bool} {l : List KvCell} {x : KvCell} {t : UbatchToken}
  {u : Ubatch} {j : ℕ} {s : SeqId} {causal alibi : Bool}

/-- What an entry of the row stands for: the position is not in the future and not outside
the window. -/
def Visible (k : KvCache) (causal : Bool) (s : SeqId) (p1 : ℤ) (e : ℤ × Finset SeqId) : Prop :=
  s ∈ e.2 ∧ (causal = true → e.1 ≤ p1) ∧ k.isMaskedSwa e.1 p1 = some false

instance (k : KvCache) (causal : Bool) (s : SeqId) (p1 : ℤ) :
    DecidablePred (k.Visible causal s p1) := fun _ => by unfold Visible; infer_instance

/-- The contents of the cells a row leaves open. -/
def attended (k : KvCache) (row : List (Option ℤ)) : Multiset (ℤ × Finset SeqId) :=
  (((k.cells.cells.zip row).filter fun e => e.2.isSome).map fun e => (e.1.pos, e.1.seq) :
    List (ℤ × Finset SeqId))

def maskOf (k : KvCache) (causal alibi : Bool) (s : SeqId) (p1 : ℤ) (x : KvCell) : Option ℤ :=
  if x.pos ≠ -1 ∧ k.Visible causal s p1 (x.pos, x.seq) then
    some (if alibi then -|x.pos - p1| else 0)
  else none

theorem maskAt_of (hk : k.Valid) (hpos : 0 ≤ t.pos) (hs : t.seqId.head? = some s)
    (hx : k.cells.cells[j]? = some x) :
    k.maskAt causal alibi t j = some (k.maskOf causal alibi s t.pos x) := by
  have hgood := hk.cells x (List.mem_of_getElem? hx)
  have hempty := isEmpty_of (b := k.cells.hasShift) hx hgood.toValid
  rw [← hk.indexes] at hempty
  by_cases hfree : x.pos = -1
  · have hnone : k.maskOf causal alibi s t.pos x = none := if_neg fun h => h.1 hfree
    simp [maskAt, hs, hempty, hfree, hnone]
  have hget := posGet_of (b := k.cells.hasShift) hx hfree
  have hhas := seqHas_of (b := k.cells.hasShift) hx s
  rw [← hk.indexes] at hget hhas
  obtain ⟨m, hm⟩ := isMaskedSwa_isSome (k := k) (hgood.nonneg hfree) hpos
  have hmask : k.maskAt causal alibi t j =
      if s ∉ x.seq then some none
      else if causal = true ∧ x.pos > t.pos then some none
      else if m = true then some none
      else some (some (if alibi then -|x.pos - t.pos| else 0)) := by
    simp [maskAt, hs, hempty, hfree, hget, hhas, hm]
  rw [hmask, maskOf]
  by_cases hmem : s ∈ x.seq
  · rw [if_neg (not_not.mpr hmem)]
    by_cases hfuture : causal = true ∧ x.pos > t.pos
    · have hno : ¬(x.pos ≠ -1 ∧ k.Visible causal s t.pos (x.pos, x.seq)) := fun h =>
        not_lt.mpr (h.2.2.1 hfuture.1) hfuture.2
      rw [if_pos hfuture, if_neg hno]
    · have hpast : causal = true → x.pos ≤ t.pos := fun hc => not_lt.mp fun h => hfuture ⟨hc, h⟩
      rw [if_neg hfuture]
      cases m with
      | true =>
          have hno : ¬(x.pos ≠ -1 ∧ k.Visible causal s t.pos (x.pos, x.seq)) := fun h => by
            simpa [hm] using h.2.2.2
          rw [if_pos rfl, if_neg hno]
      | false =>
          have hyes : x.pos ≠ -1 ∧ k.Visible causal s t.pos (x.pos, x.seq) :=
            ⟨hfree, hmem, hpast, hm⟩
          rw [if_neg Bool.false_ne_true, if_pos hyes]
  · have hno : ¬(x.pos ≠ -1 ∧ k.Visible causal s t.pos (x.pos, x.seq)) := fun h => hmem h.2.1
    rw [if_pos hmem, if_neg hno]

theorem mapM_eq_some {α β : Type} {f : α → Option β} {g : α → β} {l : List α}
    (h : ∀ x ∈ l, f x = some (g x)) : l.mapM f = some (l.map g) := by
  induction l with
  | nil => rfl
  | cons x l ih =>
      obtain ⟨hx, hrest⟩ := List.forall_mem_cons.mp h
      rw [List.mapM_cons, hx, ih hrest]
      rfl

/-- `get_n_kv` covers the used cells and stays within the cache. -/
theorem usedMaxP1_le_getNKv (hk : k.Valid) (hpad : 0 < k.nPad) :
    k.cells.usedMaxP1 ≤ k.getNKv ∧ k.getNKv ≤ k.cells.size := by
  have hsize : k.cells.usedMaxP1 ≤ k.cells.size := by
    rw [hk.indexes]
    exact usedMaxP1_le
  have hround : k.cells.usedMaxP1 ≤ (k.cells.usedMaxP1 + k.nPad - 1) / k.nPad * k.nPad := by
    have hdiv := Nat.div_add_mod (k.cells.usedMaxP1 + k.nPad - 1) k.nPad
    have hmod := Nat.mod_lt (k.cells.usedMaxP1 + k.nPad - 1) hpad
    rw [Nat.mul_comm] at hdiv
    omega
  exact ⟨le_min hsize (hround.trans (le_max_right _ _)), min_le_left _ _⟩

theorem row_of (hk : k.Valid) (hpad : 0 < k.nPad) (ht : t.Good) (hs : t.seqId.head? = some s) :
    (List.range k.getNKv).mapM (k.maskAt causal alibi t) =
      some ((k.cells.cells.take k.getNKv).map (k.maskOf causal alibi s t.pos)) := by
  have hle := (usedMaxP1_le_getNKv hk hpad).2
  have hcell : ∀ j ∈ List.range k.getNKv, k.maskAt causal alibi t j =
      some (k.maskOf causal alibi s t.pos (k.cells.cells[j]?.getD .empty)) := fun j hj => by
    have hx := List.getElem?_eq_getElem ((List.mem_range.mp hj).trans_le hle)
    rw [maskAt_of hk ht.pos hs hx, hx]
    rfl
  rw [mapM_eq_some hcell]
  refine congrArg some (List.ext_getElem? fun i => ?_)
  rw [List.getElem?_map, List.getElem?_map]
  by_cases hi : i < k.getNKv
  · have hx := List.getElem?_eq_getElem (hi.trans_le hle)
    rw [List.getElem?_range hi, List.getElem?_take_of_lt hi, hx, Option.map_some, Option.map_some,
      hx, Option.getD_some]
  · rw [List.getElem?_eq_none (by simpa using hi),
      List.getElem?_eq_none (by rw [List.length_take]; omega)]
    rfl

theorem contents_take (hk : k.Valid) (hpad : 0 < k.nPad) :
    contentsOf (k.cells.cells.take k.getNKv) = k.contents := by
  have hfree : contentsOf (k.cells.cells.drop k.getNKv) = 0 := by
    have hnone : (k.cells.cells.drop k.getNKv).filter (fun x => x.pos ≠ -1) = [] := by
      refine List.filter_eq_nil_iff.mpr fun x hx => ?_
      obtain ⟨i, hi⟩ := List.mem_iff_getElem?.mp hx
      rw [List.getElem?_drop] at hi
      have hle := (usedMaxP1_le_getNKv hk hpad).1
      rw [hk.indexes] at hle
      have : ¬x.pos ≠ -1 := fun hpos => by
        have hlt := lt_usedMaxP1 (b := k.cells.hasShift) (mem_usedOf.mpr ⟨x, hi, hpos⟩)
        rw [← hk.indexes] at hle hlt
        omega
      simpa using this
    rw [contentsOf, hnone]
    rfl
  conv_rhs => rw [contents, ← List.take_append_drop k.getNKv k.cells.cells, contentsOf_append,
    hfree, add_zero]

theorem isSome_maskOf {p1 : ℤ} : (k.maskOf causal alibi s p1 x).isSome = true ↔
    x.pos ≠ -1 ∧ k.Visible causal s p1 (x.pos, x.seq) := by
  rw [maskOf]
  split_ifs with h <;> simp [h]

theorem zip_map_take {α β : Type} (f : α → β) (l : List α) (n : ℕ) :
    l.zip ((l.take n).map f) = (l.take n).map fun x => (x, f x) := by
  induction l generalizing n with
  | nil => simp
  | cons x l ih =>
      cases n with
      | zero => simp
      | succ n => exact congrArg ((x, f x) :: ·) (ih n)

theorem attended_row (hk : k.Valid) (hpad : 0 < k.nPad) (p1 : ℤ) :
    k.attended ((k.cells.cells.take k.getNKv).map (k.maskOf causal alibi s p1)) =
      k.contents.filter (k.Visible causal s p1) := by
  rw [attended, zip_map_take, ← contents_take hk hpad, contentsOf, Multiset.filter_coe,
    List.filter_map, List.map_map, List.filter_map, List.filter_filter]
  refine congrArg _ (congrArg _ (List.filter_congr fun x _ => ?_))
  rw [Bool.eq_iff_iff, Function.comp_apply, isSome_maskOf, Bool.and_eq_true, and_comm,
    decide_eq_true_iff]
  exact and_congr_left' (decide_eq_true_iff).symm

theorem attended_none (k : KvCache) (n : ℕ) : k.attended (List.replicate n none) = 0 := by
  have hnone : (k.cells.cells.zip (List.replicate n (none : Option ℤ))).filter
      (fun e => e.2.isSome) = [] := by
    refine List.filter_eq_nil_iff.mpr fun e he => ?_
    rw [List.eq_of_mem_replicate (List.of_mem_zip he).2]
    simp
  rw [attended, hnone]
  rfl

/-- A token attends to the entries of its sequence that are not in its future and not outside
its window, wherever their cells are. -/
theorem setInputKqMask_spec (causal alibi : Bool) (hk : k.Valid) (hpad : 0 < k.nPad)
    (hu : ∀ t ∈ u, t.Good) :
    ∃ rows, k.setInputKqMask causal alibi u = some rows ∧ u.length ≤ rows.length ∧
      (∀ row ∈ rows, row.length = k.getNKv) ∧
      (∀ (i : ℕ) t s, u[i]? = some t → t.seqId.head? = some s → ∃ row, rows[i]? = some row ∧
        k.attended row = k.contents.filter (k.Visible causal s t.pos)) ∧
      ∀ (i : ℕ) row, u.length ≤ i → rows[i]? = some row → k.attended row = 0 := by
  let rowOf : UbatchToken → List (Option ℤ) := fun t =>
    (k.cells.cells.take k.getNKv).map (k.maskOf causal alibi (t.seqId.head?.getD 0) t.pos)
  have hrow : ∀ t ∈ u, (List.range k.getNKv).mapM (k.maskAt causal alibi t) = some (rowOf t) :=
    fun t ht => by
      obtain ⟨s, hs⟩ := Option.ne_none_iff_exists'.mp
        (mt List.head?_eq_none_iff.mp (hu t ht).seq)
      simp only [rowOf, hs, Option.getD_some]
      exact row_of hk hpad (hu t ht) hs
  have hlen := (usedMaxP1_le_getNKv hk hpad).2
  refine ⟨_, by rw [setInputKqMask, mapM_eq_some hrow]; rfl, ?_, fun row hmem => ?_,
    fun i t s hi hs => ?_, fun i row hi hget => ?_⟩
  · simp
  · rcases List.mem_append.mp hmem with hmem | hmem
    · obtain ⟨t, -, rfl⟩ := List.mem_map.mp hmem
      rw [List.length_map, List.length_take]
      exact Nat.min_eq_left hlen
    · rw [List.eq_of_mem_replicate hmem, List.length_replicate]
  · refine ⟨rowOf t, ?_, ?_⟩
    · rw [List.getElem?_append_left (by simpa using (List.getElem?_eq_some_iff.mp hi).1),
        List.getElem?_map, hi]
      rfl
    · simp only [rowOf, hs, Option.getD_some]
      exact attended_row hk hpad t.pos
  · rw [List.getElem?_append_right (by simpa using hi)] at hget
    rw [List.eq_of_mem_replicate (List.mem_of_getElem? hget), attended_none]

theorem visible_none (hswa : k.swaType = .none) {p1 : ℤ} {e : ℤ × Finset SeqId} (hpos : 0 ≤ e.1)
    (hp1 : 0 ≤ p1) : k.Visible causal s p1 e ↔ s ∈ e.2 ∧ (causal = true → e.1 ≤ p1) := by
  have hguard : k.isMaskedSwa e.1 p1 = some false := by
    simp only [isMaskedSwa, hswa]
    exact guard_bind ⟨hpos, hp1⟩ _
  rw [Visible, and_iff_left hguard]

theorem contents_nonneg (hk : k.Valid) {e : ℤ × Finset SeqId} (he : e ∈ k.contents) : 0 ≤ e.1 := by
  obtain ⟨x, hx, rfl⟩ := List.mem_map.mp (Multiset.mem_coe.mp he)
  obtain ⟨hmem, hpos⟩ := List.mem_filter.mp hx
  exact (hk.cells x hmem).nonneg (by simpa using hpos)

/-! ## Cells outside of the window -/

/-- A position outside of the window stays outside of it, and so do the positions before it. -/
theorem isMaskedSwa_mono {p q p1 p2 : ℤ} (h : k.isMaskedSwa q p1 = some true) (hp : 0 ≤ p)
    (hpq : p ≤ q) (hle : p1 ≤ p2) : k.isMaskedSwa p p2 = some true := by
  have hguard : 0 ≤ q ∧ 0 ≤ p1 := by
    by_contra hno
    simp [isMaskedSwa, guard, hno] at h
  have hguard' : 0 ≤ p ∧ 0 ≤ p2 := ⟨hp, hguard.2.trans hle⟩
  simp only [isMaskedSwa, guard, if_pos hguard, if_pos hguard'] at h ⊢
  cases hswa : k.swaType with
  | none => simp [hswa] at h
  | standard =>
      simp only [hswa, Option.pure_def, Option.bind_eq_bind, Option.bind_some, Option.some.injEq,
        decide_eq_true_eq] at h ⊢
      omega
  | chunked =>
      simp only [hswa, Option.pure_def, Option.bind_eq_bind, Option.bind_some, Option.some.injEq,
        decide_eq_true_eq] at h ⊢
      refine lt_of_le_of_lt hpq (h.trans_le ?_)
      obtain hzero | hpos := (Int.natCast_nonneg k.nSwa).eq_or_lt
      · simp [← hzero]
      · exact Int.mul_le_mul_of_nonneg_right (Int.ediv_le_ediv hpos hle) hpos.le

theorem SameFrame.isMaskedSwa (h : k.SameFrame k') : k'.isMaskedSwa = k.isMaskedSwa := by
  funext p0 p1
  simp only [KvCache.isMaskedSwa, h.swaType, h.nSwa]

theorem SameFrame.visible (h : k.SameFrame k') : k'.Visible = k.Visible := by
  funext causal s p1 e
  simp only [Visible, h.isMaskedSwa]

/-- The positions of the entries that a token of `s` at `p1` may attend to. -/
def visiblePositions (k : KvCache) (causal : Bool) (s : SeqId) (p1 : ℤ)
    (m : Multiset (ℤ × Finset SeqId)) : Multiset ℤ :=
  (m.filter (k.Visible causal s p1)).map Prod.fst

variable {p1 : ℤ} {m : Multiset (ℤ × Finset SeqId)} {maxRm : SeqId → ℤ}

theorem SameFrame.visiblePositions (h : k.SameFrame k') :
    k'.visiblePositions causal s p1 m = k.visiblePositions causal s p1 m := by
  have heq : k'.Visible causal s p1 = k.Visible causal s p1 := by rw [h.visible]
  simp only [KvCache.visiblePositions, heq]

theorem visiblePositions_edit {f : ℤ × Finset SeqId → ℤ × Finset SeqId}
    (hfst : ∀ e, (f e).1 = e.1) (hsub : ∀ e, (f e).2 ⊆ e.2) (hpos : ∀ e ∈ m, 0 ≤ e.1)
    (hkeep : ∀ e ∈ m, k.Visible causal s p1 e → s ∈ (f e).2) :
    k.visiblePositions causal s p1 (edit f m) = k.visiblePositions causal s p1 m := by
  have hvisible : ∀ e ∈ m, k.Visible causal s p1 (f e) ∧ (0 ≤ (f e).1 ∧ (f e).2 ≠ ∅) ↔
      k.Visible causal s p1 e := by
    intro e he
    rw [Visible, Visible, hfst]
    refine ⟨fun h => ⟨hsub e h.1.1, h.1.2⟩, fun h => ?_⟩
    have hs := hkeep e he h
    exact ⟨⟨hs, h.2⟩, hpos e he, Finset.ne_empty_of_mem hs⟩
  rw [visiblePositions, edit, Multiset.filter_filter, Multiset.filter_map, Multiset.map_map,
    visiblePositions]
  exact Multiset.map_congr (Multiset.filter_congr fun e he => hvisible e he) fun e _ => hfst e

/-- The purge takes nothing away that is within the window. -/
theorem purge_visible (hk : k.Valid) (hmax : ∀ s, -1 ≤ maxRm s)
    (hold : ∀ p, 0 ≤ p → p ≤ maxRm s → k.isMaskedSwa p p1 = some true)
    (h : k.purge maxRm = some k') :
    k'.visiblePositions causal s p1 k'.contents = k.visiblePositions causal s p1 k.contents := by
  rw [purge] at h
  generalize List.finRange 64 = ss at h
  induction ss generalizing k with
  | nil =>
      obtain rfl := Option.some.inj h
      rfl
  | cons t ss ih =>
      rw [List.foldlM_cons] at h
      split_ifs at h with hnone hmin
      · exact ih hk hold h
      · obtain ⟨k₁, hk₁, hrest⟩ := Option.bind_eq_some_iff.mp h
        obtain ⟨hvalid, hframe⟩ := seqRm_frame hk hk₁
        have hold₁ : ∀ p, 0 ≤ p → p ≤ maxRm s → k₁.isMaskedSwa p p1 = some true := by
          rwa [hframe.isMaskedSwa]
        rw [ih hvalid hold₁ hrest, hframe.visiblePositions,
          LlamaContext.seqRm_contents hk _ _ _ hk₁]
        have hend : (bounds (k.cells.seqPosMin t) (maxRm t + 1)).2 = maxRm t + 1 :=
          if_neg (by have := hmax t; omega)
        refine visiblePositions_edit (fun e => ?_) (fun e => ?_) (fun e => contents_nonneg hk)
          fun e he hvisible => ?_
        · simp only [LlamaContext.MemoryCall.onEntry]
          split_ifs <;> rfl
        · simp only [LlamaContext.MemoryCall.onEntry]
          split_ifs
          · exact Finset.erase_subset t e.2
          · exact subset_rfl
        · simp only [LlamaContext.MemoryCall.onEntry, hend]
          split_ifs with hin
          · refine Finset.mem_erase.mpr ⟨?_, hvisible.1⟩
            rintro rfl
            have hmasked := hold e.1 (contents_nonneg hk he) (by omega)
            rw [hvisible.2.2] at hmasked
            contradiction
          · exact hvisible.1
      · exact ih hk hold h

/-- Cells that `find_slot` gives away are outside of the window of every later token. -/
theorem masked_of_usable {p : ℤ} (hx : k.Usable x) (hs : s ∈ x.seq)
    (hnext : k.swaType ≠ .none → k.cells.seqPosMax s < p1) (hp : 0 ≤ p) (hle : p ≤ x.pos) :
    k.isMaskedSwa p p1 = some true := by
  obtain rfl | ⟨t, ht, hmasked⟩ := hx
  · simp at hs
  obtain rfl : s = t := Finset.mem_singleton.mp (ht ▸ hs)
  have hswa : k.swaType ≠ .none := fun hnone => by
    simp [isMaskedSwa, hnone, guard, Option.bind_eq_some_iff] at hmasked
  exact isMaskedSwa_mono hmasked hp hle (hnext hswa)

/-- What the tokens of a ubatch are written over is visible to no later token. -/
theorem overwrite_visible {h : ℕ} (hk : k.Valid) (hs : k.SlotAt u.length h)
    (hu : ∀ t ∈ u, t.Good) (hnext : k.swaType ≠ .none → k.cells.seqPosMax s < p1) :
    k.visiblePositions causal s p1
        (contentsOf (overwrite k.cells.cells h (u.map UbatchToken.cell))) =
      k.visiblePositions causal s p1 (k.contents + entries u) := by
  obtain ⟨hle, husable⟩ := (slotAt_iff hk).mp hs
  have hwin : (contentsOf ((k.cells.cells.drop h).take (u.map UbatchToken.cell).length)).filter
      (k.Visible causal s p1) = 0 := by
    refine Multiset.filter_eq_nil.mpr fun e he hvisible => ?_
    obtain ⟨x, hx, rfl⟩ := List.mem_map.mp (Multiset.mem_coe.mp he)
    obtain ⟨hmem, hpos⟩ := List.mem_filter.mp hx
    obtain ⟨j, hj, hget⟩ := getElem?_of_mem_window hmem
    obtain ⟨y, hy, huse⟩ := husable j (by simpa using hj)
    obtain rfl := Option.some.inj (hget.symm.trans hy)
    have hnonneg := (hk.cells x (List.mem_of_getElem? hget)).nonneg (by simpa using hpos)
    have hmasked := masked_of_usable huse hvisible.1 hnext hnonneg le_rfl
    rw [hvisible.2.2] at hmasked
    contradiction
  have hcontents := contentsOf_overwrite_add (u.map UbatchToken.cell) (l := k.cells.cells) (h := h)
    (by rw [List.length_map]; exact hle)
  rw [contentsOf_cell hu] at hcontents
  have hvisible := congrArg (Multiset.filter (k.Visible causal s p1)) hcontents
  rw [Multiset.filter_add, hwin, add_zero] at hvisible
  rw [visiblePositions, hvisible]
  rfl

/-- Placing a ubatch takes nothing away from the tokens that come after those in the cache. -/
theorem applyUbatch_visible {h : ℕ} (hk : k.Valid) (hs : k.SlotAt u.length h)
    (hu : ∀ t ∈ u, t.Good) (hnext : k.swaType ≠ .none → k.cells.seqPosMax s < p1)
    (happly : k.applyUbatch h u = some k') :
    k'.visiblePositions causal s p1 k'.contents =
      k.visiblePositions causal s p1 (k.contents + entries u) := by
  obtain ⟨maxRm, hmax, hnoted⟩ := emplace_of (b := k.cells.hasShift) (fun _ => -1) hk.cells hu
    fun j hj => hs.cells hk hj
  rw [← hk.indexes] at hmax
  have hcell : ∀ t, maxRm t = -1 ∨ ∃ x ∈ k.cells.cells, k.Usable x ∧ x.seq = {t} ∧
      x.pos = maxRm t := fun t => (hnoted t).imp_right fun ⟨j, hj, x, hx, hxs⟩ => by
    obtain ⟨y, hy, huse⟩ := ((slotAt_iff hk).mp hs).2 j hj
    obtain rfl := Option.some.inj (hx.symm.trans hy)
    exact ⟨x, List.mem_of_getElem? hx, huse, hxs⟩
  have hge : ∀ t, -1 ≤ maxRm t := fun t => by
    rcases hcell t with h | ⟨x, hx, -, -, hpos⟩
    · exact h.ge
    · exact hpos ▸ (hk.cells x hx).pos
  have hold : ∀ p, 0 ≤ p → p ≤ maxRm s → k.isMaskedSwa p p1 = some true := fun p hp hle => by
    rcases hcell s with h | ⟨x, -, huse, hseq, hpos⟩
    · omega
    · exact masked_of_usable huse (hseq ▸ Finset.mem_singleton_self s) hnext hp
        (hle.trans_eq hpos.symm)
  generalize hk₁ : ({ k with
    cells := .of k.cells.hasShift (overwrite k.cells.cells h (u.map UbatchToken.cell)) } :
      KvCache) = k₁ at *
  have hframe : k.SameFrame k₁ := by
    subst hk₁
    exact ⟨length_overwrite .., rfl, rfl, rfl, rfl⟩
  have hvalid : k₁.Valid := hk₁ ▸ valid_overwrite hk h hu
  have hcontents : k₁.contents =
      contentsOf (overwrite k.cells.cells h (u.map UbatchToken.cell)) := by
    subst hk₁
    rfl
  simp only [applyUbatch, hmax, Option.bind_eq_bind, Option.bind_some, hk₁] at happly
  obtain ⟨k₂, hpurge, hk₂⟩ := Option.bind_eq_some_iff.mp happly
  have hpurged : k₂.visiblePositions causal s p1 k₂.contents =
      k₁.visiblePositions causal s p1 k₁.contents :=
    purge_visible hvalid hge (hframe.isMaskedSwa ▸ hold) hpurge
  calc k'.visiblePositions causal s p1 k'.contents
      = k₂.visiblePositions causal s p1 k₂.contents := by
        rw [← Option.some.inj hk₂]
        rfl
    _ = k₁.visiblePositions causal s p1 k₁.contents := hpurged
    _ = k.visiblePositions causal s p1 k₁.contents := hframe.visiblePositions
    _ = k.visiblePositions causal s p1 (k.contents + entries u) := by
        rw [hcontents, overwrite_visible hk hs hu hnext]

/-- Once a ubatch is placed, in free cells or in cells outside of the window, each of its tokens
attends to what the cache held of its sequence and to the tokens of the ubatch, as far as they
are not after it and within its window. -/
theorem applied_mask {h : ℕ} (alibi : Bool) (hk : k.Valid) (hpad : 0 < k.nPad)
    (hu : ∀ t ∈ u, t.Good) (hs : k.SlotAt u.length h)
    (hnext : k.swaType ≠ .none → ∀ t ∈ u, ∀ s, t.seqId.head? = some s →
      k.cells.seqPosMax s < t.pos) :
    ∃ k' rows, k.applyUbatch h u = some k' ∧ k'.setInputKqMask true alibi u = some rows ∧
      ∀ (i : ℕ) t s, u[i]? = some t → t.seqId.head? = some s → ∃ row, rows[i]? = some row ∧
        (∀ e ∈ k'.attended row, s ∈ e.2) ∧
        (k'.attended row).map Prod.fst = ((k.contents + entries u).filter fun e =>
          s ∈ e.2 ∧ e.1 ≤ t.pos ∧ k.isMaskedSwa e.1 t.pos = some false).map Prod.fst := by
  obtain ⟨k', hk', hvalid, hframe, -⟩ := applyUbatch_spec hk hs hu
  obtain ⟨rows, hrows, -, -, hall, -⟩ := setInputKqMask_spec true alibi hvalid
    (hframe.nPad.symm ▸ hpad) hu
  refine ⟨k', rows, hk', hrows, fun i t s hi hhead => ?_⟩
  obtain ⟨row, hrow, hattended⟩ := hall i t s hi hhead
  refine ⟨row, hrow, fun e he => ?_, ?_⟩
  · rw [hattended] at he
    exact (Multiset.mem_filter.mp he).2.1
  · have hvisible : k'.visiblePositions true s t.pos k'.contents =
        k.visiblePositions true s t.pos (k.contents + entries u) :=
      applyUbatch_visible hk hs hu
        (fun hswa => hnext hswa t (List.mem_of_getElem? hi) s hhead) hk'
    rw [hattended]
    refine hvisible.trans (congrArg _ (Multiset.filter_congr fun e _ => ?_))
    simp [Visible]

theorem applied_mask_windowed :
    ∃ k' rows, (windowed 0).applyUbatch 0 [⟨7, 4, [0]⟩, ⟨8, 5, [0, 1]⟩] = some k' ∧
      k'.setInputKqMask true false [⟨7, 4, [0]⟩, ⟨8, 5, [0, 1]⟩] = some rows ∧
      ∀ (i : ℕ) t s, ([⟨7, 4, [0]⟩, ⟨8, 5, [0, 1]⟩] : Ubatch)[i]? = some t →
        t.seqId.head? = some s → ∃ row, rows[i]? = some row ∧
          (∀ e ∈ k'.attended row, s ∈ e.2) ∧
          (k'.attended row).map Prod.fst = (((windowed 0).contents +
            entries [⟨7, 4, [0]⟩, ⟨8, 5, [0, 1]⟩]).filter fun e => s ∈ e.2 ∧ e.1 ≤ t.pos ∧
              (windowed 0).isMaskedSwa e.1 t.pos = some false).map Prod.fst :=
  applied_mask false (valid_windowed 0) (by decide) (by decide) ⟨by decide, by decide⟩
    fun _ => by decide

/-! ## A single sequence -/

theorem Linear.contents {n : ℕ} (hk : k.Linear n) :
    k.contents = (Multiset.range n).map fun p : ℕ => ((p : ℤ), ({0} : Finset SeqId)) := by
  have hused : ((List.range n).map cellAt).filter (fun x => x.pos ≠ -1) =
      (List.range n).map cellAt :=
    List.filter_eq_self.mpr (List.forall_mem_map.mpr fun p _ => by simp [cellAt])
  have hfree : (List.replicate (k.cells.size - n) KvCell.empty).filter (fun x => x.pos ≠ -1) = [] :=
    List.filter_eq_nil_iff.mpr fun x hx => by simp [List.eq_of_mem_replicate hx]
  rw [KvCache.contents, show k.cells.cells = linearCells k.cells.size n from
    congrArg KvCells.cells hk.cells, contentsOf, linearCells, List.filter_append, hused, hfree,
    List.append_nil, List.map_map]
  rfl

theorem filter_range {n m : ℕ} (h : m ≤ n) :
    (Multiset.range n).filter (· < m) = Multiset.range m := by
  refine Multiset.Nodup.toFinset_inj ((Multiset.nodup_range n).filter _)
    (Multiset.nodup_range m) (Finset.ext fun p => ?_)
  simp only [Multiset.mem_toFinset, Multiset.mem_filter, Multiset.mem_range]
  omega

/-- In a context of a single sequence a token at position `p` attends to the positions from
`0` to `p`, to each once. -/
theorem Linear.mask {n : ℕ} {tokens : List ℤ} (alibi : Bool) (hk : k.Linear n)
    (hpad : 0 < k.nPad) (hle : n + tokens.length ≤ k.cells.size) :
    ∃ k' rows, k.applyUbatch n (batchFrom n tokens) = some k' ∧
      k'.setInputKqMask true alibi (batchFrom n tokens) = some rows ∧
      ∀ i < tokens.length, ∃ row, rows[i]? = some row ∧
        k'.attended row = (Multiset.range (n + i + 1)).map fun p : ℕ => ((p : ℤ), {0}) := by
  obtain ⟨k', hk', hlinear, -⟩ := hk.applyUbatch hle
  have hslot : k.SlotAt (batchFrom n tokens).length n := by
    rw [length_batchFrom]
    have hused := hk.getUsed
    exact hused ▸ slotAt_of_compact hk.ready.toValid hk.swa hk.compact (hused.symm ▸ hle)
  obtain ⟨k₁, hk₁, -, hframe, -⟩ := hk.ready.applyUbatch (batchFrom_good n tokens) hslot
  obtain rfl := Option.some.inj (hk₁.symm.trans hk')
  obtain ⟨rows, hrows, -, -, hall, -⟩ := setInputKqMask_spec true alibi hlinear.ready.toValid
    (hframe.nPad.symm ▸ hpad) (batchFrom_good n tokens)
  refine ⟨k₁, rows, hk', hrows, fun i hi => ?_⟩
  obtain ⟨t, ht⟩ := getElem?_batchFrom (n := n) hi
  obtain ⟨row, hrow, hattended⟩ := hall i _ 0 ht rfl
  refine ⟨row, hrow, ?_⟩
  rw [hattended, hlinear.contents, Multiset.filter_map]
  refine congrArg _ ?_
  rw [← filter_range (show n + i + 1 ≤ n + tokens.length by omega)]
  refine Multiset.filter_congr fun p _ => ?_
  have hvisible : k₁.Visible true 0 ((n + i : ℕ) : ℤ) ((p : ℤ), {0}) ↔
      0 ∈ ({0} : Finset SeqId) ∧ (true = true → (p : ℤ) ≤ ((n + i : ℕ) : ℤ)) :=
    visible_none hlinear.swa (Int.natCast_nonneg p) (Int.natCast_nonneg _)
  rw [Function.comp_apply, hvisible, and_iff_right (Finset.mem_singleton_self 0),
    imp_iff_right rfl, Int.ofNat_le, Nat.lt_succ_iff]

theorem Linear.mask_new :
    ∃ k' rows, (new 4 32 0 .none).applyUbatch 0 (batchFrom 0 [7, 8]) = some k' ∧
      k'.setInputKqMask true false (batchFrom 0 [7, 8]) = some rows ∧
      ∀ i < 2, ∃ row, rows[i]? = some row ∧
        k'.attended row = (Multiset.range (0 + i + 1)).map fun p : ℕ => ((p : ℤ), {0}) :=
  Linear.mask false (linear_new 4 32 0) (by decide) (by decide)

end KvCache

end SmollChat
