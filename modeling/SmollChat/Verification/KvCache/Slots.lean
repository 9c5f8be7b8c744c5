import SmollChat.Verification.KvCache.Sequences

/-! # Slots for ubatches

`find_slot` returns a window of cells it can use and fails only where there is none. What
`prepare` places it takes back, so the cache is left as it was and the slots are free. -/

namespace SmollChat

open KvCells

/-- A token as `llama_batch_allocr` hands it on. -/
structure UbatchToken.Good (t : UbatchToken) : Prop where
  pos : 0 ≤ t.pos
  seq : t.seqId ≠ []
  nodup : t.seqId.Nodup

instance (t : UbatchToken) : Decidable t.Good :=
  decidable_of_iff (0 ≤ t.pos ∧ t.seqId ≠ [] ∧ t.seqId.Nodup)
    ⟨fun h => ⟨h.1, h.2.1, h.2.2⟩, fun h => ⟨h.pos, h.seq, h.nodup⟩⟩

/-- The cell a token is put into. -/
def UbatchToken.cell (t : UbatchToken) : KvCell := ⟨t.pos, 0, t.seqId.toFinset⟩

theorem UbatchToken.Good.cell {t : UbatchToken} (h : t.Good) : t.cell.Good :=
  KvCell.good_of_used h.pos fun he => h.seq (List.toFinset_eq_empty_iff _ |>.mp he)

namespace KvCache

variable {k k' : KvCache} {b : Bool} {l : List KvCell} {x : KvCell} {i h n : ℕ} {s : SeqId}
  {u : Ubatch} {us : List Ubatch}

/-! ## Which cells can be used -/

theorem isEmpty_of (hx : l[i]? = some x) (hvalid : x.Valid) :
    (KvCells.of b l).isEmpty i = some (x.pos == -1) := by
  simp only [isEmpty, of_cells, hx, Option.bind_eq_bind, Option.bind_some]
  exact guard_bind hvalid.pos _

theorem seqCount_of (hx : l[i]? = some x) (hpos : x.pos ≠ -1) :
    (KvCells.of b l).seqCount i = some x.seq.card := by
  simp only [seqCount, of_cells, hx, Option.bind_eq_bind, Option.bind_some]
  exact guard_bind hpos _

theorem posGet_of (hx : l[i]? = some x) (hpos : x.pos ≠ -1) :
    (KvCells.of b l).posGet i = some x.pos := by
  simp only [posGet, of_cells, hx, Option.bind_eq_bind, Option.bind_some]
  exact guard_bind hpos _

theorem seqGet_of (hx : l[i]? = some x) (hs : x.seq = {s}) :
    (KvCells.of b l).seqGet i = some s := by
  have hcard : x.seq.card = 1 := by rw [hs, Finset.card_singleton]
  simp only [seqGet, of_cells, hx, Option.bind_eq_bind, Option.bind_some]
  refine (guard_bind hcard _).trans ?_
  cases hf : (List.finRange 64).find? (· ∈ x.seq) with
  | none => simpa [hs] using List.find?_eq_none.mp hf s (List.mem_finRange s)
  | some t => simpa [hs] using List.find?_some hf

theorem seqPosMax_ge (c : KvCells) (hc : ∀ s p, 0 < (c.seqPos s).count p → -1 ≤ p) (s : SeqId) :
    -1 ≤ c.seqPosMax s := by
  cases hmax : (c.seqPos s).maxKey? with
  | none => simp [seqPosMax, hmax]
  | some p => simpa [seqPosMax, hmax] using hc s p (CountMap.maxKey?_eq_some.mp hmax).1

/-- Every position an index counts is the position of a cell of the sequence. -/
theorem count_seqPosOf_pos {p : ℤ} (l : List KvCell) (s : SeqId) :
    0 < (seqPosOf l s).count p ↔ ∃ x ∈ l, s ∈ x.seq ∧ x.pos = p := by
  rw [count_seqPosOf, List.countP_pos_iff]
  simp

theorem isMaskedSwa_isSome {p0 p1 : ℤ} (h0 : 0 ≤ p0) (h1 : 0 ≤ p1) :
    ∃ m, k.isMaskedSwa p0 p1 = some m := by
  have hguard : 0 ≤ p0 ∧ 0 ≤ p1 := ⟨h0, h1⟩
  cases hswa : k.swaType <;>
    exact ⟨_, by simp only [isMaskedSwa, hswa]; exact guard_bind hguard _⟩

theorem Valid.seqPosMax_ge (hk : k.Valid) (s : SeqId) : -1 ≤ k.cells.seqPosMax s :=
  KvCache.seqPosMax_ge k.cells (fun s p hp => by
    rw [hk.indexes] at hp
    obtain ⟨y, hy, -, rfl⟩ := (count_seqPosOf_pos _ s).mp hp
    exact (hk.cells y hy).pos) s

/-- The test of `find_slot` asserts nothing false, and what it lets through is a free cell
or one with a single sequence. -/
theorem canUse_spec (hk : k.Valid) (hx : k.cells.cells[i]? = some x) :
    ∃ u, k.canUse i = some u ∧ (u = true → x = .empty ∨ x.seq.card = 1) ∧
      (x = .empty → u = true) ∧ (k.swaType = .none → u = true → x = .empty) := by
  have hgood := hk.cells x (List.mem_of_getElem? hx)
  by_cases hpos : x.pos = -1
  · have hempty := hgood.free hpos
    have hcan : k.canUse i = some true := by
      rw [canUse, hk.indexes, isEmpty_of hx hgood.toValid]
      simp [hpos]
    exact ⟨true, hcan, fun _ => .inl hempty, fun _ => rfl, fun _ _ => hempty⟩
  · have hne : x ≠ .empty := fun he => hpos (by rw [he, KvCell.empty_pos])
    by_cases hcard : x.seq.card = 1
    · obtain ⟨s, hs⟩ := Finset.card_eq_one.mp hcard
      have hmax : 0 ≤ k.cells.seqPosMax s + 1 := by
        have := hk.seqPosMax_ge s
        omega
      obtain ⟨m, hm⟩ := isMaskedSwa_isSome (k := k) (hgood.nonneg hpos) hmax
      have hcan : k.canUse i = some m := by
        rw [canUse, hk.indexes, isEmpty_of hx hgood.toValid, seqCount_of hx hpos,
          posGet_of hx hpos, seqGet_of hx hs, ← hk.indexes]
        simpa [hpos, hcard] using hm
      refine ⟨m, hcan, fun _ => .inr hcard, fun he => absurd he hne, fun hnone htrue => ?_⟩
      simp [isMaskedSwa, hnone, guard, hgood.nonneg hpos, hmax, htrue] at hm
    · have hcan : k.canUse i = some false := by
        rw [canUse, hk.indexes, isEmpty_of hx hgood.toValid, seqCount_of hx hpos]
        simp [hpos, hcard]
      exact ⟨false, hcan, by simp, fun he => absurd he hne, by simp⟩

/-- `find_slot` starts its search within the cells or at their end. -/
theorem findSlot_eq (hn : n ≤ k.cells.size) (hhead : k.head ≤ k.cells.size) :
    ∃ start ≤ k.cells.size, k.findSlot n =
      WindowSearch.find (fun i => (k.canUse i).getD false) k.cells.size n start := by
  refine ⟨if k.head > k.cells.getUsed + 2 * n then 0 else k.head, ?_, ?_⟩
  · split_ifs
    · exact Nat.zero_le _
    · exact hhead
  · rw [findSlot, if_neg (Nat.not_lt.mpr hn)]

/-- A window of cells that `find_slot` may return. -/
def SlotAt (k : KvCache) (n h : ℕ) : Prop :=
  WindowSearch.Fits (fun i => (k.canUse i).getD false) k.cells.size n h

theorem findSlot_slotAt (hf : k.findSlot n = some h) : k.SlotAt n h := by
  rw [findSlot] at hf
  split_ifs at hf
  all_goals exact WindowSearch.find_fits hf

theorem findSlot_eq_none (hk : k.Valid) (hn : 0 < n) :
    k.findSlot n = none ↔ ∀ h, ¬k.SlotAt n h := by
  by_cases hle : n ≤ k.cells.size
  · obtain ⟨start, hstart, heq⟩ := findSlot_eq hle hk.head
    rw [heq]
    exact WindowSearch.find_eq_none_iff hn hle hstart
  · have hnone : k.findSlot n = none := by rw [findSlot, if_pos (Nat.lt_of_not_le hle)]
    refine iff_of_true hnone fun h hfit => hle ?_
    exact (Nat.le_add_left n h).trans hfit.1

theorem SlotAt.cells (hk : k.Valid) (hs : k.SlotAt n h) {j : ℕ} (hj : j < n) :
    ∃ x, k.cells.cells[h + j]? = some x ∧ (x = .empty ∨ x.seq.card = 1) := by
  have hlt : h + j < k.cells.cells.length := (Nat.add_lt_add_left hj h).trans_le hs.1
  have hx := List.getElem?_eq_getElem hlt
  obtain ⟨u, hu, husable, -⟩ := canUse_spec hk hx
  refine ⟨_, hx, husable ?_⟩
  simpa [hu] using hs.2 j hj

/-- Without a sliding window only free cells can be used. -/
theorem slotAt_iff_empty (hk : k.Valid) (hswa : k.swaType = .none) :
    k.SlotAt n h ↔ h + n ≤ k.cells.size ∧ ∀ j < n, k.cells.cells[h + j]? = some .empty := by
  constructor
  · intro hs
    refine ⟨hs.1, fun j hj => ?_⟩
    have hlt : h + j < k.cells.cells.length := (Nat.add_lt_add_left hj h).trans_le hs.1
    have hx := List.getElem?_eq_getElem hlt
    obtain ⟨u, hu, -, -, hempty⟩ := canUse_spec hk hx
    rw [hx, hempty hswa (by simpa [hu] using hs.2 j hj)]
  · rintro ⟨hle, hall⟩
    refine ⟨hle, fun j hj => ?_⟩
    obtain ⟨u, hu, -, htrue, -⟩ := canUse_spec hk (hall j hj)
    simp [hu, htrue rfl]

/-- A cell that may be given away: it is free, or it holds a single sequence and its position
is out of the window for the sequence's next token. -/
def Usable (k : KvCache) (x : KvCell) : Prop :=
  x = .empty ∨ ∃ s, x.seq = {s} ∧ k.isMaskedSwa x.pos (k.cells.seqPosMax s + 1) = some true

theorem canUse_iff (hk : k.Valid) (hx : k.cells.cells[i]? = some x) :
    k.canUse i = some true ↔ k.Usable x := by
  have hgood := hk.cells x (List.mem_of_getElem? hx)
  by_cases hpos : x.pos = -1
  · have hempty := hgood.free hpos
    obtain ⟨u, hu, -, htrue, -⟩ := canUse_spec hk hx
    rw [hu, htrue hempty]
    exact iff_of_true rfl (.inl hempty)
  have hne : x ≠ .empty := fun he => hpos (by rw [he, KvCell.empty_pos])
  rw [Usable, or_iff_right hne]
  have hcan : k.canUse i = if x.seq.card = 1 then (k.cells.seqGet i).bind fun s =>
      k.isMaskedSwa x.pos (k.cells.seqPosMax s + 1) else some false := by
    rw [canUse, hk.indexes, isEmpty_of hx hgood.toValid, seqCount_of hx hpos, posGet_of hx hpos,
      ← hk.indexes]
    by_cases hcard : x.seq.card = 1 <;> simp [hpos, hcard]
  rw [hcan]
  by_cases hcard : x.seq.card = 1
  · obtain ⟨s, hs⟩ := Finset.card_eq_one.mp hcard
    have hget := seqGet_of (b := k.cells.hasShift) hx hs
    rw [← hk.indexes] at hget
    rw [if_pos hcard, hget, Option.bind_some]
    refine ⟨fun h => ⟨s, hs, h⟩, ?_⟩
    rintro ⟨s', hs', h⟩
    rwa [Finset.singleton_injective (hs.symm.trans hs')]
  · rw [if_neg hcard]
    refine iff_of_false (by simp) ?_
    rintro ⟨s, hs, -⟩
    exact hcard (by rw [hs, Finset.card_singleton])

theorem slotAt_iff (hk : k.Valid) : k.SlotAt n h ↔
    h + n ≤ k.cells.size ∧ ∀ j < n, ∃ x, k.cells.cells[h + j]? = some x ∧ k.Usable x := by
  refine and_congr_right fun hle => forall₂_congr fun j hj => ?_
  have hx := List.getElem?_eq_getElem ((Nat.add_lt_add_left hj h).trans_le hle)
  have hiff := canUse_iff hk hx
  obtain ⟨u, hu, -⟩ := canUse_spec hk hx
  rw [hu] at hiff
  simpa [hu, hx] using hiff

/-- `find_slot` finds a window of usable cells wherever the cache has one. -/
theorem findSlot_spec (hk : k.Valid) (hn : 0 < n) :
    (∀ h, k.findSlot n = some h → h + n ≤ k.cells.size ∧
        ∀ j < n, ∃ x, k.cells.cells[h + j]? = some x ∧ k.Usable x) ∧
      (k.findSlot n = none → ∀ h, h + n ≤ k.cells.size →
        ∃ j < n, ∃ x, k.cells.cells[h + j]? = some x ∧ ¬k.Usable x) := by
  refine ⟨fun h hf => (slotAt_iff hk).mp (findSlot_slotAt hf), fun hf h hle => ?_⟩
  have hno := mt (slotAt_iff hk).mpr ((findSlot_eq_none hk hn).mp hf h)
  by_contra hall
  push Not at hall
  refine hno ⟨hle, fun j hj => ?_⟩
  have hx := List.getElem?_eq_getElem ((Nat.add_lt_add_left hj h).trans_le hle)
  exact ⟨_, hx, hall j hj _ hx⟩

def windowed (s : SeqId) : KvCache :=
  ⟨.of false [⟨0, 0, {s}⟩, ⟨1, 0, {s}⟩, ⟨2, 0, {s}⟩, ⟨3, 0, {s}⟩], 4, 32, 2, .standard⟩

theorem valid_windowed (s : SeqId) : (windowed s).Valid :=
  valid_of (by simp [KvCell.good_of_used]) (fun _ => by simp) rfl (by simp [windowed])

theorem findSlot_windowed :
    (∀ h, (windowed 0).findSlot 3 = some h → h + 3 ≤ (windowed 0).cells.size ∧
        ∀ j < 3, ∃ x, (windowed 0).cells.cells[h + j]? = some x ∧ (windowed 0).Usable x) ∧
      ((windowed 0).findSlot 3 = none → ∀ h, h + 3 ≤ (windowed 0).cells.size →
        ∃ j < 3, ∃ x, (windowed 0).cells.cells[h + j]? = some x ∧ ¬(windowed 0).Usable x) :=
  findSlot_spec (valid_windowed 0) (by decide)

/-! ## Placing a ubatch -/

theorem foldlM_seqAdd {ids : List SeqId} {p : ℤ} {q : Finset SeqId} (hp : p ≠ -1)
    (hx : l[i]? = some ⟨p, 0, q⟩) (hnodup : ids.Nodup) (hdisj : ∀ s ∈ ids, s ∉ q) :
    ids.foldlM (fun c s => c.seqAdd i s) (KvCells.of b l) =
      some (.of b (l.set i ⟨p, 0, ids.toFinset ∪ q⟩)) := by
  induction ids generalizing l q with
  | nil => simp [set_self hx]
  | cons s ids ih =>
      obtain ⟨hs, hrest⟩ := List.forall_mem_cons.mp hdisj
      obtain ⟨hnot, hnodup⟩ := List.nodup_cons.mp hnodup
      have hlt : i < l.length := (List.getElem?_eq_some_iff.mp hx).1
      rw [List.foldlM_cons, KvCells.seqAdd_of hx hp hs, Option.bind_eq_bind, Option.bind_some,
        KvCell.join]
      rw [ih (q := insert s q) (List.getElem?_set_self hlt) hnodup fun t ht => ?_]
      · rw [List.set_set, List.toFinset_cons, Finset.union_insert, Finset.insert_union]
      · rw [Finset.mem_insert, not_or]
        exact ⟨fun heq => hnot (heq ▸ ht), hrest t ht⟩

theorem putToken_of {t : UbatchToken} (ht : t.Good) (hx : l[i]? = some .empty) :
    putToken (.of b l) i t = some (.of b (l.set i t.cell)) := by
  have hlt : i < l.length := (List.getElem?_eq_some_iff.mp hx).1
  have hp : t.pos ≠ -1 := by
    have := ht.pos
    omega
  rw [putToken, posSet_of hx rfl hp, Option.bind_eq_bind, Option.bind_some,
    foldlM_seqAdd hp (List.getElem?_set_self hlt) ht.nodup (by simp), List.set_set]
  simp [UbatchToken.cell]

theorem makeRoom_of (maxRm : SeqId → ℤ) (hx : l[i]? = some x) (hgood : x.Good)
    (hfree : x = .empty ∨ x.seq.card = 1) :
    ∃ maxRm', makeRoom (.of b l) maxRm i = some (maxRm', .of b (l.set i .empty)) ∧
      ∀ s, maxRm' s = maxRm s ∨ x.seq = {s} ∧ x.pos = maxRm' s := by
  by_cases hempty : x = .empty
  · subst hempty
    refine ⟨maxRm, ?_, fun _ => .inl rfl⟩
    rw [makeRoom, isEmpty_of hx hgood.toValid, set_self hx]
    rfl
  · have hcard := hfree.resolve_left hempty
    have hpos : x.pos ≠ -1 := fun h => hempty (hgood.free h)
    obtain ⟨s, hs⟩ := Finset.card_eq_one.mp hcard
    refine ⟨Function.update maxRm s (max (maxRm s) x.pos), ?_, fun t => ?_⟩
    swap
    · by_cases hts : t = s
      · subst hts
        rw [Function.update_self]
        exact (max_choice (maxRm t) x.pos).imp id fun h => ⟨hs, h.symm⟩
      · exact .inl (Function.update_of_ne hts _ _)
    rw [makeRoom, isEmpty_of hx hgood.toValid, seqCount_of hx hpos, seqGet_of hx hs,
      posGet_of hx hpos, rm_of hx hpos]
    simp only [beq_eq_false_iff_ne.mpr hpos, hcard, guard, if_true, Option.bind_eq_bind,
      Option.bind_some, Option.pure_def]
    rfl

/-- The window is overwritten by the tokens, and what is noted for the purge are positions of
its cells. -/
theorem emplace_of (maxRm : SeqId → ℤ) (hgood : ∀ x ∈ l, x.Good) (hu : ∀ t ∈ u, t.Good)
    (hwin : ∀ j < u.length, ∃ x, l[i + j]? = some x ∧ (x = .empty ∨ x.seq.card = 1)) :
    ∃ maxRm', emplace (.of b l) maxRm i u =
        some (maxRm', .of b (overwrite l i (u.map UbatchToken.cell))) ∧
      ∀ s, maxRm' s = maxRm s ∨
        ∃ j < u.length, ∃ x, l[i + j]? = some x ∧ x.seq = {s} ∧ x.pos = maxRm' s := by
  induction u generalizing l i maxRm with
  | nil => exact ⟨maxRm, rfl, fun _ => .inl rfl⟩
  | cons t u ih =>
      obtain ⟨ht, hrest⟩ := List.forall_mem_cons.mp hu
      obtain ⟨x, hx, hfree⟩ := hwin 0 (by simp)
      rw [Nat.add_zero] at hx
      have hlt : i < l.length := (List.getElem?_eq_some_iff.mp hx).1
      have hgood' : ∀ y ∈ l.set i t.cell, y.Good := fun y hy => by
        rcases List.mem_or_eq_of_mem_set hy with hy | rfl
        · exact hgood y hy
        · exact ht.cell
      have hwin' : ∀ j, (l.set i t.cell)[i + 1 + j]? = l[i + (j + 1)]? := fun j => by
        rw [List.getElem?_set_ne (by omega)]
        congr 1
        omega
      obtain ⟨maxRm₁, hroom, hnoted₁⟩ := makeRoom_of (b := b) maxRm hx
        (hgood x (List.mem_of_getElem? hx)) hfree
      obtain ⟨maxRm', hmax, hnoted⟩ := ih (l := l.set i t.cell) (i := i + 1) maxRm₁ hgood' hrest
        fun j hj => by
          rw [hwin' j]
          exact hwin (j + 1) (by simpa using hj)
      refine ⟨maxRm', ?_, fun s => ?_⟩
      · have hput := putToken_of (b := b) (l := l.set i .empty) ht (List.getElem?_set_self hlt)
        rw [List.set_set] at hput
        simp only [emplace, hroom, hput, hmax, Option.bind_eq_bind, Option.bind_some]
        rfl
      · rcases hnoted s with h | ⟨j, hj, y, hy, hys⟩
        · rcases hnoted₁ s with h₁ | ⟨hs, hpos⟩
          · exact .inl (h.trans h₁)
          · exact .inr ⟨0, by simp, x, hx, hs, hpos.trans h.symm⟩
        · exact .inr ⟨j + 1, by simpa using hj, y, (hwin' j).symm.trans hy, hys⟩

theorem mem_overwrite {os : List KvCell} {y : KvCell} (hy : y ∈ overwrite l i os) :
    y ∈ l ∨ y ∈ os := by
  induction os generalizing l i with
  | nil => exact .inl hy
  | cons o os ih =>
      rcases ih hy with hy | hy
      · rcases List.mem_or_eq_of_mem_set hy with hy | rfl
        · exact .inl hy
        · exact .inr List.mem_cons_self
      · exact .inr (List.mem_cons_of_mem o hy)

@[simp] theorem length_overwrite (l : List KvCell) (i : ℕ) (os : List KvCell) :
    (overwrite l i os).length = l.length := by
  induction os generalizing l i with
  | nil => rfl
  | cons o os ih => rw [overwrite, ih, List.length_set]

/-- What an operation leaves of the data that is not in the cells. -/
structure SameFrame (k k' : KvCache) : Prop where
  size : k'.cells.size = k.cells.size
  hasShift : k'.cells.hasShift = k.cells.hasShift
  nPad : k'.nPad = k.nPad
  nSwa : k'.nSwa = k.nSwa
  swaType : k'.swaType = k.swaType

theorem SameFrame.refl (k : KvCache) : k.SameFrame k := ⟨rfl, rfl, rfl, rfl, rfl⟩

theorem SameFrame.trans {k₁ k₂ k₃ : KvCache} (h : k₁.SameFrame k₂) (h' : k₂.SameFrame k₃) :
    k₁.SameFrame k₃ :=
  ⟨h'.size.trans h.size, h'.hasShift.trans h.hasShift, h'.nPad.trans h.nPad,
    h'.nSwa.trans h.nSwa, h'.swaType.trans h.swaType⟩

theorem SameFrame.symm (h : k.SameFrame k') : k'.SameFrame k :=
  ⟨h.size.symm, h.hasShift.symm, h.nPad.symm, h.nSwa.symm, h.swaType.symm⟩

theorem seqRm_frame (hk : k.Valid) {seqId : Option SeqId} {p0 p1 : ℤ}
    (h : k.seqRm seqId p0 p1 = some k') : k'.Valid ∧ k.SameFrame k' := by
  obtain ⟨k₁, hk₁, hvalid, hshape⟩ := hk.seqRm seqId p0 p1
  obtain rfl := Option.some.inj (h.symm.trans hk₁)
  refine ⟨hvalid, hshape.size, ?_, hshape.nPad, hshape.nSwa, hshape.swaType⟩
  obtain rfl := Option.some.inj
    (h.symm.trans (seqRm_of hk.indexes hk.cells hk.head seqId p0 p1))
  rfl

theorem purge_spec (hk : k.Valid) (maxRm : SeqId → ℤ) :
    ∃ k', k.purge maxRm = some k' ∧ k'.Valid ∧ k.SameFrame k' := by
  rw [purge]
  generalize List.finRange 64 = ss
  induction ss generalizing k with
  | nil => exact ⟨k, rfl, hk, .refl k⟩
  | cons s ss ih =>
      rw [List.foldlM_cons]
      split_ifs with h1 h2
      · exact ih hk
      · obtain ⟨k₁, hk₁, -⟩ := hk.seqRm (some s) (k.cells.seqPosMin s) (maxRm s + 1)
        obtain ⟨hvalid, hframe⟩ := seqRm_frame hk hk₁
        obtain ⟨k', hk', hvalid', hframe'⟩ := ih hvalid
        exact ⟨k', by rw [hk₁]; exact hk', hvalid', hframe.trans hframe'⟩
      · exact ih hk

theorem purge_none (k : KvCache) : k.purge (fun _ => -1) = some k := by
  rw [purge]
  induction List.finRange 64 with
  | nil => rfl
  | cons s ss ih => exact ih

/-- The cache between the two loops of `apply_ubatch`. -/
theorem valid_overwrite (hk : k.Valid) (h : ℕ) (hu : ∀ t ∈ u, t.Good) :
    ({ k with
      cells := .of k.cells.hasShift (overwrite k.cells.cells h (u.map UbatchToken.cell)) } :
        KvCache).Valid := by
  refine valid_of (fun y hy => ?_) (fun hb y hy => ?_) rfl ?_
  · rcases mem_overwrite hy with hy | hy
    · exact hk.cells y hy
    · obtain ⟨t, ht, rfl⟩ := List.mem_map.mp hy
      exact (hu t ht).cell
  · rcases mem_overwrite hy with hy | hy
    · exact hk.shift hb y hy
    · obtain ⟨t, ht, rfl⟩ := List.mem_map.mp hy
      rfl
  · rw [length_overwrite]
    exact hk.head

/-- `apply_ubatch` at a slot asserts nothing false. -/
theorem applyUbatch_spec (hk : k.Valid) (hs : k.SlotAt u.length h) (hu : ∀ t ∈ u, t.Good) :
    ∃ k', k.applyUbatch h u = some k' ∧ k'.Valid ∧ k.SameFrame k' ∧ k'.head = h + u.length := by
  obtain ⟨maxRm', hmax, -⟩ := emplace_of (b := k.cells.hasShift) (fun _ => -1) hk.cells hu
    fun j hj => hs.cells hk hj
  rw [← hk.indexes] at hmax
  obtain ⟨k', hk', hv', hf'⟩ := purge_spec (valid_overwrite hk h hu) maxRm'
  have hsize : k'.cells.size = k.cells.size := hf'.size.trans (length_overwrite ..)
  refine ⟨{ k' with head := h + u.length }, ?_, ⟨hv'.indexes, hv'.cells, hv'.shift, ?_⟩,
    ⟨hsize, hf'.hasShift, hf'.nPad, hf'.nSwa, hf'.swaType⟩, rfl⟩
  · simp only [applyUbatch, hmax, Option.bind_eq_bind, Option.bind_some, Option.pure_def]
    rw [hk', Option.bind_some]
  · exact hs.1.trans_eq hsize.symm

/-- In free cells a ubatch is written and nothing else changes. -/
theorem applyUbatch_free (hk : k.Valid) (hu : ∀ t ∈ u, t.Good)
    (hfree : ∀ j < u.length, k.cells.cells[h + j]? = some .empty) :
    k.applyUbatch h u = some { k with
      cells := .of k.cells.hasShift (overwrite k.cells.cells h (u.map UbatchToken.cell))
      head := h + u.length } := by
  obtain ⟨maxRm', hmax, hnoted⟩ := emplace_of (b := k.cells.hasShift) (fun _ => -1) hk.cells hu
    fun j hj => ⟨_, hfree j hj, .inl rfl⟩
  obtain rfl : maxRm' = fun _ => -1 := funext fun s => (hnoted s).resolve_right (by
    rintro ⟨j, hj, x, hx, hs, -⟩
    rw [← Option.some.inj ((hfree j hj).symm.trans hx)] at hs
    exact (Finset.singleton_ne_empty s) hs.symm)
  rw [← hk.indexes] at hmax
  simp only [applyUbatch, hmax, Option.bind_eq_bind, Option.bind_some, purge_none,
    Option.pure_def]

/-! ## Preparing a batch -/

def Placeable (k : KvCache) : List ℕ → List Ubatch → Prop
  | [], [] => True
  | h :: heads, u :: us =>
      k.SlotAt u.length h ∧ ∀ k', k.applyUbatch h u = some k' → k'.Placeable heads us
  | _, _ => False

theorem overwrite_restore (os : List KvCell) (hle : h + os.length ≤ l.length) :
    overwrite (overwrite l h os) h ((l.drop h).take os.length) = l := by
  have hlen : ((l.drop h).take os.length).length = os.length := by
    rw [List.length_take, List.length_drop]
    omega
  rw [overwrite_eq (by rw [length_overwrite, hlen]; exact hle), hlen, overwrite_eq hle]
  have hfront : (l.take h ++ os ++ l.drop (h + os.length)).take h = l.take h := by
    rw [List.append_assoc, List.take_append_of_le_length (by simp; omega), List.take_take]
    simp
  have hback : (l.take h ++ os ++ l.drop (h + os.length)).drop (h + os.length) =
      l.drop (h + os.length) := by
    have : (l.take h ++ os).length = h + os.length := by simp; omega
    rw [← this, List.drop_left]
  rw [hfront, hback, List.append_assoc, ← List.drop_drop, List.take_append_drop,
    List.take_append_drop]

theorem getElem?_overwrite {os : List KvCell} (hle : h + os.length ≤ l.length) {j : ℕ}
    (hj : j < os.length) : (overwrite l h os)[h + j]? = os[j]? := by
  have hlen : (l.take h).length = h := by
    rw [List.length_take]
    omega
  rw [overwrite_eq hle, List.append_assoc, List.getElem?_append_right (by omega), hlen,
    Nat.add_sub_cancel_left, List.getElem?_append_left hj]

/-- Of a free window `cp` saves free cells, also while a shift is pending. -/
theorem cp_free (hk : k.Valid) (hle : h + n ≤ k.cells.size)
    (hfree : ∀ j < n, k.cells.cells[h + j]? = some .empty) :
    ∃ saved, k.cells.cp h n = some saved ∧ saved.cells = (k.cells.cells.drop h).take n := by
  have hcp := cp_of (b := k.cells.hasShift) hle fun j hj x hx => by
    rw [← Option.some.inj ((hfree j hj).symm.trans hx)]
    rfl
  rw [← hk.indexes] at hcp
  exact ⟨_, hcp, rfl⟩

/-- The cells saved before a ubatch is written put back all of the cache. -/
theorem restore_applied {saved : KvCells} (hk : k.Valid) (hu : ∀ t ∈ u, t.Good)
    (hle : h + u.length ≤ k.cells.size)
    (hfree : ∀ j < u.length, k.cells.cells[h + j]? = some .empty)
    (hcells : saved.cells = (k.cells.cells.drop h).take u.length)
    (happly : k.applyUbatch h u = some k') (hv' : k'.Valid) :
    k'.restore [⟨k.head, h, saved⟩] = some k := by
  obtain rfl := Option.some.inj (happly.symm.trans (applyUbatch_free hk hu hfree))
  let os := u.map UbatchToken.cell
  have hos : h + os.length ≤ k.cells.cells.length := by
    rw [List.length_map]
    exact hle
  have hsize : saved.size = u.length := by
    rw [KvCells.size, hcells, List.length_take, List.length_drop]
    exact Nat.min_eq_left (Nat.le_sub_of_add_le' hle)
  have hfits : h + saved.size ≤ (overwrite k.cells.cells h os).length := by
    rw [length_overwrite, hsize]
    exact hle
  have hset := set_of (b := k.cells.hasShift) hfits (fun x hx => (hv'.cells x hx).toValid)
    (fun j hj x hx => by
      rw [getElem?_overwrite hos (by rw [List.length_map, ← hsize]; exact hj)] at hx
      obtain ⟨t, -, rfl⟩ := List.mem_map.mp (List.mem_of_getElem? hx)
      rfl)
    fun x hx => by
      rw [hcells] at hx
      obtain ⟨j, hj⟩ := List.mem_iff_getElem?.mp hx
      have hlt : j < u.length :=
        (List.getElem?_eq_some_iff.mp hj).1.trans_le (List.length_take_le ..)
      rw [List.getElem?_take_of_lt hlt, List.getElem?_drop, hfree j hlt] at hj
      obtain rfl := Option.some.inj hj
      exact ⟨KvCell.valid_empty, rfl⟩
  have hover : overwrite (overwrite k.cells.cells h os) h saved.cells = k.cells.cells := by
    have h := overwrite_restore os hos
    rwa [List.length_map, ← hcells] at h
  rw [hover, ← hk.indexes] at hset
  simp only [restore, List.foldlM_cons, List.foldlM_nil, hset, Option.bind_eq_bind,
    Option.bind_some, Option.pure_def, os]

def slots (k : KvCache) : List Ubatch → Option (List ℕ)
  | [] => some []
  | u :: us => do
      let h ← k.findSlot u.length
      return h :: (← (← k.applyUbatch h u).slots us)

/-- Without a sliding window what is placed is taken back exactly, and the slots found can
be filled one after the other. -/
theorem place_restore (states : List Saved) (hk : k.Valid) (hswa : k.swaType = .none)
    (hus : ∀ u ∈ us, ∀ t ∈ u, t.Good) :
    ∃ ok new k', k.place states us = some (ok, new ++ states, k') ∧ k'.Valid ∧
      k'.SameFrame k ∧ k'.restore new = some k ∧
      k.slots us = (if ok then some (new.map Saved.headNew).reverse else none) ∧
      (ok = true → k.Placeable (new.map Saved.headNew).reverse us) := by
  induction us generalizing k states with
  | nil => exact ⟨true, [], k, rfl, hk, .refl k, rfl, rfl, fun _ => trivial⟩
  | cons u us ih =>
      obtain ⟨hu, hrest⟩ := List.forall_mem_cons.mp hus
      cases hf : k.findSlot u.length with
      | none =>
          exact ⟨false, [], k, by simp [place, hf], hk, .refl k, rfl, by simp [slots, hf], by simp⟩
      | some h =>
          have hslot := findSlot_slotAt hf
          obtain ⟨hle, hfree⟩ := (slotAt_iff_empty hk hswa).mp hslot
          obtain ⟨saved, hsaved, hcells⟩ := cp_free hk hle hfree
          obtain ⟨k₁, hk₁, hv₁, hf₁, -⟩ := applyUbatch_spec hk hslot hu
          obtain ⟨ok, new, k', hplace, hv', hf', hrestore, hslots, hall⟩ :=
            ih (⟨k.head, h, saved⟩ :: states) hv₁ (hf₁.swaType.trans hswa) hrest
          refine ⟨ok, new ++ [⟨k.head, h, saved⟩], k', ?_, hv', ?_, ?_, ?_, fun hok => ?_⟩
          · simp only [place, hf, hsaved, hk₁, Option.bind_eq_bind, Option.bind_some, hplace,
              List.append_assoc, List.singleton_append]
          · exact hf'.trans hf₁.symm
          · have hback := restore_applied hk hu hle hfree hcells hk₁ hv₁
            rw [restore, List.foldlM_append]
            exact (congrArg (· >>= _) hrestore).trans hback
          · simp only [slots, hf, hk₁, hslots, Option.bind_eq_bind, Option.bind_some]
            cases ok <;> simp
          · rw [List.map_append, List.reverse_append]
            refine ⟨hslot, fun k₂ hk₂ => ?_⟩
            obtain rfl := Option.some.inj (hk₁.symm.trans hk₂)
            exact hall hok

/-- `prepare` without a sliding window: it leaves the cache as it was, and when it reports
slots, the ubatches find them free. -/
theorem prepare_restores (hk : k.Valid) (hswa : k.swaType = .none)
    (hus : ∀ u ∈ us, ∀ t ∈ u, t.Good) :
    k.prepare us = some ((k.slots us).getD [], k) ∧
      ∀ heads, k.slots us = some heads → k.Placeable heads us := by
  obtain ⟨ok, new, k₁, hplace, hv₁, hf₁, hrestore, hslots, hall⟩ :=
    place_restore [] hk hswa hus
  rw [hslots]
  constructor
  · simp only [prepare, hplace, List.append_nil, Option.bind_eq_bind, Option.bind_some, hrestore,
      Option.pure_def]
    cases ok <;> rfl
  · cases ok with
    | false => simp
    | true =>
        rintro heads heq
        obtain rfl := Option.some.inj heq
        exact hall rfl

end KvCache

end SmollChat
