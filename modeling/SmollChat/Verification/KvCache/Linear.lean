import SmollChat.Verification.KvCache.Runs

/-! # A single sequence

A context that only ever decodes batches of `llama_batch_get_one` fills its cells from the
front: the token at position `p` is in cell `p`. Then every outcome of `decode` is known. -/

namespace SmollChat

open KvCells

namespace KvCache

variable {k k' : KvCache} {n m size : ℕ} {u : Ubatch} {us : List Ubatch} {tokens : List ℤ}

def cellAt (p : ℕ) : KvCell := ⟨p, 0, {LlamaBatch.seqId0}⟩

def linearCells (size n : ℕ) : List KvCell :=
  (List.range n).map cellAt ++ List.replicate (size - n) .empty

/-- The cache after `n` tokens of sequence `0`. -/
structure Linear (n : ℕ) (k : KvCache) : Prop where
  cells : k.cells = .of false (linearCells k.cells.size n)
  head : k.head = n
  le : n ≤ k.cells.size
  swa : k.swaType = .none

def batchFrom (n : ℕ) : List ℤ → Ubatch
  | [] => []
  | t :: tokens => ⟨t, n, [LlamaBatch.seqId0]⟩ :: batchFrom (n + 1) tokens

@[simp] theorem length_batchFrom (n : ℕ) (tokens : List ℤ) :
    (batchFrom n tokens).length = tokens.length := by
  induction tokens generalizing n with
  | nil => rfl
  | cons t tokens ih => simp [batchFrom, ih]

theorem batchFrom_good (n : ℕ) (tokens : List ℤ) : ∀ t ∈ batchFrom n tokens, t.Good := by
  induction tokens generalizing n with
  | nil => simp [batchFrom]
  | cons t tokens ih =>
      exact List.forall_mem_cons.mpr
        ⟨⟨Int.natCast_nonneg n, List.cons_ne_nil _ _, List.nodup_singleton 0⟩, ih (n + 1)⟩

theorem seqId_batchFrom {t : UbatchToken} (ht : t ∈ batchFrom n tokens) : t.seqId = [0] := by
  induction tokens generalizing n with
  | nil => simp [batchFrom] at ht
  | cons t' tokens ih =>
      rcases List.mem_cons.mp ht with rfl | ht
      · rfl
      · exact ih ht

theorem getElem?_batchFrom {i : ℕ} (hi : i < tokens.length) :
    ∃ t, (batchFrom n tokens)[i]? = some ⟨t, (n + i : ℕ), [0]⟩ := by
  induction tokens generalizing n i with
  | nil => exact absurd hi (Nat.not_lt_zero i)
  | cons t tokens ih =>
      cases i with
      | zero => exact ⟨t, rfl⟩
      | succ i =>
          obtain ⟨t', ht'⟩ := ih (n := n + 1) (Nat.lt_of_succ_lt_succ hi)
          exact ⟨t', by rw [batchFrom, List.getElem?_cons_succ, ht', Nat.add_right_comm]; rfl⟩

theorem cell_batchFrom (n : ℕ) (tokens : List ℤ) :
    (batchFrom n tokens).map UbatchToken.cell =
      (List.range' n tokens.length).map cellAt := by
  induction tokens generalizing n with
  | nil => rfl
  | cons t tokens ih =>
      rw [batchFrom, List.map_cons, ih, List.length_cons, List.range'_succ, List.map_cons]
      rfl

/-! ## The cells -/

@[simp] theorem length_linearCells (hle : n ≤ size) : (linearCells size n).length = size := by
  simp [linearCells, Nat.add_sub_cancel' hle]

theorem getElem?_linearCells {i : ℕ} (hi : i < size) (hle : n ≤ size) :
    (linearCells size n)[i]? = some (if i < n then cellAt i else .empty) := by
  rw [linearCells]
  split_ifs with h
  · rw [List.getElem?_append_left (by simpa using h), List.getElem?_map, List.getElem?_range h]
    rfl
  · rw [List.getElem?_append_right (by simpa using h), List.getElem?_replicate, if_pos]
    rw [List.length_map, List.length_range]
    omega

theorem good_cellAt (p : ℕ) : (cellAt p).Good :=
  KvCell.good_of_used (Int.natCast_nonneg p) (Finset.singleton_ne_empty 0)

theorem mem_linearCells {x : KvCell} (hx : x ∈ linearCells size n) :
    (∃ p < n, x = cellAt p) ∨ x = .empty := by
  rcases List.mem_append.mp hx with hx | hx
  · obtain ⟨p, hp, rfl⟩ := List.mem_map.mp hx
    exact .inl ⟨p, List.mem_range.mp hp, rfl⟩
  · exact .inr (List.eq_of_mem_replicate hx)

theorem Linear.unshifted (hk : k.Linear n) : k.cells.hasShift = false := by
  rw [hk.cells]
  rfl

theorem Linear.ready (hk : k.Linear n) : k.Ready := by
  have hlen : (linearCells k.cells.size n).length = k.cells.size := length_linearCells hk.le
  refine ⟨valid_of (fun x hx => ?_) (fun _ x hx => ?_) hk.cells ?_, hk.swa⟩
  · rcases mem_linearCells hx with ⟨p, -, rfl⟩ | rfl
    · exact good_cellAt p
    · exact KvCell.good_empty
  · rcases mem_linearCells hx with ⟨p, -, rfl⟩ | rfl <;> rfl
  · rw [hk.head, hlen]
    exact hk.le

theorem linear_new (size nPad nSwa : ℕ) : (new size nPad nSwa .none).Linear 0 where
  cells := by
    have hsize : (new size nPad nSwa .none).cells.size = size := List.length_replicate
    rw [hsize]
    exact reset_eq_of size
  head := rfl
  le := Nat.zero_le _
  swa := rfl

theorem usedOf_linearCells (hle : n ≤ size) : usedOf (linearCells size n) = Finset.range n := by
  ext i
  rw [mem_usedOf, Finset.mem_range]
  constructor
  · rintro ⟨x, hx, hpos⟩
    have hi : i < size := by
      rw [← length_linearCells hle]
      exact (List.getElem?_eq_some_iff.mp hx).1
    by_contra hni
    rw [getElem?_linearCells hi hle, if_neg hni] at hx
    obtain rfl := Option.some.inj hx
    exact hpos rfl
  · intro hi
    refine ⟨cellAt i, ?_, ?_⟩
    · rw [getElem?_linearCells (hi.trans_le hle) hle, if_pos hi]
    · simp [cellAt]

theorem Linear.getUsed (hk : k.Linear n) : k.cells.getUsed = n := by
  have hle := hk.le
  rw [hk.cells]
  exact (congrArg Finset.card (usedOf_linearCells hle)).trans (Finset.card_range n)

theorem Linear.compact (hk : k.Linear n) :
    usedOf k.cells.cells = Finset.range k.cells.getUsed := by
  rw [hk.getUsed, show k.cells.cells = linearCells k.cells.size n from
    congrArg KvCells.cells hk.cells]
  exact usedOf_linearCells hk.le

/-! ## Slots -/

theorem overwrite_linearCells (hle : n + m ≤ size) :
    (linearCells size n).take n ++ (List.range' n m).map cellAt ++
      (linearCells size n).drop (n + m) = linearCells size (n + m) := by
  have htake : (linearCells size n).take n = (List.range n).map cellAt :=
    List.take_left' (by simp)
  have hdrop : (linearCells size n).drop (n + m) = List.replicate (size - (n + m)) .empty := by
    rw [linearCells, List.drop_append, List.drop_eq_nil_of_le (by simp), List.nil_append,
      List.length_map, List.length_range, List.drop_replicate]
    congr 1
    omega
  have hrange : List.range n ++ List.range' n m = List.range (n + m) := by
    have h := List.range'_append_1 (s := 0) (m := n) (n := m)
    rw [Nat.zero_add] at h
    rwa [List.range_eq_range', List.range_eq_range']
  rw [htake, hdrop, ← List.map_append, hrange]
  rfl

theorem Linear.findSlot (hk : k.Linear n) (hm : 0 < m) :
    k.findSlot m = if n + m ≤ k.cells.size then some n else none := by
  have hvalid := hk.ready.toValid
  split_ifs with hle
  · have hslot : k.SlotAt m n := by
      refine (slotAt_iff_empty hvalid hk.swa).mpr ⟨hle, fun j hj => ?_⟩
      rw [show k.cells.cells = linearCells k.cells.size n from congrArg KvCells.cells hk.cells,
        getElem?_linearCells (by omega) hk.le, if_neg (by omega)]
    rw [KvCache.findSlot, if_neg (by omega), if_neg (by rw [hk.getUsed, hk.head]; omega), hk.head]
    exact WindowSearch.find_of_fits hslot
  · refine (findSlot_eq_none hvalid hm).mpr fun h hs => hle ?_
    have := getUsed_add_le hvalid hk.swa hs
    rwa [hk.getUsed] at this

theorem Linear.applyUbatch (hk : k.Linear n) (hle : n + tokens.length ≤ k.cells.size) :
    ∃ k', k.applyUbatch n (batchFrom n tokens) = some k' ∧ k'.Linear (n + tokens.length) ∧
      k'.cells.size = k.cells.size := by
  have hcells : k.cells.cells = linearCells k.cells.size n := congrArg KvCells.cells hk.cells
  have hfree : ∀ j < (batchFrom n tokens).length, k.cells.cells[n + j]? = some .empty :=
    fun j hj => by
      rw [length_batchFrom] at hj
      rw [hcells, getElem?_linearCells (by omega) hk.le, if_neg (by omega)]
  have hsize : (overwrite k.cells.cells n ((batchFrom n tokens).map UbatchToken.cell)).length =
      k.cells.size := length_overwrite ..
  have hover : overwrite k.cells.cells n ((batchFrom n tokens).map UbatchToken.cell) =
      linearCells k.cells.size (n + tokens.length) := by
    rw [hcells, cell_batchFrom, overwrite_eq (by simpa [hk.le] using hle), List.length_map,
      List.length_range']
    exact overwrite_linearCells hle
  have hshift : k.cells.hasShift = false := hk.unshifted
  refine ⟨_, applyUbatch_free hk.ready.toValid (batchFrom_good n tokens) hfree,
    ⟨?_, congrArg (n + ·) (length_batchFrom n tokens), hle.trans_eq hsize.symm, hk.swa⟩, hsize⟩
  rw [hshift, hover]
  exact congrArg (KvCells.of false) (by rw [of_size, length_linearCells hle])

/-! ## The batch -/

theorem zip_genPos (p0 : SeqId → ℤ) (hp0 : p0 0 = n) (tokens : List ℤ) :
    (tokens.zip ((LlamaBatch.genPos p0 (List.replicate tokens.length [0])).zip
      (List.replicate tokens.length [0]))).map (fun (t, p, s) => (⟨t, p, s⟩ : UbatchToken)) =
      batchFrom n tokens := by
  induction tokens generalizing p0 n with
  | nil => rfl
  | cons t tokens ih =>
      have hnext := ih (fun s => if s ∈ [0] then p0 0 + 1 else p0 s) (n := n + 1)
        (by simp [hp0])
      rw [batchFrom, ← hnext, ← hp0]
      rfl

theorem Linear.mem_positions (hk : k.Linear n) {s : SeqId} {p : ℤ} :
    p ∈ k.positions s ↔ s = 0 ∧ 0 ≤ p ∧ p < n := by
  have hcells : k.cells.cells = linearCells k.cells.size n := congrArg KvCells.cells hk.cells
  constructor
  · rintro ⟨q, hq, hs⟩
    obtain ⟨x, hx, hpos, rfl, rfl⟩ := mem_contents.mp hq
    rw [hcells] at hx
    rcases mem_linearCells hx with ⟨p, hp, rfl⟩ | rfl
    · exact ⟨Finset.mem_singleton.mp hs, Int.natCast_nonneg p, Int.ofNat_lt.mpr hp⟩
    · exact absurd rfl hpos
  · rintro ⟨rfl, h0, hlt⟩
    obtain ⟨p, rfl⟩ := Int.eq_ofNat_of_zero_le h0
    have hp : p < n := Int.ofNat_lt.mp hlt
    refine ⟨{0}, mem_contents.mpr ⟨cellAt p, ?_, ?_, rfl, rfl⟩, Finset.mem_singleton_self 0⟩
    · rw [hcells]
      refine List.mem_of_getElem? (i := p) ?_
      rw [getElem?_linearCells (hp.trans_le hk.le) hk.le, if_pos hp]
    · simp [cellAt]

theorem Linear.seqPosMax (hk : k.Linear n) : k.cells.seqPosMax 0 = (n : ℤ) - 1 := by
  rcases seqPos_spec hk.ready.toValid 0 with ⟨-, -, hgreatest⟩ | ⟨hempty, -, hmax⟩
  · obtain ⟨-, h0, hlt⟩ := hk.mem_positions.mp hgreatest.1
    have hlast : (n : ℤ) - 1 ∈ k.positions 0 := hk.mem_positions.mpr ⟨rfl, by omega, by omega⟩
    have := hgreatest.2 hlast
    omega
  · have hn : n = 0 := by
      by_contra hne
      have : ((0 : ℕ) : ℤ) ∈ k.positions 0 := hk.mem_positions.mpr ⟨rfl, le_rfl, by omega⟩
      rw [hempty] at this
      exact this
    rw [hmax, hn]
    rfl

theorem mem_seqPos_batchFrom {s : SeqId} {p : ℤ} (tokens : List ℤ) :
    p ∈ LlamaBatch.seqPos (batchFrom n tokens) s ↔ s = 0 ∧ n ≤ p ∧ p < n + tokens.length := by
  induction tokens generalizing n with
  | nil => simp [LlamaBatch.seqPos, batchFrom]
  | cons t tokens ih =>
      have hmem : p ∈ LlamaBatch.seqPos (batchFrom n (t :: tokens)) s ↔
          s = 0 ∧ p = n ∨ p ∈ LlamaBatch.seqPos (batchFrom (n + 1) tokens) s := by
        by_cases hs : s = 0 <;> simp [LlamaBatch.seqPos, batchFrom, hs, eq_comm]
      rw [hmem, ih, List.length_cons, ← and_or_left]
      refine and_congr_right fun _ => ?_
      push_cast
      omega

/-- `init` accepts valid tokens and puts them behind those in the cache. -/
theorem init_linear (hk : k.Linear n) {nVocab : ℕ} (htokens : ∀ t ∈ tokens, 0 ≤ t ∧ t < nVocab) :
    (LlamaBatch.getOne tokens).init k nVocab = some (batchFrom n tokens) := by
  have hmax := hk.seqPosMax
  refine (LlamaBatch.init_eq_some_iff hk.ready.toValid (LlamaBatch.wellFormed_getOne tokens)).mpr
    ⟨htokens, ⟨_, rfl, (zip_genPos _ (by rw [hmax]; omega) tokens).symm⟩, fun s => ?_,
      fun t ht => ?_⟩
  · by_cases hs : s = 0 ∧ tokens ≠ []
    · obtain ⟨rfl, hne⟩ := hs
      have hpos := List.length_pos_iff.mpr hne
      refine .inr ⟨n, n + tokens.length - 1, by omega, Finset.ext fun p => ?_, fun _ => by omega⟩
      rw [mem_seqPos_batchFrom, Finset.mem_Icc, and_iff_right rfl]
      omega
    · refine .inl (Finset.eq_empty_iff_forall_notMem.mpr fun p hp => hs ?_)
      obtain ⟨h0, hge, hlt⟩ := (mem_seqPos_batchFrom tokens).mp hp
      exact ⟨h0, fun hnil => by simp [hnil] at hlt; omega⟩
  · have hids : t.seqId = [0] := seqId_batchFrom ht
    rw [hids]
    intro s hs s' hs'
    rw [List.mem_singleton.mp hs, List.mem_singleton.mp hs']
    exact ⟨rfl, rfl⟩

theorem init_invalid {nVocab : ℕ} (htokens : ¬∀ t ∈ tokens, 0 ≤ t ∧ t < nVocab) :
    (LlamaBatch.getOne tokens).init k nVocab = none := by
  by_contra hne
  obtain ⟨toks, hinit⟩ := Option.ne_none_iff_exists'.mp hne
  exact htokens (guard_bind_eq_some.mp hinit).1

/-! ## Ubatches -/

theorem batchFrom_take (c : ℕ) : (batchFrom n tokens).take c = batchFrom n (tokens.take c) := by
  induction tokens generalizing n c with
  | nil => simp [batchFrom]
  | cons t tokens ih =>
      cases c with
      | zero => rfl
      | succ c => exact congrArg (_ :: ·) (ih c)

theorem batchFrom_drop (c : ℕ) :
    (batchFrom n tokens).drop c = batchFrom (n + c) (tokens.drop c) := by
  induction tokens generalizing n c with
  | nil => simp [batchFrom]
  | cons t tokens ih =>
      cases c with
      | zero => rfl
      | succ c =>
          rw [List.drop_succ_cons, batchFrom, List.drop_succ_cons, ih]
          congr 1
          omega

theorem splitAll_batchFrom {nUbatch fuel : ℕ} (hne : tokens ≠ []) :
    LlamaBatch.splitAll nUbatch (fuel + 1) (batchFrom n tokens) =
      batchFrom n (tokens.take (max nUbatch 1)) ::
        LlamaBatch.splitAll nUbatch fuel
          (batchFrom (n + (tokens.take (max nUbatch 1)).length)
            (tokens.drop (max nUbatch 1))) := by
  have hne' : batchFrom n tokens ≠ [] := fun h => hne (by
    have := congrArg List.length h
    rwa [length_batchFrom, List.length_nil, List.length_eq_zero_iff] at this)
  rw [LlamaBatch.splitAll, if_neg hne', batchFrom_take, batchFrom_drop, List.length_take]
  by_cases hle : max nUbatch 1 ≤ tokens.length
  · rw [Nat.min_eq_left hle]
  · rw [List.drop_eq_nil_of_le (Nat.le_of_not_le hle)]
    rfl

/-- The ubatches of a batch find slots exactly where all of it fits. -/
theorem Linear.slots (hk : k.Linear n) (tokens : List ℤ) (nUbatch : ℕ) {fuel : ℕ}
    (hfuel : tokens.length ≤ fuel) :
    (n + tokens.length ≤ k.cells.size → ∃ heads,
      k.slots (LlamaBatch.splitAll nUbatch fuel (batchFrom n tokens)) = some heads ∧
        (tokens ≠ [] → heads ≠ [])) ∧
    (k.cells.size < n + tokens.length →
      k.slots (LlamaBatch.splitAll nUbatch fuel (batchFrom n tokens)) = none) := by
  induction fuel generalizing k n tokens with
  | zero =>
      obtain rfl := List.length_eq_zero_iff.mp (Nat.le_zero.mp hfuel)
      have hle := hk.le
      exact ⟨fun _ => ⟨[], rfl, fun h => absurd rfl h⟩, fun h => by simp at h; omega⟩
  | succ fuel ih =>
      by_cases hne : tokens = []
      · subst hne
        have hle := hk.le
        exact ⟨fun _ => ⟨[], rfl, fun h => absurd rfl h⟩, fun h => by simp at h; omega⟩
      have hpos := List.length_pos_iff.mpr hne
      have htake : (tokens.take (max nUbatch 1)).length = min (max nUbatch 1) tokens.length :=
        List.length_take
      have hdrop : (tokens.drop (max nUbatch 1)).length = tokens.length - max nUbatch 1 :=
        List.length_drop
      rw [splitAll_batchFrom hne, KvCache.slots, length_batchFrom, hk.findSlot (by omega)]
      by_cases hfit : n + (tokens.take (max nUbatch 1)).length ≤ k.cells.size
      · obtain ⟨k', hk', hlinear, hsize⟩ := hk.applyUbatch hfit
        obtain ⟨hyes, hno⟩ := ih hlinear (tokens.drop (max nUbatch 1)) (by omega)
        rw [hsize, hdrop] at hyes hno
        rw [if_pos hfit, Option.bind_eq_bind, Option.bind_some, hk', Option.bind_eq_bind,
          Option.bind_some]
        refine ⟨fun h => ?_, fun h => ?_⟩
        · obtain ⟨heads, hheads, -⟩ := hyes (by omega)
          exact ⟨n :: heads, by rw [hheads]; rfl, fun _ => List.cons_ne_nil _ _⟩
        · rw [hno (by omega)]
          rfl
      · rw [if_neg hfit]
        exact ⟨fun h => absurd (by omega) hfit, fun _ => rfl⟩

/-! ## Removal -/

theorem inRange_cellAt {p : ℕ} (hp : (p : ℤ) < posMax) :
    (cellAt p).InRange n posMax ↔ ¬p < n := by
  simp [KvCell.InRange, cellAt, hp]

theorem remove_cellAt {p : ℕ} (hp : (p : ℤ) < posMax) :
    (cellAt p).remove n posMax (some 0) = if p < n then cellAt p else .empty := by
  by_cases h : p < n
  · rw [if_pos h, KvCell.remove, KvCell.onRange, if_neg fun hc => (inRange_cellAt hp).mp hc.1 h]
  · have hmem : (cellAt p).InRange n posMax ∧ 0 ∈ (cellAt p).seq :=
      ⟨(inRange_cellAt hp).mpr h, Finset.mem_singleton_self 0⟩
    rw [if_neg h, KvCell.remove, KvCell.onRange, if_pos hmem, KvCell.without, if_pos]
    exact Finset.erase_singleton 0

theorem freed_cellAt {p : ℕ} (hp : (p : ℤ) < posMax) :
    (cellAt p).freed n posMax (some 0) = !decide (p < n) := by
  rw [KvCell.freed, ← decide_not]
  exact decide_eq_decide.mpr ((and_iff_left ⟨Finset.mem_singleton_self 0,
    Finset.erase_singleton 0⟩).trans (inRange_cellAt hp))

theorem Linear.seqRm (hk : k.Linear (n + m)) (hm : 0 < m) (hsize : k.cells.size < 2 ^ 31) :
    ∃ k', k.seqRm (some 0) n (-1) = some k' ∧ k'.Linear n ∧ k'.cells.size = k.cells.size := by
  have hle := hk.le
  have hvalid := hk.ready.toValid
  have hbounds : bounds n (-1) = ((n : ℤ), posMax) := by simp [bounds]
  have hposMax : ∀ p : ℕ, p < n + m → (p : ℤ) < posMax := fun p hp => by
    rw [posMax]
    omega
  have hget : ∀ i < k.cells.size, (linearCells k.cells.size (n + m))[i]? =
      some (if i < n + m then cellAt i else .empty) := fun i hi => getElem?_linearCells hi hle
  have hlen : (linearCells k.cells.size (n + m)).length = k.cells.size := length_linearCells hle
  have hcells : (linearCells k.cells.size (n + m)).map
      (fun x => x.remove n posMax (some 0)) = linearCells k.cells.size n := by
    refine List.ext_getElem? fun i => ?_
    by_cases hi : i < k.cells.size
    · rw [List.getElem?_map, hget i hi, getElem?_linearCells hi (by omega), Option.map_some]
      split_ifs with h1 h2
      · rw [remove_cellAt (hposMax i h1), if_pos h2]
      · rw [remove_cellAt (hposMax i h1), if_neg h2]
      · omega
      · rw [KvCell.remove, KvCell.onRange, if_neg]
        exact fun h => Finset.notMem_empty 0 h.2
    · rw [List.getElem?_eq_none (by rw [List.length_map, hlen]; omega),
        List.getElem?_eq_none (by rw [length_linearCells (by omega)]; omega)]
  have hfind : (linearCells k.cells.size (n + m)).findIdx
      (fun x => x.freed n posMax (some 0)) = n := by
    refine (List.findIdx_eq (by rw [hlen]; omega)).mpr ⟨?_, fun j hj => ?_⟩
    · obtain ⟨_, hn⟩ := List.getElem?_eq_some_iff.mp (hget n (by omega))
      rw [hn, if_pos (by omega), freed_cellAt (hposMax n (by omega))]
      simp
    · obtain ⟨_, hj'⟩ := List.getElem?_eq_some_iff.mp (hget j (by omega))
      rw [hj', if_pos (by omega), freed_cellAt (hposMax j (by omega))]
      simpa using hj
  have hrm := seqRm_of hk.cells (fun x hx => hvalid.cells x (by
    rw [show k.cells.cells = linearCells k.cells.size (n + m) from congrArg KvCells.cells hk.cells]
    exact hx)) (by rw [hlen, hk.head]; exact hle) (some 0) n (-1)
  rw [hbounds] at hrm
  simp only at hrm
  rw [hcells, hfind, hk.head, Nat.min_eq_right (Nat.le_add_right n m)] at hrm
  have hsize' : (linearCells k.cells.size n).length = k.cells.size :=
    length_linearCells (by omega)
  refine ⟨_, hrm, ⟨?_, rfl, ?_, hk.swa⟩, hsize'⟩
  · exact congrArg (fun size => KvCells.of false (linearCells size n)) hsize'.symm
  · exact (by omega : n ≤ k.cells.size).trans_eq hsize'.symm

end KvCache

namespace LlamaContext

open KvCache

variable {k k' : KvCache} {n size : ℕ} {tokens : List ℤ} {heads : List ℕ}

theorem foldl_min_batchFrom (a : ℤ) (hne : tokens ≠ []) :
    ((batchFrom n tokens).map UbatchToken.pos).foldl min a = min a n := by
  induction tokens generalizing a n with
  | nil => exact absurd rfl hne
  | cons t tokens ih =>
      rw [batchFrom, List.map_cons, List.foldl_cons]
      by_cases hnil : tokens = []
      · subst hnil
        rfl
      · rw [ih _ hnil]
        push_cast
        omega

theorem posMin_batchFrom (hne : tokens ≠ []) (hn : (n : ℤ) < posMax) :
    posMin (batchFrom n tokens) 0 = n := by
  have hfilter : (batchFrom n tokens).filter (fun t => t.seqId.head? = some 0) =
      batchFrom n tokens := by
    refine List.filter_eq_self.mpr fun t ht => ?_
    rw [seqId_batchFrom ht]
    rfl
  rw [posMin, hfilter, foldl_min_batchFrom _ hne, min_eq_right hn.le]

theorem posMin_other {s : SeqId} (hs : s ≠ 0) : posMin (batchFrom n tokens) s = posMax := by
  have hfilter : (batchFrom n tokens).filter (fun t => t.seqId.head? = some s) = [] := by
    refine List.filter_eq_nil_iff.mpr fun t ht => ?_
    rw [seqId_batchFrom ht]
    simpa using hs.symm
  rw [posMin, hfilter]
  rfl

theorem removeUbatch_linear (hk : k.Linear (n + tokens.length)) (hne : tokens ≠ [])
    (hsize : k.cells.size < 2 ^ 31) :
    ∃ k', removeUbatch k (batchFrom n tokens) = some k' ∧ k'.Linear n ∧
      k'.cells.size = k.cells.size := by
  have hle := hk.le
  have hpos := List.length_pos_iff.mpr hne
  have hn : (n : ℤ) < posMax := by
    rw [posMax]
    omega
  obtain ⟨k', hk', hlinear, hsize'⟩ := hk.seqRm hpos hsize
  refine ⟨k', ?_, hlinear, hsize'⟩
  have hrest : ∀ (ss : List SeqId) (k : KvCache), (∀ s ∈ ss, s ≠ 0) →
      ss.foldlM (fun k s => if posMin (batchFrom n tokens) s = posMax then some k
        else k.seqRm (some s) (posMin (batchFrom n tokens) s) (-1)) k = some k := by
    intro ss k hss
    induction ss with
    | nil => rfl
    | cons s ss ih =>
        obtain ⟨hs, hss⟩ := List.forall_mem_cons.mp hss
        rw [List.foldlM_cons, if_pos (posMin_other hs)]
        exact ih hss
  have hfirst : List.finRange 64 = 0 :: (List.finRange 63).map Fin.succ := List.finRange_succ
  rw [removeUbatch, hfirst, List.foldlM_cons, posMin_batchFrom hne hn, if_neg (by omega), hk']
  exact hrest _ k' (List.forall_mem_map.mpr fun s _ => Fin.succ_ne_zero s)

/-! ## `decode` -/

/-- What `decode` returns for a batch of `tokens` behind `n` others, and how many are cached
then. A ubatch that fails is taken back, those before it stay. -/
inductive Outcome (c : LlamaContext) (n : ℕ) (tokens : List ℤ) (a : DecodeAnswer) : ℤ → ℕ → Prop
  | rejected (h : tokens = [] ∨ ¬∀ t ∈ tokens, 0 ≤ t ∧ t < c.nVocab) : Outcome c n tokens a (-1) n
  | full (htokens : ∀ t ∈ tokens, 0 ≤ t ∧ t < c.nVocab)
      (h : c.memory.cells.size < n + tokens.length) : Outcome c n tokens a 1 n
  | unreserved (h : a.reserved = false) (hfit : n + tokens.length ≤ c.memory.cells.size) :
      Outcome c n tokens a (-2) n
  | done (h : ∀ j, j * max c.nUbatch 1 < tokens.length → a.status j = .success)
      (hfit : n + tokens.length ≤ c.memory.cells.size) : Outcome c n tokens a 0 (n + tokens.length)
  | stopped (j : ℕ) (hj : j * max c.nUbatch 1 < tokens.length)
      (hbefore : ∀ j' < j, a.status j' = .success) (h : a.status j ≠ .success)
      (hfit : n + tokens.length ≤ c.memory.cells.size) :
      Outcome c n tokens a (failureCode (a.status j)) (n + j * max c.nUbatch 1)

theorem processAll_linear (hk : k.Linear n) (hsize : k.cells.size < 2 ^ 31)
    (hfit : n + tokens.length ≤ k.cells.size) (status : ℕ → GgmlStatus) (i : ℕ) {nUbatch fuel : ℕ}
    (hfuel : tokens.length ≤ fuel)
    (hslots : k.slots (LlamaBatch.splitAll nUbatch fuel (batchFrom n tokens)) = some heads) :
    ∃ r k' n', processAll k status i heads
        (LlamaBatch.splitAll nUbatch fuel (batchFrom n tokens)) = some (r, k') ∧
      k'.Linear n' ∧ k'.cells.size = k.cells.size ∧
      (r = 0 ∧ n' = n + tokens.length ∧
          (∀ j, j * max nUbatch 1 < tokens.length → status (i + j) = .success) ∨
        ∃ j, j * max nUbatch 1 < tokens.length ∧ (∀ j' < j, status (i + j') = .success) ∧
          status (i + j) ≠ .success ∧ r = failureCode (status (i + j)) ∧
          n' = n + j * max nUbatch 1) := by
  induction fuel generalizing k n tokens heads i with
  | zero =>
      obtain rfl := List.length_eq_zero_iff.mp (Nat.le_zero.mp hfuel)
      obtain rfl := Option.some.inj hslots
      exact ⟨0, k, n, rfl, hk, rfl, .inl ⟨rfl, rfl, by simp⟩⟩
  | succ fuel ih =>
      by_cases hne : tokens = []
      · subst hne
        obtain rfl := Option.some.inj hslots
        exact ⟨0, k, n, rfl, hk, rfl, .inl ⟨rfl, rfl, by simp⟩⟩
      have hpos := List.length_pos_iff.mpr hne
      have hc : 0 < max nUbatch 1 := Nat.lt_of_lt_of_le Nat.one_pos (le_max_right _ _)
      generalize hcdef : max nUbatch 1 = c at *
      have htake : (tokens.take c).length = min c tokens.length := List.length_take
      have hdrop : (tokens.drop c).length = tokens.length - c := List.length_drop
      have htakene : tokens.take c ≠ [] := fun h => by
        rw [h, List.length_nil] at htake
        omega
      rw [splitAll_batchFrom hne, hcdef] at hslots ⊢
      rw [KvCache.slots, length_batchFrom, hk.findSlot (by omega), if_pos (by omega)] at hslots
      have hfit₁ : n + (tokens.take c).length ≤ k.cells.size := by omega
      obtain ⟨k₁, hk₁, hlinear₁, hsize₁⟩ := hk.applyUbatch hfit₁
      rw [Option.bind_eq_bind, Option.bind_some, hk₁, Option.bind_eq_bind, Option.bind_some]
        at hslots
      obtain ⟨heads, hheads, hcons⟩ := Option.bind_eq_some_iff.mp hslots
      obtain rfl := Option.some.inj hcons
      by_cases hst : status i = .success
      · obtain ⟨r, k', n', hproc, hlinear', hsize', hcase⟩ :=
          ih hlinear₁ (hsize₁ ▸ hsize) (by omega) (i + 1) (by omega) hheads
        refine ⟨r, k', n', ?_, hlinear', hsize'.trans hsize₁, ?_⟩
        · simp only [processAll, hk₁, Option.bind_eq_bind, Option.bind_some, if_pos hst, hproc]
        · have hshift : ∀ j, i + 1 + j = i + (j + 1) := fun j => by omega
          have hmul : ∀ j, (j + 1) * c = j * c + c := fun j => Nat.succ_mul j c
          rcases hcase with ⟨hr, hn', hall⟩ | ⟨j, hj, hbefore, hfail, hr, hn'⟩
          · refine .inl ⟨hr, by omega, fun j hj => ?_⟩
            cases j with
            | zero => exact hst
            | succ j =>
                rw [hmul] at hj
                rw [← hshift]
                exact hall j (by omega)
          · rw [hshift] at hfail hr
            refine .inr ⟨j + 1, by rw [hmul]; omega, fun j' hj' => ?_, hfail, hr, by
              rw [hmul]; omega⟩
            cases j' with
            | zero => exact hst
            | succ j' =>
                rw [← hshift]
                exact hbefore j' (by omega)
      · obtain ⟨k', hk', hlinear', hsize'⟩ :=
          removeUbatch_linear hlinear₁ htakene (hsize₁ ▸ hsize)
        refine ⟨failureCode (status i), k', n, ?_, hlinear', hsize'.trans hsize₁, .inr ⟨0, ?_⟩⟩
        · simp only [processAll, hk₁, Option.bind_eq_bind, Option.bind_some, if_neg hst, hk']
          rfl
        · exact ⟨by omega, by simp, hst, rfl, by omega⟩

theorem kvSelfUpdate_linear (hk : k.Linear n) (optimize shifted : Bool) (maxMoves : ℕ) :
    kvSelfUpdate k optimize shifted maxMoves = some (false, k) := by
  have hids : (if optimize then k.defragPrepare maxMoves else some []) = some [] := by
    cases optimize with
    | true => exact defragPrepare_compact hk.ready.toValid maxMoves hk.compact
    | false => rfl
  rw [kvSelfUpdate_eq shifted optimize maxMoves hids, if_pos ⟨by rw [hk.unshifted]; rfl, rfl⟩]

/-- `decode` of `llama_batch_get_one` on a context that decoded nothing else. -/
theorem decode_linear {c : LlamaContext} (hk : c.memory.Linear n)
    (hsize : c.memory.cells.size < 2 ^ 31) (tokens : List ℤ) (hle : tokens.length ≤ c.nBatch)
    (a : DecodeAnswer) :
    ∃ r k' n', c.decode (.getOne tokens) a = some (r, { c with memory := k' }) ∧ k'.Linear n' ∧
      k'.cells.size = c.memory.cells.size ∧ Outcome c n tokens a r n' := by
  by_cases hne : tokens = []
  · exact ⟨-1, c.memory, n, decode_rejected (.inl hne), hk, rfl, .rejected (.inl hne)⟩
  by_cases htokens : ∀ t ∈ tokens, 0 ≤ t ∧ t < c.nVocab
  swap
  · exact ⟨-1, c.memory, n, decode_rejected (.inr (init_invalid htokens)), hk, rfl,
      .rejected (.inr htokens)⟩
  have hready := hk.ready
  have hlen : tokens.length ≤ (batchFrom n tokens).length := (length_batchFrom n tokens).ge
  have hle' : (batchFrom n tokens).length ≤ c.nBatch := (length_batchFrom n tokens).trans_le hle
  generalize hus : LlamaBatch.splitAll c.nUbatch (batchFrom n tokens).length
    (batchFrom n tokens) = us
  have hgood : ∀ u ∈ us, ∀ t ∈ u, t.Good := fun u hu t ht =>
    batchFrom_good n tokens t ((LlamaBatch.mem_splitAll (hus ▸ hu)).2.2 t ht)
  obtain ⟨hprep, -⟩ := prepare_restores hready.toValid hready.swa hgood
  obtain ⟨hyes, hno⟩ := hk.slots tokens c.nUbatch hlen
  rw [hus] at hyes hno
  have hupdate := fun optimize => kvSelfUpdate_linear hk optimize a.shifted c.maxMoves
  have hinit := init_linear hk htokens
  by_cases hfit : n + tokens.length ≤ c.memory.cells.size
  · obtain ⟨heads, hslots, hheads⟩ := hyes hfit
    rw [hslots, Option.getD_some] at hprep
    have hinitBatch : initBatch c.memory us a.shifted c.maxMoves = some (heads, c.memory) := by
      simp [initBatch, hprep, hheads hne]
    rw [← hus] at hinitBatch hslots
    rw [decode_accepted hne hinit hle' (hupdate a.optimize) hinitBatch, if_neg (hheads hne)]
    cases hres : a.reserved with
    | false => exact ⟨-2, c.memory, n, rfl, hk, rfl, .unreserved hres hfit⟩
    | true =>
        obtain ⟨r, k', n', hproc, hlinear, hsize', hcase⟩ :=
          processAll_linear hk hsize hfit a.status 0 hlen hslots
        refine ⟨r, k', n', by rw [hproc]; rfl, hlinear, hsize', ?_⟩
        simp only [Nat.zero_add] at hcase
        rcases hcase with ⟨rfl, rfl, hall⟩ | ⟨j, hj, hbefore, hfail, rfl, rfl⟩
        · exact .done hall hfit
        · exact .stopped j hj hbefore hfail hfit
  · rw [hno (not_le.mp hfit), Option.getD_none] at hprep
    have hinitBatch : initBatch c.memory us a.shifted c.maxMoves = some ([], c.memory) := by
      simp [initBatch, hprep, hupdate true]
    rw [← hus] at hinitBatch
    rw [decode_accepted hne hinit hle' (hupdate a.optimize) hinitBatch, if_pos rfl]
    exact ⟨1, c.memory, n, rfl, hk, rfl, .full htokens (not_le.mp hfit)⟩

end LlamaContext

end SmollChat
