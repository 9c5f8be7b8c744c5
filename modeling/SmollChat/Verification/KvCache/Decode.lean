import SmollChat.Verification.KvCache.Batch
import SmollChat.Verification.KvCache.Defrag
import SmollChat.Verification.KvCache.Contents

/-! # Decoding a batch

The contents of a cache are the positions and sequences of its used cells, in no order.
`decode` adds the tokens of its batch to them or leaves them as they are; only a ubatch that
fails lets a part of the batch stay. -/

namespace SmollChat

open KvCells

namespace KvCache

variable {k k' : KvCache} {l : List KvCell} {b : Bool} {u : Ubatch} {us : List Ubatch}
  {heads : List ℕ}

/-! ## A cache between two calls -/

/-- A valid cache without a sliding window, as `create_memory` makes it for a context of its
own. -/
structure Ready (k : KvCache) : Prop extends Valid k where
  swa : k.swaType = .none

theorem ready_new (kvSize nPad nSwa : ℕ) : (new kvSize nPad nSwa .none).Ready :=
  ⟨valid_new .., rfl⟩

theorem Ready.of_frame (hk : k.Ready) (hvalid : k'.Valid) (hframe : k.SameFrame k') : k'.Ready :=
  ⟨hvalid, hframe.swaType.trans hk.swa⟩

/-- A ubatch placed in a slot is added to the contents. -/
theorem Ready.applyUbatch {h : ℕ} (hk : k.Ready) (hu : ∀ t ∈ u, t.Good)
    (hs : k.SlotAt u.length h) :
    ∃ k', k.applyUbatch h u = some k' ∧ k'.Ready ∧ k.SameFrame k' ∧
      k'.contents = k.contents + entries u := by
  obtain ⟨k', hk', hvalid, hframe, -⟩ := applyUbatch_spec hk.toValid hs hu
  obtain ⟨hle, hfree⟩ := (slotAt_iff_empty hk.toValid hk.swa).mp hs
  refine ⟨k', hk', hk.of_frame hvalid hframe, hframe, ?_⟩
  obtain rfl := Option.some.inj (hk'.symm.trans (applyUbatch_free hk.toValid hu hfree))
  have hover := contentsOf_overwrite (u.map UbatchToken.cell) (l := k.cells.cells) (h := h)
    (by rw [List.length_map]; exact hle) fun j hj => hfree j (by simpa using hj)
  rwa [contentsOf_cell hu] at hover

theorem Ready.prepare (hk : k.Ready) (hus : ∀ u ∈ us, ∀ t ∈ u, t.Good) :
    ∃ heads, k.prepare us = some (heads, k) ∧ (heads ≠ [] → k.Placeable heads us) := by
  obtain ⟨hprep, hplace⟩ := prepare_restores hk.toValid hk.swa hus
  refine ⟨_, hprep, fun hne => ?_⟩
  cases hslots : k.slots us with
  | none => exact absurd (by rw [hslots]; rfl) hne
  | some heads => exact hplace heads hslots

theorem movable_map {f : KvCell → KvCell} {n used i : ℕ} {rest : List ℕ}
    (hpos : ∀ x, (f x).pos = x.pos) (hempty : f .empty = .empty) (hm : Movable l n used i rest) :
    Movable (l.map f) n used i rest := by
  refine ⟨fun j t hj => ?_, hm.inj⟩
  obtain ⟨hle, hcase⟩ := hm.target j t hj
  refine ⟨hle, hcase.imp_right fun h => h.imp_right ?_⟩
  rintro ⟨hused, htlt, ⟨x, hx, hxpos⟩, hfree⟩
  refine ⟨hused, htlt, ⟨f x, by rw [List.getElem?_map, hx]; rfl, by rwa [hpos]⟩, ?_⟩
  rw [List.getElem?_map, hfree, Option.map_some, hempty]

/-- A rearrangement of valid cells, with the head put back, is a valid cache. -/
theorem valid_of_perm {l' : List KvCell} {head : ℕ} (hk : k.Valid) (hperm : l'.Perm k.cells.cells)
    (hhead : head ≤ k.cells.size) :
    { k with cells := .of k.cells.hasShift l', head := head }.Valid :=
  valid_of (fun x hx => hk.cells x (hperm.mem_iff.mp hx))
    (fun hb x hx => hk.shift hb x (hperm.mem_iff.mp hx)) rfl (hhead.trans_eq hperm.length_eq.symm)

/-- The moves of a defragmentation, after the shifts are applied. -/
theorem update_spec (hk : k.Valid) {maxMoves : ℕ} {ids : List ℕ}
    (hids : k.defragPrepare maxMoves = some ids ∨ ids = []) :
    ∃ k', k.update k.cells.hasShift true ids = some k' ∧ k'.Valid ∧ k'.cells.hasShift = false ∧
      k'.swaType = k.swaType ∧ k'.cells.size = k.cells.size ∧ k'.contents = k.contents := by
  let k₁ : KvCache := if k.cells.hasShift then { k with cells := k.cells.resetShift } else k
  let l₁ := if k.cells.hasShift then k.cells.cells.map (fun x => { x with shift := 0 })
    else k.cells.cells
  have hk₁ : k₁.Valid := by
    by_cases hs : k.cells.hasShift = true
    · simp only [k₁, if_pos hs]
      exact hk.resetShift
    · simpa only [k₁, if_neg hs] using hk
  have hcells : k₁.cells.cells = l₁ := by
    by_cases hs : k.cells.hasShift = true <;> simp [k₁, l₁, hs, KvCells.resetShift]
  have hshift : k₁.cells.hasShift = false := by
    by_cases hs : k.cells.hasShift = true
    · simp [k₁, hs, KvCells.resetShift]
    · simpa only [k₁, if_neg hs, Bool.not_eq_true] using hs
  have hcontents : k₁.contents = k.contents := by
    rw [contents, hcells]
    by_cases hs : k.cells.hasShift = true
    · simp only [l₁, if_pos hs]
      exact contentsOf_map (f := fun x => { x with shift := 0 }) (fun _ => ⟨rfl, rfl⟩) k.cells.cells
    · simp [l₁, hs, contents]
  have hsize : k₁.cells.size = k.cells.size := by
    by_cases hs : k.cells.hasShift = true <;> simp [k₁, hs, KvCells.resetShift, KvCells.size]
  have hswa : k₁.swaType = k.swaType := by
    by_cases hs : k.cells.hasShift = true <;> simp [k₁, hs]
  have hupdate : k.update k.cells.hasShift true ids = (if ids = [] then some k₁ else do
      return { k₁ with cells := ← applyMoves k₁.cells ids.length 0 ids, head := 0 }) := by
    simp [update, k₁]
  by_cases hne : ids = []
  · exact ⟨k₁, by rw [hupdate, if_pos hne], hk₁, hshift, hswa, hsize, hcontents⟩
  · obtain ⟨ids', hids', -, hspec⟩ := defragPrepare_spec hk maxMoves
    obtain rfl := Option.some.inj (hids'.symm.trans (hids.resolve_right hne))
    obtain ⟨htargets, hmovable, -⟩ := hspec hne
    have hmovable₁ : Movable k₁.cells.cells k.cells.usedMaxP1 k.cells.getUsed 0 ids' := by
      rw [hcells]
      by_cases hs : k.cells.hasShift = true
      · simp only [l₁, if_pos hs]
        exact movable_map (f := fun x => { x with shift := 0 }) (fun _ => rfl) rfl hmovable
      · simpa only [l₁, if_neg hs] using hmovable
    have hused : k.cells.getUsed ≤ k.cells.usedMaxP1 := by
      rw [hk.indexes]
      exact getUsed_le
    obtain ⟨l', happly, hperm, -⟩ := applyMoves_of (b := k₁.cells.hasShift) hused hmovable₁
    rw [← hk₁.indexes] at happly
    refine ⟨{ k₁ with cells := .of k₁.cells.hasShift l', head := 0 }, ?_,
      valid_of_perm hk₁ hperm (Nat.zero_le _), hshift, hswa, ?_, ?_⟩
    · rw [hupdate, if_neg hne, htargets.length, happly]
      rfl
    · exact (hperm.length_eq).trans hsize
    · exact (contentsOf_perm hperm).trans hcontents

/-! ## Room for a ubatch -/

theorem getUsed_add_le {n h : ℕ} (hk : k.Valid) (hswa : k.swaType = .none) (hs : k.SlotAt n h) :
    k.cells.getUsed + n ≤ k.cells.size := by
  obtain ⟨hle, hfree⟩ := (slotAt_iff_empty hk hswa).mp hs
  have hused : k.cells.used = usedOf k.cells.cells := congrArg KvCells.used hk.indexes
  have hdisj : Disjoint k.cells.used (Finset.Ico h (h + n)) := by
    refine Finset.disjoint_left.mpr fun i hi hin => ?_
    rw [hused] at hi
    obtain ⟨x, hx, hpos⟩ := mem_usedOf.mp hi
    obtain ⟨hge, hlt⟩ := Finset.mem_Ico.mp hin
    have hempty := hfree (i - h) (by omega)
    rw [Nat.add_sub_cancel' hge, hx] at hempty
    exact hpos (by rw [Option.some.inj hempty, KvCell.empty_pos])
  have hsub : k.cells.used ∪ Finset.Ico h (h + n) ⊆ Finset.range k.cells.size := by
    refine Finset.union_subset (fun i hi => ?_) fun i hi => ?_
    · rw [hused] at hi
      obtain ⟨x, hx, -⟩ := mem_usedOf.mp hi
      exact Finset.mem_range.mpr (List.getElem?_eq_some_iff.mp hx).1
    · exact Finset.mem_range.mpr ((Finset.mem_Ico.mp hi).2.trans_le hle)
  have hcard := Finset.card_le_card hsub
  rw [Finset.card_union_of_disjoint hdisj, Finset.card_range, Nat.card_Ico,
    Nat.add_sub_cancel_left] at hcard
  exact hcard

/-- Behind cells used without a gap there is a slot for whatever fits. -/
theorem slotAt_of_compact {n : ℕ} (hk : k.Valid) (hswa : k.swaType = .none)
    (hcompact : usedOf k.cells.cells = Finset.range k.cells.getUsed)
    (hle : k.cells.getUsed + n ≤ k.cells.size) : k.SlotAt n k.cells.getUsed := by
  refine (slotAt_iff_empty hk hswa).mpr ⟨hle, fun j hj => ?_⟩
  have hlt : k.cells.getUsed + j < k.cells.cells.length := (Nat.add_lt_add_left hj _).trans_le hle
  have hx := List.getElem?_eq_getElem hlt
  have hnot : k.cells.getUsed + j ∉ usedOf k.cells.cells := by
    rw [hcompact, Finset.mem_range]
    omega
  rw [hx, (hk.cells _ (List.mem_of_getElem? hx)).free]
  by_contra hpos
  exact hnot (mem_usedOf.mpr ⟨_, hx, hpos⟩)

/-- A single ubatch gets its slot wherever there is one. -/
theorem prepare_one (hk : k.Ready) (hu : ∀ t ∈ u, t.Good) (hne : u ≠ []) :
    ∃ heads, k.prepare [u] = some (heads, k) ∧ (heads ≠ [] ↔ ∃ h, k.SlotAt u.length h) := by
  obtain ⟨hprep, hplace⟩ := prepare_restores hk.toValid hk.swa
    (List.forall_mem_singleton.mpr hu)
  refine ⟨_, hprep, fun hheads => ?_, fun ⟨h, hs⟩ => ?_⟩
  · cases hslots : k.slots [u] with
    | none => exact absurd (by rw [hslots]; rfl) hheads
    | some heads =>
        cases heads with
        | nil => exact (hplace [] hslots).elim
        | cons h heads => exact ⟨h, (hplace _ hslots).1⟩
  · have hsome : k.findSlot u.length ≠ none := fun hnone =>
      (findSlot_eq_none hk.toValid (List.length_pos_iff.mpr hne)).mp hnone h hs
    obtain ⟨h', hf⟩ := Option.ne_none_iff_exists'.mp hsome
    obtain ⟨k', hk', -⟩ := hk.applyUbatch hu (findSlot_slotAt hf)
    simp [slots, hf, hk']

theorem getUsed_eq_card (hk : k.Valid) : k.cells.getUsed = k.contents.card := by
  have hused : k.cells.used = usedOf k.cells.cells := congrArg KvCells.used hk.indexes
  rw [getUsed, hused, card_usedOf, List.countP_eq_length_filter, contents, contentsOf,
    Multiset.coe_card, List.length_map]

end KvCache

namespace LlamaContext

open KvCache

variable {k k' : KvCache} {u : Ubatch} {us : List Ubatch} {heads : List ℕ}

theorem kvSelfUpdate_eq (shifted optimize : Bool) (maxMoves : ℕ) {ids : List ℕ}
    (hids : (if optimize then k.defragPrepare maxMoves else some []) = some ids) :
    kvSelfUpdate k optimize shifted maxMoves =
      if !k.cells.hasShift ∧ ids = [] then some (false, k)
      else (k.update k.cells.hasShift shifted ids).bind fun k => some (true, k) := by
  cases optimize with
  | true =>
      rw [if_pos rfl] at hids
      simp only [kvSelfUpdate, if_true, hids, Option.bind_eq_bind, Option.bind_some]
      rfl
  | false =>
      obtain rfl : [] = ids := Option.some.inj hids
      rfl

/-- An update whose shift cannot be computed leaves the cache as it is. -/
theorem kvSelfUpdate_unshifted (hk : k.Valid) (optimize : Bool) (maxMoves : ℕ)
    (hs : k.cells.hasShift = true) : kvSelfUpdate k optimize false maxMoves = some (true, k) := by
  obtain ⟨ids, hids⟩ : ∃ ids,
      (if optimize then k.defragPrepare maxMoves else some []) = some ids := by
    cases optimize with
    | true =>
        obtain ⟨ids, hids, -⟩ := defragPrepare_spec hk maxMoves
        exact ⟨ids, hids⟩
    | false => exact ⟨[], rfl⟩
  rw [kvSelfUpdate_eq false optimize maxMoves hids, if_neg (by simp [hs]), hs]
  rfl

/-- `kv_self_update` keeps the contents, and where it can compute the shifts it leaves none
pending. -/
theorem kvSelfUpdate_spec (hk : k.Ready) (optimize shifted : Bool) (maxMoves : ℕ) :
    ∃ r k', kvSelfUpdate k optimize shifted maxMoves = some (r, k') ∧ k'.Ready ∧
      k'.cells.size = k.cells.size ∧ k'.contents = k.contents ∧
      ((k.cells.hasShift = true → shifted = true) → k'.cells.hasShift = false) := by
  by_cases hs : k.cells.hasShift = true → shifted = true
  swap
  · obtain ⟨hshift, hno⟩ := Classical.not_imp.mp hs
    obtain rfl := Bool.eq_false_of_not_eq_true hno
    exact ⟨true, k, kvSelfUpdate_unshifted hk.toValid optimize maxMoves hshift, hk, rfl, rfl,
      fun h => absurd h hs⟩
  obtain ⟨ids, hids, hplan⟩ : ∃ ids,
      (if optimize then k.defragPrepare maxMoves else some []) = some ids ∧
        (k.defragPrepare maxMoves = some ids ∨ ids = []) := by
    cases optimize with
    | true =>
        obtain ⟨ids, hids, -⟩ := defragPrepare_spec hk.toValid maxMoves
        exact ⟨ids, hids, .inl hids⟩
    | false => exact ⟨[], rfl, .inr rfl⟩
  rw [kvSelfUpdate_eq shifted optimize maxMoves hids]
  by_cases hnone : (!k.cells.hasShift) = true ∧ ids = []
  · exact ⟨false, k, if_pos hnone, hk, rfl, rfl, fun _ => by simpa using hnone.1⟩
  · obtain ⟨k', hk', hvalid, hshift, hswa', hsize, hcontents⟩ := update_spec hk.toValid hplan
    refine ⟨true, k', ?_, ⟨hvalid, hswa'.trans hk.swa⟩, hsize, hcontents, fun _ => hshift⟩
    have hupd : k.update k.cells.hasShift shifted ids = some k' := by
      cases hb : k.cells.hasShift with
      | true =>
          rw [hs hb]
          rwa [hb] at hk'
      | false =>
          rw [hb] at hk'
          rw [← hk']
          rfl
    rw [if_neg hnone, hupd]
    rfl

/-- `init_batch` keeps the contents, with the second try or without. -/
theorem initBatch_spec (hk : k.Ready) (hus : ∀ u ∈ us, ∀ t ∈ u, t.Good) (shifted : Bool)
    (maxMoves : ℕ) :
    ∃ heads k', initBatch k us shifted maxMoves = some (heads, k') ∧ k'.Ready ∧
      k'.cells.size = k.cells.size ∧ k'.contents = k.contents ∧
      (heads ≠ [] → k'.Placeable heads us) := by
  obtain ⟨heads, hprep, hplace⟩ := hk.prepare hus
  by_cases hne : heads ≠ []
  · exact ⟨heads, k, by simp [initBatch, hprep, hne], hk, rfl, rfl, hplace⟩
  · obtain ⟨r, k₁, hupdate, hk₁, hsize, hcontents, -⟩ := kvSelfUpdate_spec hk true shifted maxMoves
    obtain ⟨heads₁, hprep₁, hplace₁⟩ := hk₁.prepare hus
    cases r with
    | true =>
        exact ⟨heads₁, k₁, by simp [initBatch, hprep, hne, hupdate, hprep₁], hk₁, hsize, hcontents,
          hplace₁⟩
    | false =>
        exact ⟨[], k₁, by simp [initBatch, hprep, hne, hupdate], hk₁, hsize, hcontents,
          fun h => absurd rfl h⟩

/-- What is left of an entry when the positions that `u` has of `ss` are removed. -/
def afterRemoval (u : Ubatch) (ss : List SeqId) (e : ℤ × Finset SeqId) : ℤ × Finset SeqId :=
  (e.1, e.2.filter fun s => ¬(s ∈ ss.toFinset ∧ posMin u s ≤ e.1 ∧ e.1 < posMax))

/-- What is left of an entry when a ubatch that failed is removed. -/
def afterFailure (u : Ubatch) (e : ℤ × Finset SeqId) : ℤ × Finset SeqId :=
  (e.1, e.2.filter fun s => ¬(posMin u s ≤ e.1 ∧ e.1 < posMax))

theorem afterRemoval_onEntry {s : SeqId} {ss : List SeqId} {e : ℤ × Finset SeqId} (he : 0 ≤ e.1) :
    afterRemoval u ss (MemoryCall.onEntry (.seqRm (some s) (posMin u s) (-1)) e) =
      afterRemoval u (s :: ss) e := by
  obtain ⟨p, q⟩ := e
  have hbounds : (bounds (posMin u s) (-1)).1 ≤ p ∧ p < (bounds (posMin u s) (-1)).2 ↔
      posMin u s ≤ p ∧ p < posMax := by
    simp only [bounds] at he ⊢
    split_ifs <;> omega
  simp only [MemoryCall.onEntry, hbounds, Option.map_some, Option.getD_some]
  split_ifs with hin
  · refine Prod.ext rfl (Finset.ext fun t => ?_)
    simp only [afterRemoval, Finset.mem_filter, Finset.mem_erase, List.mem_toFinset, List.mem_cons]
    by_cases hts : t = s
    · simp [hts, hin]
    · simp [hts]
  · refine Prod.ext rfl (Finset.filter_congr fun t _ => not_congr ?_)
    simp only [List.mem_toFinset, List.mem_cons]
    refine and_congr_left fun hrange => ⟨.inr, fun ht => ht.resolve_left ?_⟩
    rintro rfl
    exact hin hrange

theorem removeLoop_spec (hk : k.Valid) (u : Ubatch) (ss : List SeqId) :
    ∃ k', ss.foldlM (fun k s =>
        if posMin u s = posMax then some k else k.seqRm (some s) (posMin u s) (-1)) k = some k' ∧
      k'.Valid ∧ k.SameFrame k' ∧ k'.contents = edit (afterRemoval u ss) k.contents := by
  induction ss generalizing k with
  | nil => exact ⟨k, rfl, hk, .refl k, (edit_id hk fun e => by simp [afterRemoval]).symm⟩
  | cons s ss ih =>
      rw [List.foldlM_cons]
      split_ifs with hmax
      · obtain ⟨k', hk', hvalid', hframe', hcontents'⟩ := ih hk
        refine ⟨k', hk', hvalid', hframe', hcontents'.trans (edit_congr fun e _ => ?_)⟩
        refine Prod.ext rfl (Finset.filter_congr fun t _ => not_congr ?_)
        simp only [List.mem_toFinset, List.mem_cons]
        refine and_congr_left fun hin => ⟨.inr, fun ht => ht.resolve_left ?_⟩
        rintro rfl
        omega
      · obtain ⟨k₁, hk₁, -⟩ := hk.seqRm (some s) (posMin u s) (-1)
        obtain ⟨hvalid, hframe⟩ := seqRm_frame hk hk₁
        obtain ⟨k', hk', hvalid', hframe', hcontents'⟩ := ih hvalid
        refine ⟨k', by rw [hk₁]; exact hk', hvalid', hframe.trans hframe', ?_⟩
        have hdead : ∀ e : ℤ × Finset SeqId, ¬(0 ≤ e.1 ∧ e.2 ≠ ∅) →
            ¬(0 ≤ (afterRemoval u ss e).1 ∧ (afterRemoval u ss e).2 ≠ ∅) := by
          refine fun e he h => he ⟨h.1, fun hnil => h.2 ?_⟩
          rw [afterRemoval, hnil, Finset.filter_empty]
        rw [hcontents', seqRm_contents hk _ _ _ hk₁, edit_edit hdead]
        refine edit_congr fun e he => afterRemoval_onEntry ?_
        obtain ⟨x, hx, hpos, hxe, -⟩ := mem_contents.mp he
        exact hxe ▸ (hk.cells x hx).nonneg hpos

/-- What a failed ubatch leaves is removed, and with it the later positions of its sequences. -/
theorem removeUbatch_spec (hk : k.Valid) (u : Ubatch) :
    ∃ k', removeUbatch k u = some k' ∧ k'.Valid ∧ k.SameFrame k' ∧
      k'.contents = edit (afterFailure u) k.contents := by
  obtain ⟨k', hk', hvalid, hframe, hcontents⟩ := removeLoop_spec hk u (List.finRange 64)
  refine ⟨k', hk', hvalid, hframe, hcontents.trans (edit_congr fun e _ => ?_)⟩
  simp [afterFailure, afterRemoval]

theorem failureCode_mem {st : GgmlStatus} (hst : st ≠ .success) :
    failureCode st = 2 ∨ failureCode st = -2 ∨ failureCode st = -3 := by
  cases st <;> simp [failureCode] at hst ⊢

/-- The loop over the ubatches adds their tokens, up to the first one that fails. -/
inductive Processed (status : ℕ → GgmlStatus) (i : ℕ) (before : Multiset (ℤ × Finset SeqId))
    (us : List Ubatch) : ℤ → Multiset (ℤ × Finset SeqId) → Prop
  | all (h : ∀ j < us.length, status (i + j) = .success) :
      Processed status i before us 0 (before + entries us.flatten)
  | failed (done : List Ubatch) (u : Ubatch) (rest : List Ubatch) (hus : us = done ++ u :: rest)
      (hdone : ∀ j < done.length, status (i + j) = .success)
      (h : status (i + done.length) ≠ .success) :
      Processed status i before us (failureCode (status (i + done.length)))
        (edit (afterFailure u) (before + entries (done.flatten ++ u)))

theorem Processed.cons {status : ℕ → GgmlStatus} {i : ℕ} {r : ℤ}
    {before after : Multiset (ℤ × Finset SeqId)} (hst : status i = .success)
    (h : Processed status (i + 1) (before + entries u) us r after) :
    Processed status i before (u :: us) r after := by
  have hshift : ∀ j, i + 1 + j = i + (j + 1) := by omega
  cases h with
  | all hall =>
      rw [add_assoc, ← entries_append]
      refine .all fun j hj => ?_
      cases j with
      | zero => exact hst
      | succ j => exact hshift j ▸ hall j (Nat.lt_of_succ_lt_succ hj)
  | failed done v rest hus hdone hfail =>
      rw [hshift, add_assoc, ← entries_append, ← List.append_assoc]
      refine .failed (u :: done) v rest (by rw [hus]; rfl) (fun j hj => ?_) (hshift _ ▸ hfail)
      cases j with
      | zero => exact hst
      | succ j => exact hshift j ▸ hdone j (Nat.lt_of_succ_lt_succ hj)

theorem Processed.of_success {status : ℕ → GgmlStatus} {i : ℕ} {r : ℤ}
    {before after : Multiset (ℤ × Finset SeqId)} (h : Processed status i before us r after)
    (hst : ∀ j, status j = .success) : r = 0 ∧ after = before + entries us.flatten := by
  cases h with
  | all => exact ⟨rfl, rfl⟩
  | failed done u rest hus hdone hfail => exact absurd (hst _) hfail

theorem Processed.result {status : ℕ → GgmlStatus} {i : ℕ} {r : ℤ}
    {before after : Multiset (ℤ × Finset SeqId)} (h : Processed status i before us r after) :
    r = 0 ∨ r = 2 ∨ r = -2 ∨ r = -3 := by
  cases h with
  | all => exact .inl rfl
  | failed done u rest hus hdone hfail => exact .inr (failureCode_mem hfail)

/-- The ubatches of a prepared batch are written one after the other, until one fails. -/
theorem processAll_spec (status : ℕ → GgmlStatus) (i : ℕ) (hk : k.Ready)
    (hus : ∀ u ∈ us, ∀ t ∈ u, t.Good) (hplace : k.Placeable heads us) :
    ∃ r k', processAll k status i heads us = some (r, k') ∧ k'.Ready ∧
      k'.cells.size = k.cells.size ∧ Processed status i k.contents us r k'.contents := by
  induction us generalizing k heads i with
  | nil =>
      cases heads with
      | nil =>
          have hall : Processed status i k.contents [] 0 _ :=
            .all fun j hj => absurd hj (Nat.not_lt_zero j)
          refine ⟨0, k, rfl, hk, rfl, ?_⟩
          simpa [entries] using hall
      | cons h heads => exact hplace.elim
  | cons u us ih =>
      cases heads with
      | nil => exact hplace.elim
      | cons h heads =>
          obtain ⟨hu, hrest⟩ := List.forall_mem_cons.mp hus
          obtain ⟨hslot, hnext⟩ := hplace
          obtain ⟨k₁, hk₁, hready₁, hframe₁, hcontents₁⟩ := hk.applyUbatch hu hslot
          by_cases hst : status i = .success
          · obtain ⟨r, k', hproc, hready', hsize', hprocessed⟩ :=
              ih (i + 1) hready₁ hrest (hnext k₁ hk₁)
            refine ⟨r, k', ?_, hready', hsize'.trans hframe₁.size,
              .cons hst (hcontents₁ ▸ hprocessed)⟩
            simp [processAll, hk₁, hst, hproc]
          · obtain ⟨k', hremove, hvalid', hframe', hcontents'⟩ :=
              removeUbatch_spec hready₁.toValid u
            refine ⟨failureCode (status i), k', ?_, hready₁.of_frame hvalid' hframe',
              hframe'.size.trans hframe₁.size, ?_⟩
            · simp [processAll, hk₁, hst, hremove]
            · rw [hcontents', hcontents₁]
              exact .failed [] u us rfl (fun j hj => absurd hj (Nat.not_lt_zero j)) hst

/-! ## `decode` -/

variable {c : LlamaContext} {batch : LlamaBatch} {a : DecodeAnswer} {toks : Ubatch}

theorem decode_rejected (h : batch.token = [] ∨ batch.init c.memory c.nVocab = none) :
    c.decode batch a = some (-1, c) := by
  by_cases hne : batch.token = []
  · rw [decode, if_pos hne]
    rfl
  · rw [decode, if_neg hne, h.resolve_left hne]
    rfl

theorem decode_accepted (hne : batch.token ≠ [])
    (hinit : batch.init c.memory c.nVocab = some toks) (hle : toks.length ≤ c.nBatch) {r₁ : Bool}
    {k₁ k₂ : KvCache}
    (hupdate : kvSelfUpdate c.memory a.optimize a.shifted c.maxMoves = some (r₁, k₁))
    (hprep : initBatch k₁ (LlamaBatch.splitAll c.nUbatch toks.length toks) a.shifted c.maxMoves =
      some (heads, k₂)) :
    c.decode batch a =
      if heads = [] then some (1, { c with memory := k₂ })
      else if !a.reserved then some (-2, { c with memory := k₂ })
      else (processAll k₂ a.status 0 heads
        (LlamaBatch.splitAll c.nUbatch toks.length toks)).map fun (r, k) =>
          (r, { c with memory := k }) := by
  rw [decode, if_neg hne, hinit]
  dsimp only
  rw [guard_bind hle, hupdate, Option.bind_eq_bind, Option.bind_some]
  simp only [hprep, Option.bind_eq_bind, Option.bind_some]
  split_ifs
  · rfl
  · rfl
  · cases processAll k₂ a.status 0 heads _ <;> rfl

/-- What `decode` returns, and the contents after it. -/
inductive Written (c : LlamaContext) (batch : LlamaBatch) (a : DecodeAnswer) :
    ℤ → Multiset (ℤ × Finset SeqId) → Prop
  | rejected (h : batch.token = [] ∨ batch.init c.memory c.nVocab = none) :
      Written c batch a (-1) c.memory.contents
  | noSlot {toks : Ubatch} (hinit : batch.init c.memory c.nVocab = some toks) :
      Written c batch a 1 c.memory.contents
  | unreserved {toks : Ubatch} (hinit : batch.init c.memory c.nVocab = some toks)
      (h : a.reserved = false) : Written c batch a (-2) c.memory.contents
  | processed {toks : Ubatch} {r : ℤ} {after : Multiset (ℤ × Finset SeqId)}
      (hinit : batch.init c.memory c.nVocab = some toks)
      (h : Processed a.status 0 c.memory.contents
        (LlamaBatch.splitAll c.nUbatch toks.length toks) r after) :
      Written c batch a r after

/-- `decode` asserts nothing false and leaves a valid cache. Updates and second tries on the way
do not show in the contents. -/
theorem decode_spec (hk : c.memory.Ready) (hb : batch.WellFormed)
    (hle : batch.token.length ≤ c.nBatch) :
    ∃ r k', c.decode batch a = some (r, { c with memory := k' }) ∧ k'.Ready ∧
      k'.cells.size = c.memory.cells.size ∧ Written c batch a r k'.contents := by
  by_cases hne : batch.token = []
  · exact ⟨-1, c.memory, decode_rejected (.inl hne), hk, rfl, .rejected (.inl hne)⟩
  cases hinit : batch.init c.memory c.nVocab with
  | none =>
      exact ⟨-1, c.memory, decode_rejected (.inr hinit), hk, rfl, .rejected (.inr hinit)⟩
  | some toks =>
      obtain ⟨hlen, hgood⟩ := LlamaBatch.init_good hk.toValid hb hinit
      obtain ⟨r₁, k₁, hupdate, hready₁, hsize₁, hcontents₁, -⟩ :=
        kvSelfUpdate_spec hk a.optimize a.shifted c.maxMoves
      have hus : ∀ u ∈ LlamaBatch.splitAll c.nUbatch toks.length toks, ∀ t ∈ u, t.Good :=
        fun u hu t ht => hgood t ((LlamaBatch.mem_splitAll hu).2.2 t ht)
      obtain ⟨heads, k₂, hprep, hready₂, hsize₂, hcontents₂, hplace⟩ :=
        initBatch_spec hready₁ hus a.shifted c.maxMoves
      have hdecode := decode_accepted hne hinit (hlen.trans_le hle) hupdate hprep
      have hsize := hsize₂.trans hsize₁
      have hcontents := hcontents₂.trans hcontents₁
      by_cases hheads : heads = []
      · rw [if_pos hheads] at hdecode
        exact ⟨1, k₂, hdecode, hready₂, hsize, hcontents ▸ .noSlot hinit⟩
      rw [if_neg hheads] at hdecode
      cases hres : a.reserved with
      | false =>
          rw [hres] at hdecode
          exact ⟨-2, k₂, hdecode, hready₂, hsize, hcontents ▸ .unreserved hinit hres⟩
      | true =>
          obtain ⟨r, k', hproc, hready', hsize', hprocessed⟩ :=
            processAll_spec a.status 0 hready₂ hus (hplace hheads)
          rw [hres, hproc] at hdecode
          exact ⟨r, k', hdecode, hready', hsize'.trans hsize,
            .processed hinit (hcontents ▸ hprocessed)⟩

/-! ## When there is no slot -/

/-- An optimization leaves the used cells without a gap, given enough moves. -/
theorem kvSelfUpdate_compact (hk : k.Ready) (hshift : k.cells.hasShift = false)
    {shifted r : Bool} {maxMoves : ℕ} (hmoves : k.cells.getUsed < maxMoves)
    (hupdate : kvSelfUpdate k true shifted maxMoves = some (r, k')) :
    usedOf k'.cells.cells = Finset.range k.cells.getUsed := by
  obtain ⟨ids, hids, hnil, -⟩ := defragPrepare_spec hk.toValid maxMoves
  rw [kvSelfUpdate_eq shifted true maxMoves (by rw [if_pos rfl, hids]), hshift] at hupdate
  by_cases hne : ids = []
  · rw [if_pos ⟨rfl, hne⟩] at hupdate
    obtain ⟨-, rfl⟩ := Prod.mk.inj (Option.some.inj hupdate)
    exact hnil hne
  · obtain ⟨ids', hids', hspec⟩ := defrag_spec hk.toValid maxMoves
    obtain rfl := Option.some.inj (hids'.symm.trans hids)
    obtain ⟨l', happly, -, hcompact⟩ := hspec hne
    have hupd : k.update false shifted ids' =
        some { k with cells := .of k.cells.hasShift l', head := 0 } := by
      simp [update, hne, happly]
    rw [if_neg fun h => hne h.2, hupd] at hupdate
    obtain ⟨-, rfl⟩ := Prod.mk.inj (Option.some.inj hupdate)
    exact hcompact hmoves

theorem isEmpty_resetShift (cells : KvCells) (i : ℕ) :
    cells.resetShift.isEmpty i = cells.isEmpty i := by
  simp only [KvCells.isEmpty, KvCells.resetShift, List.getElem?_map, Option.bind_eq_bind,
    Option.bind_map]
  rfl

theorem defragPrepare_resetShift (k : KvCache) (maxMoves : ℕ) :
    { k with cells := k.cells.resetShift }.defragPrepare maxMoves = k.defragPrepare maxMoves := by
  simp only [defragPrepare, isEmpty_resetShift]
  rfl

/-- `kv_self_update` with an optimization: the shifts are applied, nothing is lost, and the used
cells are the first ones, given enough moves. -/
theorem kvSelfUpdate_defrag {shifted : Bool} {maxMoves : ℕ} (hk : k.Ready)
    (hs : k.cells.hasShift = true → shifted = true) (hmoves : k.cells.getUsed < maxMoves) :
    ∃ r k', kvSelfUpdate k true shifted maxMoves = some (r, k') ∧ k'.Ready ∧
      k'.cells.hasShift = false ∧ k'.contents = k.contents ∧
      usedOf k'.cells.cells = Finset.range k.cells.getUsed := by
  obtain ⟨r, k', hupdate, hready, hsize, hcontents, hunshifted⟩ :=
    kvSelfUpdate_spec hk true shifted maxMoves
  refine ⟨r, k', hupdate, hready, hunshifted hs, hcontents, ?_⟩
  cases hshift : k.cells.hasShift with
  | false => exact kvSelfUpdate_compact hk hshift hmoves hupdate
  | true =>
      obtain rfl := hs hshift
      have hready₁ : { k with cells := k.cells.resetShift }.Ready := ⟨hk.toValid.resetShift, hk.swa⟩
      obtain ⟨ids, hids, -⟩ := defragPrepare_spec hk.toValid maxMoves
      have hids₁ := (defragPrepare_resetShift k maxMoves).trans hids
      rw [kvSelfUpdate_eq true true maxMoves (by rw [if_pos rfl, hids]),
        if_neg (by simp [hshift])] at hupdate
      obtain ⟨k₂, hupd, hk₂⟩ := Option.bind_eq_some_iff.mp hupdate
      obtain ⟨-, rfl⟩ := Prod.mk.inj (Option.some.inj hk₂)
      have hupdate₁ : ∃ r, kvSelfUpdate { k with cells := k.cells.resetShift } true true
          maxMoves = some (r, k₂) := by
        rw [kvSelfUpdate_eq true true maxMoves (by rw [if_pos rfl, hids₁])]
        by_cases hnil : ids = []
        · rw [hnil, hshift] at hupd
          exact ⟨false, by rw [if_pos ⟨rfl, hnil⟩, ← Option.some.inj hupd]; rfl⟩
        · rw [if_neg fun h => hnil h.2]
          have hsame : { k with cells := k.cells.resetShift }.update false true ids =
              k.update true true ids := rfl
          rw [hshift, ← hsame] at hupd
          exact ⟨true, by rw [show k.cells.resetShift.hasShift = false from rfl, hupd]; rfl⟩
      obtain ⟨r₁, hupdate₁⟩ := hupdate₁
      have hcompact := kvSelfUpdate_compact hready₁ rfl hmoves hupdate₁
      exact hcompact

def fragmented (s : SeqId) : KvCache :=
  ⟨.of true [⟨0, 0, {s}⟩, .empty, ⟨4, 3, {s}⟩, .empty, ⟨5, 3, {s}⟩, .empty], 5, 32, 0, .none⟩

theorem ready_fragmented (s : SeqId) : (fragmented s).Ready :=
  ⟨valid_of (by simp [KvCell.good_of_used]) (by simp) rfl (by simp [fragmented]), rfl⟩

theorem kvSelfUpdate_fragmented :
    ∃ r k', kvSelfUpdate (fragmented 0) true true 8 = some (r, k') ∧ k'.Ready ∧
      k'.cells.hasShift = false ∧ k'.contents = (fragmented 0).contents ∧
      usedOf k'.cells.cells = Finset.range (fragmented 0).cells.getUsed :=
  kvSelfUpdate_defrag (ready_fragmented 0) (fun _ => rfl) (by decide)

/-- With a second try after the optimization, a single ubatch is refused only where it is
larger than the cells that are left. -/
theorem initBatch_one (hk : k.Ready) (hshift : k.cells.hasShift = false)
    (hu : ∀ t ∈ u, t.Good) (hne : u ≠ []) {shifted : Bool} {maxMoves : ℕ}
    (hmoves : k.cells.getUsed < maxMoves)
    (hinit : initBatch k [u] shifted maxMoves = some (heads, k')) :
    heads ≠ [] ↔ k.cells.getUsed + u.length ≤ k.cells.size := by
  obtain ⟨heads₁, hprep, hslot⟩ := prepare_one hk hu hne
  by_cases hfirst : heads₁ ≠ []
  · have heq : initBatch k [u] shifted maxMoves = some (heads₁, k) := by
      simp [initBatch, hprep, hfirst]
    obtain ⟨rfl, -⟩ := Prod.mk.inj (Option.some.inj (heq.symm.trans hinit))
    obtain ⟨h, hs⟩ := hslot.mp hfirst
    exact iff_of_true hfirst (getUsed_add_le hk.toValid hk.swa hs)
  obtain ⟨r, k₁, hupdate, hk₁, hsize, hcontents, -⟩ := kvSelfUpdate_spec hk true shifted maxMoves
  have hused : k₁.cells.getUsed = k.cells.getUsed := by
    rw [getUsed_eq_card hk₁.toValid, getUsed_eq_card hk.toValid, hcontents]
  have hcompact := kvSelfUpdate_compact hk hshift hmoves hupdate
  have hfit : (∃ h, k₁.SlotAt u.length h) ↔ k.cells.getUsed + u.length ≤ k.cells.size := by
    rw [← hused, ← hsize]
    exact ⟨fun ⟨h, hs⟩ => getUsed_add_le hk₁.toValid hk₁.swa hs,
      fun hle => ⟨_, slotAt_of_compact hk₁.toValid hk₁.swa (by rw [hcompact, hused]) hle⟩⟩
  cases r with
  | true =>
      obtain ⟨heads₂, hprep₂, hslot₂⟩ := prepare_one hk₁ hu hne
      have heq : initBatch k [u] shifted maxMoves = some (heads₂, k₁) := by
        simp [initBatch, hprep, hfirst, hupdate, hprep₂]
      obtain ⟨rfl, -⟩ := Prod.mk.inj (Option.some.inj (heq.symm.trans hinit))
      exact hslot₂.trans hfit
  | false =>
      have heq : initBatch k [u] shifted maxMoves = some ([], k₁) := by
        simp [initBatch, hprep, hfirst, hupdate]
      obtain ⟨rfl, -⟩ := Prod.mk.inj (Option.some.inj (heq.symm.trans hinit))
      refine iff_of_false (fun h => h rfl) fun hle => hfirst (hslot.mpr ?_)
      obtain ⟨h, hs⟩ := hfit.mpr hle
      have hsame : k₁ = k := by
        obtain ⟨ids, hids, -⟩ := defragPrepare_spec hk.toValid maxMoves
        rw [kvSelfUpdate_eq shifted true maxMoves (by rw [if_pos rfl, hids])] at hupdate
        split_ifs at hupdate with hidle
        · exact ((Prod.mk.inj (Option.some.inj hupdate)).2).symm
        · obtain ⟨_, -, h⟩ := Option.bind_eq_some_iff.mp hupdate
          simp at h
      exact ⟨h, hsame ▸ hs⟩

/-- A batch of a single ubatch is refused for want of a slot exactly where the cells that are
left are too few. -/
theorem decode_eq_one_iff (hk : c.memory.Ready)
    (hs : c.memory.cells.hasShift = true → a.shifted = true) (hb : batch.WellFormed)
    (hne : batch.token ≠ []) (hinit : (batch.init c.memory c.nVocab).isSome = true)
    (hle : batch.token.length ≤ c.nBatch) (hubatch : batch.token.length ≤ max c.nUbatch 1)
    (hmoves : c.memory.cells.getUsed < c.maxMoves) :
    ∃ r c', c.decode batch a = some (r, c') ∧
      (r = 1 ↔ c.memory.cells.size < c.memory.cells.getUsed + batch.token.length) := by
  obtain ⟨toks, hinit⟩ := Option.isSome_iff_exists.mp hinit
  obtain ⟨hlen, hgood⟩ := LlamaBatch.init_good hk.toValid hb hinit
  have htoks : toks ≠ [] := fun h => hne (List.length_eq_zero_iff.mp (by rw [← hlen, h]; rfl))
  have hsplit := LlamaBatch.splitAll_one htoks (hlen.trans_le hubatch) le_rfl
  obtain ⟨r₁, k₁, hupdate, hready₁, hsize₁, hcontents₁, hunshifted₁⟩ :=
    kvSelfUpdate_spec hk a.optimize a.shifted c.maxMoves
  have hus : ∀ u ∈ [toks], ∀ t ∈ u, t.Good := by simpa using hgood
  obtain ⟨heads, k₂, hprep, hready₂, -, -, hplace⟩ :=
    initBatch_spec hready₁ hus a.shifted c.maxMoves
  have hused : k₁.cells.getUsed = c.memory.cells.getUsed := by
    rw [getUsed_eq_card hready₁.toValid, getUsed_eq_card hk.toValid, hcontents₁]
  have hfit : heads ≠ [] ↔ c.memory.cells.getUsed + batch.token.length ≤ c.memory.cells.size := by
    rw [← hused, ← hsize₁, ← hlen]
    exact initBatch_one hready₁ (hunshifted₁ hs) hgood htoks (hused.trans_lt hmoves) hprep
  rw [← hsplit] at hprep hplace
  rw [decode_accepted hne hinit (hlen.trans_le hle) hupdate hprep]
  by_cases hheads : heads = []
  · exact ⟨1, _, if_pos hheads, iff_of_true rfl (not_le.mp fun h => hfit.mpr h hheads)⟩
  have hno := not_lt.mpr (hfit.mp hheads)
  rw [if_neg hheads]
  cases hres : a.reserved with
  | false => exact ⟨-2, _, rfl, iff_of_false (by decide) hno⟩
  | true =>
      obtain ⟨r, k', hproc, -, -, hprocessed⟩ := processAll_spec a.status 0 hready₂
        (by rwa [hsplit]) (hplace hheads)
      have hresult := hprocessed.result
      exact ⟨r, _, by rw [hproc]; rfl, iff_of_false (by omega) hno⟩

theorem decode_fragmented :
    ∃ r c', decode ⟨fragmented 0, 10, 8, 8, 8⟩ (.getOne [1, 2, 3])
        ⟨true, false, true, fun _ => .success⟩ = some (r, c') ∧
      (r = 1 ↔ (fragmented 0).cells.size < (fragmented 0).cells.getUsed + 3) :=
  decode_eq_one_iff (ready_fragmented 0) (fun _ => rfl) (LlamaBatch.wellFormed_getOne _)
    (by decide) (by decide) (by decide) (by decide) (by decide)

/-! ## Preparing and applying -/

/-- The slots that `prepare` reports are still there when the ubatches are applied to the cache
it leaves, one after the other: all of them are written, and nothing is written over. -/
theorem prepare_applies (hk : k.Ready) (hus : ∀ u ∈ us, ∀ t ∈ u, t.Good) :
    ∃ heads, k.prepare us = some (heads, k) ∧
      (heads ≠ [] → ∃ k', processAll k (fun _ => .success) 0 heads us = some (0, k') ∧
        k'.Ready ∧ k'.contents = k.contents + entries us.flatten) := by
  obtain ⟨heads, hprep, hplace⟩ := hk.prepare hus
  refine ⟨heads, hprep, fun hne => ?_⟩
  obtain ⟨r, k', hproc, hready, -, hprocessed⟩ :=
    processAll_spec (fun _ => .success) 0 hk hus (hplace hne)
  obtain ⟨rfl, hcontents⟩ := hprocessed.of_success fun _ => rfl
  exact ⟨k', hproc, hready, hcontents⟩

theorem prepare_applies_fragmented :
    ∃ heads, (fragmented 0).prepare [[⟨7, 6, [0]⟩], [⟨8, 0, [1]⟩]] = some (heads, fragmented 0) ∧
      (heads ≠ [] → ∃ k', processAll (fragmented 0) (fun _ => .success) 0 heads
            [[⟨7, 6, [0]⟩], [⟨8, 0, [1]⟩]] = some (0, k') ∧
        k'.Ready ∧ k'.contents = (fragmented 0).contents +
          entries [⟨7, 6, [0]⟩, ⟨8, 0, [1]⟩]) :=
  prepare_applies (ready_fragmented 0) (by decide)

end LlamaContext

end SmollChat
