import SmollChat.Model.LlamaContext
import SmollChat.Verification.KvCache.Slots
import Mathlib.Data.Int.ConditionallyCompleteOrder
import Mathlib.Data.Int.Interval

/-! # What a batch must be

`llama_batch_allocr::init` accepts a batch whose sequences continue the ones in the memory.
The order of a sequence's tokens within the batch and the sets of sequences are not among
what it checks. -/

namespace SmollChat

open KvCells

namespace LlamaBatch

variable {k : KvCache} {b : LlamaBatch} {nVocab : ℕ} {toks : Ubatch} {s : SeqId}

/-! ## Generated fields -/

/-- What the fields of a batch hold: one entry for each token, explicit positions that are not
negative, and for each token its sequences, listed once. -/
structure WellFormed (b : LlamaBatch) : Prop where
  pos : ∀ ps, b.pos = some ps → ps.length = b.token.length ∧ ∀ p ∈ ps, 0 ≤ p
  seqId : ∀ ids, b.seqId = some ids →
    ids.length = b.token.length ∧ ∀ tokenIds ∈ ids, tokenIds ≠ [] ∧ tokenIds.Nodup

theorem wellFormed_getOne (tokens : List ℤ) : (getOne tokens).WellFormed :=
  ⟨fun _ h => by simp [getOne] at h, fun _ h => by simp [getOne] at h⟩

theorem seqIds_good (hb : b.WellFormed) {ids : List (List SeqId)} (h : b.seqIds = some ids) :
    ids.length = b.token.length ∧ ∀ tokenIds ∈ ids, tokenIds ≠ [] ∧ tokenIds.Nodup := by
  cases hs : b.seqId with
  | none =>
      obtain rfl : List.replicate b.token.length [seqId0] = ids := by simpa [seqIds, hs] using h
      refine ⟨List.length_replicate, fun tokenIds hmem => ?_⟩
      obtain rfl := List.eq_of_mem_replicate hmem
      simp
  | some raw =>
      obtain ⟨hlen, hraw⟩ := hb.seqId raw hs
      by_cases hrange : ∀ tokenIds ∈ raw, ∀ s ∈ tokenIds, 0 ≤ s ∧ s < 64
      · obtain rfl : raw.map readIds = ids := by
          have h' : b.seqIds = some (raw.map readIds) := by
            simp only [seqIds, hs]
            exact guard_bind hrange _
          exact Option.some.inj (h'.symm.trans h)
        refine ⟨(List.length_map _).trans hlen, List.forall_mem_map.mpr fun tokenIds hmem => ?_⟩
        obtain ⟨hne, hnodup⟩ := hraw tokenIds hmem
        refine ⟨by simpa [readIds] using hne, hnodup.map_on fun s hs' t ht heq => ?_⟩
        have h1 := hrange tokenIds hmem s hs'
        have h2 := hrange tokenIds hmem t ht
        have hval := congrArg Fin.val heq
        simp only [Fin.ofNat] at hval
        omega
      · simp [seqIds, hs, guard, hrange] at h

theorem genPos_length (p0 : SeqId → ℤ) (ids : List (List SeqId)) :
    (genPos p0 ids).length = ids.length := by
  induction ids generalizing p0 with
  | nil => rfl
  | cons tokenIds ids ih => simp [genPos, ih]

theorem genPos_nonneg {p0 : SeqId → ℤ} (hp0 : ∀ s, 0 ≤ p0 s) (ids : List (List SeqId)) :
    ∀ p ∈ genPos p0 ids, 0 ≤ p := by
  induction ids generalizing p0 with
  | nil => simp [genPos]
  | cons tokenIds ids ih =>
      have hp : 0 ≤ (tokenIds.head?.map p0).getD 0 := by
        cases tokenIds.head? with
        | none => exact le_rfl
        | some s => exact hp0 s
      refine List.forall_mem_cons.mpr ⟨hp, ih fun s => ?_⟩
      split_ifs
      · omega
      · exact hp0 s

theorem zip_good {tokens ps : List ℤ} {ids : List (List SeqId)}
    (hp : ∀ p ∈ ps, 0 ≤ p) (hids : ∀ tokenIds ∈ ids, tokenIds ≠ [] ∧ tokenIds.Nodup) :
    ∀ t ∈ (tokens.zip (ps.zip ids)).map fun (t, p, s) => (⟨t, p, s⟩ : UbatchToken), t.Good := by
  refine List.forall_mem_map.mpr fun ⟨t, p, s⟩ hmem => ?_
  have hrest := (List.of_mem_zip hmem).2
  obtain ⟨hps, hss⟩ := List.of_mem_zip hrest
  exact ⟨hp p hps, (hids s hss).1, (hids s hss).2⟩

/-- The batch with its missing fields filled in, once its sequence ids are read. -/
def filled (b : LlamaBatch) (k : KvCache) (ids : List (List SeqId)) : Ubatch :=
  (b.token.zip ((b.pos.getD (genPos (fun s => k.cells.seqPosMax s + 1) ids)).zip ids)).map
    fun (t, p, s) => ⟨t, p, s⟩

theorem filled_good (hk : k.Valid) (hb : b.WellFormed) {ids : List (List SeqId)}
    (hids : b.seqIds = some ids) :
    (b.filled k ids).length = b.token.length ∧ ∀ t ∈ b.filled k ids, t.Good := by
  obtain ⟨hlen, hgood⟩ := seqIds_good hb hids
  obtain ⟨hplen, hpos⟩ : (b.pos.getD (genPos (fun s => k.cells.seqPosMax s + 1) ids)).length =
      b.token.length ∧
        ∀ p ∈ b.pos.getD (genPos (fun s => k.cells.seqPosMax s + 1) ids), 0 ≤ p := by
    cases hp : b.pos with
    | none =>
        refine ⟨(genPos_length _ ids).trans hlen, genPos_nonneg (fun s => ?_) ids⟩
        have := hk.seqPosMax_ge s
        omega
    | some ps => exact hb.pos ps hp
  refine ⟨?_, zip_good hpos hgood⟩
  rw [filled, List.length_map, List.length_zip, List.length_zip, hplen, hlen, Nat.min_self,
    Nat.min_self]

/-! ## The checks -/

/-- The positions of a sequence in a batch are an interval, and it begins after the last
position that the memory has of the sequence. -/
def Continues (last : ℤ) (ps : Finset ℤ) : Prop :=
  ps = ∅ ∨ ∃ lo hi, lo ≤ hi ∧ ps = Finset.Icc lo hi ∧ (0 ≤ last → lo = last + 1)

theorem eq_Icc_iff {ps : Finset ℤ} (h : ps.Nonempty) :
    ps = Finset.Icc (ps.min' h) (ps.max' h) ↔ ps.max' h - ps.min' h + 1 ≤ ps.card := by
  have hle := ps.min'_le _ (ps.max'_mem h)
  have hcard := Int.card_Icc (ps.min' h) (ps.max' h)
  constructor
  · intro heq
    rw [← heq] at hcard
    omega
  · intro hgap
    refine Finset.eq_of_subset_of_card_le (fun p hp => ?_) (by omega)
    exact Finset.mem_Icc.mpr ⟨ps.min'_le p hp, ps.le_max' p hp⟩

theorem checkSeq_iff :
    checkSeq k toks s = true ↔ Continues (k.cells.seqPosMax s) (seqPos toks s) := by
  by_cases hempty : seqPos toks s = ∅
  · simp [checkSeq, Continues, hempty]
  have hne := Finset.nonempty_of_ne_empty hempty
  have hcheck : checkSeq k toks s = true ↔
      (0 ≤ k.cells.seqPosMax s → (seqPos toks s).min' hne = k.cells.seqPosMax s + 1) ∧
        (seqPos toks s).max' hne - (seqPos toks s).min' hne + 1 ≤ (seqPos toks s).card := by
    simp only [checkSeq, hempty, if_false, seqPosMin, seqPosMax, hne, dif_pos]
    simp [imp_iff_not_or]
  rw [hcheck, ← eq_Icc_iff hne]
  constructor
  · rintro ⟨hstart, hIcc⟩
    exact .inr ⟨_, _, Finset.min'_le _ _ (Finset.max'_mem _ hne), hIcc, hstart⟩
  · rintro (h | ⟨lo, hi, hle, hIcc, hstart⟩)
    · exact absurd h hempty
    · have hmem : ∀ p, p ∈ seqPos toks s ↔ lo ≤ p ∧ p ≤ hi := fun p => by
        rw [hIcc, Finset.mem_Icc]
      have hmin : (seqPos toks s).min' hne = lo :=
        le_antisymm (Finset.min'_le _ _ ((hmem lo).mpr ⟨le_rfl, hle⟩))
          ((hmem _).mp (Finset.min'_mem _ hne)).1
      have hmax : (seqPos toks s).max' hne = hi :=
        le_antisymm ((hmem _).mp (Finset.max'_mem _ hne)).2
          (Finset.le_max' _ _ ((hmem hi).mpr ⟨hle, le_rfl⟩))
      exact ⟨fun h => hmin.trans (hstart h), by rw [hmin, hmax]; exact hIcc⟩

/-- The sequences of a token have the same first and last positions in the memory. -/
def Coupled (k : KvCache) (ids : List SeqId) : Prop :=
  ∀ s ∈ ids, ∀ s' ∈ ids, k.cells.seqPosMin s = k.cells.seqPosMin s' ∧
    k.cells.seqPosMax s = k.cells.seqPosMax s'

theorem checkCoupled_iff {t : UbatchToken} : checkCoupled k t = true ↔ Coupled k t.seqId := by
  cases hids : t.seqId with
  | nil => simp [checkCoupled, Coupled, hids]
  | cons s0 rest =>
      have hcheck : checkCoupled k t = true ↔ ∀ s ∈ rest,
          k.cells.seqPosMin s = k.cells.seqPosMin s0 ∧
            k.cells.seqPosMax s = k.cells.seqPosMax s0 := by
        simp [checkCoupled, hids]
      rw [hcheck]
      constructor
      · intro h
        have hall : ∀ s ∈ s0 :: rest, k.cells.seqPosMin s = k.cells.seqPosMin s0 ∧
            k.cells.seqPosMax s = k.cells.seqPosMax s0 :=
          List.forall_mem_cons.mpr ⟨⟨rfl, rfl⟩, h⟩
        intro s hs s' hs'
        exact ⟨(hall s hs).1.trans (hall s' hs').1.symm, (hall s hs).2.trans (hall s' hs').2.symm⟩
      · exact fun h s hs => h s (List.mem_cons_of_mem s0 hs) s0 List.mem_cons_self

/-- The last loop of `init` finds nothing: `cur_seq_pos` is never written, and the set kept for
a sequence always has the sequence itself. -/
theorem checkSets_eq_true {curSet : SeqId → Finset SeqId} (hset : ∀ s, s ∈ curSet s)
    (hpos : ∀ t ∈ toks, -1 ≤ t.pos) : checkSets curSet (fun _ => -1) toks = true := by
  induction toks generalizing curSet with
  | nil => rfl
  | cons t toks ih =>
      obtain ⟨ht, hrest⟩ := List.forall_mem_cons.mp hpos
      have hset' : ∀ s, s ∈ if s ∈ t.seqId then curSet s ∩ t.seqId.toFinset else curSet s := by
        intro s
        split_ifs with hs
        · exact Finset.mem_inter.mpr ⟨hset s, List.mem_toFinset.mpr hs⟩
        · exact hset s
      have hno : (t.seqId.any fun s =>
          (if s ∈ t.seqId then curSet s ∩ t.seqId.toFinset else curSet s) = ∅ ∨ t.pos < -1) =
            false := by
        rw [List.any_eq_false]
        intro s hs
        have hne := Finset.ne_empty_of_mem (hset' s)
        simpa [hne] using ht
      simp only [checkSets, hno, Bool.false_eq_true, if_false]
      exact ih hset' hrest

/-! ## Acceptance -/

theorem init_good (hk : k.Valid) (hb : b.WellFormed) (h : b.init k nVocab = some toks) :
    toks.length = b.token.length ∧ ∀ t ∈ toks, t.Good := by
  obtain ⟨-, h⟩ := guard_bind_eq_some.mp h
  obtain ⟨ids, hids, h⟩ := Option.bind_eq_some_iff.mp h
  obtain ⟨-, h⟩ := guard_bind_eq_some.mp h
  obtain ⟨-, h⟩ := guard_bind_eq_some.mp h
  obtain ⟨-, h⟩ := guard_bind_eq_some.mp h
  obtain rfl := Option.some.inj h
  exact filled_good hk hb hids

/-- The batches `init` accepts, and what it makes of them. -/
theorem init_eq_some_iff (hk : k.Valid) (hb : b.WellFormed) :
    b.init k nVocab = some toks ↔
      (∀ t ∈ b.token, 0 ≤ t ∧ t < nVocab) ∧ (∃ ids, b.seqIds = some ids ∧ toks = b.filled k ids) ∧
        (∀ s, Continues (k.cells.seqPosMax s) (seqPos toks s)) ∧
        ∀ t ∈ toks, Coupled k t.seqId := by
  have hseq : ∀ toks, (List.finRange 64).all (checkSeq k toks) = true ↔
      ∀ s, Continues (k.cells.seqPosMax s) (seqPos toks s) := fun toks => by
    simp [List.all_eq_true, checkSeq_iff]
  have hcpl : ∀ toks : Ubatch, toks.all (checkCoupled k) = true ↔ ∀ t ∈ toks, Coupled k t.seqId :=
    fun toks => by simp [List.all_eq_true, checkCoupled_iff]
  constructor
  · intro h
    obtain ⟨htok, h⟩ := guard_bind_eq_some.mp h
    obtain ⟨ids, hids, h⟩ := Option.bind_eq_some_iff.mp h
    obtain ⟨h1, h⟩ := guard_bind_eq_some.mp h
    obtain ⟨h2, h⟩ := guard_bind_eq_some.mp h
    obtain ⟨-, h⟩ := guard_bind_eq_some.mp h
    obtain rfl := Option.some.inj h
    exact ⟨htok, ⟨ids, hids, rfl⟩, (hseq _).mp h1, (hcpl _).mp h2⟩
  · rintro ⟨htok, ⟨ids, hids, rfl⟩, h1, h2⟩
    have hpos : ∀ t ∈ b.filled k ids, -1 ≤ t.pos := fun t ht => by
      have := ((filled_good hk hb hids).2 t ht).pos
      omega
    refine guard_bind_eq_some.mpr ⟨htok, Option.bind_eq_some_iff.mpr ⟨ids, hids, ?_⟩⟩
    refine guard_bind_eq_some.mpr ⟨(hseq _).mpr h1, guard_bind_eq_some.mpr ⟨(hcpl _).mpr h2, ?_⟩⟩
    exact guard_bind_eq_some.mpr ⟨checkSets_eq_true (fun s => Finset.mem_univ s) hpos, rfl⟩

/-! ## The order of the tokens -/

def ofTokens (l : List (ℤ × ℤ × List ℤ)) : LlamaBatch where
  token := l.map Prod.fst
  pos := some (l.map fun e => e.2.1)
  seqId := some (l.map fun e => e.2.2)

theorem seqIds_ofTokens (l : List (ℤ × ℤ × List ℤ)) :
    (ofTokens l).seqIds =
      if ∀ e ∈ l, ∀ s ∈ e.2.2, 0 ≤ s ∧ s < 64 then some (l.map fun e => readIds e.2.2)
      else none := by
  have hiff : (∀ ids ∈ l.map fun e => e.2.2, ∀ s ∈ ids, 0 ≤ s ∧ s < 64) ↔
      ∀ e ∈ l, ∀ s ∈ e.2.2, 0 ≤ s ∧ s < 64 := List.forall_mem_map
  simp only [seqIds, ofTokens]
  split_ifs with h
  · refine (guard_bind (hiff.mpr h) _).trans (congrArg some ?_)
    rw [List.map_map]
    rfl
  · rw [guard, if_neg (mt hiff.mp h)]
    rfl

theorem filled_ofTokens (k : KvCache) (l : List (ℤ × ℤ × List ℤ)) :
    (ofTokens l).filled k (l.map fun e => readIds e.2.2) =
      l.map fun e => ⟨e.1, e.2.1, readIds e.2.2⟩ := by
  rw [filled, ofTokens, Option.getD_some, List.zip_map', List.zip_map', List.map_map]
  rfl

theorem seqPos_perm {toks₁ toks₂ : Ubatch} (h : toks₁.Perm toks₂) (s : SeqId) :
    seqPos toks₁ s = seqPos toks₂ s :=
  List.toFinset_eq_of_perm _ _ ((h.filter _).map _)

theorem init_ofTokens (hk : k.Valid) {l : List (ℤ × ℤ × List ℤ)} (hb : (ofTokens l).WellFormed) :
    ((ofTokens l).init k nVocab).isSome = true ↔
      (∀ e ∈ l, 0 ≤ e.1 ∧ e.1 < nVocab) ∧ (∀ e ∈ l, ∀ s ∈ e.2.2, 0 ≤ s ∧ s < 64) ∧
        (∀ s, Continues (k.cells.seqPosMax s)
          (seqPos (l.map fun e => ⟨e.1, e.2.1, readIds e.2.2⟩) s)) ∧
        ∀ e ∈ l, Coupled k (readIds e.2.2) := by
  rw [Option.isSome_iff_exists]
  have htok : (∀ t ∈ (ofTokens l).token, 0 ≤ t ∧ t < nVocab) ↔ ∀ e ∈ l, 0 ≤ e.1 ∧ e.1 < nVocab :=
    List.forall_mem_map
  constructor
  · rintro ⟨toks, hinit⟩
    obtain ⟨hvalid, ⟨ids, hids, rfl⟩, hseq, hcpl⟩ := (init_eq_some_iff hk hb).mp hinit
    rw [seqIds_ofTokens] at hids
    split_ifs at hids with hrange
    obtain rfl := Option.some.inj hids
    rw [filled_ofTokens] at hseq hcpl
    exact ⟨htok.mp hvalid, hrange, hseq, fun e he => hcpl _ (List.mem_map_of_mem he)⟩
  · rintro ⟨hvalid, hrange, hseq, hcpl⟩
    refine ⟨(ofTokens l).filled k (l.map fun e => readIds e.2.2), (init_eq_some_iff hk hb).mpr
      ⟨htok.mpr hvalid, ⟨l.map fun e => readIds e.2.2, ?_, rfl⟩, ?_, ?_⟩⟩
    · rw [seqIds_ofTokens, if_pos hrange]
    · rw [filled_ofTokens]
      exact hseq
    · rw [filled_ofTokens]
      exact List.forall_mem_map.mpr hcpl

theorem wellFormed_ofTokens {l : List (ℤ × ℤ × List ℤ)} :
    (ofTokens l).WellFormed ↔ ∀ e ∈ l, 0 ≤ e.2.1 ∧ e.2.2 ≠ [] ∧ e.2.2.Nodup := by
  constructor
  · intro hb e he
    exact ⟨(hb.pos _ rfl).2 _ (List.mem_map_of_mem he),
      (hb.seqId _ rfl).2 _ (List.mem_map_of_mem he)⟩
  · intro h
    refine ⟨fun ps hps => ?_, fun ids hids => ?_⟩
    · obtain rfl := Option.some.inj hps
      exact ⟨by simp [ofTokens], List.forall_mem_map.mpr fun e he => (h e he).1⟩
    · obtain rfl := Option.some.inj hids
      exact ⟨by simp [ofTokens], List.forall_mem_map.mpr fun e he => (h e he).2⟩

/-- A batch with all fields given is accepted by what is in it, whatever the order: tokens whose
positions decrease are not refused. -/
theorem init_perm {l₁ l₂ : List (ℤ × ℤ × List ℤ)} (hk : k.Valid)
    (hb : ∀ e ∈ l₁, 0 ≤ e.2.1 ∧ e.2.2 ≠ [] ∧ e.2.2.Nodup) (h : l₁.Perm l₂) (nVocab : ℕ) :
    ((ofTokens l₁).init k nVocab).isSome = ((ofTokens l₂).init k nVocab).isSome := by
  have hb₂ : ∀ e ∈ l₂, 0 ≤ e.2.1 ∧ e.2.2 ≠ [] ∧ e.2.2.Nodup := fun e he => hb e (h.mem_iff.mpr he)
  have hmem : ∀ {P : ℤ × ℤ × List ℤ → Prop}, (∀ e ∈ l₁, P e) ↔ ∀ e ∈ l₂, P e := fun {P} =>
    forall_congr' fun e => imp_congr_left h.mem_iff
  rw [Bool.eq_iff_iff, init_ofTokens hk (wellFormed_ofTokens.mpr hb),
    init_ofTokens hk (wellFormed_ofTokens.mpr hb₂)]
  refine and_congr hmem (and_congr hmem (and_congr (forall_congr' fun s => ?_) hmem))
  rw [seqPos_perm (h.map _)]

theorem init_perm_reverse :
    ((ofTokens [(7, 0, [0]), (8, 1, [0])]).init (KvCache.new 4 32 0 .none) 10).isSome =
      ((ofTokens [(8, 1, [0]), (7, 0, [0])]).init (KvCache.new 4 32 0 .none) 10).isSome :=
  init_perm (KvCache.valid_new 4 32 0 .none) (by decide) (.swap _ _ _) 10

/-! ## Ubatches -/

theorem splitAll_flatten {nUbatch fuel : ℕ} {toks : Ubatch} (h : toks.length ≤ fuel) :
    (splitAll nUbatch fuel toks).flatten = toks := by
  induction fuel generalizing toks with
  | zero => exact (List.length_eq_zero_iff.mp (Nat.le_zero.mp h)).symm
  | succ fuel ih =>
      rw [splitAll]
      split_ifs with hnil
      · exact hnil.symm
      · rw [List.flatten_cons, ih, List.take_append_drop]
        have := List.length_pos_iff.mpr hnil
        rw [List.length_drop]
        omega

theorem mem_splitAll {nUbatch fuel : ℕ} {toks u : Ubatch}
    (hu : u ∈ splitAll nUbatch fuel toks) :
    u ≠ [] ∧ u.length ≤ max nUbatch 1 ∧ ∀ t ∈ u, t ∈ toks := by
  induction fuel generalizing toks with
  | zero => simp [splitAll] at hu
  | succ fuel ih =>
      rw [splitAll] at hu
      split_ifs at hu with hnil
      · simp at hu
      · rcases List.mem_cons.mp hu with rfl | hu
        · refine ⟨by simpa [List.take_eq_nil_iff] using hnil, List.length_take_le _ _, ?_⟩
          exact fun t => List.mem_of_mem_take
        · obtain ⟨hne, hle, hmem⟩ := ih hu
          exact ⟨hne, hle, fun t ht => List.mem_of_mem_drop (hmem t ht)⟩

theorem splitAll_one {nUbatch fuel : ℕ} (hne : toks ≠ []) (hle : toks.length ≤ max nUbatch 1)
    (hfuel : toks.length ≤ fuel) : splitAll nUbatch fuel toks = [toks] := by
  have hpos := List.length_pos_iff.mpr hne
  obtain ⟨fuel, rfl⟩ : ∃ n, fuel = n + 1 := ⟨fuel - 1, by omega⟩
  rw [splitAll, if_neg hne, List.take_of_length_le hle, List.drop_of_length_le hle]
  cases fuel <;> simp [splitAll]

end LlamaBatch

end SmollChat
