import SmollChat.Verification.KvCache.Decode

/-! # Runs of calls

Calls of the memory interface and of `llama_decode` in any order keep the cache valid, and no
assertion of theirs fails. What a call asks of its arguments is stated for the cache it meets. -/

namespace SmollChat

open KvCells

namespace KvCache

variable {k : KvCache} {s : SeqId} {p : ℤ}

/-! ## First and last positions -/

def positions (k : KvCache) (s : SeqId) : Set ℤ := {p | ∃ q, (p, q) ∈ k.contents ∧ s ∈ q}

theorem mem_positions (hk : k.Valid) : p ∈ k.positions s ↔ 0 < (k.cells.seqPos s).count p := by
  have hindex : k.cells.seqPos = seqPosOf k.cells.cells := congrArg KvCells.seqPos hk.indexes
  rw [hindex, count_seqPosOf_pos]
  constructor
  · rintro ⟨q, hq, hs⟩
    obtain ⟨x, hx, -, hpos, rfl⟩ := mem_contents.mp hq
    exact ⟨x, hx, hs, hpos⟩
  · rintro ⟨x, hx, hs, hpos⟩
    exact ⟨x.seq, mem_contents.mpr ⟨x, hx, (hk.cells x hx).pos_ne hs, hpos, rfl⟩, hs⟩

/-- `seq_pos_min` and `seq_pos_max` are read from an index, and right for the cells. -/
theorem seqPos_spec (hk : k.Valid) (s : SeqId) :
    (k.positions s).Nonempty ∧ IsLeast (k.positions s) (k.cells.seqPosMin s) ∧
      IsGreatest (k.positions s) (k.cells.seqPosMax s) ∨
    k.positions s = ∅ ∧ k.cells.seqPosMin s = -1 ∧ k.cells.seqPosMax s = -1 := by
  have hset : k.positions s = {p | 0 < (k.cells.seqPos s).count p} :=
    Set.ext fun p => mem_positions hk
  cases hmin : (k.cells.seqPos s).minKey? with
  | none =>
      have hmax := CountMap.maxKey?_eq_none.mpr hmin
      refine .inr ⟨?_, by simp [seqPosMin, hmin], by simp [seqPosMax, hmax]⟩
      rw [hset, Set.eq_empty_iff_forall_notMem]
      exact fun p hp => (Nat.pos_iff_ne_zero.mp hp) (CountMap.minKey?_eq_none.mp hmin p)
  | some p0 =>
      obtain ⟨p1, hmax⟩ := Option.ne_none_iff_exists'.mp fun h => by
        rw [CountMap.maxKey?_eq_none.mp h] at hmin
        contradiction
      have hleast := CountMap.minKey?_eq_some.mp hmin
      refine .inl ⟨?_, ?_, ?_⟩
      · rw [hset]
        exact ⟨p0, hleast.1⟩
      · rw [hset]
        simpa [seqPosMin, hmin] using hleast
      · rw [hset]
        simpa [seqPosMax, hmax] using CountMap.maxKey?_eq_some.mp hmax

end KvCache

namespace LlamaContext

open KvCache

variable {c c' : LlamaContext} {m : MemoryCall} {calls : List MemoryCall} {batch : LlamaBatch}
  {a : DecodeAnswer}

/-! ## What was cached before -/

theorem le_posMin {u : Ubatch} {s : SeqId} {b : ℤ} (hmax : b ≤ posMax)
    (hb : ∀ t ∈ u, t.seqId.head? = some s → b ≤ t.pos) : b ≤ posMin u s := by
  have hfold : ∀ (ps : List ℤ) (m : ℤ), b ≤ m → (∀ p ∈ ps, b ≤ p) → b ≤ ps.foldl min m := by
    intro ps
    induction ps with
    | nil => exact fun _ hm _ => hm
    | cons p ps ih =>
        intro m hm hps
        obtain ⟨hp, hps⟩ := List.forall_mem_cons.mp hps
        exact ih (min m p) (le_min hm hp) hps
  refine hfold _ _ hmax (List.forall_mem_map.mpr fun t ht => ?_)
  obtain ⟨ht, hs⟩ := List.mem_filter.mp ht
  exact hb t ht (by simpa using hs)

theorem lt_pos_of_init {k : KvCache} {nVocab : ℕ} {toks : Ubatch} (hk : k.Valid)
    (hb : batch.WellFormed) (hinit : batch.init k nVocab = some toks) {t : UbatchToken}
    (ht : t ∈ toks) {s : SeqId} (hs : s ∈ t.seqId) {e : ℤ × Finset SeqId} (he : e ∈ k.contents)
    (hse : s ∈ e.2) : e.1 < t.pos := by
  have hmem : e.1 ∈ k.positions s := ⟨e.2, he, hse⟩
  obtain ⟨-, -, hmax⟩ | ⟨hnone, -⟩ := seqPos_spec hk s
  · have hle := hmax.2 hmem
    obtain ⟨x, hx, hpos, hxe, -⟩ := mem_contents.mp he
    have hnonneg := (hk.cells x hx).nonneg hpos
    have hcont := ((LlamaBatch.init_eq_some_iff hk hb).mp hinit).2.2.1 s
    have htpos : t.pos ∈ LlamaBatch.seqPos toks s := by
      rw [LlamaBatch.seqPos, List.mem_toFinset, List.mem_map]
      exact ⟨t, List.mem_filter.mpr ⟨ht, by simpa using hs⟩, rfl⟩
    obtain hnil | ⟨lo, hi, -, hps, hlo⟩ := hcont
    · simp [hnil] at htpos
    · have := hlo (by omega)
      rw [hps, Finset.mem_Icc] at htpos
      omega
  · rw [hnone] at hmem
    exact absurd hmem (Set.notMem_empty _)

theorem afterFailure_of_cached {k : KvCache} {nVocab : ℕ} {toks u : Ubatch} (hk : k.Valid)
    (hb : batch.WellFormed) (hinit : batch.init k nVocab = some toks) (hu : ∀ t ∈ u, t ∈ toks)
    {e : ℤ × Finset SeqId} (he : e ∈ k.contents) : afterFailure u e = e := by
  refine Prod.ext rfl (Finset.filter_true_of_mem fun s hs => ?_)
  rintro ⟨hmin, hmax⟩
  have hle : e.1 + 1 ≤ posMin u s := le_posMin hmax fun t ht hhead =>
    lt_pos_of_init hk hb hinit (hu t ht) (List.mem_of_mem_head? hhead) he hs
  omega

theorem mem_entries {u : Ubatch} {e : ℤ × Finset SeqId} :
    e ∈ entries u ↔ ∃ t ∈ u, (t.pos, t.seqId.toFinset) = e := by
  simp [entries]

/-- Every entry after a batch was there before or comes from a token of it. -/
theorem Processed.accounted {k : KvCache} {nVocab nUbatch : ℕ} {toks : Ubatch}
    {status : ℕ → GgmlStatus} {i : ℕ} {r : ℤ} {after : Multiset (ℤ × Finset SeqId)} (hk : k.Valid)
    (hb : batch.WellFormed) (hinit : batch.init k nVocab = some toks)
    (h : Processed status i k.contents (LlamaBatch.splitAll nUbatch toks.length toks) r after) :
    k.contents ≤ after ∧ ∀ e ∈ after, e ∈ k.contents ∨
      ∃ t ∈ toks, e.1 = t.pos ∧ ∀ s ∈ e.2, s ∈ t.seqId := by
  have hflat : (LlamaBatch.splitAll nUbatch toks.length toks).flatten = toks :=
    LlamaBatch.splitAll_flatten le_rfl
  cases h with
  | all =>
      refine ⟨Multiset.le_add_right _ _, fun e he =>
        (Multiset.mem_add.mp he).imp_right fun he => ?_⟩
      obtain ⟨t, ht, rfl⟩ := mem_entries.mp he
      exact ⟨t, hflat ▸ ht, rfl, fun s hs => List.mem_toFinset.mp hs⟩
  | failed done u rest hus =>
      have hmem : ∀ t, t ∈ done.flatten ++ u → t ∈ toks := by
        intro t ht
        rw [← hflat, hus, List.flatten_append, List.flatten_cons, ← List.append_assoc]
        exact List.mem_append_left _ ht
      have hcached : edit (afterFailure u) k.contents = k.contents :=
        (edit_congr fun e he => afterFailure_of_cached hk hb hinit
          (fun t ht => hmem t (List.mem_append_right _ ht)) he).trans (edit_id hk fun _ => rfl)
      rw [edit_add, hcached]
      refine ⟨Multiset.le_add_right _ _, fun e he =>
        (Multiset.mem_add.mp he).imp_right fun he => ?_⟩
      obtain ⟨e', he', rfl⟩ := Multiset.mem_map.mp (Multiset.mem_filter.mp he).1
      obtain ⟨t, ht, rfl⟩ := mem_entries.mp he'
      exact ⟨t, hmem t ht, rfl, fun s hs => List.mem_toFinset.mp (Finset.mem_filter.mp hs).1⟩

theorem Written.accounted {r : ℤ} {after : Multiset (ℤ × Finset SeqId)} (hk : c.memory.Valid)
    (hb : batch.WellFormed) (h : Written c batch a r after) :
    c.memory.contents ≤ after ∧ ∀ e ∈ after, e ∈ c.memory.contents ∨
      ∃ toks, batch.init c.memory c.nVocab = some toks ∧
        ∃ t ∈ toks, e.1 = t.pos ∧ ∀ s ∈ e.2, s ∈ t.seqId := by
  cases h with
  | rejected | noSlot | unreserved => exact ⟨le_rfl, fun e he => .inl he⟩
  | processed hinit hproc =>
      obtain ⟨hkeep, hnew⟩ := hproc.accounted hk hb hinit
      exact ⟨hkeep, fun e he => (hnew e he).imp_right fun ht => ⟨_, hinit, ht⟩⟩

/-- A call of `decode` takes nothing away that was cached before it, whatever it returns, and
adds nothing but positions of its batch. -/
theorem decode_keeps (hk : c.memory.Ready) (hb : batch.WellFormed)
    (hle : batch.token.length ≤ c.nBatch) :
    ∃ r c', c.decode batch a = some (r, c') ∧ c.memory.contents ≤ c'.memory.contents ∧
      ∀ s p, p ∈ c'.memory.positions s → p ∈ c.memory.positions s ∨
        ∃ toks, batch.init c.memory c.nVocab = some toks ∧ p ∈ LlamaBatch.seqPos toks s := by
  obtain ⟨r, k', hdecode, -, -, hwritten⟩ := decode_spec hk hb hle
  obtain ⟨hkeep, hnew⟩ := hwritten.accounted hk.toValid hb
  refine ⟨r, _, hdecode, hkeep, fun s p ⟨q, hq, hsq⟩ => ?_⟩
  refine (hnew (p, q) hq).imp (fun he => ⟨q, he, hsq⟩) ?_
  rintro ⟨toks, hinit, t, ht, rfl, hsub⟩
  refine ⟨toks, hinit, ?_⟩
  rw [LlamaBatch.seqPos, List.mem_toFinset, List.mem_map]
  exact ⟨t, List.mem_filter.mpr ⟨ht, by simpa using hsub s hsq⟩, rfl⟩

theorem decode_keeps_fragmented :
    ∃ r c', decode ⟨fragmented 0, 10, 4, 2, 8⟩ (.getOne [7, 8, 9])
        ⟨false, false, true, fun i => if i = 0 then .success else .failed⟩ = some (r, c') ∧
      (fragmented 0).contents ≤ c'.memory.contents ∧
      ∀ s p, p ∈ c'.memory.positions s → p ∈ (fragmented 0).positions s ∨
        ∃ toks, (LlamaBatch.getOne [7, 8, 9]).init (fragmented 0) 10 = some toks ∧
          p ∈ LlamaBatch.seqPos toks s :=
  decode_keeps (ready_fragmented 0) (LlamaBatch.wellFormed_getOne _) (by decide)

/-! ## Runs -/

/-- What a call asks of the cache it is made on. -/
def MemoryCall.Ok (c : LlamaContext) : MemoryCall → Prop
  | .seqCp src dst p0 p1 => src ≠ dst → ∀ x ∈ c.memory.cells.cells,
      x.InRange (bounds p0 p1).1 (bounds p0 p1).2 → src ∈ x.seq → dst ∉ x.seq
  | .seqDiv _ _ _ d => 0 < d
  | .decode batch _ => batch.WellFormed ∧ batch.token.length ≤ c.nBatch
  | _ => True

/-- Every call of a run is made on a cache that it can be made on. -/
def Allowed : LlamaContext → List MemoryCall → Prop
  | _, [] => True
  | c, m :: calls => m.Ok c ∧ ∀ c', c.call m = some c' → c'.Allowed calls

/-- What every call keeps. -/
structure Sound (size : ℕ) (c : LlamaContext) : Prop where
  ready : c.memory.Ready
  size : c.memory.cells.size = size

theorem sound_new (nVocab nBatch nUbatch maxMoves kvSize nPad nSwa : ℕ) :
    Sound kvSize ⟨.new kvSize nPad nSwa .none, nVocab, nBatch, nUbatch, maxMoves⟩ :=
  ⟨ready_new .., List.length_replicate⟩

variable {size : ℕ}

theorem Sound.valid (hc : c.Sound size) : c.memory.Valid := hc.ready.toValid

theorem Sound.of_shape {k : KvCache} (hc : c.Sound size) (hk : k.Valid)
    (hshape : c.memory.SameShape k) : Sound size { c with memory := k } :=
  ⟨⟨hk, hshape.swaType.trans hc.ready.swa⟩, hshape.size.trans hc.size⟩

def MemoryCall.Effect (c : LlamaContext) (after : Multiset (ℤ × Finset SeqId)) : MemoryCall → Prop
  | .decode batch a => ∃ r c', c.decode batch a = some (r, c') ∧ Written c batch a r after
  | m => after = edit m.onEntry c.memory.contents

theorem call_spec (hc : c.Sound size) (hm : m.Ok c) :
    ∃ c', c.call m = some c' ∧ c'.Sound size ∧ m.Effect c c'.memory.contents := by
  cases m with
  | clear =>
      refine ⟨_, rfl, ⟨⟨valid_clear c.memory, hc.ready.swa⟩,
        List.length_replicate.trans hc.size⟩, ?_⟩
      have hleft : c.memory.clear.contents = 0 := by
        simp [contents, contentsOf, KvCache.clear, KvCells.reset]
      have hright : edit (MemoryCall.onEntry .clear) c.memory.contents = 0 :=
        Multiset.filter_eq_nil.mpr fun e he h => by
          obtain ⟨e', -, rfl⟩ := Multiset.mem_map.mp he
          exact h.2 rfl
      exact hleft.trans hright.symm
  | seqRm seqId p0 p1 =>
      obtain ⟨k, hk, hvalid, hshape⟩ := hc.valid.seqRm seqId p0 p1
      exact ⟨_, congrArg (Option.map _) hk, hc.of_shape hvalid hshape,
        seqRm_contents hc.valid seqId p0 p1 hk⟩
  | seqCp src dst p0 p1 =>
      obtain ⟨k, hk, hvalid, hshape⟩ := hc.valid.seqCp hm
      exact ⟨_, congrArg (Option.map _) hk, hc.of_shape hvalid hshape,
        seqCp_contents hc.valid hm hk⟩
  | seqKeep s =>
      obtain ⟨k, hk, hvalid, hshape⟩ := hc.valid.seqKeep s
      exact ⟨_, congrArg (Option.map _) hk, hc.of_shape hvalid hshape, seqKeep_contents hc.valid hk⟩
  | seqAdd s p0 p1 shift =>
      obtain ⟨k, hk, hvalid, hshape⟩ := hc.valid.seqAdd s p0 p1 shift
      exact ⟨_, congrArg (Option.map _) hk, hc.of_shape hvalid hshape, seqAdd_contents hc.valid hk⟩
  | seqDiv s p0 p1 d =>
      obtain ⟨k, hk, hvalid, hshape⟩ := hc.valid.seqDiv s p0 p1 (le_of_lt hm)
      exact ⟨_, congrArg (Option.map _) hk, hc.of_shape hvalid hshape,
        seqDiv_contents hc.valid (le_of_lt hm) hk⟩
  | update optimize shifted =>
      have hid := edit_id (f := MemoryCall.onEntry (.update optimize shifted)) hc.valid fun _ => rfl
      obtain ⟨r, k, hk, hready, hsize, hcontents, -⟩ :=
        kvSelfUpdate_spec hc.ready optimize shifted c.maxMoves
      exact ⟨_, congrArg (Option.map _) hk, ⟨hready, hsize.trans hc.size⟩,
        hcontents.trans hid.symm⟩
  | decode batch a =>
      obtain ⟨r, k', hdecode, hready, hsize, hwritten⟩ := decode_spec hc.ready hm.1 hm.2
      exact ⟨_, congrArg (Option.map _) hdecode, ⟨hready, hsize.trans hc.size⟩, r, _, hdecode,
        hwritten⟩

theorem run_sound (hc : c.Sound size) (hrun : c.Allowed calls) :
    ∃ c', c.run calls = some c' ∧ c'.Sound size := by
  induction calls generalizing c with
  | nil => exact ⟨c, rfl, hc⟩
  | cons m calls ih =>
      obtain ⟨hm, hrest⟩ := hrun
      obtain ⟨c₁, hc₁, hsound, -⟩ := call_spec hc hm
      obtain ⟨c', hc', hsound'⟩ := ih hsound (hrest c₁ hc₁)
      exact ⟨c', by rw [run, List.foldlM_cons, hc₁]; exact hc', hsound'⟩

/-- No assertion fails in a run. Whatever calls led to a cache, `seq_pos_min` and `seq_pos_max`
name the first and the last position it holds of a sequence, and `used` counts its cells. -/
theorem run_indexes (hc : c.Sound size) (hrun : c.Allowed calls) :
    ∃ c', c.run calls = some c' ∧ c'.memory.Valid ∧
      c'.memory.cells.getUsed = c'.memory.contents.card ∧
      ∀ s, (c'.memory.positions s).Nonempty ∧
          IsLeast (c'.memory.positions s) (c'.memory.cells.seqPosMin s) ∧
          IsGreatest (c'.memory.positions s) (c'.memory.cells.seqPosMax s) ∨
        c'.memory.positions s = ∅ ∧ c'.memory.cells.seqPosMin s = -1 ∧
          c'.memory.cells.seqPosMax s = -1 := by
  obtain ⟨c', hrun', hsound⟩ := run_sound hc hrun
  exact ⟨c', hrun', hsound.valid, getUsed_eq_card hsound.valid, seqPos_spec hsound.valid⟩

theorem allowed_getOne (c : LlamaContext) (hc : 2 ≤ c.nBatch) :
    c.Allowed [.decode (.getOne [7, 8]) ⟨true, false, true, fun _ => .success⟩,
      .seqAdd 0 1 (-1) 3, .update true true] :=
  ⟨⟨LlamaBatch.wellFormed_getOne _, hc⟩, fun _ _ => ⟨trivial, fun _ _ =>
    ⟨trivial, fun _ _ => trivial⟩⟩⟩

theorem run_indexes_getOne :
    ∃ c', run ⟨.new 4 32 0 .none, 10, 4, 2, 8⟩
        [.decode (.getOne [7, 8]) ⟨true, false, true, fun _ => .success⟩, .seqAdd 0 1 (-1) 3,
          .update true true] = some c' ∧ c'.memory.Valid ∧
      c'.memory.cells.getUsed = c'.memory.contents.card ∧
      ∀ s, (c'.memory.positions s).Nonempty ∧
          IsLeast (c'.memory.positions s) (c'.memory.cells.seqPosMin s) ∧
          IsGreatest (c'.memory.positions s) (c'.memory.cells.seqPosMax s) ∨
        c'.memory.positions s = ∅ ∧ c'.memory.cells.seqPosMin s = -1 ∧
          c'.memory.cells.seqPosMax s = -1 :=
  run_indexes (sound_new 10 4 2 8 4 32 0) (allowed_getOne _ (by decide))

/-! ## The contents after a run -/

/-- The tokens that a call leaves in the cache, where no ubatch fails. -/
def MemoryCall.written (c : LlamaContext) : MemoryCall → Ubatch
  | .decode batch a =>
      if (c.decode batch a).map Prod.fst = some 0 then (batch.init c.memory c.nVocab).getD []
      else []
  | _ => []

/-- What the calls of a run did: the edits of the memory interface and the tokens written. -/
def log : LlamaContext → List MemoryCall → List ((ℤ × Finset SeqId → ℤ × Finset SeqId) × Ubatch)
  | _, [] => []
  | c, m :: calls => (m.onEntry, m.written c) :: ((c.call m).map fun c => c.log calls).getD []

theorem effect_eq (hk : c.memory.Valid) {after : Multiset (ℤ × Finset SeqId)}
    (hst : ∀ batch a, m = .decode batch a → ∀ i, a.status i = .success) (h : m.Effect c after) :
    after = edit m.onEntry c.memory.contents + entries (m.written c) := by
  cases m with
  | decode batch a =>
      obtain ⟨r, c', hdecode, hwritten⟩ := h
      have hid := edit_id (f := MemoryCall.onEntry (.decode batch a)) hk fun _ => rfl
      rw [hid, MemoryCall.written, hdecode]
      cases hwritten with
      | rejected | noSlot | unreserved => exact (add_zero _).symm
      | processed hinit hproc =>
          obtain ⟨rfl, rfl⟩ := hproc.of_success (hst batch a rfl)
          have hzero : (some ((0 : ℤ), c')).map Prod.fst = some 0 := rfl
          rw [if_pos hzero, hinit, LlamaBatch.splitAll_flatten le_rfl]
          rfl
  | clear | seqRm | seqCp | seqKeep | seqAdd | seqDiv | update => exact h.trans (add_zero _).symm

/-- While no ubatch fails, the contents are what a plain multiset would hold after the same
calls: slots, heads, indexes, shifts and defragmentations lose and repeat nothing. -/
theorem run_contents (hc : c.Sound size) (hrun : c.Allowed calls)
    (hst : ∀ batch a, .decode batch a ∈ calls → ∀ i, a.status i = .success) :
    ∃ c', c.run calls = some c' ∧ c'.memory.contents =
      (c.log calls).foldl (fun m e => edit e.1 m + entries e.2) c.memory.contents := by
  induction calls generalizing c with
  | nil => exact ⟨c, rfl, rfl⟩
  | cons m calls ih =>
      obtain ⟨hm, hrest⟩ := hrun
      obtain ⟨c₁, hc₁, hsound, heffect⟩ := call_spec hc hm
      obtain ⟨c', hc', hcontents⟩ := ih hsound (hrest c₁ hc₁) fun batch a hmem =>
        hst batch a (List.mem_cons_of_mem m hmem)
      refine ⟨c', by rw [run, List.foldlM_cons, hc₁]; exact hc', ?_⟩
      have hstep := effect_eq hc.valid
        (fun batch a h => hst batch a (h ▸ List.mem_cons_self)) heffect
      rw [hcontents, log, hc₁, List.foldl_cons, hstep]
      rfl

theorem run_contents_getOne :
    ∃ c', run ⟨.new 4 32 0 .none, 10, 4, 2, 8⟩
        [.decode (.getOne [7, 8]) ⟨true, false, true, fun _ => .success⟩, .seqAdd 0 1 (-1) 3,
          .update true true] = some c' ∧
      c'.memory.contents =
        (log ⟨.new 4 32 0 .none, 10, 4, 2, 8⟩
            [.decode (.getOne [7, 8]) ⟨true, false, true, fun _ => .success⟩, .seqAdd 0 1 (-1) 3,
              .update true true]).foldl (fun m e => edit e.1 m + entries e.2)
          (new 4 32 0 .none).contents :=
  run_contents (sound_new 10 4 2 8 4 32 0) (allowed_getOne _ (by decide)) fun batch a h => by
    simp only [List.mem_cons, MemoryCall.decode.injEq, reduceCtorEq, or_false,
      List.not_mem_nil] at h
    obtain ⟨-, rfl⟩ := h
    exact fun _ => rfl

end LlamaContext

end SmollChat
