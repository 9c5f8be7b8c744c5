import SmollChat.Model.KvCache
import SmollChat.Verification.KvCache.Cells

/-! # Operations on sequences

Each operation is a loop over all cells. On a cache with valid cells none of its assertions
fails, and what it leaves is the list of cells mapped by what it does to one of them. -/

namespace SmollChat

open KvCells

namespace KvCell

variable {x : KvCell} {s : SeqId} {p0 p1 d : ℤ}

def InRange (p0 p1 : ℤ) (x : KvCell) : Prop := p0 ≤ x.pos ∧ x.pos < p1

instance : Decidable (x.InRange p0 p1) := inferInstanceAs (Decidable (_ ∧ _))

theorem InRange.pos_ne (h : x.InRange p0 p1) (hp0 : 0 ≤ p0) : x.pos ≠ -1 := by
  have := h.1
  omega

/-- The cell after `f`, where an operation on `s` applies to it. -/
def onRange (s : SeqId) (p0 p1 : ℤ) (f : KvCell → KvCell) (x : KvCell) : KvCell :=
  if x.InRange p0 p1 ∧ s ∈ x.seq then f x else x

def remove (p0 p1 : ℤ) (x : KvCell) : Option SeqId → KvCell
  | some s => x.onRange s p0 p1 (without s)
  | none => if x.InRange p0 p1 then empty else x

def freed (p0 p1 : ℤ) (x : KvCell) : Option SeqId → Bool
  | some s => x.InRange p0 p1 ∧ s ∈ x.seq ∧ x.seq.erase s = ∅
  | none => x.InRange p0 p1

/-- What every operation keeps of a cell. -/
structure Good (x : KvCell) : Prop extends x.Valid where
  owned : x.Owned

@[simp] theorem good_empty : empty.Good := ⟨valid_empty, owned_empty⟩

theorem Good.pos_ne (h : x.Good) (hs : s ∈ x.seq) : x.pos ≠ -1 := fun hpos => by
  simp [h.free hpos] at hs

theorem good_of_used (hpos : 0 ≤ x.pos) (hseq : x.seq ≠ ∅) : x.Good :=
  ⟨⟨by omega, fun h => by omega⟩, fun _ => hseq⟩

theorem Good.without (h : x.Good) (hs : s ∈ x.seq) : (x.without s).Good := by
  rw [KvCell.without]
  split_ifs with he
  · exact good_empty
  · exact good_of_used (h.nonneg (h.pos_ne hs)) he

theorem Good.keep (h : x.Good) (s : SeqId) : (x.keep s).Good := by
  rw [KvCell.keep]
  split_ifs with hs
  · exact good_of_used (h.nonneg (h.pos_ne hs)) (Finset.singleton_ne_empty s)
  · exact good_empty

theorem Good.onRange {f : KvCell → KvCell} (h : x.Good) (hf : s ∈ x.seq → (f x).Good) :
    (x.onRange s p0 p1 f).Good := by
  rw [KvCell.onRange]
  split_ifs with hs
  · exact hf hs.2
  · exact h

theorem Good.remove (h : x.Good) (seqId : Option SeqId) : (x.remove p0 p1 seqId).Good := by
  cases seqId with
  | none => by_cases hr : x.InRange p0 p1 <;> simp [KvCell.remove, hr, h]
  | some s => exact h.onRange h.without

theorem Good.join (h : x.Good) (hs : s ∈ x.seq) (t : SeqId) : (x.join t).Good :=
  good_of_used (h.nonneg (h.pos_ne hs)) (Finset.insert_ne_empty t x.seq)

theorem Good.moved (h : x.Good) (hs : s ∈ x.seq) (d : ℤ) : (x.moved d).Good := by
  rw [KvCell.moved]
  split_ifs with hneg
  · exact good_empty
  · exact good_of_used (not_lt.mp hneg) (h.owned (h.pos_ne hs))

theorem Good.divided (h : x.Good) (hs : s ∈ x.seq) (hd : 0 ≤ d) : (x.divided d).Good :=
  good_of_used (Int.tdiv_nonneg (h.nonneg (h.pos_ne hs)) hd) (h.owned (h.pos_ne hs))

end KvCell

namespace KvCache

variable {k : KvCache} {b : Bool} {l : List KvCell}

/-- The indexes are those of the cells, the cells are good, shifts are recorded, and the
head lies within the cells or at their end. -/
structure Valid (k : KvCache) : Prop where
  indexes : k.cells = .of k.cells.hasShift k.cells.cells
  cells : ∀ x ∈ k.cells.cells, x.Good
  shift : k.cells.hasShift = false → ∀ x ∈ k.cells.cells, x.shift = 0
  head : k.head ≤ k.cells.size

theorem valid_of (hcells : ∀ x ∈ l, x.Good) (hshift : b = false → ∀ x ∈ l, x.shift = 0)
    (hk : k.cells = .of b l) (hhead : k.head ≤ l.length) : k.Valid := by
  obtain ⟨c, head, nPad, nSwa, swaType⟩ := k
  obtain rfl : c = .of b l := hk
  exact ⟨rfl, hcells, hshift, hhead⟩

/-- What the operations on sequences leave of the data that is not in the cells. -/
structure SameShape (k k' : KvCache) : Prop where
  size : k'.cells.size = k.cells.size
  nPad : k'.nPad = k.nPad
  nSwa : k'.nSwa = k.nSwa
  swaType : k'.swaType = k.swaType

theorem SameShape.refl (k : KvCache) : k.SameShape k := ⟨rfl, rfl, rfl, rfl⟩

/-! ## The loop over the cells -/

theorem visit_eq {f : KvCells → ℕ → Option (Bool × KvCells)} {c c' : KvCells} {i newHead : ℕ}
    {emptied : Bool} (hf : f c i = some (emptied, c')) :
    visit f (newHead, c) i = some (if emptied ∧ newHead = c'.size then i else newHead, c') := by
  simp [visit, hf]

/-- The first cell of the rest that becomes empty is the new head unless one is known. -/
theorem findIdx_step {p : KvCell → Bool} (x : KvCell) (todo : List KvCell) (n newHead : ℕ) :
    (if (if p x = true ∧ newHead = n + (todo.length + 1) then n else newHead) =
        n + 1 + todo.length then n + 1 + todo.findIdx p
      else if p x = true ∧ newHead = n + (todo.length + 1) then n else newHead) =
    if newHead = n + (todo.length + 1) then n + (x :: todo).findIdx p else newHead := by
  rw [List.findIdx_cons]
  cases hp : p x <;> simp <;> split_ifs <;> omega

/-- A loop whose body treats the cell at its index maps the whole list. -/
theorem eachCell_of {f : KvCells → ℕ → Option (Bool × KvCells)} {p q : KvCell → Bool}
    {g : KvCell → KvCell} {P : KvCell → Prop}
    (hf : ∀ b l i x, l[i]? = some x → P x →
      f (.of b l) i = some (p x, .of (b || q x) (l.set i (g x))))
    (hl : ∀ x ∈ l, P x) :
    eachCell f (.of b l) = some (l.findIdx p, .of (b || l.any q) (l.map g)) := by
  have hloop : ∀ (todo done : List KvCell) (b : Bool) (newHead : ℕ), (∀ x ∈ todo, P x) →
      (List.range' done.length todo.length).foldlM (visit f)
          (newHead, KvCells.of b (done ++ todo)) =
        some (if newHead = done.length + todo.length then done.length + todo.findIdx p
            else newHead,
          .of (b || todo.any q) (done ++ todo.map g)) := by
    intro todo
    induction todo with
    | nil => intro done b newHead _; by_cases h : newHead = done.length <;> simp [h]
    | cons x todo ih =>
        intro done b newHead hgood
        obtain ⟨hx, hrest⟩ := List.forall_mem_cons.mp hgood
        have hget : (done ++ x :: todo)[done.length]? = some x := by simp
        have hset : (done ++ x :: todo).set done.length (g x) = (done ++ [g x]) ++ todo := by simp
        have hlen : (done ++ [g x]).length = done.length + 1 := by simp
        have hsize : (KvCells.of (b || q x) (done ++ [g x] ++ todo)).size =
            done.length + (todo.length + 1) := by simp
        rw [List.length_cons, List.range'_succ, List.foldlM_cons, visit_eq (hf _ _ _ _ hget hx),
          hset, Option.bind_eq_bind, Option.bind_some, hsize, ← hlen, ih _ _ _ hrest, hlen,
          findIdx_step x todo done.length newHead]
        simp [Bool.or_assoc]
  have h := hloop l [] b l.length hl
  simp only [List.length_nil, Nat.zero_add, List.nil_append, if_true] at h
  rw [eachCell, of_size, List.range_eq_range', h]

/-! ## The operations -/

variable {x : KvCell} {i : ℕ} {s dst : SeqId} {p0 p1 d : ℤ}

theorem posIn_of (hx : l[i]? = some x) (p0 p1 : ℤ) :
    (KvCells.of b l).posIn i p0 p1 = some (decide (x.InRange p0 p1)) := by
  simp only [posIn, of_cells, hx, Option.bind_eq_bind, Option.bind_some, KvCell.InRange]
  rfl

theorem seqHas_of (hx : l[i]? = some x) (s : SeqId) :
    (KvCells.of b l).seqHas i s = some (decide (s ∈ x.seq)) := by
  simp [seqHas, hx]

theorem set_self (hx : l[i]? = some x) : l.set i x = l := by
  obtain ⟨hi, rfl⟩ := List.getElem?_eq_some_iff.mp hx
  exact List.set_getElem_self hi

theorem bounds_nonneg (p0 p1 : ℤ) : 0 ≤ (bounds p0 p1).1 := by
  simp only [bounds]
  split_ifs <;> omega

/-- The head after an operation that frees cells: the first one freed, if it comes before. -/
theorem head_eq_min {p : KvCell → Bool} {head : ℕ} (hhead : head ≤ l.length) :
    (if l.findIdx p ≠ l.length ∧ l.findIdx p < head then l.findIdx p else head) =
      min head (l.findIdx p) := by
  have hle : l.findIdx p ≤ l.length := List.findIdx_le_length
  split_ifs <;> omega

theorem eachCell_keep {f : KvCells → ℕ → Option (Bool × KvCells)} {p : KvCell → Bool}
    {g : KvCell → KvCell} {P : KvCell → Prop}
    (hf : ∀ b l i x, l[i]? = some x → P x →
      f (.of b l) i = some (p x, .of b (l.set i (g x))))
    (hl : ∀ x ∈ l, P x) :
    eachCell f (.of b l) = some (l.findIdx p, .of b (l.map g)) := by
  have h := eachCell_of (b := b) (q := fun _ => false)
    (fun b l i x hx hP => (hf b l i x hx hP).trans (by rw [Bool.or_false])) hl
  rwa [List.any_eq_false.mpr fun _ _ => Bool.false_ne_true, Bool.or_false] at h

theorem inRange_of {f : KvCells → ℕ → Option (Bool × KvCells)} {q : Bool} {p : KvCell → Bool}
    {g : KvCell → KvCell} (hx : l[i]? = some x)
    (hf : x.InRange p0 p1 → s ∈ x.seq →
      f (.of b l) i = some (p x, .of (b || q) (l.set i (g x)))) :
    inRange s p0 p1 f (.of b l) i =
      some (decide (x.InRange p0 p1 ∧ s ∈ x.seq) && p x,
        .of (b || (decide (x.InRange p0 p1 ∧ s ∈ x.seq) && q))
          (l.set i (x.onRange s p0 p1 g))) := by
  by_cases hr : x.InRange p0 p1
  · by_cases hs : s ∈ x.seq
    · simp [inRange, posIn_of hx, seqHas_of hx, hr, hs, hf hr hs, KvCell.onRange]
    · simp [inRange, posIn_of hx, seqHas_of hx, hr, hs, KvCell.onRange, set_self hx]
  · simp [inRange, posIn_of hx, hr, KvCell.onRange, set_self hx]

theorem rmInRange_of (hp0 : 0 ≤ p0) (hx : l[i]? = some x) :
    rmInRange p0 p1 (.of b l) i =
      some (x.freed p0 p1 none, .of b (l.set i (x.remove p0 p1 none))) := by
  by_cases hr : x.InRange p0 p1
  · simp [rmInRange, posIn_of hx, hr, rm_of hx (hr.pos_ne hp0), KvCell.freed, KvCell.remove]
  · simp [rmInRange, posIn_of hx, hr, KvCell.freed, KvCell.remove, set_self hx]

theorem inRange_seqRm (hx : l[i]? = some x) (hgood : x.Good) :
    inRange s p0 p1 (fun c i => c.seqRm i s) (.of b l) i =
      some (x.freed p0 p1 (some s), .of b (l.set i (x.remove p0 p1 (some s)))) := by
  rw [inRange_of (q := false) (p := fun x => x.seq.erase s = ∅) (g := KvCell.without s) hx
    fun _ hs => by rw [KvCells.seqRm_of hx hs (hgood.pos_ne hs), Bool.or_false]]
  simp [KvCell.freed, KvCell.remove, Bool.and_assoc]

theorem inRange_seqAdd (hx : l[i]? = some x) (hgood : x.Good)
    (hdst : x.InRange p0 p1 → s ∈ x.seq → dst ∉ x.seq) :
    inRange s p0 p1 (fun c i => (c.seqAdd i dst).map fun c => (false, c)) (.of b l) i =
      some (false, .of b (l.set i (x.onRange s p0 p1 (KvCell.join dst)))) := by
  rw [inRange_of (q := false) (p := fun _ => false) (g := KvCell.join dst) hx fun hr hs => by
    rw [seqAdd_of hx (hgood.pos_ne hs) (hdst hr hs), Bool.or_false]; rfl]
  simp

theorem inRange_posAdd (hx : l[i]? = some x) (hgood : x.Good) :
    inRange s p0 p1 (fun c i => c.posAdd i d) (.of b l) i =
      some (decide (x.InRange p0 p1 ∧ s ∈ x.seq) && decide (x.pos + d < 0),
        .of (b || decide (x.InRange p0 p1 ∧ s ∈ x.seq))
          (l.set i (x.onRange s p0 p1 (KvCell.moved d)))) := by
  rw [inRange_of (q := true) (p := fun x => x.pos + d < 0) (g := KvCell.moved d) hx fun _ hs => by
    rw [posAdd_of hx (hgood.pos_ne hs), Bool.or_true], Bool.and_true]

theorem inRange_posDiv (hx : l[i]? = some x) (hgood : x.Good) (hd : 0 ≤ d) :
    inRange s p0 p1 (fun c i => (c.posDiv i d).map fun c => (false, c)) (.of b l) i =
      some (false, .of (b || decide (x.InRange p0 p1 ∧ s ∈ x.seq))
        (l.set i (x.onRange s p0 p1 (KvCell.divided d)))) := by
  rw [inRange_of (q := true) (p := fun _ => false) (g := KvCell.divided d) hx fun _ hs => by
    rw [posDiv_of hx hgood.toValid (hgood.pos_ne hs) hd, Bool.or_true]; rfl, Bool.and_true,
    Bool.and_false]

theorem seqRm_of (hk : k.cells = .of b l) (hgood : ∀ x ∈ l, x.Good) (hhead : k.head ≤ l.length)
    (seqId : Option SeqId) (p0 p1 : ℤ) :
    k.seqRm seqId p0 p1 = some { k with
      cells := .of b (l.map fun x => x.remove (bounds p0 p1).1 (bounds p0 p1).2 seqId)
      head := min k.head
        (l.findIdx fun x => x.freed (bounds p0 p1).1 (bounds p0 p1).2 seqId) } := by
  have hp0 := bounds_nonneg p0 p1
  cases seqId with
  | none =>
      simp only [seqRm, hk, eachCell_keep (fun _ _ _ _ hx _ => rmInRange_of hp0 hx) hgood,
        Option.bind_eq_bind, Option.bind_some, of_size, List.length_map, Option.pure_def]
      rw [head_eq_min hhead]
  | some s =>
      simp only [seqRm, hk, eachCell_keep (fun _ _ _ _ hx hP => inRange_seqRm hx hP) hgood,
        Option.bind_eq_bind, Option.bind_some, of_size, List.length_map, Option.pure_def]
      rw [head_eq_min hhead]

/-- `seq_cp` on the list of cells; it asserts that the target is in none of the cells. -/
theorem seqCp_of (hk : k.cells = .of b l)
    (hgood : ∀ x ∈ l, x.Good ∧
      (x.InRange (bounds p0 p1).1 (bounds p0 p1).2 → s ∈ x.seq → dst ∉ x.seq))
    (hne : s ≠ dst) :
    k.seqCp s dst p0 p1 = some { k with
      cells := .of b (l.map (KvCell.onRange s (bounds p0 p1).1 (bounds p0 p1).2
        (KvCell.join dst))) } := by
  simp only [seqCp, hk, if_neg hne,
    eachCell_keep (fun _ _ _ _ hx hP => inRange_seqAdd hx hP.1 hP.2) hgood,
    Option.bind_eq_bind, Option.bind_some, Option.pure_def]

theorem seqKeep_of (hk : k.cells = .of b l) (hgood : ∀ x ∈ l, x.Good)
    (hhead : k.head ≤ l.length) (s : SeqId) :
    k.seqKeep s = some { k with
      cells := .of b (l.map (KvCell.keep s))
      head := min k.head (l.findIdx fun x => s ∉ x.seq ∧ x.seq ≠ ∅) } := by
  have hloop := eachCell_keep (b := b) (f := fun c i => c.seqKeep i s)
    (fun b l i x hx hP => KvCells.seqKeep_of (b := b) hx hP.toValid hP.owned) hgood
  simp only [seqKeep, hk, hloop, Option.bind_eq_bind, Option.bind_some, of_size,
    List.length_map, Option.pure_def]
  rw [head_eq_min hhead]

/-- The first cell that `seq_add` frees. -/
def firstMovedOut (s : SeqId) (p0 p1 d : ℤ) (l : List KvCell) : ℕ :=
  l.findIdx fun x => decide (x.InRange p0 p1 ∧ s ∈ x.seq) && decide (x.pos + d < 0)

theorem seqAdd_of (hk : k.cells = .of b l) (hgood : ∀ x ∈ l, x.Good) (hd : d ≠ 0)
    (hne : (bounds p0 p1).1 ≠ (bounds p0 p1).2) (s : SeqId) :
    k.seqAdd s p0 p1 d = some { k with
      cells := .of (b || l.any fun x => x.InRange (bounds p0 p1).1 (bounds p0 p1).2 ∧ s ∈ x.seq)
        (l.map (KvCell.onRange s (bounds p0 p1).1 (bounds p0 p1).2 (KvCell.moved d)))
      head :=
        if firstMovedOut s (bounds p0 p1).1 (bounds p0 p1).2 d l ≠ l.length then
          firstMovedOut s (bounds p0 p1).1 (bounds p0 p1).2 d l
        else 0 } := by
  have hloop := eachCell_of (b := b) (f := inRange s (bounds p0 p1).1 (bounds p0 p1).2
    fun c i => c.posAdd i d) (fun _ _ _ _ hx hP => inRange_posAdd hx hP) hgood
  simp only [seqAdd, hk, if_neg hd, if_neg hne, hloop, Option.bind_eq_bind, Option.bind_some,
    of_size, List.length_map, Option.pure_def, firstMovedOut]
  rfl

theorem seqDiv_of (hk : k.cells = .of b l) (hgood : ∀ x ∈ l, x.Good) (hd : 0 ≤ d) (hone : d ≠ 1)
    (hne : (bounds p0 p1).1 ≠ (bounds p0 p1).2) (s : SeqId) :
    k.seqDiv s p0 p1 d = some { k with
      cells := .of (b || l.any fun x => x.InRange (bounds p0 p1).1 (bounds p0 p1).2 ∧ s ∈ x.seq)
        (l.map (KvCell.onRange s (bounds p0 p1).1 (bounds p0 p1).2 (KvCell.divided d))) } := by
  have hloop := eachCell_of (b := b) (f := inRange s (bounds p0 p1).1 (bounds p0 p1).2
    fun c i => (c.posDiv i d).map fun c => (false, c))
    (fun _ _ _ _ hx hP => inRange_posDiv hx hP hd) hgood
  simp only [seqDiv, hk, if_neg hone, if_neg hne, hloop, Option.bind_eq_bind, Option.bind_some,
    Option.pure_def]

/-! ## Preservation -/

theorem shift_without (hx : x.shift = 0) : (x.without s).shift = 0 := by
  rw [KvCell.without]
  split_ifs
  · rfl
  · exact hx

theorem shift_onRange {f : KvCell → KvCell} (hx : x.shift = 0) (hf : (f x).shift = 0) :
    (x.onRange s p0 p1 f).shift = 0 := by
  rw [KvCell.onRange]
  split_ifs
  · exact hf
  · exact hx

theorem shift_remove (hx : x.shift = 0) (seqId : Option SeqId) :
    (x.remove p0 p1 seqId).shift = 0 := by
  cases seqId with
  | none => by_cases hr : x.InRange p0 p1 <;> simp [KvCell.remove, hr, hx]
  | some s => exact shift_onRange hx (shift_without hx)

theorem shift_keep (hx : x.shift = 0) (s : SeqId) : (x.keep s).shift = 0 := by
  rw [KvCell.keep]
  split_ifs
  · exact hx
  · rfl

/-- Cells that an operation with a shift does not reach are as they were. -/
theorem shift_of_any_eq_false {f : KvCell → KvCell}
    (hb : (b || l.any fun x => x.InRange p0 p1 ∧ s ∈ x.seq) = false)
    (hl : b = false → ∀ x ∈ l, x.shift = 0) :
    ∀ x ∈ l.map (KvCell.onRange s p0 p1 f), x.shift = 0 := by
  obtain ⟨hbf, hany⟩ := Bool.or_eq_false_iff.mp hb
  refine List.forall_mem_map.mpr fun x hx => ?_
  have hnot : ¬(x.InRange p0 p1 ∧ s ∈ x.seq) := by
    simpa using List.any_eq_false.mp hany x hx
  rw [KvCell.onRange, if_neg hnot]
  exact hl hbf x hx

theorem valid_new (kvSize nPad nSwa : ℕ) (swaType : SwaType) :
    (new kvSize nPad nSwa swaType).Valid :=
  valid_of (fun _ hx => (List.eq_of_mem_replicate hx) ▸ KvCell.good_empty)
    (fun _ _ hx => (List.eq_of_mem_replicate hx) ▸ KvCell.empty_shift)
    (reset_eq_of kvSize) (Nat.zero_le _)

theorem valid_clear (k : KvCache) : k.clear.Valid :=
  valid_new k.cells.size k.nPad k.nSwa k.swaType

theorem Valid.seqRm (hk : k.Valid) (seqId : Option SeqId) (p0 p1 : ℤ) :
    ∃ k', k.seqRm seqId p0 p1 = some k' ∧ k'.Valid ∧ k.SameShape k' := by
  refine ⟨_, seqRm_of hk.indexes hk.cells hk.head seqId p0 p1, ?_,
    ⟨List.length_map _, rfl, rfl, rfl⟩⟩
  refine valid_of (List.forall_mem_map.mpr fun x hx => (hk.cells x hx).remove seqId)
    (fun hb => List.forall_mem_map.mpr fun x hx => shift_remove (hk.shift hb x hx) seqId) rfl ?_
  rw [List.length_map]
  exact (Nat.min_le_left ..).trans hk.head

theorem Valid.seqCp (hk : k.Valid)
    (hdst : s ≠ dst → ∀ x ∈ k.cells.cells,
      x.InRange (bounds p0 p1).1 (bounds p0 p1).2 → s ∈ x.seq → dst ∉ x.seq) :
    ∃ k', k.seqCp s dst p0 p1 = some k' ∧ k'.Valid ∧ k.SameShape k' := by
  by_cases hne : s = dst
  · exact ⟨k, by simp [KvCache.seqCp, hne], hk, .refl k⟩
  · refine ⟨_, seqCp_of hk.indexes (fun x hx => ⟨hk.cells x hx, hdst hne x hx⟩) hne, ?_,
      ⟨List.length_map _, rfl, rfl, rfl⟩⟩
    refine valid_of (List.forall_mem_map.mpr fun x hx =>
      (hk.cells x hx).onRange fun hs => (hk.cells x hx).join hs dst)
      (fun hb => List.forall_mem_map.mpr fun x hx =>
        shift_onRange (hk.shift hb x hx) (hk.shift hb x hx)) rfl ?_
    rw [List.length_map]
    exact hk.head

theorem Valid.seqKeep (hk : k.Valid) (s : SeqId) :
    ∃ k', k.seqKeep s = some k' ∧ k'.Valid ∧ k.SameShape k' := by
  refine ⟨_, seqKeep_of hk.indexes hk.cells hk.head s, ?_, ⟨List.length_map _, rfl, rfl, rfl⟩⟩
  refine valid_of (List.forall_mem_map.mpr fun x hx => (hk.cells x hx).keep s)
    (fun hb => List.forall_mem_map.mpr fun x hx => shift_keep (hk.shift hb x hx) s) rfl ?_
  rw [List.length_map]
  exact (Nat.min_le_left ..).trans hk.head

theorem Valid.seqAdd (hk : k.Valid) (s : SeqId) (p0 p1 d : ℤ) :
    ∃ k', k.seqAdd s p0 p1 d = some k' ∧ k'.Valid ∧ k.SameShape k' := by
  by_cases hd : d = 0
  · exact ⟨k, by simp [KvCache.seqAdd, hd], hk, .refl k⟩
  by_cases hne : (bounds p0 p1).1 = (bounds p0 p1).2
  · exact ⟨k, by simp [KvCache.seqAdd, hd, hne], hk, .refl k⟩
  refine ⟨_, seqAdd_of hk.indexes hk.cells hd hne s, ?_, ⟨List.length_map _, rfl, rfl, rfl⟩⟩
  refine valid_of (List.forall_mem_map.mpr fun x hx =>
    (hk.cells x hx).onRange fun hs => (hk.cells x hx).moved hs d)
    (fun hb => shift_of_any_eq_false hb hk.shift) rfl ?_
  rw [List.length_map, firstMovedOut]
  split_ifs
  · exact List.findIdx_le_length
  · exact Nat.zero_le _

theorem Valid.seqDiv (hk : k.Valid) (s : SeqId) (p0 p1 : ℤ) (hd : 0 ≤ d) :
    ∃ k', k.seqDiv s p0 p1 d = some k' ∧ k'.Valid ∧ k.SameShape k' := by
  by_cases hone : d = 1
  · exact ⟨k, by simp [KvCache.seqDiv, hone], hk, .refl k⟩
  by_cases hne : (bounds p0 p1).1 = (bounds p0 p1).2
  · exact ⟨k, by simp [KvCache.seqDiv, hone, hne], hk, .refl k⟩
  refine ⟨_, seqDiv_of hk.indexes hk.cells hd hone hne s, ?_, ⟨List.length_map _, rfl, rfl, rfl⟩⟩
  refine valid_of (List.forall_mem_map.mpr fun x hx =>
    (hk.cells x hx).onRange fun hs => (hk.cells x hx).divided hs hd)
    (fun hb => shift_of_any_eq_false hb hk.shift) rfl ?_
  rw [List.length_map]
  exact hk.head

theorem Valid.resetShift (hk : k.Valid) : { k with cells := k.cells.resetShift }.Valid := by
  refine valid_of (b := false) (l := k.cells.cells.map fun x => { x with shift := 0 })
    (List.forall_mem_map.mpr fun x hx => ?_) (fun _ => List.forall_mem_map.mpr fun _ _ => rfl) ?_ ?_
  · have hgood := hk.cells x hx
    exact ⟨⟨hgood.pos, fun h => by rw [hgood.free h]; rfl⟩, hgood.owned⟩
  · rw [hk.indexes]
    exact resetShift_of
  · rw [List.length_map]
    exact hk.head

end KvCache

end SmollChat
