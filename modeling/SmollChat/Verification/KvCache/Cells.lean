import SmollChat.Model.KvCells

/-! # The cells and their indexes

`KvCells.of` builds both indexes from the cells alone. Every operation takes cells with
their indexes to cells with theirs, so what it does can be read off the list. -/

namespace SmollChat

namespace KvCell

/-- The assertions on the position of a cell, and what a free cell holds. -/
structure Valid (x : KvCell) : Prop where
  pos : -1 ≤ x.pos
  free : x.pos = -1 → x = empty

def Owned (x : KvCell) : Prop := x.pos ≠ -1 → x.seq ≠ ∅

def without (s : SeqId) (x : KvCell) : KvCell :=
  if x.seq.erase s = ∅ then empty else { x with seq := x.seq.erase s }

def keep (s : SeqId) (x : KvCell) : KvCell := if s ∈ x.seq then { x with seq := {s} } else empty

def join (s : SeqId) (x : KvCell) : KvCell := { x with seq := insert s x.seq }

def moved (d : ℤ) (x : KvCell) : KvCell :=
  if x.pos + d < 0 then empty else { x with pos := x.pos + d, shift := x.shift + d }

def divided (d : ℤ) (x : KvCell) : KvCell :=
  { x with pos := x.pos.tdiv d, shift := x.shift + (x.pos - x.pos.tdiv d) }

@[simp] theorem valid_empty : empty.Valid := ⟨by decide, fun _ => rfl⟩

@[simp] theorem owned_empty : empty.Owned := fun h => absurd rfl h

@[simp] theorem empty_pos : empty.pos = -1 := rfl

@[simp] theorem empty_shift : empty.shift = 0 := rfl

@[simp] theorem empty_seq : empty.seq = ∅ := rfl

theorem Valid.nonneg {x : KvCell} (h : x.Valid) (hpos : x.pos ≠ -1) : 0 ≤ x.pos := by
  have := h.pos
  omega

end KvCell

namespace KvCells

variable {b : Bool} {l : List KvCell} {i : ℕ} {x y : KvCell} {s : SeqId} {p d : ℤ}

/-- The indices of the cells in use. -/
def usedOf (l : List KvCell) : Finset ℕ :=
  (Finset.range l.length).filter fun i => l[i]?.any fun x => x.pos ≠ -1

/-- How often each position occurs among the cells of a sequence. -/
def seqPosOf (l : List KvCell) (s : SeqId) : CountMap ℤ :=
  .ofList ((l.filter fun x => s ∈ x.seq).map KvCell.pos)

def of (b : Bool) (l : List KvCell) : KvCells := ⟨b, usedOf l, l, seqPosOf l⟩

@[simp] theorem of_cells : (of b l).cells = l := rfl

@[simp] theorem of_size : (of b l).size = l.length := rfl

@[simp] theorem of_hasShift : (of b l).hasShift = b := rfl

theorem mem_usedOf : i ∈ usedOf l ↔ ∃ x, l[i]? = some x ∧ x.pos ≠ -1 := by
  simp only [usedOf, Finset.mem_filter, Finset.mem_range, Option.any_eq_true, decide_eq_true_eq]
  exact ⟨fun h => h.2, fun ⟨x, hx, hpos⟩ => ⟨(List.getElem?_eq_some_iff.mp hx).1, x, hx, hpos⟩⟩

theorem count_seqPosOf (l : List KvCell) (s : SeqId) (p : ℤ) :
    (seqPosOf l s).count p = l.countP fun x => s ∈ x.seq ∧ x.pos = p := by
  rw [seqPosOf, CountMap.count_ofList, List.count, List.countP_map, List.countP_filter]
  refine List.countP_congr fun x _ => ?_
  simp [and_comm]

theorem usedOf_set (hx : l[i]? = some x) (y : KvCell) :
    usedOf (l.set i y) = if y.pos = -1 then (usedOf l).erase i else insert i (usedOf l) := by
  have hi : i < l.length := (List.getElem?_eq_some_iff.mp hx).1
  ext j
  by_cases hj : i = j
  · subst hj
    by_cases hy : y.pos = -1 <;> simp [mem_usedOf, hi, hy]
  · by_cases hy : y.pos = -1 <;> simp [mem_usedOf, hj, hy, Ne.symm hj]

/-- One cell replaced changes each count by what the two cells contribute. -/
theorem count_seqPosOf_set (hx : l[i]? = some x) (y : KvCell) (s : SeqId) (p : ℤ) :
    (seqPosOf (l.set i y) s).count p + (if s ∈ x.seq ∧ x.pos = p then 1 else 0) =
      (seqPosOf l s).count p + if s ∈ y.seq ∧ y.pos = p then 1 else 0 := by
  obtain ⟨hi, rfl⟩ := List.getElem?_eq_some_iff.mp hx
  have hle : (if s ∈ l[i].seq ∧ l[i].pos = p then 1 else 0) ≤
      l.countP fun x => s ∈ x.seq ∧ x.pos = p := by
    split_ifs with h
    · exact List.countP_pos_iff.mpr ⟨l[i], List.getElem_mem hi, by simpa using h⟩
    · exact Nat.zero_le _
  simp only [count_seqPosOf, List.countP_set hi, decide_eq_true_eq]
  omega

theorem count_pos (hx : l[i]? = some x) (hs : s ∈ x.seq) : 0 < (seqPosOf l s).count x.pos := by
  rw [count_seqPosOf]
  exact List.countP_pos_iff.mpr ⟨x, List.mem_of_getElem? hx, by simp [hs]⟩

theorem eq_of_set (hx : l[i]? = some x) {c : KvCells} (hcells : c.cells = l.set i y)
    (hused : c.used = if y.pos = -1 then (usedOf l).erase i else insert i (usedOf l))
    (hcount : ∀ s p, (c.seqPos s).count p + (if s ∈ x.seq ∧ x.pos = p then 1 else 0) =
      (seqPosOf l s).count p + if s ∈ y.seq ∧ y.pos = p then 1 else 0) :
    c = of c.hasShift (l.set i y) := by
  obtain ⟨b, used, cells, seqPos⟩ := c
  obtain rfl : cells = l.set i y := hcells
  have hseqPos : seqPos = seqPosOf (l.set i y) := by
    funext s
    refine CountMap.ext_count fun p => ?_
    have h := count_seqPosOf_set hx y s p
    have h' := hcount s p
    dsimp only at h'
    omega
  simp only [of, KvCells.mk.injEq, true_and]
  exact ⟨hused.trans (usedOf_set hx y).symm, hseqPos⟩

/-! ## Operations on one cell -/

theorem guard_bind {α : Type} {q : Prop} [Decidable q] (hq : q) (f : Unit → Option α) :
    (guard q >>= f) = f () := by
  simp [guard, hq]

theorem guard_bind_eq_some {α : Type} {q : Prop} [Decidable q] {f : Unit → Option α} {a : α} :
    (guard q >>= f) = some a ↔ q ∧ f () = some a := by
  by_cases hq : q <;> simp [guard, hq]

theorem seqPosRm_eq {c : KvCells} (hx : c.cells[i]? = some x)
    (hall : ∀ s ∈ x.seq, 0 < (c.seqPos s).count x.pos) :
    c.seqPosRm i = some { c with
      seqPos := fun s => if s ∈ x.seq then (c.seqPos s).dec x.pos else c.seqPos s } := by
  simp only [seqPosRm, hx, Option.bind_eq_bind, Option.bind_some]
  exact guard_bind hall _

theorem seqPosRm_of (hx : l[i]? = some x) :
    (of b l).seqPosRm i = some { of b l with
      seqPos := fun s => if s ∈ x.seq then (seqPosOf l s).dec x.pos else seqPosOf l s } :=
  seqPosRm_eq hx fun _ hs => count_pos hx hs

theorem count_dec_of (hx : l[i]? = some x) (s : SeqId) (p : ℤ) :
    ((if s ∈ x.seq then (seqPosOf l s).dec x.pos else seqPosOf l s).count p) +
      (if s ∈ x.seq ∧ x.pos = p then 1 else 0) = (seqPosOf l s).count p := by
  by_cases hs : s ∈ x.seq
  · by_cases hp : p = x.pos
    · subst hp
      have := count_pos hx hs
      simp only [hs, CountMap.count_dec, if_true, true_and]
      omega
    · simp [hs, hp, Ne.symm hp]
  · simp [hs]

theorem rm_of (hx : l[i]? = some x) (hpos : x.pos ≠ -1) :
    (of b l).rm i = some (of b (l.set i .empty)) := by
  simp only [rm, of_cells, hx, Option.bind_eq_bind, Option.bind_some]
  rw [← Option.bind_eq_bind, guard_bind hpos, seqPosRm_of hx]
  refine congrArg some (eq_of_set hx rfl rfl fun s p => ?_)
  simpa using count_dec_of hx s p

theorem seqPosDec_eq {c : KvCells} (h : 0 < (c.seqPos s).count p) :
    c.seqPosDec s p =
      some { c with seqPos := Function.update c.seqPos s ((c.seqPos s).dec p) } :=
  guard_bind h _

theorem count_update {f : SeqId → CountMap ℤ} {m : CountMap ℤ} (s t : SeqId) (p : ℤ) :
    (Function.update f s m t).count p = if t = s then m.count p else (f t).count p := by
  by_cases h : t = s
  · subst h
    simp
  · simp [h]

/-- The counts after `seq_pos_dec`, for the cell without the sequence. -/
theorem count_dec_update (hx : l[i]? = some x) (hs : s ∈ x.seq) (t : SeqId) (p : ℤ) :
    (Function.update (seqPosOf l) s ((seqPosOf l s).dec x.pos) t).count p +
        (if t ∈ x.seq ∧ x.pos = p then 1 else 0) =
      (seqPosOf l t).count p + if t ∈ x.seq.erase s ∧ x.pos = p then 1 else 0 := by
  by_cases ht : t = s
  · subst ht
    by_cases hp : p = x.pos
    · subst hp
      have := count_pos hx hs
      simp only [count_update, if_true, CountMap.count_dec, hs, Finset.mem_erase]
      simp only [ne_eq, not_true_eq_false, false_and, if_false, and_self, if_true]
      omega
    · simp [hp, Ne.symm hp]
  · simp [ht]

theorem seqRm_of (hx : l[i]? = some x) (hs : s ∈ x.seq) (hpos : x.pos ≠ -1) :
    (of b l).seqRm i s =
      some (decide (x.seq.erase s = ∅), of b (l.set i (x.without s))) := by
  have hset : ∀ y, (l.set i y).set i .empty = l.set i .empty := fun _ => List.set_set ..
  simp only [seqRm, of_cells, hx, guard, if_pos hs, if_pos hpos, Option.pure_def,
    Option.bind_eq_bind, Option.bind_some]
  rw [seqPosDec_eq (count_pos hx hs)]
  by_cases he : x.seq.erase s = ∅
  · simp only [KvCell.without, he, Option.bind_some, if_true, decide_true]
    refine congrArg (fun c => some (true, c)) (eq_of_set hx (hset _) rfl fun t p => ?_)
    simpa [he, of] using count_dec_update hx hs t p
  · simp only [KvCell.without, he, Option.bind_some, if_false, decide_false]
    refine congrArg (fun c => some (false, c))
      (eq_of_set hx rfl ?_ fun t p => count_dec_update hx hs t p)
    have hi : i ∈ usedOf l := mem_usedOf.mpr ⟨x, hx, hpos⟩
    simp [hpos, of, hi]

theorem seqAdd_of (hx : l[i]? = some x) (hpos : x.pos ≠ -1) (hs : s ∉ x.seq) :
    (of b l).seqAdd i s = some (of b (l.set i (x.join s))) := by
  simp only [seqAdd, of_cells, hx, guard, if_pos hs, if_pos hpos, Option.pure_def,
    Option.bind_eq_bind, Option.bind_some]
  refine congrArg some (eq_of_set hx rfl ?_ fun t p => ?_)
  · have hi : i ∈ usedOf l := mem_usedOf.mpr ⟨x, hx, hpos⟩
    simp [seqPosInc, KvCell.join, hpos, of, hi]
  · by_cases ht : t = s
    · subst ht
      by_cases hp : p = x.pos <;> simp [seqPosInc, KvCell.join, hs, hp, of, eq_comm]
    · simp [seqPosInc, KvCell.join, ht, of]

theorem posSet_of (hx : l[i]? = some x) (hfree : x = .empty) (hp : p ≠ -1) :
    (of b l).posSet i p = some (of b (l.set i ⟨p, 0, ∅⟩)) := by
  subst hfree
  simp only [posSet, of_cells, hx, guard, KvCell.empty_pos, KvCell.empty_seq, if_true,
    Option.pure_def, Option.bind_eq_bind, Option.bind_some]
  refine congrArg some (eq_of_set hx rfl ?_ fun t q => ?_)
  · simp [hp, of]
  · simp [of]

theorem seqKeep_of (hx : l[i]? = some x) (hvalid : x.Valid) (howned : x.Owned) :
    (of b l).seqKeep i s =
      some (decide (s ∉ x.seq ∧ x.seq ≠ ∅), of b (l.set i (x.keep s))) := by
  by_cases hs : s ∈ x.seq
  · have hpos : x.pos ≠ -1 := fun hpos => by simp [hvalid.free hpos] at hs
    have hi : i ∈ usedOf l := mem_usedOf.mpr ⟨x, hx, hpos⟩
    simp only [seqKeep, of_cells, hx, if_pos hs, Option.bind_eq_bind, Option.bind_some]
    rw [seqPosRm_of hx]
    simp only [hs, KvCell.keep, Option.bind_some, not_true_eq_false, false_and, decide_false,
      if_true]
    refine congrArg (fun c => some (false, c)) (eq_of_set hx rfl ?_ fun t p => ?_)
    · simp [seqPosInc, hpos, of, hi]
    · have h := count_dec_of hx t p
      by_cases ht : t = s
      · subst ht
        simp only [hs, if_true, true_and, seqPosInc, Function.update_self, CountMap.count_inc,
          Finset.mem_singleton, eq_comm (a := x.pos)] at h ⊢
        omega
      · simpa [seqPosInc, ht] using h
  · by_cases he : x.seq = ∅
    · have hpos : x.pos = -1 := by
        by_contra hpos
        exact howned hpos he
      have hkeep : l.set i .empty = l := by
        rw [← hvalid.free hpos]
        obtain ⟨hi, rfl⟩ := List.getElem?_eq_some_iff.mp hx
        exact List.set_getElem_self hi
      simp [seqKeep, hx, he, hpos, guard, KvCell.keep, hkeep]
    · simp only [seqKeep, of_cells, hx, if_neg hs, if_pos he, Option.bind_eq_bind,
        Option.bind_some, ne_eq]
      rw [seqPosRm_of hx]
      simp only [hs, he, KvCell.keep, Option.bind_some, not_false_eq_true, and_self, decide_true,
        if_false]
      refine congrArg (fun c => some (true, c)) (eq_of_set hx rfl rfl fun t p => ?_)
      simpa using count_dec_of hx t p

/-- The counts after `seq_pos_rm` and `seq_pos_add`, for a cell at another position. -/
theorem count_inc_of (hx : l[i]? = some x) (q : ℤ) (s : SeqId) (p : ℤ) :
    (if s ∈ x.seq then
        (if s ∈ x.seq then (seqPosOf l s).dec x.pos else seqPosOf l s).inc q
      else if s ∈ x.seq then (seqPosOf l s).dec x.pos else seqPosOf l s).count p +
        (if s ∈ x.seq ∧ x.pos = p then 1 else 0) =
      (seqPosOf l s).count p + if s ∈ x.seq ∧ q = p then 1 else 0 := by
  have h := count_dec_of hx s p
  by_cases hs : s ∈ x.seq
  · simp only [hs, if_true, true_and, CountMap.count_inc, eq_comm (a := q)] at h ⊢
    omega
  · simp [hs]

theorem seqPosAdd_eq {c : KvCells} (hx : c.cells[i]? = some x) :
    c.seqPosAdd i = some { c with
      seqPos := fun s => if s ∈ x.seq then (c.seqPos s).inc x.pos else c.seqPos s } := by
  simp [seqPosAdd, hx]

theorem posAdd_of (hx : l[i]? = some x) (hpos : x.pos ≠ -1) :
    (of b l).posAdd i d =
      some (decide (x.pos + d < 0), of true (l.set i (x.moved d))) := by
  have hset : ∀ y, (l.set i y).set i .empty = l.set i .empty := fun _ => List.set_set ..
  have hlt : i < l.length := (List.getElem?_eq_some_iff.mp hx).1
  simp only [posAdd, of_cells, hx, guard, if_pos hpos, Option.pure_def, Option.bind_eq_bind,
    Option.bind_some]
  rw [seqPosRm_of hx]
  by_cases hneg : x.pos + d < 0
  · simp only [hneg, KvCell.moved, Option.bind_some, if_true, decide_true]
    refine congrArg (fun c => some (true, c)) (eq_of_set hx (hset _) rfl fun t p => ?_)
    simpa using count_dec_of hx t p
  · have hi : i ∈ usedOf l := mem_usedOf.mpr ⟨x, hx, hpos⟩
    simp only [hneg, KvCell.moved, Option.bind_some, if_false, decide_false]
    rw [seqPosAdd_eq (List.getElem?_set_self hlt), Option.bind_some]
    refine congrArg (fun c => some (false, c))
      (eq_of_set hx rfl ?_ fun t p => count_inc_of hx _ t p)
    have hne : x.pos + d ≠ -1 := by omega
    simp [hne, of, hi]

theorem posDiv_of (hx : l[i]? = some x) (hvalid : x.Valid) (hpos : x.pos ≠ -1) (hd : 0 ≤ d) :
    (of b l).posDiv i d = some (of true (l.set i (x.divided d))) := by
  have hlt : i < l.length := (List.getElem?_eq_some_iff.mp hx).1
  have hi : i ∈ usedOf l := mem_usedOf.mpr ⟨x, hx, hpos⟩
  have hne : x.pos.tdiv d ≠ -1 := by
    have := Int.tdiv_nonneg (hvalid.nonneg hpos) hd
    omega
  simp only [posDiv, of_cells, hx, guard, if_pos hpos, Option.pure_def, Option.bind_eq_bind,
    Option.bind_some]
  rw [seqPosRm_of hx]
  simp only [Option.bind_some]
  rw [seqPosAdd_eq (List.getElem?_set_self hlt), Option.bind_some]
  refine congrArg some (eq_of_set hx rfl ?_ fun t p => count_inc_of hx _ t p)
  simp [KvCell.divided, hne, of, hi]

theorem mv_of {isrc idst : ℕ} (hsrc : l[isrc]? = some x) (hdst : l[idst]? = some .empty)
    (hpos : x.pos ≠ -1) :
    (of b l).mv isrc idst = some (of b ((l.set idst x).set isrc .empty)) := by
  have hne : isrc ≠ idst := by
    rintro rfl
    exact hpos (by rw [Option.some.inj (hsrc.symm.trans hdst), KvCell.empty_pos])
  have hsrc' : (l.set idst x)[isrc]? = some x := by rw [List.getElem?_set_ne hne.symm, hsrc]
  simp only [mv, of_cells, hsrc, hdst, guard, KvCell.empty_pos, if_true, if_pos hpos,
    Option.pure_def, Option.bind_eq_bind, Option.bind_some]
  refine congrArg some (eq_of_set hsrc' rfl ?_ fun t p => ?_)
  · simp only [KvCell.empty_pos, if_true, usedOf_set hdst, if_neg hpos, of]
    exact (Finset.erase_insert_of_ne hne.symm).symm
  · have h := count_seqPosOf_set hdst x t p
    simp only [KvCell.empty_seq, Finset.notMem_empty, false_and, if_false] at h ⊢
    exact h.symm

/-! ## Saving and restoring cells -/

/-- The cells of a saved state, written over those from index `i` on. -/
def overwrite (l : List KvCell) (i : ℕ) : List KvCell → List KvCell
  | [] => l
  | y :: rest => overwrite (l.set i y) (i + 1) rest

theorem overwrite_eq {os : List KvCell} (h : i + os.length ≤ l.length) :
    overwrite l i os = l.take i ++ os ++ l.drop (i + os.length) := by
  induction os generalizing l i with
  | nil => simp [overwrite]
  | cons y os ih =>
      rw [List.length_cons] at h
      have hi : i < l.length := by omega
      calc
        overwrite (l.set i y) (i + 1) os
            = (l.set i y).take (i + 1) ++ os ++ (l.set i y).drop (i + 1 + os.length) :=
          ih (by rw [List.length_set]; omega)
        _ = l.take i ++ y :: os ++ l.drop (i + (y :: os).length) := by
          rw [List.take_set, List.drop_set_of_lt (by omega), List.length_cons,
            List.take_succ_eq_append_getElem hi, List.set_append_right _ _ (by simp)]
          simp [Nat.min_eq_left hi.le, Nat.add_assoc, Nat.add_comm 1]

theorem count_exchange_of (hx : l[i]? = some x) (y : KvCell) (s : SeqId) (p : ℤ) :
    (if s ∈ y.seq then
        (if s ∈ x.seq then (seqPosOf l s).dec x.pos else seqPosOf l s).inc y.pos
      else if s ∈ x.seq then (seqPosOf l s).dec x.pos else seqPosOf l s).count p +
        (if s ∈ x.seq ∧ x.pos = p then 1 else 0) =
      (seqPosOf l s).count p + if s ∈ y.seq ∧ y.pos = p then 1 else 0 := by
  have h := count_dec_of hx s p
  by_cases hs : s ∈ y.seq
  · rw [if_pos hs, CountMap.count_inc, ← h]
    simp only [hs, true_and, eq_comm (a := p)]
    omega
  · simpa [hs] using h

theorem setCell_of (hx : l[i]? = some x) (hvalid : x.Valid) (hshift : x.shift = 0)
    (hy : y.Valid) (hyshift : y.shift = 0) :
    (of b l).setCell i y = some (of b (l.set i y)) := by
  have hlt : i < l.length := (List.getElem?_eq_some_iff.mp hx).1
  have hcell : (⟨y.pos, 0, y.seq⟩ : KvCell) = y := by rw [← hyshift]
  have hget : (l.set i y)[i]? = some y := List.getElem?_set_self hlt
  have hcount := fun t p => count_exchange_of hx y t p
  simp only [setCell, of_cells, hx, hshift, Option.bind_eq_bind, Option.bind_some, guard, if_true,
    Option.pure_def, hcell]
  by_cases hxp : x.pos = -1
  · have hxe : x.seq = ∅ := by rw [hvalid.free hxp, KvCell.empty_seq]
    have hi : i ∉ usedOf l := by simp [mem_usedOf, hx, hxp]
    rw [if_neg (not_not.mpr hxp)]
    by_cases hyp : y.pos = -1
    · have hye : y.seq = ∅ := by rw [hy.free hyp, KvCell.empty_seq]
      rw [if_neg (not_not.mpr hyp)]
      refine congrArg some (eq_of_set hx rfl ?_ fun t p => by simp [of, hxe, hye])
      simp [of, hxp, hyp, hi]
    · rw [if_pos hyp, seqPosAdd_eq hget, Option.bind_some]
      refine congrArg some (eq_of_set hx rfl ?_ fun t p => ?_)
      · simp [of, hxp, hyp]
      · simpa [of, hxe] using hcount t p
  · rw [if_pos hxp, seqPosRm_eq hx fun _ hs => count_pos hx hs, Option.bind_some]
    by_cases hyp : y.pos = -1
    · have hye : y.seq = ∅ := by rw [hy.free hyp, KvCell.empty_seq]
      rw [if_neg (not_not.mpr hyp)]
      refine congrArg some (eq_of_set hx rfl ?_ fun t p => ?_)
      · simp [of, hxp, hyp]
      · simpa [of, hye] using hcount t p
    · have hi : i ∈ usedOf l := mem_usedOf.mpr ⟨x, hx, hxp⟩
      rw [if_pos hyp, seqPosAdd_eq hget, Option.bind_some]
      refine congrArg some (eq_of_set hx rfl ?_ hcount)
      simp [of, hxp, hyp, hi]

theorem setCells_of {os : List KvCell} (hlen : i + os.length ≤ l.length)
    (hvalid : ∀ x ∈ l, x.Valid) (hshift : ∀ j < os.length, ∀ x, l[i + j]? = some x → x.shift = 0)
    (hos : ∀ y ∈ os, y.Valid ∧ y.shift = 0) :
    (of b l).setCells i os = some (of b (overwrite l i os)) := by
  induction os generalizing l i with
  | nil => rfl
  | cons y os ih =>
      rw [List.length_cons] at hlen hshift
      obtain ⟨⟨hy, hyshift⟩, hrest⟩ := List.forall_mem_cons.mp hos
      have hi : i < l.length := by omega
      have hx : l[i]? = some l[i] := List.getElem?_eq_getElem hi
      rw [setCells, setCell_of hx (hvalid _ (List.getElem_mem hi)) (hshift 0 (by omega) _ hx) hy
        hyshift]
      refine ih (by rw [List.length_set]; omega) (fun z hz => ?_) (fun j hj z hz => ?_) hrest
      · rcases List.mem_or_eq_of_mem_set hz with hz | rfl
        · exact hvalid z hz
        · exact hy
      · rw [List.getElem?_set_ne (by omega), Nat.add_assoc, Nat.add_comm 1] at hz
        exact hshift (j + 1) (by omega) z hz

theorem set_of {other : KvCells} (hlen : i + other.size ≤ l.length)
    (hvalid : ∀ x ∈ l, x.Valid)
    (hshift : ∀ j < other.size, ∀ x, l[i + j]? = some x → x.shift = 0)
    (hos : ∀ y ∈ other.cells, y.Valid ∧ y.shift = 0) :
    (of b l).set i other = some (of b (overwrite l i other.cells)) :=
  (guard_bind hlen _).trans (setCells_of hlen hvalid hshift hos)

/-- The cells `cp` saves are those of the range as they are. -/
theorem cp_of {n : ℕ} (hlen : i + n ≤ l.length)
    (hshift : ∀ j < n, ∀ x, l[i + j]? = some x → x.shift = 0) :
    (of b l).cp i n = some { reset n with cells := (l.drop i).take n } := by
  have hall : ∀ x ∈ (l.drop i).take n, x.shift = 0 := fun x hx => by
    obtain ⟨j, hj⟩ := List.mem_iff_getElem?.mp hx
    have hlt : j < n :=
      (List.getElem?_eq_some_iff.mp hj).1.trans_le (List.length_take_le ..)
    rw [List.getElem?_take_of_lt hlt, List.getElem?_drop] at hj
    exact hshift j hlt x hj
  have hmap : ((l.drop i).take n).map (fun x => { x with shift := 0 }) = (l.drop i).take n := by
    refine (List.map_congr_left fun x hx => ?_).trans (List.map_id _)
    show ({ x with shift := 0 } : KvCell) = x
    rw [← hall x hx]
  refine (guard_bind hlen _).trans ((guard_bind hall _).trans ?_)
  rw [of_cells, hmap]
  rfl

theorem reset_eq_of (n : ℕ) : reset n = of false (List.replicate n .empty) := by
  have hcount : ∀ s, seqPosOf (List.replicate n .empty) s = .empty := fun s =>
    CountMap.ext_count fun p => by simp [count_seqPosOf]
  have hused : usedOf (List.replicate n .empty) = ∅ := by
    ext i
    simp +contextual [mem_usedOf, List.getElem?_replicate]
  simp only [reset, of, hused, funext hcount]

theorem resetShift_of :
    (of b l).resetShift = of false (l.map fun x => { x with shift := 0 }) := by
  have hcount : ∀ s, seqPosOf (l.map fun x => { x with shift := 0 }) s = seqPosOf l s := fun s =>
    CountMap.ext_count fun p => by
      rw [count_seqPosOf, count_seqPosOf, List.countP_map]
      rfl
  have hused : usedOf (l.map fun x => { x with shift := 0 }) = usedOf l := by
    ext i
    simp [mem_usedOf]
  simp only [resetShift, of, hused, funext hcount]

end KvCells

end SmollChat
