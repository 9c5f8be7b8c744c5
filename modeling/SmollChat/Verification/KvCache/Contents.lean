import SmollChat.Verification.KvCache.Slots
import SmollChat.Model.LlamaContext
import Mathlib.Data.Multiset.AddSub

/-! # Contents

To its callers a cache is a multiset of entries: a position and the sequences that share it.
Every operation of the memory interface edits the entries one by one, and `decode` adds those
of the tokens it writes. Where the cells lie, the head and the indexes play no part. -/

namespace SmollChat

open KvCells

namespace KvCache

variable {k : KvCache} {l : List KvCell} {u : Ubatch}
  {f : ℤ × Finset SeqId → ℤ × Finset SeqId} {g : KvCell → KvCell}

/-! ## Contents -/

/-- The used cells of a list, without their places. -/
def contentsOf (l : List KvCell) : Multiset (ℤ × Finset SeqId) :=
  ((l.filter fun x => x.pos ≠ -1).map fun x => (x.pos, x.seq) : List (ℤ × Finset SeqId))

def contents (k : KvCache) : Multiset (ℤ × Finset SeqId) := contentsOf k.cells.cells

def entries (u : Ubatch) : Multiset (ℤ × Finset SeqId) :=
  (u.map fun t => (t.pos, t.seqId.toFinset) : List (ℤ × Finset SeqId))

theorem entries_append (u₁ u₂ : Ubatch) : entries (u₁ ++ u₂) = entries u₁ + entries u₂ := by
  simp [entries]

theorem contentsOf_append (l₁ l₂ : List KvCell) :
    contentsOf (l₁ ++ l₂) = contentsOf l₁ + contentsOf l₂ := by
  simp [contentsOf]

theorem contentsOf_perm {l₁ l₂ : List KvCell} (h : l₁.Perm l₂) : contentsOf l₁ = contentsOf l₂ :=
  Multiset.coe_eq_coe.mpr ((h.filter _).map _)

theorem contentsOf_map {f : KvCell → KvCell} (hf : ∀ x, (f x).pos = x.pos ∧ (f x).seq = x.seq)
    (l : List KvCell) : contentsOf (l.map f) = contentsOf l := by
  induction l with
  | nil => rfl
  | cons x l ih =>
      obtain ⟨hpos, hseq⟩ := hf x
      rw [List.map_cons, ← List.singleton_append, ← List.singleton_append (l := l),
        contentsOf_append, contentsOf_append, ih]
      simp [contentsOf, hpos, List.filter_cons]
      split_ifs <;> simp [hpos, hseq]

theorem contentsOf_cell (hu : ∀ t ∈ u, t.Good) :
    contentsOf (u.map UbatchToken.cell) = entries u := by
  have hfilter : (u.map UbatchToken.cell).filter (fun x => x.pos ≠ -1) =
      u.map UbatchToken.cell := by
    refine List.filter_eq_self.mpr (List.forall_mem_map.mpr fun t ht => ?_)
    have := (hu t ht).pos
    exact decide_eq_true (show t.pos ≠ -1 by omega)
  rw [contentsOf, hfilter, List.map_map, entries]
  rfl

/-- Tokens written over a window take the place of what it held. -/
theorem contentsOf_overwrite_add (os : List KvCell) {h : ℕ} (hle : h + os.length ≤ l.length) :
    contentsOf (overwrite l h os) + contentsOf ((l.drop h).take os.length) =
      contentsOf l + contentsOf os := by
  have hl : contentsOf l = contentsOf (l.take h) + (contentsOf ((l.drop h).take os.length) +
      contentsOf (l.drop (h + os.length))) := by
    conv_lhs => rw [← List.take_append_drop h l, contentsOf_append,
      ← List.take_append_drop os.length (l.drop h), contentsOf_append, List.drop_drop]
  rw [overwrite_eq hle, contentsOf_append, contentsOf_append, hl]
  ac_rfl

theorem getElem?_of_mem_window {x : KvCell} {h n : ℕ} (hx : x ∈ (l.drop h).take n) :
    ∃ j < n, l[h + j]? = some x := by
  obtain ⟨j, hj⟩ := List.mem_iff_getElem?.mp hx
  have hlt : j < n := (List.getElem?_eq_some_iff.mp hj).1.trans_le (List.length_take_le ..)
  rw [List.getElem?_take_of_lt hlt, List.getElem?_drop] at hj
  exact ⟨j, hlt, hj⟩

theorem contentsOf_overwrite (os : List KvCell) {h : ℕ} (hle : h + os.length ≤ l.length)
    (hfree : ∀ j < os.length, l[h + j]? = some .empty) :
    contentsOf (overwrite l h os) = contentsOf l + contentsOf os := by
  have hnone : ((l.drop h).take os.length).filter (fun x => x.pos ≠ -1) = [] := by
    refine List.filter_eq_nil_iff.mpr fun x hx => ?_
    obtain ⟨j, hj, hget⟩ := getElem?_of_mem_window hx
    rw [← Option.some.inj ((hfree j hj).symm.trans hget), KvCell.empty_pos]
    simp
  have hwin : contentsOf ((l.drop h).take os.length) = 0 := by
    rw [contentsOf, hnone]
    rfl
  rw [← contentsOf_overwrite_add os hle, hwin, add_zero]

theorem mem_contents {p : ℤ} {q : Finset SeqId} :
    (p, q) ∈ k.contents ↔ ∃ x ∈ k.cells.cells, x.pos ≠ -1 ∧ x.pos = p ∧ x.seq = q := by
  simp [contents, contentsOf, and_assoc]

/-! ## Edits -/

/-- The entries after `f`; those with a negative position or without a sequence are gone. -/
def edit (f : ℤ × Finset SeqId → ℤ × Finset SeqId) (m : Multiset (ℤ × Finset SeqId)) :
    Multiset (ℤ × Finset SeqId) :=
  (m.map f).filter fun e => 0 ≤ e.1 ∧ e.2 ≠ ∅

theorem edit_add (m₁ m₂ : Multiset (ℤ × Finset SeqId)) :
    edit f (m₁ + m₂) = edit f m₁ + edit f m₂ := by
  rw [edit, Multiset.map_add, Multiset.filter_add]
  rfl

/-- Two edits are one where the second brings no entry back. -/
theorem edit_edit {f' : ℤ × Finset SeqId → ℤ × Finset SeqId}
    (hf : ∀ e, ¬(0 ≤ e.1 ∧ e.2 ≠ ∅) → ¬(0 ≤ (f e).1 ∧ (f e).2 ≠ ∅))
    (m : Multiset (ℤ × Finset SeqId)) : edit f (edit f' m) = edit (f ∘ f') m := by
  induction m using Multiset.induction with
  | empty => rfl
  | cons e m ih =>
      rw [← Multiset.singleton_add, edit_add, edit_add, edit_add, ih]
      congr 1
      rw [edit, edit, edit, Multiset.map_singleton, Multiset.filter_singleton]
      split_ifs with h
      · rfl
      · rw [Multiset.map_singleton, Multiset.filter_singleton, Function.comp_apply,
          if_neg (hf _ h)]
        rfl

theorem edit_congr {f' : ℤ × Finset SeqId → ℤ × Finset SeqId} {m : Multiset (ℤ × Finset SeqId)}
    (h : ∀ e ∈ m, f e = f' e) : edit f m = edit f' m := by
  rw [edit, Multiset.map_congr rfl h]
  rfl

/-- The cell function `g` does to a used cell what `f` does to its entry. -/
def Follows (f : ℤ × Finset SeqId → ℤ × Finset SeqId) (g : KvCell → KvCell) (x : KvCell) : Prop :=
  if 0 ≤ (f (x.pos, x.seq)).1 ∧ (f (x.pos, x.seq)).2 ≠ ∅ then
    ((g x).pos, (g x).seq) = f (x.pos, x.seq)
  else g x = .empty

theorem follows_self {x : KvCell} (hx : x.Good) (hpos : x.pos ≠ -1)
    (hf : f (x.pos, x.seq) = (x.pos, x.seq)) (hg : g x = x) : Follows f g x := by
  rw [Follows, hf, if_pos ⟨hx.nonneg hpos, hx.owned hpos⟩, hg]

section

variable {x : KvCell} {s : SeqId} {p0 p1 d : ℤ}

/-- An operation on a range does to an entry in it what its function does to the cell. -/
theorem follows_onRange (hx : x.Good) (hpos : x.pos ≠ -1)
    (hin : x.InRange p0 p1 ∧ s ∈ x.seq → Follows f g x)
    (hout : ¬(x.InRange p0 p1 ∧ s ∈ x.seq) → f (x.pos, x.seq) = (x.pos, x.seq)) :
    Follows f (KvCell.onRange s p0 p1 g) x := by
  by_cases h : x.InRange p0 p1 ∧ s ∈ x.seq
  · have hfollows := hin h
    rw [Follows, KvCell.onRange, if_pos h]
    exact hfollows
  · exact follows_self hx hpos (hout h) (if_neg h)

theorem follows_without (hx : x.Good) (hpos : x.pos ≠ -1)
    (hf : f (x.pos, x.seq) = (x.pos, x.seq.erase s)) : Follows f (KvCell.without s) x := by
  rw [Follows, hf, KvCell.without]
  by_cases he : x.seq.erase s = ∅
  · rw [if_neg fun h => h.2 he, if_pos he]
  · rw [if_pos ⟨hx.nonneg hpos, he⟩, if_neg he]

theorem follows_keep (hx : x.Good) (hpos : x.pos ≠ -1)
    (hf : f (x.pos, x.seq) = (x.pos, x.seq.filter (· = s))) : Follows f (KvCell.keep s) x := by
  rw [Follows, hf, KvCell.keep, Finset.filter_eq']
  by_cases hs : s ∈ x.seq
  · rw [if_pos hs, if_pos ⟨hx.nonneg hpos, Finset.singleton_ne_empty s⟩, if_pos hs]
  · rw [if_neg hs, if_neg fun h => h.2 rfl, if_neg hs]

theorem follows_moved (hx : x.Good) (hpos : x.pos ≠ -1)
    (hf : f (x.pos, x.seq) = (x.pos + d, x.seq)) : Follows f (KvCell.moved d) x := by
  rw [Follows, hf, KvCell.moved]
  by_cases hneg : x.pos + d < 0
  · rw [if_neg fun h => not_le.mpr hneg h.1, if_pos hneg]
  · rw [if_pos ⟨not_lt.mp hneg, hx.owned hpos⟩, if_neg hneg]

theorem follows_divided (hx : x.Good) (hpos : x.pos ≠ -1) (hd : 0 ≤ d)
    (hf : f (x.pos, x.seq) = (x.pos.tdiv d, x.seq)) : Follows f (KvCell.divided d) x := by
  rw [Follows, hf, if_pos ⟨Int.tdiv_nonneg (hx.nonneg hpos) hd, hx.owned hpos⟩]
  rfl

theorem follows_join (hx : x.Good) (hpos : x.pos ≠ -1)
    (hf : f (x.pos, x.seq) = (x.pos, insert s x.seq)) : Follows f (KvCell.join s) x := by
  rw [Follows, hf, if_pos ⟨hx.nonneg hpos, Finset.insert_ne_empty s x.seq⟩]
  rfl

end

theorem contentsOf_edit (hl : ∀ x ∈ l, x.Good) (hempty : g .empty = .empty)
    (hg : ∀ x ∈ l, x.pos ≠ -1 → Follows f g x) :
    contentsOf (l.map g) = edit f (contentsOf l) := by
  induction l with
  | nil => rfl
  | cons x l ih =>
      obtain ⟨hx, hl⟩ := List.forall_mem_cons.mp hl
      obtain ⟨hgx, hg⟩ := List.forall_mem_cons.mp hg
      rw [List.map_cons, ← List.singleton_append, ← List.singleton_append (l := l),
        contentsOf_append, contentsOf_append, edit_add, ih hl hg]
      congr 1
      by_cases hpos : x.pos = -1
      · obtain rfl := hx.free hpos
        rw [hempty]
        rfl
      · have hone : contentsOf [x] = {(x.pos, x.seq)} := by simp [contentsOf, hpos]
        have hfollows := hgx hpos
        rw [Follows] at hfollows
        rw [hone, edit, Multiset.map_singleton, Multiset.filter_singleton]
        split_ifs at hfollows with hkeep
        · have hgpos : (g x).pos ≠ -1 := by
            rw [← hfollows] at hkeep
            have := hkeep.1
            dsimp only at this
            omega
          rw [if_pos hkeep, ← hfollows]
          simp [contentsOf, hgpos]
        · rw [if_neg hkeep, hfollows]
          rfl

theorem edit_id (hk : k.Valid) (hf : ∀ e, f e = e) : edit f k.contents = k.contents := by
  have hid : contentsOf (k.cells.cells.map id) = edit f (contentsOf k.cells.cells) :=
    contentsOf_edit hk.cells rfl fun x hx hpos => follows_self (hk.cells x hx) hpos (hf _) rfl
  rw [contents, ← hid, List.map_id]

end KvCache

namespace LlamaContext

open KvCache

def MemoryCall.onEntry : MemoryCall → ℤ × Finset SeqId → ℤ × Finset SeqId
  | .clear, (p, _) => (p, ∅)
  | .seqRm seqId p0 p1, (p, q) =>
      if (bounds p0 p1).1 ≤ p ∧ p < (bounds p0 p1).2 then (p, (seqId.map q.erase).getD ∅)
      else (p, q)
  | .seqCp src dst p0 p1, (p, q) =>
      if ((bounds p0 p1).1 ≤ p ∧ p < (bounds p0 p1).2) ∧ src ∈ q then (p, insert dst q) else (p, q)
  | .seqKeep s, (p, q) => (p, q.filter (· = s))
  | .seqAdd s p0 p1 shift, (p, q) =>
      if ((bounds p0 p1).1 ≤ p ∧ p < (bounds p0 p1).2) ∧ s ∈ q then (p + shift, q) else (p, q)
  | .seqDiv s p0 p1 d, (p, q) =>
      if ((bounds p0 p1).1 ≤ p ∧ p < (bounds p0 p1).2) ∧ s ∈ q then (p.tdiv d, q) else (p, q)
  | .update _ _, e => e
  | .decode _ _, e => e

variable {k k' : KvCache} {s dst : SeqId} {p0 p1 d : ℤ}

theorem seqRm_contents (hk : k.Valid) (seqId : Option SeqId) (p0 p1 : ℤ)
    (h : k.seqRm seqId p0 p1 = some k') :
    k'.contents = edit (MemoryCall.onEntry (.seqRm seqId p0 p1)) k.contents := by
  obtain rfl := Option.some.inj ((seqRm_of hk.indexes hk.cells hk.head seqId p0 p1).symm.trans h)
  refine contentsOf_edit hk.cells (by cases seqId <;> simp [KvCell.remove, KvCell.onRange])
    fun x hx hpos => ?_
  have hgood := hk.cells x hx
  cases seqId with
  | none =>
      by_cases hin : x.InRange (bounds p0 p1).1 (bounds p0 p1).2
      · have hf : MemoryCall.onEntry (.seqRm none p0 p1) (x.pos, x.seq) = (x.pos, ∅) := if_pos hin
        rw [Follows, hf, if_neg fun h => h.2 rfl, KvCell.remove, if_pos hin]
      · exact follows_self hgood hpos (if_neg hin) (if_neg hin)
  | some s =>
      refine follows_onRange hgood hpos
        (fun hin => follows_without hgood hpos (if_pos hin.1)) fun hout => ?_
      by_cases hin : x.InRange (bounds p0 p1).1 (bounds p0 p1).2
      · have hs : s ∉ x.seq := fun hs => hout ⟨hin, hs⟩
        have hf : MemoryCall.onEntry (.seqRm (some s) p0 p1) (x.pos, x.seq) =
            (x.pos, x.seq.erase s) := if_pos hin
        rw [hf, Finset.erase_eq_of_notMem hs]
      · exact if_neg hin

theorem seqCp_contents (hk : k.Valid)
    (hdst : s ≠ dst → ∀ x ∈ k.cells.cells,
      x.InRange (bounds p0 p1).1 (bounds p0 p1).2 → s ∈ x.seq → dst ∉ x.seq)
    (h : k.seqCp s dst p0 p1 = some k') :
    k'.contents = edit (MemoryCall.onEntry (.seqCp s dst p0 p1)) k.contents := by
  by_cases hne : s = dst
  · obtain rfl : k = k' := by simpa [KvCache.seqCp, hne] using h
    refine (edit_id hk fun e => ?_).symm
    simp only [MemoryCall.onEntry]
    split_ifs with hin
    · rw [Finset.insert_eq_of_mem (hne ▸ hin.2)]
    · rfl
  · have hof := seqCp_of hk.indexes (fun x hx => ⟨hk.cells x hx, hdst hne x hx⟩) hne
    obtain rfl := Option.some.inj (hof.symm.trans h)
    exact contentsOf_edit hk.cells (by simp [KvCell.onRange]) fun x hx hpos =>
      follows_onRange (hk.cells x hx) hpos
        (fun hin => follows_join (hk.cells x hx) hpos (if_pos hin)) fun hout => if_neg hout

theorem seqKeep_contents (hk : k.Valid) (h : k.seqKeep s = some k') :
    k'.contents = edit (MemoryCall.onEntry (.seqKeep s)) k.contents := by
  obtain rfl := Option.some.inj ((seqKeep_of hk.indexes hk.cells hk.head s).symm.trans h)
  exact contentsOf_edit hk.cells (by simp [KvCell.keep]) fun x hx hpos =>
    follows_keep (hk.cells x hx) hpos rfl

theorem not_inRange_of_eq {p : ℤ} (h : (bounds p0 p1).1 = (bounds p0 p1).2) :
    ¬((bounds p0 p1).1 ≤ p ∧ p < (bounds p0 p1).2) := by
  omega

theorem seqAdd_contents (hk : k.Valid) (h : k.seqAdd s p0 p1 d = some k') :
    k'.contents = edit (MemoryCall.onEntry (.seqAdd s p0 p1 d)) k.contents := by
  by_cases hd : d = 0
  · obtain rfl : k = k' := by simpa [KvCache.seqAdd, hd] using h
    refine (edit_id hk fun e => ?_).symm
    simp [MemoryCall.onEntry, hd]
  by_cases hne : (bounds p0 p1).1 = (bounds p0 p1).2
  · obtain rfl : k = k' := by simpa [KvCache.seqAdd, hd, hne] using h
    exact (edit_id hk fun e => if_neg fun hin => not_inRange_of_eq hne hin.1).symm
  obtain rfl := Option.some.inj ((seqAdd_of hk.indexes hk.cells hd hne s).symm.trans h)
  exact contentsOf_edit hk.cells (by simp [KvCell.onRange]) fun x hx hpos =>
    follows_onRange (hk.cells x hx) hpos
      (fun hin => follows_moved (hk.cells x hx) hpos (if_pos hin)) fun hout => if_neg hout

theorem seqDiv_contents (hk : k.Valid) (hd : 0 ≤ d) (h : k.seqDiv s p0 p1 d = some k') :
    k'.contents = edit (MemoryCall.onEntry (.seqDiv s p0 p1 d)) k.contents := by
  by_cases hone : d = 1
  · obtain rfl : k = k' := by simpa [KvCache.seqDiv, hone] using h
    refine (edit_id hk fun e => ?_).symm
    simp [MemoryCall.onEntry, hone]
  by_cases hne : (bounds p0 p1).1 = (bounds p0 p1).2
  · obtain rfl : k = k' := by simpa [KvCache.seqDiv, hone, hne] using h
    exact (edit_id hk fun e => if_neg fun hin => not_inRange_of_eq hne hin.1).symm
  obtain rfl := Option.some.inj ((seqDiv_of hk.indexes hk.cells hd hone hne s).symm.trans h)
  exact contentsOf_edit hk.cells (by simp [KvCell.onRange]) fun x hx hpos =>
    follows_onRange (hk.cells x hx) hpos
      (fun hin => follows_divided (hk.cells x hx) hpos hd (if_pos hin)) fun hout => if_neg hout

end LlamaContext

end SmollChat
