import Mathlib.Data.List.Nodup
import Mathlib.Data.List.Flatten

/-! # A ledger of allocated buffers

Addresses are handed out in order and never again. A freed buffer leaves an empty cell and
an entry in the list of frees, so a second free of the same address shows there. -/

/-- The cells by address and the addresses passed to `free` so far. -/
structure Ledger (α : Type*) where
  cells : List (Option α)
  frees : List ℕ

namespace Ledger

variable {α : Type*} {h : Ledger α} {ps qs : List ℕ} {p q : ℕ}

def empty : Ledger α := ⟨[], []⟩

/-- The new buffer's address, and the ledger with it. -/
def alloc (h : Ledger α) (a : α) : ℕ × Ledger α :=
  (h.cells.length, ⟨h.cells ++ [some a], h.frees⟩)

/-- What a live buffer holds. -/
def read (h : Ledger α) (p : ℕ) : Option α := h.cells[p]?.join

def free (h : Ledger α) (p : ℕ) : Ledger α := ⟨h.cells.set p none, h.frees ++ [p]⟩

def freeAll (h : Ledger α) (ps : List ℕ) : Ledger α := ps.foldl free h

/-- The live buffers are exactly these, each listed once; what has been freed had been
allocated, and was freed once. -/
structure Owns (h : Ledger α) (ps : List ℕ) : Prop where
  nodup : ps.Nodup
  live : ∀ p, (h.read p).isSome = true ↔ p ∈ ps
  once : h.frees.Nodup
  dead : ∀ p ∈ h.frees, p < h.cells.length ∧ h.read p = none

/-! ## Reading -/

theorem read_alloc_self (h : Ledger α) (a : α) : (h.alloc a).2.read (h.alloc a).1 = some a := by
  simp [alloc, read]

theorem read_alloc_of_lt (a : α) (hp : p < h.cells.length) :
    (h.alloc a).2.read p = h.read p := by
  simp [alloc, read, List.getElem?_append_left hp]

theorem read_of_ge (hp : h.cells.length ≤ p) : h.read p = none := by
  simp [read, List.getElem?_eq_none hp]

theorem lt_of_live (hp : (h.read p).isSome = true) : p < h.cells.length := by
  by_contra hge
  simp [read_of_ge (Nat.not_lt.mp hge)] at hp

theorem read_free_self (h : Ledger α) (p : ℕ) : (h.free p).read p = none := by
  simp only [free, read, List.getElem?_set_self']
  cases h.cells[p]? <;> rfl

theorem read_free_of_ne (hne : q ≠ p) : (h.free p).read q = h.read q := by
  simp [free, read, hne.symm]

theorem read_freeAll (hq : q ∉ ps) : (h.freeAll ps).read q = h.read q := by
  induction ps generalizing h with
  | nil => rfl
  | cons p ps ih =>
      rw [List.mem_cons, not_or] at hq
      calc
        ((h.free p).freeAll ps).read q = (h.free p).read q := ih hq.2
        _ = h.read q := read_free_of_ne hq.1

theorem frees_freeAll (h : Ledger α) (ps : List ℕ) : (h.freeAll ps).frees = h.frees ++ ps := by
  induction ps generalizing h with
  | nil => simp [freeAll]
  | cons p ps ih =>
      calc
        ((h.free p).freeAll ps).frees = (h.frees ++ [p]) ++ ps := ih (h.free p)
        _ = h.frees ++ p :: ps := by simp

/-! ## Ownership -/

theorem owns_empty : Owns (empty : Ledger α) [] where
  nodup := List.nodup_nil
  live p := by simp [empty, read]
  once := List.nodup_nil
  dead p hp := by cases hp

theorem Owns.perm (ho : Owns h ps) (hperm : ps.Perm qs) : Owns h qs where
  nodup := hperm.nodup_iff.mp ho.nodup
  live p := by rw [ho.live, hperm.mem_iff]
  once := ho.once
  dead := ho.dead

theorem Owns.lt (ho : Owns h ps) (hp : p ∈ ps) : p < h.cells.length :=
  lt_of_live ((ho.live p).mpr hp)

/-- A new buffer belongs to whoever allocated it. -/
theorem Owns.alloc (ho : Owns h ps) (a : α) : Owns (h.alloc a).2 (ps ++ [(h.alloc a).1]) where
  nodup := by
    apply List.Nodup.append ho.nodup (List.nodup_singleton _)
    intro p hp hnew
    have hlt := ho.lt hp
    obtain rfl := List.mem_singleton.mp hnew
    exact Nat.lt_irrefl _ hlt
  live p := by
    rw [List.mem_append, List.mem_singleton, ← ho.live]
    by_cases hp : p < h.cells.length
    · rw [read_alloc_of_lt a hp]
      have hne : p ≠ (h.alloc a).1 := Nat.ne_of_lt hp
      simp [hne]
    · by_cases hnew : p = (h.alloc a).1
      · rw [hnew, read_alloc_self]
        simp
      · have hge : (h.alloc a).2.cells.length ≤ p := by
          have hne : p ≠ h.cells.length := hnew
          simp only [Ledger.alloc, List.length_append, List.length_singleton]
          omega
        simp [read_of_ge hge, read_of_ge (Nat.not_lt.mp hp), hnew]
  once := ho.once
  dead p hp := by
    obtain ⟨hlt, hread⟩ := ho.dead p hp
    refine ⟨?_, (read_alloc_of_lt a hlt).trans hread⟩
    simp only [Ledger.alloc, List.length_append, List.length_singleton]
    omega

/-- Freeing an owned buffer. -/
theorem Owns.free (ho : Owns h (p :: ps)) : Owns (h.free p) ps where
  nodup := (List.nodup_cons.mp ho.nodup).2
  live q := by
    by_cases hq : q = p
    · have hnot := (List.nodup_cons.mp ho.nodup).1
      rw [hq, read_free_self]
      simp [hnot]
    · rw [read_free_of_ne hq, ho.live]
      simp [hq]
  once := by
    apply List.Nodup.append ho.once (List.nodup_singleton p)
    intro q hq hp
    obtain rfl := List.mem_singleton.mp hp
    have hlive := (ho.live q).mpr List.mem_cons_self
    simp [(ho.dead q hq).2] at hlive
  dead q hq := by
    have hlength : (h.free p).cells.length = h.cells.length := List.length_set
    rw [hlength]
    by_cases hp : q = p
    · rw [hp]
      exact ⟨ho.lt List.mem_cons_self, read_free_self h p⟩
    · rcases List.mem_append.mp hq with hold | hnew
      · rw [read_free_of_ne hp]
        exact ho.dead q hold
      · exact absurd (List.mem_singleton.mp hnew) hp

theorem Owns.freeAll (ho : Owns h (ps ++ qs)) : Owns (h.freeAll ps) qs := by
  induction ps generalizing h with
  | nil => exact ho
  | cons p ps ih => exact ih ho.free

end Ledger
