import SmollChat.Library.CountMap
import Mathlib.Data.Finset.Max
import Mathlib.Data.Fintype.Basic
import Mathlib.Data.Finset.Lattice.Fold
import Mathlib.Order.Lattice.Nat

/-! # The cells of the KV cache

`llama_kv_cells_unified`. The vectors `pos`, `shift` and `seq` have one length and are
kept as one list of cells; `used` and `seq_pos` are indexes over them. A failing assertion
is `none`. Positions stay within `int32_t`. -/

namespace SmollChat

/-- A sequence id below `LLAMA_MAX_SEQ`. -/
abbrev SeqId := Fin 64

structure KvCell where
  pos : ℤ
  shift : ℤ
  seq : Finset SeqId
  deriving DecidableEq

/-- What `reset` puts into every cell. -/
def KvCell.empty : KvCell := ⟨-1, 0, ∅⟩

structure KvCells where
  hasShift : Bool
  used : Finset ℕ
  cells : List KvCell
  seqPos : SeqId → CountMap ℤ

namespace KvCells

def size (c : KvCells) : ℕ := c.cells.length

/-! ## The indexes -/

def seqPosDec (c : KvCells) (s : SeqId) (p : ℤ) : Option KvCells := do
  guard (0 < (c.seqPos s).count p)
  return { c with seqPos := Function.update c.seqPos s ((c.seqPos s).dec p) }

def seqPosInc (c : KvCells) (s : SeqId) (p : ℤ) : KvCells :=
  { c with seqPos := Function.update c.seqPos s ((c.seqPos s).inc p) }

/-- `seq_pos_rm`; the loop over the sequences treats each of them apart. -/
def seqPosRm (c : KvCells) (i : ℕ) : Option KvCells := do
  let x ← c.cells[i]?
  guard (∀ s ∈ x.seq, 0 < (c.seqPos s).count x.pos)
  return { c with
    seqPos := fun s => if s ∈ x.seq then (c.seqPos s).dec x.pos else c.seqPos s }

/-- `seq_pos_add` -/
def seqPosAdd (c : KvCells) (i : ℕ) : Option KvCells := do
  let x ← c.cells[i]?
  return { c with
    seqPos := fun s => if s ∈ x.seq then (c.seqPos s).inc x.pos else c.seqPos s }

/-! ## Queries -/

def isEmpty (c : KvCells) (i : ℕ) : Option Bool := do
  let x ← c.cells[i]?
  guard (-1 ≤ x.pos)
  return x.pos == -1

def getUsed (c : KvCells) : ℕ := c.used.card

/-- `used_max_p1` -/
def usedMaxP1 (c : KvCells) : ℕ := if c.used = ∅ then 0 else c.used.sup id + 1

def seqCount (c : KvCells) (i : ℕ) : Option ℕ := do
  let x ← c.cells[i]?
  guard (x.pos ≠ -1)
  return x.seq.card

def seqHas (c : KvCells) (i : ℕ) (s : SeqId) : Option Bool := do
  let x ← c.cells[i]?
  return s ∈ x.seq

/-- `seq_get`; the loop returns the first sequence of the cell. -/
def seqGet (c : KvCells) (i : ℕ) : Option SeqId := do
  let x ← c.cells[i]?
  guard (x.seq.card = 1)
  (List.finRange 64).find? (· ∈ x.seq)

def posGet (c : KvCells) (i : ℕ) : Option ℤ := do
  let x ← c.cells[i]?
  guard (x.pos ≠ -1)
  return x.pos

def posIn (c : KvCells) (i : ℕ) (p0 p1 : ℤ) : Option Bool := do
  let x ← c.cells[i]?
  return p0 ≤ x.pos ∧ x.pos < p1

/-- `seq_pos_min` -/
def seqPosMin (c : KvCells) (s : SeqId) : ℤ := ((c.seqPos s).minKey?).getD (-1)

/-- `seq_pos_max` -/
def seqPosMax (c : KvCells) (s : SeqId) : ℤ := ((c.seqPos s).maxKey?).getD (-1)

/-! ## Operations -/

/-- `resize(n)` of a new object, and `reset` of one with `n` cells. -/
def reset (n : ℕ) : KvCells := ⟨false, ∅, List.replicate n .empty, fun _ => .empty⟩

def resetShift (c : KvCells) : KvCells :=
  { c with hasShift := false, cells := c.cells.map fun x => { x with shift := 0 } }

def mv (c : KvCells) (isrc idst : ℕ) : Option KvCells := do
  let src ← c.cells[isrc]?
  let dst ← c.cells[idst]?
  guard (dst.pos = -1)
  guard (src.pos ≠ -1)
  return { c with
    cells := (c.cells.set idst src).set isrc .empty
    used := insert idst (c.used.erase isrc) }

/-- `cp`: the copy keeps positions and sequences; its indexes stay empty. -/
def cp (c : KvCells) (i n : ℕ) : Option KvCells := do
  let copied := (c.cells.drop i).take n
  guard (i + n ≤ c.size)
  guard (∀ x ∈ copied, x.shift = 0)
  return { reset n with cells := copied.map fun x => { x with shift := 0 } }

/-- The body of the loop in `set`. -/
def setCell (c : KvCells) (i : ℕ) (other : KvCell) : Option KvCells := do
  let x ← c.cells[i]?
  let used := if x.pos = -1 ∧ other.pos ≠ -1 then insert i c.used else c.used
  let used := if x.pos ≠ -1 ∧ other.pos = -1 then used.erase i else used
  let c := { c with used := used }
  let c ← if x.pos ≠ -1 then c.seqPosRm i else some c
  let c := { c with cells := c.cells.set i { x with pos := other.pos, seq := other.seq } }
  let c ← if other.pos ≠ -1 then c.seqPosAdd i else some c
  guard (x.shift = 0)
  return c

/-- The cells of `set`, from index `i` on. -/
def setCells (c : KvCells) (i : ℕ) : List KvCell → Option KvCells
  | [] => some c
  | other :: rest => do (← c.setCell i other).setCells (i + 1) rest

def set (c : KvCells) (i : ℕ) (other : KvCells) : Option KvCells := do
  guard (i + other.size ≤ c.size)
  c.setCells i other.cells

def rm (c : KvCells) (i : ℕ) : Option KvCells := do
  let x ← c.cells[i]?
  guard (x.pos ≠ -1)
  let c ← c.seqPosRm i
  return { c with cells := c.cells.set i .empty, used := c.used.erase i }

/-- `seq_rm`, with "the cell becomes empty". -/
def seqRm (c : KvCells) (i : ℕ) (s : SeqId) : Option (Bool × KvCells) := do
  let x ← c.cells[i]?
  guard (s ∈ x.seq)
  guard (x.pos ≠ -1)
  let c := { c with cells := c.cells.set i { x with seq := x.seq.erase s } }
  let c ← c.seqPosDec s x.pos
  if x.seq.erase s = ∅ then
    return (true, { c with cells := c.cells.set i .empty, used := c.used.erase i })
  else return (false, c)

def seqKeep (c : KvCells) (i : ℕ) (s : SeqId) : Option (Bool × KvCells) := do
  let x ← c.cells[i]?
  if s ∈ x.seq then
    let c ← c.seqPosRm i
    let c := { c with cells := c.cells.set i { x with seq := {s} } }
    return (false, c.seqPosInc s x.pos)
  else if x.seq ≠ ∅ then
    let c ← c.seqPosRm i
    return (true, { c with cells := c.cells.set i .empty, used := c.used.erase i })
  else
    guard (x.pos = -1)
    return (false, c)

def seqAdd (c : KvCells) (i : ℕ) (s : SeqId) : Option KvCells := do
  let x ← c.cells[i]?
  guard (x.pos ≠ -1)
  guard (s ∉ x.seq)
  return { c with cells := c.cells.set i { x with seq := insert s x.seq } }.seqPosInc s x.pos

def posSet (c : KvCells) (i : ℕ) (p : ℤ) : Option KvCells := do
  let x ← c.cells[i]?
  guard (x.pos = -1)
  guard (x.seq = ∅)
  return { c with cells := c.cells.set i { x with pos := p }, used := insert i c.used }

/-- `pos_add`, with "the cell becomes empty". -/
def posAdd (c : KvCells) (i : ℕ) (d : ℤ) : Option (Bool × KvCells) := do
  let x ← c.cells[i]?
  guard (x.pos ≠ -1)
  let c ← c.seqPosRm i
  let c := { c with
    cells := c.cells.set i { x with pos := x.pos + d, shift := x.shift + d }
    hasShift := true }
  if x.pos + d < 0 then
    return (true, { c with cells := c.cells.set i .empty, used := c.used.erase i })
  else return (false, ← c.seqPosAdd i)

/-- `pos_div` -/
def posDiv (c : KvCells) (i : ℕ) (d : ℤ) : Option KvCells := do
  let x ← c.cells[i]?
  guard (x.pos ≠ -1)
  let c ← c.seqPosRm i
  let p := x.pos.tdiv d
  let c := { c with cells := c.cells.set i { x with pos := p, shift := x.shift + (x.pos - p) } }
  let c ← c.seqPosAdd i
  return { c with hasShift := true }

end KvCells

end SmollChat
