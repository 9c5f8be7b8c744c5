import SmollChat.Model.KvCells
import SmollChat.Library.WindowSearch
import SmollChat.Library.Compaction

/-! # The unified KV cache

`llama_kv_cache_unified`, without the tensors. As for the cells, a failing assertion is
`none`. The cache of a model without sliding-window attention has `SwaType.none`. -/

namespace SmollChat

/-- `llama_swa_type` -/
inductive SwaType where
  | none
  | standard
  | chunked
  deriving DecidableEq

/-- One token of a `llama_ubatch`. -/
structure UbatchToken where
  token : ℤ
  pos : ℤ
  seqId : List SeqId
  deriving DecidableEq

/-- `llama_ubatch` -/
abbrev Ubatch := List UbatchToken

structure KvCache where
  cells : KvCells
  head : ℕ
  nPad : ℕ
  nSwa : ℕ
  swaType : SwaType

namespace KvCache

/-- The constructor, for `kvSize` cells. -/
def new (kvSize nPad nSwa : ℕ) (swaType : SwaType) : KvCache :=
  ⟨.reset kvSize, 0, nPad, nSwa, swaType⟩

/-- `std::numeric_limits<llama_pos>::max()` -/
def posMax : ℤ := 2 ^ 31 - 1

def clear (k : KvCache) : KvCache := { k with cells := .reset k.cells.size, head := 0 }

/-! ## Sequences -/

/-- The body of a loop over all cells, with `new_head`: the first cell that became empty, or
the number of cells. -/
def visit (f : KvCells → ℕ → Option (Bool × KvCells)) (st : ℕ × KvCells) (i : ℕ) :
    Option (ℕ × KvCells) := do
  let (emptied, c) ← f st.2 i
  return (if emptied ∧ st.1 = c.size then i else st.1, c)

def eachCell (f : KvCells → ℕ → Option (Bool × KvCells)) (c : KvCells) :
    Option (ℕ × KvCells) :=
  (List.range c.size).foldlM (visit f) (c.size, c)

/-- The range of positions an operation names; negative bounds leave it open. -/
def bounds (p0 p1 : ℤ) : ℤ × ℤ := (if p0 < 0 then 0 else p0, if p1 < 0 then posMax else p1)

/-- The body of the loops that treat the cells of a sequence in a range of positions. -/
def inRange (s : SeqId) (p0 p1 : ℤ) (f : KvCells → ℕ → Option (Bool × KvCells)) (c : KvCells)
    (i : ℕ) : Option (Bool × KvCells) := do
  if !(← c.posIn i p0 p1) then return (false, c)
  if ← c.seqHas i s then f c i else return (false, c)

/-- The body of the second loop of `seq_rm`, for any sequence. -/
def rmInRange (p0 p1 : ℤ) (c : KvCells) (i : ℕ) : Option (Bool × KvCells) := do
  if !(← c.posIn i p0 p1) then return (false, c)
  return (true, ← c.rm i)

/-- `seq_rm`; no sequence stands for a negative id. -/
def seqRm (k : KvCache) (seqId : Option SeqId) (p0 p1 : ℤ) : Option KvCache := do
  let (p0, p1) := bounds p0 p1
  let (newHead, cells) ←
    match seqId with
    | some s => eachCell (inRange s p0 p1 fun c i => c.seqRm i s) k.cells
    | none => eachCell (rmInRange p0 p1) k.cells
  return { k with
    cells := cells
    head := if newHead ≠ cells.size ∧ newHead < k.head then newHead else k.head }

/-- `seq_cp` -/
def seqCp (k : KvCache) (src dst : SeqId) (p0 p1 : ℤ) : Option KvCache := do
  if src = dst then return k
  let (p0, p1) := bounds p0 p1
  let (_, cells) ← eachCell
    (inRange src p0 p1 fun c i => (c.seqAdd i dst).map fun c => (false, c)) k.cells
  return { k with cells := cells }

/-- `seq_keep` -/
def seqKeep (k : KvCache) (s : SeqId) : Option KvCache := do
  let (newHead, cells) ← eachCell (fun c i => c.seqKeep i s) k.cells
  return { k with
    cells := cells
    head := if newHead ≠ cells.size ∧ newHead < k.head then newHead else k.head }

/-- `seq_add` -/
def seqAdd (k : KvCache) (s : SeqId) (p0 p1 shift : ℤ) : Option KvCache := do
  if shift = 0 then return k
  let (p0, p1) := bounds p0 p1
  if p0 = p1 then return k
  let (newHead, cells) ← eachCell (inRange s p0 p1 fun c i => c.posAdd i shift) k.cells
  return { k with cells := cells, head := if newHead ≠ cells.size then newHead else 0 }

/-- `seq_div` -/
def seqDiv (k : KvCache) (s : SeqId) (p0 p1 d : ℤ) : Option KvCache := do
  if d = 1 then return k
  let (p0, p1) := bounds p0 p1
  if p0 = p1 then return k
  let (_, cells) ← eachCell
    (inRange s p0 p1 fun c i => (c.posDiv i d).map fun c => (false, c)) k.cells
  return { k with cells := cells }

/-! ## Slots -/

/-- `is_masked_swa` -/
def isMaskedSwa (k : KvCache) (p0 p1 : ℤ) : Option Bool := do
  guard (0 ≤ p0 ∧ 0 ≤ p1)
  match k.swaType with
  | .none => return false
  | .standard => return p1 - p0 ≥ k.nSwa
  | .chunked => return p0 < p1 / k.nSwa * k.nSwa

/-- The test of a cell in `find_slot`. -/
def canUse (k : KvCache) (i : ℕ) : Option Bool := do
  if ← k.cells.isEmpty i then return true
  if (← k.cells.seqCount i) = 1 then
    let posCell ← k.cells.posGet i
    let s ← k.cells.seqGet i
    k.isMaskedSwa posCell (k.cells.seqPosMax s + 1)
  else return false

/-- `find_slot`; `none` for a negative result. -/
def findSlot (k : KvCache) (nTokens : ℕ) : Option ℕ :=
  let headCur := if k.head > k.cells.getUsed + 2 * nTokens then 0 else k.head
  if nTokens > k.cells.size then none
  else WindowSearch.find (fun i => (k.canUse i).getD false) k.cells.size nTokens headCur

/-- A cell that `apply_ubatch` overwrites is cleared, and its position noted. -/
def makeRoom (c : KvCells) (maxRm : SeqId → ℤ) (i : ℕ) : Option ((SeqId → ℤ) × KvCells) := do
  if ← c.isEmpty i then return (maxRm, c)
  guard ((← c.seqCount i) = 1)
  let s ← c.seqGet i
  let p ← c.posGet i
  return (Function.update maxRm s (max (maxRm s) p), ← c.rm i)

/-- `pos_set`, and `seq_add` for each sequence of the token. -/
def putToken (c : KvCells) (i : ℕ) (t : UbatchToken) : Option KvCells := do
  t.seqId.foldlM (fun c s => c.seqAdd i s) (← c.posSet i t.pos)

/-- The first loop of `apply_ubatch`, from cell `i` on, with `seq_pos_max_rm`. -/
def emplace (c : KvCells) (maxRm : SeqId → ℤ) (i : ℕ) :
    Ubatch → Option ((SeqId → ℤ) × KvCells)
  | [] => some (maxRm, c)
  | t :: rest => do
      let (maxRm, c) ← makeRoom c maxRm i
      emplace (← putToken c i t) maxRm (i + 1) rest

/-- The second loop of `apply_ubatch`. -/
def purge (k : KvCache) (maxRm : SeqId → ℤ) : Option KvCache :=
  (List.finRange 64).foldlM (fun k s =>
    if maxRm s = -1 then some k
    else if k.cells.seqPosMin s ≤ maxRm s then
      k.seqRm s (k.cells.seqPosMin s) (maxRm s + 1)
    else some k) k

/-- `apply_ubatch` -/
def applyUbatch (k : KvCache) (headCur : ℕ) (ubatch : Ubatch) : Option KvCache := do
  let (maxRm, cells) ← emplace k.cells (fun _ => -1) headCur ubatch
  let k ← { k with cells := cells }.purge maxRm
  return { k with head := headCur + ubatch.length }

/-- What `prepare` remembers of a ubatch it has placed. -/
structure Saved where
  headOld : ℕ
  headNew : ℕ
  cells : KvCells

/-- The first loop of `prepare`, with its recovery stack (the last ubatch on top). -/
def place (k : KvCache) (states : List Saved) :
    List Ubatch → Option (Bool × List Saved × KvCache)
  | [] => some (true, states, k)
  | u :: rest =>
      match k.findSlot u.length with
      | none => some (false, states, k)
      | some headNew => do
          let saved ← k.cells.cp headNew u.length
          (← k.applyUbatch headNew u).place (⟨k.head, headNew, saved⟩ :: states) rest

/-- The second loop of `prepare`. -/
def restore (k : KvCache) (states : List Saved) : Option KvCache :=
  states.foldlM (fun k st => do
    return { k with cells := ← k.cells.set st.headNew st.cells, head := st.headOld }) k

/-- `prepare`: the slots of the ubatches, empty where one finds none, and the cache. -/
def prepare (k : KvCache) (ubatches : List Ubatch) : Option (List ℕ × KvCache) := do
  let (success, states, k) ← k.place [] ubatches
  let k ← k.restore states
  return (if success then (states.map Saved.headNew).reverse else [], k)

/-- `get_n_kv` -/
def getNKv (k : KvCache) : ℕ :=
  min k.cells.size (max k.nPad ((k.cells.usedMaxP1 + k.nPad - 1) / k.nPad * k.nPad))

/-! ## The mask -/

/-- What `set_input_kq_mask` writes for a token and cell `j`; `none` is `-INFINITY`. -/
def maskAt (k : KvCache) (causal alibi : Bool) (t : UbatchToken) (j : ℕ) :
    Option (Option ℤ) := do
  let s ← t.seqId.head?
  if ← k.cells.isEmpty j then return none
  let p0 ← k.cells.posGet j
  if !(← k.cells.seqHas j s) then return none
  if causal ∧ p0 > t.pos then return none
  if ← k.isMaskedSwa p0 t.pos then return none
  return some (if alibi then -|p0 - t.pos| else 0)

/-- `set_input_kq_mask`: a row for each token, and rows of padding. -/
def setInputKqMask (k : KvCache) (causal alibi : Bool) (u : Ubatch) :
    Option (List (List (Option ℤ))) := do
  let rows ← u.mapM fun t => (List.range k.getNKv).mapM (k.maskAt causal alibi t)
  return rows ++ List.replicate ((u.length + 63) / 64 * 64 - u.length)
    (List.replicate k.getNKv none)

/-! ## Defragmentation -/

/-- `defrag_prepare`: the target of every cell below `used_max_p1`, or an empty list;
`none` also where `nf == nh` fails. -/
def defragPrepare (k : KvCache) (maxMoves : ℕ) : Option (List ℕ) := do
  let nKv := k.cells.usedMaxP1
  let nUsed := k.cells.getUsed
  guard (nUsed ≤ nKv)
  let (ids, nMoves) ← Compaction.plan (fun i => (k.cells.isEmpty i).getD false) nKv nUsed maxMoves
  return if nMoves = 0 then [] else ids

/-- The moves of `update`, from cell `i` on. -/
def applyMoves (c : KvCells) (nKv i : ℕ) : List ℕ → Option KvCells
  | [] => some c
  | id :: rest => do
      guard (id ≤ nKv)
      let c ← if id = nKv ∨ id = i then some c else c.mv i id
      applyMoves c nKv (i + 1) rest

/-- `update`; `shifted` tells whether the K-shift graph was computed. -/
def update (k : KvCache) (doShift shifted : Bool) (ids : List ℕ) : Option KvCache :=
  if doShift && !shifted then some k
  else do
    let k := if doShift then { k with cells := k.cells.resetShift } else k
    if ids = [] then return k
    else return { k with cells := ← applyMoves k.cells ids.length 0 ids, head := 0 }

end KvCache

end SmollChat
