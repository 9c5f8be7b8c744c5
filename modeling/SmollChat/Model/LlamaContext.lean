import SmollChat.Model.KvCache

/-! # Decoding

`llama_decode` on a context with a unified KV cache and causal attention: the batch
allocator, the slots and, per ubatch, the result of its graph. What the graphs compute is
left to `DecodeAnswer`. -/

namespace SmollChat

/-- `llama_batch` with tokens; `none` for a null pointer. -/
structure LlamaBatch where
  token : List ℤ
  pos : Option (List ℤ)
  seqId : Option (List (List ℤ))
  deriving DecidableEq

/-- `llama_batch_get_one` -/
def LlamaBatch.getOne (tokens : List ℤ) : LlamaBatch := ⟨tokens, none, none⟩

/-- `ggml_status` -/
inductive GgmlStatus where
  | success
  | aborted
  | allocFailed
  | failed
  deriving DecidableEq

structure LlamaContext where
  memory : KvCache
  /-- `vocab.n_tokens()` -/
  nVocab : ℕ
  nBatch : ℕ
  nUbatch : ℕ
  /-- `max_moves` of `defrag_prepare` -/
  maxMoves : ℕ

/-- What the backend answers during one `decode` call: whether a K-shift graph is computed,
whether the first update also defragments (by `memory_force_optimize` or `defrag_thold`),
whether the output buffer is reserved, and the status of each ubatch. -/
structure DecodeAnswer where
  shifted : Bool
  optimize : Bool
  reserved : Bool
  status : ℕ → GgmlStatus

namespace LlamaBatch

/-! ## The batch allocator -/

/-- `seq_id_0` -/
abbrev seqId0 : SeqId := 0

/-- The ids of a token, once they are within range. -/
def readIds (ids : List ℤ) : List SeqId := ids.map fun s => Fin.ofNat 64 s.toNat

/-- The sequence ids, checked, or `seqId0` for every token. -/
def seqIds (b : LlamaBatch) : Option (List (List SeqId)) :=
  match b.seqId with
  | none => some (List.replicate b.token.length [seqId0])
  | some ids => do
      guard (∀ tokenIds ∈ ids, ∀ s ∈ tokenIds, 0 ≤ s ∧ s < 64)
      return ids.map readIds

/-- Positions generated from those in the memory; `p0` holds the next one by sequence. -/
def genPos (p0 : SeqId → ℤ) : List (List SeqId) → List ℤ
  | [] => []
  | ids :: rest =>
      let p := (ids.head?.map p0).getD 0
      p :: genPos (fun s => if s ∈ ids then p + 1 else p0 s) rest

/-- `seq_pos[s]`: the positions of a sequence in the batch. -/
def seqPos (toks : Ubatch) (s : SeqId) : Finset ℤ :=
  ((toks.filter fun t => s ∈ t.seqId).map UbatchToken.pos).toFinset

def seqPosMin (toks : Ubatch) (s : SeqId) : ℤ :=
  if h : (seqPos toks s).Nonempty then (seqPos toks s).min' h else -1

def seqPosMax (toks : Ubatch) (s : SeqId) : ℤ :=
  if h : (seqPos toks s).Nonempty then (seqPos toks s).max' h else -1

/-- A sequence continues where the memory ends, without gaps. -/
def checkSeq (memory : KvCache) (toks : Ubatch) (s : SeqId) : Bool :=
  if seqPos toks s = ∅ then true
  else
    let p0 := memory.cells.seqPosMax s
    !(p0 ≥ 0 ∧ seqPosMin toks s ≠ p0 + 1) &&
      !(seqPosMax toks s - seqPosMin toks s + 1 > (seqPos toks s).card)

/-- Coupled sequences have the same positions in the memory. -/
def checkCoupled (memory : KvCache) (t : UbatchToken) : Bool :=
  match t.seqId with
  | [] => true
  | s0 :: rest => rest.all fun s1 =>
      !(memory.cells.seqPosMin s1 ≠ memory.cells.seqPosMin s0 ∨
        memory.cells.seqPosMax s1 ≠ memory.cells.seqPosMax s0)

/-- The last loop of `init`, with `cur_seq_set` and `cur_seq_pos`. -/
def checkSets (curSet : SeqId → Finset SeqId) (curPos : SeqId → ℤ) : Ubatch → Bool
  | [] => true
  | t :: rest =>
      let curSet := fun s => if s ∈ t.seqId then curSet s ∩ t.seqId.toFinset else curSet s
      if t.seqId.any fun s => curSet s = ∅ ∨ t.pos < curPos s then false
      else checkSets curSet curPos rest

/-- `llama_batch_allocr::init`: the batch with its missing fields filled in; `none` where it
returns false. -/
def init (b : LlamaBatch) (memory : KvCache) (nVocab : ℕ) : Option Ubatch := do
  guard (∀ t ∈ b.token, 0 ≤ t ∧ t < nVocab)
  let ids ← b.seqIds
  let pos := b.pos.getD (genPos (fun s => memory.cells.seqPosMax s + 1) ids)
  let toks := (b.token.zip (pos.zip ids)).map fun (t, p, s) => ⟨t, p, s⟩
  guard ((List.finRange 64).all (checkSeq memory toks))
  guard (toks.all (checkCoupled memory))
  guard (checkSets (fun _ => Finset.univ) (fun _ => -1) toks)
  return toks

/-- `split_simple` until no token is left; `fuel` bounds the ubatches. -/
def splitAll (nUbatch : ℕ) : ℕ → Ubatch → List Ubatch
  | 0, _ => []
  | fuel + 1, toks =>
      if toks = [] then []
      else toks.take (max nUbatch 1) :: splitAll nUbatch fuel (toks.drop (max nUbatch 1))

end LlamaBatch

namespace LlamaContext

/-- `kv_self_update`: whether there was something to update, and the cache. -/
def kvSelfUpdate (k : KvCache) (optimize shifted : Bool) (maxMoves : ℕ) :
    Option (Bool × KvCache) := do
  let ids ← if optimize then k.defragPrepare maxMoves else some []
  if !k.cells.hasShift ∧ ids = [] then return (false, k)
  else return (true, ← k.update k.cells.hasShift shifted ids)

/-- `init_batch`, tried again after an optimization: the slots, empty where the second try
fails too. -/
def initBatch (k : KvCache) (ubatches : List Ubatch) (shifted : Bool) (maxMoves : ℕ) :
    Option (List ℕ × KvCache) := do
  let (heads, k) ← k.prepare ubatches
  if heads ≠ [] then return (heads, k)
  let (updated, k) ← kvSelfUpdate k true shifted maxMoves
  if updated then k.prepare ubatches else return ([], k)

/-- The least position of a sequence among the tokens it comes first in. -/
def posMin (u : Ubatch) (s : SeqId) : ℤ :=
  ((u.filter fun t => t.seqId.head? = some s).map UbatchToken.pos).foldl min KvCache.posMax

/-- What a failed ubatch leaves is removed. -/
def removeUbatch (k : KvCache) (u : Ubatch) : Option KvCache :=
  (List.finRange 64).foldlM (fun k s =>
    if posMin u s = KvCache.posMax then some k else k.seqRm (some s) (posMin u s) (-1)) k

/-- The value `decode` returns for a ubatch that fails. -/
def failureCode : GgmlStatus → ℤ
  | .success => 0
  | .aborted => 2
  | .allocFailed => -2
  | .failed => -3

/-- The loop over the ubatches, from the `i`-th on. -/
def processAll (k : KvCache) (status : ℕ → GgmlStatus) (i : ℕ) :
    List ℕ → List Ubatch → Option (ℤ × KvCache)
  | h :: heads, u :: us => do
      let k ← k.applyUbatch h u
      if status i = .success then processAll k status (i + 1) heads us
      else return (failureCode (status i), ← removeUbatch k u)
  | _, _ => some (0, k)

/-- `decode`; a failing assertion is `none`. -/
def decode (c : LlamaContext) (batch : LlamaBatch) (a : DecodeAnswer) :
    Option (ℤ × LlamaContext) := do
  if batch.token = [] then return (-1, c)
  match batch.init c.memory c.nVocab with
  | none => return (-1, c)
  | some toks =>
      guard (toks.length ≤ c.nBatch)
      let (_, k) ← kvSelfUpdate c.memory a.optimize a.shifted c.maxMoves
      let ubatches := LlamaBatch.splitAll c.nUbatch toks.length toks
      let (heads, k) ← initBatch k ubatches a.shifted c.maxMoves
      if heads = [] then return (1, { c with memory := k })
      if !a.reserved then return (-2, { c with memory := k })
      let (r, k) ← processAll k a.status 0 heads ubatches
      return (r, { c with memory := k })

/-! ## The memory interface -/

/-- A call of `llama_kv_self_*` or `llama_decode`. -/
inductive MemoryCall where
  | clear
  | seqRm (seqId : Option SeqId) (p0 p1 : ℤ)
  | seqCp (src dst : SeqId) (p0 p1 : ℤ)
  | seqKeep (s : SeqId)
  | seqAdd (s : SeqId) (p0 p1 shift : ℤ)
  | seqDiv (s : SeqId) (p0 p1 d : ℤ)
  | update (optimize shifted : Bool)
  | decode (batch : LlamaBatch) (a : DecodeAnswer)

/-- The context after a call; a failing assertion is `none`. -/
def call (c : LlamaContext) : MemoryCall → Option LlamaContext
  | .clear => some { c with memory := c.memory.clear }
  | .seqRm seqId p0 p1 => (c.memory.seqRm seqId p0 p1).map fun k => { c with memory := k }
  | .seqCp src dst p0 p1 => (c.memory.seqCp src dst p0 p1).map fun k => { c with memory := k }
  | .seqKeep s => (c.memory.seqKeep s).map fun k => { c with memory := k }
  | .seqAdd s p0 p1 shift => (c.memory.seqAdd s p0 p1 shift).map fun k => { c with memory := k }
  | .seqDiv s p0 p1 d => (c.memory.seqDiv s p0 p1 d).map fun k => { c with memory := k }
  | .update optimize shifted =>
      (kvSelfUpdate c.memory optimize shifted c.maxMoves).map fun (_, k) => { c with memory := k }
  | .decode batch a => (c.decode batch a).map Prod.snd

def run (c : LlamaContext) (calls : List MemoryCall) : Option LlamaContext := calls.foldlM call c

end LlamaContext

end SmollChat
