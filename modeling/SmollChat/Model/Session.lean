import SmollChat.Model.LLMInference
import SmollChat.Model.LlamaContext

/-! # An instance on its context

`LLMInference` takes the result of `llama_decode` from a `Draw`. Here the context that
`load_model` creates gives it. -/

namespace SmollChat

/-- The context `load_model` creates for a model without a sliding window: the constructor
and `create_memory`, with the parameters `load_model` sets. -/
def LlamaContext.create (nCtxTrain nVocab nSwa maxMoves : ℕ) : LlamaContext :=
  let nCtx := min 2048 nCtxTrain
  let nBatch := max (min nCtx 2048) 64
  { memory := .new ((nCtx + 31) / 32 * 32) 32 nSwa .none
    nVocab := nVocab
    nBatch := nBatch
    nUbatch := min nBatch 512
    maxMoves := maxMoves }

structure Session where
  inst : LLMInference
  context : LlamaContext

namespace Session

/-- A loaded instance on a new context. -/
def load (E : Engine) (storeChats : Bool) (nCtxTrain nSwa maxMoves : ℕ) : Session :=
  ⟨.loaded E storeChats, .create nCtxTrain E.nTokens nSwa maxMoves⟩

/-- `completion_loop` gets to its `llama_decode`. -/
def reachesDecode (E : Engine) (s : LLMInference) : Bool :=
  s.ctx && s.model && s.sampler && decide ((s.batch.nTokens : ℤ) ≤ E.nCtx - 300) &&
    decide (s.batch.token ≠ .null) && decide (0 < s.batch.nTokens)

/-- The session after a call, with the backend's answer to a `llama_decode` in it; `none` for
a failing assertion. -/
def call (E : Engine) (s : Session) : LLMInference.Call × DecodeAnswer → Option Session
  | (.completionLoop d, a) =>
      if reachesDecode E s.inst then do
        let (r, context) ← s.context.decode (.getOne (s.inst.batchTokens.map Token.id)) a
        return ⟨s.inst.call E (.completionLoop { d with decodeResult := r }), context⟩
      else some { s with inst := s.inst.call E (.completionLoop d) }
  | (c, _) => some { s with inst := s.inst.call E c }

def run (E : Engine) (s : Session) (calls : List (LLMInference.Call × DecodeAnswer)) :
    Option Session :=
  calls.foldlM (call E) s

end Session

end SmollChat
