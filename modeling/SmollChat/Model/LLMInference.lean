import SmollChat.Library.StdString
import SmollChat.Model.Engine
import Mathlib.Data.Rat.Defs

/-! # The native class `LLMInference`

State and operations of `llm_inference.cpp`. Lengths stay below `2^31`, so `int`
and `size_t` values are unbounded here. -/

namespace SmollChat

/-- Where `batch.token` points: nowhere, to the storage of a token vector, or to the
member `curr_token`. -/
inductive TokenPtr where
  | null
  | vector (address : ℕ)
  | currToken
  deriving DecidableEq

/-- `llama_batch`, as far as `llama_batch_get_one` sets it. -/
structure Batch where
  token : TokenPtr
  nTokens : ℕ
  deriving DecidableEq

/-- The storage of a local token vector; `live` ends when its function returns. -/
structure Block where
  tokens : List Token
  live : Bool
  deriving DecidableEq

/-- One `llama_decode` call: the number of tokens cached before it, the batch's
`n_tokens` and tokens, and the value returned. -/
structure DecodeCall where
  cached : ℕ
  nTokens : ℕ
  tokens : List Token
  result : ℤ
  deriving DecidableEq

/-- What the engine allocates for an instance. -/
inductive Resource where
  | model
  | context
  | sampler
  deriving DecidableEq

/-- The members of the class. The pointers `ctx`, `model` and `sampler` are kept as
"non-null". The fields from `heap` on are not members: they record the engine's cache,
the resources not freed yet and what the instance has done with the engine so far. -/
structure LLMInference where
  ctx : Bool
  model : Bool
  sampler : Bool
  batch : Batch
  response : Bytes
  messages : List Message
  currToken : ℤ
  formatted : Bytes
  prevLen : ℕ
  storeChats : Bool
  heap : List Block
  kvCache : List Token
  decodeCalls : List DecodeCall
  draws : List ℤ
  truncations : ℕ
  held : List Resource
  deriving DecidableEq

/-- What leaves a native function as a C++ exception, or as undefined behaviour. -/
inductive Failure where
  | runtimeError (what : String)
  | iteratorRange
  deriving DecidableEq

/-- The error results of `completion_loop`. -/
inductive LoopError where
  | invalidState
  | contextExceeded
  | invalidBatch
  | decodeError
  | logitsError
  | vocabError
  | invalidToken
  | tokenOutOfRange
  /-- Returned by the JNI layer for a null handle. -/
  | nullHandle
  deriving DecidableEq

/-- The results of `completion_loop`. The source returns one string for all of them;
`LoopResult.text` is that string. -/
inductive LoopResult where
  | piece (text : Bytes)
  | filtered
  | eog
  | error (e : LoopError)
  deriving DecidableEq

def LoopError.text : LoopError → Bytes
  | invalidState => ascii "[INVALID_STATE]"
  | contextExceeded => ascii "[CONTEXT_EXCEEDED]"
  | invalidBatch => ascii "[INVALID_BATCH]"
  | decodeError => ascii "[DECODE_ERROR]"
  | logitsError => ascii "[LOGITS_ERROR]"
  | vocabError => ascii "[VOCAB_ERROR]"
  | invalidToken => ascii "[INVALID_TOKEN]"
  | tokenOutOfRange => ascii "[TOKEN_OUT_OF_RANGE]"
  | nullHandle => ascii "[ERROR]"

def LoopResult.text : LoopResult → Bytes
  | piece text => text
  | filtered => []
  | eog => ascii "[EOG]"
  | error e => e.text

namespace LLMInference

/-- `new LLMInference()`: value-initialisation zeroes the members. -/
def new : LLMInference where
  ctx := false
  model := false
  sampler := false
  batch := ⟨.null, 0⟩
  response := []
  messages := []
  currToken := 0
  formatted := []
  prevLen := 0
  storeChats := false
  heap := []
  kvCache := []
  decodeCalls := []
  draws := []
  truncations := 0
  held := []

/-! ## Loading and destruction -/

def acquire (s : LLMInference) (r : Resource) : LLMInference := { s with held := s.held ++ [r] }

def release (s : LLMInference) (r : Resource) : LLMInference := { s with held := s.held.erase r }

/-- The arguments of `load_model`. -/
structure LoadRequest where
  modelPath : CString
  minP : ℚ
  temperature : ℚ
  storeChats : Bool

/-- What the engine answers to `load_model`: the model file (`none` where it cannot be
loaded) and whether the vocabulary, the context and the sampler are non-null. -/
structure LoadAnswer where
  engine : Option Engine
  vocab : Bool
  context : Bool
  sampler : Bool

/-- `load_model`. The exits after the first acquisition free what was acquired. -/
def loadModel (s : LLMInference) (r : LoadRequest) (a : LoadAnswer) :
    Except Failure Engine × LLMInference :=
  if r.modelPath.isEmpty then
    (.error (.runtimeError "load_model() failed: invalid model path"), s)
  else if r.minP < 0 ∨ r.minP > 1 then
    (.error (.runtimeError "load_model() failed: invalid min_p value"), s)
  else if r.temperature < 0 ∨ r.temperature > 10 then
    (.error (.runtimeError "load_model() failed: invalid temperature value"), s)
  else
    match a.engine with
    | none =>
        (.error (.runtimeError "load_model() failed: could not load model file"),
          { s with model := false })
    | some E =>
        let s := { s.acquire .model with model := true }
        if !a.vocab then
          (.error (.runtimeError "Failed to get model vocabulary"),
            { s.release .model with model := false })
        else if !a.context then
          (.error (.runtimeError "llama_init_from_model() returned null"),
            { s.release .model with ctx := false, model := false })
        else
          let s := { s.acquire .context with ctx := true }
          if !a.sampler then
            (.error (.runtimeError "Failed to initialize sampler"),
              { (s.release .context).release .model with
                sampler := false, ctx := false, model := false })
          else
            (.ok E, { s.acquire .sampler with
              sampler := true
              formatted := List.replicate (E.nCtx * 4) 0
              messages := []
              storeChats := r.storeChats })

/-- The state a successful `load_model` leaves in a new instance. -/
def loaded (E : Engine) (storeChats : Bool) : LLMInference :=
  { new with
    ctx := true
    model := true
    sampler := true
    formatted := List.replicate (E.nCtx * 4) 0
    storeChats := storeChats
    held := [.model, .context, .sampler] }

/-- `~LLMInference` -/
def destroy (s : LLMInference) : LLMInference :=
  let s := { s with messages := [] }
  let s := if s.sampler then { s.release .sampler with sampler := false } else s
  let s := if s.ctx then { s.release .context with ctx := false } else s
  let s := if s.model then { s.release .model with model := false } else s
  { s with formatted := [], response := [] }

/-! ## Messages -/

/-- `MAX_MESSAGE_LENGTH` -/
def maxMessageLength : ℕ := 8192

/-- The list `add_chat_message` leaves. Its `strncpy` branch and its `strdup` branch
store the message cut to `MAX_MESSAGE_LENGTH` and the whole message. -/
def appendMessage (messages : List Message) (message role : CString) : List Message :=
  if message.isEmpty || role.isEmpty then messages
  else if message.bytes.length > maxMessageLength then
    messages ++ [⟨role, message.take maxMessageLength⟩]
  else messages ++ [⟨role, message⟩]

/-- `add_chat_message` -/
def addChatMessage (s : LLMInference) (message role : CString) : LLMInference :=
  { s with messages := appendMessage s.messages message role }

/-! ## Prompt construction -/

/-- `strncpy(buf, src, buf.size())` -/
def strncpy (buf src : Bytes) : Bytes :=
  let copied := (CString.cStr src).bytes.take buf.length
  copied ++ List.replicate (buf.length - copied.length) 0

/-- `llama_chat_apply_template` into a buffer: the returned length and the buffer. -/
def applyTemplate (T : Template) (messages : List Message) (addAss : Bool) (buf : Bytes) :
    Option (ℕ × Bytes) :=
  (T messages addAss).map fun r => (r.length, strncpy buf r)

/-- The first template application of `start_completion`, repeated after a resize
where the buffer was too small. -/
def formatMessages (T : Template) (messages : List Message) (buf : Bytes) : Option (ℕ × Bytes) :=
  match applyTemplate T messages true buf with
  | none => none
  | some (newLen, buf) =>
      if newLen > buf.length then
        applyTemplate T messages true (buf ++ List.replicate (newLen - buf.length) 0)
      else some (newLen, buf)

/-- `std::string(buf.begin() + start, buf.begin() + stop)`; `none` for a range that is
not one. -/
def slice (buf : Bytes) (start stop : ℕ) : Option Bytes :=
  if start ≤ stop ∧ stop ≤ buf.length then some ((buf.take stop).drop start) else none

/-- `messages_to_keep` -/
def messagesToKeep : ℕ := 5

/-- The erasure of old messages in the over-length branch. -/
def truncateMessages (messages : List Message) : List Message :=
  if messages.length > messagesToKeep then
    let startRemove := 1
    let endRemove := messages.length - messagesToKeep + 1
    messages.take startRemove ++ messages.drop endRemove
  else messages

/-- `batch = llama_batch_get_one(final_tokens.data(), final_tokens.size())` at the end of
`start_completion`. The vector is a local of that function, so its storage ends with
the return that follows. -/
def batchLocal (s : LLMInference) (tokens : List Token) : LLMInference :=
  { s with
    heap := s.heap ++ [⟨tokens, false⟩]
    batch := ⟨.vector s.heap.length, tokens.length⟩ }

/-- What `common_tokenize` throws. -/
def tokenizationFailed : Failure := .runtimeError
  "Tokenization failed: input text too large, tokenization result exceeds int32_t limit"

/-- The end of `start_completion`: the final prompt becomes the batch. -/
def finishStart (E : Engine) (s : LLMInference) (newLen : ℕ) : Except Failure Unit × LLMInference :=
  match slice s.formatted s.prevLen newLen with
  | none => (.error .iteratorRange, s)
  | some finalPrompt =>
      match E.commonTokenize finalPrompt with
      | none => (.error tokenizationFailed, s)
      | some finalTokens => (.ok (), s.batchLocal finalTokens)

/-- `start_completion` up to the appended query. -/
def appendQuery (s : LLMInference) (query : CString) : LLMInference :=
  let s := if s.storeChats then s else { s with prevLen := 0, formatted := [] }
  s.addChatMessage query (.lit "user")

/-- `start_completion` -/
def startCompletion (E : Engine) (s : LLMInference) (query : CString) :
    Except Failure Unit × LLMInference :=
  if query.isEmpty then
    (.error (.runtimeError "start_completion() failed: invalid query"), s)
  else if !s.model || !s.ctx || !s.sampler then
    (.error (.runtimeError "start_completion() failed: model not properly initialized"), s)
  else
    let s := s.appendQuery query
    let maxContextTokens : ℤ := E.nCtx - 800
    match E.chatTemplate with
    | none =>
        (.error (.runtimeError "start_completion() failed: no chat template available"), s)
    | some T =>
        match formatMessages T s.messages s.formatted with
        | none =>
            (.error (.runtimeError
              "llama_chat_apply_template() in LLMInference::start_completion() failed"), s)
        | some (newLen, formatted) =>
            let s := { s with formatted := formatted }
            match slice s.formatted s.prevLen newLen with
            | none => (.error .iteratorRange, s)
            | some prompt =>
                match E.commonTokenize prompt with
                | none => (.error tokenizationFailed, s)
                | some promptTokens =>
                    if promptTokens.length > maxContextTokens then
                      let s := { s with
                        messages := truncateMessages s.messages
                        truncations := s.truncations + 1 }
                      match applyTemplate T s.messages true s.formatted with
                      | none =>
                          (.error (.runtimeError
                            "llama_chat_apply_template() after truncation failed"), s)
                      | some (newLen, formatted) =>
                          finishStart E { s with formatted := formatted, prevLen := 0 } newLen
                    else finishStart E s newLen

/-- The test of the over-length branch, with the calls of `start_completion` before it. -/
def overLength (E : Engine) (s : LLMInference) (query : CString) : Bool :=
  match E.chatTemplate with
  | none => false
  | some T =>
      match formatMessages T (s.appendQuery query).messages (s.appendQuery query).formatted with
      | none => false
      | some (newLen, formatted) =>
          match slice formatted (s.appendQuery query).prevLen newLen with
          | none => false
          | some prompt =>
              match E.commonTokenize prompt with
              | none => false
              | some promptTokens => decide ((promptTokens.length : ℤ) > E.nCtx - 800)

/-! ## Generation -/

/-- The tokens a batch hands to the engine. A freed vector is read as it was when it
was freed. -/
def batchTokens (s : LLMInference) : List Token :=
  match s.batch.token with
  | .null => []
  | .vector address =>
      match s.heap[address]? with
      | none => []
      | some block => block.tokens.take s.batch.nTokens
  | .currToken => [⟨s.currToken, false⟩].take s.batch.nTokens

/-- `llama_decode`: a result of `0` appends the batch to the cache, any other leaves
the cache unchanged. -/
def llamaDecode (s : LLMInference) (result : ℤ) : LLMInference :=
  { s with
    kvCache := if result = 0 then s.kvCache ++ s.batchTokens else s.kvCache
    decodeCalls := s.decodeCalls ++ [⟨s.kvCache.length, s.batch.nTokens, s.batchTokens, result⟩] }

/-- `batch = llama_batch_get_one(&curr_token, 1)` -/
def batchCurrToken (s : LLMInference) : LLMInference := { s with batch := ⟨.currToken, 1⟩ }

/-- The test on a piece that `completion_loop` does not show to the user. -/
def isFormatPiece (piece : Bytes) : Bool :=
  piece == ascii "<|im_end|>" || piece == ascii "<|im_start|>assistant" ||
  piece == ascii "<|im_start|>" || piece == ascii "assistant" ||
  (StdString.find (ascii "<|im_") piece).isSome

/-- The last part of `completion_loop`: what follows the draw of a token. -/
def handleToken (E : Engine) (s : LLMInference) (d : Draw) : LoopResult × LLMInference :=
  if !d.vocab then (.error .vocabError, s)
  else if E.isEog s.currToken then (.eog, s)
  else if s.currToken < 0 then (.error .invalidToken, s)
  else if s.currToken ≥ E.nTokens then (.error .tokenOutOfRange, s)
  else
    let piece := E.commonTokenToPiece s.currToken
    if isFormatPiece piece then (.filtered, s.batchCurrToken)
    else (.piece piece, { s with response := s.response ++ piece }.batchCurrToken)

/-- `completion_loop` -/
def completionLoop (E : Engine) (s : LLMInference) (d : Draw) : LoopResult × LLMInference :=
  if !s.ctx || !s.model || !s.sampler then (.error .invalidState, s)
  else
    let contextSize : ℤ := E.nCtx
    if s.batch.nTokens > contextSize - 300 then (.error .contextExceeded, s)
    else if s.batch.token = .null ∨ s.batch.nTokens ≤ 0 then (.error .invalidBatch, s)
    else
      let s := s.llamaDecode d.decodeResult
      if d.decodeResult < 0 then (.error .decodeError, s)
      else if !d.logits then (.error .logitsError, s)
      else handleToken E { s with currToken := d.sampled, draws := s.draws ++ [d.sampled] } d

/-! ## Ending a completion -/

/-- `tokens_to_remove` -/
def tokensToRemove : List Bytes :=
  [ascii "<|im_end|>", ascii "<|im_start|>assistant", ascii "<|im_start|>",
    ascii "<|end|>", ascii "<|assistant|>", ascii "<|user|>", ascii "<|system|>"]

/-- The characters trimmed from both ends. -/
def blanks : Bytes := ascii " \t\n\r"

/-- The cleaning of the response in `stop_completion`. Each round of a removal loop
shortens the text, so its length bounds the rounds. -/
def cleanResponse (response : Bytes) : Bytes :=
  let removed := tokensToRemove.foldl (fun s t => StdString.eraseEach t s.length s) response
  StdString.trimBack blanks (StdString.trimFront blanks removed)

/-- The length of the rendering of `messages` without the assistant header; `0` where
there is no template or the template fails. -/
def renderedLen (E : Engine) (messages : List Message) : ℕ :=
  match E.chatTemplate with
  | none => 0
  | some T =>
      match T messages false with
      | none => 0
      | some r => r.length

/-- `stop_completion` -/
def stopCompletion (E : Engine) (s : LLMInference) : LLMInference :=
  if !s.model || !s.ctx then s
  else
    let cleaned := cleanResponse s.response
    let s :=
      if s.storeChats && !cleaned.isEmpty then
        s.addChatMessage (CString.cStr cleaned) (.lit "assistant")
      else s
    let s := { s with response := [] }
    { s with prevLen := renderedLen E s.messages }

/-- `cancel_completion` -/
def cancelCompletion (E : Engine) (s : LLMInference) : LLMInference :=
  if !s.model || !s.ctx then s
  else
    let s := { s with response := [] }
    { s with prevLen := renderedLen E s.messages }

/-! ## Call sequences -/

/-- A call of the class's public interface, with what the engine answers to it. -/
inductive Call where
  | addChatMessage (message role : CString)
  | startCompletion (query : CString)
  | completionLoop (d : Draw)
  | stopCompletion
  | cancelCompletion

/-- The state after a call. -/
def call (E : Engine) (s : LLMInference) : Call → LLMInference
  | .addChatMessage message role => s.addChatMessage message role
  | .startCompletion query => (s.startCompletion E query).2
  | .completionLoop d => (s.completionLoop E d).2
  | .stopCompletion => s.stopCompletion E
  | .cancelCompletion => s.cancelCompletion E

def run (E : Engine) (s : LLMInference) (calls : List Call) : LLMInference :=
  calls.foldl (call E) s

end LLMInference

end SmollChat
