import Mathlib.Algebra.GroupWithZero.Nat
import SmollChat.Model.ByteEngine
import SmollChat.Verification.LLMInference.Equations

/-! # The context bound

`completion_loop` compares one batch with the context size. The cache is filled by every
batch since the load, so the bound holds exactly as long as their total stays within the
context or the batch is rejected for its own length. -/

namespace SmollChat.LLMInference

variable {E : Engine} {s s' : LLMInference}

/-! ## What starting a completion keeps -/

/-- `start_completion` touches neither the pointers nor the engine, and its batch always
refers to a vector that holds `n_tokens` tokens. -/
structure StartFrame (s s' : LLMInference) : Prop where
  ctx : s'.ctx = s.ctx
  model : s'.model = s.model
  sampler : s'.sampler = s.sampler
  storeChats : s'.storeChats = s.storeChats
  kvCache : s'.kvCache = s.kvCache
  decodeCalls : s'.decodeCalls = s.decodeCalls
  draws : s'.draws = s.draws
  response : s'.response = s.response
  currToken : s'.currToken = s.currToken
  held : s'.held = s.held
  batch : (s'.batch = s.batch ∧ s'.heap = s.heap) ∨
    s'.batchTokens.length = s'.batch.nTokens

theorem StartFrame.refl (s : LLMInference) : StartFrame s s :=
  ⟨rfl, rfl, rfl, rfl, rfl, rfl, rfl, rfl, rfl, rfl, .inl ⟨rfl, rfl⟩⟩

theorem StartFrame.trans {s₁ s₂ s₃ : LLMInference} (h : StartFrame s₁ s₂)
    (h' : StartFrame s₂ s₃) : StartFrame s₁ s₃ where
  ctx := h'.ctx.trans h.ctx
  model := h'.model.trans h.model
  sampler := h'.sampler.trans h.sampler
  storeChats := h'.storeChats.trans h.storeChats
  kvCache := h'.kvCache.trans h.kvCache
  decodeCalls := h'.decodeCalls.trans h.decodeCalls
  draws := h'.draws.trans h.draws
  response := h'.response.trans h.response
  currToken := h'.currToken.trans h.currToken
  held := h'.held.trans h.held
  batch := by
    rcases h'.batch with ⟨hbatch, hheap⟩ | hlen
    · rcases h.batch with ⟨hbatch₀, hheap₀⟩ | hlen₀
      · exact .inl ⟨hbatch.trans hbatch₀, hheap.trans hheap₀⟩
      · have htokens : s₃.batchTokens = s₂.batchTokens := by
          simp [batchTokens, hbatch, hheap, h'.currToken]
        exact .inr (by rw [htokens, hlen₀, hbatch])
    · exact .inr hlen

theorem StartFrame.setPrompt (s : LLMInference) (messages : List Message) (formatted : Bytes)
    (prevLen truncations : ℕ) :
    StartFrame s { s with
      messages := messages
      formatted := formatted
      prevLen := prevLen
      truncations := truncations } :=
  ⟨rfl, rfl, rfl, rfl, rfl, rfl, rfl, rfl, rfl, rfl, .inl ⟨rfl, rfl⟩⟩

theorem appendQuery_frame (s : LLMInference) (query : CString) :
    StartFrame s (s.appendQuery query) := by
  unfold appendQuery
  split
  · exact .setPrompt s _ s.formatted s.prevLen s.truncations
  · exact .setPrompt s _ [] 0 s.truncations

theorem batchLocal_frame (s : LLMInference) (tokens : List Token) :
    StartFrame s (s.batchLocal tokens) :=
  ⟨rfl, rfl, rfl, rfl, rfl, rfl, rfl, rfl, rfl, rfl, .inr (by rw [batchLocal_batchTokens]; rfl)⟩

theorem startCompletion_frame (E : Engine) (s : LLMInference) (query : CString) :
    StartFrame s (s.startCompletion E query).2 := by
  have happ := appendQuery_frame s query
  have hexit := startCompletion_exit E s query
  generalize (s.startCompletion E query).2 = s' at hexit ⊢
  cases hexit with
  | refused => exact .refl s
  | unrendered => exact happ
  | unsent => exact happ.trans (.setPrompt _ _ _ _ _)
  | whole => exact (happ.trans (.setPrompt _ _ _ _ _)).trans (batchLocal_frame _ _)
  | cut => exact happ.trans (.setPrompt _ _ _ _ _)
  | cutUnsent => exact happ.trans (.setPrompt _ _ _ _ _)
  | shortened => exact (happ.trans (.setPrompt _ _ _ _ _)).trans (batchLocal_frame _ _)

/-! ## Accounting for the cache -/

/-- The tokens of all batches the engine has decoded since the load. -/
def decodedTokens (s : LLMInference) : ℕ :=
  ((s.decodeCalls.filter fun c => c.result = 0).map DecodeCall.nTokens).sum

/-- A loaded instance whose batch holds the tokens it announces and whose cache holds
what has been decoded. -/
structure Accounted (s : LLMInference) : Prop where
  ctx : s.ctx = true
  model : s.model = true
  sampler : s.sampler = true
  batch : s.batchTokens.length = s.batch.nTokens
  kvCache : s.kvCache.length = s.decodedTokens

theorem loaded_accounted (E : Engine) (storeChats : Bool) : Accounted (loaded E storeChats) :=
  ⟨rfl, rfl, rfl, rfl, rfl⟩

theorem startCompletion_accounted (h : Accounted s) (E : Engine) (query : CString) :
    Accounted (s.startCompletion E query).2 := by
  have hf := startCompletion_frame E s query
  refine ⟨hf.ctx.trans h.ctx, hf.model.trans h.model, hf.sampler.trans h.sampler, ?_, ?_⟩
  · rcases hf.batch with ⟨hbatch, hheap⟩ | hlen
    · have htokens : (s.startCompletion E query).2.batchTokens = s.batchTokens := by
        simp [batchTokens, hbatch, hheap, hf.currToken]
      rw [htokens, h.batch, hbatch]
    · exact hlen
  · rw [decodedTokens, hf.kvCache, hf.decodeCalls]
    exact h.kvCache

theorem llamaDecode_accounted (h : Accounted s) (result : ℤ) :
    Accounted (s.llamaDecode result) := by
  refine ⟨h.ctx, h.model, h.sampler, h.batch, ?_⟩
  have hkv := h.kvCache
  unfold decodedTokens at hkv ⊢
  by_cases hr : result = 0
  · simp [llamaDecode, hr, List.filter_append, hkv, h.batch]
  · simp [llamaDecode, hr, List.filter_append, hkv]

theorem afterDraw_accounted (h : Accounted s) (d : Draw) : Accounted (s.afterDraw d) := by
  have hdec := llamaDecode_accounted h d.decodeResult
  refine ⟨hdec.ctx, hdec.model, hdec.sampler, ?_, hdec.kvCache⟩
  have hlen := hdec.batch
  unfold batchTokens at hlen ⊢
  simp only [afterDraw]
  split <;> simp_all

/-- What follows the draw of a token keeps the batch or points it at `curr_token`. -/
theorem completionLoop_accounted (h : Accounted s) (E : Engine) (d : Draw) :
    Accounted (s.completionLoop E d).2 := by
  obtain ⟨r, s', heq, hexit⟩ := completionLoop_exit E s d
  rw [heq]
  cases hexit with
  | notReady => exact h
  | undrawn => exact llamaDecode_accounted h d.decodeResult
  | drawn _ _ _ htoken =>
      have hdrawn := afterDraw_accounted h d
      cases htoken with
      | refused | eog => exact hdrawn
      | filtered | piece => exact ⟨hdrawn.ctx, hdrawn.model, hdrawn.sampler, rfl, hdrawn.kvCache⟩

theorem call_accounted (h : Accounted s) (E : Engine) (c : Call) : Accounted (s.call E c) := by
  cases c with
  | addChatMessage message role => exact ⟨h.ctx, h.model, h.sampler, h.batch, h.kvCache⟩
  | startCompletion query => exact startCompletion_accounted h E query
  | completionLoop d => exact completionLoop_accounted h E d
  | stopCompletion =>
      rw [call, stopCompletion_eq E s h.model h.ctx]
      exact ⟨h.ctx, h.model, h.sampler, h.batch, h.kvCache⟩
  | cancelCompletion =>
      rw [call, cancelCompletion_eq E s h.model h.ctx]
      exact ⟨h.ctx, h.model, h.sampler, h.batch, h.kvCache⟩

theorem run_accounted (h : Accounted s) (E : Engine) (calls : List Call) :
    Accounted (s.run E calls) := by
  induction calls generalizing s with
  | nil => exact h
  | cons c calls ih => exact ih (call_accounted h E c)

/-! ## The bound -/

/-- What the context bound asks of one `completion_loop` call: a decode stays within the
context, and a batch that does not fit is refused without a decode. -/
def BoundedCall (E : Engine) (s : LLMInference) (d : Draw) : Prop :=
  (∀ c ∈ (s.completionLoop E d).2.decodeCalls.drop s.decodeCalls.length,
      c.cached + c.nTokens ≤ E.nCtx) ∧
    (E.nCtx < s.kvCache.length + s.batch.nTokens →
      (s.completionLoop E d).1 = .error .contextExceeded ∧
        (s.completionLoop E d).2.decodeCalls = s.decodeCalls)

instance (E : Engine) (s : LLMInference) (d : Draw) : Decidable (BoundedCall E s d) := by
  unfold BoundedCall
  infer_instance

/-- The batch is rejected for its own length, or there is room for it beside all that has
been decoded since the load. -/
def LeavesRoom (E : Engine) (s : LLMInference) : Prop :=
  E.nCtx < s.batch.nTokens + 300 ∨ s.decodedTokens + s.batch.nTokens ≤ E.nCtx

theorem decodeCalls_of_ready (hready : ReadyToDecode E s) (d : Draw) :
    (s.completionLoop E d).2.decodeCalls =
      s.decodeCalls ++ [⟨s.kvCache.length, s.batch.nTokens, s.batchTokens, d.decodeResult⟩] := by
  obtain ⟨r, s', heq, hexit⟩ := completionLoop_exit E s d
  rw [heq]
  cases hexit with
  | notReady hfails => exact absurd hready hfails
  | undrawn => rfl
  | drawn _ _ _ htoken => cases htoken <;> rfl

/-- On an instance whose accounts are in order the bound holds at a call exactly when
there is room for the batch. -/
theorem boundedCall_iff (h : Accounted s) (E : Engine) (d : Draw) :
    BoundedCall E s d ↔ LeavesRoom E s := by
  unfold BoundedCall LeavesRoom
  rw [← h.kvCache]
  by_cases hready : ReadyToDecode E s
  · have hfits := hready.fits
    rw [decodeCalls_of_ready hready]
    simp only [List.drop_left, List.mem_singleton, forall_eq]
    constructor
    · rintro ⟨hle, -⟩
      exact .inr hle
    · intro hroom
      have hle : s.kvCache.length + s.batch.nTokens ≤ E.nCtx := by omega
      exact ⟨hle, fun hlt => absurd hle (by omega)⟩
  · by_cases hlong : (s.batch.nTokens : ℤ) > E.nCtx - 300
    · have hloop : s.completionLoop E d = (.error .contextExceeded, s) := by
        simp [completionLoop, h.ctx, h.model, h.sampler, hlong]
      simp only [hloop, List.drop_length, List.not_mem_nil, false_implies, implies_true, and_self,
        true_iff]
      omega
    · have hempty : s.batch.token = .null ∨ s.batch.nTokens ≤ 0 := by
        by_contra hvalid
        rw [not_or, Nat.not_le] at hvalid
        exact hready ⟨h.ctx, h.model, h.sampler, Int.not_lt.mp hlong, hvalid.1, hvalid.2⟩
      have hloop : s.completionLoop E d = (.error .invalidBatch, s) := by
        simp only [completionLoop, h.ctx, h.model, h.sampler, Bool.not_true, Bool.or_self,
          Bool.false_eq_true, if_false, hlong, hempty, if_true]
      simp [hloop]
      omega

/-- In every run on a loaded instance the context bound holds at all `completion_loop`
calls exactly when each of them leaves room for its batch. -/
theorem contextBound_iff (E : Engine) (storeChats : Bool) (calls : List Call) :
    (∀ before d after, calls = before ++ .completionLoop d :: after →
        BoundedCall E ((loaded E storeChats).run E before) d) ↔
      ∀ before d after, calls = before ++ .completionLoop d :: after →
        LeavesRoom E ((loaded E storeChats).run E before) := by
  constructor
  · intro h before d after hcalls
    have hacc := run_accounted (loaded_accounted E storeChats) E before
    exact (boundedCall_iff hacc E d).mp (h before d after hcalls)
  · intro h before d after hcalls
    have hacc := run_accounted (loaded_accounted E storeChats) E before
    exact (boundedCall_iff hacc E d).mpr (h before d after hcalls)

def letters (n : ℕ) : CString := .cStr (List.replicate n 97)

/-- Two prompts, each within the limit for one batch, do not fit into the context
together; the second one is handed to the engine nevertheless, which finds no slot. -/
theorem contextBound_exceeded :
    ¬BoundedCall (ByteEngine.engine 992)
      ((loaded (ByteEngine.engine 992) true).run (ByteEngine.engine 992)
        [.startCompletion (letters 380), .completionLoop (.ok 72), .cancelCompletion,
          .startCompletion (letters 280)])
      ⟨1, true, true, 72⟩ := by
  decide +kernel

end SmollChat.LLMInference
