import SmollChat.Verification.LLMInference.Bos

/-! # The storage behind a batch

`llama_batch_get_one` copies a pointer. The batch that `start_completion` sets points into a
local vector whose storage is gone when `completion_loop` decodes it; the batch that
`completion_loop` sets points at the member `curr_token` and stays good. -/

namespace SmollChat.LLMInference

variable {E : Engine} {s s' : LLMInference}

/-! ## Live batches -/

/-- The storage a batch points to. A member lives as long as the instance. -/
def storage (s : LLMInference) : Option Block :=
  match s.batch.token with
  | .null => none
  | .vector address => s.heap[address]?
  | .currToken => some ⟨[⟨s.currToken, false⟩], true⟩

def lastPrompt (s : LLMInference) : Option (List Token) := s.heap.getLast?.map Block.tokens

def lastSampled (s : LLMInference) : Option (List Token) :=
  s.draws.getLast?.map fun token => [⟨token, false⟩]

/-- The storage is live and holds the tokens of the last prompt or the last sampled token. -/
structure LiveBatch (s : LLMInference) : Prop where
  live : s.storage.any Block.live = true
  holds : s.lastPrompt = some s.batchTokens ∨ s.lastSampled = some s.batchTokens

instance (s : LLMInference) : Decidable (LiveBatch s) :=
  decidable_of_iff (s.storage.any Block.live = true ∧
      (s.lastPrompt = some s.batchTokens ∨ s.lastSampled = some s.batchTokens))
    ⟨fun ⟨hlive, hholds⟩ => ⟨hlive, hholds⟩, fun ⟨hlive, hholds⟩ => ⟨hlive, hholds⟩⟩

instance (E : Engine) (s : LLMInference) : Decidable (ReadyToDecode E s) :=
  decidable_of_iff (s.ctx = true ∧ s.model = true ∧ s.sampler = true ∧
      (s.batch.nTokens : ℤ) ≤ E.nCtx - 300 ∧ s.batch.token ≠ .null ∧ 0 < s.batch.nTokens)
    ⟨fun ⟨h₁, h₂, h₃, h₄, h₅, h₆⟩ => ⟨h₁, h₂, h₃, h₄, h₅, h₆⟩,
      fun ⟨h₁, h₂, h₃, h₄, h₅, h₆⟩ => ⟨h₁, h₂, h₃, h₄, h₅, h₆⟩⟩

/-! ## What the batches of a run point to -/

/-- No vector outlives the call that built it, and a batch on `curr_token` is the last
sampled token. -/
structure Returned (s : LLMInference) : Prop where
  heap : ∀ block ∈ s.heap, block.live = false
  currToken : s.batch.token = .currToken → s.lastSampled = some s.batchTokens

theorem loaded_returned (E : Engine) (storeChats : Bool) : Returned (loaded E storeChats) := by
  constructor
  · intro block hblock
    cases hblock
  · intro htoken
    cases htoken

theorem Returned.congr (h : Returned s) (hheap : s'.heap = s.heap) (hbatch : s'.batch = s.batch)
    (hdraws : s'.draws = s.draws) (htoken : s'.currToken = s.currToken) : Returned s' := by
  refine ⟨by rw [hheap]; exact h.heap, ?_⟩
  intro hcurr
  rw [hbatch] at hcurr
  have hsampled := h.currToken hcurr
  simp only [lastSampled, batchTokens, hbatch, hcurr, hdraws, htoken] at hsampled ⊢
  exact hsampled

theorem startCompletion_returned (h : Returned s) (E : Engine) (query : CString) :
    Returned (s.startCompletion E query).2 := by
  have hframe := startCompletion_frame E s query
  rcases startCompletion_batch E s query with
    ⟨hbatch, hheap⟩ | ⟨text, tokens, -, hbatch, hheap⟩
  · exact h.congr hheap hbatch hframe.draws hframe.currToken
  · constructor
    · intro block hblock
      rw [hheap] at hblock
      rcases List.mem_append.mp hblock with hold | hnew
      · exact h.heap block hold
      · rw [List.mem_singleton.mp hnew]
    · intro htoken
      rw [hbatch] at htoken
      cases htoken

theorem afterDraw_returned (h : Returned s)
    (hpos : s.batch.token = .currToken → 0 < s.batch.nTokens) (d : Draw) :
    Returned (s.afterDraw d) := by
  refine ⟨h.heap, ?_⟩
  intro hcurr
  have hlen : 0 < s.batch.nTokens := hpos hcurr
  obtain ⟨n, hn⟩ := Nat.exists_eq_add_of_lt hlen
  simp only [afterDraw, llamaDecode] at hcurr
  simp [lastSampled, batchTokens, afterDraw, llamaDecode, hcurr, hn]

theorem completionLoop_returned (h : Returned s) (E : Engine) (d : Draw) :
    Returned (s.completionLoop E d).2 := by
  obtain ⟨r, s', heq, hexit⟩ := completionLoop_exit E s d
  rw [heq]
  cases hexit with
  | notReady => exact h
  | undrawn => exact h.congr rfl rfl rfl rfl
  | drawn hready _ _ htoken =>
      have hdrawn := afterDraw_returned h (fun _ => hready.nonempty) d
      cases htoken with
      | refused | eog => exact hdrawn
      | filtered | piece =>
          exact ⟨hdrawn.heap, fun _ => by simp [lastSampled, batchTokens, afterDraw]⟩

theorem call_returned (h : Returned s) (hacc : Accounted s) (E : Engine) (c : Call) :
    Returned (s.call E c) := by
  cases c with
  | addChatMessage message role => exact h.congr rfl rfl rfl rfl
  | startCompletion query => exact startCompletion_returned h E query
  | completionLoop d => exact completionLoop_returned h E d
  | stopCompletion =>
      rw [call, stopCompletion_eq E s hacc.model hacc.ctx]
      exact h.congr rfl rfl rfl rfl
  | cancelCompletion =>
      rw [call, cancelCompletion_eq E s hacc.model hacc.ctx]
      exact h.congr rfl rfl rfl rfl

theorem run_returned (h : Returned s) (hacc : Accounted s) (E : Engine) (calls : List Call) :
    Returned (s.run E calls) := by
  induction calls generalizing s with
  | nil => exact h
  | cons c calls ih => exact ih (call_returned h hacc E c) (call_accounted hacc E c)

/-! ## The batches that are decoded -/

theorem liveBatch_of_currToken (h : Returned s) (htoken : s.batch.token = .currToken) :
    LiveBatch s :=
  ⟨by simp [storage, htoken], .inr (h.currToken htoken)⟩

theorem not_liveBatch_of_vector (h : Returned s) {address : ℕ}
    (htoken : s.batch.token = .vector address) : ¬LiveBatch s := by
  intro hlive
  obtain ⟨block, hblock, hb⟩ := Option.any_eq_true _ _ |>.mp hlive.live
  simp only [storage, htoken] at hblock
  rw [h.heap block (List.mem_of_getElem? hblock)] at hb
  cases hb

theorem liveBatch_iff (h : Returned s) (hready : ReadyToDecode E s) :
    LiveBatch s ↔ s.batch.token = .currToken := by
  cases htoken : s.batch.token with
  | null => exact absurd htoken hready.token
  | vector address => simp [not_liveBatch_of_vector h htoken]
  | currToken => simp [liveBatch_of_currToken h htoken]

/-- Until something is decoded no batch points at `curr_token`. -/
theorem run_token_ne {calls : List Call} (hacc : Accounted s)
    (hidle : ∀ before d after, calls = before ++ .completionLoop d :: after →
      ¬ReadyToDecode E (s.run E before))
    (htoken : s.batch.token ≠ .currToken) : (s.run E calls).batch.token ≠ .currToken := by
  induction calls generalizing s with
  | nil => exact htoken
  | cons c calls ih =>
      refine ih (call_accounted hacc E c) (fun before d after hcalls =>
        hidle (c :: before) d after (congrArg (c :: ·) hcalls)) ?_
      cases c with
      | addChatMessage message role => exact htoken
      | startCompletion query =>
          rcases startCompletion_batch E s query with ⟨hbatch, -⟩ | ⟨text, tokens, -, hbatch, -⟩
          · rwa [call, hbatch]
          · rw [call, hbatch]
            simp
      | completionLoop d =>
          have hno : ¬ReadyToDecode E s := hidle [] d calls rfl
          obtain ⟨e, he⟩ := completionLoop_of_not_ready hno d
          rwa [call, he]
      | stopCompletion => rwa [call, stopCompletion_eq E s hacc.model hacc.ctx]
      | cancelCompletion => rwa [call, cancelCompletion_eq E s hacc.model hacc.ctx]

/-- The first batch that a run decodes is one that `start_completion` set, so only runs that
decode nothing decode batches on `curr_token` alone. -/
theorem decodesCurrToken_iff (E : Engine) (storeChats : Bool) (calls : List Call) :
    (∀ before d after, calls = before ++ .completionLoop d :: after →
        ReadyToDecode E ((loaded E storeChats).run E before) →
          ((loaded E storeChats).run E before).batch.token = .currToken) ↔
      ∀ before d after, calls = before ++ .completionLoop d :: after →
        ¬ReadyToDecode E ((loaded E storeChats).run E before) := by
  refine ⟨fun h before => ?_, fun h before d after hcalls hready =>
    absurd hready (h before d after hcalls)⟩
  -- the calls before a call that decodes have decoded nothing
  induction hn : before.length using Nat.strong_induction_on generalizing before with
  | _ n ih =>
      intro d after hcalls hready
      have hidle : ∀ before' d' after', before = before' ++ .completionLoop d' :: after' →
          ¬ReadyToDecode E ((loaded E storeChats).run E before') := by
        rintro before' d' after' rfl
        refine ih _ ?_ before' rfl d' (after' ++ .completionLoop d :: after) ?_
        · rw [← hn, List.length_append, List.length_cons]
          omega
        · rw [hcalls, List.append_assoc, List.cons_append]
      have hinit : (loaded E storeChats).batch.token ≠ .currToken := by
        simp [loaded, LLMInference.new]
      exact run_token_ne (loaded_accounted E storeChats) hidle hinit
        (h before d after hcalls hready)

/-- Along a run on a loaded instance every decoded batch refers to live tokens exactly when
none of them is a batch that `start_completion` set. -/
theorem liveBatches_iff (E : Engine) (storeChats : Bool) (calls : List Call) :
    (∀ before d after, calls = before ++ .completionLoop d :: after →
        ReadyToDecode E ((loaded E storeChats).run E before) →
          LiveBatch ((loaded E storeChats).run E before)) ↔
      ∀ before d after, calls = before ++ .completionLoop d :: after →
        ReadyToDecode E ((loaded E storeChats).run E before) →
          ((loaded E storeChats).run E before).batch.token = .currToken := by
  have hreturned (before : List Call) : Returned ((loaded E storeChats).run E before) :=
    run_returned (loaded_returned E storeChats) (loaded_accounted E storeChats) E before
  constructor
  · intro h before d after hcalls hready
    exact (liveBatch_iff (hreturned before) hready).mp (h before d after hcalls hready)
  · intro h before d after hcalls hready
    exact (liveBatch_iff (hreturned before) hready).mpr (h before d after hcalls hready)

/-- The first `completion_loop` after a `start_completion` decodes freed storage. -/
theorem liveBatches_prompt_dead :
    ReadyToDecode (ByteEngine.engine 1024)
        ((loaded (ByteEngine.engine 1024) true).run (ByteEngine.engine 1024)
          [.startCompletion (.lit "hi")]) ∧
      ¬LiveBatch ((loaded (ByteEngine.engine 1024) true).run (ByteEngine.engine 1024)
        [.startCompletion (.lit "hi")]) := by
  decide +kernel

end SmollChat.LLMInference
