import SmollChat.Model.ByteEngine
import SmollChat.Model.Session
import SmollChat.Verification.KvCache.Linear
import SmollChat.Verification.LLMInference.Truncation

/-! # The instance and its cells

Whatever is called on a loaded instance, the cells of its context hold one sequence without
gaps, and `decode` is within its assertions. While a batch fails at its first ubatch if at
all, the cells are those of the token list that stands for the cache elsewhere. -/

namespace SmollChat.Session

open LLMInference KvCache

variable {E : Engine} {s s' : Session} {n : ℕ}

theorem reachesDecode_iff {s : LLMInference} :
    reachesDecode E s = true ↔ LLMInference.ReadyToDecode E s := by
  simp only [reachesDecode, Bool.and_eq_true, decide_eq_true_eq]
  constructor
  · rintro ⟨⟨⟨⟨⟨h1, h2⟩, h3⟩, h4⟩, h5⟩, h6⟩
    exact ⟨h1, h2, h3, h4, h5, h6⟩
  · rintro ⟨h1, h2, h3, h4, h5, h6⟩
    exact ⟨⟨⟨⟨⟨h1, h2⟩, h3⟩, h4⟩, h5⟩, h6⟩

/-! ## What every call keeps -/

/-- The cells hold `n` tokens, and the context has room for every batch that
`completion_loop` lets through. -/
structure Sound (E : Engine) (n : ℕ) (s : Session) : Prop where
  accounted : Accounted s.inst
  linear : s.context.memory.Linear n
  size : s.context.memory.cells.size = E.nCtx
  nBatch : E.nCtx ≤ s.context.nBatch + 300
  small : E.nCtx < 2 ^ 31
  nVocab : s.context.nVocab = E.nTokens
  cached : s.inst.kvCache.length ≤ n

theorem sound_load (storeChats : Bool) (nCtxTrain nSwa maxMoves : ℕ)
    (hctx : E.nCtx = (min 2048 nCtxTrain + 31) / 32 * 32) :
    Sound E 0 (load E storeChats nCtxTrain nSwa maxMoves) := by
  have hsize : (load E storeChats nCtxTrain nSwa maxMoves).context.memory.cells.size =
      (min 2048 nCtxTrain + 31) / 32 * 32 := List.length_replicate
  refine ⟨loaded_accounted E storeChats, linear_new .., hsize.trans hctx.symm, ?_, ?_, rfl, le_rfl⟩
  · simp only [load, LlamaContext.create]
    omega
  · omega

def batchIds (s : LLMInference) : List ℤ := s.batchTokens.map Token.id

/-- A call that decodes gets one of the results a context with `n` tokens can give. -/
theorem call_decode (hs : s.Sound E n) (hready : ReadyToDecode E s.inst) (d : Draw)
    (a : DecodeAnswer) :
    ∃ r k' n', call E s (.completionLoop d, a) = some
        ⟨s.inst.call E (.completionLoop { d with decodeResult := r }),
          { s.context with memory := k' }⟩ ∧
      k'.Linear n' ∧ k'.cells.size = E.nCtx ∧
      LlamaContext.Outcome s.context n (batchIds s.inst) a r n' := by
  have hlen : (batchIds s.inst).length = s.inst.batch.nTokens :=
    (List.length_map _).trans hs.accounted.batch
  have hfits := hready.fits
  have hbatch := hs.nBatch
  obtain ⟨r, k', n', hdecode, hlinear, hsize, houtcome⟩ := LlamaContext.decode_linear hs.linear
    (by rw [hs.size]; exact hs.small) (batchIds s.inst) (by omega) a
  refine ⟨r, k', n', ?_, hlinear, hsize.trans hs.size, houtcome⟩
  have hreaches := reachesDecode_iff.mpr hready
  simp only [call, hreaches, if_true]
  rw [show s.context.decode (.getOne (s.inst.batchTokens.map Token.id)) a = _ from hdecode]
  rfl

theorem call_other (c : LLMInference.Call) (a : DecodeAnswer)
    (h : ∀ d, c = .completionLoop d → ¬ReadyToDecode E s.inst) :
    call E s (c, a) = some { s with inst := s.inst.call E c } := by
  cases c with
  | completionLoop d =>
      have hno : reachesDecode E s.inst = false :=
        Bool.eq_false_iff.mpr fun hr => h d rfl (reachesDecode_iff.mp hr)
      simp only [call, hno, Bool.false_eq_true, if_false]
  | addChatMessage | startCompletion | stopCompletion | cancelCompletion => rfl

theorem kvCache_other (hacc : Accounted s.inst) (c : LLMInference.Call)
    (h : ∀ d, c = .completionLoop d → ¬ReadyToDecode E s.inst) :
    (s.inst.call E c).kvCache = s.inst.kvCache ∧
      (s.inst.call E c).decodeCalls = s.inst.decodeCalls := by
  cases c with
  | addChatMessage message role => exact ⟨rfl, rfl⟩
  | startCompletion query =>
      have hframe := startCompletion_frame E s.inst query
      exact ⟨hframe.kvCache, hframe.decodeCalls⟩
  | completionLoop d =>
      obtain ⟨e, he⟩ := completionLoop_of_not_ready (h d rfl) d
      rw [LLMInference.call, he]
      exact ⟨rfl, rfl⟩
  | stopCompletion =>
      rw [LLMInference.call, stopCompletion_eq E s.inst hacc.model hacc.ctx]
      exact ⟨rfl, rfl⟩
  | cancelCompletion =>
      rw [LLMInference.call, cancelCompletion_eq E s.inst hacc.model hacc.ctx]
      exact ⟨rfl, rfl⟩

theorem Sound.other (hs : s.Sound E n) (c : LLMInference.Call)
    (h : ∀ d, c = .completionLoop d → ¬ReadyToDecode E s.inst) :
    Sound E n { s with inst := s.inst.call E c } :=
  ⟨call_accounted hs.accounted E c, hs.linear, hs.size, hs.nBatch, hs.small, hs.nVocab,
    (congrArg List.length (kvCache_other hs.accounted c h).1).trans_le hs.cached⟩

theorem Outcome.le {c : LlamaContext} {tokens : List ℤ} {a : DecodeAnswer} {r : ℤ} {n' : ℕ}
    (h : LlamaContext.Outcome c n tokens a r n') : n ≤ n' ∧ (r = 0 → n' = n + tokens.length) := by
  cases h with
  | rejected | full | unreserved => exact ⟨le_rfl, fun h => by contradiction⟩
  | done => exact ⟨Nat.le_add_right .., fun _ => rfl⟩
  | stopped j _ _ hfail =>
      refine ⟨Nat.le_add_right .., fun h => ?_⟩
      have := LlamaContext.failureCode_mem hfail
      omega

/-- A call is within the assertions of the engine and keeps what is known of the session. -/
theorem call_spec (hs : s.Sound E n) (c : LLMInference.Call) (a : DecodeAnswer) :
    ∃ s' n', call E s (c, a) = some s' ∧ s'.Sound E n' ∧ n ≤ n' := by
  by_cases hdecodes : ∃ d, c = .completionLoop d ∧ ReadyToDecode E s.inst
  · obtain ⟨d, rfl, hready⟩ := hdecodes
    obtain ⟨r, k', n', hcall, hlinear, hsize, houtcome⟩ := call_decode hs hready d a
    obtain ⟨hle, hzero⟩ := Outcome.le houtcome
    have hacc := call_accounted hs.accounted E (.completionLoop { d with decodeResult := r })
    refine ⟨_, n', hcall, ⟨hacc, hlinear, hsize, hs.nBatch, hs.small, hs.nVocab, ?_⟩, hle⟩
    have hkv := kvCache_of_ready hready { d with decodeResult := r }
    have hcached := hs.cached
    simp only [LLMInference.call, hkv]
    split_ifs with hr
    · rw [hzero hr, List.length_append, batchIds, List.length_map]
      omega
    · exact hcached.trans hle
  · have hno : ∀ d, c = .completionLoop d → ¬ReadyToDecode E s.inst := fun d hd hready =>
      hdecodes ⟨d, hd, hready⟩
    exact ⟨_, n, call_other c a hno, hs.other c hno, le_rfl⟩

/-- In every run on a loaded instance the engine's assertions hold, and the cells are filled
without gaps, with at least the tokens of the batches that `decode` accepted. -/
theorem run_spec (hs : s.Sound E n) (calls : List (LLMInference.Call × DecodeAnswer)) :
    ∃ s' n', run E s calls = some s' ∧ s'.Sound E n' ∧ n ≤ n' := by
  induction calls generalizing s n with
  | nil => exact ⟨s, n, rfl, hs, le_rfl⟩
  | cons ca calls ih =>
      obtain ⟨s₁, n₁, hcall, hs₁, hle₁⟩ := call_spec hs ca.1 ca.2
      obtain ⟨s', n', hrun, hs', hle'⟩ := ih hs₁
      exact ⟨s', n', by rw [run, List.foldlM_cons, hcall]; exact hrun, hs', hle₁.trans hle'⟩

/-! ## The token list that stands for the cache -/

/-- The results of `llama_decode` are those of a context with the tokens counted so far: `1`
exactly where valid tokens do not fit, `0` only where they do. -/
def ResultFits (E : Engine) (d : DecodeCall) : Prop :=
  (d.result = 1 ↔ (∀ t ∈ d.tokens, 0 ≤ t.id ∧ t.id < E.nTokens) ∧ E.nCtx < d.cached + d.nTokens) ∧
    (d.result = 0 → d.cached + d.nTokens ≤ E.nCtx)

/-- A batch that fails, fails at its first ubatch. -/
def FailsWhole (a : DecodeAnswer) : Prop := ∀ j, a.status (j + 1) = .success

def SameCall (c c' : LLMInference.Call) : Prop :=
  c' = c ∨ ∃ d r, c = .completionLoop d ∧ c' = .completionLoop { d with decodeResult := r }

/-- The cells are those of the token list, and the results fit it. -/
structure Refines (E : Engine) (s : Session) : Prop where
  sound : s.Sound E s.inst.kvCache.length
  results : ∀ d ∈ s.inst.decodeCalls, ResultFits E d

theorem Outcome.whole {c : LlamaContext} {tokens : List ℤ} {a : DecodeAnswer} {r : ℤ} {n' : ℕ}
    (ha : FailsWhole a) (h : LlamaContext.Outcome c n tokens a r n') :
    n' = if r = 0 then n + tokens.length else n := by
  cases h with
  | rejected | full | unreserved | done => rfl
  | stopped j _ _ hfail =>
      cases j with
      | zero =>
          have := LlamaContext.failureCode_mem hfail
          rw [if_neg (by omega)]
          simp
      | succ j => exact absurd (ha j) hfail

theorem Outcome.eq_one {c : LlamaContext} {tokens : List ℤ} {a : DecodeAnswer} {r : ℤ} {n' : ℕ}
    (hne : tokens ≠ []) (h : LlamaContext.Outcome c n tokens a r n') :
    (r = 1 ↔ (∀ t ∈ tokens, 0 ≤ t ∧ t < c.nVocab) ∧
        c.memory.cells.size < n + tokens.length) ∧
      (r = 0 → n + tokens.length ≤ c.memory.cells.size) := by
  cases h with
  | rejected h =>
      have hno : ¬∀ t ∈ tokens, 0 ≤ t ∧ t < c.nVocab := h.resolve_left hne
      exact ⟨iff_of_false (by decide) fun h => hno h.1, fun h => by contradiction⟩
  | full htokens h => exact ⟨iff_of_true rfl ⟨htokens, h⟩, fun h => by contradiction⟩
  | unreserved _ hfit =>
      exact ⟨iff_of_false (by decide) fun h => not_lt.mpr hfit h.2, fun _ => hfit⟩
  | done _ hfit => exact ⟨iff_of_false (by decide) fun h => not_lt.mpr hfit h.2, fun _ => hfit⟩
  | stopped j _ _ hfail hfit =>
      have hcode := LlamaContext.failureCode_mem hfail
      exact ⟨iff_of_false (by omega) fun h => not_lt.mpr hfit h.2, fun _ => hfit⟩

theorem call_refines (hs : s.Refines E) (c : LLMInference.Call) {a : DecodeAnswer}
    (ha : FailsWhole a) :
    ∃ s' c', call E s (c, a) = some s' ∧ SameCall c c' ∧ s'.inst = s.inst.call E c' ∧
      s'.Refines E := by
  by_cases hdecodes : ∃ d, c = .completionLoop d ∧ ReadyToDecode E s.inst
  · obtain ⟨d, rfl, hready⟩ := hdecodes
    obtain ⟨r, k', n', hcall, hlinear, hsize, houtcome⟩ := call_decode hs.sound hready d a
    have hacc := call_accounted hs.sound.accounted E (.completionLoop { d with decodeResult := r })
    have hkv := kvCache_of_ready hready { d with decodeResult := r }
    have hlog := decodeCalls_of_ready hready { d with decodeResult := r }
    have hids : (batchIds s.inst).length = s.inst.batch.nTokens :=
      (List.length_map _).trans hs.sound.accounted.batch
    have hlen : (s.inst.call E (.completionLoop { d with decodeResult := r })).kvCache.length =
        n' := by
      rw [LLMInference.call, hkv, Outcome.whole ha houtcome]
      split_ifs
      · rw [List.length_append, batchIds, List.length_map]
      · rfl
    refine ⟨_, _, hcall, .inr ⟨d, r, rfl, rfl⟩, rfl, ⟨hacc, ?_, hsize, hs.sound.nBatch,
      hs.sound.small, hs.sound.nVocab, le_rfl⟩, fun call hmem => ?_⟩
    · rw [hlen]
      exact hlinear
    · rw [LLMInference.call, hlog] at hmem
      rcases List.mem_append.mp hmem with hmem | hmem
      · exact hs.results call hmem
      · obtain rfl := List.mem_singleton.mp hmem
        have hne : batchIds s.inst ≠ [] := fun h => by
          have := hready.nonempty
          rw [← hids, h] at this
          exact absurd this (lt_irrefl 0)
        have hone := Outcome.eq_one hne houtcome
        rw [hs.sound.size, hs.sound.nVocab, hids, batchIds] at hone
        simpa [ResultFits] using hone
  · have hno : ∀ d, c = .completionLoop d → ¬ReadyToDecode E s.inst := fun d hd hready =>
      hdecodes ⟨d, hd, hready⟩
    obtain ⟨hkv, hlog⟩ := kvCache_other hs.sound.accounted c hno
    have hsound := hs.sound.other c hno
    refine ⟨_, c, call_other c a hno, .inl rfl, rfl, ⟨?_, fun call hmem => ?_⟩⟩
    · rw [← hkv] at hsound
      exact hsound
    · rw [hlog] at hmem
      exact hs.results call hmem

/-- A run on the cells is a run of the instance with the results that a list of the cached
tokens determines. -/
theorem run_refines (hs : s.Refines E) {calls : List (LLMInference.Call × DecodeAnswer)}
    (hcalls : ∀ ca ∈ calls, FailsWhole ca.2) :
    ∃ s' calls', run E s calls = some s' ∧ List.Forall₂ SameCall (calls.map Prod.fst) calls' ∧
      s'.inst = s.inst.run E calls' ∧ s'.Refines E := by
  induction calls generalizing s with
  | nil => exact ⟨s, [], rfl, .nil, rfl, hs⟩
  | cons ca calls ih =>
      obtain ⟨ha, hrest⟩ := List.forall_mem_cons.mp hcalls
      obtain ⟨s₁, c', hcall, hsame, hinst, hs₁⟩ := call_refines hs ca.1 ha
      obtain ⟨s', calls', hrun, hall, hinst', hs'⟩ := ih hs₁ hrest
      refine ⟨s', c' :: calls', ?_, .cons hsame hall, ?_, hs'⟩
      · rw [run, List.foldlM_cons, hcall]
        exact hrun
      · rw [hinst', hinst]
        rfl

theorem load_refines (storeChats : Bool) (nCtxTrain nSwa maxMoves : ℕ)
    (hctx : E.nCtx = (min 2048 nCtxTrain + 31) / 32 * 32) :
    Refines E (load E storeChats nCtxTrain nSwa maxMoves) :=
  ⟨sound_load storeChats nCtxTrain nSwa maxMoves hctx,
    fun _ h => by simp [load, loaded, LLMInference.new] at h⟩

/-! ## From the load on -/

/-- Whatever is called on a loaded instance and whatever the backend answers, no assertion of
the engine fails, and the cells hold one sequence without gaps, within the context. -/
theorem load_run (storeChats : Bool) (nCtxTrain nSwa maxMoves : ℕ)
    (hctx : E.nCtx = (min 2048 nCtxTrain + 31) / 32 * 32)
    (calls : List (LLMInference.Call × DecodeAnswer)) :
    ∃ s' n, run E (load E storeChats nCtxTrain nSwa maxMoves) calls = some s' ∧
      s'.context.memory.Linear n ∧ s'.inst.kvCache.length ≤ n ∧ n ≤ E.nCtx := by
  obtain ⟨s', n, hrun, hs, -⟩ := run_spec (sound_load storeChats nCtxTrain nSwa maxMoves hctx) calls
  exact ⟨s', n, hrun, hs.linear, hs.cached, hs.size ▸ hs.linear.le⟩

theorem load_run_bytes :
    ∃ s' n, run (ByteEngine.engine 1024) (load (ByteEngine.engine 1024) true 1024 0 8)
        [(.startCompletion (.lit "hi"), ⟨true, true, true, fun _ => .success⟩),
          (.completionLoop (.ok 3), ⟨true, true, true, fun _ => .success⟩),
          (.completionLoop (.ok 3), ⟨true, false, true, fun _ => .failed⟩),
          (.stopCompletion, ⟨true, true, true, fun _ => .success⟩)] = some s' ∧
      s'.context.memory.Linear n ∧ s'.inst.kvCache.length ≤ n ∧
      n ≤ (ByteEngine.engine 1024).nCtx :=
  load_run true 1024 0 8 rfl _

/-- While no batch fails after its first ubatch, the cells are those of the cached tokens, and
the run is one of the instance alone, with `llama_decode` returning `1` exactly where valid
tokens do not fit behind the cached ones. -/
theorem load_run_refines (storeChats : Bool) (nCtxTrain nSwa maxMoves : ℕ)
    (hctx : E.nCtx = (min 2048 nCtxTrain + 31) / 32 * 32)
    {calls : List (LLMInference.Call × DecodeAnswer)} (hcalls : ∀ ca ∈ calls, FailsWhole ca.2) :
    ∃ s' calls', run E (load E storeChats nCtxTrain nSwa maxMoves) calls = some s' ∧
      List.Forall₂ SameCall (calls.map Prod.fst) calls' ∧
      s'.inst = (loaded E storeChats).run E calls' ∧
      s'.context.memory.Linear s'.inst.kvCache.length ∧
      ∀ d ∈ s'.inst.decodeCalls, ResultFits E d := by
  obtain ⟨s', calls', hrun, hall, hinst, hs⟩ :=
    run_refines (load_refines storeChats nCtxTrain nSwa maxMoves hctx) hcalls
  exact ⟨s', calls', hrun, hall, hinst, hs.sound.linear, hs.results⟩

theorem load_run_refines_bytes :
    ∃ s' calls', run (ByteEngine.engine 1024) (load (ByteEngine.engine 1024) true 1024 0 8)
        [(.startCompletion (.lit "hi"), ⟨true, true, true, fun _ => .success⟩),
          (.completionLoop (.ok 3),
            ⟨true, true, true, fun j => if j = 0 then .aborted else .success⟩)] = some s' ∧
      List.Forall₂ SameCall [.startCompletion (.lit "hi"), .completionLoop (.ok 3)] calls' ∧
      s'.inst = (loaded (ByteEngine.engine 1024) true).run (ByteEngine.engine 1024) calls' ∧
      s'.context.memory.Linear s'.inst.kvCache.length ∧
      ∀ d ∈ s'.inst.decodeCalls, ResultFits (ByteEngine.engine 1024) d :=
  load_run_refines true 1024 0 8 rfl fun ca h => by
    simp only [List.mem_cons, List.not_mem_nil, or_false] at h
    rcases h with rfl | rfl <;> intro j <;> rfl

end SmollChat.Session
