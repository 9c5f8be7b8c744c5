import SmollChat.Library.Transition
import SmollChat.Verification.LLMInference.Context

/-! # The begin-of-sequence token

Every prompt is tokenized as if it were the first text of its context. The token that the
tokenizer then puts in front is at the front of the context only if nothing is cached. -/

namespace SmollChat.LLMInference

open Transition

/-! ## Inserted tokens -/

/-- An inserted token in front and none behind it. -/
def BosInFront (tokens : List Token) : Prop :=
  ∃ bos rest, tokens = bos :: rest ∧ bos.inserted = true ∧ ∀ t ∈ rest, t.inserted = false

/-- The tokenizer of a vocabulary with `add_bos`. -/
def AddsBos (E : Engine) : Prop :=
  ∀ text tokens, E.commonTokenize text = some tokens → BosInFront tokens

/-- Inserted tokens only at position `0` of the cache. -/
def BosFirst (c : DecodeCall) : Prop :=
  ∀ i t, c.tokens[i]? = some t → t.inserted = true → c.cached + i = 0

/-- The same for everything handed to the engine since the load. -/
def OneBos (s : LLMInference) : Prop := ∀ c ∈ s.decodeCalls, BosFirst c

/-- A `completion_loop` call that decodes a prompt finds the cache empty. -/
def FreshPrompt (E : Engine) (s : LLMInference) : Call → Prop
  | .completionLoop _ => ReadyToDecode E s → s.batch.token ≠ .currToken → s.kvCache = []
  | _ => True

theorem bosFirst_of_plain {c : DecodeCall} (h : ∀ t ∈ c.tokens, t.inserted = false) :
    BosFirst c := by
  intro i t ht hinserted
  have hplain := h t (List.mem_of_getElem? ht)
  rw [hinserted] at hplain
  cases hplain

theorem bosFirst_iff {c : DecodeCall} (h : BosInFront c.tokens) :
    BosFirst c ↔ c.cached = 0 := by
  obtain ⟨bos, rest, htokens, hbos, hrest⟩ := h
  constructor
  · intro hfirst
    have hzero := hfirst 0 bos (by simp [htokens]) hbos
    omega
  · intro hzero i t ht hinserted
    rw [htokens] at ht
    cases i with
    | zero => omega
    | succ i =>
        have hplain := hrest t (List.mem_of_getElem? ht)
        rw [hinserted] at hplain
        cases hplain

/-! ## The batch -/

variable {E : Engine} {s : LLMInference}

/-- A batch from a token vector holds a tokenized text. -/
def TokenizedBatch (s : LLMInference) : Prop :=
  ∀ address, s.batch.token = .vector address → BosInFront s.batchTokens

theorem batchTokens_of_last {heap : List Block} {tokens : List Token}
    (hbatch : s.batch = ⟨.vector heap.length, tokens.length⟩)
    (hheap : s.heap = heap ++ [⟨tokens, false⟩]) : s.batchTokens = tokens := by
  simp [batchTokens, hbatch, hheap]

/-- `start_completion` sets no batch, or a new vector with the tokens of a text. -/
theorem startCompletion_batch (E : Engine) (s : LLMInference) (query : CString) :
    ((s.startCompletion E query).2.batch = s.batch ∧
        (s.startCompletion E query).2.heap = s.heap) ∨
      ∃ text tokens, E.commonTokenize text = some tokens ∧
        (s.startCompletion E query).2.batch = ⟨.vector s.heap.length, tokens.length⟩ ∧
        (s.startCompletion E query).2.heap = s.heap ++ [⟨tokens, false⟩] := by
  have happ : (s.appendQuery query).batch = s.batch ∧ (s.appendQuery query).heap = s.heap := by
    unfold appendQuery
    split <;> exact ⟨rfl, rfl⟩
  have hexit := startCompletion_exit E s query
  generalize (s.startCompletion E query).2 = s' at hexit ⊢
  cases hexit with
  | refused => exact .inl ⟨rfl, rfl⟩
  | unrendered => exact .inl happ
  | unsent => exact .inl happ
  | whole _ _ _ htok =>
      right
      refine ⟨_, _, htok, ?_, ?_⟩
      · rw [← happ.2]
        rfl
      · rw [← happ.2]
        rfl
  | cut => exact .inl happ
  | cutUnsent => exact .inl happ
  | shortened _ _ _ _ htok =>
      right
      refine ⟨_, _, htok, ?_, ?_⟩
      · rw [← happ.2]
        rfl
      · rw [← happ.2]
        rfl

theorem completionLoop_batch (E : Engine) (s : LLMInference) (d : Draw) :
    (s.completionLoop E d).2.heap = s.heap ∧
      ((s.completionLoop E d).2.batch = s.batch ∨
        (s.completionLoop E d).2.batch = ⟨.currToken, 1⟩) := by
  obtain ⟨r, s', heq, hexit⟩ := completionLoop_exit E s d
  rw [heq]
  cases hexit with
  | notReady | undrawn => exact ⟨rfl, .inl rfl⟩
  | drawn _ _ _ htoken =>
      cases htoken with
      | refused | eog => exact ⟨rfl, .inl rfl⟩
      | filtered | piece => exact ⟨rfl, .inr rfl⟩

theorem tokenizedBatch_congr {s' : LLMInference} (h : TokenizedBatch s)
    (hbatch : s'.batch = s.batch) (hheap : s'.heap = s.heap) : TokenizedBatch s' := by
  intro address haddress
  have htokens : s'.batchTokens = s.batchTokens := by
    rw [hbatch] at haddress
    simp only [batchTokens, hbatch, hheap, haddress]
  rw [htokens]
  exact h address (hbatch ▸ haddress)

theorem call_tokenizedBatch (hE : AddsBos E) (hacc : Accounted s) (h : TokenizedBatch s)
    (c : Call) : TokenizedBatch (s.call E c) := by
  cases c with
  | addChatMessage message role => exact tokenizedBatch_congr h rfl rfl
  | startCompletion query =>
      rcases startCompletion_batch E s query with
        ⟨hbatch, hheap⟩ | ⟨text, tokens, htok, hbatch, hheap⟩
      · exact tokenizedBatch_congr h hbatch hheap
      · intro address _
        rw [call, batchTokens_of_last hbatch hheap]
        exact hE text tokens htok
  | completionLoop d =>
      obtain ⟨hheap, hbatch | hcurr⟩ := completionLoop_batch E s d
      · exact tokenizedBatch_congr h hbatch hheap
      · intro address haddress
        rw [call, hcurr] at haddress
        cases haddress
  | stopCompletion =>
      rw [call, stopCompletion_eq E s hacc.model hacc.ctx]
      exact tokenizedBatch_congr h rfl rfl
  | cancelCompletion =>
      rw [call, cancelCompletion_eq E s hacc.model hacc.ctx]
      exact tokenizedBatch_congr h rfl rfl

/-! ## Runs -/

theorem call_decodeCalls (hacc : Accounted s) (E : Engine) {c : Call}
    (hc : ∀ d, c = .completionLoop d → ¬ReadyToDecode E s) :
    (s.call E c).decodeCalls = s.decodeCalls := by
  cases c with
  | addChatMessage message role => rfl
  | startCompletion query => exact (startCompletion_frame E s query).decodeCalls
  | completionLoop d =>
      obtain ⟨e, he⟩ := completionLoop_of_not_ready (hc d rfl) d
      rw [call, he]
  | stopCompletion => rw [call, stopCompletion_eq E s hacc.model hacc.ctx]
  | cancelCompletion => rw [call, cancelCompletion_eq E s hacc.model hacc.ctx]

theorem batchTokens_plain (h : s.batch.token = .currToken) :
    ∀ t ∈ s.batchTokens, t.inserted = false := by
  intro t ht
  simp only [batchTokens, h] at ht
  obtain rfl := List.mem_singleton.mp (List.mem_of_mem_take ht)
  rfl

/-- One call keeps the inserted tokens at the front exactly if it decodes no prompt behind
cached tokens. -/
theorem call_oneBos_iff (hacc : Accounted s) (h : TokenizedBatch s) (c : Call) :
    OneBos (s.call E c) ↔ OneBos s ∧ FreshPrompt E s c := by
  by_cases hloop : ∃ d, c = .completionLoop d ∧ ReadyToDecode E s
  · obtain ⟨d, rfl, hready⟩ := hloop
    have hone : OneBos (s.call E (.completionLoop d)) ↔ OneBos s ∧ BosFirst
        ⟨s.kvCache.length, s.batch.nTokens, s.batchTokens, d.decodeResult⟩ := by
      unfold OneBos
      rw [call, decodeCalls_of_ready hready]
      simp only [List.forall_mem_append, List.mem_singleton, forall_eq]
    rw [hone]
    apply and_congr_right'
    cases htoken : s.batch.token with
    | null => exact absurd htoken hready.token
    | vector address =>
        rw [bosFirst_iff (h address htoken)]
        simp [FreshPrompt, hready, htoken]
    | currToken =>
        have hplain : BosFirst
            ⟨s.kvCache.length, s.batch.nTokens, s.batchTokens, d.decodeResult⟩ :=
          bosFirst_of_plain (batchTokens_plain htoken)
        simp [FreshPrompt, htoken, hplain]
  · have hfresh : FreshPrompt E s c := by
      cases c with
      | completionLoop d => exact fun hready => absurd ⟨d, rfl, hready⟩ hloop
      | _ => trivial
    have hsame := call_decodeCalls hacc E (c := c) fun d hd hready => hloop ⟨d, hd, hready⟩
    unfold OneBos
    rw [hsame]
    exact (and_iff_left hfresh).symm

theorem run_oneBos_iff (hE : AddsBos E) (hacc : Accounted s) (h : TokenizedBatch s)
    (calls : List Call) : OneBos (s.run E calls) ↔
      OneBos s ∧ AllowedAlong (fun s c => some (s.call E c)) (FreshPrompt E) s calls := by
  induction calls generalizing s with
  | nil => exact (and_iff_left trivial).symm
  | cons c calls ih =>
      have hrest := ih (call_accounted hacc E c) (call_tokenizedBatch hE hacc h c)
      calc
        OneBos ((s.call E c).run E calls) ↔ OneBos (s.call E c) ∧
            AllowedAlong (fun s c => some (s.call E c)) (FreshPrompt E) (s.call E c) calls :=
          hrest
        _ ↔ (OneBos s ∧ FreshPrompt E s c) ∧
            AllowedAlong (fun s c => some (s.call E c)) (FreshPrompt E) (s.call E c) calls := by
          rw [call_oneBos_iff hacc h c]
        _ ↔ OneBos s ∧ AllowedAlong (fun s c => some (s.call E c)) (FreshPrompt E) s
            (c :: calls) := by
          simp [AllowedAlong, and_assoc]

/-- In a run on a loaded instance whose tokenizer adds a BOS to every text, inserted tokens
occur at the front of the cache only, exactly when every prompt that is decoded finds the
cache empty. -/
theorem oneBos_iff (E : Engine) (storeChats : Bool) (calls : List Call) (hE : AddsBos E) :
    OneBos ((loaded E storeChats).run E calls) ↔
      AllowedAlong (fun s c => some (s.call E c)) (FreshPrompt E) (loaded E storeChats)
        calls := by
  have hnone : OneBos (loaded E storeChats) := fun c hc => by cases hc
  have hbatch : TokenizedBatch (loaded E storeChats) := fun _ haddress => by cases haddress
  rw [run_oneBos_iff hE (loaded_accounted E storeChats) hbatch, and_iff_right hnone]

/-! ## A vocabulary with `add_bos` -/

def bosEngine (nCtx : ℕ) : Engine :=
  { ByteEngine.engine nCtx with
    commonTokenize := fun text => some (⟨258, true⟩ :: ByteEngine.tokens text.length text)
    nTokens := 259 }

theorem bosEngine_addsBos (nCtx : ℕ) : AddsBos (bosEngine nCtx) := by
  have hplain : ∀ fuel text, ∀ t ∈ ByteEngine.tokens fuel text, t.inserted = false := by
    intro fuel
    induction fuel with
    | zero =>
        intro text t ht
        cases ht
    | succ fuel ih =>
        intro text t ht
        cases text with
        | nil => cases ht
        | cons b text =>
            rcases List.mem_cons.mp ht with rfl | ht
            · rfl
            · exact ih _ t ht
  intro text tokens htok
  obtain rfl := Option.some.inj htok
  exact ⟨_, _, rfl, rfl, hplain _ _⟩

theorem oneBos_first_turn : OneBos ((loaded (bosEngine 1024) true).run (bosEngine 1024)
    [.startCompletion (.lit "hi"), .completionLoop (.ok 72)]) :=
  (oneBos_iff (bosEngine 1024) true [.startCompletion (.lit "hi"), .completionLoop (.ok 72)]
    (bosEngine_addsBos 1024)).mpr ⟨trivial, fun _ hs => ⟨fun _ _ => by
      obtain rfl := Option.some.inj hs
      decide +kernel, fun _ _ => trivial⟩⟩

/-- The second turn's prompt brings a second BOS, behind the cached first turn. -/
theorem oneBos_second_turn : ¬OneBos ((loaded (bosEngine 1024) true).run (bosEngine 1024)
    [.startCompletion (.lit "hi"), .completionLoop (.ok 72), .completionLoop (.ok 257),
      .stopCompletion, .startCompletion (.lit "yo"), .completionLoop (.ok 73)]) := by
  intro hone
  have hsecond : ((loaded (bosEngine 1024) true).run (bosEngine 1024)
      [.startCompletion (.lit "hi"), .completionLoop (.ok 72), .completionLoop (.ok 257),
        .stopCompletion, .startCompletion (.lit "yo"), .completionLoop (.ok 73)]).decodeCalls.any
          (fun c => c.tokens[0]?.any Token.inserted && decide (c.cached ≠ 0)) = true := by
    decide +kernel
  obtain ⟨c, hc, hlate⟩ := List.any_eq_true.mp hsecond
  simp only [Bool.and_eq_true, decide_eq_true_eq, Option.any_eq_true] at hlate
  obtain ⟨⟨t, ht, hinserted⟩, hcached⟩ := hlate
  exact hcached (hone c hc 0 t ht hinserted)

end SmollChat.LLMInference
