import SmollChat.Verification.LLMInference.Batches
import SmollChat.Verification.LLMInference.Finished

/-! # The decode behind a token

`completion_loop` tests `decode_result < 0`. The engine also reports a full context and an
abort, as `1` and `2`; after these the call goes on and samples from the logits of an
earlier decode. -/

namespace SmollChat.LLMInference

variable {E : Engine} {s s' : LLMInference}

/-! ## What a result has to come from -/

def decodesOf (s s' : LLMInference) : List DecodeCall := s'.decodeCalls.drop s.decodeCalls.length

/-- Nothing sampled, and the response and the batch as before. -/
structure Unsampled (s s' : LLMInference) : Prop where
  draws : s'.draws = s.draws
  sampler : s'.sampler = s.sampler
  currToken : s'.currToken = s.currToken
  response : s'.response = s.response
  batch : s'.batch = s.batch

instance (s s' : LLMInference) : Decidable (Unsampled s s') :=
  decidable_of_iff (s'.draws = s.draws ∧ s'.sampler = s.sampler ∧ s'.currToken = s.currToken ∧
      s'.response = s.response ∧ s'.batch = s.batch)
    ⟨fun ⟨h₁, h₂, h₃, h₄, h₅⟩ => ⟨h₁, h₂, h₃, h₄, h₅⟩,
      fun ⟨h₁, h₂, h₃, h₄, h₅⟩ => ⟨h₁, h₂, h₃, h₄, h₅⟩⟩

/-- Text, an empty text and `[EOG]` come from one decode of the batch with result `0`; a
decode with any other result yields an error and samples nothing. -/
def DecodedCall (E : Engine) (s : LLMInference) (d : Draw) : Prop :=
  ((s.completionLoop E d).1.isError = false →
      decodesOf s (s.completionLoop E d).2 =
        [⟨s.kvCache.length, s.batch.nTokens, s.batchTokens, 0⟩]) ∧
    ∀ c ∈ decodesOf s (s.completionLoop E d).2, c.result ≠ 0 →
      (s.completionLoop E d).1.isError = true ∧ Unsampled s (s.completionLoop E d).2

instance (E : Engine) (s : LLMInference) (d : Draw) : Decidable (DecodedCall E s d) := by
  unfold DecodedCall
  infer_instance

/-- The engine does not answer a decode of this call with a warning while it has logits
to read. -/
def NoWarning (E : Engine) (s : LLMInference) (d : Draw) : Prop :=
  ReadyToDecode E s → 0 < d.decodeResult → d.logits = false

/-! ## The exits of the loop body -/

theorem decodesOf_of_ready (hready : ReadyToDecode E s) (d : Draw) :
    decodesOf s (s.completionLoop E d).2 =
      [⟨s.kvCache.length, s.batch.nTokens, s.batchTokens, d.decodeResult⟩] := by
  rw [decodesOf, decodeCalls_of_ready hready, List.drop_left]

theorem llamaDecode_unsampled (s : LLMInference) (result : ℤ) :
    Unsampled s (s.llamaDecode result) :=
  ⟨rfl, rfl, rfl, rfl, rfl⟩

/-- A call that fails its tests, has a negative result or finds no logits does not sample. -/
theorem completionLoop_unsampled (d : Draw)
    (h : ReadyToDecode E s → d.decodeResult < 0 ∨ d.logits = false) :
    (s.completionLoop E d).1.isError = true ∧ Unsampled s (s.completionLoop E d).2 := by
  obtain ⟨r, s', heq, hexit⟩ := completionLoop_exit E s d
  rw [heq]
  cases hexit with
  | notReady => exact ⟨rfl, ⟨rfl, rfl, rfl, rfl, rfl⟩⟩
  | undrawn => exact ⟨rfl, llamaDecode_unsampled s _⟩
  | drawn hready hnonneg hlogits _ =>
      rcases h hready with hneg | hnone
      · omega
      · rw [hlogits] at hnone
        cases hnone

theorem completionLoop_draws (hready : ReadyToDecode E s) (d : Draw)
    (hnonneg : 0 ≤ d.decodeResult) (hlogits : d.logits = true) :
    (s.completionLoop E d).2.draws = s.draws ++ [d.sampled] := by
  obtain ⟨r, s', heq, hexit⟩ := completionLoop_exit E s d
  rw [heq]
  cases hexit with
  | notReady hfails => exact absurd hready hfails
  | undrawn _ hfails =>
      rcases hfails with hneg | hnone
      · omega
      · rw [hlogits] at hnone
        cases hnone
  | drawn _ _ _ htoken => cases htoken <;> rfl

theorem decodedCall_iff (E : Engine) (s : LLMInference) (d : Draw) :
    DecodedCall E s d ↔ NoWarning E s d := by
  constructor
  · rintro ⟨-, hother⟩ hready hpos
    by_contra hlogits
    rw [Bool.not_eq_false] at hlogits
    -- the call samples although its decode has a result other than `0`
    have hdraws := completionLoop_draws hready d (Int.le_of_lt hpos) hlogits
    rw [decodesOf_of_ready hready] at hother
    obtain ⟨-, hunsampled⟩ :=
      hother _ (List.mem_singleton_self _) (by simpa using Int.ne_of_gt hpos)
    have hlen := congrArg List.length (hdraws.symm.trans hunsampled.draws)
    rw [List.length_append, List.length_singleton] at hlen
    omega
  · intro hwarning
    by_cases hzero : ReadyToDecode E s ∧ d.decodeResult = 0
    · obtain ⟨hready, hresult⟩ := hzero
      unfold DecodedCall
      rw [decodesOf_of_ready hready, hresult]
      refine ⟨fun _ => rfl, ?_⟩
      intro c hc hne
      rw [List.mem_singleton.mp hc] at hne
      exact absurd rfl hne
    · have hexit : (s.completionLoop E d).1.isError = true ∧
          Unsampled s (s.completionLoop E d).2 := by
        refine completionLoop_unsampled d fun hready => ?_
        by_cases hneg : d.decodeResult < 0
        · exact .inl hneg
        · have hne : d.decodeResult ≠ 0 := fun hresult => hzero ⟨hready, hresult⟩
          exact .inr (hwarning hready (by omega))
      refine ⟨?_, fun _ _ _ => hexit⟩
      intro hok
      rw [hexit.1] at hok
      cases hok

/-- Along a run on a loaded instance every token comes from a successful decode of the
current batch exactly when no decode is answered with a warning. -/
theorem decodedCalls_iff (E : Engine) (storeChats : Bool) (calls : List Call) :
    (∀ before d after, calls = before ++ .completionLoop d :: after →
        DecodedCall E ((loaded E storeChats).run E before) d) ↔
      ∀ before d after, calls = before ++ .completionLoop d :: after →
        NoWarning E ((loaded E storeChats).run E before) d := by
  constructor
  · intro h before d after hcalls
    exact (decodedCall_iff E _ d).mp (h before d after hcalls)
  · intro h before d after hcalls
    exact (decodedCall_iff E _ d).mpr (h before d after hcalls)

/-- The engine has no room for the second prompt and says so; the call answers with a
token drawn from the logits of the first one. -/
theorem decodedCalls_full_context :
    ¬DecodedCall (ByteEngine.engine 992)
      ((loaded (ByteEngine.engine 992) true).run (ByteEngine.engine 992)
        [.startCompletion (letters 380), .completionLoop (.ok 72), .cancelCompletion,
          .startCompletion (letters 280)])
      ⟨1, true, true, 72⟩ := by
  decide +kernel

end SmollChat.LLMInference
