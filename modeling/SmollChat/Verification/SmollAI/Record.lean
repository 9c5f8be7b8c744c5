import SmollChat.Verification.SmollAI.Equations

/-! # What the current instance records

The message list and the response of the current instance through one completion, for an
instance that stores its chats and never takes the over-length branch. -/

namespace SmollChat

open LLMInference (storedMessage storedReply)

/-- Generated text that reaches Kotlin as it is, a filtered token or the end. -/
def LoopResult.isPlain : LoopResult → Bool
  | .piece text => !text.contains 0 && text ≠ ascii "[EOG]"
  | .filtered | .eog => true
  | .error _ => false

/-- A plain result reads `[EOG]` only at the end, and loses nothing on its way. -/
theorem LoopResult.isPlain_toKotlin {r : LoopResult} (h : r.isPlain = true) :
    (r.toKotlin = eogMarker → r = .eog) ∧ r.toKotlin.bytes = r.text := by
  cases r with
  | piece text =>
      simp only [isPlain, Bool.and_eq_true, Bool.not_eq_true', List.contains_eq_mem,
        decide_eq_false_iff_not, decide_eq_true_eq] at h
      have htext : (LoopResult.piece text).toKotlin = ⟨text, h.1⟩ := CString.cStr_bytes ⟨text, h.1⟩
      refine ⟨fun heq => ?_, by rw [htext]; rfl⟩
      rw [htext] at heq
      exact absurd (congrArg CString.bytes heq) h.2
  | filtered => exact ⟨fun heq => by revert heq; decide, by decide⟩
  | eog => exact ⟨fun _ => rfl, by decide⟩
  | error e => cases h

namespace SmollAI

variable {s : SmollAI} {messages : List Message} {response : Bytes}

/-- The current instance is loaded, stores its chats and holds these messages and this
response. -/
def Records (s : SmollAI) (messages : List Message) (response : Bytes) : Prop :=
  ∃ E n, s.native = some (E, n) ∧ n.model = true ∧ n.ctx = true ∧ n.storeChats = true ∧
    n.messages = messages ∧ n.response = response

def truncations (s : SmollAI) : Option ℕ := s.native.map fun n => n.2.truncations

theorem Records.messages_eq (h : s.Records messages response) : s.messages = some messages := by
  obtain ⟨E, n, hnative, -, -, -, rfl, -⟩ := h
  simp [SmollAI.messages, hnative]

/-- A completion starts with the query in the list. -/
theorem Records.startCompletion (h : s.Records messages response) {query : CString}
    (hok : (s.startCompletion query).1 = .ok ())
    (hwhole : (s.startCompletion query).2.truncations = s.truncations) :
    (s.startCompletion query).2.Records (messages ++ storedMessage query (.lit "user"))
      response := by
  obtain ⟨E, n, hnative, hmodel, hctx, hstore, rfl, rfl⟩ := h
  have hafter : (s.startCompletion query).2.native = some (E, (n.startCompletion E query).2) :=
    invokeNative_native hnative _ fun E n => (n.startCompletion E query).2
  have hstart : n.startCompletion E query = (.ok (), (n.startCompletion E query).2) := by
    apply Prod.ext
    · simpa [SmollAI.startCompletion, hnative] using hok
    · rfl
  simp only [truncations, hafter, hnative, Option.map_some, Option.some.injEq] at hwhole
  obtain ⟨hmessages, hresponse, hmodel', hctx', hstore'⟩ :=
    LLMInference.startCompletion_whole hstart hstore hwhole
  exact ⟨E, _, hafter, hmodel'.trans hmodel, hctx'.trans hctx, hstore', hmessages, hresponse⟩

theorem completionLoop_native {E : Engine} {n : LLMInference} (h : s.native = some (E, n))
    (d : Draw) : s.loopResult d = (n.completionLoop E d).1 ∧
      (s.completionLoop d).2.native = some (E, (n.completionLoop E d).2) := by
  have hptr : s.nativePtr ≠ 0 := by
    intro hnull
    simp [native, deref, hnull] at h
  refine ⟨by simp [loopResult, hptr, h], ?_⟩
  exact invokeNative_native h .completionLoop fun E n => (n.completionLoop E d).2

/-- A result before the end of the generation adds its text to the response. -/
theorem Records.completionLoop (h : s.Records messages response) {d : Draw}
    (hplain : (s.loopResult d).isPlain = true) (heog : s.loopResult d ≠ .eog) :
    (s.completionLoop d).2.Records messages (response ++ (s.loopResult d).toKotlin.bytes) := by
  obtain ⟨E, n, hnative, hmodel, hctx, hstore, rfl, rfl⟩ := h
  obtain ⟨hresult, hafter⟩ := completionLoop_native hnative d
  rw [(LoopResult.isPlain_toKotlin hplain).2]
  cases hloop : n.completionLoop E d with
  | mk r n' =>
      rw [hresult, hloop] at hplain heog
      rw [hloop] at hafter
      rw [hresult, hloop]
      obtain ⟨-, htext, rfl⟩ := LLMInference.completionLoop_token hloop
        (fun e he => by rw [he] at hplain; cases hplain) heog
      rw [htext]
      exact ⟨E, _, hafter, hmodel, hctx, hstore, rfl, rfl⟩

theorem Records.completionLoop_eog (h : s.Records messages response) {d : Draw}
    (heog : s.loopResult d = .eog) : (s.completionLoop d).2.Records messages response := by
  obtain ⟨E, n, hnative, hmodel, hctx, hstore, rfl, rfl⟩ := h
  obtain ⟨hresult, hafter⟩ := completionLoop_native hnative d
  cases hloop : n.completionLoop E d with
  | mk r n' =>
      rw [hresult, hloop] at heog
      rw [hloop] at hafter
      obtain rfl : r = .eog := heog
      obtain ⟨-, rfl⟩ := LLMInference.completionLoop_eog hloop
      exact ⟨E, _, hafter, hmodel, hctx, hstore, rfl, rfl⟩

/-- `stop_completion` moves the response, cleaned, to the list. -/
theorem Records.stopCompletion (h : s.Records messages response) :
    s.stopCompletion.Records (messages ++ storedReply true response) [] := by
  obtain ⟨E, n, hnative, hmodel, hctx, hstore, rfl, rfl⟩ := h
  refine ⟨E, n.stopCompletion E, invokeNative_native hnative _ fun E n => n.stopCompletion E, ?_⟩
  rw [LLMInference.stopCompletion_eq E n hmodel hctx, hstore]
  exact ⟨hmodel, hctx, rfl, rfl, rfl⟩

theorem Records.cancelCompletion (h : s.Records messages response) :
    s.cancelCompletion.Records messages [] := by
  obtain ⟨E, n, hnative, hmodel, hctx, hstore, rfl, rfl⟩ := h
  refine ⟨E, n.cancelCompletion E,
    invokeNative_native hnative _ fun E n => n.cancelCompletion E, ?_⟩
  rw [LLMInference.cancelCompletion_eq E n hmodel hctx]
  exact ⟨hmodel, hctx, hstore, rfl, rfl⟩

end SmollAI

end SmollChat
