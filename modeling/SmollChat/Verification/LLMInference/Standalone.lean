import SmollChat.Verification.LLMInference.Context
import SmollChat.Verification.LLMInference.Messages

/-! # Completions without stored chats

Without stored chats `start_completion` resets the prompt of each query and
`stop_completion` stores no reply. The queries themselves stay in the list. -/

namespace SmollChat.LLMInference

variable {E : Engine} {s t : LLMInference} {query : CString}

/-! ## Completions -/

/-- A completion: its query, the engine's answers to its loop calls, and whether it is
cancelled or stopped at last. -/
structure Completion where
  query : CString
  draws : List Draw
  cancelled : Bool

def Completion.calls (c : Completion) : List Call :=
  .startCompletion c.query :: c.draws.map .completionLoop ++
    [if c.cancelled then .cancelCompletion else .stopCompletion]

/-- An instance loaded without stored chats after its preloaded messages and some
completions. -/
def afterCompletions (E : Engine) (preloaded : List Message) (cs : List Completion) :
    LLMInference :=
  (loaded E false).run E
    (preloaded.map (fun m => .addChatMessage m.content m.role) ++ cs.flatMap Completion.calls)

def storedQueries (cs : List Completion) : List Message :=
  cs.flatMap fun c => storedMessage c.query (.lit "user")

/-! ## What a start reads -/

structure Single (s : LLMInference) : Prop where
  ctx : s.ctx = true
  model : s.model = true
  sampler : s.sampler = true
  storeChats : s.storeChats = false

theorem Single.appendQuery_formatted (h : Single s) (query : CString) :
    (s.appendQuery query).formatted = [] := by
  simp [appendQuery, h.storeChats, addChatMessage]

theorem Single.appendQuery_prevLen (h : Single s) (query : CString) :
    (s.appendQuery query).prevLen = 0 := by
  simp [appendQuery, h.storeChats, addChatMessage]

/-- What a start answers, the list it leaves and the batch it builds. -/
def startView (r : Except Failure Unit × LLMInference) :
    Except Failure Unit × List Message × Option (List Token) :=
  (r.1, r.2.messages, match r.1 with
    | .ok () => some r.2.batchTokens
    | .error _ => none)

theorem sentTokens_view (E : Engine) (s : LLMInference) (query : CString) :
    sentTokens E s query = (startView (s.startCompletion E query)).2.2 := by
  unfold sentTokens startView
  cases h : s.startCompletion E query with
  | mk r s' => cases r <;> rfl

theorem finishStart_view {n : ℕ} (hmessages : t.messages = s.messages)
    (hformatted : t.formatted = s.formatted) (hprev : t.prevLen = s.prevLen) :
    startView (finishStart E t n) = startView (finishStart E s n) := by
  unfold finishStart
  rw [hformatted, hprev]
  split
  · rw [startView, startView, hmessages]
  split
  · rw [startView, startView, hmessages]
  · simp only [startView, batchLocal_batchTokens]
    rw [batchLocal, batchLocal, hmessages]

/-- Without stored chats a start reads nothing but the list. -/
theorem Single.startCompletion_view (hs : Single s) (ht : Single t)
    (hmessages : t.messages = s.messages) (query : CString) :
    startView (t.startCompletion E query) = startView (s.startCompletion E query) := by
  have hlist : (t.appendQuery query).messages = (s.appendQuery query).messages := by
    rw [appendQuery_messages, appendQuery_messages, hmessages]
  unfold startCompletion
  simp only [hs.ctx, hs.model, hs.sampler, ht.ctx, ht.model, ht.sampler, hlist,
    hs.appendQuery_formatted, hs.appendQuery_prevLen, ht.appendQuery_formatted,
    ht.appendQuery_prevLen]
  split
  · rw [startView, startView, hmessages]
  split
  · rw [startView, startView, hmessages]
  split
  · rw [startView, startView, hlist]
  split
  · rw [startView, startView, hlist]
  split
  · rfl
  split
  · rfl
  split
  · split
    · rfl
    · exact finishStart_view rfl rfl rfl
  · exact finishStart_view rfl rfl rfl

/-! ## The list that completions leave -/

/-- Whether the whole prompt of a list is too long. -/
def tooLong (E : Engine) (messages : List Message) : Bool :=
  match E.chatTemplate with
  | none => false
  | some T =>
      match formatMessages T messages [] with
      | none => false
      | some (n, buf) =>
          match slice buf 0 n with
          | none => false
          | some prompt =>
              match E.commonTokenize prompt with
              | none => false
              | some tokens => decide ((tokens.length : ℤ) > E.nCtx - 800)

/-- What a start without stored chats keeps of the list with its query. -/
def keptList (E : Engine) (messages : List Message) : List Message :=
  if tooLong E messages then truncateMessages messages else messages

theorem Single.overLength (h : Single s) (E : Engine) (query : CString) :
    overLength E s query = tooLong E (s.messages ++ storedMessage query (.lit "user")) := by
  unfold LLMInference.overLength tooLong
  rewrite [appendQuery_messages, h.appendQuery_formatted, h.appendQuery_prevLen]
  rfl

theorem Single.call (h : Single s) (E : Engine) (c : Call) : Single (s.call E c) := by
  cases c with
  | addChatMessage message role => exact ⟨h.ctx, h.model, h.sampler, h.storeChats⟩
  | startCompletion query =>
      have hf := startCompletion_frame E s query
      exact ⟨hf.ctx.trans h.ctx, hf.model.trans h.model, hf.sampler.trans h.sampler,
        hf.storeChats.trans h.storeChats⟩
  | completionLoop d =>
      have hf := completionLoop_frame E s d
      exact ⟨hf.ctx.trans h.ctx, hf.model.trans h.model, hf.sampler.trans h.sampler,
        hf.storeChats.trans h.storeChats⟩
  | stopCompletion =>
      rw [LLMInference.call, stopCompletion_eq E s h.model h.ctx]
      exact ⟨h.ctx, h.model, h.sampler, h.storeChats⟩
  | cancelCompletion =>
      rw [LLMInference.call, cancelCompletion_eq E s h.model h.ctx]
      exact ⟨h.ctx, h.model, h.sampler, h.storeChats⟩

theorem Single.run (h : Single s) (E : Engine) (calls : List Call) : Single (s.run E calls) := by
  induction calls generalizing s with
  | nil => exact h
  | cons c calls ih => exact ih (h.call E c)

theorem Single.rest_messages (h : Single s) (E : Engine) (draws : List Draw) (cancelled : Bool) :
    (s.run E (draws.map .completionLoop ++
      [if cancelled then .cancelCompletion else .stopCompletion])).messages = s.messages := by
  induction draws generalizing s with
  | nil =>
      cases cancelled with
      | true =>
          change (s.cancelCompletion E).messages = s.messages
          rw [cancelCompletion_eq E s h.model h.ctx]
      | false =>
          change (s.stopCompletion E).messages = s.messages
          rw [stopCompletion_eq E s h.model h.ctx, h.storeChats]
          simp [storedReply]
  | cons d draws ih =>
      calc
        _ = (s.completionLoop E d).2.messages := ih (h.call E (.completionLoop d))
        _ = s.messages := (completionLoop_frame E s d).messages

theorem Single.completion_messages (h : Single s) (E : Engine) (c : Completion) :
    (s.run E c.calls).messages = (storedMessage c.query (.lit "user")).foldl
      (fun messages m => keptList E (messages ++ [m])) s.messages := by
  have hrest : (s.run E c.calls).messages = (s.startCompletion E c.query).2.messages :=
    (h.call E (.startCompletion c.query)).rest_messages E c.draws c.cancelled
  rw [hrest]
  cases hquery : c.query.isEmpty with
  | true =>
      have hstart : (s.startCompletion E c.query).2 = s := by
        rw [startCompletion, if_pos hquery]
      rw [hstart, storedMessage, hquery]
      rfl
  | false =>
      rw [startCompletion_messages E s c.query hquery h.model h.ctx h.sampler, h.overLength,
        storedMessage_user (CString.isEmpty_eq_false_iff.mp hquery)]
      rfl

theorem Single.completions_messages (h : Single s) (E : Engine) (cs : List Completion) :
    (s.run E (cs.flatMap Completion.calls)).messages = (storedQueries cs).foldl
      (fun messages m => keptList E (messages ++ [m])) s.messages := by
  induction cs generalizing s with
  | nil => rfl
  | cons c cs ih =>
      have hrun : s.run E ((c :: cs).flatMap Completion.calls) =
          (s.run E c.calls).run E (cs.flatMap Completion.calls) := by
        rw [List.flatMap_cons, LLMInference.run, LLMInference.run, LLMInference.run,
          List.foldl_append]
      rw [hrun, ih (h.run E c.calls), h.completion_messages, storedQueries, storedQueries,
        List.flatMap_cons, List.foldl_append]

theorem loaded_single (E : Engine) : Single (loaded E false) := ⟨rfl, rfl, rfl, rfl⟩

theorem afterCompletions_single (E : Engine) (preloaded : List Message) (cs : List Completion) :
    Single (afterCompletions E preloaded cs) :=
  (loaded_single E).run E _

theorem preloaded_messages (E : Engine) (s : LLMInference) (preloaded : List Message) :
    (s.run E (preloaded.map fun m => .addChatMessage m.content m.role)).messages =
      s.messages ++ preloaded.flatMap fun m => storedMessage m.content m.role := by
  induction preloaded generalizing s with
  | nil => exact (List.append_nil _).symm
  | cons m preloaded ih =>
      calc
        _ = (s.addChatMessage m.content m.role).messages ++ _ := ih _
        _ = _ := by
          rw [addChatMessage, appendMessage_eq, List.append_assoc, List.flatMap_cons]

/-- The list depends on the preloaded messages and the stored queries alone. -/
theorem afterCompletions_messages (E : Engine) (preloaded : List Message)
    (cs : List Completion) :
    (afterCompletions E preloaded cs).messages = (storedQueries cs).foldl
      (fun messages m => keptList E (messages ++ [m]))
      (preloaded.flatMap fun m => storedMessage m.content m.role) := by
  rw [afterCompletions, run, List.foldl_append, ← run, ← run,
    ((loaded_single E).run E _).completions_messages, preloaded_messages]
  rfl

/-! ## Prompts -/

/-- Instances with one list build one batch. -/
theorem Single.sentTokens_eq (hs : Single s) (ht : Single t) (h : t.messages = s.messages)
    (E : Engine) (query : CString) : sentTokens E t query = sentTokens E s query := by
  rw [sentTokens_view, sentTokens_view, hs.startCompletion_view ht h]

/-- An engine with a large context that renders one list as `1` and all others as `0`. -/
def tellingEngine (messages : List Message) : Engine where
  nCtx := 1024
  chatTemplate := some fun ms _ => some (if ms = messages then [49] else [48])
  commonTokenize text := some (text.map fun b => ⟨b.toNat, false⟩)
  commonTokenToPiece token := [token.toNat.toUInt8]
  isEog _ := false
  nTokens := 256

theorem tellingEngine_keptList (messages ms : List Message) :
    keptList (tellingEngine messages) ms = ms := by
  have hlong : tooLong (tellingEngine messages) ms = false := by
    by_cases h : ms = messages
    · simp [tooLong, tellingEngine, formatMessages, applyTemplate, h, strncpy, slice,
        CString.cStr]
    · simp [tooLong, tellingEngine, formatMessages, applyTemplate, h, strncpy, slice,
        CString.cStr]
  rw [keptList, hlong]
  rfl

theorem tellingEngine_foldl (messages ms added : List Message) :
    added.foldl (fun ms m => keptList (tellingEngine messages) (ms ++ [m])) ms = ms ++ added := by
  induction added generalizing ms with
  | nil => simp
  | cons m added ih =>
      rw [List.foldl_cons, tellingEngine_keptList, ih, List.append_assoc]
      rfl

/-- The batch of `tellingEngine` tells whether the list with the query is the one list. -/
theorem Single.sentTokens_telling (h : Single s) (messages : List Message)
    (hquery : query.isEmpty = false) :
    sentTokens (tellingEngine messages) s query =
      some [⟨if s.messages ++ storedMessage query (.lit "user") = messages then 49 else 48,
        false⟩] := by
  have hformatted := h.appendQuery_formatted query
  have hprev := h.appendQuery_prevLen query
  rw [← appendQuery_messages]
  unfold sentTokens startCompletion
  by_cases hlist : (s.appendQuery query).messages = messages
  · simp [hquery, h.model, h.ctx, h.sampler, hformatted, hprev, tellingEngine, formatMessages,
      applyTemplate, hlist, strncpy, slice, CString.cStr, finishStart, batchLocal_batchTokens]
  · simp [hquery, h.model, h.ctx, h.sampler, hformatted, hprev, tellingEngine, formatMessages,
      applyTemplate, hlist, strncpy, slice, CString.cStr, finishStart, batchLocal_batchTokens]

theorem tellingEngine_messages (messages preloaded : List Message) (cs : List Completion) :
    (afterCompletions (tellingEngine messages) preloaded cs).messages =
      (preloaded.flatMap fun m => storedMessage m.content m.role) ++ storedQueries cs := by
  rw [afterCompletions_messages, tellingEngine_foldl]

/-- A prompt is the same after two sequences of completions, whatever the model, exactly
when the sequences asked the same queries. -/
theorem standsAlone_iff (preloaded : List Message) (cs cs' : List Completion) (query : CString) :
    (∀ E, sentTokens E (afterCompletions E preloaded cs) query =
        sentTokens E (afterCompletions E preloaded cs') query) ↔
      query = .empty ∨ storedQueries cs = storedQueries cs' := by
  constructor
  · intro h
    by_cases hquery : query = .empty
    · exact .inl hquery
    have hquery' : query.isEmpty = false := CString.isEmpty_eq_false_iff.mpr hquery
    -- the model that recognises the first of the two lists
    have htell := h (tellingEngine ((preloaded.flatMap fun m => storedMessage m.content m.role) ++
      storedQueries cs ++ storedMessage query (.lit "user")))
    rw [(afterCompletions_single _ preloaded cs).sentTokens_telling _ hquery',
      (afterCompletions_single _ preloaded cs').sentTokens_telling _ hquery',
      tellingEngine_messages, tellingEngine_messages, if_pos rfl] at htell
    have hlists : preloaded.flatMap (fun m => storedMessage m.content m.role) ++
        storedQueries cs' ++ storedMessage query (.lit "user") =
          preloaded.flatMap (fun m => storedMessage m.content m.role) ++
            storedQueries cs ++ storedMessage query (.lit "user") := by
      by_contra hne
      rw [if_neg hne] at htell
      simp at htell
    exact .inr (List.append_cancel_left (List.append_cancel_right hlists)).symm
  · rintro (rfl | hsame) E
    · rfl
    · have hlists : (afterCompletions E preloaded cs).messages =
          (afterCompletions E preloaded cs').messages := by
        rw [afterCompletions_messages, afterCompletions_messages, hsame]
      exact (afterCompletions_single E preloaded cs').sentTokens_eq
        (afterCompletions_single E preloaded cs) hlists E query

/-- The first query and the reply to it are over before the second query, which is sent
with the first. -/
theorem standsAlone_fails :
    sentTokens (ByteEngine.engine 1024) (afterCompletions (ByteEngine.engine 1024) [] [])
        (.lit "ok") ≠
      sentTokens (ByteEngine.engine 1024) (afterCompletions (ByteEngine.engine 1024) []
        [⟨.lit "hi", [.ok 72, .ok 257], false⟩]) (.lit "ok") := by decide +kernel

end SmollChat.LLMInference
