import SmollChat.Verification.LLMInference.Equations

/-! # The message list over whole runs

Every operation appends the texts it accepts; the over-length branch then drops entries
between the first and the last four. -/

namespace SmollChat.LLMInference

open scoped List

/-! ## The erased range -/

theorem truncateMessages_of_le {messages : List Message} (h : messages.length ≤ messagesToKeep) :
    truncateMessages messages = messages :=
  if_neg (by omega)

theorem truncateMessages_of_gt {messages : List Message} (h : messagesToKeep < messages.length) :
    truncateMessages messages =
      messages.take 1 ++ messages.drop (messages.length - messagesToKeep + 1) :=
  if_pos h

theorem truncateMessages_sublist (messages : List Message) :
    truncateMessages messages <+ messages := by
  by_cases h : messagesToKeep < messages.length
  · rw [truncateMessages_of_gt h]
    have hdrop : messages.drop (messages.length - messagesToKeep + 1) <+ messages.drop 1 := by
      apply List.drop_sublist_drop_left
      omega
    calc
      messages.take 1 ++ messages.drop (messages.length - messagesToKeep + 1) <+
          messages.take 1 ++ messages.drop 1 := (List.Sublist.refl _).append hdrop
      _ = messages := List.take_append_drop 1 messages
  · rw [truncateMessages_of_le (by omega)]

theorem truncateMessages_head? (messages : List Message) :
    (truncateMessages messages).head? = messages.head? := by
  by_cases h : messagesToKeep < messages.length
  · rw [truncateMessages_of_gt h]
    cases messages with
    | nil => simp at h
    | cons m messages => simp
  · rw [truncateMessages_of_le (by omega)]

theorem truncateMessages_getLast? (messages : List Message) :
    (truncateMessages messages).getLast? = messages.getLast? := by
  by_cases h : messagesToKeep < messages.length
  · have hstop : ¬messages.length ≤ messages.length - messagesToKeep + 1 := by
      unfold messagesToKeep at h ⊢
      omega
    rw [truncateMessages_of_gt h, List.getLast?_append, List.getLast?_drop, if_neg hstop]
    cases messages with
    | nil => simp at h
    | cons m messages => simp [List.getLast?_cons]
  · rw [truncateMessages_of_le (by omega)]

theorem truncateMessages_length (messages : List Message) :
    (truncateMessages messages).length = min messagesToKeep messages.length := by
  by_cases h : messagesToKeep < messages.length
  · rw [truncateMessages_of_gt h, List.length_append, List.length_take, List.length_drop]
    unfold messagesToKeep at h ⊢
    omega
  · rw [truncateMessages_of_le (by omega)]
    omega

/-! ## One call -/

theorem appendQuery_messages (s : LLMInference) (query : CString) :
    (s.appendQuery query).messages = s.messages ++ storedMessage query (.lit "user") := by
  unfold appendQuery
  split <;> exact appendMessage_eq _ _ _

theorem finishStart_messages (E : Engine) (s : LLMInference) (n : ℕ) :
    (finishStart E s n).2.messages = s.messages := by
  unfold finishStart
  split
  · rfl
  split <;> rfl

/-- The list after a `start_completion` that has passed its first two tests, whether it
returns normally or not. -/
theorem startCompletion_messages (E : Engine) (s : LLMInference) (query : CString)
    (hquery : query.isEmpty = false) (hm : s.model = true) (hc : s.ctx = true)
    (hsampler : s.sampler = true) :
    (s.startCompletion E query).2.messages =
      if overLength E s query then
        truncateMessages (s.messages ++ storedMessage query (.lit "user"))
      else s.messages ++ storedMessage query (.lit "user") := by
  rw [← appendQuery_messages]
  unfold startCompletion overLength
  simp only [hquery, hm, hc, hsampler, Bool.not_true, Bool.or_self, Bool.false_eq_true, if_false]
  cases E.chatTemplate with
  | none => rfl
  | some T =>
      simp only
      rcases Option.eq_none_or_eq_some
          (formatMessages T (s.appendQuery query).messages (s.appendQuery query).formatted) with
        hformat | ⟨out, hformat⟩
      · simp [hformat]
      simp only [hformat]
      rcases Option.eq_none_or_eq_some (slice out.2 (s.appendQuery query).prevLen out.1) with
        hslice | ⟨prompt, hslice⟩
      · simp [hslice]
      simp only [hslice]
      rcases Option.eq_none_or_eq_some (E.commonTokenize prompt) with htok | ⟨tokens, htok⟩
      · simp [htok]
      simp only [htok, decide_eq_true_eq]
      by_cases hlong : (tokens.length : ℤ) > E.nCtx - 800
      · rw [if_pos hlong, if_pos hlong]
        split
        · rfl
        · apply finishStart_messages
      · rw [if_neg hlong, if_neg hlong]
        apply finishStart_messages

/-- The texts a call accepts: the message of an `add_chat_message`, the query of a
`start_completion` past its tests and the reply of a `stop_completion`, each as
`add_chat_message` stores it. -/
def acceptedBy (s : LLMInference) : Call → List Message
  | .addChatMessage message role => storedMessage message role
  | .startCompletion query =>
      if s.model && s.ctx && s.sampler then storedMessage query (.lit "user") else []
  | .completionLoop _ => []
  | .stopCompletion => if s.model && s.ctx then storedReply s.storeChats s.response else []
  | .cancelCompletion => []

/-- A call appends what it accepts; only a `start_completion` may then shorten the list. -/
theorem call_messages (E : Engine) (s : LLMInference) (c : Call) :
    (s.call E c).messages = s.messages ++ acceptedBy s c ∨
      (s.call E c).messages = truncateMessages (s.messages ++ acceptedBy s c) := by
  cases c with
  | addChatMessage message role => exact .inl (appendMessage_eq _ _ _)
  | startCompletion query =>
      by_cases hquery : query.isEmpty = true
      · have hstored : storedMessage query (.lit "user") = [] := if_pos (by simp [hquery])
        left
        simp [call, startCompletion, acceptedBy, hquery, hstored]
      · by_cases hready : (s.model && s.ctx && s.sampler) = true
        · simp only [Bool.and_eq_true] at hready
          have hlist := startCompletion_messages E s query
            (by simpa only [Bool.not_eq_true] using hquery) hready.1.1 hready.1.2 hready.2
          simp only [call, acceptedBy, hready, Bool.and_self, if_true, hlist]
          split
          · exact .inr rfl
          · exact .inl rfl
        · left
          have hnot : (!s.model || !s.ctx || !s.sampler) = true := by
            simpa [Bool.and_eq_true, imp_iff_not_or, or_assoc] using hready
          simp [call, startCompletion, acceptedBy, hquery, hready, hnot]
  | completionLoop d =>
      left
      simp [call, acceptedBy, (completionLoop_frame E s d).messages]
  | stopCompletion =>
      left
      by_cases hready : (s.model && s.ctx) = true
      · obtain ⟨hm, hc⟩ : s.model = true ∧ s.ctx = true := by simpa using hready
        simp [call, stopCompletion_eq E s hm hc, acceptedBy, hm, hc]
      · have hnot : (!s.model || !s.ctx) = true := by simpa [imp_iff_not_or] using hready
        simp [call, stopCompletion, acceptedBy, hnot, hready]
  | cancelCompletion =>
      left
      simp only [call, acceptedBy, List.append_nil]
      unfold cancelCompletion
      split <;> rfl

/-! ## Runs -/

def acceptedTexts (E : Engine) : LLMInference → List Call → List Message
  | _, [] => []
  | s, c :: calls => acceptedBy s c ++ acceptedTexts E (s.call E c) calls

theorem call_messages_sublist (E : Engine) (s : LLMInference) (c : Call) :
    (s.call E c).messages <+ s.messages ++ acceptedBy s c := by
  rcases call_messages E s c with heq | heq
  · rw [heq]
  · rw [heq]
    apply truncateMessages_sublist

theorem call_messages_head? (E : Engine) (s : LLMInference) (c : Call) :
    (s.call E c).messages.head? = (s.messages ++ acceptedBy s c).head? := by
  rcases call_messages E s c with heq | heq
  · rw [heq]
  · rw [heq]
    apply truncateMessages_head?

theorem run_messages_sublist (E : Engine) (s : LLMInference) (calls : List Call) :
    (s.run E calls).messages <+ s.messages ++ acceptedTexts E s calls := by
  induction calls generalizing s with
  | nil => simp [run, acceptedTexts]
  | cons c calls ih =>
      calc
        ((s.call E c).run E calls).messages <+
            (s.call E c).messages ++ acceptedTexts E (s.call E c) calls := ih (s.call E c)
        _ <+ (s.messages ++ acceptedBy s c) ++ acceptedTexts E (s.call E c) calls :=
            (call_messages_sublist E s c).append_right _
        _ = s.messages ++ acceptedTexts E s (c :: calls) := List.append_assoc _ _ _

theorem run_messages_head? (E : Engine) (s : LLMInference) (calls : List Call) :
    (s.run E calls).messages.head? = (s.messages ++ acceptedTexts E s calls).head? := by
  induction calls generalizing s with
  | nil => simp [run, acceptedTexts]
  | cons c calls ih =>
      calc
        ((s.call E c).run E calls).messages.head? =
            ((s.call E c).messages ++ acceptedTexts E (s.call E c) calls).head? :=
          ih (s.call E c)
        _ = ((s.messages ++ acceptedBy s c) ++ acceptedTexts E (s.call E c) calls).head? := by
          rw [List.head?_append, List.head?_append, call_messages_head?]
        _ = (s.messages ++ acceptedTexts E s (c :: calls)).head? := by
          rw [List.append_assoc, acceptedTexts]

theorem call_messages_of_le (E : Engine) (s : LLMInference) (c : Call)
    (h : (s.messages ++ acceptedBy s c).length ≤ messagesToKeep) :
    (s.call E c).messages = s.messages ++ acceptedBy s c := by
  rcases call_messages E s c with heq | heq
  · exact heq
  · rw [heq, truncateMessages_of_le h]

theorem call_messages_length (E : Engine) (s : LLMInference) (c : Call)
    (h : s.messages.length ≤ messagesToKeep) :
    s.messages.length ≤ (s.call E c).messages.length := by
  have hgrow : s.messages.length ≤ (s.messages ++ acceptedBy s c).length := by simp
  rcases call_messages E s c with heq | heq
  · rw [heq]
    exact hgrow
  · rw [heq, truncateMessages_length]
    omega

theorem startCompletion_getLast? {E : Engine} {s s' : LLMInference} {query : CString}
    (h : s.startCompletion E query = (.ok (), s')) :
    s'.messages.getLast? = some ⟨.lit "user", query.take maxMessageLength⟩ := by
  have hquery : query.isEmpty = false := by
    by_contra hempty
    rw [Bool.not_eq_false] at hempty
    simp [startCompletion, hempty] at h
  have hlast : (s.appendQuery query).messages.getLast? =
      some ⟨.lit "user", query.take maxMessageLength⟩ := by
    rw [appendQuery_messages, storedMessage_user (CString.isEmpty_eq_false_iff.mp hquery),
      List.getLast?_concat]
  cases startCompletion_ok h with
  | whole => exact hlast
  | shortened => exact (truncateMessages_getLast? _).trans hlast

/-- In every state of a run on a loaded instance the list is a subsequence of the accepted
texts that begins with the first of them, the next `start_completion` to return normally
leaves its query last, and no call shortens a list of at most five messages, before or
after what it appends. -/
theorem messages_keep_head_order_query (E : Engine) (storeChats : Bool) (calls : List Call) :
    ((loaded E storeChats).run E calls).messages <+
        acceptedTexts E (loaded E storeChats) calls ∧
      ((loaded E storeChats).run E calls).messages.head? =
        (acceptedTexts E (loaded E storeChats) calls).head? ∧
      (∀ query s', ((loaded E storeChats).run E calls).startCompletion E query = (.ok (), s') →
        s'.messages.getLast? = some ⟨.lit "user", query.take maxMessageLength⟩) ∧
      ∀ c, (((loaded E storeChats).run E calls).messages.length ≤ messagesToKeep →
          ((loaded E storeChats).run E calls).messages.length ≤
            (((loaded E storeChats).run E calls).call E c).messages.length) ∧
        ((((loaded E storeChats).run E calls).messages ++
            acceptedBy ((loaded E storeChats).run E calls) c).length ≤ messagesToKeep →
          (((loaded E storeChats).run E calls).call E c).messages =
            ((loaded E storeChats).run E calls).messages ++
              acceptedBy ((loaded E storeChats).run E calls) c) :=
  ⟨run_messages_sublist E (loaded E storeChats) calls,
    run_messages_head? E (loaded E storeChats) calls,
    fun _ _ h => startCompletion_getLast? h,
    fun c => ⟨call_messages_length E _ c, call_messages_of_le E _ c⟩⟩

end SmollChat.LLMInference
