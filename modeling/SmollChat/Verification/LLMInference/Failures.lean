import SmollChat.Model.ByteEngine
import SmollChat.Verification.LLMInference.Messages

/-! # Completions that fail to start

`start_completion` tests its argument and its pointers before it changes anything. The other
exceptions come after the query has been added to the list and the buffer has been written. -/

namespace SmollChat.LLMInference

variable {E : Engine} {s t : LLMInference} {query : CString} {e : Failure}

/-! ## The property -/

/-- What prompts and replies are made of is as it was. -/
structure Unchanged (s s' : LLMInference) : Prop where
  messages : s'.messages = s.messages
  prevLen : s'.prevLen = s.prevLen
  formatted : s'.formatted = s.formatted
  response : s'.response = s.response
  batch : s'.batch = s.batch

/-- A start of a completion changes nothing, and every later one sends what it would have
sent without it. -/
structure LeavesNoTrace (E : Engine) (s : LLMInference) (query : CString) : Prop where
  unchanged : Unchanged s (s.startCompletion E query).2
  resends : ∀ calls next, sentTokens E ((s.startCompletion E query).2.run E calls) next =
    sentTokens E (s.run E calls) next

/-- The call fails one of its first two tests. -/
def Refused (s : LLMInference) (query : CString) : Prop :=
  query = .empty ∨ ¬(s.model = true ∧ s.ctx = true ∧ s.sampler = true)

/-- The over-length branch is taken and leaves what it finds: the list with the query,
shortened, is the list before it, and `prev_len` and the buffer are what the branch writes. -/
structure CutRestores (E : Engine) (s : LLMInference) (query : CString) : Prop where
  overLength : overLength E s query = true
  list : truncateMessages (s.messages ++ storedMessage query (.lit "user")) = s.messages
  prompt : ∃ T n buf, E.chatTemplate = some T ∧
    formatMessages T (s.appendQuery query).messages (s.appendQuery query).formatted =
      some (n, buf) ∧
    match applyTemplate T s.messages true buf with
    | none => (s.storeChats = true ∨ s.prevLen = 0) ∧ buf = s.formatted
    | some (_, buf') => s.prevLen = 0 ∧ buf' = s.formatted

/-! ## The exits -/

theorem startCompletion_refused (h : Refused s query) : (s.startCompletion E query).2 = s := by
  unfold startCompletion
  rcases h with rfl | hunloaded
  · rfl
  · have hcond : (!s.model || !s.ctx || !s.sampler) = true := by
      rw [Bool.or_eq_true, Bool.or_eq_true]
      simpa [imp_iff_not_or, or_assoc] using hunloaded
    split
    · rfl
    · simp

theorem finishStart_error {n : ℕ} (h : (finishStart E s n).1 = .error e) :
    (finishStart E s n).2 = s := by
  rcases finishStart_cases E s n with heq | ⟨prompt, tokens, hslice, htok, -⟩
  · exact heq
  · simp [finishStart, hslice, htok] at h

theorem startCompletion_overLength (hne : query ≠ .empty)
    (hloaded : s.model = true ∧ s.ctx = true ∧ s.sampler = true)
    (hlong : overLength E s query = true) :
    ∃ T n buf, E.chatTemplate = some T ∧
      formatMessages T (s.appendQuery query).messages (s.appendQuery query).formatted =
        some (n, buf) ∧
      s.startCompletion E query =
        match applyTemplate T (truncateMessages (s.appendQuery query).messages) true buf with
        | none =>
            (.error (.runtimeError "llama_chat_apply_template() after truncation failed"),
              { s.appendQuery query with
                formatted := buf
                messages := truncateMessages (s.appendQuery query).messages
                truncations := (s.appendQuery query).truncations + 1 })
        | some (n', buf') =>
            finishStart E { s.appendQuery query with
              formatted := buf'
              messages := truncateMessages (s.appendQuery query).messages
              truncations := (s.appendQuery query).truncations + 1
              prevLen := 0 } n' := by
  obtain ⟨hm, hc, hsampler⟩ := hloaded
  have hquery : query.isEmpty = false := CString.isEmpty_eq_false_iff.mpr hne
  unfold overLength at hlong
  split at hlong
  · cases hlong
  rename_i T hT
  split at hlong
  · cases hlong
  rename_i n buf hformat
  split at hlong
  · cases hlong
  rename_i prompt hslice
  split at hlong
  · cases hlong
  rename_i tokens htok
  refine ⟨T, n, buf, hT, hformat, ?_⟩
  have hover : (tokens.length : ℤ) > E.nCtx - 800 := of_decide_eq_true hlong
  unfold startCompletion
  simp only [hquery, hm, hc, hsampler, Bool.not_true, Bool.or_self, Bool.false_eq_true, if_false,
    hT, hformat, hslice, htok]
  exact if_pos hover

theorem startCompletion_cut (hne : query ≠ .empty)
    (hloaded : s.model = true ∧ s.ctx = true ∧ s.sampler = true)
    (hlong : overLength E s query = true) (hthrow : (s.startCompletion E query).1 = .error e) :
    ∃ T n buf, E.chatTemplate = some T ∧
      formatMessages T (s.appendQuery query).messages (s.appendQuery query).formatted =
        some (n, buf) ∧
      (s.startCompletion E query).2 =
        match applyTemplate T (truncateMessages (s.appendQuery query).messages) true buf with
        | none => { s.appendQuery query with
            formatted := buf
            messages := truncateMessages (s.appendQuery query).messages
            truncations := (s.appendQuery query).truncations + 1 }
        | some (_, buf') => { s.appendQuery query with
            formatted := buf'
            messages := truncateMessages (s.appendQuery query).messages
            truncations := (s.appendQuery query).truncations + 1
            prevLen := 0 } := by
  obtain ⟨T, n, buf, hT, hformat, hstart⟩ := startCompletion_overLength hne hloaded hlong
  refine ⟨T, n, buf, hT, hformat, ?_⟩
  rw [hstart] at hthrow ⊢
  split
  · rfl
  · rename_i n' buf' hagain
    rw [hagain] at hthrow
    exact finishStart_error hthrow

/-! ## What does not depend on the count of truncations -/

theorem appendQuery_truncations (s : LLMInference) (k : ℕ) (query : CString) :
    ({ s with truncations := k } : LLMInference).appendQuery query =
      { s.appendQuery query with truncations := k } := by
  unfold appendQuery
  split <;> rfl

theorem finishStart_truncations (E : Engine) (s : LLMInference) (k n : ℕ) :
    finishStart E { s with truncations := k } n =
      ((finishStart E s n).1, { (finishStart E s n).2 with truncations := k }) := by
  unfold finishStart
  simp only
  split
  · rfl
  split <;> rfl

theorem startCompletion_truncations (E : Engine) (s : LLMInference) (k : ℕ) (query : CString) :
    ∃ k', ({ s with truncations := k } : LLMInference).startCompletion E query =
      ((s.startCompletion E query).1,
        { (s.startCompletion E query).2 with truncations := k' }) := by
  unfold startCompletion
  simp only [appendQuery_truncations]
  split
  · exact ⟨k, rfl⟩
  split
  · exact ⟨k, rfl⟩
  split
  · exact ⟨k, rfl⟩
  split
  · exact ⟨k, rfl⟩
  split
  · exact ⟨k, rfl⟩
  split
  · exact ⟨k, rfl⟩
  split
  · split
    · exact ⟨k + 1, rfl⟩
    · rename_i n buf hagain
      exact ⟨k + 1, finishStart_truncations E { s.appendQuery query with
        formatted := buf
        messages := truncateMessages (s.appendQuery query).messages
        truncations := (s.appendQuery query).truncations + 1
        prevLen := 0 } (k + 1) n⟩
  · exact ⟨k, finishStart_truncations E { s.appendQuery query with formatted := _ } k _⟩

theorem completionLoop_truncations (E : Engine) (s : LLMInference) (k : ℕ) (d : Draw) :
    ({ s with truncations := k } : LLMInference).completionLoop E d =
      ((s.completionLoop E d).1, { (s.completionLoop E d).2 with truncations := k }) := by
  unfold completionLoop
  simp only
  split
  · rfl
  split
  · rfl
  split
  · rfl
  split
  · rfl
  split
  · rfl
  unfold handleToken
  simp only
  split
  · rfl
  split
  · rfl
  split
  · rfl
  split
  · rfl
  split <;> rfl

theorem stopCompletion_truncations (E : Engine) (s : LLMInference) (k : ℕ) :
    ({ s with truncations := k } : LLMInference).stopCompletion E =
      { s.stopCompletion E with truncations := k } := by
  by_cases hloaded : s.model = true ∧ s.ctx = true
  · rw [stopCompletion_eq E s hloaded.1 hloaded.2]
    exact stopCompletion_eq E { s with truncations := k } hloaded.1 hloaded.2
  · rw [stopCompletion_of_unloaded hloaded]
    exact stopCompletion_of_unloaded hloaded

theorem cancelCompletion_truncations (E : Engine) (s : LLMInference) (k : ℕ) :
    ({ s with truncations := k } : LLMInference).cancelCompletion E =
      { s.cancelCompletion E with truncations := k } := by
  by_cases hloaded : s.model = true ∧ s.ctx = true
  · rw [cancelCompletion_eq E s hloaded.1 hloaded.2]
    exact cancelCompletion_eq E { s with truncations := k } hloaded.1 hloaded.2
  · rw [cancelCompletion_of_unloaded hloaded]
    exact cancelCompletion_of_unloaded hloaded

theorem run_truncations (E : Engine) (s : LLMInference) (k : ℕ) (calls : List Call) :
    ∃ k', ({ s with truncations := k } : LLMInference).run E calls =
      { s.run E calls with truncations := k' } := by
  induction calls generalizing s k with
  | nil => exact ⟨k, rfl⟩
  | cons c calls ih =>
      have hcall : ∃ k', ({ s with truncations := k } : LLMInference).call E c =
          { s.call E c with truncations := k' } := by
        cases c with
        | addChatMessage message role => exact ⟨k, rfl⟩
        | startCompletion query =>
            obtain ⟨k', hk'⟩ := startCompletion_truncations E s k query
            exact ⟨k', congrArg Prod.snd hk'⟩
        | completionLoop d => exact ⟨k, congrArg Prod.snd (completionLoop_truncations E s k d)⟩
        | stopCompletion => exact ⟨k, stopCompletion_truncations E s k⟩
        | cancelCompletion => exact ⟨k, cancelCompletion_truncations E s k⟩
      obtain ⟨k', hk'⟩ := hcall
      obtain ⟨k'', hk''⟩ := ih (s.call E c) k'
      refine ⟨k'', ?_⟩
      rw [run, List.foldl_cons, hk', ← run, hk'']
      rfl

theorem sentTokens_truncations (E : Engine) (s : LLMInference) (k : ℕ) (query : CString) :
    sentTokens E { s with truncations := k } query = sentTokens E s query := by
  obtain ⟨k', hk'⟩ := startCompletion_truncations E s k query
  unfold sentTokens
  rw [hk']
  cases h : s.startCompletion E query with
  | mk r s' => cases r <;> rfl

/-! ## The condition -/

theorem appendQuery_eq (s : LLMInference) (query : CString) :
    s.appendQuery query = { s with
      messages := s.messages ++ storedMessage query (.lit "user")
      prevLen := if s.storeChats then s.prevLen else 0
      formatted := if s.storeChats then s.formatted else [] } := by
  unfold appendQuery addChatMessage
  cases hstore : s.storeChats <;> simp [appendMessage_eq, hstore]

theorem storedMessage_user_ne_nil (hne : query ≠ .empty) :
    storedMessage query (.lit "user") ≠ [] := by
  rw [storedMessage_user hne]
  exact List.cons_ne_nil _ _

theorem leavesNoTrace_of_refused (h : Refused s query) : LeavesNoTrace E s query := by
  have hsame := startCompletion_refused (E := E) h
  exact ⟨by rw [hsame]; exact ⟨rfl, rfl, rfl, rfl, rfl⟩, fun _ _ => by rw [hsame]⟩

theorem leavesNoTrace_of_eq {k : ℕ}
    (h : (s.startCompletion E query).2 = { s with truncations := k }) :
    LeavesNoTrace E s query := by
  refine ⟨?_, ?_⟩
  · rw [h]
    exact ⟨rfl, rfl, rfl, rfl, rfl⟩
  · intro calls next
    obtain ⟨k', hk'⟩ := run_truncations E s k calls
    rw [h, hk', sentTokens_truncations]

/-- A start that throws leaves no trace exactly if it is refused by the first two tests, or
its over-length branch leaves what it finds. -/
theorem failedStart_iff (E : Engine) (s : LLMInference) (query : CString) (what : String)
    (h : (s.startCompletion E query).1 = .error (.runtimeError what)) :
    LeavesNoTrace E s query ↔ Refused s query ∨ CutRestores E s query := by
  by_cases hrefused : Refused s query
  · simp [hrefused, leavesNoTrace_of_refused hrefused]
  obtain ⟨hne, hloaded⟩ : query ≠ .empty ∧
      (s.model = true ∧ s.ctx = true ∧ s.sampler = true) := by
    rw [Refused, not_or, not_not] at hrefused
    exact hrefused
  have hquery : query.isEmpty = false := CString.isEmpty_eq_false_iff.mpr hne
  have hmessages := startCompletion_messages E s query hquery hloaded.1 hloaded.2.1 hloaded.2.2
  simp only [hrefused, false_or]
  constructor
  · rintro ⟨hsame, -⟩
    rw [hsame.messages] at hmessages
    cases hlong : overLength E s query with
    | false =>
        rw [hlong, if_neg (by simp)] at hmessages
        exact absurd (List.append_right_eq_self.mp hmessages.symm) (storedMessage_user_ne_nil hne)
    | true =>
        rw [hlong, if_pos rfl] at hmessages
        obtain ⟨T, n, buf, hT, hformat, hstate⟩ := startCompletion_cut hne hloaded hlong h
        refine ⟨hlong, hmessages.symm, T, n, buf, hT, hformat, ?_⟩
        rw [appendQuery_messages, ← hmessages] at hstate
        have hprev := hsame.prevLen
        have hbuf := hsame.formatted
        rw [hstate] at hprev hbuf
        split
        · rename_i hagain
          rw [hagain] at hprev hbuf
          rw [appendQuery_eq] at hprev
          refine ⟨?_, hbuf⟩
          cases hstore : s.storeChats with
          | true => exact .inl rfl
          | false =>
              simp only [hstore] at hprev
              exact .inr hprev.symm
        · rename_i hagain
          rw [hagain] at hprev hbuf
          exact ⟨hprev.symm, hbuf⟩
  · rintro ⟨hlong, hlist, T, n, buf, hT, hformat, hprompt⟩
    obtain ⟨T', n', buf', hT', hformat', hstate⟩ := startCompletion_cut hne hloaded hlong h
    obtain rfl : T = T' := Option.some.inj (hT.symm.trans hT')
    obtain ⟨rfl, rfl⟩ := Prod.mk.inj (Option.some.inj (hformat.symm.trans hformat'))
    rw [appendQuery_messages, hlist] at hstate
    apply leavesNoTrace_of_eq (k := s.truncations + 1)
    rw [hstate]
    split at hprompt
    · obtain ⟨hprev, rfl⟩ := hprompt
      have hkept : (if s.storeChats then s.prevLen else 0) = s.prevLen := by
        rcases hprev with hstore | hprev
        · rw [if_pos hstore]
        · rw [hprev, ite_self]
      rw [appendQuery_eq, hkept]
    · obtain ⟨hprev, rfl⟩ := hprompt
      rw [appendQuery_eq, ← hprev]

theorem failedStart_refused :
    LeavesNoTrace (ByteEngine.engine 1024) (loaded (ByteEngine.engine 1024) true) .empty :=
  (failedStart_iff (ByteEngine.engine 1024) (loaded (ByteEngine.engine 1024) true) .empty
    "start_completion() failed: invalid query" rfl).mpr (.inl (.inl rfl))

def plainEngine : Engine := { ByteEngine.engine 1024 with chatTemplate := none }

/-- Without a template the query stays in the list. -/
theorem failedStart_traces :
    ((loaded plainEngine true).startCompletion plainEngine (.lit "hi")).1 =
        .error (.runtimeError "start_completion() failed: no chat template available") ∧
      ¬LeavesNoTrace plainEngine (loaded plainEngine true) (.lit "hi") := by
  refine ⟨rfl, ?_⟩
  intro h
  exact absurd h.unchanged.messages (by decide)

end SmollChat.LLMInference
