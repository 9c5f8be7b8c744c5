import SmollChat.Library.Transition
import SmollChat.Verification.LLMInference.Slices
import SmollChat.Verification.LLMInference.Truncation

/-! # Cancelled completions

`cancel_completion` moves `prev_len` to the end of the list, as if all of it had been
decoded, and leaves the cache with whatever the completion has put there. The two agree
where the cancel finds nothing to cancel: no message added and no token decoded since
`prev_len` was set. -/

namespace SmollChat.LLMInference

open Transition

variable {E : Engine} {C : ChunkTemplate} {s s' : LLMInference}

/-! ## Cache and offset -/

/-- The cache holds the messages below `prev_len`, which are all messages, and nothing else. -/
structure InStep (E : Engine) (C : ChunkTemplate) (s : LLMInference) : Prop where
  below : s.prevLen = (C.render s.messages false).length
  decoded : E.text s.kvCache = C.render s.messages false

/-- With the next prompt the model sees each message of its list once. -/
def ShowsOnce (E : Engine) (C : ChunkTemplate) (s : LLMInference) (query : CString) : Prop :=
  ∀ s', s.startCompletion E query = (.ok (), s') →
    E.text s.kvCache ++ E.text s'.batchTokens = C.render s'.messages true

/-- Every message has been decoded, and the cache ends where `prev_len` does; without
stored chats, where the next prompt starts at the front, nothing has. -/
structure NothingPending (E : Engine) (C : ChunkTemplate) (s : LLMInference) : Prop where
  added : (C.render s.messages false).length = s.prevLen
  decoded : (E.text s.kvCache).length = s.prevLen
  stored : s.storeChats = false → s.prevLen = 0

instance (E : Engine) (C : ChunkTemplate) (s : LLMInference) : Decidable (NothingPending E C s) :=
  decidable_of_iff ((C.render s.messages false).length = s.prevLen ∧
      (E.text s.kvCache).length = s.prevLen ∧ (s.storeChats = false → s.prevLen = 0))
    ⟨fun ⟨h₁, h₂, h₃⟩ => ⟨h₁, h₂, h₃⟩, fun ⟨h₁, h₂, h₃⟩ => ⟨h₁, h₂, h₃⟩⟩

/-- What the calls of a run have to meet: a stop finds the rendering of the list it leaves
in the cache, the reply's chunk included, and a cancel finds nothing pending. -/
def KeepsStep (E : Engine) (C : ChunkTemplate) (s : LLMInference) : Call → Prop
  | .stopCompletion => C.render (s.stopCompletion E).messages false <+: E.text s.kvCache
  | .cancelCompletion => NothingPending E C s
  | _ => True

/-- The next prompt is not one of the over-length branch, or nothing lies below `prev_len`. -/
def KeepsNext (E : Engine) (s : LLMInference) (query : CString) : Prop :=
  overLength E s query = false ∨ s.prevLen = 0

instance (E : Engine) (s : LLMInference) (query : CString) : Decidable (KeepsNext E s query) :=
  inferInstanceAs (Decidable (_ ∨ _))

instance (E : Engine) (C : ChunkTemplate) (s : LLMInference) (c : Call) :
    Decidable (KeepsStep E C s c) := by
  rcases c with _ | _ | _ | _ | _ <;> dsimp only [KeepsStep] <;> infer_instance

/-! ## What is cached below the offset -/

/-- `prev_len` is the length of the rendering of a front part of the list, and the cache
begins with that rendering. -/
def Covered (E : Engine) (C : ChunkTemplate) (s : LLMInference) : Prop :=
  ∃ sent rest, s.messages = sent ++ rest ∧ s.prevLen = (C.render sent false).length ∧
    C.render sent false <+: E.text s.kvCache

theorem loaded_covered (E : Engine) (C : ChunkTemplate) (storeChats : Bool) :
    Covered E C (loaded E storeChats) :=
  ⟨[], [], rfl, rfl, List.prefix_rfl⟩

theorem covered_zero (hprev : s.prevLen = 0) : Covered E C s :=
  ⟨[], s.messages, rfl, hprev, List.nil_prefix⟩

theorem Covered.grow (h : Covered E C s) (hprev : s'.prevLen = s.prevLen) (added : List Message)
    (hmessages : s'.messages = s.messages ++ added) (decoded : List Token)
    (hkv : s'.kvCache = s.kvCache ++ decoded) : Covered E C s' := by
  obtain ⟨sent, rest, hlist, hlen, hprefix⟩ := h
  refine ⟨sent, rest ++ added, ?_, hprev.trans hlen, ?_⟩
  · rw [hmessages, hlist, List.append_assoc]
  · rw [hkv, Engine.text_append]
    exact hprefix.trans (List.prefix_append _ _)

theorem appendQuery_covered (h : Covered E C s) (query : CString) :
    Covered E C (s.appendQuery query) := by
  have hmessages := appendQuery_messages s query
  have hkv := (appendQuery_frame s query).kvCache
  cases hstore : s.storeChats with
  | true =>
      have hprev : (s.appendQuery query).prevLen = s.prevLen := by
        simp [appendQuery, hstore, addChatMessage]
      exact h.grow hprev _ hmessages [] (by rw [hkv, List.append_nil])
  | false => exact covered_zero (by simp [appendQuery, hstore, addChatMessage])

theorem startCompletion_covered (hT : E.chatTemplate = some C.template) (h : Covered E C s)
    (query : CString) : Covered E C (s.startCompletion E query).2 := by
  have happ := appendQuery_covered h query
  have hexit := startCompletion_exit E s query
  generalize (s.startCompletion E query).2 = s' at hexit ⊢
  cases hexit with
  | refused => exact h
  | unrendered => exact happ
  | unsent => exact happ
  | whole => exact happ
  | cut hT' _ hagain =>
      obtain rfl : C.template = _ := Option.some.inj (hT.symm.trans hT')
      cases hagain
  | cutUnsent => exact covered_zero rfl
  | shortened => exact covered_zero rfl

theorem completionLoop_covered (h : Covered E C s) (d : Draw) :
    Covered E C (s.completionLoop E d).2 := by
  obtain ⟨decodes, hgrows⟩ := completionLoop_cache E s d
  have hframe := completionLoop_frame E s d
  obtain ⟨batch, response, currToken, kvCache, decodeCalls, draws, heq⟩ :=
    completionLoop_fields E s d
  refine h.grow ?_ [] (by rw [hframe.messages, List.append_nil]) _ hgrows.kvCache
  rw [heq]

theorem decoded_of_nothingPending (h : Covered E C s) (hidle : NothingPending E C s) :
    E.text s.kvCache = C.render s.messages false := by
  obtain ⟨sent, rest, hlist, hlen, hprefix⟩ := h
  have hsent : C.render sent false = E.text s.kvCache := by
    apply hprefix.eq_of_length
    rw [← hlen, hidle.decoded]
  have hrest : C.render rest false = [] := by
    have hadded := hidle.added
    rw [hlist, C.render_append, List.length_append, ← hlen] at hadded
    exact List.eq_nil_of_length_eq_zero (by omega)
  rw [hlist, C.render_append, hrest, List.append_nil, hsent]

theorem renderedLen_chunks (hT : E.chatTemplate = some C.template) (messages : List Message) :
    renderedLen E messages = (C.render messages false).length := by
  simp [renderedLen, hT, ChunkTemplate.template]

theorem call_covered (hT : E.chatTemplate = some C.template) (hacc : Accounted s)
    (h : Covered E C s) {c : Call} (hc : KeepsStep E C s c) : Covered E C (s.call E c) := by
  cases c with
  | addChatMessage message role =>
      exact h.grow rfl _ (appendMessage_eq _ _ _) [] (List.append_nil _).symm
  | startCompletion query => exact startCompletion_covered hT h query
  | completionLoop d => exact completionLoop_covered h d
  | stopCompletion =>
      simp only [KeepsStep] at hc
      rw [stopCompletion_eq E s hacc.model hacc.ctx] at hc
      rw [call, stopCompletion_eq E s hacc.model hacc.ctx]
      exact ⟨_, [], (List.append_nil _).symm, renderedLen_chunks hT _, hc⟩
  | cancelCompletion =>
      rw [call, cancelCompletion_eq E s hacc.model hacc.ctx]
      have hdecoded := decoded_of_nothingPending h hc
      exact ⟨s.messages, [], (List.append_nil _).symm, renderedLen_chunks hT _,
        hdecoded ▸ List.prefix_rfl⟩

/-! ## Cancels -/

theorem truncations_of_short {query : CString} (hstart : s.startCompletion E query = (.ok (), s'))
    (hshort : overLength E s query = false) : s'.truncations = s.truncations := by
  cases startCompletion_ok hstart with
  | whole => exact truncations_appendQuery s query
  | shortened hT hformat hslice htok hlong =>
      simp only [overLength, hT, hformat, hslice, htok, decide_eq_false_iff_not] at hshort
      exact absurd hlong hshort

/-- The next prompt after a cancel that found nothing pending. -/
theorem next_agrees (hT : E.chatTemplate = some C.template) (hD : Detokenizes E)
    (hprev : s.prevLen = (C.render s.messages false).length)
    (hkv : E.text s.kvCache = C.render s.messages false)
    (hstore : s.storeChats = false → s.prevLen = 0) {query : CString}
    (hstart : s.startCompletion E query = (.ok (), s'))
    (hsame : s'.truncations = s.truncations ∨ s.prevLen = 0) :
    E.text s.kvCache ++ E.text s'.batchTokens = C.render s'.messages true := by
  have hsettled : Settled C s s.messages.length := fun _ =>
    ⟨le_rfl, by rw [List.take_length, hprev]⟩
  have htext := hD _ _ (startCompletion_text hT hsettled hstart)
  have hempty : s.prevLen = 0 → E.text s.kvCache = [] := by
    intro hzero
    rw [hkv]
    exact List.eq_nil_of_length_eq_zero (hprev.symm.trans hzero)
  simp only [nextSettled, hstart] at htext
  -- what the batch leaves out is what is cached: nothing, or the list before the query
  by_cases hwhole : s.storeChats = true ∧ s'.truncations = s.truncations
  · obtain ⟨hstored, hcount⟩ := hwhole
    have hmessages := (startCompletion_whole hstart hstored hcount).1
    rw [if_pos hcount, settledQuery, if_pos hstored, hmessages, List.drop_left] at htext
    rw [htext, hkv, hmessages, C.render_true, C.render_true, C.render_append s.messages,
      List.append_assoc]
  · have hnone : settledQuery s (if s'.truncations = s.truncations then s.messages.length else 0) =
        0 := by
      unfold settledQuery
      split
      · rename_i hstored
        exact if_neg fun hcount => hwhole ⟨hstored, hcount⟩
      · rfl
    have hzero : s.prevLen = 0 := by
      cases hstored : s.storeChats with
      | false => exact hstore hstored
      | true => exact hsame.resolve_left fun hcount => hwhole ⟨hstored, hcount⟩
    rw [hnone, List.drop_zero] at htext
    rw [htext, hempty hzero, List.nil_append]

theorem cancelCompletion_inStep (hT : E.chatTemplate = some C.template) (hD : Detokenizes E)
    (hacc : Accounted s) (h : Covered E C s) (hidle : NothingPending E C s) :
    InStep E C (s.cancelCompletion E) ∧
      ∀ query, KeepsNext E (s.cancelCompletion E) query →
        ShowsOnce E C (s.cancelCompletion E) query := by
  have hkv := decoded_of_nothingPending h hidle
  have hprev : (s.cancelCompletion E).prevLen = (C.render s.messages false).length := by
    rw [cancelCompletion_eq E s hacc.model hacc.ctx]
    exact renderedLen_chunks hT _
  have hstore : s.storeChats = false → (s.cancelCompletion E).prevLen = 0 := by
    intro hs
    rw [hprev, hidle.added]
    exact hidle.stored hs
  rw [cancelCompletion_eq E s hacc.model hacc.ctx] at hprev hstore ⊢
  refine ⟨⟨hprev, hkv⟩, fun query hnext s' hstart => ?_⟩
  exact next_agrees hT hD hprev hkv hstore hstart
    (hnext.imp_left fun hshort => truncations_of_short hstart hshort)

theorem run_inStep (hT : E.chatTemplate = some C.template) (hD : Detokenizes E)
    (hacc : Accounted s) (h : Covered E C s) {before after : List Call}
    (hkeeps : AllowedAlong (fun s c => some (s.call E c)) (KeepsStep E C) s
      (before ++ .cancelCompletion :: after)) :
    InStep E C (s.run E (before ++ [.cancelCompletion])) ∧
      ∀ query, KeepsNext E (s.run E (before ++ [.cancelCompletion])) query →
        ShowsOnce E C (s.run E (before ++ [.cancelCompletion])) query := by
  induction before generalizing s with
  | nil => exact cancelCompletion_inStep hT hD hacc h hkeeps.1
  | cons c before ih =>
      exact ih (call_accounted hacc E c) (call_covered hT hacc h hkeeps.1) (hkeeps.2 _ rfl)

/-- In a run on a loaded instance whose stops close their replies and whose cancels find
nothing pending, every cancel leaves the cache and the offset in step, and a prompt that keeps
its place shows each message once. -/
theorem cancels_inStep (E : Engine) (C : ChunkTemplate) (storeChats : Bool) (calls : List Call)
    (hT : E.chatTemplate = some C.template) (hD : Detokenizes E)
    (hkeeps : AllowedAlong (fun s c => some (s.call E c)) (KeepsStep E C) (loaded E storeChats)
      calls) :
    ∀ before after, calls = before ++ .cancelCompletion :: after →
      InStep E C ((loaded E storeChats).run E (before ++ [.cancelCompletion])) ∧
        ∀ query, KeepsNext E ((loaded E storeChats).run E (before ++ [.cancelCompletion])) query →
          ShowsOnce E C ((loaded E storeChats).run E (before ++ [.cancelCompletion])) query := by
  intro before after hcalls
  rw [hcalls] at hkeeps
  exact run_inStep hT hD (loaded_accounted E storeChats) (loaded_covered E C storeChats) hkeeps

def spelledTurn : List Call :=
  .startCompletion (.lit "hi") ::
    (byteReply "Hi<|im_end|>\n").map (fun t => .completionLoop (.ok t)) ++
      [.completionLoop (.ok 257), .stopCompletion]

theorem cancels_inStep_idle :
    InStep (ByteEngine.engine 1024) chatml ((loaded (ByteEngine.engine 1024) true).run
        (ByteEngine.engine 1024) (spelledTurn ++ [.cancelCompletion])) ∧
      ShowsOnce (ByteEngine.engine 1024) chatml ((loaded (ByteEngine.engine 1024) true).run
        (ByteEngine.engine 1024) (spelledTurn ++ [.cancelCompletion])) (.lit "ok") := by
  have hbyte : Detokenizes (ByteEngine.engine 1024) := fun text tokens h => by
    obtain rfl : ByteEngine.tokens text.length text = tokens := Option.some.inj h
    exact ByteEngine.text_tokens 1024 _ _ le_rfl
  have h := cancels_inStep (ByteEngine.engine 1024) chatml true
    (spelledTurn ++ [.cancelCompletion]) rfl hbyte (by decide +kernel) spelledTurn [] rfl
  exact ⟨h.1, h.2 _ (by decide +kernel)⟩

/-- A cancel right after the history was added, one before the prompt is decoded, and one
in the middle of a reply. -/
theorem cancels_out_of_step :
    ¬InStep (ByteEngine.engine 1024) chatml
        ((loaded (ByteEngine.engine 1024) true).run (ByteEngine.engine 1024)
          [.addChatMessage (.lit "hi") (.lit "user"), .cancelCompletion]) ∧
      ¬InStep (ByteEngine.engine 1024) chatml
        ((loaded (ByteEngine.engine 1024) true).run (ByteEngine.engine 1024)
          [.startCompletion (.lit "hi"), .cancelCompletion]) ∧
      ¬InStep (ByteEngine.engine 1024) chatml
        ((loaded (ByteEngine.engine 1024) true).run (ByteEngine.engine 1024)
          [.startCompletion (.lit "hi"), .completionLoop (.ok 72), .completionLoop (.ok 105),
            .cancelCompletion]) :=
  ⟨fun h => absurd h.decoded (by decide +kernel), fun h => absurd h.decoded (by decide +kernel),
    fun h => absurd h.decoded (by decide +kernel)⟩

end SmollChat.LLMInference
