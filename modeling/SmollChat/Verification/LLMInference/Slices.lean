import SmollChat.Verification.LLMInference.Context
import SmollChat.Verification.LLMInference.Conversation
import SmollChat.Verification.LLMInference.Messages

/-! # The slices of the rendered prompt

`start_completion` cuts its prompts out of a buffer it shares with earlier calls, between an
offset that stops and cancels set and a length the template engine returns. Between two
calls the offset is the length of the rendering of a front part of the list; a shortened
list is sent from the start. -/

namespace SmollChat

/-! ## Renderings of parts of a list -/

namespace ChunkTemplate

variable (C : ChunkTemplate)

theorem render_split (messages : List Message) (n : ℕ) :
    C.render messages true =
      C.render (messages.take n) false ++ C.render (messages.drop n) true := by
  rw [C.render_true, C.render_true, ← List.append_assoc, ← C.render_append, List.take_append_drop]

theorem render_drop (messages : List Message) (n : ℕ) :
    (C.render messages true).drop (C.render (messages.take n) false).length =
      C.render (messages.drop n) true := by
  rw [C.render_split messages n, List.drop_left]

theorem render_take_length_le (messages : List Message) (n : ℕ) :
    (C.render (messages.take n) false).length ≤ (C.render messages true).length := by
  rw [C.render_split messages n, List.length_append]
  omega

theorem render_length_sublist {xs ys : List Message} (h : List.Sublist xs ys) (addAss : Bool) :
    (C.render xs addAss).length ≤ (C.render ys addAss).length := by
  induction h with
  | slnil => exact le_rfl
  | cons m _ ih =>
      simp only [render, List.map_cons, List.flatten_cons, List.append_assoc,
        List.length_append] at ih ⊢
      omega
  | cons_cons m _ ih =>
      simp only [render, List.map_cons, List.flatten_cons, List.append_assoc,
        List.length_append] at ih ⊢
      omega

end ChunkTemplate

namespace LLMInference

variable {E : Engine} {C : ChunkTemplate} {s s' : LLMInference} {query : CString} {n : ℕ}

/-! ## The constructions -/

/-- The variables where `prompt` or `final_prompt` is constructed. -/
structure Construction where
  messages : List Message
  prevLen : ℕ
  newLen : ℕ
  formatted : Bytes

/-- The constructions a `start_completion` makes, in order. -/
def constructions (E : Engine) (s : LLMInference) (query : CString) : List Construction :=
  if query.isEmpty || !s.model || !s.ctx || !s.sampler then []
  else
    let s := s.appendQuery query
    match E.chatTemplate with
    | none => []
    | some T =>
        match formatMessages T s.messages s.formatted with
        | none => []
        | some (newLen, formatted) =>
            let prompt : Construction := ⟨s.messages, s.prevLen, newLen, formatted⟩
            match (slice formatted s.prevLen newLen).bind E.commonTokenize with
            | none => [prompt]
            | some promptTokens =>
                if promptTokens.length > (E.nCtx : ℤ) - 800 then
                  match applyTemplate T (truncateMessages s.messages) true formatted with
                  | none => [prompt]
                  | some (newLen, formatted) =>
                      [prompt, ⟨truncateMessages s.messages, 0, newLen, formatted⟩]
                else [prompt, prompt]

/-- The range is one of the buffer, which begins with the current rendering. -/
structure Construction.Sound (C : ChunkTemplate) (c : Construction) : Prop where
  ordered : c.prevLen ≤ c.newLen
  within : c.newLen ≤ c.formatted.length
  rendered : c.formatted.take c.newLen = C.render c.messages true

/-- The number of messages in the list at the last stop or cancel, `0` before the first and
after an over-length branch. -/
def nextSettled (E : Engine) (s : LLMInference) (n : ℕ) : Call → ℕ
  | .addChatMessage _ _ => n
  | .startCompletion query =>
      if (s.startCompletion E query).2.truncations = s.truncations then n else 0
  | .completionLoop _ => n
  | .stopCompletion => (s.stopCompletion E).messages.length
  | .cancelCompletion => (s.cancelCompletion E).messages.length

def settledAfter (E : Engine) : LLMInference → ℕ → List Call → ℕ
  | _, n, [] => n
  | s, n, c :: calls => settledAfter E (s.call E c) (nextSettled E s n c) calls

theorem settledAfter_concat (E : Engine) (s : LLMInference) (n : ℕ) (calls : List Call)
    (c : Call) : settledAfter E s n (calls ++ [c]) =
      nextSettled E (s.run E calls) (settledAfter E s n calls) c := by
  induction calls generalizing s n with
  | nil => rfl
  | cons c' calls ih => exact ih (s.call E c') (nextSettled E s n c')

/-! ## The buffer -/

theorem copy_take (C : ChunkTemplate) (messages : List Message) {buf : Bytes}
    (hle : (C.render messages true).length ≤ buf.length) :
    (strncpy buf (C.render messages true)).take (C.render messages true).length =
      C.render messages true :=
  strncpy_take buf ⟨_, C.render_nul_free messages true⟩ hle

/-- The first rendering fits and stands in front of the buffer. -/
theorem formatMessages_rendered {messages : List Message} {buf out : Bytes}
    (h : formatMessages C.template messages buf = some (n, out)) :
    n = (C.render messages true).length ∧ n ≤ out.length ∧
      out.take n = C.render messages true := by
  obtain ⟨r, hr, rfl, hle, hout⟩ := formatMessages_spec h
  obtain rfl : C.render messages true = r := Option.some.inj hr
  refine ⟨rfl, hle, ?_⟩
  rw [hout]
  exact copy_take C messages hle

/-- So does the rendering of the shortened list, which is no longer. -/
theorem applyTemplate_rendered {messages shorter : List Message} {buf out : Bytes}
    (hsub : List.Sublist shorter messages)
    (hle : (C.render messages true).length ≤ buf.length)
    (h : applyTemplate C.template shorter true buf = some (n, out)) :
    n = (C.render shorter true).length ∧ n ≤ out.length ∧
      out.take n = C.render shorter true := by
  have hshort := (C.render_length_sublist hsub true).trans hle
  obtain ⟨rfl, rfl⟩ : (C.render shorter true).length = n ∧
      strncpy buf (C.render shorter true) = out := by
    simpa [applyTemplate, ChunkTemplate.template] using h
  refine ⟨rfl, ?_, copy_take C shorter hshort⟩
  rw [strncpy_length]
  exact hshort

/-! ## The offset -/

/-- While chats are stored, `prev_len` is the length of the rendering of the first `n`
messages. -/
def Settled (C : ChunkTemplate) (s : LLMInference) (n : ℕ) : Prop :=
  s.storeChats = true →
    n ≤ s.messages.length ∧ s.prevLen = (C.render (s.messages.take n) false).length

/-- The messages below the offset once the query has been appended. -/
def settledQuery (s : LLMInference) (n : ℕ) : ℕ := if s.storeChats then n else 0

theorem appendQuery_settled (h : Settled C s n) (query : CString) :
    settledQuery s n ≤ (s.appendQuery query).messages.length ∧
      (s.appendQuery query).prevLen =
        (C.render ((s.appendQuery query).messages.take (settledQuery s n)) false).length := by
  rw [appendQuery_messages]
  unfold settledQuery appendQuery
  cases hstore : s.storeChats with
  | true =>
      obtain ⟨hle, hprev⟩ := h hstore
      rw [if_pos rfl, List.take_append_of_le_length hle, List.length_append]
      exact ⟨by omega, hprev⟩
  | false => exact ⟨Nat.zero_le _, rfl⟩

theorem loaded_settled (E : Engine) (C : ChunkTemplate) (storeChats : Bool) :
    Settled C (loaded E storeChats) 0 :=
  fun _ => ⟨Nat.zero_le _, rfl⟩

theorem Settled.append (h : Settled C s n) (hstore : s'.storeChats = s.storeChats)
    (hprev : s'.prevLen = s.prevLen) (added : List Message)
    (hmessages : s'.messages = s.messages ++ added) : Settled C s' n := by
  intro hs'
  obtain ⟨hle, hlen⟩ := h (hstore.symm.trans hs')
  rw [hmessages, hprev, List.take_append_of_le_length hle, List.length_append]
  exact ⟨by omega, hlen⟩

theorem settled_zero (hprev : s.prevLen = 0) : Settled C s 0 := by
  intro _
  exact ⟨Nat.zero_le _, hprev⟩

theorem settled_length (hT : E.chatTemplate = some C.template)
    (hprev : s.prevLen = renderedLen E s.messages) : Settled C s s.messages.length := by
  intro _
  rw [List.take_length, hprev]
  simp [renderedLen, hT, ChunkTemplate.template]

@[simp] theorem truncations_appendQuery (s : LLMInference) (query : CString) :
    (s.appendQuery query).truncations = s.truncations := by
  unfold appendQuery
  split <;> rfl

/-- A `start_completion` keeps the offset, or sets it to `0` in the over-length branch. -/
theorem startCompletion_offset (hT : E.chatTemplate = some C.template) (h : Settled C s n)
    (query : CString) :
    ((s.startCompletion E query).2.truncations = s.truncations ∧
        Settled C (s.startCompletion E query).2 n) ∨
      ((s.startCompletion E query).2.truncations ≠ s.truncations ∧
        (s.startCompletion E query).2.prevLen = 0) := by
  have happ := truncations_appendQuery s query
  have hstore : (s.appendQuery query).storeChats = s.storeChats :=
    (appendQuery_frame s query).storeChats
  have hgrown : Settled C (s.appendQuery query) n := by
    intro hs
    have hs₀ : s.storeChats = true := hstore.symm.trans hs
    have hprev := appendQuery_settled h query
    rwa [settledQuery, if_pos hs₀] at hprev
  have hcount : (s.appendQuery query).truncations + 1 ≠ s.truncations := by omega
  have hexit := startCompletion_exit E s query
  generalize (s.startCompletion E query).2 = s' at hexit ⊢
  cases hexit with
  | refused => exact .inl ⟨rfl, h⟩
  | unrendered => exact .inl ⟨happ, hgrown⟩
  | unsent => exact .inl ⟨happ, hgrown⟩
  | whole => exact .inl ⟨happ, hgrown⟩
  | cut hT' _ hagain =>
      obtain rfl : C.template = _ := Option.some.inj (hT.symm.trans hT')
      cases hagain
  | cutUnsent => exact .inr ⟨hcount, rfl⟩
  | shortened => exact .inr ⟨hcount, rfl⟩

theorem startCompletion_settled (hT : E.chatTemplate = some C.template) (h : Settled C s n)
    (query : CString) :
    Settled C (s.startCompletion E query).2 (nextSettled E s n (.startCompletion query)) := by
  simp only [nextSettled]
  rcases startCompletion_offset hT h query with ⟨hsame, hsettled⟩ | ⟨hcut, hzero⟩
  · rw [if_pos hsame]
    exact hsettled
  · rw [if_neg hcut]
    exact settled_zero hzero

theorem call_settled (hT : E.chatTemplate = some C.template) (hacc : Accounted s)
    (h : Settled C s n) (c : Call) : Settled C (s.call E c) (nextSettled E s n c) := by
  cases c with
  | addChatMessage message role => exact h.append rfl rfl _ (appendMessage_eq _ _ _)
  | startCompletion query => exact startCompletion_settled hT h query
  | completionLoop d =>
      obtain ⟨batch, response, currToken, kvCache, decodeCalls, draws, heq⟩ :=
        completionLoop_fields E s d
      rw [call, heq]
      exact h
  | stopCompletion =>
      rw [call, nextSettled]
      apply settled_length hT
      rw [stopCompletion_eq E s hacc.model hacc.ctx]
  | cancelCompletion =>
      rw [call, nextSettled]
      apply settled_length hT
      rw [cancelCompletion_eq E s hacc.model hacc.ctx]

theorem run_settled (hT : E.chatTemplate = some C.template) (hacc : Accounted s)
    (h : Settled C s n) (calls : List Call) :
    Settled C (s.run E calls) (settledAfter E s n calls) := by
  induction calls generalizing s n with
  | nil => exact h
  | cons c calls ih => exact ih (call_accounted hacc E c) (call_settled hT hacc h c)

/-! ## Bounds and text -/

theorem constructions_sound (hT : E.chatTemplate = some C.template) (h : Settled C s n)
    (query : CString) : ∀ c ∈ constructions E s query, c.Sound C := by
  obtain ⟨hle, hprev⟩ := appendQuery_settled h query
  unfold constructions
  split
  · simp
  simp only [hT]
  split
  · simp
  rename_i newLen formatted hformat
  obtain ⟨rfl, hwithin, hrendered⟩ := formatMessages_rendered hformat
  have hprompt : (⟨(s.appendQuery query).messages, (s.appendQuery query).prevLen,
      (C.render (s.appendQuery query).messages true).length, formatted⟩ :
        Construction).Sound C := by
    refine ⟨?_, hwithin, hrendered⟩
    rw [hprev]
    exact C.render_take_length_le _ _
  split
  · simpa using hprompt
  split
  · split
    · simpa using hprompt
    · rename_i newLen' formatted' hagain
      obtain ⟨-, hwithin', hrendered'⟩ :=
        applyTemplate_rendered (truncateMessages_sublist _) hwithin hagain
      have hfinal : (⟨truncateMessages (s.appendQuery query).messages, 0, newLen', formatted'⟩ :
          Construction).Sound C := ⟨Nat.zero_le _, hwithin', hrendered'⟩
      simp [hprompt, hfinal]
  · simpa using hprompt

/-- Where `start_completion` can meet a range that is not one. -/
theorem startCompletion_range_cases (h : (s.startCompletion E query).1 = .error .iteratorRange) :
    (query.isEmpty || !s.model || !s.ctx || !s.sampler) = false ∧
      ∃ T newLen formatted, E.chatTemplate = some T ∧
        formatMessages T (s.appendQuery query).messages (s.appendQuery query).formatted =
          some (newLen, formatted) ∧
        (slice formatted (s.appendQuery query).prevLen newLen = none ∨
          ∃ promptTokens newLen' formatted',
            (slice formatted (s.appendQuery query).prevLen newLen).bind E.commonTokenize =
              some promptTokens ∧
            (promptTokens.length : ℤ) > E.nCtx - 800 ∧
            applyTemplate T (truncateMessages (s.appendQuery query).messages) true formatted =
              some (newLen', formatted') ∧
            slice formatted' 0 newLen' = none) := by
  unfold startCompletion at h
  split at h
  · cases h
  rename_i hquery
  split at h
  · cases h
  rename_i hloaded
  have hpassed : (query.isEmpty || !s.model || !s.ctx || !s.sampler) = false := by
    simp only [Bool.not_eq_true, Bool.or_eq_false_iff] at hquery hloaded ⊢
    exact ⟨⟨⟨hquery, hloaded.1.1⟩, hloaded.1.2⟩, hloaded.2⟩
  simp only at h
  split at h
  · cases h
  rename_i T hT
  split at h
  · cases h
  rename_i newLen formatted hformat
  refine ⟨hpassed, T, newLen, formatted, hT, hformat, ?_⟩
  split at h
  · rename_i hslice
    exact .inl hslice
  rename_i prompt hslice
  split at h
  · cases h
  rename_i promptTokens htok
  split at h
  · rename_i hlong
    split at h
    · cases h
    rename_i newLen' formatted' hagain
    unfold finishStart at h
    split at h
    · rename_i hslice'
      refine .inr ⟨promptTokens, newLen', formatted', ?_, hlong, hagain, hslice'⟩
      rw [hslice]
      exact htok
    · split at h <;> cases h
  · unfold finishStart at h
    split at h
    · rename_i hslice'
      exact .inl hslice'
    · split at h <;> cases h

theorem constructions_of_iteratorRange
    (h : (s.startCompletion E query).1 = .error .iteratorRange) :
    ∃ c ∈ constructions E s query, slice c.formatted c.prevLen c.newLen = none := by
  obtain ⟨hpassed, T, newLen, formatted, hT, hformat, hrange⟩ := startCompletion_range_cases h
  unfold constructions
  simp only [hpassed, Bool.false_eq_true, if_false, hT, hformat]
  rcases hrange with hslice | ⟨promptTokens, newLen', formatted', htok, hlong, hagain, hslice'⟩
  · rw [hslice]
    exact ⟨_, List.mem_singleton_self _, hslice⟩
  · simp only [htok, hlong, if_true, hagain]
    exact ⟨_, List.mem_cons_of_mem _ (List.mem_singleton_self _), hslice'⟩

theorem startCompletion_in_range (hT : E.chatTemplate = some C.template) (h : Settled C s n)
    (query : CString) : (s.startCompletion E query).1 ≠ .error .iteratorRange := by
  intro herror
  obtain ⟨c, hc, hslice⟩ := constructions_of_iteratorRange herror
  have hsound := constructions_sound hT h query c hc
  rw [slice, if_pos ⟨hsound.ordered, hsound.within⟩] at hslice
  cases hslice

/-- The text of the batch is the rendering of what is not settled yet. -/
theorem startCompletion_text (hT : E.chatTemplate = some C.template) (h : Settled C s n)
    (hstart : s.startCompletion E query = (.ok (), s')) :
    E.commonTokenize (C.render
        (s'.messages.drop (settledQuery s (nextSettled E s n (.startCompletion query)))) true) =
      some s'.batchTokens := by
  have happ := truncations_appendQuery s query
  simp only [nextSettled, hstart]
  cases startCompletion_ok hstart with
  | @whole T newLen buf prompt tokens hT' hformat hslice htok hfits =>
      obtain rfl : C.template = T := Option.some.inj (hT.symm.trans hT')
      obtain ⟨-, -, hrendered⟩ := formatMessages_rendered hformat
      obtain ⟨-, -, rfl⟩ := slice_eq_some_iff.mp hslice
      obtain ⟨-, hprev⟩ := appendQuery_settled h query
      rw [hrendered, hprev, C.render_drop] at htok
      rw [batchLocal_batchTokens, ← htok]
      split
      · rfl
      · rename_i hcut
        exact absurd happ hcut
  | @shortened T newLen buf newLen' buf' prompt tokens prompt' tokens' hT' hformat hslice htok
      hlong hagain hslice' htok' =>
      obtain rfl : C.template = T := Option.some.inj (hT.symm.trans hT')
      obtain ⟨-, hwithin, -⟩ := formatMessages_rendered hformat
      obtain ⟨hlen, -, -⟩ := formatMessages_rendered hformat
      rw [hlen] at hwithin
      obtain ⟨-, -, hrendered⟩ :=
        applyTemplate_rendered (truncateMessages_sublist _) hwithin hagain
      obtain ⟨-, -, rfl⟩ := slice_eq_some_iff.mp hslice'
      have hcount : (s.appendQuery query).truncations + 1 ≠ s.truncations := by omega
      have hnone : settledQuery s 0 = 0 := ite_self 0
      rw [hrendered, List.drop_zero] at htok'
      rw [batchLocal_batchTokens, ← htok']
      split
      · rename_i hsame
        exact absurd hsame hcount
      · rw [hnone, List.drop_zero]
        rfl

/-- With a chunked template, in every state of a run on a loaded instance, a
`start_completion` makes its constructions within the buffer and on the current rendering,
and the text it tokenizes into the batch is the rendering of the messages added since the
last stop or cancel: of all messages before the first of them, without stored chats, and
after an over-length branch. -/
theorem promptSlices_sound (E : Engine) (C : ChunkTemplate) (storeChats : Bool)
    (calls : List Call) (query : CString) (hT : E.chatTemplate = some C.template) :
    (∀ c ∈ constructions E ((loaded E storeChats).run E calls) query, c.Sound C) ∧
      (((loaded E storeChats).run E calls).startCompletion E query).1 ≠
        .error .iteratorRange ∧
      ∀ s', ((loaded E storeChats).run E calls).startCompletion E query = (.ok (), s') →
        E.commonTokenize (C.render (s'.messages.drop
            (settledQuery ((loaded E storeChats).run E calls)
              (settledAfter E (loaded E storeChats) 0 (calls ++ [.startCompletion query]))))
          true) = some s'.batchTokens := by
  have hsettled := run_settled hT (loaded_accounted E storeChats)
    (loaded_settled E C storeChats) calls
  refine ⟨constructions_sound hT hsettled query, startCompletion_in_range hT hsettled query, ?_⟩
  intro s' hstart
  rw [settledAfter_concat]
  exact startCompletion_text hT hsettled hstart

theorem promptSlices_sound_cancelled :
    ((((loaded (ByteEngine.engine 1024) true).run (ByteEngine.engine 1024)
      [.startCompletion (.lit "hi"), .completionLoop (.ok 72), .cancelCompletion]).startCompletion
        (ByteEngine.engine 1024) (.lit "yo")).1 ≠ .error .iteratorRange) :=
  (promptSlices_sound (ByteEngine.engine 1024) chatml true
    [.startCompletion (.lit "hi"), .completionLoop (.ok 72), .cancelCompletion] (.lit "yo")
    rfl).2.1

end LLMInference

end SmollChat
