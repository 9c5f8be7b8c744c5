import SmollChat.Model.ByteEngine
import SmollChat.Verification.LLMInference.Equations

/-! # Prompting from the cache against prompting afresh

`start_completion` sends only the part of the rendering after `prev_len` and relies on
the KV cache for the rest. The cache grows token by token, `prev_len` is recomputed from
the stored messages; a turn keeps the two in step exactly when the generated tokens
spell the rest of the stored reply's chunk, its end marker included. -/

namespace SmollChat.LLMInference

/-! ## Completed turns -/

/-- A query, the tokens sampled for it and the end-of-generation token after them. -/
structure Turn where
  query : CString
  reply : List ℤ
  eog : ℤ

/-- `completion_loop` for every token of a reply, as long as it answers with text or
filters the token. -/
def generate (E : Engine) : LLMInference → List ℤ → Option LLMInference
  | s, [] => some s
  | s, t :: ts =>
      match s.completionLoop E (.ok t) with
      | (.piece _, s') => generate E s' ts
      | (.filtered, s') => generate E s' ts
      | _ => none

/-- One turn from its `start_completion` to its `stop_completion`; `none` where a call
fails, the over-length branch is taken or the generation does not end in `[EOG]`. -/
def playTurn (E : Engine) (s : LLMInference) (t : Turn) : Option LLMInference :=
  match s.startCompletion E t.query with
  | (.error _, _) => none
  | (.ok _, s₁) =>
      if s₁.truncations = s.truncations then
        (generate E s₁ t.reply).bind fun s₂ =>
          match s₂.completionLoop E (.ok t.eog) with
          | (.eog, s₃) => some (s₃.stopCompletion E)
          | _ => none
      else none

def converse (E : Engine) : LLMInference → List Turn → Option LLMInference
  | s, [] => some s
  | s, t :: ts => (playTurn E s t).bind fun s' => converse E s' ts

/-- A new instance that stores chats, with its history added. -/
def preload (E : Engine) (messages : List Message) : LLMInference :=
  messages.foldl (fun s m => s.addChatMessage m.content m.role) (loaded E true)

/-- Every token run the tokenizer returns spells the tokenized text. -/
def Detokenizes (E : Engine) : Prop :=
  ∀ text tokens, E.commonTokenize text = some tokens → E.text tokens = text

/-- The cached text and the text of the new batch make up the full rendering. -/
def AgreesAt (E : Engine) (C : ChunkTemplate) (s : LLMInference) (query : CString) : Prop :=
  let s' := (s.startCompletion E query).2
  E.text s.kvCache ++ E.text s'.batchTokens = C.render s'.messages true

instance (E : Engine) (C : ChunkTemplate) (s : LLMInference) (query : CString) :
    Decidable (AgreesAt E C s query) :=
  inferInstanceAs (Decidable (_ = _))

/-- Agreement at every `start_completion` of a conversation, the one of `query` last. -/
def AgreesThroughout (E : Engine) (C : ChunkTemplate) (query : CString) :
    LLMInference → List Turn → Prop
  | s, [] => AgreesAt E C s query
  | s, t :: ts => AgreesAt E C s t.query ∧
      ∀ s', playTurn E s t = some s' → AgreesThroughout E C query s' ts

def playable (E : Engine) (messages : List Message) (turns : List Turn) (query : CString) :
    Bool :=
  match converse E (preload E messages) turns with
  | none => false
  | some s =>
      match s.startCompletion E query with
      | (.ok _, s') => s'.truncations == s.truncations
      | (.error _, _) => false

/-- The text of all sampled tokens of a turn, the filtered ones included. -/
def Turn.replyText (E : Engine) (t : Turn) : Bytes := (t.reply.map E.commonTokenToPiece).flatten

def Turn.response (E : Engine) (t : Turn) : Bytes := (t.reply.map (shown E)).flatten

/-- The sampled tokens spell the chunk of the reply that is stored for them, after the
assistant header that opened it. -/
def Turn.Closes (E : Engine) (C : ChunkTemplate) (t : Turn) : Prop :=
  C.header.bytes ++ t.replyText E = C.render (storedReply true (t.response E)) false

instance (E : Engine) (C : ChunkTemplate) (t : Turn) : Decidable (t.Closes E C) :=
  inferInstanceAs (Decidable (_ = _))

end SmollChat.LLMInference

namespace SmollChat

/-! ## Renderings -/

namespace ChunkTemplate

variable (C : ChunkTemplate)

theorem render_append (xs ys : List Message) :
    C.render (xs ++ ys) false = C.render xs false ++ C.render ys false := by
  simp [render]

theorem render_true (xs : List Message) :
    C.render xs true = C.render xs false ++ C.header.bytes := by
  simp [render]

theorem render_nul_free (xs : List Message) (addAss : Bool) : 0 ∉ C.render xs addAss := by
  intro h
  rcases List.mem_append.mp h with h | h
  · obtain ⟨b, hb, h0⟩ := List.mem_flatten.mp h
    obtain ⟨m, -, rfl⟩ := List.mem_map.mp hb
    exact (C.chunk m).nul_free h0
  · split at h
    · exact C.header.nul_free h
    · simp at h

end ChunkTemplate

namespace LLMInference

variable {E : Engine} {C : ChunkTemplate}

/-! ## The state between two turns -/

/-- Between turns: `sent` is the part of the list below `prev_len`, `rest` what was
added since. -/
structure Idle (C : ChunkTemplate) (s : LLMInference) (sent rest : List Message) : Prop where
  model : s.model = true
  ctx : s.ctx = true
  storeChats : s.storeChats = true
  response : s.response = []
  messages : s.messages = sent ++ rest
  prevLen : s.prevLen = (C.render sent false).length

theorem preload_idle (E : Engine) (C : ChunkTemplate) (messages : List Message) :
    (preload E messages).kvCache = [] ∧
      Idle C (preload E messages) [] (preload E messages).messages := by
  suffices h : ∀ s : LLMInference, s.kvCache = [] ∧ Idle C s [] s.messages →
      (messages.foldl (fun s m => s.addChatMessage m.content m.role) s).kvCache = [] ∧
      Idle C (messages.foldl (fun s m => s.addChatMessage m.content m.role) s) []
        (messages.foldl (fun s m => s.addChatMessage m.content m.role) s).messages from
    h (loaded E true) ⟨rfl, ⟨rfl, rfl, rfl, rfl, rfl, rfl⟩⟩
  induction messages with
  | nil => exact fun s h => h
  | cons m messages ih =>
      rintro s ⟨hkv, hs⟩
      exact ih _ ⟨hkv, ⟨hs.model, hs.ctx, hs.storeChats, hs.response, rfl, hs.prevLen⟩⟩

def queryMessage (query : CString) : List Message := storedMessage query (.lit "user")

/-- What a `start_completion` without truncation leaves: the query appended, and a batch
that spells the rendering after `prev_len`. -/
theorem startCompletion_idle (hT : E.chatTemplate = some C.template) (hD : Detokenizes E)
    {s s' : LLMInference} {query : CString} {sent rest : List Message}
    (hs : Idle C s sent rest) (h : s.startCompletion E query = (.ok (), s'))
    (ht : s'.truncations = s.truncations) :
    s'.messages = sent ++ (rest ++ queryMessage query) ∧
      E.text s'.batchTokens = C.render (rest ++ queryMessage query) true ∧
      s'.kvCache = s.kvCache ∧ s'.response = [] ∧ s'.model = true ∧ s'.ctx = true ∧
      s'.storeChats = true := by
  have happ : s.appendQuery query =
      { s with messages := sent ++ (rest ++ queryMessage query) } := by
    simp [appendQuery, hs.storeChats, addChatMessage, appendMessage_eq, hs.messages,
      queryMessage]
  cases startCompletion_ok h with
  | @whole T n buf prompt tokens hT' hformat hslice htok hfits =>
      obtain rfl : C.template = T := Option.some.inj (hT.symm.trans hT')
      obtain ⟨r, hr, rfl, hle, hbuf⟩ := formatMessages_spec hformat
      obtain ⟨-, -, rfl⟩ := slice_eq_some_iff.mp hslice
      rw [happ] at hr
      obtain rfl : C.render (sent ++ (rest ++ queryMessage query)) true = r :=
        Option.some.inj hr
      have hcopy : buf.take (C.render (sent ++ (rest ++ queryMessage query)) true).length =
          C.render (sent ++ (rest ++ queryMessage query)) true := by
        rw [hbuf]
        exact strncpy_take buf ⟨_, C.render_nul_free _ _⟩ hle
      refine ⟨by rw [happ]; rfl, ?_, by rw [happ]; rfl, by rw [happ]; exact hs.response,
        by rw [happ]; exact hs.model, by rw [happ]; exact hs.ctx,
        by rw [happ]; exact hs.storeChats⟩
      rw [batchLocal_batchTokens, hD _ _ htok, hcopy, happ]
      simp only [hs.prevLen]
      rw [C.render_true, C.render_append, C.render_true, List.append_assoc,
        List.drop_left]
  | shortened =>
      rw [happ] at ht
      exact absurd ht (by simp [batchLocal])

theorem generate_cons {s s' : LLMInference} {t : ℤ} {ts : List ℤ}
    (h : generate E s (t :: ts) = some s') :
    generate E { s.afterDraw (.ok t) with
      response := s.response ++ shown E t
      batch := ⟨.currToken, 1⟩ } ts = some s' := by
  rw [generate] at h
  split at h
  · rename_i hloop
    obtain ⟨-, -, rfl⟩ := completionLoop_token hloop (by simp) (by simp)
    exact h
  · rename_i hloop
    obtain ⟨-, -, rfl⟩ := completionLoop_token hloop (by simp) (by simp)
    exact h
  · cases h

/-- Generating tokens moves the batch into the cache and keeps the text of the two
together. -/
theorem generate_spec {s s' : LLMInference} {tokens : List ℤ}
    (h : generate E s tokens = some s') :
    E.text s'.kvCache ++ E.text s'.batchTokens =
        E.text s.kvCache ++ E.text s.batchTokens ++
          (tokens.map E.commonTokenToPiece).flatten ∧
      s'.response = s.response ++ (tokens.map (shown E)).flatten ∧
      s'.messages = s.messages ∧ s'.model = s.model ∧ s'.ctx = s.ctx ∧
      s'.storeChats = s.storeChats := by
  induction tokens generalizing s with
  | nil =>
      obtain rfl : s = s' := by simpa [generate] using h
      simp
  | cons t ts ih =>
      obtain ⟨htext, hresponse, hframe⟩ := ih (generate_cons h)
      refine ⟨?_, ?_, hframe⟩
      · rw [htext]
        simp [afterDraw, llamaDecode, Draw.ok, batchTokens, Engine.text]
      · rw [hresponse]
        simp

/-- What a completed turn leaves: the reply decoded up to its last token and the stored
reply appended to the list. -/
theorem playTurn_idle (hT : E.chatTemplate = some C.template) (hD : Detokenizes E)
    {s s' : LLMInference} {t : Turn} {sent rest : List Message} (hs : Idle C s sent rest)
    (h : playTurn E s t = some s') :
    E.text s'.kvCache = E.text s.kvCache ++ C.render (rest ++ queryMessage t.query) true ++
        t.replyText E ∧
      Idle C s' (sent ++ (rest ++ queryMessage t.query) ++ storedReply true (t.response E)) [] := by
  unfold playTurn at h
  split at h
  · cases h
  rename_i s₁ hstart
  split at h
  · rename_i htrunc
    simp only [Option.bind_eq_some_iff] at h
    obtain ⟨s₂, hgen, h⟩ := h
    split at h
    · rename_i s₃ hloop
      obtain rfl : s₃.stopCompletion E = s' := by simpa using h
      obtain ⟨hmsgs, hbatch, hkv, hresp, hmodel, hctx, hstore⟩ :=
        startCompletion_idle hT hD hs hstart htrunc
      obtain ⟨htext, hresp₂, hmsgs₂, hmodel₂, hctx₂, hstore₂⟩ := generate_spec hgen
      obtain ⟨-, rfl⟩ := completionLoop_eog hloop
      rw [stopCompletion_eq E (s₂.afterDraw (.ok t.eog)) (hmodel₂.trans hmodel) (hctx₂.trans hctx)]
      have hreply : storedReply s₂.storeChats s₂.response = storedReply true (t.response E) := by
        rw [hstore₂, hstore, hresp₂, hresp]
        rfl
      refine ⟨?_, ⟨hmodel₂.trans hmodel, hctx₂.trans hctx, hstore₂.trans hstore, rfl, ?_, ?_⟩⟩
      · simpa [afterDraw, llamaDecode, Draw.ok, hkv, hbatch, Turn.replyText] using htext
      · simp [afterDraw, llamaDecode, hreply, hmsgs₂, hmsgs]
      · simp [afterDraw, llamaDecode, renderedLen, hT, ChunkTemplate.template, hreply, hmsgs₂,
          hmsgs]
    · cases h
  · cases h

/-! ## Agreement -/

/-- The cache holds exactly the rendering below `prev_len`. -/
def Synced (E : Engine) (C : ChunkTemplate) (s : LLMInference) (sent : List Message) : Prop :=
  E.text s.kvCache = C.render sent false

theorem agreesAt_iff_synced (hT : E.chatTemplate = some C.template) (hD : Detokenizes E)
    {s s' : LLMInference} {query : CString} {sent rest : List Message}
    (hs : Idle C s sent rest) (h : s.startCompletion E query = (.ok (), s'))
    (ht : s'.truncations = s.truncations) :
    AgreesAt E C s query ↔ Synced E C s sent := by
  obtain ⟨hmsgs, hbatch, -⟩ := startCompletion_idle hT hD hs h ht
  unfold AgreesAt Synced
  simp only [h]
  rw [hmsgs, hbatch, C.render_true, C.render_true, C.render_append sent, List.append_assoc,
    List.append_cancel_right_eq]

/-- A turn that begins in step ends in step exactly when its reply closes its chunk. -/
theorem playTurn_synced (hT : E.chatTemplate = some C.template) (hD : Detokenizes E)
    {s s' : LLMInference} {t : Turn} {sent rest : List Message} (hs : Idle C s sent rest)
    (hsync : Synced E C s sent) (h : playTurn E s t = some s') :
    Synced E C s'
      (sent ++ (rest ++ queryMessage t.query) ++ storedReply true (t.response E)) ↔
      t.Closes E C := by
  obtain ⟨hkv, -⟩ := playTurn_idle hT hD hs h
  unfold Synced Turn.Closes
  rw [hkv, hsync, C.render_append, C.render_append, C.render_true]
  simp only [List.append_assoc, List.append_cancel_left_eq]

theorem playTurn_start {s s' : LLMInference} {t : Turn} (h : playTurn E s t = some s') :
    ∃ s₁, s.startCompletion E t.query = (.ok (), s₁) ∧ s₁.truncations = s.truncations := by
  unfold playTurn at h
  split at h
  · cases h
  · rename_i s₁ hstart
    split at h
    · exact ⟨s₁, hstart, ‹_›⟩
    · cases h

theorem converse_start {s s' s'' : LLMInference} {turns : List Turn} {query : CString}
    (hturns : converse E s turns = some s') (hstart : s'.startCompletion E query = (.ok (), s''))
    (ht : s''.truncations = s'.truncations) :
    ∃ q s₁, s.startCompletion E q = (.ok (), s₁) ∧ s₁.truncations = s.truncations ∧
      (AgreesThroughout E C query s turns → AgreesAt E C s q) := by
  cases turns with
  | nil =>
      obtain rfl : s = s' := by simpa [converse] using hturns
      exact ⟨query, s'', hstart, ht, fun h => h⟩
  | cons t ts =>
      simp only [converse, Option.bind_eq_some_iff] at hturns
      obtain ⟨s₁, hplay, -⟩ := hturns
      obtain ⟨s₂, h₁, h₂⟩ := playTurn_start hplay
      exact ⟨t.query, s₂, h₁, h₂, fun h => h.1⟩

theorem agreesThroughout_iff_closes (hT : E.chatTemplate = some C.template)
    (hD : Detokenizes E) {turns : List Turn} {query : CString} {s s' s'' : LLMInference}
    {sent rest : List Message} (hs : Idle C s sent rest) (hsync : Synced E C s sent)
    (hturns : converse E s turns = some s')
    (hstart : s'.startCompletion E query = (.ok (), s''))
    (ht : s''.truncations = s'.truncations) :
    AgreesThroughout E C query s turns ↔ ∀ t ∈ turns, t.Closes E C := by
  induction turns generalizing s sent rest with
  | nil =>
      obtain rfl : s = s' := by simpa [converse] using hturns
      simp [AgreesThroughout, agreesAt_iff_synced hT hD hs hstart ht, hsync]
  | cons t ts ih =>
      simp only [converse, Option.bind_eq_some_iff] at hturns
      obtain ⟨s₁, hplay, hrest⟩ := hturns
      obtain ⟨s₂, hstart₂, ht₂⟩ := playTurn_start hplay
      have hfirst := (agreesAt_iff_synced hT hD hs hstart₂ ht₂).mpr hsync
      have hidle := (playTurn_idle hT hD hs hplay).2
      have hstep := playTurn_synced hT hD hs hsync hplay
      simp only [AgreesThroughout, hfirst, true_and, hplay, Option.some.injEq, forall_eq',
        List.forall_mem_cons]
      by_cases hclose : t.Closes E C
      · rw [ih hidle (hstep.mpr hclose) hrest]
        simp [hclose]
      · -- the next `start_completion` already disagrees
        simp only [hclose, false_and, iff_false]
        intro hagree
        obtain ⟨q, s₃, hstart₃, ht₃, hat⟩ := converse_start (C := C) hrest hstart ht
        exact hclose (hstep.mp ((agreesAt_iff_synced hT hD hidle hstart₃ ht₃).mp (hat hagree)))

theorem playable_spec {messages : List Message} {turns : List Turn} {query : CString}
    (h : playable E messages turns query = true) :
    ∃ s s', converse E (preload E messages) turns = some s ∧
      s.startCompletion E query = (.ok (), s') ∧ s'.truncations = s.truncations := by
  unfold playable at h
  split at h
  · cases h
  · rename_i s hturns
    split at h
    · rename_i s' hstart
      exact ⟨s, s', hturns, hstart, by simpa using h⟩
    · cases h

/-- The cached text and the new batch make up the full rendering at every
`start_completion` of a conversation exactly when every completed turn has generated the
rest of its stored chunk. -/
theorem cachedPrompt_agrees_iff (E : Engine) (C : ChunkTemplate)
    (hT : E.chatTemplate = some C.template) (hD : Detokenizes E) (messages : List Message)
    (turns : List Turn) (query : CString) (h : playable E messages turns query = true) :
    AgreesThroughout E C query (preload E messages) turns ↔ ∀ t ∈ turns, t.Closes E C := by
  obtain ⟨s, s', hturns, hstart, ht⟩ := playable_spec h
  obtain ⟨hkv, hidle⟩ := preload_idle E C messages
  have hsync : Synced E C (preload E messages) [] := by
    unfold Synced
    rw [hkv]
    rfl
  exact agreesThroughout_iff_closes hT hD hidle hsync hturns hstart ht

/-- With chatml a turn closes its chunk when the model itself generates the stored text
and then the end marker, as tokens that do not end the generation. -/
theorem closes_chatml_iff (t : Turn) :
    t.Closes E chatml ↔ ∃ m, storedReply true (t.response E) = [m] ∧
      t.replyText E = m.content.bytes ++ (CString.lit "<|im_end|>\n").bytes := by
  have hcases : storedReply true (t.response E) = [] ∨
      ∃ c, storedReply true (t.response E) = [⟨.lit "assistant", c⟩] := by
    unfold storedReply storedMessage
    split
    · split
      · exact .inl rfl
      · exact .inr ⟨_, rfl⟩
    · exact .inl rfl
  unfold Turn.Closes
  rcases hcases with hnone | ⟨c, hsome⟩
  · have hheader : chatml.header.bytes ≠ [] := by decide
    simp [hnone, ChunkTemplate.render, hheader]
  · have hopen : chatml.header.bytes =
        (CString.lit "<|im_start|>" ++ CString.lit "assistant" ++ CString.lit "\n").bytes := by
      decide
    rw [hsome, hopen]
    simp [ChunkTemplate.render, chatml]

def greeting : List Message := [⟨.lit "system", .lit "Be brief."⟩]

def byteReply (s : String) : List ℤ := (ascii s).map fun b => (b.toNat : ℤ)

/-- The agreement holds for a model that spells the end marker byte by byte. -/
theorem cachedPrompt_agrees_spelled :
    AgreesThroughout (ByteEngine.engine 1024) chatml (.lit "ok")
      (preload (ByteEngine.engine 1024) greeting)
      [⟨.lit "hi", byteReply "Hi<|im_end|>\n", 257⟩] :=
  (cachedPrompt_agrees_iff (ByteEngine.engine 1024) chatml rfl
    (fun text tokens h => by
      obtain rfl : ByteEngine.tokens text.length text = tokens := Option.some.inj h
      exact ByteEngine.text_tokens 1024 _ _ le_rfl)
    greeting [⟨.lit "hi", byteReply "Hi<|im_end|>\n", 257⟩] (.lit "ok")
    (by decide +kernel)).mpr (by decide +kernel)

/-- A turn that ends with the end-of-generation token leaves the end marker out of the
cache, so the second prompt does not continue what is cached. -/
theorem cachedPrompt_disagrees :
    playable (ByteEngine.engine 1024) greeting [⟨.lit "hi", byteReply "Hi", 257⟩]
        (.lit "ok") = true ∧
      ¬AgreesThroughout (ByteEngine.engine 1024) chatml (.lit "ok")
        (preload (ByteEngine.engine 1024) greeting)
        [⟨.lit "hi", byteReply "Hi", 257⟩] := by
  refine ⟨by decide +kernel, fun h => ?_⟩
  have hsecond : (playTurn (ByteEngine.engine 1024) (preload (ByteEngine.engine 1024) greeting)
      ⟨.lit "hi", byteReply "Hi", 257⟩).any
        (fun s => !decide (AgreesAt (ByteEngine.engine 1024) chatml s (.lit "ok"))) = true := by
    decide +kernel
  obtain ⟨s, hplay, hat⟩ := Option.any_eq_true _ _ |>.mp hsecond
  exact absurd (h.2 s hplay) (by simpa [AgreesThroughout] using hat)

end LLMInference

end SmollChat
