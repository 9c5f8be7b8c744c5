import SmollChat.Model.LLMInference

/-! Computation rules for the operations of the native class. -/

namespace SmollChat.LLMInference

/-! ## Stored messages -/

/-- What `add_chat_message` adds to the list: nothing for an empty text or role,
otherwise the text cut to the limit. -/
def storedMessage (message role : CString) : List Message :=
  if message.isEmpty || role.isEmpty then [] else [⟨role, message.take maxMessageLength⟩]

theorem storedMessage_eq {message role : CString} (hmessage : message ≠ .empty)
    (hrole : role ≠ .empty) :
    storedMessage message role = [⟨role, message.take maxMessageLength⟩] := by
  rw [storedMessage, CString.isEmpty_eq_false_iff.mpr hmessage,
    CString.isEmpty_eq_false_iff.mpr hrole]
  rfl

theorem storedMessage_user {query : CString} (h : query ≠ .empty) :
    storedMessage query (.lit "user") = [⟨.lit "user", query.take maxMessageLength⟩] :=
  storedMessage_eq h (by decide)

theorem appendMessage_eq (messages : List Message) (message role : CString) :
    appendMessage messages message role = messages ++ storedMessage message role := by
  unfold appendMessage storedMessage
  split
  · simp
  · split
    · rfl
    · rename_i hlen
      have htake : message.take maxMessageLength = message := by
        ext1
        exact List.take_of_length_le (by omega)
      rw [htake]

def storedReply (storeChats : Bool) (response : Bytes) : List Message :=
  if storeChats && !(cleanResponse response).isEmpty then
    storedMessage (.cStr (cleanResponse response)) (.lit "assistant")
  else []

@[simp] theorem storedReply_nil (storeChats : Bool) : storedReply storeChats [] = [] := by
  cases storeChats <;> rfl

theorem stopCompletion_eq (E : Engine) (s : LLMInference) (hm : s.model = true)
    (hc : s.ctx = true) :
    s.stopCompletion E = { s with
      messages := s.messages ++ storedReply s.storeChats s.response
      response := []
      prevLen := renderedLen E (s.messages ++ storedReply s.storeChats s.response) } := by
  unfold stopCompletion storedReply
  simp only [hm, hc, Bool.not_true, Bool.or_self, Bool.false_eq_true, if_false]
  split
  · simp [addChatMessage, appendMessage_eq, hm, hc]
  · simp [hm, hc]

theorem cancelCompletion_eq (E : Engine) (s : LLMInference) (hm : s.model = true)
    (hc : s.ctx = true) :
    s.cancelCompletion E = { s with response := [], prevLen := renderedLen E s.messages } := by
  simp [cancelCompletion, hm, hc]

/-- Without a model or a context neither a stop nor a cancel does anything. -/
theorem stopCompletion_of_unloaded {E : Engine} {s : LLMInference}
    (h : ¬(s.model = true ∧ s.ctx = true)) : s.stopCompletion E = s := by
  have hcond : (!s.model || !s.ctx) = true := by simpa [imp_iff_not_or] using h
  exact if_pos hcond

theorem cancelCompletion_of_unloaded {E : Engine} {s : LLMInference}
    (h : ¬(s.model = true ∧ s.ctx = true)) : s.cancelCompletion E = s := by
  have hcond : (!s.model || !s.ctx) = true := by simpa [imp_iff_not_or] using h
  exact if_pos hcond

/-! ## Buffers -/

@[simp] theorem strncpy_length (buf src : Bytes) : (strncpy buf src).length = buf.length := by
  simp only [strncpy, List.length_append, List.length_take, List.length_replicate]
  omega

theorem strncpy_take (buf : Bytes) (src : CString) (hle : src.bytes.length ≤ buf.length) :
    (strncpy buf src.bytes).take src.bytes.length = src.bytes := by
  simp [strncpy, List.take_of_length_le hle]

theorem slice_eq_some_iff {buf part : Bytes} {start stop : ℕ} :
    slice buf start stop = some part ↔
      start ≤ stop ∧ stop ≤ buf.length ∧ (buf.take stop).drop start = part := by
  unfold slice
  split
  · rename_i h
    simp [h]
  · rename_i h
    constructor
    · intro he
      cases he
    · rintro ⟨hle, hstop, -⟩
      exact absurd ⟨hle, hstop⟩ h

/-- A successful first rendering: its length, a buffer that holds it, and the copy. -/
theorem formatMessages_spec {T : Template} {messages : List Message} {buf out : Bytes} {n : ℕ}
    (h : formatMessages T messages buf = some (n, out)) :
    ∃ r, T messages true = some r ∧ n = r.length ∧ n ≤ out.length ∧
      out = strncpy out r := by
  unfold formatMessages applyTemplate at h
  cases hT : T messages true with
  | none => simp [hT] at h
  | some r =>
      simp only [hT, Option.map_some] at h
      have hidem (b : Bytes) : strncpy (strncpy b r) r = strncpy b r := by
        rw [strncpy, strncpy_length, ← strncpy]
      split at h
      · rename_i hgt
        obtain ⟨rfl, rfl⟩ : r.length = n ∧ strncpy _ r = out := by simpa using h
        refine ⟨r, rfl, rfl, ?_, (hidem _).symm⟩
        simp at hgt ⊢
        omega
      · rename_i hle
        obtain ⟨rfl, rfl⟩ : r.length = n ∧ strncpy _ r = out := by simpa using h
        exact ⟨r, rfl, rfl, by simpa using hle, (hidem _).symm⟩

/-! ## The batch -/

@[simp] theorem batchLocal_batchTokens (s : LLMInference) (tokens : List Token) :
    (s.batchLocal tokens).batchTokens = tokens := by
  simp [batchLocal, batchTokens]

/-! ## Starting a completion -/

/-- The two ways `start_completion` returns normally: with the slice of the rendering
after `prev_len`, or with the whole rendering of the shortened list. -/
inductive Started (E : Engine) (s : LLMInference) (query : CString) : LLMInference → Prop where
  | whole {T n buf prompt tokens} :
      E.chatTemplate = some T →
      formatMessages T (s.appendQuery query).messages (s.appendQuery query).formatted =
        some (n, buf) →
      slice buf (s.appendQuery query).prevLen n = some prompt →
      E.commonTokenize prompt = some tokens →
      (tokens.length : ℤ) ≤ E.nCtx - 800 →
      Started E s query ({ s.appendQuery query with formatted := buf }.batchLocal tokens)
  | shortened {T n buf n' buf' prompt tokens prompt' tokens'} :
      E.chatTemplate = some T →
      formatMessages T (s.appendQuery query).messages (s.appendQuery query).formatted =
        some (n, buf) →
      slice buf (s.appendQuery query).prevLen n = some prompt →
      E.commonTokenize prompt = some tokens →
      (tokens.length : ℤ) > E.nCtx - 800 →
      applyTemplate T (truncateMessages (s.appendQuery query).messages) true buf =
        some (n', buf') →
      slice buf' 0 n' = some prompt' →
      E.commonTokenize prompt' = some tokens' →
      Started E s query ({ s.appendQuery query with
        messages := truncateMessages (s.appendQuery query).messages
        formatted := buf'
        prevLen := 0
        truncations := (s.appendQuery query).truncations + 1 }.batchLocal tokens')

theorem finishStart_ok {E : Engine} {s s' : LLMInference} {n : ℕ}
    (h : finishStart E s n = (.ok (), s')) :
    ∃ prompt tokens, slice s.formatted s.prevLen n = some prompt ∧
      E.commonTokenize prompt = some tokens ∧ s' = s.batchLocal tokens := by
  unfold finishStart at h
  split at h
  · simp at h
  · rename_i prompt hslice
    split at h
    · simp at h
    · rename_i tokens htok
      exact ⟨prompt, tokens, hslice, htok, by simpa using h.symm⟩

theorem startCompletion_ok {E : Engine} {s s' : LLMInference} {query : CString}
    (h : s.startCompletion E query = (.ok (), s')) : Started E s query s' := by
  unfold startCompletion at h
  split at h
  · simp at h
  split at h
  · simp at h
  simp only at h
  split at h
  · simp at h
  rename_i T hT
  split at h
  · simp at h
  rename_i n buf hformat
  split at h
  · simp at h
  rename_i prompt hslice
  split at h
  · simp at h
  rename_i tokens htok
  split at h
  · rename_i hlong
    split at h
    · simp at h
    · rename_i n' buf' hagain
      obtain ⟨prompt', tokens', hslice', htok', rfl⟩ := finishStart_ok h
      exact .shortened hT hformat hslice htok hlong hagain hslice' htok'
  · rename_i hfits
    obtain ⟨prompt', tokens', hslice', htok', rfl⟩ := finishStart_ok h
    obtain rfl : prompt = prompt' := Option.some.inj (hslice.symm.trans hslice')
    obtain rfl : tokens = tokens' := Option.some.inj (htok.symm.trans htok')
    exact .whole hT hformat hslice htok (Int.not_lt.mp hfits)

/-- The states `start_completion` leaves, exit by exit. -/
inductive StartExit (E : Engine) (s : LLMInference) (query : CString) : LLMInference → Prop where
  | refused :
      (query.isEmpty || !s.model || !s.ctx || !s.sampler) = true →
      StartExit E s query s
  | unrendered : StartExit E s query (s.appendQuery query)
  | unsent {T n buf} :
      E.chatTemplate = some T →
      formatMessages T (s.appendQuery query).messages (s.appendQuery query).formatted =
        some (n, buf) →
      StartExit E s query { s.appendQuery query with formatted := buf }
  | whole {T n buf prompt tokens} :
      E.chatTemplate = some T →
      formatMessages T (s.appendQuery query).messages (s.appendQuery query).formatted =
        some (n, buf) →
      slice buf (s.appendQuery query).prevLen n = some prompt →
      E.commonTokenize prompt = some tokens →
      StartExit E s query ({ s.appendQuery query with formatted := buf }.batchLocal tokens)
  | cut {T n buf} :
      E.chatTemplate = some T →
      formatMessages T (s.appendQuery query).messages (s.appendQuery query).formatted =
        some (n, buf) →
      applyTemplate T (truncateMessages (s.appendQuery query).messages) true buf = none →
      StartExit E s query { s.appendQuery query with
        messages := truncateMessages (s.appendQuery query).messages
        formatted := buf
        truncations := (s.appendQuery query).truncations + 1 }
  | cutUnsent {T n buf n' buf'} :
      E.chatTemplate = some T →
      formatMessages T (s.appendQuery query).messages (s.appendQuery query).formatted =
        some (n, buf) →
      applyTemplate T (truncateMessages (s.appendQuery query).messages) true buf =
        some (n', buf') →
      StartExit E s query { s.appendQuery query with
        messages := truncateMessages (s.appendQuery query).messages
        formatted := buf'
        prevLen := 0
        truncations := (s.appendQuery query).truncations + 1 }
  | shortened {T n buf n' buf' prompt tokens} :
      E.chatTemplate = some T →
      formatMessages T (s.appendQuery query).messages (s.appendQuery query).formatted =
        some (n, buf) →
      applyTemplate T (truncateMessages (s.appendQuery query).messages) true buf =
        some (n', buf') →
      slice buf' 0 n' = some prompt →
      E.commonTokenize prompt = some tokens →
      StartExit E s query ({ s.appendQuery query with
        messages := truncateMessages (s.appendQuery query).messages
        formatted := buf'
        prevLen := 0
        truncations := (s.appendQuery query).truncations + 1 }.batchLocal tokens)

theorem finishStart_cases (E : Engine) (s : LLMInference) (n : ℕ) :
    (finishStart E s n).2 = s ∨ ∃ prompt tokens, slice s.formatted s.prevLen n = some prompt ∧
      E.commonTokenize prompt = some tokens ∧ (finishStart E s n).2 = s.batchLocal tokens := by
  unfold finishStart
  split
  · exact .inl rfl
  rename_i prompt hslice
  split
  · exact .inl rfl
  · rename_i tokens htok
    exact .inr ⟨prompt, tokens, hslice, htok, rfl⟩

theorem startCompletion_exit (E : Engine) (s : LLMInference) (query : CString) :
    StartExit E s query (s.startCompletion E query).2 := by
  unfold startCompletion
  split
  · rename_i hempty
    exact .refused (by simp [hempty])
  split
  · rename_i hloaded
    exact .refused (by simpa [or_assoc] using Or.inr hloaded)
  simp only
  split
  · exact .unrendered
  rename_i T hT
  split
  · exact .unrendered
  rename_i n buf hformat
  split
  · exact .unsent hT hformat
  split
  · exact .unsent hT hformat
  split
  · split
    · rename_i hagain
      exact .cut hT hformat hagain
    · rename_i n' buf' hagain
      rcases finishStart_cases E { s.appendQuery query with
        messages := truncateMessages (s.appendQuery query).messages
        truncations := (s.appendQuery query).truncations + 1
        formatted := buf'
        prevLen := 0 } n' with heq | ⟨prompt, tokens, hslice, htok, heq⟩
      · rw [heq]
        exact .cutUnsent hT hformat hagain
      · rw [heq]
        exact .shortened hT hformat hagain hslice htok
  · rcases finishStart_cases E { s.appendQuery query with formatted := buf } n with
      heq | ⟨prompt, tokens, hslice, htok, heq⟩
    · rw [heq]
      exact .unsent hT hformat
    · rw [heq]
      exact .whole hT hformat hslice htok

/-- The tokens that a `start_completion` hands to the next `completion_loop`; `none` where
it throws. -/
def sentTokens (E : Engine) (s : LLMInference) (query : CString) : Option (List Token) :=
  match s.startCompletion E query with
  | (.ok (), s') => some s'.batchTokens
  | (.error _, _) => none

theorem startCompletion_whole {E : Engine} {s s' : LLMInference} {query : CString}
    (h : s.startCompletion E query = (.ok (), s')) (hstore : s.storeChats = true)
    (hwhole : s'.truncations = s.truncations) :
    s'.messages = s.messages ++ storedMessage query (.lit "user") ∧ s'.response = s.response ∧
      s'.model = s.model ∧ s'.ctx = s.ctx ∧ s'.storeChats = true := by
  cases startCompletion_ok h with
  | whole =>
      simp [batchLocal, appendQuery, addChatMessage, appendMessage_eq, hstore]
  | shortened => simp [batchLocal, appendQuery, addChatMessage, hstore] at hwhole

/-! ## Generating -/

/-- The tests of `completion_loop` before its `llama_decode`. -/
structure ReadyToDecode (E : Engine) (s : LLMInference) : Prop where
  ctx : s.ctx = true
  model : s.model = true
  sampler : s.sampler = true
  fits : (s.batch.nTokens : ℤ) ≤ E.nCtx - 300
  token : s.batch.token ≠ .null
  nonempty : 0 < s.batch.nTokens

def afterDraw (s : LLMInference) (d : Draw) : LLMInference :=
  { s.llamaDecode d.decodeResult with currToken := d.sampled, draws := s.draws ++ [d.sampled] }

theorem completionLoop_of_ready {E : Engine} {s : LLMInference} (h : ReadyToDecode E s)
    (d : Draw) :
    s.completionLoop E d =
      if d.decodeResult < 0 then (.error .decodeError, s.llamaDecode d.decodeResult)
      else if !d.logits then (.error .logitsError, s.llamaDecode d.decodeResult)
      else handleToken E (s.afterDraw d) d := by
  obtain ⟨hctx, hmodel, hsampler, hfits, htoken, hpos⟩ := h
  unfold completionLoop
  simp only [hctx, hmodel, hsampler, Bool.not_true, Bool.or_self, Bool.false_eq_true, if_false,
    Int.not_lt.mpr hfits, htoken, false_or, Nat.not_le.mpr hpos]
  rfl

/-- A call that fails one of the tests answers an error and changes nothing. -/
theorem completionLoop_of_not_ready {E : Engine} {s : LLMInference} (h : ¬ReadyToDecode E s)
    (d : Draw) : ∃ e, s.completionLoop E d = (.error e, s) := by
  unfold completionLoop
  split
  · exact ⟨_, rfl⟩
  rename_i hloaded
  simp only
  split
  · exact ⟨_, rfl⟩
  rename_i hfits
  split
  · exact ⟨_, rfl⟩
  rename_i hbatch
  simp only [Bool.not_eq_true, Bool.or_eq_false_iff, Bool.not_eq_false'] at hloaded
  rw [not_or, Nat.not_le] at hbatch
  exact absurd ⟨hloaded.1.1, hloaded.1.2, hloaded.2, Int.not_lt.mp hfits, hbatch.1, hbatch.2⟩ h

/-- The text a result adds to the response. -/
def generated : LoopResult → Bytes
  | .piece text => text
  | .filtered => []
  | .eog => []
  | .error _ => []

/-- `completion_loop` leaves the prompt construction and the list alone and adds to the
response what it returns. -/
structure LoopFrame (s s' : LLMInference) (r : LoopResult) : Prop where
  ctx : s'.ctx = s.ctx
  model : s'.model = s.model
  sampler : s'.sampler = s.sampler
  storeChats : s'.storeChats = s.storeChats
  messages : s'.messages = s.messages
  response : s'.response = s.response ++ generated r

inductive TokenExit (E : Engine) (s : LLMInference) : LoopResult → LLMInference → Prop where
  | refused {e} (inContext : e ≠ .contextExceeded) : TokenExit E s (.error e) s
  | eog : TokenExit E s .eog s
  | filtered (format : isFormatPiece (E.commonTokenToPiece s.currToken) = true) :
      TokenExit E s .filtered { s with batch := ⟨.currToken, 1⟩ }
  | piece (text : isFormatPiece (E.commonTokenToPiece s.currToken) = false) :
      TokenExit E s (.piece (E.commonTokenToPiece s.currToken)) { s with
        response := s.response ++ E.commonTokenToPiece s.currToken
        batch := ⟨.currToken, 1⟩ }

theorem handleToken_exit (E : Engine) (s : LLMInference) (d : Draw) :
    ∃ r s', handleToken E s d = (r, s') ∧ TokenExit E s r s' := by
  unfold handleToken
  split
  · exact ⟨_, _, rfl, .refused (by simp)⟩
  split
  · exact ⟨_, _, rfl, .eog⟩
  split
  · exact ⟨_, _, rfl, .refused (by simp)⟩
  split
  · exact ⟨_, _, rfl, .refused (by simp)⟩
  simp only
  split
  · rename_i hformat
    exact ⟨_, _, rfl, .filtered hformat⟩
  · rename_i htext
    exact ⟨_, _, rfl, .piece (by simpa using htext)⟩

inductive LoopExit (E : Engine) (s : LLMInference) (d : Draw) : LoopResult → LLMInference → Prop
    where
  | notReady {e} (fails : ¬ReadyToDecode E s) : LoopExit E s d (.error e) s
  | undrawn {e} (ready : ReadyToDecode E s) (fails : d.decodeResult < 0 ∨ d.logits = false)
      (inContext : e ≠ .contextExceeded) :
      LoopExit E s d (.error e) (s.llamaDecode d.decodeResult)
  | drawn {r s'} (ready : ReadyToDecode E s) (nonneg : 0 ≤ d.decodeResult)
      (logits : d.logits = true) (token : TokenExit E (s.afterDraw d) r s') : LoopExit E s d r s'

theorem completionLoop_exit (E : Engine) (s : LLMInference) (d : Draw) :
    ∃ r s', s.completionLoop E d = (r, s') ∧ LoopExit E s d r s' := by
  by_cases hready : ReadyToDecode E s
  · rw [completionLoop_of_ready hready]
    split
    · rename_i hneg
      exact ⟨_, _, rfl, .undrawn hready (.inl hneg) (by simp)⟩
    rename_i hnonneg
    split
    · rename_i hlogits
      exact ⟨_, _, rfl, .undrawn hready (.inr (by simpa using hlogits)) (by simp)⟩
    · rename_i hlogits
      obtain ⟨r, s', heq, htoken⟩ := handleToken_exit E (s.afterDraw d) d
      exact ⟨r, s', heq, .drawn hready (Int.not_lt.mp hnonneg) (by simpa using hlogits) htoken⟩
  · obtain ⟨e, he⟩ := completionLoop_of_not_ready hready d
    exact ⟨_, _, he, .notReady hready⟩

theorem completionLoop_fields (E : Engine) (s : LLMInference) (d : Draw) :
    ∃ batch response currToken kvCache decodeCalls draws,
      (s.completionLoop E d).2 = { s with
        batch := batch
        response := response
        currToken := currToken
        kvCache := kvCache
        decodeCalls := decodeCalls
        draws := draws } := by
  obtain ⟨r, s', heq, hexit⟩ := completionLoop_exit E s d
  rw [heq]
  cases hexit with
  | notReady => exact ⟨s.batch, s.response, s.currToken, s.kvCache, s.decodeCalls, s.draws, rfl⟩
  | undrawn => exact ⟨s.batch, s.response, s.currToken, _, _, s.draws, rfl⟩
  | drawn _ _ _ htoken => cases htoken <;> exact ⟨_, _, _, _, _, _, rfl⟩

theorem completionLoop_frame (E : Engine) (s : LLMInference) (d : Draw) :
    LoopFrame s (s.completionLoop E d).2 (s.completionLoop E d).1 := by
  obtain ⟨r, s', heq, hexit⟩ := completionLoop_exit E s d
  rw [heq]
  cases hexit with
  | notReady | undrawn => exact ⟨rfl, rfl, rfl, rfl, rfl, (List.append_nil _).symm⟩
  | drawn _ _ _ htoken =>
      cases htoken with
      | refused | eog | filtered =>
          exact ⟨rfl, rfl, rfl, rfl, rfl, (List.append_nil _).symm⟩
      | piece => exact ⟨rfl, rfl, rfl, rfl, rfl, rfl⟩

/-- The text the user sees of a token. -/
def shown (E : Engine) (token : ℤ) : Bytes :=
  if isFormatPiece (E.commonTokenToPiece token) then [] else E.commonTokenToPiece token

theorem completionLoop_token {E : Engine} {s s' : LLMInference} {d : Draw} {r : LoopResult}
    (h : s.completionLoop E d = (r, s')) (hr : ∀ e, r ≠ .error e) (heog : r ≠ .eog) :
    ReadyToDecode E s ∧ r.text = shown E d.sampled ∧
      s' = { s.afterDraw d with
        response := s.response ++ shown E d.sampled
        batch := ⟨.currToken, 1⟩ } := by
  obtain ⟨r₁, s₁, heq, hexit⟩ := completionLoop_exit E s d
  obtain ⟨rfl, rfl⟩ := Prod.mk.inj (heq.symm.trans h)
  cases hexit with
  | notReady | undrawn => exact absurd rfl (hr _)
  | drawn hready _ _ htoken =>
      refine ⟨hready, ?_⟩
      cases htoken with
      | refused => exact absurd rfl (hr _)
      | eog => exact absurd rfl heog
      | filtered hformat =>
          have hshown : shown E d.sampled = [] := if_pos hformat
          simp [hshown, LoopResult.text, afterDraw, llamaDecode]
      | piece htext =>
          have hshown : shown E d.sampled = E.commonTokenToPiece d.sampled :=
            if_neg (Bool.eq_false_iff.mp htext)
          simp [hshown, LoopResult.text, afterDraw, llamaDecode]

/-- What a call does that ends the generation: the drawn token stays undecoded. -/
theorem completionLoop_eog {E : Engine} {s s' : LLMInference} {d : Draw}
    (h : s.completionLoop E d = (.eog, s')) :
    ReadyToDecode E s ∧ s' = s.afterDraw d := by
  obtain ⟨r₁, s₁, heq, hexit⟩ := completionLoop_exit E s d
  obtain ⟨rfl, rfl⟩ := Prod.mk.inj (heq.symm.trans h)
  cases hexit with
  | drawn hready _ _ htoken =>
      cases htoken
      exact ⟨hready, rfl⟩

end SmollChat.LLMInference
