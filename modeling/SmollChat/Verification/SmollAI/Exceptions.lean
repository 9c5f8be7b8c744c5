import SmollChat.Model.ByteEngine
import SmollChat.Verification.LLMInference.Slices
import SmollChat.Verification.SmollAI.Equations

/-! # C++ exceptions at the JNI boundary

Only the entry point of `load_model` has a handler. `start_completion` throws wherever it
cannot build a prompt, so its failures reach the Java caller as C++ exceptions. -/

namespace SmollChat

namespace LLMInference

/-- What `start_completion` needs: a query, a loaded model, a template that renders the
list with the query to at least `prev_len` bytes, and a tokenizer that accepts the rest of
the rendering. If this is too long, the template must also render the shortened list,
within the buffer as it is, and the tokenizer accept that. -/
def Startable (E : Engine) (s : LLMInference) (query : CString) : Prop :=
  query.isEmpty = false ∧ s.model = true ∧ s.ctx = true ∧ s.sampler = true ∧
    ∃ T newLen buf prompt tokens, E.chatTemplate = some T ∧
      formatMessages T (s.appendQuery query).messages (s.appendQuery query).formatted =
        some (newLen, buf) ∧
      slice buf (s.appendQuery query).prevLen newLen = some prompt ∧
      E.commonTokenize prompt = some tokens ∧
      ((tokens.length : ℤ) > E.nCtx - 800 → ∃ newLen' buf' prompt',
        applyTemplate T (truncateMessages (s.appendQuery query).messages) true buf =
          some (newLen', buf') ∧
        slice buf' 0 newLen' = some prompt' ∧ (E.commonTokenize prompt').isSome)

variable {E : Engine} {s : LLMInference} {query : CString}

theorem startCompletion_validated (h : (s.startCompletion E query).1 = .ok ()) :
    query.isEmpty = false ∧ s.model = true ∧ s.ctx = true ∧ s.sampler = true := by
  unfold startCompletion at h
  split at h
  · cases h
  rename_i hquery
  split at h
  · cases h
  rename_i hpointers
  simp only [Bool.or_eq_true, Bool.not_eq_true', not_or, Bool.not_eq_false] at hpointers
  exact ⟨by simpa only [Bool.not_eq_true] using hquery, hpointers.1.1, hpointers.1.2, hpointers.2⟩

theorem finishStart_of_tokens {n : ℕ} {prompt : Bytes}
    (hslice : slice s.formatted s.prevLen n = some prompt)
    (htok : (E.commonTokenize prompt).isSome) : (finishStart E s n).1 = .ok () := by
  obtain ⟨tokens, htok⟩ := Option.isSome_iff_exists.mp htok
  simp [finishStart, hslice, htok]

theorem startCompletion_ok_iff :
    (s.startCompletion E query).1 = .ok () ↔ Startable E s query := by
  constructor
  · intro h
    obtain ⟨hquery, hm, hc, hsampler⟩ := startCompletion_validated h
    refine ⟨hquery, hm, hc, hsampler, ?_⟩
    obtain ⟨s', hstart⟩ : ∃ s', s.startCompletion E query = (.ok (), s') := ⟨_, Prod.ext h rfl⟩
    cases startCompletion_ok hstart with
    | whole hT hformat hslice htok hfits =>
        exact ⟨_, _, _, _, _, hT, hformat, hslice, htok, fun hlong => by omega⟩
    | shortened hT hformat hslice htok _ hagain hslice' htok' =>
        exact ⟨_, _, _, _, _, hT, hformat, hslice, htok, fun _ =>
          ⟨_, _, _, hagain, hslice', Option.isSome_of_mem htok'⟩⟩
  · rintro ⟨hquery, hm, hc, hsampler, T, newLen, buf, prompt, tokens, hT, hformat, hslice, htok,
      hlong⟩
    unfold startCompletion
    simp only [hquery, hm, hc, hsampler, hT, hformat, hslice, htok, Bool.not_true, Bool.or_self,
      Bool.false_eq_true, if_false]
    by_cases hmany : (tokens.length : ℤ) > E.nCtx - 800
    · obtain ⟨newLen', buf', prompt', hagain, hslice', htok'⟩ := hlong hmany
      simp only [hmany, hagain, if_true]
      exact finishStart_of_tokens hslice' htok'
    · simp only [hmany, if_false]
      apply finishStart_of_tokens hslice
      simp [htok]

/-! ## Chunked templates -/

/-- The engine renders chats in chunks and tokenizes every text. -/
def Accepts (E : Engine) : Prop :=
  (∃ C : ChunkTemplate, E.chatTemplate = some C.template) ∧
    ∀ text, (E.commonTokenize text).isSome

/-- A loaded instance whose offset is the end of a chunk. -/
def Settles (E : Engine) (s : LLMInference) : Prop :=
  Accounted s ∧ ∀ C : ChunkTemplate, E.chatTemplate = some C.template → ∃ n, Settled C s n

theorem loaded_settles (E : Engine) (storeChats : Bool) : Settles E (loaded E storeChats) :=
  ⟨loaded_accounted E storeChats, fun C _ => ⟨0, loaded_settled E C storeChats⟩⟩

theorem Settles.call (h : Settles E s) (c : Call) : Settles E (s.call E c) := by
  refine ⟨call_accounted h.1 E c, fun C hT => ?_⟩
  obtain ⟨n, hsettled⟩ := h.2 C hT
  exact ⟨_, call_settled hT h.1 hsettled c⟩

theorem formatMessages_chunks (C : ChunkTemplate) (messages : List Message) (buf : Bytes) :
    ∃ newLen out, formatMessages C.template messages buf = some (newLen, out) := by
  unfold formatMessages
  simp only [applyTemplate, ChunkTemplate.template, Option.map_some]
  split <;> exact ⟨_, _, rfl⟩

/-- Chunks always render, within the buffer, and the offset lies in the rendering. -/
theorem Settles.startable (h : Settles E s) (hE : Accepts E) (hquery : query.isEmpty = false) :
    Startable E s query := by
  obtain ⟨⟨C, hT⟩, htok⟩ := hE
  obtain ⟨n, hsettled⟩ := h.2 C hT
  obtain ⟨newLen, buf, hformat⟩ :=
    formatMessages_chunks C (s.appendQuery query).messages (s.appendQuery query).formatted
  obtain ⟨hlen, hwithin, -⟩ := formatMessages_rendered hformat
  obtain ⟨-, hprev⟩ := appendQuery_settled hsettled query
  have hle : (s.appendQuery query).prevLen ≤ newLen := by
    rw [hprev, hlen]
    exact C.render_take_length_le _ _
  obtain ⟨tokens, htokens⟩ := Option.isSome_iff_exists.mp
    (htok ((buf.take newLen).drop (s.appendQuery query).prevLen))
  refine ⟨hquery, h.1.model, h.1.ctx, h.1.sampler, C.template, newLen, buf, _, tokens, hT,
    hformat, if_pos ⟨hle, hwithin⟩, htokens, fun _ => ?_⟩
  have hagain : applyTemplate C.template (truncateMessages (s.appendQuery query).messages) true
      buf = some (_, _) := rfl
  obtain ⟨-, hwithin', -⟩ :=
    applyTemplate_rendered (truncateMessages_sublist _) (hlen ▸ hwithin) hagain
  exact ⟨_, _, _, hagain, if_pos ⟨Nat.zero_le _, hwithin'⟩, htok _⟩

theorem loadModel_engine {r : LoadRequest} {a : LoadAnswer} {n : LLMInference}
    (h : s.loadModel r a = (.ok E, n)) : a.engine = some E := by
  unfold loadModel at h
  split at h
  · cases h
  split at h
  · cases h
  split at h
  · cases h
  split at h
  · cases h
  rename_i E' hengine
  simp only at h
  split at h
  · cases h
  split at h
  · cases h
  split at h
  · cases h
  cases h
  exact hengine

end LLMInference

namespace SmollAI

/-- The condition on a call: a `start_completion` through a non-null handle is one that can
be carried out. -/
def Contained (s : SmollAI) : Call → Prop
  | .startCompletion query =>
      ∀ E n, s.native = some (E, n) → LLMInference.Startable E n query
  | _ => True

theorem escaping_eq_none_iff (s : SmollAI) (c : Call) :
    s.escaping c = none ↔ s.Contained c := by
  cases c with
  | startCompletion query =>
      have hescape : s.escaping (.startCompletion query) = none ↔
          (s.startCompletion query).1 = .ok () := by
        unfold escaping
        simp only [catches, Bool.false_eq_true, if_false, thrown]
        split
        · rename_i hok
          simp [hok]
        · rename_i e herror
          simp [herror]
      rw [hescape]
      cases hnative : s.native with
      | none => simp [SmollAI.startCompletion, Contained, hnative]
      | some n =>
          have hresult : (s.startCompletion query).1 = (n.2.startCompletion n.1 query).1 := by
            simp [SmollAI.startCompletion, hnative]
          rw [hresult, LLMInference.startCompletion_ok_iff]
          constructor
          · intro hstart E m hm
            obtain rfl := Option.some.inj (hnative.symm.trans hm)
            exact hstart
          · exact fun hcontained => hcontained n.1 n.2 hnative
  | _ => exact iff_of_true rfl trivial

/-- In every sequence of calls, no C++ exception leaves an entry point exactly when every
`start_completion` can be carried out. -/
theorem noEscape_iff (calls : List Call) :
    (∀ before c after, calls = before ++ c :: after → (new.run before).escaping c = none) ↔
      ∀ before c after, calls = before ++ c :: after → (new.run before).Contained c := by
  constructor
  · intro h before c after hcalls
    exact (escaping_eq_none_iff _ c).mp (h before c after hcalls)
  · intro h before c after hcalls
    exact (escaping_eq_none_iff _ c).mpr (h before c after hcalls)

/-! ## Engines that accept every chat -/

open LLMInference (Accepts Settles)

def Open (s : SmollAI) : Prop := (⟨.close, s.nativePtr⟩ : NativeCall) ∉ s.calls

/-- The loaded instance behind an open handle, if there is one, can start every
completion. -/
def Prepared (s : SmollAI) : Prop :=
  s.Open → ∀ E n, s.native = some (E, n) → Accepts E ∧ Settles E n

theorem Prepared.invokeNative {s : SmollAI} (h : s.Prepared) (fn : NativeFn)
    {f : Engine → LLMInference → LLMInference}
    (hf : ∀ E n, Settles E n → Settles E (f E n)) : (s.invokeNative fn f).Prepared := by
  intro hopen E' m hm
  rw [invokeNative_map, Option.map_eq_some_iff] at hm
  obtain ⟨⟨E, n⟩, hnative, heq⟩ := hm
  cases heq
  have hopen' : s.Open := fun hmem => hopen (List.mem_append_left _ hmem)
  obtain ⟨haccepts, hsettles⟩ := h hopen' E n hnative
  exact ⟨haccepts, hf E n hsettles⟩

theorem create_prepared (s : SmollAI) {r : LLMInference.LoadRequest} {a : LLMInference.LoadAnswer}
    (ha : ∀ E, a.engine = some E → Accepts E) : (s.create r a).Prepared := by
  intro _ E n hnative
  rcases LLMInference.loadModel_cases r a with ⟨-, E', hload⟩ | ⟨-, e, n', hload, -⟩
  · have hloaded : (s.create r a).native = some (E', LLMInference.loaded E' r.storeChats) := by
      simp [create, loadModel, hload, native, deref]
    cases hloaded.symm.trans hnative
    exact ⟨ha E (LLMInference.loadModel_engine hload), LLMInference.loaded_settles E _⟩
  · simp [create, loadModel, hload, native, deref] at hnative

theorem Prepared.call {s : SmollAI} (h : s.Prepared) {c : Call}
    (hc : ∀ r a E, c = .create r a → a.engine = some E → Accepts E) : (s.call c).Prepared := by
  cases c with
  | create r a => exact create_prepared s fun E => hc r a E rfl
  | addUserMessage message =>
      exact h.invokeNative _ fun _ _ hn => hn.call (.addChatMessage message (.lit "user"))
  | addSystemPrompt prompt =>
      exact h.invokeNative _ fun _ _ hn => hn.call (.addChatMessage prompt (.lit "system"))
  | addAssistantMessage message =>
      exact h.invokeNative _ fun _ _ hn => hn.call (.addChatMessage message (.lit "assistant"))
  | startCompletion query => exact h.invokeNative _ fun _ _ hn => hn.call (.startCompletion query)
  | completionLoop d => exact h.invokeNative _ fun _ _ hn => hn.call (.completionLoop d)
  | stopCompletion => exact h.invokeNative _ fun _ _ hn => hn.call .stopCompletion
  | cancelCompletion => exact h.invokeNative _ fun _ _ hn => hn.call .cancelCompletion
  | close => exact fun hopen => absurd (List.mem_append_right _ (List.mem_singleton_self _)) hopen

theorem run_prepared {s : SmollAI} (h : s.Prepared) (calls : List Call)
    (hcalls : ∀ r a E, Call.create r a ∈ calls → a.engine = some E → Accepts E) :
    (s.run calls).Prepared := by
  induction calls generalizing s with
  | nil => exact h
  | cons c calls ih =>
      refine ih (h.call fun r a E hc => hcalls r a E (hc ▸ List.mem_cons_self ..)) ?_
      exact fun r a E hmem => hcalls r a E (List.mem_cons_of_mem _ hmem)

/-- When every model loaded has a chunked template and a tokenizer that accepts every text,
nothing escapes from a call with a query, if it has one, through a handle not closed yet. -/
theorem escaping_of_accepts (before : List Call)
    (hbefore : ∀ r a E, Call.create r a ∈ before → a.engine = some E → Accepts E) {c : Call}
    (hc : ∀ query, c = .startCompletion query →
      query.isEmpty = false ∧ (new.run before).Open) : (new.run before).escaping c = none := by
  rw [escaping_eq_none_iff]
  cases c with
  | startCompletion query =>
      intro E n hnative
      obtain ⟨hquery, hopen⟩ := hc query rfl
      have hnew : new.Prepared := fun _ E n hn => by cases hn
      obtain ⟨haccepts, hsettles⟩ := run_prepared hnew before hbefore hopen E n hnative
      exact hsettles.startable haccepts hquery
  | _ => trivial

example : Accepts (ByteEngine.engine 1024) := ⟨⟨chatml, rfl⟩, fun _ => rfl⟩

/-! ## Where something escapes -/

def templateAnswer (T : Option Template) : LLMInference.LoadAnswer :=
  ⟨some { ByteEngine.engine 1024 with chatTemplate := T }, true, true, true⟩

/-- A model without a chat template, one whose template is rejected and an empty query. -/
theorem noEscape_fails :
    (new.run [.create byteRequest (templateAnswer none)]).escaping (.startCompletion (.lit "hi")) =
        some (.runtimeError "start_completion() failed: no chat template available") ∧
      (new.run [.create byteRequest (templateAnswer (some fun _ _ => none))]).escaping
          (.startCompletion (.lit "hi")) =
        some (.runtimeError
          "llama_chat_apply_template() in LLMInference::start_completion() failed") ∧
      (new.run [.create byteRequest byteAnswer]).escaping (.startCompletion .empty) =
        some (.runtimeError "start_completion() failed: invalid query") := by
  decide +kernel

end SmollAI

end SmollChat
