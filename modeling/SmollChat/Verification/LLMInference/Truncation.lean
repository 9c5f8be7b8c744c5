import SmollChat.Verification.LLMInference.Decodes
import SmollChat.Verification.LLMInference.Messages

/-! # What the over-length branch achieves

The branch drops messages and renders the rest from the start. It counts messages where
its limit is in tokens, and it leaves the engine's cache as it is. -/

namespace SmollChat.LLMInference

variable {E : Engine} {s s' : LLMInference}

/-! ## The rebuilt prompt -/

def renderedTokens (E : Engine) (messages : List Message) : Option (List Token) :=
  match E.chatTemplate with
  | none => none
  | some T => (T messages true).bind fun r =>
      E.commonTokenize (strncpy (List.replicate r.length 0) r)

def shortenedList (s : LLMInference) (query : CString) : List Message :=
  truncateMessages (s.messages ++ storedMessage query (.lit "user"))

theorem strncpy_take_of_le {buf src : Bytes} (hle : src.length ≤ buf.length) :
    (strncpy buf src).take src.length = strncpy (List.replicate src.length 0) src := by
  have hcopy : (CString.cStr src).bytes.length ≤ src.length :=
    (List.takeWhile_prefix _).length_le
  unfold strncpy
  rw [List.take_of_length_le (hcopy.trans hle), List.length_replicate,
    List.take_of_length_le hcopy, List.take_append, List.take_of_length_le hcopy,
    List.take_replicate]
  congr 2
  omega

/-- Without the branch the batch is within the limit; with it the batch is the rendering
of the shortened list, whatever its length. -/
theorem startCompletion_batch_cases {query : CString}
    (h : s.startCompletion E query = (.ok (), s')) :
    (overLength E s query = false ∧ (s'.batch.nTokens : ℤ) ≤ E.nCtx - 800) ∨
      (overLength E s query = true ∧ s'.messages = shortenedList s query ∧
        ∃ tokens, renderedTokens E (shortenedList s query) = some tokens ∧
          s'.batchTokens = tokens ∧ s'.batch.nTokens = tokens.length) := by
  cases startCompletion_ok h with
  | whole hT hformat hslice htok hfits =>
      left
      refine ⟨?_, hfits⟩
      simp only [overLength, hT, hformat, hslice, htok]
      simpa using hfits
  | @shortened T n buf n' buf' prompt tokens prompt' tokens' hT hformat hslice htok hlong
      hagain hslice' htok' =>
      right
      have hlist : truncateMessages (s.appendQuery query).messages = shortenedList s query := by
        rw [appendQuery_messages, shortenedList]
      refine ⟨?_, hlist, tokens', ?_, batchLocal_batchTokens _ _, rfl⟩
      · simp only [overLength, hT, hformat, hslice, htok]
        simpa using hlong
      · rw [hlist] at hagain
        obtain ⟨r, hr, hcopy⟩ := Option.map_eq_some_iff.mp hagain
        obtain ⟨rfl, rfl⟩ := Prod.mk.inj hcopy
        obtain ⟨-, hle, rfl⟩ := slice_eq_some_iff.mp hslice'
        rw [strncpy_length] at hle
        simp only [renderedTokens, hT, hr, Option.bind_some]
        rw [← strncpy_take_of_le hle]
        exact htok'

/-! ## The budget -/

/-- The batch leaves the reserve free, so the first `completion_loop` accepts it. -/
structure WithinBudget (E : Engine) (s : LLMInference) : Prop where
  batch : (s.batch.nTokens : ℤ) ≤ E.nCtx - 800
  accepted : ∀ d, (s.completionLoop E d).1 ≠ .error .contextExceeded

/-- If the branch is taken, the shortened list renders to a prompt within the limit. -/
def FitsShortened (E : Engine) (s : LLMInference) (query : CString) : Prop :=
  overLength E s query = true →
    ∀ tokens, renderedTokens E (shortenedList s query) = some tokens →
      (tokens.length : ℤ) ≤ E.nCtx - 800

theorem handleToken_ne_contextExceeded (E : Engine) (s : LLMInference) (d : Draw) :
    (handleToken E s d).1 ≠ .error .contextExceeded := by
  obtain ⟨r, s', heq, hexit⟩ := handleToken_exit E s d
  rw [heq]
  cases hexit with
  | refused hinContext => simpa using hinContext
  | eog | filtered | piece => simp

theorem completionLoop_ne_contextExceeded (h : (s.batch.nTokens : ℤ) ≤ E.nCtx - 300) (d : Draw) :
    (s.completionLoop E d).1 ≠ .error .contextExceeded := by
  unfold completionLoop
  split
  · simp
  simp only
  split
  · rename_i hlong
    exact absurd h (Int.not_le.mpr hlong)
  split
  · simp
  split
  · simp
  split
  · simp
  · exact handleToken_ne_contextExceeded E _ d

theorem withinBudget_of_le (h : (s.batch.nTokens : ℤ) ≤ E.nCtx - 800) : WithinBudget E s :=
  ⟨h, completionLoop_ne_contextExceeded (by omega)⟩

/-- In every state of a run on a loaded instance, the batch of a `start_completion` that
returns normally is within the budget exactly when the shortened list is, if it comes to
that. -/
theorem withinBudget_iff (E : Engine) (storeChats : Bool) (calls : List Call) (query : CString)
    (s' : LLMInference)
    (h : ((loaded E storeChats).run E calls).startCompletion E query = (.ok (), s')) :
    WithinBudget E s' ↔ FitsShortened E ((loaded E storeChats).run E calls) query := by
  rcases startCompletion_batch_cases h with
    ⟨hwhole, hfits⟩ | ⟨hlong, -, tokens, htokens, -, hcount⟩
  · refine iff_of_true (withinBudget_of_le hfits) ?_
    intro hlong
    rw [hwhole] at hlong
    cases hlong
  · constructor
    · intro hbudget _ tokens' htokens'
      obtain rfl : tokens = tokens' := Option.some.inj (htokens.symm.trans htokens')
      rw [← hcount]
      exact hbudget.batch
    · intro hfits
      refine withinBudget_of_le ?_
      rw [hcount]
      exact hfits hlong tokens htokens

theorem eq_ok_of_fst {x : Except Failure Unit × LLMInference} (h : x.1 = .ok ()) :
    x = (.ok (), x.2) :=
  Prod.ext h rfl

theorem withinBudget_short_query :
    WithinBudget (ByteEngine.engine 1024)
      (((loaded (ByteEngine.engine 1024) true).run (ByteEngine.engine 1024) []).startCompletion
        (ByteEngine.engine 1024) (.lit "hi")).2 :=
  (withinBudget_iff (ByteEngine.engine 1024) true [] (.lit "hi") _
    (eq_ok_of_fst (by decide +kernel))).mpr fun hlong => absurd hlong (by decide +kernel)

/-- A query longer than the context is all that is left after the erasure. -/
theorem withinBudget_exceeded :
    ((loaded (ByteEngine.engine 1024) true).startCompletion (ByteEngine.engine 1024)
        (letters 900)).1 = .ok () ∧
      ((((loaded (ByteEngine.engine 1024) true).startCompletion (ByteEngine.engine 1024)
        (letters 900)).2).completionLoop (ByteEngine.engine 1024) (.ok 72)).1 =
          .error .contextExceeded ∧
      ¬WithinBudget (ByteEngine.engine 1024)
        ((loaded (ByteEngine.engine 1024) true).startCompletion (ByteEngine.engine 1024)
          (letters 900)).2 := by
  have hloop : ((((loaded (ByteEngine.engine 1024) true).startCompletion
      (ByteEngine.engine 1024) (letters 900)).2).completionLoop (ByteEngine.engine 1024)
        (.ok 72)).1 = .error .contextExceeded := by decide +kernel
  exact ⟨by decide +kernel, hloop, fun h => h.accepted (.ok 72) hloop⟩

/-! ## The cache -/

def keptTokens (decodes : List DecodeCall) : List Token :=
  ((decodes.filter fun c => c.result = 0).map DecodeCall.tokens).flatten

theorem keptTokens_of_refused {decodes : List DecodeCall} (h : ∀ c ∈ decodes, c.result ≠ 0) :
    keptTokens decodes = [] := by
  have hnone : (decodes.filter fun c => c.result = 0) = [] := by
    simpa [List.filter_eq_nil_iff] using h
  rw [keptTokens, hnone]
  rfl

structure CacheGrows (s s' : LLMInference) (decodes : List DecodeCall) : Prop where
  decodeCalls : s'.decodeCalls = s.decodeCalls ++ decodes
  kvCache : s'.kvCache = s.kvCache ++ keptTokens decodes

theorem CacheGrows.of_eq (hcalls : s'.decodeCalls = s.decodeCalls) (hkv : s'.kvCache = s.kvCache) :
    CacheGrows s s' [] :=
  ⟨by rw [hcalls, List.append_nil], by rw [hkv]; exact (List.append_nil _).symm⟩

theorem CacheGrows.trans {s₁ s₂ s₃ : LLMInference} {first second : List DecodeCall}
    (h : CacheGrows s₁ s₂ first) (h' : CacheGrows s₂ s₃ second) :
    CacheGrows s₁ s₃ (first ++ second) := by
  constructor
  · rw [h'.decodeCalls, h.decodeCalls, List.append_assoc]
  · rw [h'.kvCache, h.kvCache, List.append_assoc]
    simp [keptTokens, List.filter_append]

theorem kvCache_of_ready (hready : ReadyToDecode E s) (d : Draw) :
    (s.completionLoop E d).2.kvCache =
      if d.decodeResult = 0 then s.kvCache ++ s.batchTokens else s.kvCache := by
  obtain ⟨r, s', heq, hexit⟩ := completionLoop_exit E s d
  rw [heq]
  cases hexit with
  | notReady hfails => exact absurd hready hfails
  | undrawn => rfl
  | drawn _ _ _ htoken => cases htoken <;> rfl

theorem completionLoop_cache (E : Engine) (s : LLMInference) (d : Draw) :
    ∃ decodes, CacheGrows s (s.completionLoop E d).2 decodes := by
  by_cases hready : ReadyToDecode E s
  · refine ⟨_, decodeCalls_of_ready hready d, ?_⟩
    rw [kvCache_of_ready hready]
    by_cases hzero : d.decodeResult = 0 <;> simp [keptTokens, hzero]
  · obtain ⟨e, he⟩ := completionLoop_of_not_ready hready d
    rw [he]
    exact ⟨[], .of_eq rfl rfl⟩

theorem call_cache (hacc : Accounted s) (E : Engine) (c : Call) :
    ∃ decodes, CacheGrows s (s.call E c) decodes := by
  cases c with
  | addChatMessage message role => exact ⟨[], .of_eq rfl rfl⟩
  | startCompletion query =>
      have hframe := startCompletion_frame E s query
      exact ⟨[], .of_eq hframe.decodeCalls hframe.kvCache⟩
  | completionLoop d => exact completionLoop_cache E s d
  | stopCompletion =>
      rw [call, stopCompletion_eq E s hacc.model hacc.ctx]
      exact ⟨[], .of_eq rfl rfl⟩
  | cancelCompletion =>
      rw [call, cancelCompletion_eq E s hacc.model hacc.ctx]
      exact ⟨[], .of_eq rfl rfl⟩

theorem run_cache (hacc : Accounted s) (E : Engine) (calls : List Call) :
    CacheGrows s (s.run E calls) (decodesOf s (s.run E calls)) := by
  suffices h : ∃ decodes, CacheGrows s (s.run E calls) decodes by
    obtain ⟨decodes, hgrows⟩ := h
    have hdecodes : decodesOf s (s.run E calls) = decodes := by
      rw [decodesOf, hgrows.decodeCalls, List.drop_left]
    rw [hdecodes]
    exact hgrows
  induction calls generalizing s with
  | nil => exact ⟨[], .of_eq rfl rfl⟩
  | cons c calls ih =>
      obtain ⟨first, hfirst⟩ := call_cache hacc E c
      obtain ⟨rest, hrest⟩ := ih (call_accounted hacc E c)
      exact ⟨first ++ rest, hfirst.trans hrest⟩

/-- Vectors are only added, so a batch keeps its tokens as long as it is the batch. -/
theorem call_heap (hacc : Accounted s) (E : Engine) (c : Call) :
    s.heap <+: (s.call E c).heap := by
  cases c with
  | addChatMessage message role => exact List.prefix_rfl
  | startCompletion query =>
      rcases startCompletion_batch E s query with ⟨-, hheap⟩ | ⟨text, tokens, -, -, hheap⟩
      · simp [call, hheap]
      · rw [call, hheap]
        exact List.prefix_append _ _
  | completionLoop d =>
      simp [call, (completionLoop_batch E s d).1]
  | stopCompletion =>
      simp [call, stopCompletion_eq E s hacc.model hacc.ctx]
  | cancelCompletion =>
      simp [call, cancelCompletion_eq E s hacc.model hacc.ctx]

theorem run_heap (hacc : Accounted s) (E : Engine) (calls : List Call) :
    s.heap <+: (s.run E calls).heap := by
  induction calls generalizing s with
  | nil => exact List.prefix_rfl
  | cons c calls ih => exact (call_heap hacc E c).trans (ih (call_accounted hacc E c))

/-- The batch a `start_completion` set is still the same tokens when it is decoded. -/
theorem startCompletion_batchTokens {query : CString} (hacc : Accounted s)
    (h : s.startCompletion E query = (.ok (), s')) (mid : List Call)
    (hbatch : (s'.run E mid).batch = s'.batch) : (s'.run E mid).batchTokens = s'.batchTokens := by
  have hacc' : Accounted s' := by
    have hnext := startCompletion_accounted hacc E query
    rwa [h] at hnext
  obtain ⟨later, hheap⟩ := run_heap hacc' E mid
  obtain ⟨address, block, htoken, hblock⟩ :
      ∃ address block, s'.batch.token = .vector address ∧ s'.heap[address]? = some block := by
    cases startCompletion_ok h with
    | whole => exact ⟨_, _, rfl, List.getElem?_concat_length⟩
    | shortened => exact ⟨_, _, rfl, List.getElem?_concat_length⟩
  have hlater : (s'.run E mid).heap[address]? = some block := by
    obtain ⟨hlt, -⟩ := List.getElem?_eq_some_iff.mp hblock
    rw [← hheap, List.getElem?_append_left hlt, hblock]
  simp only [batchTokens, hbatch, htoken, hlater, hblock]

/-- In every state of a run on a loaded instance: once the batch of a shortened prompt has
been decoded for the first time, the cache is the rendering of the shortened list exactly
when nothing had been cached before. -/
theorem contextReplaced_iff (E : Engine) (storeChats : Bool) (calls : List Call)
    (query : CString) (s' : LLMInference) (mid : List Call) (d : Draw)
    (h : ((loaded E storeChats).run E calls).startCompletion E query = (.ok (), s'))
    (hlong : overLength E ((loaded E storeChats).run E calls) query = true)
    (hbatch : (s'.run E mid).batch = s'.batch)
    (hmid : ∀ c ∈ decodesOf s' (s'.run E mid), c.result ≠ 0)
    (hready : ReadyToDecode E (s'.run E mid)) (hd : d.decodeResult = 0) :
    renderedTokens E s'.messages = some ((s'.run E mid).completionLoop E d).2.kvCache ↔
      ((loaded E storeChats).run E calls).kvCache = [] := by
  have hacc := run_accounted (loaded_accounted E storeChats) E calls
  have hstart := startCompletion_accounted hacc E query
  have hframe := startCompletion_frame E ((loaded E storeChats).run E calls) query
  rw [h] at hstart hframe
  have hkv : (s'.run E mid).kvCache = ((loaded E storeChats).run E calls).kvCache := by
    rw [(run_cache hstart E mid).kvCache, keptTokens_of_refused hmid, List.append_nil,
      hframe.kvCache]
  rcases startCompletion_batch_cases h with
    ⟨hwhole, -⟩ | ⟨-, hlist, tokens, htokens, hheld, -⟩
  · rw [hwhole] at hlong
    cases hlong
  · rw [kvCache_of_ready hready, if_pos hd, startCompletion_batchTokens hacc h mid hbatch, hkv,
      hlist, htokens, hheld, Option.some_inj]
    constructor
    · intro heq
      exact List.append_left_eq_self.mp heq.symm
    · intro hempty
      rw [hempty, List.nil_append]

def crowded (before : List Call) : List Call :=
  before ++ List.replicate 6 (.addChatMessage (letters 40) (.lit "user"))

def shortTurn : List Call :=
  [.startCompletion (.lit "yo"), .completionLoop (.ok 72), .stopCompletion]

/-- After a refused decode the shortened prompt is decoded into an empty cache. -/
theorem contextReplaced_fresh :
    renderedTokens (ByteEngine.engine 1024)
        ((((loaded (ByteEngine.engine 1024) true).run (ByteEngine.engine 1024)
          (crowded [])).startCompletion (ByteEngine.engine 1024) (.lit "hi")).2).messages =
      some (((((loaded (ByteEngine.engine 1024) true).run (ByteEngine.engine 1024)
        (crowded [])).startCompletion (ByteEngine.engine 1024) (.lit "hi")).2.run
          (ByteEngine.engine 1024) [.completionLoop ⟨1, false, true, 0⟩]).completionLoop
            (ByteEngine.engine 1024) (.ok 72)).2.kvCache :=
  (contextReplaced_iff (ByteEngine.engine 1024) true (crowded []) (.lit "hi") _
    [.completionLoop ⟨1, false, true, 0⟩] (.ok 72) (eq_ok_of_fst (by decide +kernel))
    (by decide +kernel) (by decide +kernel) (by decide +kernel) (by decide +kernel)
    (by decide)).mpr (by decide +kernel)

/-- After a turn its tokens stay in the cache, before those of the shortened prompt. -/
theorem contextReplaced_after_turn :
    (((loaded (ByteEngine.engine 1024) true).run (ByteEngine.engine 1024)
        (crowded shortTurn)).startCompletion (ByteEngine.engine 1024) (.lit "hi")).1 = .ok () ∧
      overLength (ByteEngine.engine 1024) ((loaded (ByteEngine.engine 1024) true).run
        (ByteEngine.engine 1024) (crowded shortTurn)) (.lit "hi") = true ∧
      renderedTokens (ByteEngine.engine 1024)
          ((((loaded (ByteEngine.engine 1024) true).run (ByteEngine.engine 1024)
            (crowded shortTurn)).startCompletion (ByteEngine.engine 1024) (.lit "hi")).2).messages ≠
        some ((((loaded (ByteEngine.engine 1024) true).run (ByteEngine.engine 1024)
          (crowded shortTurn)).startCompletion (ByteEngine.engine 1024)
            (.lit "hi")).2.completionLoop (ByteEngine.engine 1024) (.ok 72)).2.kvCache := by
  decide +kernel

end SmollChat.LLMInference
