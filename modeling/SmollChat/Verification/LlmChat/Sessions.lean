import SmollChat.Verification.LlmChat.Shapes
import SmollChat.Verification.LLMInference.Slices
import SmollChat.Verification.LLMInference.Failures

/-! # Prompts of the built-in templates

`LLMInference` does not know which kind of template its model has. What its prompts rely on is
that renderings grow at their end and that the shortened list fits into the buffer. -/

namespace SmollChat

open LlmChatTemplate

/-- What the offsets and the buffer of `LLMInference` ask of a template. -/
structure Incremental (T : Template) : Prop where
  renders : ∀ messages addAss, ∃ r : CString, T messages addAss = some r.bytes
  grows : ∀ {chat rest addAss r r'}, T chat false = some r → T (chat ++ rest) addAss = some r' →
    r <+: r'
  shrinks : ∀ {messages r r'}, T messages true = some r →
    T (LLMInference.truncateMessages messages) true = some r' → r'.length ≤ r.length

theorem llamaChatApplyTemplate_shrinks {tmpl : CString} {messages : List Message} {r r' : Bytes}
    (hr : llamaChatApplyTemplate tmpl messages true = some r)
    (hr' : llamaChatApplyTemplate tmpl (LLMInference.truncateMessages messages) true = some r') :
    r'.length ≤ r.length := by
  by_cases hgt : LLMInference.messagesToKeep < messages.length
  · obtain ⟨text, htext, rfl⟩ := Option.map_eq_some_iff.mp hr
    obtain ⟨text', htext', rfl⟩ := Option.map_eq_some_iff.mp hr'
    rw [LLMInference.truncateMessages_of_gt hgt] at htext'
    cases messages with
    | nil => contradiction
    | cons m messages =>
        simp only [List.length_cons] at hgt htext'
        have hlen : messages.length + 1 - LLMInference.messagesToKeep + 1 =
            (messages.length - 4) + 1 := by
          rw [LLMInference.messagesToKeep] at hgt ⊢
          omega
        rw [hlen, List.drop_succ_cons] at htext'
        have hne : messages.drop (messages.length - 4) ≠ [] := by
          rw [LLMInference.messagesToKeep] at hgt
          rw [ne_eq, List.drop_eq_nil_iff]
          omega
        rw [← List.take_append_drop (messages.length - 4) messages] at htext
        exact apply_shrinks m _ hne htext' htext
  · rw [LLMInference.truncateMessages_of_le (not_lt.mp hgt)] at hr'
    exact (congrArg List.length (Option.some.inj (hr'.symm.trans hr))).le

/-- Every kind that is known and does not look ahead. -/
theorem incremental_llamaChatApplyTemplate {tmpl : CString}
    (hk : detect tmpl.bytes ≠ unknown) (hr : detect tmpl.bytes ≠ rwkvWorld) :
    Incremental (llamaChatApplyTemplate tmpl) := by
  obtain ⟨B, hB⟩ := branch_isSome hk hr
  have hrender : ∀ messages addAss,
      llamaChatApplyTemplate tmpl messages addAss = some (B.render messages addAss).bytes :=
    fun messages addAss => by rw [llamaChatApplyTemplate, apply_of_branch hB]; rfl
  refine ⟨fun messages addAss => ⟨_, hrender messages addAss⟩, fun h h' => ?_,
    llamaChatApplyTemplate_shrinks⟩
  rw [hrender] at h h'
  obtain rfl := Option.some.inj h
  obtain rfl := Option.some.inj h'
  exact B.render_prefix _ _ _

namespace LLMInference

variable {E : Engine} {T : Template} {s s' : LLMInference} {query : CString} {n : Option ℕ}

/-! ## The offset -/

/-- The number of messages rendered at the last stop or cancel; `none` before the first one
and after an over-length branch, where the next prompt begins at the start. -/
def nextSent (E : Engine) (s : LLMInference) (n : Option ℕ) : Call → Option ℕ
  | .addChatMessage _ _ | .completionLoop _ => n
  | .startCompletion query =>
      if (s.startCompletion E query).2.truncations = s.truncations then n else none
  | .stopCompletion => some (s.stopCompletion E).messages.length
  | .cancelCompletion => some (s.cancelCompletion E).messages.length

def sentAfter (E : Engine) : LLMInference → Option ℕ → List Call → Option ℕ
  | _, n, [] => n
  | s, n, c :: calls => sentAfter E (s.call E c) (nextSent E s n c) calls

theorem sentAfter_concat (E : Engine) (s : LLMInference) (n : Option ℕ) (calls : List Call)
    (c : Call) : sentAfter E s n (calls ++ [c]) =
      nextSent E (s.run E calls) (sentAfter E s n calls) c := by
  induction calls generalizing s n with
  | nil => rfl
  | cons c' calls ih => exact ih (s.call E c') (nextSent E s n c')

/-- `prev_len` is the length of a rendering of the first messages, or `0`. -/
def PrefixLen (T : Template) (messages : List Message) (prevLen : ℕ) : Option ℕ → Prop
  | none => prevLen = 0
  | some n => n ≤ messages.length ∧ ∃ r, T (messages.take n) false = some r ∧ prevLen = r.length

def Sent (T : Template) (s : LLMInference) (n : Option ℕ) : Prop :=
  s.storeChats = true → PrefixLen T s.messages s.prevLen n

theorem PrefixLen.append {messages : List Message} {prevLen : ℕ}
    (h : PrefixLen T messages prevLen n) (added : List Message) :
    PrefixLen T (messages ++ added) prevLen n := by
  cases n with
  | none => exact h
  | some n =>
      obtain ⟨hle, hrender⟩ := h
      refine ⟨hle.trans (by simp), ?_⟩
      rwa [List.take_append_of_le_length hle]

/-- The messages in front of the prompt that `start_completion` cuts out. -/
def sentQuery (s : LLMInference) (n : Option ℕ) : Option ℕ := if s.storeChats then n else none

theorem appendQuery_sent (h : Sent T s n) (query : CString) :
    PrefixLen T (s.appendQuery query).messages (s.appendQuery query).prevLen (sentQuery s n) := by
  rw [appendQuery_eq, sentQuery]
  cases hstore : s.storeChats with
  | true => exact (h hstore).append _
  | false => rfl

theorem Sent.appended (h : Sent T s n) (query : CString) : Sent T (s.appendQuery query) n := by
  intro hstore
  have hstore₀ : s.storeChats = true :=
    (appendQuery_frame s query).storeChats.symm.trans hstore
  have hgrow := appendQuery_sent h query
  rwa [sentQuery, if_pos hstore₀] at hgrow

theorem startCompletion_sent (hT : E.chatTemplate = some T) (hinc : Incremental T)
    (h : Sent T s n) (query : CString) :
    Sent T (s.startCompletion E query).2 (nextSent E s n (.startCompletion query)) := by
  have happ := truncations_appendQuery s query
  have hcount : (s.appendQuery query).truncations + 1 ≠ s.truncations := by omega
  have hcases : (s.startCompletion E query).2.truncations = s.truncations ∧
        Sent T (s.startCompletion E query).2 n ∨
      (s.startCompletion E query).2.truncations ≠ s.truncations ∧
        (s.startCompletion E query).2.prevLen = 0 := by
    have hexit := startCompletion_exit E s query
    generalize (s.startCompletion E query).2 = s' at hexit ⊢
    cases hexit with
    | refused => exact .inl ⟨rfl, h⟩
    | unrendered => exact .inl ⟨happ, h.appended query⟩
    | unsent => exact .inl ⟨happ, h.appended query⟩
    | whole => exact .inl ⟨happ, h.appended query⟩
    | cut hT' _ hagain =>
        obtain rfl := Option.some.inj (hT.symm.trans hT')
        obtain ⟨r, hr⟩ := hinc.renders (truncateMessages (s.appendQuery query).messages) true
        rw [applyTemplate, hr] at hagain
        contradiction
    | cutUnsent => exact .inr ⟨hcount, rfl⟩
    | shortened => exact .inr ⟨hcount, rfl⟩
  simp only [nextSent]
  rcases hcases with ⟨hsame, hsent⟩ | ⟨hcut, hzero⟩
  · rwa [if_pos hsame]
  · rw [if_neg hcut]
    exact fun _ => hzero

theorem sent_length (hT : E.chatTemplate = some T) (hinc : Incremental T)
    (hprev : s.prevLen = renderedLen E s.messages) : Sent T s (some s.messages.length) := by
  intro _
  obtain ⟨r, hr⟩ := hinc.renders s.messages false
  refine ⟨le_rfl, r.bytes, by rw [List.take_length, hr], ?_⟩
  rw [hprev, renderedLen, hT]
  simp [hr]

theorem call_sent (hT : E.chatTemplate = some T) (hinc : Incremental T) (hacc : Accounted s)
    (h : Sent T s n) (c : Call) : Sent T (s.call E c) (nextSent E s n c) := by
  cases c with
  | addChatMessage message role =>
      intro hstore
      rw [call, addChatMessage, appendMessage_eq]
      exact (h hstore).append _
  | startCompletion query => exact startCompletion_sent hT hinc h query
  | completionLoop d =>
      obtain ⟨batch, response, currToken, kvCache, decodeCalls, draws, heq⟩ :=
        completionLoop_fields E s d
      rw [call, heq]
      exact h
  | stopCompletion =>
      rw [call, nextSent]
      apply sent_length hT hinc
      rw [stopCompletion_eq E s hacc.model hacc.ctx]
  | cancelCompletion =>
      rw [call, nextSent]
      apply sent_length hT hinc
      rw [cancelCompletion_eq E s hacc.model hacc.ctx]

theorem run_sent (hT : E.chatTemplate = some T) (hinc : Incremental T) (hacc : Accounted s)
    (h : Sent T s n) (calls : List Call) : Sent T (s.run E calls) (sentAfter E s n calls) := by
  induction calls generalizing s n with
  | nil => exact h
  | cons c calls ih => exact ih (call_accounted hacc E c) (call_sent hT hinc hacc h c)

/-! ## The prompt -/

/-- What stands in front of the prompt in the rendering of the whole list. -/
def before (T : Template) (messages : List Message) : Option ℕ → Option Bytes
  | none => some []
  | some n => T (messages.take n) false

theorem PrefixLen.split (hinc : Incremental T) {messages : List Message} {prevLen : ℕ}
    (h : PrefixLen T messages prevLen n) {r : Bytes} (hr : T messages true = some r) :
    prevLen ≤ r.length ∧
      ∃ front, before T messages n = some front ∧ r = front ++ r.drop prevLen := by
  cases n with
  | none =>
      obtain rfl : prevLen = 0 := h
      exact ⟨Nat.zero_le _, [], rfl, rfl⟩
  | some n =>
      obtain ⟨-, front, hfront, rfl⟩ := h
      rw [← List.take_append_drop n messages] at hr
      have hgrow : front <+: r := hinc.grows hfront hr
      exact ⟨hgrow.length_le, front, hfront, (List.prefix_iff_eq_append.mp hgrow).symm⟩

theorem formatMessages_front (hinc : Incremental T) {messages : List Message} {buf out : Bytes}
    {newLen : ℕ} (h : formatMessages T messages buf = some (newLen, out)) :
    ∃ r, T messages true = some r ∧ newLen = r.length ∧ newLen ≤ out.length ∧
      out.take newLen = r := by
  obtain ⟨r, hr, rfl, hle, hout⟩ := formatMessages_spec h
  obtain ⟨text, htext⟩ := hinc.renders messages true
  obtain rfl := Option.some.inj (htext.symm.trans hr)
  refine ⟨_, htext, rfl, hle, ?_⟩
  rw [hout]
  exact strncpy_take out text hle

theorem applyTemplate_front (hinc : Incremental T) {messages : List Message} {buf out r : Bytes}
    {newLen : ℕ} (hr : T messages true = some r) (hle : r.length ≤ buf.length)
    (h : applyTemplate T (truncateMessages messages) true buf = some (newLen, out)) :
    ∃ r', T (truncateMessages messages) true = some r' ∧ newLen ≤ out.length ∧
      out.take newLen = r' := by
  obtain ⟨text, htext⟩ := hinc.renders (truncateMessages messages) true
  have hshort := (hinc.shrinks hr htext).trans hle
  rw [applyTemplate, htext] at h
  obtain ⟨rfl, rfl⟩ := Prod.mk.inj (Option.some.inj h)
  refine ⟨_, htext, ?_, strncpy_take buf text hshort⟩
  rw [strncpy_length]
  exact hshort

theorem startCompletion_inRange (hT : E.chatTemplate = some T) (hinc : Incremental T)
    (h : Sent T s n) (query : CString) :
    (s.startCompletion E query).1 ≠ .error .iteratorRange := by
  intro herror
  obtain ⟨-, T', newLen, formatted, hT', hformat, hcases⟩ := startCompletion_range_cases herror
  obtain rfl := Option.some.inj (hT.symm.trans hT')
  obtain ⟨r, hr, rfl, hle, -⟩ := formatMessages_front hinc hformat
  have hprev := ((appendQuery_sent h query).split hinc hr).1
  rcases hcases with hslice | ⟨-, newLen', formatted', -, -, hagain, hslice'⟩
  · rw [slice, if_pos ⟨hprev, hle⟩] at hslice
    contradiction
  · obtain ⟨r', -, hle', -⟩ := applyTemplate_front hinc hr hle hagain
    rw [slice, if_pos ⟨Nat.zero_le _, hle'⟩] at hslice'
    contradiction

/-- The text of a batch continues what was rendered before. -/
theorem startCompletion_continues (hT : E.chatTemplate = some T) (hinc : Incremental T)
    (h : Sent T s n) (hstart : s.startCompletion E query = (.ok (), s')) :
    ∃ front text, before T s'.messages (sentQuery s (nextSent E s n (.startCompletion query))) =
        some front ∧
      T s'.messages true = some (front ++ text) ∧ E.commonTokenize text = some s'.batchTokens := by
  have happ := truncations_appendQuery s query
  simp only [nextSent, hstart]
  cases startCompletion_ok hstart with
  | @whole T' newLen buf prompt tokens hT' hformat hslice htok hfits =>
      obtain rfl := Option.some.inj (hT.symm.trans hT')
      obtain ⟨r, hr, -, -, hfront⟩ := formatMessages_front hinc hformat
      obtain ⟨-, -, rfl⟩ := slice_eq_some_iff.mp hslice
      obtain ⟨-, front, hbefore, hsplit⟩ := (appendQuery_sent h query).split hinc hr
      rw [hfront] at htok
      refine ⟨front, _, ?_, hr.trans (congrArg some hsplit), by rw [batchLocal_batchTokens, htok]⟩
      split
      · exact hbefore
      · rename_i hcut
        exact absurd happ hcut
  | @shortened T' newLen buf newLen' buf' prompt tokens prompt' tokens' hT' hformat hslice htok
      hlong hagain hslice' htok' =>
      obtain rfl := Option.some.inj (hT.symm.trans hT')
      obtain ⟨r, hr, rfl, hle, -⟩ := formatMessages_front hinc hformat
      obtain ⟨r', hr', -, hfront⟩ := applyTemplate_front hinc hr hle hagain
      obtain ⟨-, -, rfl⟩ := slice_eq_some_iff.mp hslice'
      have hcount : (s.appendQuery query).truncations + 1 ≠ s.truncations := by omega
      rw [hfront, List.drop_zero] at htok'
      refine ⟨[], r', ?_, hr', by rw [batchLocal_batchTokens, htok']⟩
      split
      · rename_i hsame
        exact absurd hsame hcount
      · rw [sentQuery, ite_self]
        rfl

/-- With a model whose template is of a known kind that does not look ahead, in every state of
a run on a loaded instance, the prompt of a `start_completion` is cut out of the buffer within
its bounds, and the text of the batch is what the rendering of the messages has behind the
rendering at the last stop or cancel. -/
theorem prompt_continues (E : Engine) (storeChats : Bool) (calls : List Call) (query : CString)
    {tmpl : CString} (hT : E.chatTemplate = some (llamaChatApplyTemplate tmpl))
    (hk : detect tmpl.bytes ≠ unknown) (hr : detect tmpl.bytes ≠ rwkvWorld) :
    (((loaded E storeChats).run E calls).startCompletion E query).1 ≠ .error .iteratorRange ∧
      ∀ s', ((loaded E storeChats).run E calls).startCompletion E query = (.ok (), s') →
        ∃ front text,
          before (llamaChatApplyTemplate tmpl) s'.messages
              (sentQuery ((loaded E storeChats).run E calls)
                (sentAfter E (loaded E storeChats) none (calls ++ [.startCompletion query]))) =
            some front ∧
          llamaChatApplyTemplate tmpl s'.messages true = some (front ++ text) ∧
          E.commonTokenize text = some s'.batchTokens := by
  have hinc := incremental_llamaChatApplyTemplate hk hr
  have hsent : Sent (llamaChatApplyTemplate tmpl) (loaded E storeChats) none := fun _ => rfl
  have hrun := run_sent hT hinc (loaded_accounted E storeChats) hsent calls
  refine ⟨startCompletion_inRange hT hinc hrun query, fun s' hstart => ?_⟩
  rw [sentAfter_concat]
  exact startCompletion_continues hT hinc hrun hstart

def gemmaEngine : Engine :=
  { ByteEngine.engine 1024 with chatTemplate := some (llamaChatApplyTemplate (.lit "gemma")) }

theorem prompt_continues_gemma :
    (((loaded gemmaEngine true).run gemmaEngine [.addChatMessage (.lit "Be brief.") (.lit "system"),
        .startCompletion (.lit "hi"), .completionLoop (.ok 72), .stopCompletion]).startCompletion
        gemmaEngine (.lit "yo")).1 ≠ .error .iteratorRange :=
  (prompt_continues gemmaEngine true [.addChatMessage (.lit "Be brief.") (.lit "system"),
    .startCompletion (.lit "hi"), .completionLoop (.ok 72), .stopCompletion] (.lit "yo") rfl
    (by decide) (by decide)).1

end LLMInference

end SmollChat
