import SmollChat.Verification.LLMInference.Context
import SmollChat.Verification.SmollAI.Equations

/-! # Completions that are ended twice

`getResponse` stops its completion before `sendUserQuery` does, and `stopGeneration` cancels
one that its worker cancels again. A second end finds an empty response. -/

namespace SmollChat

/-- What has been ended stays as it is when it is ended again. -/
structure EndsOnce {σ : Type} (stop cancel : σ → σ) (s : σ) : Prop where
  stop_stop : stop (stop s) = stop s
  cancel_stop : cancel (stop s) = stop s
  cancel_cancel : cancel (cancel s) = cancel s

namespace LLMInference

variable {E : Engine} {s : LLMInference}

/-- What a stop and a cancel leave: no response, and the prefix of the list as it is. An
instance that is not loaded is left as it was. -/
def Ended (E : Engine) (s : LLMInference) : Prop :=
  s.model = true → s.ctx = true → s.response = [] ∧ s.prevLen = renderedLen E s.messages

theorem stopCompletion_ended (E : Engine) (s : LLMInference) : Ended E (s.stopCompletion E) := by
  by_cases hloaded : s.model = true ∧ s.ctx = true
  · rw [stopCompletion_eq E s hloaded.1 hloaded.2]
    exact fun _ _ => ⟨rfl, rfl⟩
  · rw [stopCompletion_of_unloaded hloaded]
    exact fun hm hc => absurd ⟨hm, hc⟩ hloaded

theorem cancelCompletion_ended (E : Engine) (s : LLMInference) :
    Ended E (s.cancelCompletion E) := by
  by_cases hloaded : s.model = true ∧ s.ctx = true
  · rw [cancelCompletion_eq E s hloaded.1 hloaded.2]
    exact fun _ _ => ⟨rfl, rfl⟩
  · rw [cancelCompletion_of_unloaded hloaded]
    exact fun hm hc => absurd ⟨hm, hc⟩ hloaded

theorem Ended.cancelCompletion (h : Ended E s) : s.cancelCompletion E = s := by
  by_cases hloaded : s.model = true ∧ s.ctx = true
  · obtain ⟨hresponse, hprefix⟩ := h hloaded.1 hloaded.2
    rw [cancelCompletion_eq E s hloaded.1 hloaded.2, ← hresponse, ← hprefix]
  · exact cancelCompletion_of_unloaded hloaded

theorem Ended.stopCompletion (h : Ended E s) : s.stopCompletion E = s := by
  by_cases hloaded : s.model = true ∧ s.ctx = true
  · obtain ⟨hresponse, hprefix⟩ := h hloaded.1 hloaded.2
    rw [stopCompletion_eq E s hloaded.1 hloaded.2, hresponse, storedReply_nil, List.append_nil,
      ← hresponse, ← hprefix]
  · exact stopCompletion_of_unloaded hloaded

theorem endsOnce (E : Engine) (s : LLMInference) :
    EndsOnce (stopCompletion E) (cancelCompletion E) s where
  stop_stop := (stopCompletion_ended E s).stopCompletion
  cancel_stop := (stopCompletion_ended E s).cancelCompletion
  cancel_cancel := (cancelCompletion_ended E s).cancelCompletion

/-- The messages of an instance and the length of the text that its next prompt leaves out. -/
def conversation (s : LLMInference) : List Message × ℕ := (s.messages, s.prevLen)

/-- What the class's methods may test and `completion_loop` leaves alone. -/
structure SameConversation (s s' : LLMInference) : Prop where
  ctx : s'.ctx = s.ctx
  model : s'.model = s.model
  conversation : s'.conversation = s.conversation

theorem loops_conversation (E : Engine) (s : LLMInference) (draws : List Draw) :
    SameConversation s (s.run E (draws.map .completionLoop)) := by
  induction draws generalizing s with
  | nil => exact ⟨rfl, rfl, rfl⟩
  | cons d draws ih =>
      obtain ⟨batch, response, currToken, kvCache, decodeCalls, drawn, hfields⟩ :=
        completionLoop_fields E s d
      have hrest := ih (s.completionLoop E d).2
      rw [List.map_cons, run, List.foldl_cons, ← run, call]
      rw [hfields] at hrest ⊢
      exact ⟨hrest.ctx, hrest.model, hrest.conversation⟩

/-- A second cancel after loop calls that were still under way adds no message and moves no
`prev_len`. -/
theorem cancel_loops_cancel (E : Engine) (s : LLMInference) (draws : List Draw) :
    (((s.cancelCompletion E).run E (draws.map .completionLoop)).cancelCompletion E).conversation =
      (s.cancelCompletion E).conversation := by
  have hloops := loops_conversation E (s.cancelCompletion E) draws
  have hended := cancelCompletion_ended E s
  generalize s.cancelCompletion E = t at hloops hended ⊢
  generalize t.run E (draws.map .completionLoop) = u at hloops ⊢
  rw [← hloops.conversation]
  by_cases hloaded : u.model = true ∧ u.ctx = true
  · obtain ⟨-, hprefix⟩ := hended (hloops.model ▸ hloaded.1) (hloops.ctx ▸ hloaded.2)
    have hmessages := congrArg Prod.fst hloops.conversation
    have hprevLen := congrArg Prod.snd hloops.conversation
    simp only [conversation] at hmessages hprevLen ⊢
    rw [cancelCompletion_eq E u hloaded.1 hloaded.2, hprevLen, hprefix, hmessages]
  · rw [cancelCompletion_of_unloaded hloaded]

end LLMInference

namespace SmollAI

theorem invokeNative_objects (s : SmollAI) (fn : NativeFn)
    (f : Engine → LLMInference → LLMInference) :
    (s.invokeNative fn f).objects = if s.nativePtr = 0 then s.objects
      else s.objects.modify (s.nativePtr - 1) fun o =>
        match o.engine with
        | none => o
        | some E => { o with object := f E o.object } := rfl

theorem invokeNative_twice (s : SmollAI) {fn fn' fn'' : NativeFn}
    {f g k : Engine → LLMInference → LLMInference} (h : ∀ E n, g E (f E n) = k E n) :
    ((s.invokeNative fn f).invokeNative fn' g).objects = (s.invokeNative fn'' k).objects := by
  have hptr : (s.invokeNative fn f).nativePtr = s.nativePtr := rfl
  rw [invokeNative_objects, hptr, invokeNative_objects, invokeNative_objects]
  split
  · rfl
  · rw [List.modify_modify_eq]
    congr 1
    funext o
    cases hE : o.engine with
    | none => simp [hE]
    | some E => simp [hE, h]

end SmollAI

/-- On every instance, for every template and engine, ending a completion twice is ending it
once; so it is for the native objects behind a Kotlin object, and loop calls between two
cancels change neither the messages nor `prev_len`. -/
theorem completions_end_once (E : Engine) (s : LLMInference) (k : SmollAI) (draws : List Draw) :
    EndsOnce (LLMInference.stopCompletion E) (LLMInference.cancelCompletion E) s ∧
      (k.stopCompletion.stopCompletion.objects = k.stopCompletion.objects ∧
        k.stopCompletion.cancelCompletion.objects = k.stopCompletion.objects ∧
        k.cancelCompletion.cancelCompletion.objects = k.cancelCompletion.objects) ∧
      (((s.cancelCompletion E).run E (draws.map .completionLoop)).cancelCompletion E).conversation =
        (s.cancelCompletion E).conversation := by
  refine ⟨LLMInference.endsOnce E s, ⟨?_, ?_, ?_⟩, LLMInference.cancel_loops_cancel E s draws⟩
  · exact k.invokeNative_twice fun E n => (LLMInference.endsOnce E n).stop_stop
  · exact k.invokeNative_twice fun E n => (LLMInference.endsOnce E n).cancel_stop
  · exact k.invokeNative_twice fun E n => (LLMInference.endsOnce E n).cancel_cancel

end SmollChat
