import SmollChat.Verification.LLMInference.Context

/-! # After the end of a completion

Whether `completion_loop` runs is decided by the batch alone. Neither `[EOG]` nor a stop or
a cancel takes the batch away, so the next call decodes what it holds by then: the token that
ended the generation, or the last one sampled before the stop. -/

namespace SmollChat

def LoopResult.isError : LoopResult → Bool
  | .error _ => true
  | _ => false

namespace LLMInference

variable {E : Engine} {s : LLMInference}

/-! ## Late calls -/

/-- Nothing decoded, nothing sampled, and the texts and the cache as before. -/
structure Untouched (s s' : LLMInference) : Prop where
  decodeCalls : s'.decodeCalls = s.decodeCalls
  draws : s'.draws = s.draws
  response : s'.response = s.response
  messages : s'.messages = s.messages
  kvCache : s'.kvCache = s.kvCache

instance (s s' : LLMInference) : Decidable (Untouched s s') :=
  decidable_of_iff (s'.decodeCalls = s.decodeCalls ∧ s'.draws = s.draws ∧
      s'.response = s.response ∧ s'.messages = s.messages ∧ s'.kvCache = s.kvCache)
    ⟨fun ⟨h₁, h₂, h₃, h₄, h₅⟩ => ⟨h₁, h₂, h₃, h₄, h₅⟩,
      fun ⟨h₁, h₂, h₃, h₄, h₅⟩ => ⟨h₁, h₂, h₃, h₄, h₅⟩⟩

/-- Each of the `completion_loop` calls answers an error and touches nothing. -/
def Idles (E : Engine) : LLMInference → List Draw → Prop
  | _, [] => True
  | s, d :: draws =>
      (s.completionLoop E d).1.isError = true ∧ Untouched s (s.completionLoop E d).2 ∧
        Idles E (s.completionLoop E d).2 draws

instance Idles.decidable (E : Engine) : ∀ (s : LLMInference) (draws : List Draw),
    Decidable (Idles E s draws)
  | _, [] => isTrue trivial
  | s, d :: draws =>
      have := Idles.decidable E (s.completionLoop E d).2 draws
      inferInstanceAs (Decidable (_ ∧ _ ∧ _))

/-- The calls after which a completion is over. -/
inductive Finish where
  | eog (d : Draw)
  | stop
  | cancel

def Finish.call : Finish → Call
  | eog d => .completionLoop d
  | stop => .stopCompletion
  | cancel => .cancelCompletion

/-- Whether the call ends a completion in a state: a `completion_loop` call does where it
returns `[EOG]`. -/
def Finish.Ends (E : Engine) (s : LLMInference) : Finish → Prop
  | eog d => (s.completionLoop E d).1 = .eog
  | stop => True
  | cancel => True

/-- No batch that `completion_loop` accepts: none set, an empty one or too long a one. -/
def NoBatch (E : Engine) (s : LLMInference) : Prop :=
  s.batch.token = .null ∨ s.batch.nTokens = 0 ∨ (s.batch.nTokens : ℤ) > E.nCtx - 300

/-! ## The batch decides -/

theorem readyToDecode_iff (h : Accounted s) (E : Engine) : ReadyToDecode E s ↔ ¬NoBatch E s := by
  unfold NoBatch
  rw [not_or, not_or]
  constructor
  · intro hready
    refine ⟨hready.token, ?_, ?_⟩
    · have hpos := hready.nonempty
      omega
    · have hfits := hready.fits
      omega
  · rintro ⟨htoken, hne, hfits⟩
    exact ⟨h.ctx, h.model, h.sampler, by omega, htoken, by omega⟩

theorem idles_of_not_ready (h : ¬ReadyToDecode E s) (draws : List Draw) : Idles E s draws := by
  induction draws with
  | nil => trivial
  | cons d draws ih =>
      obtain ⟨e, he⟩ := completionLoop_of_not_ready h d
      rw [Idles, he]
      exact ⟨rfl, ⟨rfl, rfl, rfl, rfl, rfl⟩, ih⟩

/-- A first late call with a usable batch already decodes. -/
theorem not_idles_of_ready (h : ReadyToDecode E s) (d : Draw) (draws : List Draw) :
    ¬Idles E s (d :: draws) := by
  rintro ⟨-, huntouched, -⟩
  have hgrow := congrArg List.length (decodeCalls_of_ready h d)
  rw [huntouched.decodeCalls, List.length_append, List.length_singleton] at hgrow
  omega

theorem idles_iff (h : Accounted s) (E : Engine) (draws : List Draw) :
    Idles E s draws ↔ draws = [] ∨ NoBatch E s := by
  by_cases hbatch : NoBatch E s
  · have hready : ¬ReadyToDecode E s := by
      rw [readyToDecode_iff h]
      exact not_not_intro hbatch
    simp [idles_of_not_ready hready, hbatch]
  · have hready := (readyToDecode_iff h E).mpr hbatch
    cases draws with
    | nil => simp [Idles]
    | cons d draws => simp [not_idles_of_ready hready, hbatch]

theorem finish_batch (h : Accounted s) {f : Finish} (hf : f.Ends E s) :
    (s.call E f.call).batch = s.batch := by
  cases f with
  | eog d =>
      have hloop : s.completionLoop E d = (.eog, (s.completionLoop E d).2) := Prod.ext hf rfl
      obtain ⟨-, heq⟩ := completionLoop_eog hloop
      rw [Finish.call, call, heq]
      rfl
  | stop =>
      rw [Finish.call, call, stopCompletion_eq E s h.model h.ctx]
  | cancel =>
      rw [Finish.call, call, cancelCompletion_eq E s h.model h.ctx]

/-- In every state of a run on a loaded instance, the calls that come after the end of a
completion idle exactly when there are none or the batch was of no use before the end. -/
theorem staysFinished_iff (E : Engine) (storeChats : Bool) (calls : List Call) (f : Finish)
    (draws : List Draw) (h : f.Ends E ((loaded E storeChats).run E calls)) :
    Idles E (((loaded E storeChats).run E calls).call E f.call) draws ↔
      draws = [] ∨ NoBatch E ((loaded E storeChats).run E calls) := by
  have hacc := run_accounted (loaded_accounted E storeChats) E calls
  rw [idles_iff (call_accounted hacc E f.call), NoBatch, NoBatch, finish_batch hacc h]

/-- After the stop of a completion whose batch was too long for `completion_loop`. -/
theorem staysFinished_overlong :
    Idles (ByteEngine.engine 992)
      (((loaded (ByteEngine.engine 992) true).run (ByteEngine.engine 992)
        [.startCompletion (letters 700)]).call (ByteEngine.engine 992) .stopCompletion)
      [.ok 72, .ok 73] :=
  (staysFinished_iff (ByteEngine.engine 992) true [.startCompletion (letters 700)] .stop
    [.ok 72, .ok 73] trivial).mpr (.inr (.inr (by decide +kernel)))

/-- One call after `[EOG]`, a stop or a cancel decodes what the batch holds. -/
theorem staysFinished_fails :
    (((loaded (ByteEngine.engine 1024) true).run (ByteEngine.engine 1024)
        [.startCompletion (.lit "hi"), .completionLoop (.ok 72)]).completionLoop
          (ByteEngine.engine 1024) (.ok 257)).1 = .eog ∧
      ¬Idles (ByteEngine.engine 1024)
        ((loaded (ByteEngine.engine 1024) true).run (ByteEngine.engine 1024)
          [.startCompletion (.lit "hi"), .completionLoop (.ok 72), .completionLoop (.ok 257)])
        [.ok 73] ∧
      ¬Idles (ByteEngine.engine 1024)
        ((loaded (ByteEngine.engine 1024) true).run (ByteEngine.engine 1024)
          [.startCompletion (.lit "hi"), .completionLoop (.ok 72), .stopCompletion]) [.ok 73] ∧
      ¬Idles (ByteEngine.engine 1024)
        ((loaded (ByteEngine.engine 1024) true).run (ByteEngine.engine 1024)
          [.startCompletion (.lit "hi"), .completionLoop (.ok 72), .cancelCompletion])
        [.ok 73] := by
  decide +kernel

end LLMInference

end SmollChat
