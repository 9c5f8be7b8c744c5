import SmollChat.Verification.LLMInference.Context

/-! # What an instance holds

A failed load gives back all it has acquired, the operations leave what is held alone,
and the destructor releases it. -/

namespace SmollChat.LLMInference

variable {E : Engine} {s : LLMInference}

/-- The requests and answers for which `load_model` does not throw. -/
def loads (r : LoadRequest) (a : LoadAnswer) : Bool :=
  !r.modelPath.isEmpty && decide (0 ≤ r.minP ∧ r.minP ≤ 1) &&
    decide (0 ≤ r.temperature ∧ r.temperature ≤ 10) &&
    a.engine.isSome && a.vocab && a.context && a.sampler

/-- A load of a new instance succeeds, or throws with nothing held. -/
theorem loadModel_cases (r : LoadRequest) (a : LoadAnswer) :
    (loads r a = true ∧ ∃ E, new.loadModel r a = (.ok E, loaded E r.storeChats)) ∨
      (loads r a = false ∧ ∃ e n, new.loadModel r a = (.error e, n) ∧ n.held = []) := by
  unfold loadModel loads
  split
  · rename_i hpath
    exact .inr ⟨by simp [hpath], _, _, rfl, rfl⟩
  rename_i hpath
  split
  · rename_i hminP
    exact .inr ⟨by grind, _, _, rfl, rfl⟩
  rename_i hminP
  split
  · rename_i htemp
    exact .inr ⟨by grind, _, _, rfl, rfl⟩
  rename_i htemp
  split
  · rename_i hengine
    exact .inr ⟨by simp [hengine], _, _, rfl, rfl⟩
  rename_i E hengine
  simp only
  split
  · rename_i hvocab
    exact .inr ⟨by simp_all, _, _, rfl, rfl⟩
  rename_i hvocab
  split
  · rename_i hcontext
    exact .inr ⟨by simp_all, _, _, rfl, rfl⟩
  rename_i hcontext
  split
  · rename_i hsampler
    exact .inr ⟨by simp_all, _, _, rfl, rfl⟩
  · rename_i hsampler
    exact .inl ⟨by grind, E, rfl⟩

/-- The pointers of an instance are exactly what it holds: everything or nothing. -/
inductive Owns (s : LLMInference) : Prop where
  | all (model : s.model = true) (ctx : s.ctx = true) (sampler : s.sampler = true)
      (held : s.held = [.model, .context, .sampler])
  | nothing (model : s.model = false) (ctx : s.ctx = false) (sampler : s.sampler = false)
      (held : s.held = [])

theorem loaded_owns (E : Engine) (storeChats : Bool) : Owns (loaded E storeChats) :=
  .all rfl rfl rfl rfl

/-- The destructor releases everything, and nothing twice. -/
theorem destroy_owns (h : Owns s) : Owns s.destroy ∧ s.destroy.held = [] := by
  cases h with
  | all hm hc hs hh =>
      have hheld : s.destroy.held = [] := by
        simp [destroy, release, hm, hc, hs, hh]
      refine ⟨.nothing ?_ ?_ ?_ hheld, hheld⟩ <;> simp [destroy, release, hm, hc, hs]
  | nothing hm hc hs hh =>
      have hheld : s.destroy.held = [] := by
        simp [destroy, hm, hc, hs, hh]
      refine ⟨.nothing ?_ ?_ ?_ hheld, hheld⟩ <;> simp [destroy, hm, hc, hs]

/-! ## The operations -/

structure SameResources (s s' : LLMInference) : Prop where
  model : s'.model = s.model
  ctx : s'.ctx = s.ctx
  sampler : s'.sampler = s.sampler
  held : s'.held = s.held

theorem SameResources.refl (s : LLMInference) : SameResources s s := ⟨rfl, rfl, rfl, rfl⟩

theorem Owns.congr {s' : LLMInference} (h : Owns s) (hsame : SameResources s s') : Owns s' := by
  cases h with
  | all hm hc hs hh =>
      exact .all (hsame.model.trans hm) (hsame.ctx.trans hc) (hsame.sampler.trans hs)
        (hsame.held.trans hh)
  | nothing hm hc hs hh =>
      exact .nothing (hsame.model.trans hm) (hsame.ctx.trans hc) (hsame.sampler.trans hs)
        (hsame.held.trans hh)

theorem completionLoop_resources (E : Engine) (s : LLMInference) (d : Draw) :
    SameResources s (s.completionLoop E d).2 := by
  obtain ⟨r, s', heq, hexit⟩ := completionLoop_exit E s d
  rw [heq]
  cases hexit with
  | notReady => exact .refl s
  | undrawn => exact ⟨rfl, rfl, rfl, rfl⟩
  | drawn _ _ _ htoken => cases htoken <;> exact ⟨rfl, rfl, rfl, rfl⟩

theorem stopCompletion_resources (E : Engine) (s : LLMInference) :
    SameResources s (s.stopCompletion E) := by
  by_cases h : s.model = true ∧ s.ctx = true
  · rw [stopCompletion_eq E s h.1 h.2]
    exact ⟨rfl, rfl, rfl, rfl⟩
  · have hskip : s.stopCompletion E = s := if_pos (by grind)
    rw [hskip]
    exact .refl s

theorem cancelCompletion_resources (E : Engine) (s : LLMInference) :
    SameResources s (s.cancelCompletion E) := by
  by_cases h : s.model = true ∧ s.ctx = true
  · rw [cancelCompletion_eq E s h.1 h.2]
    exact ⟨rfl, rfl, rfl, rfl⟩
  · have hskip : s.cancelCompletion E = s := if_pos (by grind)
    rw [hskip]
    exact .refl s

theorem call_resources (E : Engine) (s : LLMInference) (c : Call) :
    SameResources s (s.call E c) := by
  cases c with
  | addChatMessage message role => exact ⟨rfl, rfl, rfl, rfl⟩
  | startCompletion query =>
      have h := startCompletion_frame E s query
      exact ⟨h.model, h.ctx, h.sampler, h.held⟩
  | completionLoop d => exact completionLoop_resources E s d
  | stopCompletion => exact stopCompletion_resources E s
  | cancelCompletion => exact cancelCompletion_resources E s

end SmollChat.LLMInference
