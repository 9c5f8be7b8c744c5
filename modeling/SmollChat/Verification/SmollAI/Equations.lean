import SmollChat.Model.SmollAI
import SmollChat.Verification.LLMInference.Resources

/-! Computation rules for the Kotlin object and the objects behind its handle. -/

namespace SmollChat.SmollAI

variable {s : SmollAI}

/-! ## Calls through the handle -/

@[simp] theorem invoke_nativePtr (fn : NativeFn) (f : NativeObject → NativeObject) :
    (s.invoke fn f).nativePtr = s.nativePtr := rfl

@[simp] theorem invoke_calls (fn : NativeFn) (f : NativeObject → NativeObject) :
    (s.invoke fn f).calls = s.calls ++ [⟨fn, s.nativePtr⟩] := rfl

@[simp] theorem invoke_length (fn : NativeFn) (f : NativeObject → NativeObject) :
    (s.invoke fn f).objects.length = s.objects.length := by
  unfold invoke
  split <;> simp

theorem invoke_getElem? (fn : NativeFn) (f : NativeObject → NativeObject) (i : ℕ) :
    (s.invoke fn f).objects[i]? =
      if i + 1 = s.nativePtr then s.objects[i]?.map f else s.objects[i]? := by
  unfold invoke
  split
  · rename_i hnull
    simp [hnull]
  · rename_i hptr
    rw [List.getElem?_modify]
    have hiff : s.nativePtr - 1 = i ↔ i + 1 = s.nativePtr := by omega
    simp only [hiff]
    split <;> simp_all

theorem invoke_deref (fn : NativeFn) (f : NativeObject → NativeObject) (p : ℕ) :
    (s.invoke fn f).deref p = if p = s.nativePtr then (s.deref p).map f else s.deref p := by
  unfold deref
  by_cases hp : p = 0
  · simp [hp]
  · have hsucc : p - 1 + 1 = p := Nat.sub_add_cancel (Nat.one_le_iff_ne_zero.mpr hp)
    rw [if_neg hp, if_neg hp, invoke_getElem?, hsucc]

/-- An operation of the class acts on the loaded instance behind the handle. -/
theorem invokeNative_map (fn : NativeFn) (f : Engine → LLMInference → LLMInference) :
    (s.invokeNative fn f).native = s.native.map fun n => (n.1, f n.1 n.2) := by
  have hptr : (s.invokeNative fn f).nativePtr = s.nativePtr := rfl
  unfold native
  rw [hptr, invokeNative, invoke_deref, if_pos rfl]
  cases s.deref s.nativePtr with
  | none => rfl
  | some o => cases hE : o.engine <;> simp [hE]

theorem invokeNative_native {E : Engine} {n : LLMInference} (h : s.native = some (E, n))
    (fn : NativeFn) (f : Engine → LLMInference → LLMInference) :
    (s.invokeNative fn f).native = some (E, f E n) := by
  rw [invokeNative_map, h]
  rfl

theorem invokeNative_deref {p : ℕ} (hp : p ≠ s.nativePtr) (fn : NativeFn)
    (f : Engine → LLMInference → LLMInference) : (s.invokeNative fn f).deref p = s.deref p := by
  rw [invokeNative, invoke_deref, if_neg hp]

theorem addChatMessage_native {E : Engine} {n : LLMInference} (h : s.native = some (E, n))
    (message role : CString) :
    (s.addChatMessage message role).native =
      some (E, { n with messages := n.messages ++ LLMInference.storedMessage message role }) := by
  rw [addChatMessage, invokeNative_native h, LLMInference.addChatMessage,
    LLMInference.appendMessage_eq]

/-! ## Loading -/

/-- A load that succeeds hands out the next handle, to a new instance without messages. -/
theorem loadModel_loads {r : LLMInference.LoadRequest} {a : LLMInference.LoadAnswer}
    (h : LLMInference.loads r a = true) :
    ∃ E, s.loadModel r a = (s.objects.length + 1, { s with
      objects := s.objects ++ [⟨some E, LLMInference.loaded E r.storeChats, false⟩] }) := by
  rcases LLMInference.loadModel_cases r a with ⟨-, E, hE⟩ | ⟨hno, -⟩
  · exact ⟨E, by simp [loadModel, hE]⟩
  · simp [h] at hno

theorem deref_append {objects : List NativeObject} {o : NativeObject} {p : ℕ}
    (hp : p ≤ s.objects.length) (hobjects : objects = s.objects ++ [o]) :
    ({ s with objects := objects } : SmollAI).deref p = s.deref p := by
  unfold deref
  split
  · rfl
  · rw [hobjects, List.getElem?_append_left (by omega)]

theorem deref_new {objects : List NativeObject} {o : NativeObject}
    (hobjects : objects = s.objects ++ [o]) :
    ({ s with objects := objects } : SmollAI).deref (s.objects.length + 1) = some o := by
  simp [deref, hobjects]

theorem deref_le {p : ℕ} {o : NativeObject} (h : s.deref p = some o) :
    p ≠ 0 ∧ p ≤ s.objects.length := by
  unfold deref at h
  split at h
  · cases h
  · have := (List.getElem?_eq_some_iff.mp h).1
    omega

theorem create_native {r : LLMInference.LoadRequest} {a : LLMInference.LoadAnswer}
    (h : LLMInference.loads r a = true) :
    ∃ E, (s.create r a).native = some (E, LLMInference.loaded E r.storeChats) := by
  obtain ⟨E, hload⟩ := loadModel_loads (s := s) h
  refine ⟨E, ?_⟩
  simp [create, hload, native, deref]

end SmollChat.SmollAI
