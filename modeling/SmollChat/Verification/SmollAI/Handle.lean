import SmollChat.Library.Transition
import SmollChat.Model.ByteEngine
import SmollChat.Verification.SmollAI.Equations

/-! # The native handle

The class keeps its handle as a bare number. `close` does not reset it and `create`
overwrites it, so what the native side sees and what it keeps depend on the order of
the calls. -/

namespace SmollChat.SmollAI

open LLMInference (LoadRequest LoadAnswer loads)

variable {s : SmollAI} {c : Call}

/-! ## What a call does to the handle -/

/-- The entry point a call goes to; `create` has one that takes no handle. -/
def Call.fn : Call → Option NativeFn
  | .create _ _ => none
  | .addUserMessage _ | .addSystemPrompt _ | .addAssistantMessage _ => some .addChatMessage
  | .startCompletion _ => some .startCompletion
  | .completionLoop _ => some .completionLoop
  | .stopCompletion => some .stopCompletionInternal
  | .cancelCompletion => some .cancelCompletionInternal
  | .close => some .close

theorem create_nativePtr (s : SmollAI) (r : LoadRequest) (a : LoadAnswer) :
    (s.create r a).nativePtr = if loads r a then s.objects.length + 1 else 0 := by
  unfold create loadModel
  rcases LLMInference.loadModel_cases r a with ⟨hl, E, h⟩ | ⟨hl, e, n, h, -⟩ <;> simp [h, hl]

theorem create_objects (s : SmollAI) (r : LoadRequest) (a : LoadAnswer) :
    ∃ engine, (s.create r a).objects =
      s.objects ++ [⟨engine, (LLMInference.new.loadModel r a).2, false⟩] := by
  unfold create loadModel
  split <;> rename_i h <;> exact ⟨_, by rw [h]⟩

theorem create_calls (s : SmollAI) (r : LoadRequest) (a : LoadAnswer) :
    (s.create r a).calls = s.calls := by
  unfold create loadModel
  split <;> rfl

theorem call_eq_invoke {fn : NativeFn} (h : c.fn = some fn) :
    ∃ f, s.call c = s.invoke fn f := by
  cases c <;> cases h <;> exact ⟨_, rfl⟩

/-! ## Use after close -/

/-- No native function is called with a handle that was closed before. -/
def NeverStale (calls : List NativeCall) : Prop :=
  calls.Pairwise fun earlier later => later.ptr ≠ 0 → earlier ≠ ⟨.close, later.ptr⟩

/-- What the calls so far have left in `nativePtr`. -/
inductive HandleState where
  | null
  | loaded
  | closed
  deriving DecidableEq

/-- The calls that are safe in a state of the handle. After the `close` of a loaded handle
only another `create` is. -/
def HandleState.next : HandleState → Call → Option HandleState
  | _, .create r a => some (if loads r a then .loaded else .null)
  | .null, _ => some .null
  | .loaded, .close => some .closed
  | .loaded, _ => some .loaded
  | .closed, _ => none

/-- The handle is what its state says, and all handles in use are ones handed out. -/
structure HandleTracks (s : SmollAI) (h : HandleState) : Prop where
  bound : s.nativePtr ≤ s.objects.length
  logged : ∀ k ∈ s.calls, k.ptr ≤ s.objects.length
  null : h = .null → s.nativePtr = 0
  loaded : h = .loaded → s.nativePtr ≠ 0 ∧ ⟨.close, s.nativePtr⟩ ∉ s.calls
  closed : h = .closed → s.nativePtr ≠ 0 ∧ ⟨.close, s.nativePtr⟩ ∈ s.calls

theorem neverStale_invoke (fn : NativeFn) (f : NativeObject → NativeObject) :
    NeverStale (s.invoke fn f).calls ↔
      NeverStale s.calls ∧ (s.nativePtr ≠ 0 → ⟨.close, s.nativePtr⟩ ∉ s.calls) := by
  simp only [NeverStale, invoke_calls, List.pairwise_append, List.pairwise_singleton,
    List.mem_singleton, forall_eq, true_and, and_congr_right_iff]
  intro _
  constructor
  · intro h hptr hmem
    exact h _ hmem hptr rfl
  · rintro h k hk hptr rfl
    exact h hptr hk

theorem create_tracks {h : HandleState} (ht : HandleTracks s h) (r : LoadRequest)
    (a : LoadAnswer) :
    HandleTracks (s.create r a) (if loads r a then .loaded else .null) := by
  obtain ⟨engine, hobjects⟩ := create_objects s r a
  have hlen : (s.create r a).objects.length = s.objects.length + 1 := by simp [hobjects]
  have hptr := create_nativePtr s r a
  have hcalls := create_calls s r a
  refine ⟨?_, ?_, ?_, ?_, ?_⟩
  · rw [hptr, hlen]
    split <;> omega
  · intro k hk
    rw [hcalls] at hk
    have := ht.logged k hk
    omega
  · intro hnull
    split at hnull
    · cases hnull
    · simp_all
  · intro hloaded
    split at hloaded
    · rename_i hl
      rw [hptr, hcalls, if_pos hl]
      refine ⟨by omega, ?_⟩
      intro hmem
      exact absurd (ht.logged _ hmem) (Nat.not_succ_le_self _)
    · cases hloaded
  · intro hclosed
    split at hclosed <;> cases hclosed

theorem invoke_tracks {h h' : HandleState} (ht : HandleTracks s h) (fn : NativeFn)
    (f : NativeObject → NativeObject)
    (hnull : h' = .null → s.nativePtr = 0)
    (hloaded : h' = .loaded → h = .loaded ∧ fn ≠ .close)
    (hclosed : h' = .closed → s.nativePtr ≠ 0 ∧ fn = .close) :
    HandleTracks (s.invoke fn f) h' := by
  refine ⟨by simpa using ht.bound, ?_, hnull, ?_, ?_⟩
  · intro k hk
    rw [invoke_length]
    rcases List.mem_append.mp hk with hk | hk
    · exact ht.logged k hk
    · obtain rfl := List.mem_singleton.mp hk
      exact ht.bound
  · intro h'
    obtain ⟨hl, hfn⟩ := hloaded h'
    obtain ⟨hptr, hnot⟩ := ht.loaded hl
    refine ⟨hptr, ?_⟩
    intro hmem
    rcases List.mem_append.mp hmem with hmem | hmem
    · exact hnot hmem
    · simp only [List.mem_singleton, NativeCall.mk.injEq] at hmem
      exact hfn hmem.1.symm
  · intro h'
    obtain ⟨hptr, rfl⟩ := hclosed h'
    exact ⟨hptr, by simp⟩

theorem next_of_fn {h h' : HandleState} {fn : NativeFn} (hfn : c.fn = some fn)
    (hn : h.next c = some h') :
    (h = .null ∧ h' = .null) ∨ (h = .loaded ∧ fn = .close ∧ h' = .closed) ∨
      (h = .loaded ∧ fn ≠ .close ∧ h' = .loaded) := by
  cases h <;> cases c <;> simp_all [HandleState.next, Call.fn] <;> simp [← hfn]

theorem call_tracks {h h' : HandleState} (ht : HandleTracks s h) (hs : NeverStale s.calls)
    (hn : h.next c = some h') :
    HandleTracks (s.call c) h' ∧ NeverStale (s.call c).calls := by
  cases hc : c.fn with
  | none =>
      cases c with
      | create r a =>
          obtain rfl : (if loads r a then .loaded else .null) = h' := by
            cases h <;> simpa [HandleState.next] using hn
          exact ⟨create_tracks ht r a, by rw [call, create_calls]; exact hs⟩
      | _ => cases hc
  | some fn =>
      obtain ⟨f, hf⟩ := call_eq_invoke (s := s) hc
      rw [hf, neverStale_invoke]
      rcases next_of_fn hc hn with ⟨rfl, rfl⟩ | ⟨rfl, rfl, rfl⟩ | ⟨rfl, hne, rfl⟩
      · have hptr := ht.null rfl
        exact ⟨invoke_tracks ht fn f (fun _ => hptr) (by simp) (by simp), hs,
          fun h => absurd hptr h⟩
      · have hl := ht.loaded rfl
        exact ⟨invoke_tracks ht _ f (by simp) (by simp) fun _ => ⟨hl.1, rfl⟩, hs, fun _ => hl.2⟩
      · have hl := ht.loaded rfl
        exact ⟨invoke_tracks ht fn f (by simp) (fun _ => ⟨rfl, hne⟩) (by simp), hs, fun _ => hl.2⟩

theorem call_stale {h : HandleState} (ht : HandleTracks s h) (hn : h.next c = none) :
    ¬NeverStale (s.call c).calls := by
  have hclosed : h = .closed := by cases h <;> cases c <;> simp_all [HandleState.next]
  obtain ⟨fn, hfn⟩ : ∃ fn, c.fn = some fn := by
    cases c with
    | create r a => simp [HandleState.next] at hn
    | _ => exact ⟨_, rfl⟩
  obtain ⟨f, hf⟩ := call_eq_invoke (s := s) hfn
  obtain ⟨hptr, hmem⟩ := ht.closed hclosed
  rw [hf, neverStale_invoke]
  exact fun hall => hall.2 hptr hmem

theorem new_tracks : HandleTracks new .null :=
  ⟨Nat.le_refl 0, by simp [new], fun _ => rfl, by simp [new], by simp [new]⟩

theorem call_calls_grow (s : SmollAI) (c : Call) : s.calls <+: (s.call c).calls := by
  cases hc : c.fn with
  | none =>
      cases c with
      | create r a => exact ⟨[], by rw [call, create_calls, List.append_nil]⟩
      | _ => cases hc
  | some fn =>
      obtain ⟨f, hf⟩ := call_eq_invoke (s := s) hc
      rw [hf]
      exact ⟨_, rfl⟩

theorem run_calls_grow (s : SmollAI) (calls : List Call) : s.calls <+: (s.run calls).calls := by
  induction calls generalizing s with
  | nil => exact List.prefix_rfl
  | cons c calls ih => exact (call_calls_grow s c).trans (ih (s.call c))

/-- The native side never sees a closed handle exactly if every `close` of a loaded
handle is followed by nothing or by a `create`. -/
theorem neverStale_iff (calls : List Call) :
    NeverStale (new.run calls).calls ↔ (Transition.exec HandleState.next .null calls).isSome := by
  have hmonitor := Transition.monitor_iff call HandleState.next
    (fun _ _ _ _ => call_tracks) (fun _ _ _ => call_stale) new_tracks
    (show NeverStale new.calls from .nil) calls
  rw [← hmonitor]
  constructor
  · rintro h pre ⟨rest, rfl⟩
    refine h.sublist (List.IsPrefix.sublist ?_)
    have := run_calls_grow (new.run pre) rest
    rwa [run, run, ← List.foldl_append] at this
  · intro h
    exact h calls List.prefix_rfl

/-- The model is deleted and the screen is left afterwards: both close the handle. -/
theorem neverStale_fails :
    ¬NeverStale (new.run [.create byteRequest byteAnswer, .close, .close]).calls := by
  rw [show (new.run [.create byteRequest byteAnswer, .close, .close]).calls =
    [⟨.close, 1⟩, ⟨.close, 1⟩] by decide +kernel]
  simp [NeverStale]

/-! ## One live instance -/

/-- The live objects are at most the current one, and no other object holds anything. -/
structure AtMostCurrent (s : SmollAI) : Prop where
  object : ∀ i o, s.objects[i]? = some o → o.deleted = false → i + 1 = s.nativePtr
  resources : ∀ i o, s.objects[i]? = some o → i + 1 ≠ s.nativePtr → o.object.held = []

/-- The calls that keep the accounting, from whether an instance is live: `create` only
without one, and only where the load succeeds. -/
def nextLive : Bool → Call → Option Bool
  | live, .create r a => if !live && loads r a then some true else none
  | _, .close => some false
  | live, _ => some live

/-- Every object has been deleted and holds nothing, but for a live current one. -/
structure LiveTracks (s : SmollAI) (live : Bool) : Prop where
  bound : s.nativePtr ≤ s.objects.length
  current : live = true → ∃ o, s.deref s.nativePtr = some o ∧ o.deleted = false
  owns : ∀ o ∈ s.objects, LLMInference.Owns o.object
  deleted : ∀ i o, s.objects[i]? = some o → (live = true → i + 1 ≠ s.nativePtr) →
    o.deleted = true ∧ o.object.held = []

theorem LiveTracks.atMostCurrent {live : Bool} (h : LiveTracks s live) : AtMostCurrent s where
  object i o ho hdeleted := by
    by_contra hne
    have := (h.deleted i o ho fun _ => hne).1
    simp [hdeleted] at this
  resources i o ho hne := (h.deleted i o ho fun _ => hne).2

theorem new_liveTracks : LiveTracks new false :=
  ⟨Nat.le_refl 0, by simp, by simp [new], by simp [new]⟩

theorem call_eq_native (h : c.fn ≠ none) (hclose : c ≠ .close) :
    ∃ fn f, s.call c = s.invokeNative fn f ∧
      ∀ E n, LLMInference.SameResources n (f E n) := by
  cases c with
  | create r a => exact absurd rfl h
  | addUserMessage message =>
      exact ⟨_, _, rfl, fun E n => n.call_resources E (.addChatMessage message (.lit "user"))⟩
  | addSystemPrompt prompt =>
      exact ⟨_, _, rfl, fun E n => n.call_resources E (.addChatMessage prompt (.lit "system"))⟩
  | addAssistantMessage message =>
      exact ⟨_, _, rfl, fun E n => n.call_resources E (.addChatMessage message (.lit "assistant"))⟩
  | startCompletion query =>
      exact ⟨_, _, rfl, fun E n => n.call_resources E (.startCompletion query)⟩
  | completionLoop d => exact ⟨_, _, rfl, fun E n => n.call_resources E (.completionLoop d)⟩
  | stopCompletion => exact ⟨_, _, rfl, fun E n => n.call_resources E .stopCompletion⟩
  | cancelCompletion => exact ⟨_, _, rfl, fun E n => n.call_resources E .cancelCompletion⟩
  | close => exact absurd rfl hclose

theorem native_liveTracks {live : Bool} (ht : LiveTracks s live) (hfn : c.fn ≠ none)
    (hclose : c ≠ .close) : LiveTracks (s.call c) live := by
  obtain ⟨fn, f, hcall, hsame⟩ := call_eq_native (s := s) hfn hclose
  have hobj : ∀ (i : ℕ) (o' : NativeObject), (s.call c).objects[i]? = some o' →
      ∃ o : NativeObject, s.objects[i]? = some o ∧ o'.deleted = o.deleted ∧
        LLMInference.SameResources o.object o'.object := by
    intro i o' ho'
    rw [hcall, invokeNative, invoke_getElem?] at ho'
    split at ho'
    · obtain ⟨o, ho, rfl⟩ := Option.map_eq_some_iff.mp ho'
      refine ⟨o, ho, ?_⟩
      split
      · exact ⟨rfl, .refl _⟩
      · exact ⟨rfl, hsame _ _⟩
    · exact ⟨o', ho', rfl, .refl _⟩
  have hptr : (s.call c).nativePtr = s.nativePtr := by rw [hcall]; rfl
  refine ⟨?_, ?_, ?_, ?_⟩
  · rw [hptr, hcall, invokeNative, invoke_length]
    exact ht.bound
  · intro hlive
    obtain ⟨o, ho, hdeleted⟩ := ht.current hlive
    unfold deref at ho ⊢
    rw [hptr]
    split at ho
    · cases ho
    rename_i hne
    rw [if_neg hne, hcall, invokeNative, invoke_getElem?, if_pos (by omega), ho]
    refine ⟨_, rfl, ?_⟩
    simp only
    split <;> exact hdeleted
  · intro o' ho'
    obtain ⟨i, hi⟩ := List.mem_iff_getElem?.mp ho'
    obtain ⟨o, ho, -, hres⟩ := hobj i o' hi
    exact (ht.owns o (List.mem_of_getElem? ho)).congr hres
  · intro i o' ho' hne
    obtain ⟨o, ho, hdeleted, hres⟩ := hobj i o' ho'
    rw [hptr] at hne
    have hold := ht.deleted i o ho hne
    exact ⟨hdeleted.trans hold.1, hres.held.trans hold.2⟩

theorem close_liveTracks {live : Bool} (ht : LiveTracks s live) : LiveTracks s.close false := by
  have hobj : ∀ i o', s.close.objects[i]? = some o' → ∃ o, s.objects[i]? = some o ∧
      o' = if i + 1 = s.nativePtr then { o with object := o.object.destroy, deleted := true }
        else o := by
    intro i o' ho'
    rw [close, invoke_getElem?] at ho'
    split at ho'
    · rename_i hi
      obtain ⟨o, ho, rfl⟩ := Option.map_eq_some_iff.mp ho'
      exact ⟨o, ho, (if_pos hi).symm⟩
    · rename_i hi
      exact ⟨o', ho', (if_neg hi).symm⟩
  refine ⟨?_, by simp, ?_, ?_⟩
  · rw [close, invoke_nativePtr, invoke_length]
    exact ht.bound
  · intro o' ho'
    obtain ⟨i, hi⟩ := List.mem_iff_getElem?.mp ho'
    obtain ⟨o, ho, rfl⟩ := hobj i o' hi
    have howns := ht.owns o (List.mem_of_getElem? ho)
    split
    · exact (LLMInference.destroy_owns howns).1
    · exact howns
  · intro i o' ho' _
    obtain ⟨o, ho, rfl⟩ := hobj i o' ho'
    split
    · exact ⟨rfl, (LLMInference.destroy_owns (ht.owns o (List.mem_of_getElem? ho))).2⟩
    · rename_i hne
      exact ht.deleted i o ho fun _ => hne

theorem create_liveTracks {r : LoadRequest} {a : LoadAnswer} (ht : LiveTracks s false)
    (hl : loads r a = true) : LiveTracks (s.create r a) true := by
  obtain ⟨engine, hobjects⟩ := create_objects s r a
  have hptr : (s.create r a).nativePtr = s.objects.length + 1 := by rw [create_nativePtr, if_pos hl]
  have hobject : LLMInference.Owns (LLMInference.new.loadModel r a).2 := by
    rcases LLMInference.loadModel_cases r a with ⟨-, E, h⟩ | ⟨hno, -⟩
    · rw [h]
      exact LLMInference.loaded_owns E r.storeChats
    · simp [hl] at hno
  refine ⟨by simp [hptr, hobjects], ?_, ?_, ?_⟩
  · intro _
    exact ⟨⟨engine, (LLMInference.new.loadModel r a).2, false⟩,
      by simp [deref, hptr, hobjects], rfl⟩
  · intro o ho
    rw [hobjects, List.mem_append, List.mem_singleton] at ho
    rcases ho with ho | rfl
    · exact ht.owns o ho
    · exact hobject
  · intro i o ho hne
    rw [hptr] at hne
    have hi : i < s.objects.length := by
      have hlt := (List.getElem?_eq_some_iff.mp ho).1
      have hsize : (s.create r a).objects.length = s.objects.length + 1 := by simp [hobjects]
      have := hne rfl
      omega
    rw [hobjects, List.getElem?_append_left hi] at ho
    exact ht.deleted i o ho (by simp)

theorem call_liveTracks {live live' : Bool} (ht : LiveTracks s live)
    (hn : nextLive live c = some live') :
    LiveTracks (s.call c) live' ∧ AtMostCurrent (s.call c) := by
  suffices h : LiveTracks (s.call c) live' from ⟨h, h.atMostCurrent⟩
  cases c with
  | create r a =>
      simp only [nextLive, Bool.and_eq_true, Bool.not_eq_true', Option.ite_none_right_eq_some,
        Option.some.injEq] at hn
      obtain ⟨⟨rfl, hl⟩, rfl⟩ := hn
      exact create_liveTracks ht hl
  | close =>
      obtain rfl : false = live' := by simpa [nextLive] using hn
      exact close_liveTracks ht
  | _ =>
      obtain rfl : live = live' := by simpa [nextLive] using hn
      exact native_liveTracks ht (by simp [Call.fn]) (by simp)

/-- A `create` that fails leaves its object behind, and one that replaces a live object
leaves that. -/
theorem call_leaks {live : Bool} (ht : LiveTracks s live) (hn : nextLive live c = none) :
    ¬AtMostCurrent (s.call c) := by
  cases c with
  | create r a =>
      intro h
      obtain ⟨engine, hobjects⟩ := create_objects s r a
      have hptr := create_nativePtr s r a
      have hnew := h.object s.objects.length ⟨engine, (LLMInference.new.loadModel r a).2, false⟩
        (by simp [call, hobjects]) rfl
      cases live with
      | false => simp_all [nextLive, call]
      | true =>
          obtain ⟨o, ho, hdeleted⟩ := ht.current rfl
          unfold deref at ho
          split at ho
          · cases ho
          have hlt := (List.getElem?_eq_some_iff.mp ho).1
          have hold := h.object (s.nativePtr - 1) o
            (by rw [call, hobjects, List.getElem?_append_left hlt, ho]) hdeleted
          omega
  | _ => simp [nextLive] at hn

/-- The accounting holds in every state exactly if no load fails and every `create` comes
without a live instance. -/
theorem atMostCurrent_iff (calls : List Call) :
    (∀ pre, pre <+: calls → AtMostCurrent (new.run pre)) ↔
      (Transition.exec nextLive false calls).isSome :=
  Transition.monitor_iff call nextLive
    (fun _ _ _ _ ht _ => call_liveTracks ht) (fun _ _ _ => call_leaks) new_liveTracks
    new_liveTracks.atMostCurrent calls

/-- A second `create` without a `close`: the first instance stays allocated with its
model, context and sampler. So does the object of a load that fails. -/
theorem atMostCurrent_fails :
    ¬AtMostCurrent (new.run [.create byteRequest byteAnswer, .create byteRequest byteAnswer]) ∧
      ¬AtMostCurrent (new.run [.create byteRequest ⟨none, true, true, true⟩]) := by
  constructor
  · intro h
    have hfirst : (new.run [.create byteRequest byteAnswer,
        .create byteRequest byteAnswer]).objects[0]?.map (·.object.held) =
          some [.model, .context, .sampler] := by decide +kernel
    obtain ⟨o, ho, hheld⟩ := Option.map_eq_some_iff.mp hfirst
    have := h.resources 0 o ho (by decide +kernel)
    simp [hheld] at this
  · intro h
    have hfirst : (new.run [.create byteRequest ⟨none, true, true, true⟩]).objects[0]?.map
        (·.deleted) = some false := by decide +kernel
    obtain ⟨o, ho, hlive⟩ := Option.map_eq_some_iff.mp hfirst
    exact absurd (h.object 0 o ho hlive) (by decide +kernel)

end SmollChat.SmollAI
