import SmollChat.Verification.ViewModel.Busy

/-! # What each chat does to an instance

Every chat has an instance of its own here: the one that its last load made, and on which its
jobs alone have worked since. The screen has one handle for all of them. -/

namespace SmollChat

open LLMInference (loaded)

abbrev Instance := Option (Engine × LLMInference)

/-- What a chat's jobs do to its instance. -/
inductive ChatOp where
  /-- an instance takes the place of the former one -/
  | assign (i : Instance)
  /-- the system prompt of a chat row -/
  | prompt (chat : Chat)
  /-- a stored message -/
  | message (m : ChatMessage)
  /-- a call of a completion -/
  | call (c : LLMInference.Call)

namespace ChatOp

def apply : Instance → ChatOp → Instance
  | _, assign i => i
  | i, prompt chat =>
      if chat.systemPrompt.isEmpty then i
      else i.map fun n => (n.1, n.2.addChatMessage chat.systemPrompt (.lit "system"))
  | i, message m => i.map fun n => (n.1, n.2.addChatMessage m.message m.role)
  | i, call c => i.map fun n => (n.1, n.2.call n.1 c)

theorem apply_prompt (i : Instance) (chat : Chat) : apply i (prompt chat) =
    if chat.systemPrompt.isEmpty then i
    else i.map fun n => (n.1, n.2.addChatMessage chat.systemPrompt (.lit "system")) := rfl

theorem apply_message (i : Instance) (m : ChatMessage) :
    apply i (message m) = i.map fun n => (n.1, n.2.addChatMessage m.message m.role) := rfl

/-- What is done is the chat's own: an instance starts without messages, and the texts added
are the chat's system prompt and its stored messages. -/
def Own (chatId : ℕ) : ChatOp → Prop
  | assign i => ∀ n ∈ i, n.2.messages = []
  | prompt chat => chat.id = chatId
  | message m => m.chatId = chatId
  | call _ => True

end ChatOp

namespace SmollAI

def nativeAt (s : SmollAI) (ptr : ℕ) : Instance := ({ s with nativePtr := ptr } : SmollAI).native

end SmollAI

def LoadJob.nextOp (smollai : SmollAI) (l : LoadJob) : Option ChatOp :=
  match l.phase with
  | .assigning ptr => some (.assign (smollai.nativeAt ptr))
  | .prompting => some (.prompt l.chat)
  | .adding (m :: _) => some (.message m)
  | _ => none

def Worker.nextOp (w : Worker) (d : Draw) : Option ChatOp :=
  match w.phase with
  | .starting => some (.call (.startCompletion w.query))
  | .looping => some (.call (.completionLoop d))
  | .ending | .stopping => some (.call .stopCompletion)
  | .catching => some (.call .cancelCompletion)
  | _ => none

namespace ViewModel

/-- What a step does to an instance, and for which chat. A closed instance is nobody's. -/
def chatOp (a : ViewModel) : Event → Option (ℕ × ChatOp)
  | .load i _ => a.loads[i]?.bind fun l => (l.nextOp a.smollai).map (l.chat.id, ·)
  | .worker i d => a.workers[i]?.bind fun w => (w.nextOp d).map (w.chat.id, ·)
  | .main =>
      match a.main with
      | .cancelCompletion job :: _ =>
          a.workers[job]?.map fun w => (w.chat.id, .call .cancelCompletion)
      | .close :: _ => a.currChat.map fun chat => (chat.id, .assign none)
      | _ => none
  | _ => none

def chatOps : ViewModel → List Event → List (ℕ × ChatOp)
  | _, [] => []
  | a, e :: es => (a.chatOp e).toList ++ ((a.step e).map fun a' => chatOps a' es).getD []

/-- What a chat does to its own instance. -/
def ownOps (chatId : ℕ) (a : ViewModel) (es : List Event) : List ChatOp :=
  ((chatOps a es).filter (·.1 = chatId)).map (·.2)

def ownStep (chatId : ℕ) (own : Instance) : Option (ℕ × ChatOp) → Instance
  | some (id, op) => if id = chatId then op.apply own else own
  | none => own

theorem ownOps_cons (chatId : ℕ) {a a' : ViewModel} {e : Event} (h : a.step e = some a')
    (es : List Event) (own : Instance) :
    (ownOps chatId a (e :: es)).foldl ChatOp.apply own =
      (ownOps chatId a' es).foldl ChatOp.apply (ownStep chatId own (a.chatOp e)) := by
  unfold ownOps
  rw [chatOps, h, List.filter_append, List.map_append, List.foldl_append]
  cases hop : a.chatOp e with
  | none => rfl
  | some op =>
      obtain ⟨id, op⟩ := op
      by_cases hid : id = chatId <;> simp [ownStep, hid]

end ViewModel

/-! ## Calls on the current instance -/

namespace SmollAI

theorem addStored_map (s : SmollAI) (m : ChatMessage) :
    (ViewModel.addStored s m).native = ChatOp.apply s.native (.message m) := by
  have hadd (role : CString) : (s.addChatMessage m.message role).native =
      s.native.map fun n => (n.1, n.2.addChatMessage m.message role) :=
    invokeNative_map _ _
  rw [ChatOp.apply_message, ViewModel.addStored, ChatMessage.role]
  by_cases huser : m.isUserMessage = true
  · simp only [huser, if_true]
    exact hadd _
  · simp only [huser, if_false, Bool.false_eq_true]
    exact hadd _

theorem invoke_addsOnly (s : SmollAI) (fn : NativeFn) (f : NativeObject → NativeObject) :
    ViewModel.AddsOnly s (s.invoke fn f) false :=
  ⟨rfl, invoke_length fn f, fun p hp => by rw [invoke_deref, if_neg hp], by simp⟩

end SmollAI

/-! ## Handles -/

/-- The handles that load jobs have not made current yet belong to new instances, each to
another one. -/
structure Handles (smollai : SmollAI) (loads : List LoadJob) : Prop where
  bound : smollai.nativePtr ≤ smollai.objects.length
  fresh : ∀ (k : ℕ) l ptr, loads[k]? = some l → l.phase = .assigning ptr → ptr ≠ 0 →
    ViewModel.Fresh smollai ptr
  distinct : ∀ (j k : ℕ) l l' ptr, loads[j]? = some l → loads[k]? = some l' →
    l.phase = .assigning ptr → l'.phase = .assigning ptr → ptr ≠ 0 → j = k

/-- A native load allocates an object. Its handle is null, or it is new and the object a
loaded instance. -/
theorem SmollAI.loadModel_allocates (s : SmollAI) {r : LLMInference.LoadRequest}
    (hstore : r.storeChats = true) (answer : LLMInference.LoadAnswer) :
    ∃ ptr o, s.loadModel r answer = (ptr, { s with objects := s.objects ++ [o] }) ∧
      (ptr ≠ 0 → ptr = s.objects.length + 1 ∧ ∃ E, o = ⟨some E, loaded E true, false⟩) := by
  rcases LLMInference.loadModel_cases r answer with ⟨-, E, hE⟩ | ⟨-, e, n, hn, -⟩
  · refine ⟨s.objects.length + 1, ⟨some E, loaded E true, false⟩, ?_, fun _ => ⟨rfl, E, rfl⟩⟩
    simp only [loadModel, hE, hstore]
  · refine ⟨0, ⟨none, n, false⟩, ?_, fun hne => absurd rfl hne⟩
    simp only [loadModel, hn]

namespace Handles

variable {smollai smollai' : SmollAI} {loads : List LoadJob} {a : ViewModel}

theorem calls (h : Handles smollai loads) (hcalls : ViewModel.AddsOnly smollai smollai' false) :
    Handles smollai' loads := by
  refine ⟨?_, ?_, h.distinct⟩
  · rw [hcalls.nativePtr, hcalls.length]
    exact h.bound
  · intro k l ptr hk hl hne
    obtain ⟨hother, E, hE⟩ := h.fresh k l ptr hk hl hne
    exact ⟨hcalls.nativePtr ▸ hother, E, by rw [hcalls.deref ptr hother, hE]⟩

theorem moves (h : Handles smollai a.loads) {i : ℕ} {l l' : LoadJob}
    (hl : a.loads[i]? = some l) (hphase : ∀ ptr, l'.phase ≠ .assigning ptr) :
    Handles smollai (a.setLoad i l').loads := by
  have hrest : ∀ (k : ℕ) v ptr, (a.setLoad i l').loads[k]? = some v →
      v.phase = .assigning ptr → a.loads[k]? = some v := by
    intro k v ptr hk hv
    rw [ViewModel.setLoad_getElem? hl] at hk
    split at hk
    · obtain rfl := Option.some.inj hk
      exact absurd hv (hphase ptr)
    · exact hk
  refine ⟨h.bound, ?_, ?_⟩
  · intro k v ptr hk hv
    exact h.fresh k v ptr (hrest k v ptr hk hv) hv
  · intro j k v v' ptr hj hk hv hv'
    exact h.distinct j k v v' ptr (hrest j v ptr hj hv) (hrest k v' ptr hk hv') hv hv'

theorem launch (h : Handles smollai loads) (chat : Chat) (model : LLMModel) :
    Handles smollai (loads ++ [⟨chat, model, .loading⟩]) := by
  have hold : ∀ (k : ℕ) v ptr, (loads ++ [(⟨chat, model, .loading⟩ : LoadJob)])[k]? = some v →
      v.phase = .assigning ptr → loads[k]? = some v := by
    intro k v ptr hk hv
    rw [List.getElem?_append] at hk
    split at hk
    · exact hk
    · have hnew := List.mem_of_getElem? hk
      rw [List.mem_singleton.mp hnew] at hv
      cases hv
  refine ⟨h.bound, ?_, ?_⟩
  · intro k v ptr hk hv
    exact h.fresh k v ptr (hold k v ptr hk hv) hv
  · intro j k v v' ptr hj hk hv hv'
    exact h.distinct j k v v' ptr (hold j v ptr hj hv) (hold k v' ptr hk hv') hv hv'

/-- The native load of a job leaves the current instance alone. -/
theorem load (h : Handles a.smollai a.loads) {i : ℕ} {l : LoadJob} (hl : a.loads[i]? = some l)
    {r : LLMInference.LoadRequest} (hstore : r.storeChats = true)
    (answer : LLMInference.LoadAnswer) :
    Handles (a.smollai.loadModel r answer).2
        (a.setLoad i { l with phase := .assigning (a.smollai.loadModel r answer).1 }).loads ∧
      (a.smollai.loadModel r answer).2.native = a.smollai.native := by
  obtain ⟨ptr, o, hload, hnew⟩ := a.smollai.loadModel_allocates hstore answer
  rw [hload]
  have hold : ∀ (k : ℕ) v p, a.loads[k]? = some v → v.phase = .assigning p → p ≠ 0 →
      p ≤ a.smollai.objects.length := by
    intro k v p hk hv hne
    obtain ⟨E, hE⟩ := (h.fresh k v p hk hv hne).loaded
    exact (SmollAI.deref_le hE).2
  refine ⟨⟨?_, ?_, ?_⟩, ?_⟩
  · exact h.bound.trans (by simp)
  · intro k v p hk hv hne
    rw [ViewModel.setLoad_getElem? hl] at hk
    split at hk
    · obtain rfl := Option.some.inj hk
      obtain rfl : ptr = p := by simpa using hv
      obtain ⟨rfl, E, rfl⟩ := hnew hne
      exact ⟨(Nat.lt_succ_of_le h.bound).ne', E, SmollAI.deref_new rfl⟩
    · obtain ⟨hother, E, hE⟩ := h.fresh k v p hk hv hne
      exact ⟨hother, E, by rw [SmollAI.deref_append (hold k v p hk hv hne) rfl, hE]⟩
  · intro j k v v' p hj hk hv hv' hne
    rw [ViewModel.setLoad_getElem? hl] at hj hk
    split at hj <;> split at hk
    · omega
    · obtain rfl := Option.some.inj hj
      obtain rfl : ptr = p := by simpa using hv
      have hle := hold k v' ptr hk hv' hne
      have heq := (hnew hne).1
      omega
    · obtain rfl := Option.some.inj hk
      obtain rfl : ptr = p := by simpa using hv'
      have hle := hold j v ptr hj hv hne
      have heq := (hnew hne).1
      omega
    · exact h.distinct j k v v' p hj hk hv hv' hne
  · unfold SmollAI.native
    rw [SmollAI.deref_append h.bound rfl]

/-- A job's handle becomes the current one. Its instance has no messages. -/
theorem assign (h : Handles a.smollai a.loads) {i ptr : ℕ} {l : LoadJob}
    (hl : a.loads[i]? = some l) (hphase : l.phase = .assigning ptr) :
    Handles { a.smollai with nativePtr := ptr } (a.setLoad i { l with phase := .prompting }).loads ∧
      ∀ n ∈ a.smollai.nativeAt ptr, n.2.messages = [] := by
  have hrest : ∀ (k : ℕ) v p, (a.setLoad i { l with phase := .prompting }).loads[k]? = some v →
      v.phase = .assigning p → a.loads[k]? = some v ∧ k ≠ i := by
    intro k v p hk hv
    rw [ViewModel.setLoad_getElem? hl] at hk
    split at hk
    · obtain rfl := Option.some.inj hk
      cases hv
    · rename_i hki
      exact ⟨hk, hki⟩
  refine ⟨⟨?_, ?_, ?_⟩, ?_⟩
  · by_cases hne : ptr = 0
    · simp [hne]
    · obtain ⟨E, hE⟩ := (h.fresh i l ptr hl hphase hne).loaded
      exact (SmollAI.deref_le hE).2
  · intro k v p hk hv hne
    obtain ⟨hk, hki⟩ := hrest k v p hk hv
    refine ⟨?_, (h.fresh k v p hk hv hne).loaded⟩
    rintro rfl
    exact hki (h.distinct k i v l _ hk hl hv hphase hne)
  · intro j k v v' p hj hk hv hv'
    exact h.distinct j k v v' p (hrest j v p hj hv).1 (hrest k v' p hk hv').1 hv hv'
  · intro n hn
    by_cases hne : ptr = 0
    · simp [SmollAI.nativeAt, SmollAI.native, SmollAI.deref, hne] at hn
    · obtain ⟨E, hE⟩ := (h.fresh i l ptr hl hphase hne).loaded
      have hat : a.smollai.nativeAt ptr = some (E, loaded E true) := by
        change (a.smollai.deref ptr).bind _ = _
        rw [hE]
        rfl
      rw [hat, Option.mem_some_iff] at hn
      rw [← hn]
      rfl

end Handles

end SmollChat
