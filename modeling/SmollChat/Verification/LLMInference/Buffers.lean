import SmollChat.Model.MessageBuffers
import SmollChat.Verification.LLMInference.Context
import SmollChat.Verification.LLMInference.Messages

/-! # One owner for each message buffer

The entries own the live buffers, two each. An added message brings its two, the
over-length branch frees those of the entries it erases, and the destructor the rest. -/

namespace SmollChat

open Ledger (Owns)
open LLMInference (storedMessage truncateMessages messagesToKeep maxMessageLength)

/-! ## Pointers and texts -/

def MessageEntry.pointers (e : MessageEntry) : List ℕ := [e.content, e.role]

namespace MessageBuffers

def pointers (entries : List MessageEntry) : List ℕ := entries.flatMap MessageEntry.pointers

/-- What the entries' pointers refer to, role and content. -/
def texts (b : MessageBuffers) : List (Option CString × Option CString) :=
  b.entries.map fun e => (b.buffers.read e.role, b.buffers.read e.content)

/-- The entries own all live buffers, and these hold the messages of the class model. -/
structure Stores (b : MessageBuffers) (messages : List Message) : Prop where
  owns : Owns b.buffers (pointers b.entries)
  texts : b.texts = messages.map fun m => (some m.role, some m.content)

variable {b : MessageBuffers} {messages : List Message} {entries rest : List MessageEntry}
  {h h' : Ledger CString}

theorem pointers_append (entries rest : List MessageEntry) :
    pointers (entries ++ rest) = pointers entries ++ pointers rest := by
  simp [pointers]

theorem Stores.length (hs : b.Stores messages) : b.entries.length = messages.length := by
  have hlength := congrArg List.length hs.texts
  simpa [MessageBuffers.texts] using hlength

theorem texts_congr (hread : ∀ p ∈ pointers entries, h'.read p = h.read p) :
    texts ⟨h', entries⟩ = texts ⟨h, entries⟩ := by
  apply List.map_congr_left
  intro e he
  have hmem : ∀ p ∈ e.pointers, p ∈ pointers entries := fun p hp =>
    List.mem_flatMap.mpr ⟨e, he, hp⟩
  rw [Prod.mk.injEq]
  constructor
  · apply hread
    apply hmem
    simp [MessageEntry.pointers]
  · apply hread
    apply hmem
    simp [MessageEntry.pointers]

/-! ## Adding a message -/

theorem Stores.alloc_two (hs : b.Stores messages) (first second : CString) {e : MessageEntry}
    {role content : CString}
    (hperm : [(b.buffers.alloc first).1, ((b.buffers.alloc first).2.alloc second).1].Perm
      e.pointers)
    (hrole : ((b.buffers.alloc first).2.alloc second).2.read e.role = some role)
    (hcontent : ((b.buffers.alloc first).2.alloc second).2.read e.content = some content) :
    Stores ⟨((b.buffers.alloc first).2.alloc second).2, b.entries ++ [e]⟩
      (messages ++ [⟨role, content⟩]) where
  owns := by
    have howns := (hs.owns.alloc first).alloc second
    rw [List.append_assoc] at howns
    rw [pointers_append]
    apply howns.perm
    apply List.Perm.append_left
    simpa [pointers] using hperm
  texts := by
    have hold : MessageBuffers.texts ⟨((b.buffers.alloc first).2.alloc second).2, b.entries⟩ =
        b.texts := by
      apply texts_congr
      intro p hp
      have hlt := hs.owns.lt hp
      have hlt' : p < (b.buffers.alloc first).2.cells.length := by
        simp only [Ledger.alloc, List.length_append]
        omega
      rw [Ledger.read_alloc_of_lt second hlt', Ledger.read_alloc_of_lt first hlt]
    calc
      MessageBuffers.texts ⟨((b.buffers.alloc first).2.alloc second).2, b.entries ++ [e]⟩ =
          MessageBuffers.texts ⟨((b.buffers.alloc first).2.alloc second).2, b.entries⟩ ++
            [(some role, some content)] := by
        simp [MessageBuffers.texts, hrole, hcontent]
      _ = (messages ++ [(⟨role, content⟩ : Message)]).map
            fun m => (some m.role, some m.content) := by
        rw [hold, hs.texts, List.map_append]
        rfl

theorem Stores.addChatMessage (hs : b.Stores messages) (message role : CString) :
    (b.addChatMessage message role).Stores (messages ++ storedMessage message role) := by
  unfold MessageBuffers.addChatMessage storedMessage
  split
  · rw [List.append_nil]
    exact hs
  have hfirst : ∀ first second : CString, ((b.buffers.alloc first).2.alloc second).2.read
      (b.buffers.alloc first).1 = some first := by
    intro first second
    rw [Ledger.read_alloc_of_lt, Ledger.read_alloc_self]
    simp [Ledger.alloc]
  split
  · apply hs.alloc_two
    · exact List.Perm.refl _
    · apply Ledger.read_alloc_self
    · apply hfirst
  · rename_i hshort
    have htake : message.take maxMessageLength = message := by
      ext1
      exact List.take_of_length_le (by omega)
    rw [htake]
    apply hs.alloc_two
    · exact List.Perm.swap _ _ _
    · apply hfirst
    · apply Ledger.read_alloc_self

/-! ## Erasing old entries -/

theorem freeEntry_eq (h : Ledger CString) (e : MessageEntry) :
    freeEntry h e = h.freeAll e.pointers := rfl

/-- The loop frees the pointers of exactly the entries in its range. -/
theorem freeRange_eq (entries : List MessageEntry) (h : Ledger CString) (start n : ℕ) :
    freeRange entries h start (start + n) =
      h.freeAll (pointers ((entries.drop start).take n)) := by
  unfold freeRange
  rw [Nat.add_sub_cancel_left]
  induction n generalizing h start with
  | zero => simp [pointers, Ledger.freeAll]
  | succ n ih =>
      rw [List.range'_succ, List.foldl_cons, ih]
      cases hstart : entries[start]? with
      | none =>
          have hlength := List.getElem?_eq_none_iff.mp hstart
          rw [List.drop_of_length_le hlength, List.drop_of_length_le (by omega)]
          simp
      | some e =>
          obtain ⟨hlt, he⟩ := List.getElem?_eq_some_iff.mp hstart
          have hdrop : entries.drop start = e :: entries.drop (start + 1) := by
            rw [← he, List.drop_eq_getElem_cons hlt]
          rw [hdrop, List.take_succ_cons]
          simp [pointers, freeEntry_eq, Ledger.freeAll, List.foldl_append]

/-- The over-length branch erases a range of entries and frees exactly their pointers. -/
theorem eraseOld_split (b : MessageBuffers) : ∃ kept erased recent,
    b.entries = kept ++ erased ++ recent ∧ b.eraseOld.entries = kept ++ recent ∧
      b.eraseOld.buffers = b.buffers.freeAll (pointers erased) ∧
      (messagesToKeep < b.entries.length → kept.length = 1 ∧
        kept.length + erased.length = b.entries.length - messagesToKeep + 1) := by
  by_cases hlong : messagesToKeep < b.entries.length
  · have hrange : b.entries.length - messagesToKeep + 1 =
        1 + (b.entries.length - messagesToKeep) := Nat.add_comm _ _
    have herase : b.eraseOld = ⟨freeRange b.entries b.buffers 1
          (b.entries.length - messagesToKeep + 1),
        b.entries.take 1 ++ b.entries.drop (b.entries.length - messagesToKeep + 1)⟩ :=
      if_pos hlong
    refine ⟨b.entries.take 1, (b.entries.drop 1).take (b.entries.length - messagesToKeep),
      b.entries.drop (b.entries.length - messagesToKeep + 1), ?_, ?_, ?_, fun _ => ?_⟩
    · rw [List.append_assoc, hrange, ← List.drop_drop, List.take_append_drop,
        List.take_append_drop]
    · rw [herase]
    · rw [herase, hrange]
      apply freeRange_eq
    · simp only [List.length_take, List.length_drop]
      unfold messagesToKeep at hlong ⊢
      omega
  · have hsame : b.eraseOld = b := if_neg hlong
    rw [hsame]
    exact ⟨b.entries, [], [], by simp, by simp, rfl, fun h => absurd h hlong⟩

theorem Stores.eraseOld (hs : b.Stores messages) :
    b.eraseOld.Stores (truncateMessages messages) := by
  have hlength := hs.length
  by_cases hlong : messagesToKeep < b.entries.length
  · obtain ⟨kept, erased, recent, hentries, hafter, hfree, hsize⟩ := eraseOld_split b
    obtain ⟨hkept, herased⟩ := hsize hlong
    have howns : Owns b.buffers (pointers erased ++ pointers (kept ++ recent)) := by
      apply hs.owns.perm
      rw [hentries, pointers_append, pointers_append, pointers_append, ← List.append_assoc]
      exact List.perm_append_comm.append_right _
    constructor
    · rw [hfree, hafter]
      exact howns.freeAll
    · have hkeep : MessageBuffers.texts ⟨b.eraseOld.buffers, kept ++ recent⟩ =
          MessageBuffers.texts ⟨b.buffers, kept ++ recent⟩ := by
        apply texts_congr
        intro p hp
        rw [hfree]
        apply Ledger.read_freeAll
        intro hfreed
        exact (List.nodup_append.mp howns.nodup).2.2 p hfreed p hp rfl
      have htexts := hs.texts
      have hsplit : b.texts = MessageBuffers.texts ⟨b.buffers, kept⟩ ++
          MessageBuffers.texts ⟨b.buffers, erased⟩ ++ MessageBuffers.texts ⟨b.buffers, recent⟩ := by
        simp [MessageBuffers.texts, hentries]
      rw [LLMInference.truncateMessages_of_gt (by omega), ← hlength]
      calc
        b.eraseOld.texts = MessageBuffers.texts ⟨b.eraseOld.buffers, kept ++ recent⟩ := by
          rw [← hafter]
        _ = MessageBuffers.texts ⟨b.buffers, kept⟩ ++ MessageBuffers.texts ⟨b.buffers, recent⟩ := by
          rw [hkeep]
          simp [MessageBuffers.texts]
        _ = b.texts.take 1 ++ b.texts.drop (b.entries.length - messagesToKeep + 1) := by
          have hlen₁ : (MessageBuffers.texts ⟨b.buffers, kept⟩).length = 1 := by
            simp [MessageBuffers.texts, hkept]
          have hlen₂ : (MessageBuffers.texts ⟨b.buffers, kept⟩ ++
              MessageBuffers.texts ⟨b.buffers, erased⟩).length =
                b.entries.length - messagesToKeep + 1 := by
            simp [MessageBuffers.texts, herased]
          rw [hsplit, List.drop_left' hlen₂, List.append_assoc, List.take_left' hlen₁]
        _ = (messages.take 1 ++ messages.drop (b.entries.length - messagesToKeep + 1)).map
            fun m => (some m.role, some m.content) := by
          rw [htexts, List.map_append, List.map_take, List.map_drop]
  · have hsame : b.eraseOld = b := if_neg hlong
    rw [hsame, LLMInference.truncateMessages_of_le (by omega)]
    exact hs

/-! ## The destructor -/

theorem foldl_freeEntry (entries : List MessageEntry) (h : Ledger CString) :
    entries.foldl freeEntry h = h.freeAll (pointers entries) := by
  induction entries generalizing h with
  | nil => rfl
  | cons e entries ih =>
      rw [List.foldl_cons, ih]
      simp [pointers, freeEntry_eq, Ledger.freeAll, List.foldl_append]

theorem Stores.destroy (hs : b.Stores messages) : Owns b.destroy.buffers [] := by
  have howns : Owns b.buffers (pointers b.entries ++ []) := by
    rw [List.append_nil]
    exact hs.owns
  rw [MessageBuffers.destroy, foldl_freeEntry]
  exact howns.freeAll

end MessageBuffers

/-! ## Runs -/

namespace BufferedInference

open LLMInference (Accounted)

variable {E : Engine} {t : BufferedInference}

theorem startCompletion_stores (hacc : Accounted t.native)
    (hs : t.storage.Stores t.native.messages) (query : CString) :
    (t.storage.startCompletion E t.native query).Stores
      (t.native.startCompletion E query).2.messages := by
  unfold MessageBuffers.startCompletion
  by_cases hquery : query.isEmpty = true
  · have hsame : (t.native.startCompletion E query).2 = t.native := by
      simp [LLMInference.startCompletion, hquery]
    rw [if_pos hquery, hsame]
    exact hs
  · have hlist := LLMInference.startCompletion_messages E t.native query
      (by simpa only [Bool.not_eq_true] using hquery) hacc.model hacc.ctx hacc.sampler
    have hadd := hs.addChatMessage query (.lit "user")
    rw [hlist]
    simp only [hquery, hacc.model, hacc.ctx, hacc.sampler, Bool.not_true, Bool.or_self,
      Bool.false_eq_true, if_false]
    split
    · exact hadd.eraseOld
    · exact hadd

theorem stopCompletion_stores (hacc : Accounted t.native)
    (hs : t.storage.Stores t.native.messages) :
    (t.storage.stopCompletion t.native).Stores (t.native.stopCompletion E).messages := by
  rw [LLMInference.stopCompletion_eq E t.native hacc.model hacc.ctx]
  unfold MessageBuffers.stopCompletion LLMInference.storedReply
  simp only [hacc.model, hacc.ctx, Bool.not_true, Bool.or_self, Bool.false_eq_true, if_false]
  split
  · apply hs.addChatMessage
  · rw [List.append_nil]
    exact hs

theorem call_stores (hacc : Accounted t.native) (hs : t.storage.Stores t.native.messages)
    (E : Engine) (c : LLMInference.Call) :
    (t.call E c).storage.Stores (t.call E c).native.messages := by
  cases c with
  | addChatMessage message role =>
      have hlist : (t.native.addChatMessage message role).messages =
          t.native.messages ++ storedMessage message role :=
        LLMInference.appendMessage_eq _ _ _
      simp only [call, LLMInference.call, hlist]
      apply hs.addChatMessage
  | startCompletion query => exact startCompletion_stores hacc hs query
  | completionLoop d =>
      simp only [call, LLMInference.call, (LLMInference.completionLoop_frame E t.native d).messages]
      exact hs
  | stopCompletion => exact stopCompletion_stores hacc hs
  | cancelCompletion =>
      simp only [call, LLMInference.call,
        LLMInference.cancelCompletion_eq E t.native hacc.model hacc.ctx]
      exact hs

theorem run_stores (hacc : Accounted t.native) (hs : t.storage.Stores t.native.messages)
    (E : Engine) (calls : List LLMInference.Call) :
    (t.run E calls).storage.Stores (t.run E calls).native.messages := by
  induction calls generalizing t with
  | nil => exact hs
  | cons c calls ih => exact ih (LLMInference.call_accounted hacc E c) (call_stores hacc hs E c)

/-- In every state of a run on an instance loaded once, the live buffers are the entries'
pointers, each once, and hold the messages; no buffer has been freed twice. The over-length
branch, which `start_completion` enters after adding its query, frees exactly the buffers
of the entries it erases, and after the destructor none is live. -/
theorem buffers_owned (E : Engine) (storeChats : Bool) (calls : List LLMInference.Call) :
    ((loaded E storeChats).run E calls).storage.Stores
        ((loaded E storeChats).run E calls).native.messages ∧
      (∀ query, ∃ kept erased recent,
        (((loaded E storeChats).run E calls).storage.addChatMessage query (.lit "user")).entries =
            kept ++ erased ++ recent ∧
          (((loaded E storeChats).run E calls).storage.addChatMessage query
            (.lit "user")).eraseOld.entries = kept ++ recent ∧
          (((loaded E storeChats).run E calls).storage.addChatMessage query
            (.lit "user")).eraseOld.buffers.frees =
              (((loaded E storeChats).run E calls).storage.addChatMessage query
                (.lit "user")).buffers.frees ++ MessageBuffers.pointers erased) ∧
      Owns ((loaded E storeChats).run E calls).storage.destroy.buffers [] := by
  have hstart : (loaded E storeChats).storage.Stores (loaded E storeChats).native.messages :=
    ⟨Ledger.owns_empty, rfl⟩
  have hstores := run_stores (LLMInference.loaded_accounted E storeChats) hstart E calls
  refine ⟨hstores, fun query => ?_, hstores.destroy⟩
  obtain ⟨kept, erased, recent, hentries, hafter, hfree, -⟩ :=
    (((loaded E storeChats).run E calls).storage.addChatMessage query (.lit "user")).eraseOld_split
  refine ⟨kept, erased, recent, hentries, hafter, ?_⟩
  rw [hfree]
  apply Ledger.frees_freeAll

end BufferedInference

end SmollChat
