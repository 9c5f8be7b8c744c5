import SmollChat.Library.Removal
import SmollChat.Verification.LLMInference.Equations

/-! # The cleaning of replies

`stop_completion` removes seven markers, one after the other, and trims what is left. The
removal of one can form another whose turn is over. -/

namespace SmollChat.LLMInference

open StdString Removal

/-- The text that `stop_completion` hands to `add_chat_message`. -/
def cleanedReply (response : Bytes) : CString := .cStr (cleanResponse response)

/-- No marker, no blank at either end, and cleaning it again changes nothing. -/
structure CleanReply (text : CString) : Prop where
  free : ∀ t ∈ tokensToRemove, ¬t <:+: text.bytes
  first : ∀ b ∈ text.bytes.head?, b ∉ blanks
  last : ∀ b ∈ text.bytes.getLast?, b ∉ blanks
  again : cleanedReply text.bytes = text

/-- All blank, or not blank at the end. -/
def EndsPlain (text : Bytes) : Prop :=
  (∀ b ∈ text, b ∈ blanks) ∨ ∀ b ∈ text.getLast?, b ∉ blanks

/-! ## Trimming -/

def isBlank (b : UInt8) : Bool := decide (b ∈ blanks)

theorem cleanResponse_eq (response : Bytes) :
    cleanResponse response =
      ((removeEach tokensToRemove response).dropWhile isBlank).rdropWhile isBlank := by
  rw [cleanResponse, trimBack_eq, trimFront_eq]
  rfl

theorem tokensToRemove_ordered : Ordered 60 tokensToRemove := by
  refine ⟨?_, by decide⟩
  intro t ht
  have hhead : ∀ t ∈ tokensToRemove, t = 60 :: t.tail ∧ 60 ∉ t.tail := by decide
  exact ⟨t.tail, hhead t ht⟩

theorem tokensToRemove_plain :
    ∀ t ∈ tokensToRemove, t ≠ [] ∧ 0 ∉ t ∧ ∀ b ∈ t, isBlank b = false := by decide +kernel

/-! ## The text handed on -/

theorem cStr_of_nul_free {text : Bytes} (h : 0 ∉ text) : (CString.cStr text).bytes = text :=
  congrArg CString.bytes (CString.cStr_bytes ⟨text, h⟩)

theorem cStr_of_nul {text : Bytes} (h : 0 ∈ text) :
    ∃ v, text = (CString.cStr text).bytes ++ 0 :: v := by
  induction text with
  | nil => cases h
  | cons b text ih =>
      by_cases hb : b = 0
      · exact ⟨text, by simp [CString.cStr, hb]⟩
      · obtain ⟨v, hv⟩ := ih ((List.mem_cons.mp h).resolve_left (Ne.symm hb))
        refine ⟨v, ?_⟩
        have hbytes : (CString.cStr (b :: text)).bytes = b :: (CString.cStr text).bytes := by
          simp [CString.cStr, hb]
        rw [hbytes, List.cons_append, ← hv]

theorem cleanedReply_of_nul_free {response : Bytes} (h : 0 ∉ response) :
    (cleanedReply response).bytes =
      ((removeEach tokensToRemove response).dropWhile isBlank).rdropWhile isBlank := by
  rw [cleanedReply, cleanResponse_eq]
  apply cStr_of_nul_free
  intro hzero
  exact h (removeEach_subset _ _ ((List.dropWhile_suffix _).subset
    ((List.rdropWhile_prefix _ _).subset hzero)))

theorem cStr_append_zero {w : Bytes} (hw : 0 ∉ w) (v : Bytes) :
    (CString.cStr (w ++ 0 :: v)).bytes = w := by
  have hall : ∀ b ∈ w, decide (b ≠ 0) = true := by
    intro b hb
    simpa using fun h : b = 0 => hw (h ▸ hb)
  calc
    (CString.cStr (w ++ 0 :: v)).bytes = w ++ (0 :: v).takeWhile (· ≠ 0) :=
      List.takeWhile_append_of_pos hall
    _ = w := by simp

/-- With a NUL the reply is the text before the first one, trimmed at its front only. -/
theorem cleanedReply_of_nul {response : Bytes} (h : 0 ∈ response) :
    (cleanedReply response).bytes =
      (removeEach tokensToRemove (CString.cStr response).bytes).dropWhile isBlank := by
  obtain ⟨v, hv⟩ := cStr_of_nul h
  obtain ⟨v', hv'⟩ := removeEach_append_cons (z := 0)
    (fun t ht => ⟨(tokensToRemove_plain t ht).1, (tokensToRemove_plain t ht).2.1⟩)
    (CString.cStr response).bytes v
  have hnul : 0 ∉ removeEach tokensToRemove (CString.cStr response).bytes := fun hzero =>
    (CString.cStr response).nul_free (removeEach_subset _ _ hzero)
  have hblank : isBlank 0 = false := by decide
  rw [← hv] at hv'
  rw [cleanedReply, cleanResponse_eq, hv']
  generalize removeEach tokensToRemove (CString.cStr response).bytes = w at hnul ⊢
  obtain ⟨v'', hv''⟩ := rdropWhile_append_cons hblank (w.dropWhile isBlank) v'
  rw [dropWhile_append_cons hblank, hv'']
  exact cStr_append_zero (fun hzero => hnul ((List.dropWhile_suffix _).subset hzero)) v''

theorem cleanReply_iff_ends (text : CString) : CleanReply text ↔
    (∀ t ∈ tokensToRemove, ¬t <:+: text.bytes) ∧ (∀ b ∈ text.bytes.head?, b ∉ blanks) ∧
      ∀ b ∈ text.bytes.getLast?, b ∉ blanks := by
  constructor
  · exact fun h => ⟨h.free, h.first, h.last⟩
  · rintro ⟨hfree, hfirst, hlast⟩
    refine ⟨hfree, hfirst, hlast, ?_⟩
    ext1
    have hfirst' : text.bytes.dropWhile isBlank = text.bytes := by
      cases hbytes : text.bytes with
      | nil => rfl
      | cons b rest =>
          have hb : b ∉ blanks := hfirst b (by simp [hbytes])
          simp [isBlank, hb]
    have hlast' : text.bytes.rdropWhile isBlank = text.bytes := by
      refine List.rdropWhile_eq_self_iff.mpr fun hne => ?_
      simpa [isBlank] using hlast _ (List.getLast_mem_getLast? hne)
    rw [cleanedReply_of_nul_free text.nul_free, removeEach_of_free hfree, hfirst', hlast']

theorem endsPlain_iff (text : Bytes) :
    EndsPlain text ↔ ∀ b ∈ (text.dropWhile isBlank).getLast?, b ∉ blanks := by
  unfold EndsPlain
  by_cases hblank : ∀ b ∈ text, b ∈ blanks
  · have hnil : text.dropWhile isBlank = [] :=
      List.dropWhile_eq_nil_iff.mpr fun b hb => by simpa [isBlank] using hblank b hb
    exact iff_of_true (.inl hblank) (by simp [hnil])
  · have hne : text.dropWhile isBlank ≠ [] := by
      intro hnil
      refine hblank fun b hb => ?_
      simpa [isBlank] using List.dropWhile_eq_nil_iff.mp hnil b hb
    have hlast : text.getLast? = (text.dropWhile isBlank).getLast? := by
      conv_lhs => rw [← List.takeWhile_append_dropWhile (p := isBlank) (l := text)]
      exact List.getLast?_append_of_ne_nil _ hne
    simp [hblank, hlast]

theorem cleanedReply_infix_iff (response : Bytes) {t : Bytes} (ht : t ∈ tokensToRemove) :
    t <:+: (cleanedReply response).bytes ↔
      t <:+: removeEach tokensToRemove (CString.cStr response).bytes := by
  obtain ⟨hne, -, hplain⟩ := tokensToRemove_plain t ht
  by_cases hnul : 0 ∈ response
  · rw [cleanedReply_of_nul hnul, infix_dropWhile_iff hne hplain]
  · rw [cleanedReply_of_nul_free hnul, infix_rdropWhile_iff hne hplain,
      infix_dropWhile_iff hne hplain, cStr_of_nul_free hnul]

theorem dropWhile_isBlank_head (text : Bytes) :
    ∀ b ∈ (text.dropWhile isBlank).head?, b ∉ blanks := by
  intro b hb
  have hhead := List.head?_dropWhile_not isBlank text
  rw [Option.mem_def.mp hb] at hhead
  simpa [isBlank] using hhead

theorem cleanedReply_head (response : Bytes) :
    ∀ b ∈ (cleanedReply response).bytes.head?, b ∉ blanks := by
  by_cases hnul : 0 ∈ response
  · rw [cleanedReply_of_nul hnul]
    exact dropWhile_isBlank_head _
  · rw [cleanedReply_of_nul_free hnul]
    intro b hb
    obtain ⟨rest, hrest⟩ := List.head?_eq_some_iff.mp (Option.mem_def.mp hb)
    obtain ⟨tail, htail⟩ := List.rdropWhile_prefix isBlank
      ((removeEach tokensToRemove response).dropWhile isBlank)
    apply dropWhile_isBlank_head (removeEach tokensToRemove response)
    rw [← htail, hrest]
    rfl

theorem cleanedReply_getLast (response : Bytes) :
    (∀ b ∈ (cleanedReply response).bytes.getLast?, b ∉ blanks) ↔
      (0 ∈ response → EndsPlain (removeEach tokensToRemove (CString.cStr response).bytes)) := by
  by_cases hnul : 0 ∈ response
  · rw [cleanedReply_of_nul hnul, ← endsPlain_iff]
    exact ⟨fun h _ => h, fun h => h hnul⟩
  · rw [cleanedReply_of_nul_free hnul]
    refine iff_of_true (fun b hb => ?_) fun h => absurd h hnul
    generalize (removeEach tokensToRemove response).dropWhile isBlank = text at hb
    obtain ⟨hne, rfl⟩ := List.mem_getLast?_eq_getLast hb
    simpa [isBlank] using List.rdropWhile_last_not isBlank text hne

/-- The removal loops end for every text. The text handed on is clean exactly if, on the text
before the first NUL, no erasure joins the text around it into a marker that the loops do not
come back to and, where there is a NUL, the text before it does not end in a blank when the
loops are over. -/
theorem cleanedReply_iff (response : Bytes) :
    (∀ t ∈ tokensToRemove, ∀ s, find t (eraseEach t s.length s) = none) ∧
      (CleanReply (cleanedReply response) ↔
        ∀ st, Reaches ⟨[], tokensToRemove, (CString.cStr response).bytes⟩ st →
          ¬Joins st ∧ (st.todo = [] → 0 ∈ response → EndsPlain st.text)) := by
  have hne : ∀ t ∈ tokensToRemove, t ≠ [] := fun t ht => (tokensToRemove_plain t ht).1
  refine ⟨fun t ht s => find_eraseEach (hne t ht) le_rfl, ?_⟩
  rw [forall_reaches_iff hne (Q := fun text => 0 ∈ response → EndsPlain text),
    ← removeEach_free_iff tokensToRemove_ordered, cleanReply_iff_ends, ← cleanedReply_getLast]
  have hfree : (∀ t ∈ tokensToRemove, ¬t <:+: (cleanedReply response).bytes) ↔
      ∀ t ∈ tokensToRemove, ¬t <:+: removeEach tokensToRemove (CString.cStr response).bytes :=
    forall₂_congr fun t ht => not_congr (cleanedReply_infix_iff response ht)
  rw [hfree]
  exact ⟨fun ⟨h₁, _, h₂⟩ => ⟨h₁, h₂⟩, fun ⟨h₁, h₂⟩ => ⟨h₁, cleanedReply_head response, h₂⟩⟩

/-- Without its inner marker the outer one is whole, and its turn is over. -/
theorem cleanedReply_fails :
    (cleanedReply (ascii "<|im_end<|end|>|>")).bytes = ascii "<|im_end|>" ∧
      ¬CleanReply (cleanedReply (ascii "<|im_end<|end|>|>")) := by
  have hkept : (cleanedReply (ascii "<|im_end<|end|>|>")).bytes = ascii "<|im_end|>" := by
    decide +kernel
  refine ⟨hkept, fun h => ?_⟩
  exact h.free (ascii "<|im_end|>") (by decide) (hkept ▸ List.infix_refl _)

end SmollChat.LLMInference
