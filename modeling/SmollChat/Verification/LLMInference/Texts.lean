import SmollChat.Library.Utf8
import SmollChat.Verification.LLMInference.Equations

/-! # Stored texts

`add_chat_message` cuts a long text after a number of bytes, which may be inside a
character. -/

namespace SmollChat.LLMInference

open Utf8

/-- The content keeps the text in whole characters, as far as it fits. -/
structure KeepsText (message content : CString) : Prop where
  wellFormed : WellFormed content.bytes
  front : content.bytes <+: message.bytes
  fits : content.bytes.length ≤ maxMessageLength
  whole : message.bytes.length ≤ maxMessageLength → content = message
  maximal : ∀ c : Char, content.bytes ++ encode [c] <+: message.bytes →
    maxMessageLength < (content.bytes ++ encode [c]).length

/-- The one entry that an `add_chat_message` appends keeps its text. -/
def StoresText (s : LLMInference) (message role : CString) : Prop :=
  ∃ content, (s.addChatMessage message role).messages = s.messages ++ [⟨role, content⟩] ∧
    KeepsText message content

theorem addChatMessage_messages (s : LLMInference) {message role : CString}
    (hmessage : message ≠ .empty) (hrole : role ≠ .empty) :
    (s.addChatMessage message role).messages =
      s.messages ++ [⟨role, message.take maxMessageLength⟩] := by
  rw [addChatMessage, appendMessage_eq, storedMessage_eq hmessage hrole]

theorem encode_singleton_ne_nil (c : Char) : encode [c] ≠ [] := by
  simp [String.utf8EncodeChar_ne_nil]

/-- The cut text keeps the text exactly where the cut is between characters. -/
theorem keepsText_take_iff {message : CString} (hwell : WellFormed message.bytes) :
    KeepsText message (message.take maxMessageLength) ↔
      ∀ b, message.bytes[maxMessageLength]? = some b → b.IsUTF8FirstByte := by
  rw [← wellFormed_take_iff hwell]
  constructor
  · exact fun h => h.wellFormed
  · intro hcut
    refine ⟨hcut, List.take_prefix _ _, List.length_take_le _ _, ?_, ?_⟩
    · intro hle
      ext1
      exact List.take_of_length_le hle
    · intro c hfront
      have hlength := hfront.length_le
      have hpos : 0 < (encode [c]).length := List.length_pos_iff.mpr (encode_singleton_ne_nil c)
      simp only [CString.bytes_take, List.length_append, List.length_take] at hlength ⊢
      omega

/-- A well-formed text is kept up to the limit exactly if it fits or the byte that follows
the first `MAX_MESSAGE_LENGTH` ones starts a character. -/
theorem storesText_iff (s : LLMInference) (message role : CString) (hmessage : message ≠ .empty)
    (hrole : role ≠ .empty) (hwell : WellFormed message.bytes) :
    StoresText s message role ↔
      message.bytes.length ≤ maxMessageLength ∨
        ∃ b, message.bytes[maxMessageLength]? = some b ∧ b.IsUTF8FirstByte := by
  have hstores : StoresText s message role ↔
      KeepsText message (message.take maxMessageLength) := by
    unfold StoresText
    rw [addChatMessage_messages s hmessage hrole]
    simp
  rw [hstores, keepsText_take_iff hwell]
  by_cases hle : message.bytes.length ≤ maxMessageLength
  · simp [hle]
  · rw [Nat.not_le] at hle
    simp [hle]

/-! ## Texts around the limit -/

theorem encode_letters (n : ℕ) : encode (List.replicate n 'a') = List.replicate n 97 := by
  induction n with
  | zero => rfl
  | succ n ih =>
      rw [List.replicate_succ, encode_cons, ih]
      rfl

def lettersThen (n : ℕ) (rest : List Char) (h : 0 ∉ encode rest) : CString where
  bytes := encode (List.replicate n 'a' ++ rest)
  nul_free := by
    rw [encode_append, encode_letters]
    intro hzero
    rcases List.mem_append.mp hzero with hzero | hzero
    · exact absurd (List.eq_of_mem_replicate hzero) (by decide)
    · exact h hzero

theorem lettersThen_getElem? (n : ℕ) {rest : List Char} (h : 0 ∉ encode rest) (i : ℕ) :
    (lettersThen n rest h).bytes[n + i]? = (encode rest)[i]? := by
  have hbytes : (lettersThen n rest h).bytes = List.replicate n 97 ++ encode rest := by
    rw [← encode_letters, ← encode_append]
    rfl
  rw [hbytes, List.getElem?_append_right (by simp), List.length_replicate, Nat.add_sub_cancel_left]

/-- 8190 letters and two characters of two bytes: the cut is between these. -/
def evenText : CString := lettersThen 8190 ['é', 'é'] (by decide)

theorem evenText_cut : evenText.bytes[maxMessageLength]? = some 195 :=
  lettersThen_getElem? 8190 _ 2

theorem ne_empty_of_getElem? {message : CString} {i : ℕ} {b : UInt8}
    (h : message.bytes[i]? = some b) : message ≠ .empty := by
  rintro rfl
  cases h

theorem storesText_even : StoresText new evenText (.lit "user") :=
  (storesText_iff new evenText (.lit "user") (ne_empty_of_getElem? evenText_cut) (by decide)
    (wellFormed_encode _)).mpr (.inr ⟨195, evenText_cut, by decide⟩)

def longText : CString := lettersThen 8191 ['é'] (by decide)

theorem longText_cut : longText.bytes[maxMessageLength]? = some 169 :=
  lettersThen_getElem? 8191 _ 1

/-- The stored text ends with half of a character. -/
theorem storesText_fails :
    WellFormed longText.bytes ∧ ¬StoresText new longText (.lit "user") := by
  have hwell : WellFormed longText.bytes := wellFormed_encode _
  refine ⟨hwell, ?_⟩
  rintro ⟨content, hmessages, hkeeps⟩
  rw [addChatMessage_messages new (ne_empty_of_getElem? longText_cut) (by decide)] at hmessages
  obtain rfl : longText.take maxMessageLength = content := by simpa using hmessages
  have hfirst := (keepsText_take_iff hwell).mp hkeeps 169 longText_cut
  exact absurd hfirst (by decide)

end SmollChat.LLMInference
