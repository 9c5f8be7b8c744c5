import SmollChat.Model.ViewModel

/-! # An engine to run the model with

A chatml model whose vocabulary has one token per byte, the two chat markers as control
tokens and no BOS; the end marker ends a generation. -/

namespace SmollChat

namespace ByteEngine

/-- `<|im_start|>` and `<|im_end|>` with their control tokens. -/
def markers : List (Bytes × ℤ) := [(ascii "<|im_start|>", 256), (ascii "<|im_end|>", 257)]

/-- The token at the front of a text and the number of bytes it covers. -/
def frontToken (b : UInt8) (text : Bytes) : ℤ × ℕ :=
  match markers.find? fun m => m.1.isPrefixOf (b :: text) with
  | some m => (m.2, m.1.length)
  | none => (b.toNat, 1)

/-- Tokenization from the front, in at most `fuel` tokens. -/
def tokens : ℕ → Bytes → List Token
  | 0, _ => []
  | _, [] => []
  | fuel + 1, b :: text =>
      ⟨(frontToken b text).1, false⟩ :: tokens fuel ((b :: text).drop (frontToken b text).2)

def piece (token : ℤ) : Bytes :=
  match markers.find? fun m => m.2 = token with
  | some m => m.1
  | none => [token.toNat.toUInt8]

/-- The engine with a context of `nCtx` tokens. -/
def engine (nCtx : ℕ) : Engine where
  nCtx := nCtx
  chatTemplate := some chatml.template
  commonTokenize text := some (tokens text.length text)
  commonTokenToPiece := piece
  isEog token := token = 257
  nTokens := 258

/-! ## Tokenization loses no text -/

theorem piece_marker : ∀ m ∈ markers, piece m.2 = m.1 ∧ 0 < m.1.length := by decide

theorem piece_frontToken (b : UInt8) (text : Bytes) :
    piece (frontToken b text).1 = (b :: text).take (frontToken b text).2 ∧
      0 < (frontToken b text).2 := by
  unfold frontToken
  split
  · rename_i m hm
    have hfront : m.1 <+: b :: text := by simpa using List.find?_some hm
    obtain ⟨hpiece, hpos⟩ := piece_marker m (List.mem_of_find?_eq_some hm)
    exact ⟨hpiece.trans (List.prefix_iff_eq_take.mp hfront), hpos⟩
  · refine ⟨?_, by simp⟩
    have hlt : b.toNat < 2 ^ 8 := b.toNat_lt
    have hnone : (markers.find? fun m => m.2 = (b.toNat : ℤ)) = none := by
      refine List.find?_eq_none.mpr fun m hm => ?_
      have hmarker : m.2 ≥ 256 := (by decide : ∀ m ∈ markers, m.2 ≥ 256) m hm
      simp only [decide_eq_true_eq]
      omega
    simp [piece, hnone]

theorem text_tokens (n : ℕ) (fuel : ℕ) (text : Bytes) (hle : text.length ≤ fuel) :
    (engine n).text (tokens fuel text) = text := by
  induction fuel generalizing text with
  | zero =>
      obtain rfl : text = [] := by simpa using hle
      rfl
  | succ fuel ih =>
      cases text with
      | nil => rfl
      | cons b text =>
          obtain ⟨hpiece, hpos⟩ := piece_frontToken b text
          have hrest : ((b :: text).drop (frontToken b text).2).length ≤ fuel := by
            simp only [List.length_drop, List.length_cons] at hle ⊢
            omega
          calc
            (engine n).text (tokens (fuel + 1) (b :: text)) =
                piece (frontToken b text).1 ++
                  (engine n).text (tokens fuel ((b :: text).drop (frontToken b text).2)) := by
              simp [tokens, Engine.text, engine]
            _ = (b :: text).take (frontToken b text).2 ++
                  (b :: text).drop (frontToken b text).2 := by rw [hpiece, ih _ hrest]
            _ = b :: text := List.take_append_drop _ _

end ByteEngine

/-! ## The engine behind a handle, and on a screen -/

namespace SmollAI

/-- A load that succeeds with the byte engine and a context of 1024 tokens. -/
def byteRequest : LLMInference.LoadRequest := ⟨.lit "model.gguf", 1 / 20, 1, true⟩

def byteAnswer : LLMInference.LoadAnswer := ⟨some (ByteEngine.engine 1024), true, true, true⟩

def byteSmollAI : SmollAI := new.create byteRequest byteAnswer

end SmollAI

namespace ViewModel

/-- A chat without a system prompt that uses the first model. -/
def byteChat (id : ℕ) : Chat := ⟨id, .lit "Untitled", .empty, 0, 1, 1 / 20, 1, false⟩

/-- Two chats and the model. -/
def byteDatabase : Database :=
  ⟨[byteChat 1, byteChat 2], [], [⟨1, .lit "model", .lit "model.gguf"⟩], 3, 1, 2⟩

/-- The screen with the first chat, whose model is loaded. -/
def byteScreen : ViewModel := opened byteDatabase SmollAI.byteSmollAI (some (byteChat 1))

/-- The next `n` instructions of the main thread. -/
def mainSteps (n : ℕ) : List Event := List.replicate n .main

/-- A worker's steps, each with the token the engine would draw in it. -/
def workerSteps (i : ℕ) (tokens : List ℤ) : List Event := tokens.map fun t => .worker i (.ok t)

end ViewModel

end SmollChat
