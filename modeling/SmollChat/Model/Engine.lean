import SmollChat.Model.Text
import Mathlib.Data.List.Flatten

/-! # The inference engine as the native class sees it

`Engine` collects what a loaded model and its context answer without changing
state. What changes from call to call (decode results, sampled tokens, the KV
cache) is kept by the class model, which receives the engine's answers as a
`Draw`. -/

namespace SmollChat

/-- `llama_chat_message` -/
structure Message where
  role : CString
  content : CString
  deriving DecidableEq

/-- An element of a token vector. `inserted` records that the tokenizer put the token
there of its own accord (a BOS) and not for a piece of the text. -/
structure Token where
  id : ℤ
  inserted : Bool
  deriving DecidableEq

/-- `llama_chat_apply_template`, without its copy into the buffer: the rendering of
a message list, or `none` where the function returns a negative length. -/
abbrev Template := List Message → Bool → Option Bytes

/-- A loaded model with its context. -/
structure Engine where
  /-- `llama_n_ctx(ctx)` -/
  nCtx : ℕ
  /-- `llama_model_chat_template(model, nullptr)`, applied; `none` for a null pointer -/
  chatTemplate : Option Template
  /-- `common_tokenize(ctx, text, true, true)`; `none` where it throws -/
  commonTokenize : Bytes → Option (List Token)
  /-- `common_token_to_piece(ctx, token, true)` -/
  commonTokenToPiece : ℤ → Bytes
  /-- `llama_vocab_is_eog(vocab, token)` -/
  isEog : ℤ → Bool
  /-- `llama_vocab_n_tokens(vocab)` -/
  nTokens : ℕ

/-- What the engine answers during one `completion_loop` call: the result of
`llama_decode`, whether the logits and the vocabulary are non-null, and the token
`llama_sampler_sample` draws. -/
structure Draw where
  decodeResult : ℤ
  logits : Bool
  vocab : Bool
  sampled : ℤ
  deriving DecidableEq

/-- A successful decode followed by the draw of `token`. -/
def Draw.ok (token : ℤ) : Draw := ⟨0, true, true, token⟩

/-- The text of a token run: the pieces of its tokens, the inserted ones aside. -/
def Engine.text (E : Engine) (tokens : List Token) : Bytes :=
  (tokens.map fun t => if t.inserted then [] else E.commonTokenToPiece t.id).flatten

namespace Engine

variable (E : Engine)

@[simp] theorem text_append (xs ys : List Token) : E.text (xs ++ ys) = E.text xs ++ E.text ys := by
  simp [text]

end Engine

/-! ## Templates made of one chunk per message -/

/-- `chunks` renders message by message; `header` opens the assistant's reply. -/
structure ChunkTemplate where
  chunk : Message → CString
  header : CString

/-- The rendering of a chunked template. -/
def ChunkTemplate.render (C : ChunkTemplate) (messages : List Message) (addAss : Bool) : Bytes :=
  (messages.map fun m => (C.chunk m).bytes).flatten ++ if addAss then C.header.bytes else []

def ChunkTemplate.template (C : ChunkTemplate) : Template := fun messages addAss =>
  some (C.render messages addAss)

/-- The chatml branch of `llm_chat_apply_template`. -/
def chatml : ChunkTemplate where
  chunk m := .lit "<|im_start|>" ++ m.role ++ .lit "\n" ++ m.content ++ .lit "<|im_end|>\n"
  header := .lit "<|im_start|>assistant\n"

end SmollChat
