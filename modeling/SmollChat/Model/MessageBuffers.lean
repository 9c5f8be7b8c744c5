import SmollChat.Library.Ledger
import SmollChat.Model.LLMInference

/-! # The buffers behind `messages`

The class keeps its messages as pointers to buffers of its own. Here the operations are
modelled a second time, with the calls of `strdup`, `malloc` and `free` they make; what
they decide they decide from the state of the class model beside them. Allocations
succeed. -/

namespace SmollChat

open LLMInference (maxMessageLength messagesToKeep)

/-- `llama_chat_message` as the source has it: two pointers. -/
structure MessageEntry where
  role : ℕ
  content : ℕ

/-- The heap's buffers and the vector of entries. -/
structure MessageBuffers where
  buffers : Ledger CString
  entries : List MessageEntry

namespace MessageBuffers

/-- `add_chat_message` -/
def addChatMessage (b : MessageBuffers) (message role : CString) : MessageBuffers :=
  if message.isEmpty || role.isEmpty then b
  else if message.bytes.length > maxMessageLength then
    let truncatedMessage := b.buffers.alloc (message.take maxMessageLength)
    let roleCopy := truncatedMessage.2.alloc role
    ⟨roleCopy.2, b.entries ++ [⟨roleCopy.1, truncatedMessage.1⟩]⟩
  else
    let roleCopy := b.buffers.alloc role
    let messageCopy := roleCopy.2.alloc message
    ⟨messageCopy.2, b.entries ++ [⟨roleCopy.1, messageCopy.1⟩]⟩

/-- `free(content)` and then `free(role)` -/
def freeEntry (h : Ledger CString) (e : MessageEntry) : Ledger CString :=
  (h.free e.content).free e.role

/-- `for (size_t i = start; i < stop && i < messages.size(); ++i)` with the two frees. -/
def freeRange (entries : List MessageEntry) (h : Ledger CString) (start stop : ℕ) :
    Ledger CString :=
  (List.range' start (stop - start)).foldl
    (fun h i => match entries[i]? with
      | none => h
      | some e => freeEntry h e) h

/-- The erasure of old messages in the over-length branch. -/
def eraseOld (b : MessageBuffers) : MessageBuffers :=
  if b.entries.length > messagesToKeep then
    let startRemove := 1
    let endRemove := b.entries.length - messagesToKeep + 1
    ⟨freeRange b.entries b.buffers startRemove endRemove,
      b.entries.take startRemove ++ b.entries.drop endRemove⟩
  else b

/-- `start_completion` -/
def startCompletion (E : Engine) (s : LLMInference) (b : MessageBuffers) (query : CString) :
    MessageBuffers :=
  if query.isEmpty then b
  else if !s.model || !s.ctx || !s.sampler then b
  else
    let b := b.addChatMessage query (.lit "user")
    if LLMInference.overLength E s query then b.eraseOld else b

/-- `stop_completion` -/
def stopCompletion (s : LLMInference) (b : MessageBuffers) : MessageBuffers :=
  if !s.model || !s.ctx then b
  else
    let cleaned := LLMInference.cleanResponse s.response
    if s.storeChats && !cleaned.isEmpty then
      b.addChatMessage (CString.cStr cleaned) (.lit "assistant")
    else b

/-- The loop at the beginning of `~LLMInference`. -/
def destroy (b : MessageBuffers) : MessageBuffers :=
  ⟨b.entries.foldl freeEntry b.buffers, []⟩

end MessageBuffers

/-- An instance with its buffers. -/
structure BufferedInference where
  native : LLMInference
  storage : MessageBuffers

namespace BufferedInference

/-- A new instance after a successful load: `messages.clear()` finds no entries. -/
def loaded (E : Engine) (storeChats : Bool) : BufferedInference :=
  ⟨LLMInference.loaded E storeChats, ⟨Ledger.empty, []⟩⟩

def call (E : Engine) (t : BufferedInference) (c : LLMInference.Call) : BufferedInference where
  native := t.native.call E c
  storage :=
    match c with
    | .addChatMessage message role => t.storage.addChatMessage message role
    | .startCompletion query => t.storage.startCompletion E t.native query
    | .completionLoop _ => t.storage
    | .stopCompletion => t.storage.stopCompletion t.native
    | .cancelCompletion => t.storage

def run (E : Engine) (t : BufferedInference) (calls : List LLMInference.Call) :
    BufferedInference :=
  calls.foldl (call E) t

end BufferedInference

end SmollChat
