import SmollChat.Verification.SmollAI.Equations
import SmollChat.Verification.ViewModel.Equations

/-! # The history of a chat

What a chat's native message list should be: the texts of the chat that are not empty, in
their order, each cut to the limit of the native class. -/

namespace SmollChat

open LLMInference (storedMessage)

def ChatMessage.role (m : ChatMessage) : CString :=
  if m.isUserMessage then .lit "user" else .lit "assistant"

namespace Database

/-- The system prompt and the stored messages of a chat, each with its role. -/
def texts (db : Database) (chat : Chat) : List (CString × CString) :=
  (.lit "system", chat.systemPrompt) ::
    (db.getMessagesForModel chat.id).map fun m => (m.role, m.message)

def history (db : Database) (chat : Chat) : List Message :=
  ((db.texts chat).filter fun t => !t.2.isEmpty).map fun t =>
    ⟨t.1, t.2.take LLMInference.maxMessageLength⟩

/-- The entries the native class makes of stored messages. -/
def entries (messages : List ChatMessage) : List Message :=
  messages.flatMap fun m => storedMessage m.message m.role

@[simp] theorem entries_nil : entries [] = [] := rfl

@[simp] theorem entries_cons (m : ChatMessage) (rest : List ChatMessage) :
    entries (m :: rest) = storedMessage m.message m.role ++ entries rest := rfl

@[simp] theorem entries_append (messages rest : List ChatMessage) :
    entries (messages ++ rest) = entries messages ++ entries rest := by
  simp [entries]

theorem role_ne_empty (m : ChatMessage) : m.role.isEmpty = false := by
  unfold ChatMessage.role
  split <;> decide

theorem history_eq (db : Database) (chat : Chat) :
    db.history chat = storedMessage chat.systemPrompt (.lit "system") ++
      entries (db.getMessagesForModel chat.id) := by
  have hsystem : (CString.lit "system").isEmpty = false := by decide
  have hentry : ∀ role text : CString, role.isEmpty = false → ∀ rest : List (CString × CString),
      (((role, text) :: rest).filter fun t => !t.2.isEmpty).map (fun t =>
        (⟨t.1, t.2.take LLMInference.maxMessageLength⟩ : Message)) =
      storedMessage text role ++ (rest.filter fun t => !t.2.isEmpty).map fun t =>
        ⟨t.1, t.2.take LLMInference.maxMessageLength⟩ := by
    intro role text hrole rest
    cases htext : text.isEmpty <;> simp [storedMessage, htext, hrole]
  unfold history texts
  rw [hentry _ _ hsystem]
  congr 1
  induction db.getMessagesForModel chat.id with
  | nil => rfl
  | cons m rest ih => rw [List.map_cons, hentry _ _ (role_ne_empty m), ih, entries_cons]

theorem history_addMessage (db : Database) (chat : Chat) (message : CString)
    (isUserMessage : Bool) :
    (db.addMessage chat.id message isUserMessage).history chat =
      db.history chat ++
        storedMessage message (if isUserMessage then .lit "user" else .lit "assistant") := by
  simp [history_eq, getMessagesForModel, addMessage, ChatMessage.role]

end Database

namespace ViewModel

open Database (entries)

theorem addStored_native {s : SmollAI} {E : Engine} {n : LLMInference}
    (h : s.native = some (E, n)) (m : ChatMessage) :
    (addStored s m).native =
      some (E, { n with messages := n.messages ++ storedMessage m.message m.role }) := by
  unfold addStored ChatMessage.role
  split
  · exact SmollAI.addChatMessage_native h m.message (.lit "user")
  · exact SmollAI.addChatMessage_native h m.message (.lit "assistant")

/-- What a load job adds after its `create`: the system prompt and the messages it has
read. -/
def replay (s : SmollAI) (chat : Chat) (messages : List ChatMessage) : SmollAI :=
  messages.foldl addStored
    (if chat.systemPrompt.isEmpty then s else s.addSystemPrompt chat.systemPrompt)

theorem foldl_addStored {s : SmollAI} {E : Engine} {n : LLMInference}
    (h : s.native = some (E, n)) (messages : List ChatMessage) :
    (messages.foldl addStored s).native =
      some (E, { n with messages := n.messages ++ entries messages }) := by
  induction messages generalizing s n with
  | nil => simpa using h
  | cons m rest ih =>
      rw [List.foldl_cons, ih (addStored_native h m)]
      simp

theorem replay_messages (s : SmollAI) {r : LLMInference.LoadRequest} {a : LLMInference.LoadAnswer}
    (h : LLMInference.loads r a = true) (db : Database) (chat : Chat) :
    (replay (s.create r a) chat (db.getMessagesForModel chat.id)).messages =
      some (db.history chat) := by
  obtain ⟨E, hnative⟩ := SmollAI.create_native (s := s) h
  have hprompted : (if chat.systemPrompt.isEmpty then s.create r a
      else (s.create r a).addSystemPrompt chat.systemPrompt).native =
      some (E, { LLMInference.loaded E r.storeChats with
        messages := storedMessage chat.systemPrompt (.lit "system") }) := by
    split
    · rename_i hempty
      simp [hnative, storedMessage, hempty, LLMInference.loaded, LLMInference.new]
    · exact SmollAI.addChatMessage_native hnative _ _
  unfold replay SmollAI.messages
  rw [foldl_addStored hprompted, Database.history_eq]
  rfl

end ViewModel

end SmollChat
