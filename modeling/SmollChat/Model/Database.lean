import SmollChat.Model.Text
import Mathlib.Data.List.MinMax
import Mathlib.Data.Rat.Defs

/-! # The database: chats, messages and models

Each box keeps its rows in the order of their ids, which is the order in which queries
return them. A row without an id gets the box's next one. -/

namespace SmollChat

structure Chat where
  id : ℕ
  name : CString
  systemPrompt : CString
  dateUsed : ℕ
  llmModelId : ℤ
  minP : ℚ
  temperature : ℚ
  isTask : Bool
  deriving DecidableEq

structure ChatMessage where
  id : ℕ
  chatId : ℕ
  message : CString
  isUserMessage : Bool
  deriving DecidableEq

structure LLMModel where
  id : ℕ
  name : CString
  path : CString
  deriving DecidableEq

/-- The three boxes with the ids they hand out next. -/
structure Database where
  chats : List Chat
  messages : List ChatMessage
  models : List LLMModel
  nextChat : ℕ
  nextMessage : ℕ
  nextModel : ℕ

namespace Database

/-! ## `ChatsDB` -/

/-- `updateChat`: the put of a row with an id inserts the row if it is absent. -/
def updateChat (db : Database) (chat : Chat) : Database :=
  { db with
    chats := if db.chats.any (·.id = chat.id) then
        db.chats.map fun row => if row.id = chat.id then chat else row
      else db.chats ++ [chat] }

/-- The default `systemPrompt` of `addChat`. -/
def defaultSystemPrompt : CString := .lit "You are a helpful assistant."

/-- `addChat`: the id of the new row and the database that holds it. -/
def addChat (db : Database) (chatName : CString) (date : ℕ) : ℕ × Database :=
  (db.nextChat, { db with
    chats := db.chats ++ [⟨db.nextChat, chatName, defaultSystemPrompt, date, -1, 1 / 20, 1, false⟩]
    nextChat := db.nextChat + 1 })

/-- `getRecentlyUsedChat` -/
def getRecentlyUsedChat (db : Database) : Option Chat := db.chats.argmax Chat.dateUsed

/-- `loadDefaultChat`, which adds a first chat where there is none. -/
def loadDefaultChat (db : Database) (untitled : CString) (date : ℕ) : Option Chat × Database :=
  let db := if db.chats.isEmpty then (db.addChat untitled date).2 else db
  (db.getRecentlyUsedChat, db)

def deleteChat (db : Database) (chatId : ℕ) : Database :=
  { db with chats := db.chats.filter (·.id ≠ chatId) }

/-! ## `MessagesDB` -/

def getMessagesForModel (db : Database) (chatId : ℕ) : List ChatMessage :=
  db.messages.filter (·.chatId = chatId)

/-- The put of a new message row. -/
def addMessage (db : Database) (chatId : ℕ) (message : CString) (isUserMessage : Bool) :
    Database :=
  { db with
    messages := db.messages ++ [⟨db.nextMessage, chatId, message, isUserMessage⟩]
    nextMessage := db.nextMessage + 1 }

def addUserMessage (db : Database) (chatId : ℕ) (message : CString) : Database :=
  db.addMessage chatId message true

def addAssistantMessage (db : Database) (chatId : ℕ) (message : CString) : Database :=
  db.addMessage chatId message false

def deleteMessages (db : Database) (chatId : ℕ) : Database :=
  { db with messages := db.messages.filter (·.chatId ≠ chatId) }

/-! ## `ModelsDB` -/

def getModel (db : Database) (modelId : ℤ) : Option LLMModel :=
  db.models.find? fun model => (model.id : ℤ) = modelId

def addModel (db : Database) (name path : CString) : ℕ × Database :=
  (db.nextModel, { db with
    models := db.models ++ [⟨db.nextModel, name, path⟩]
    nextModel := db.nextModel + 1 })

def deleteModel (db : Database) (modelId : ℤ) : Database :=
  { db with models := db.models.filter fun model => (model.id : ℤ) ≠ modelId }

end Database

end SmollChat
