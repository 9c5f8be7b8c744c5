import SmollChat.Model.Database
import SmollChat.Model.SmollAI

/-! # The chat screen: `ChatScreenViewModel` and what runs beside it

The main thread and the import jobs run lists of instructions, one per native call,
state write or database call of the source. A generation worker and a load job are kept
as the phase they have reached. Every event is one step of one of them, and the events
of all of them interleave freely. -/

namespace SmollChat

/-! ## Generation workers -/

/-- How far the coroutine launched by `sendUserQuery` has come. A phase is named after
the step that comes next. -/
inductive WorkerPhase where
  /-- launched; a cancelled worker is dropped here -/
  | created
  /-- `partialResponse.value = ""` -/
  | resetting
  /-- the native `startCompletion` of `getResponse` -/
  | starting
  /-- the native `completionLoop` -/
  | looping
  /-- the cancellation test of `emit` -/
  | emitting (piece : CString)
  /-- `partialResponse.value += it` -/
  | appending (piece : CString)
  /-- the native call that ends `getResponse` -/
  | ending
  /-- `smollai.stopCompletion()` -/
  | stopping
  /-- `smollai.cancelCompletion()` of the `catch` block -/
  | catching
  /-- the test for an empty `partialResponse` -/
  | checking
  /-- the read of `partialResponse` for the database -/
  | reading
  /-- `messagesDB.addAssistantMessage` -/
  | saving (text : CString)
  /-- `withContext(Dispatchers.Main)`, which a cancelled worker does not enter -/
  | finishing
  /-- waiting for the main thread to reset `isGeneratingResponse` -/
  | posted
  | returning
  | done
  deriving DecidableEq

/-- A generation worker. `generated` are the pieces its flow has received from the native
loop and `appended` those that have reached `partialResponse`. -/
structure Worker where
  chat : Chat
  query : CString
  phase : WorkerPhase
  cancelled : Bool
  generated : List CString
  appended : List CString

/-- `job.isActive` -/
def Worker.isActive (w : Worker) : Bool := !w.cancelled && w.phase ≠ .done

/-! ## Load jobs -/

/-- How far the coroutine launched by `loadModel` has come. -/
inductive LoadPhase where
  /-- the native `loadModel` of `create` -/
  | loading
  /-- `nativePtr = …` -/
  | assigning (ptr : ℕ)
  /-- `smollai.addSystemPrompt` -/
  | prompting
  /-- `messagesDB.getMessagesForModel` -/
  | reading
  /-- the native add of each message that was read -/
  | adding (rest : List ChatMessage)
  /-- `isInitializingModel.value = false`, on the main thread -/
  | finishing
  | done
  /-- ended by an exception -/
  | failed
  deriving DecidableEq

structure LoadJob where
  chat : Chat
  model : LLMModel
  phase : LoadPhase

/-! ## Code -/

/-- The instructions of `updateChatLLM` and `loadModel`, which run on the main thread and
on import jobs. -/
inductive Instr where
  /-- the first read of `updateChatLLM` -/
  | copyChat (modelId : ℤ)
  /-- `currChatState.value = chat` -/
  | setCurrChat (chat : Option Chat)
  /-- `currChatState.value!!` -/
  | readChat
  /-- `chatsDB.updateChat(chat)` -/
  | putChat (chat : Chat)
  /-- the tests of `loadModel` on the current chat -/
  | checkChat
  /-- `modelsRepository.getModelFromId(chat.llmModelId)` -/
  | getModel (chat : Chat)
  | setInitializing
  | launchLoad (chat : Chat) (model : LLMModel)
  | showSelectModelList
  deriving DecidableEq

/-- What only the main thread runs. -/
inductive MainInstr where
  | code (i : Instr)
  | addUserMessage (chatId : ℕ) (query : CString)
  | setGenerating (value : Bool)
  | launchWorker (chat : Chat) (query : CString)
  /-- the test of `job.isActive` in `stopGeneration` -/
  | checkJob
  | cancelJob (job : ℕ)
  /-- `smollai.cancelCompletion()` of `stopGeneration`, on behalf of a job -/
  | cancelCompletion (job : ℕ)
  | deleteChatRow (chatId : ℕ)
  | deleteMessages (chatId : ℕ)
  /-- `currChatState.value = null`, after which `deleteChat` returns -/
  | dropCurrChat (chatId : ℕ)
  | deleteModelRow (modelId : ℤ)
  /-- the test of `deleteModel` for the current chat's model -/
  | checkModel (modelId : ℤ)
  | close
  | hideSelectModelList
  deriving DecidableEq

/-- An import job of `copyAndSetNewModel`: the new model's row is added first. -/
inductive ImportJob where
  | adding (name path : CString)
  | running (code : List Instr)

/-! ## The screen -/

/-- A call that belongs to the completion cycle of a job. -/
structure CycleCall where
  job : ℕ
  fn : NativeFn
  ptr : ℕ
  deriving DecidableEq

/-- The view model with the database, its threads and, in the last two fields, a record of
what happened: the completion calls made and the chats whose deletion has returned. -/
structure ViewModel where
  db : Database
  smollai : SmollAI
  currChat : Option Chat
  isGeneratingResponse : Bool
  partialResponse : CString
  isInitializingModel : Bool
  showSelectModelListDialog : Bool
  responseGenerationJob : Option ℕ
  main : List MainInstr
  workers : List Worker
  loads : List LoadJob
  imports : List ImportJob
  /-- a changed `currChatState` for which `LaunchedEffect` has not run yet -/
  effectPending : Bool
  /-- the process has died of an uncaught exception -/
  aborted : Bool
  cycleCalls : List CycleCall
  deletedChats : List ℕ

namespace ViewModel

/-- The screen after the first composition, before any job has been launched. -/
def opened (db : Database) (smollai : SmollAI) (currChat : Option Chat) : ViewModel where
  db := db
  smollai := smollai
  currChat := currChat
  isGeneratingResponse := false
  partialResponse := .empty
  isInitializingModel := false
  showSelectModelListDialog := false
  responseGenerationJob := none
  main := []
  workers := []
  loads := []
  imports := []
  effectPending := true
  aborted := false
  cycleCalls := []
  deletedChats := []

/-! ### The operations, as the code they run -/

def updateChatLLM (modelId : ℤ) : List Instr := [.copyChat modelId]

def loadModel : List Instr := [.checkChat]

def stopGeneration : List MainInstr := [.setGenerating false, .checkJob]

def switchChat (chat : Chat) : List MainInstr :=
  stopGeneration ++ [.code (.setCurrChat (some chat))]

def updateChat (chat : Chat) : List MainInstr :=
  (.setCurrChat (some chat) :: .putChat chat :: loadModel).map .code

/-- `sendUserQuery` from its first write on. -/
def sendUserQuery (chat : Chat) (query : CString) : List MainInstr :=
  [.code (.putChat chat), .addUserMessage chat.id query, .setGenerating true,
    .launchWorker chat query]

def deleteChat (chat : Chat) : List MainInstr :=
  stopGeneration ++ [.deleteChatRow chat.id, .deleteMessages chat.id, .dropCurrChat chat.id]

def deleteModel (modelId : ℤ) : List MainInstr := [.deleteModelRow modelId, .checkModel modelId]

/-- `onModelListItemClick` -/
def selectModel (modelId : ℤ) : List MainInstr :=
  (updateChatLLM modelId ++ loadModel).map .code ++ [.hideSelectModelList]

/-! ### Steps of the code -/

variable (a : ViewModel)

/-- `currChatState.value = chat`; a change restarts the `LaunchedEffect`. -/
def setCurrChat (chat : Option Chat) : ViewModel :=
  { a with currChat := chat, effectPending := a.effectPending || a.currChat ≠ chat }

/-- One instruction: the state after it and the instructions it puts before the rest;
`none` where it throws. -/
def exec (a : ViewModel) : Instr → Option (ViewModel × List Instr)
  | .copyChat modelId =>
      some (a, [.setCurrChat (a.currChat.map fun chat => { chat with llmModelId := modelId }),
        .readChat])
  | .setCurrChat chat => some (a.setCurrChat chat, [])
  | .readChat => a.currChat.map fun chat => (a, [.putChat chat])
  | .putChat chat => some ({ a with db := a.db.updateChat chat }, [])
  | .checkChat =>
      match a.currChat with
      | none => some (a, [])
      | some chat =>
          if chat.llmModelId = -1 then some (a, [.showSelectModelList])
          else some (a, [.getModel chat])
  | .getModel chat =>
      match a.db.getModel chat.llmModelId with
      | none => some (a, [.showSelectModelList])
      | some model => some (a, [.setInitializing, .launchLoad chat model])
  | .setInitializing => some ({ a with isInitializingModel := true }, [])
  | .launchLoad chat model => some ({ a with loads := a.loads ++ [⟨chat, model, .loading⟩] }, [])
  | .showSelectModelList => some ({ a with showSelectModelListDialog := true }, [])

/-- The call of an entry point on behalf of a job. -/
def logCall (job : ℕ) (fn : NativeFn) : ViewModel :=
  { a with cycleCalls := a.cycleCalls ++ [⟨job, fn, a.smollai.nativePtr⟩] }

/-- One instruction of the main thread. -/
def execMain (a : ViewModel) : MainInstr → Option (ViewModel × List MainInstr)
  | .code i => (a.exec i).map fun r => (r.1, r.2.map .code)
  | .addUserMessage chatId query =>
      some ({ a with db := a.db.addUserMessage chatId query }, [])
  | .setGenerating value => some ({ a with isGeneratingResponse := value }, [])
  | .launchWorker chat query =>
      some ({ a with
        workers := a.workers ++ [⟨chat, query, .created, false, [], []⟩]
        responseGenerationJob := some a.workers.length }, [])
  | .checkJob =>
      match a.responseGenerationJob with
      | none => some (a, [])
      | some job =>
          if (a.workers[job]?.map Worker.isActive).getD false then
            some (a, [.cancelJob job, .cancelCompletion job])
          else some (a, [])
  | .cancelJob job =>
      some ({ a with workers := a.workers.modify job fun w => { w with cancelled := true } }, [])
  | .cancelCompletion job =>
      some ({ a.logCall job .cancelCompletionInternal with
        smollai := a.smollai.cancelCompletion }, [])
  | .deleteChatRow chatId => some ({ a with db := a.db.deleteChat chatId }, [])
  | .deleteMessages chatId => some ({ a with db := a.db.deleteMessages chatId }, [])
  | .dropCurrChat chatId =>
      some ({ a.setCurrChat none with deletedChats := a.deletedChats ++ [chatId] }, [])
  | .deleteModelRow modelId => some ({ a with db := a.db.deleteModel modelId }, [])
  | .checkModel modelId =>
      match a.currChat with
      | none => some (a, [])
      | some chat =>
          if chat.llmModelId = modelId then
            some (a, [.code (.setCurrChat (some { chat with llmModelId := -1 })), .close])
          else some (a, [])
  | .close => some ({ a with smollai := a.smollai.close }, [])
  | .hideSelectModelList => some ({ a with showSelectModelListDialog := false }, [])

/-- The main thread's next instruction. An exception nobody catches ends the process. -/
def stepMain (a : ViewModel) : Option ViewModel :=
  match a.main with
  | [] => none
  | i :: rest =>
      match a.execMain i with
      | none => some { a with aborted := true }
      | some (a', code) => some { a' with main := code ++ rest }

/-! ### Steps of the jobs -/

/-- The worker's state after its step. -/
def setWorker (i : ℕ) (w : Worker) : ViewModel := { a with workers := a.workers.set i w }

/-- One step of the `i`-th worker; `d` is what the engine answers to a loop call. -/
def stepWorker (a : ViewModel) (i : ℕ) (w : Worker) (d : Draw) : Option ViewModel :=
  match w.phase with
  | .created => some (a.setWorker i { w with phase := if w.cancelled then .done else .resetting })
  | .resetting =>
      some { a.setWorker i { w with phase := .starting } with partialResponse := .empty }
  | .starting =>
      let (r, smollai) := a.smollai.startCompletion w.query
      let a := { (a.logCall i .startCompletion).setWorker i { w with phase := .looping } with
        smollai := smollai }
      match r with
      | .ok () => some a
      | .error _ => some { a with aborted := true }
  | .looping =>
      let (r, smollai) := a.smollai.completionLoop d
      let w := if r.toKotlin = eogMarker then { w with phase := .ending }
        else { w with phase := .emitting r.toKotlin, generated := w.generated ++ [r.toKotlin] }
      some { (a.logCall i .completionLoop).setWorker i w with smollai := smollai }
  | .emitting piece =>
      some (a.setWorker i { w with phase := if w.cancelled then .catching else .appending piece })
  | .appending piece =>
      some { a.setWorker i { w with phase := .looping, appended := w.appended ++ [piece] } with
        partialResponse := a.partialResponse ++ piece }
  | .ending =>
      some { (a.logCall i .stopCompletionInternal).setWorker i { w with phase := .stopping } with
        smollai := a.smollai.stopCompletion }
  | .stopping =>
      some { (a.logCall i .stopCompletionInternal).setWorker i { w with phase := .checking } with
        smollai := a.smollai.stopCompletion }
  | .catching =>
      some { (a.logCall i .cancelCompletionInternal).setWorker i { w with phase := .checking } with
        smollai := a.smollai.cancelCompletion }
  | .checking =>
      some (a.setWorker i
        { w with phase := if a.partialResponse.isEmpty then .finishing else .reading })
  | .reading => some (a.setWorker i { w with phase := .saving a.partialResponse })
  | .saving text =>
      some { a.setWorker i { w with phase := .finishing } with
        db := a.db.addAssistantMessage w.chat.id text }
  | .finishing => some (a.setWorker i { w with phase := if w.cancelled then .done else .posted })
  | .posted =>
      if w.cancelled then some (a.setWorker i { w with phase := .done })
      else if a.main = [] then
        some { a.setWorker i { w with phase := .returning } with isGeneratingResponse := false }
      else none
  | .returning => some (a.setWorker i { w with phase := .done })
  | .done => none

/-- An `Exception` from a native call inside the `try` block. -/
def throwWorker (a : ViewModel) (i : ℕ) (w : Worker) : Option ViewModel :=
  match w.phase with
  | .starting | .looping | .ending | .stopping => some (a.setWorker i { w with phase := .catching })
  | _ => none

def setLoad (i : ℕ) (l : LoadJob) : ViewModel := { a with loads := a.loads.set i l }

/-- The native add of a stored message. -/
def addStored (smollai : SmollAI) (m : ChatMessage) : SmollAI :=
  if m.isUserMessage then smollai.addUserMessage m.message
  else smollai.addAssistantMessage m.message

/-- One step of the `i`-th load job; `r` is what the engine answers to the load. -/
def stepLoad (a : ViewModel) (i : ℕ) (l : LoadJob) (r : LLMInference.LoadAnswer) :
    Option ViewModel :=
  match l.phase with
  | .loading =>
      let (ptr, smollai) :=
        a.smollai.loadModel ⟨l.model.path, l.chat.minP, l.chat.temperature, true⟩ r
      some { a.setLoad i { l with phase := .assigning ptr } with smollai := smollai }
  | .assigning ptr =>
      some { a.setLoad i { l with phase := .prompting } with
        smollai := { a.smollai with nativePtr := ptr } }
  | .prompting =>
      some { a.setLoad i { l with phase := .reading } with
        smollai := if l.chat.systemPrompt.isEmpty then a.smollai
          else a.smollai.addSystemPrompt l.chat.systemPrompt }
  | .reading =>
      some (a.setLoad i { l with phase := .adding (a.db.getMessagesForModel l.chat.id) })
  | .adding [] => some (a.setLoad i { l with phase := .finishing })
  | .adding (m :: rest) =>
      some { a.setLoad i { l with phase := .adding rest } with smollai := addStored a.smollai m }
  | .finishing =>
      if a.main = [] then
        some { a.setLoad i { l with phase := .done } with isInitializingModel := false }
      else none
  | .done | .failed => none

/-- An exception from the native load or from the message database. -/
def throwLoad (a : ViewModel) (i : ℕ) (l : LoadJob) : Option ViewModel :=
  match l.phase with
  | .loading | .reading => some (a.setLoad i { l with phase := .failed })
  | _ => none

def setImport (i : ℕ) (job : ImportJob) : ViewModel := { a with imports := a.imports.set i job }

/-- One step of the `i`-th import job. Its `catch` block ends it after an exception. -/
def stepImport (a : ViewModel) (i : ℕ) : ImportJob → Option ViewModel
  | .adding name path =>
      let (modelId, db) := a.db.addModel name path
      some { a.setImport i (.running (updateChatLLM modelId ++ loadModel)) with db := db }
  | .running [] => none
  | .running (c :: code) =>
      match a.exec c with
      | none => some (a.setImport i (.running []))
      | some (a', more) => some (a'.setImport i (.running (more ++ code)))

/-! ### Events -/

/-- What the user does, and the steps of the threads. -/
inductive Event where
  | sendUserQuery (query : CString) (date : ℕ)
  | stopGeneration
  | switchChat (chat : Chat)
  | newChat (chatName systemPrompt : CString) (date : ℕ)
  | updateChat (chat : Chat)
  | deleteChat (chat : Chat)
  | selectModel (modelId : ℤ)
  | deleteModel (modelId : ℤ)
  /-- the entry of `ChatMoreOptionsPopup` that opens the model list -/
  | changeModel
  | dismissModelList
  | importModel (name path : CString)
  | launchedEffect
  | main
  | worker (i : ℕ) (d : Draw)
  | workerThrows (i : ℕ)
  | load (i : ℕ) (r : LLMInference.LoadAnswer)
  | loadThrows (i : ℕ)
  | importJob (i : ℕ)
  | importThrows (i : ℕ)

/-- `MessageInput` is shown instead of the hint to select a model. -/
def hasModel : Bool := a.currChat.any fun chat => chat.llmModelId ≠ -1

/-- The model list is shown and has the model. -/
def listsModel (modelId : ℤ) : Bool :=
  a.showSelectModelListDialog && (a.db.getModel modelId).isSome

/-- A main-thread operation, started while the thread is idle. -/
def start (enabled : Bool) (code : List MainInstr) : Option ViewModel :=
  if enabled && a.main.isEmpty then some { a with main := code } else none

/-- One step of the screen; `none` where the event is not enabled. -/
def step (a : ViewModel) (e : Event) : Option ViewModel :=
  if a.aborted then none
  else
    match e with
    | .sendUserQuery query date =>
        a.currChat.bind fun chat =>
          let chat := { chat with dateUsed := date }
          ({ a with currChat := some chat }).start
            (a.hasModel && !a.isGeneratingResponse && !a.isInitializingModel && !query.isEmpty)
            (ViewModel.sendUserQuery chat query)
    | .stopGeneration => a.start (a.hasModel && a.isGeneratingResponse) ViewModel.stopGeneration
    | .switchChat chat => a.start (a.db.chats.contains chat) (ViewModel.switchChat chat)
    | .newChat chatName systemPrompt date =>
        let (chatId, db) := a.db.addChat chatName date
        ({ a with db := db }).start true
          (ViewModel.switchChat ⟨chatId, chatName, systemPrompt, date, -1, 1 / 20, 1, false⟩)
    | .updateChat chat => a.start (a.currChat.any (·.id = chat.id)) (ViewModel.updateChat chat)
    | .deleteChat chat => a.start (a.currChat.any (·.id = chat.id)) (ViewModel.deleteChat chat)
    | .selectModel modelId => a.start (a.listsModel modelId) (ViewModel.selectModel modelId)
    | .deleteModel modelId => a.start (a.listsModel modelId) (ViewModel.deleteModel modelId)
    | .changeModel => a.start a.currChat.isSome [.code .showSelectModelList]
    | .dismissModelList => a.start a.showSelectModelListDialog [.hideSelectModelList]
    | .importModel name path =>
        ({ a with imports := a.imports ++ [ImportJob.adding name path] }).start (!name.isEmpty) []
    | .launchedEffect =>
        ({ a with effectPending := false }).start a.effectPending (loadModel.map .code)
    | .main => a.stepMain
    | .worker i d => a.workers[i]?.bind fun w => a.stepWorker i w d
    | .workerThrows i => a.workers[i]?.bind fun w => a.throwWorker i w
    | .load i r => a.loads[i]?.bind fun l => a.stepLoad i l r
    | .loadThrows i => a.loads[i]?.bind fun l => a.throwLoad i l
    | .importJob i => a.imports[i]?.bind fun job => a.stepImport i job
    | .importThrows i => if i < a.imports.length then some (a.setImport i (.running [])) else none

end ViewModel

end SmollChat
