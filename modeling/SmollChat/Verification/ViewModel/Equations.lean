import SmollChat.Library.Transition
import SmollChat.Model.ViewModel

/-! Inversion of the screen's steps, and what the steps leave alone. -/

namespace SmollChat

/-- The worker has stored its reply or found none to store. -/
def WorkerPhase.isSaved : WorkerPhase → Bool
  | .finishing | .posted | .returning | .done => true
  | _ => false

/-- The worker will not touch the partial response or the database any more. -/
def Worker.isSettled (w : Worker) : Bool :=
  w.phase.isSaved || (w.phase == .created && w.cancelled)

theorem Worker.isSettled_eq_false {w : Worker} {phase : WorkerPhase} (hphase : w.phase = phase)
    (hsaved : phase.isSaved = false) (hbegun : phase ≠ .created) : w.isSettled = false := by
  simp [isSettled, hphase, hsaved, hbegun]

namespace ViewModel

variable {a a' : ViewModel}

/-! ## The steps -/

/-- What a step is: the start of an operation, an instruction of the main thread or a step
of a job. -/
inductive Step (a : ViewModel) : Event → ViewModel → Prop where
  | sendUserQuery {query date chat} (idle : a.main = []) (curr : a.currChat = some chat)
      (ready : a.hasModel = true) (enabled : a.isGeneratingResponse = false)
      (asks : query ≠ .empty) :
      Step a (.sendUserQuery query date) { a with
        currChat := some { chat with dateUsed := date }
        main := ViewModel.sendUserQuery { chat with dateUsed := date } query }
  | newChat {chatName systemPrompt date} (idle : a.main = []) :
      Step a (.newChat chatName systemPrompt date) { a with
        db := (a.db.addChat chatName date).2
        main := ViewModel.switchChat
          ⟨a.db.nextChat, chatName, systemPrompt, date, -1, 1 / 20, 1, false⟩ }
  | importModel {name path} (idle : a.main = []) :
      Step a (.importModel name path) { a with imports := a.imports ++ [.adding name path] }
  | launchedEffect (idle : a.main = []) (pending : a.effectPending = true) :
      Step a .launchedEffect { a with effectPending := false, main := loadModel.map .code }
  | stopGeneration (idle : a.main = []) (generating : a.isGeneratingResponse = true) :
      Step a .stopGeneration { a with main := ViewModel.stopGeneration }
  | switchChat {chat} (idle : a.main = []) (listed : chat ∈ a.db.chats) :
      Step a (.switchChat chat) { a with main := ViewModel.switchChat chat }
  | updateChat {chat old} (idle : a.main = []) (curr : a.currChat = some old)
      (same : old.id = chat.id) :
      Step a (.updateChat chat) { a with main := ViewModel.updateChat chat }
  | deleteChat {chat old} (idle : a.main = []) (curr : a.currChat = some old)
      (same : old.id = chat.id) :
      Step a (.deleteChat chat) { a with main := ViewModel.deleteChat chat }
  | selectModel {modelId} (idle : a.main = []) :
      Step a (.selectModel modelId) { a with main := ViewModel.selectModel modelId }
  | deleteModel {modelId} (idle : a.main = []) :
      Step a (.deleteModel modelId) { a with main := ViewModel.deleteModel modelId }
  | changeModel (idle : a.main = []) :
      Step a .changeModel { a with main := [.code .showSelectModelList] }
  | dismissModelList (idle : a.main = []) :
      Step a .dismissModelList { a with main := [.hideSelectModelList] }
  | main {i rest a₁ code} (next : a.main = i :: rest) (exec : a.execMain i = some (a₁, code)) :
      Step a .main { a₁ with main := code ++ rest }
  | mainThrows {i rest} (next : a.main = i :: rest) (exec : a.execMain i = none) :
      Step a .main { a with aborted := true }
  | worker {i d w a'} (here : a.workers[i]? = some w) (step : a.stepWorker i w d = some a') :
      Step a (.worker i d) a'
  | workerThrows {i w a'} (here : a.workers[i]? = some w) (step : a.throwWorker i w = some a') :
      Step a (.workerThrows i) a'
  | load {i r l a'} (here : a.loads[i]? = some l) (step : a.stepLoad i l r = some a') :
      Step a (.load i r) a'
  | loadThrows {i l a'} (here : a.loads[i]? = some l) (step : a.throwLoad i l = some a') :
      Step a (.loadThrows i) a'
  | importAdds {i name path} (here : a.imports[i]? = some (.adding name path)) :
      Step a (.importJob i) { a.setImport i (.running (updateChatLLM (a.db.addModel name path).1 ++
        loadModel)) with db := (a.db.addModel name path).2 }
  | importRuns {i c code a₁ more} (here : a.imports[i]? = some (.running (c :: code)))
      (exec : a.exec c = some (a₁, more)) :
      Step a (.importJob i) (a₁.setImport i (.running (more ++ code)))
  | importEnds {i c code} (here : a.imports[i]? = some (.running (c :: code)))
      (exec : a.exec c = none) :
      Step a (.importJob i) (a.setImport i (.running []))
  | importThrows {i} : Step a (.importThrows i) (a.setImport i (.running []))

theorem start_eq_some {enabled : Bool} {code : List MainInstr}
    (h : a.start enabled code = some a') :
    enabled = true ∧ a.main = [] ∧ a' = { a with main := code } := by
  unfold start at h
  split at h
  · rename_i hcond
    simp only [Bool.and_eq_true, List.isEmpty_iff] at hcond
    exact ⟨hcond.1, hcond.2, (Option.some.inj h).symm⟩
  · cases h

theorem step_cases {e : Event} (h : a.step e = some a') : Step a e a' := by
  unfold step at h
  split at h
  · cases h
  cases e with
  | sendUserQuery query date =>
      obtain ⟨chat, hcurr, hstart⟩ := Option.bind_eq_some_iff.mp h
      obtain ⟨henabled, hidle, rfl⟩ := start_eq_some hstart
      simp only [Bool.and_eq_true, Bool.not_eq_true', hasModel] at henabled
      refine .sendUserQuery hidle hcurr (by simpa [hasModel, hcurr] using henabled.1.1.1)
        henabled.1.1.2 ?_
      rintro rfl
      simp at henabled
  | stopGeneration =>
      obtain ⟨henabled, hidle, rfl⟩ := start_eq_some h
      simp only [Bool.and_eq_true] at henabled
      exact .stopGeneration hidle henabled.2
  | switchChat chat =>
      obtain ⟨hlisted, hidle, rfl⟩ := start_eq_some h
      exact .switchChat hidle (by simpa using hlisted)
  | newChat chatName systemPrompt date =>
      obtain ⟨-, hidle, rfl⟩ := start_eq_some h
      exact .newChat hidle
  | updateChat chat =>
      obtain ⟨hsame, hidle, rfl⟩ := start_eq_some h
      obtain ⟨curr, hcurr, hid⟩ := Option.any_eq_true _ _ |>.mp hsame
      exact .updateChat hidle hcurr (by simpa using hid)
  | deleteChat chat =>
      obtain ⟨hsame, hidle, rfl⟩ := start_eq_some h
      obtain ⟨curr, hcurr, hid⟩ := Option.any_eq_true _ _ |>.mp hsame
      exact .deleteChat hidle hcurr (by simpa using hid)
  | selectModel modelId =>
      obtain ⟨-, hidle, rfl⟩ := start_eq_some h
      exact .selectModel hidle
  | deleteModel modelId =>
      obtain ⟨-, hidle, rfl⟩ := start_eq_some h
      exact .deleteModel hidle
  | changeModel =>
      obtain ⟨-, hidle, rfl⟩ := start_eq_some h
      exact .changeModel hidle
  | dismissModelList =>
      obtain ⟨-, hidle, rfl⟩ := start_eq_some h
      exact .dismissModelList hidle
  | importModel name path =>
      obtain ⟨-, hidle, rfl⟩ := start_eq_some h
      rw [show ([] : List MainInstr) = a.main from hidle.symm]
      exact .importModel hidle
  | launchedEffect =>
      obtain ⟨hpending, hidle, rfl⟩ := start_eq_some h
      exact .launchedEffect hidle hpending
  | main =>
      simp only [stepMain] at h
      split at h
      · cases h
      rename_i i rest hmain
      split at h
      · rename_i hexec
        obtain rfl := Option.some.inj h
        exact .mainThrows hmain hexec
      · rename_i a₁ code hexec
        obtain rfl := Option.some.inj h
        exact .main hmain hexec
  | worker i d =>
      obtain ⟨w, hw, hstep⟩ := Option.bind_eq_some_iff.mp h
      exact .worker hw hstep
  | workerThrows i =>
      obtain ⟨w, hw, hstep⟩ := Option.bind_eq_some_iff.mp h
      exact .workerThrows hw hstep
  | load i r =>
      obtain ⟨l, hl, hstep⟩ := Option.bind_eq_some_iff.mp h
      exact .load hl hstep
  | loadThrows i =>
      obtain ⟨l, hl, hstep⟩ := Option.bind_eq_some_iff.mp h
      exact .loadThrows hl hstep
  | importJob i =>
      obtain ⟨job, hjob, hstep⟩ := Option.bind_eq_some_iff.mp h
      unfold stepImport at hstep
      split at hstep
      · obtain rfl := Option.some.inj hstep
        exact .importAdds hjob
      · cases hstep
      · split at hstep
        · rename_i hexec
          obtain rfl := Option.some.inj hstep
          exact .importEnds hjob hexec
        · rename_i a₁ more hexec
          obtain rfl := Option.some.inj hstep
          exact .importRuns hjob hexec
  | importThrows i =>
      simp only at h
      split at h
      · obtain rfl := Option.some.inj h
        exact .importThrows
      · cases h

/-- What an instruction of `updateChatLLM` or `loadModel` does. -/
inductive ExecStep (a : ViewModel) : Instr → ViewModel → List Instr → Prop where
  | copyChat {modelId : ℤ} :
      ExecStep a (.copyChat modelId) a
        [.setCurrChat (a.currChat.map fun chat => { chat with llmModelId := modelId }), .readChat]
  | setCurrChat {chat : Option Chat} : ExecStep a (.setCurrChat chat) (a.setCurrChat chat) []
  | readChat {chat : Chat} (curr : a.currChat = some chat) :
      ExecStep a .readChat a [.putChat chat]
  | putChat {chat : Chat} : ExecStep a (.putChat chat) { a with db := a.db.updateChat chat } []
  | noChat (curr : a.currChat = none) : ExecStep a .checkChat a []
  | unset {chat : Chat} (curr : a.currChat = some chat) (modelId : chat.llmModelId = -1) :
      ExecStep a .checkChat a [.showSelectModelList]
  | checkChat {chat : Chat} (curr : a.currChat = some chat) (modelId : chat.llmModelId ≠ -1) :
      ExecStep a .checkChat a [.getModel chat]
  | noModel {chat : Chat} (model : a.db.getModel chat.llmModelId = none) :
      ExecStep a (.getModel chat) a [.showSelectModelList]
  | getModel {chat : Chat} {m : LLMModel} (model : a.db.getModel chat.llmModelId = some m) :
      ExecStep a (.getModel chat) a [.setInitializing, .launchLoad chat m]
  | setInitializing : ExecStep a .setInitializing { a with isInitializingModel := true } []
  | launchLoad {chat : Chat} {m : LLMModel} :
      ExecStep a (.launchLoad chat m) { a with loads := a.loads ++ [⟨chat, m, .loading⟩] } []
  | showSelectModelList :
      ExecStep a .showSelectModelList { a with showSelectModelListDialog := true } []

theorem exec_cases {c : Instr} {code : List Instr} (h : a.exec c = some (a', code)) :
    ExecStep a c a' code := by
  cases c with
  | readChat =>
      obtain ⟨chat, hcurr, heq⟩ := Option.map_eq_some_iff.mp h
      cases heq
      exact .readChat hcurr
  | checkChat =>
      simp only [exec] at h
      split at h
      · rename_i hcurr
        cases h
        exact .noChat hcurr
      · rename_i chat hcurr
        split at h
        · rename_i hunset
          cases h
          exact .unset hcurr hunset
        · rename_i hset
          cases h
          exact .checkChat hcurr hset
  | getModel chat =>
      simp only [exec] at h
      split at h
      · rename_i hmodel
        cases h
        exact .noModel hmodel
      · rename_i m hmodel
        cases h
        exact .getModel hmodel
  | copyChat _ | setCurrChat _ | putChat _ | setInitializing | launchLoad _ _
  | showSelectModelList =>
      cases h
      constructor

/-- What an instruction of the main thread does. -/
inductive MainStep (a : ViewModel) : MainInstr → ViewModel → List MainInstr → Prop where
  | code {i : Instr} {a₁ : ViewModel} {more : List Instr} (exec : a.exec i = some (a₁, more)) :
      MainStep a (.code i) a₁ (more.map .code)
  | addUserMessage {chatId : ℕ} {query : CString} :
      MainStep a (.addUserMessage chatId query) { a with db := a.db.addUserMessage chatId query } []
  | setGenerating {value : Bool} :
      MainStep a (.setGenerating value) { a with isGeneratingResponse := value } []
  | launchWorker {chat : Chat} {query : CString} :
      MainStep a (.launchWorker chat query) { a with
        workers := a.workers ++ [⟨chat, query, .created, false, [], []⟩]
        responseGenerationJob := some a.workers.length } []
  | noJob : MainStep a .checkJob a []
  | checkJob {job : ℕ} {w : Worker} (current : a.responseGenerationJob = some job)
      (here : a.workers[job]? = some w) :
      MainStep a .checkJob a [.cancelJob job, .cancelCompletion job]
  | cancelJob {job : ℕ} :
      MainStep a (.cancelJob job)
        { a with workers := a.workers.modify job fun w => { w with cancelled := true } } []
  | cancelCompletion {job : ℕ} :
      MainStep a (.cancelCompletion job) { a.logCall job .cancelCompletionInternal with
        smollai := a.smollai.cancelCompletion } []
  | deleteChatRow {chatId : ℕ} :
      MainStep a (.deleteChatRow chatId) { a with db := a.db.deleteChat chatId } []
  | deleteMessages {chatId : ℕ} :
      MainStep a (.deleteMessages chatId) { a with db := a.db.deleteMessages chatId } []
  | dropCurrChat {chatId : ℕ} :
      MainStep a (.dropCurrChat chatId)
        { a.setCurrChat none with deletedChats := a.deletedChats ++ [chatId] } []
  | deleteModelRow {modelId : ℤ} :
      MainStep a (.deleteModelRow modelId) { a with db := a.db.deleteModel modelId } []
  | otherModel {modelId : ℤ} : MainStep a (.checkModel modelId) a []
  | checkModel {modelId : ℤ} {chat : Chat} (curr : a.currChat = some chat) :
      MainStep a (.checkModel modelId) a
        [.code (.setCurrChat (some { chat with llmModelId := -1 })), .close]
  | close : MainStep a .close { a with smollai := a.smollai.close } []
  | hideSelectModelList :
      MainStep a .hideSelectModelList { a with showSelectModelListDialog := false } []

theorem execMain_cases {i : MainInstr} {code : List MainInstr}
    (h : a.execMain i = some (a', code)) : MainStep a i a' code := by
  cases i with
  | code k =>
      obtain ⟨⟨a₁, more⟩, hk, heq⟩ := Option.map_eq_some_iff.mp h
      cases heq
      exact .code hk
  | checkJob =>
      simp only [execMain] at h
      split at h
      · cases h
        exact .noJob
      · rename_i job hjob
        split at h
        · rename_i hactive
          cases h
          cases hw : a.workers[job]? with
          | none => simp [hw] at hactive
          | some w => exact .checkJob hjob hw
        · cases h
          exact .noJob
  | checkModel modelId =>
      simp only [execMain] at h
      split at h
      · cases h
        exact .otherModel
      · rename_i chat hcurr
        split at h <;> cases h
        · exact .checkModel hcurr
        · exact .otherModel
  | addUserMessage _ _ | setGenerating _ | launchWorker _ _ | cancelJob _ | cancelCompletion _
  | deleteChatRow _ | deleteMessages _ | dropCurrChat _ | deleteModelRow _ | close
  | hideSelectModelList =>
      cases h
      constructor

/-! ## Frames -/

/-- What belongs to the generations: the messages, the partial response, the workers and
the record of their calls. -/
structure SameGeneration (a a' : ViewModel) : Prop where
  messages : a'.db.messages = a.db.messages
  nextMessage : a'.db.nextMessage = a.db.nextMessage
  partialResponse : a'.partialResponse = a.partialResponse
  workers : a'.workers = a.workers
  responseGenerationJob : a'.responseGenerationJob = a.responseGenerationJob
  cycleCalls : a'.cycleCalls = a.cycleCalls
  deletedChats : a'.deletedChats = a.deletedChats

theorem exec_sameGeneration {c : Instr} {code : List Instr} (h : a.exec c = some (a', code)) :
    SameGeneration a a' ∧ a'.main = a.main ∧ a'.smollai = a.smollai := by
  cases exec_cases h <;> exact ⟨⟨rfl, rfl, rfl, rfl, rfl, rfl, rfl⟩, rfl, rfl⟩

theorem stepLoad_sameGeneration {i : ℕ} {l : LoadJob} {r : LLMInference.LoadAnswer}
    (h : a.stepLoad i l r = some a') : SameGeneration a a' ∧ a'.main = a.main := by
  unfold stepLoad at h
  split at h
  case h_7 =>
      split at h <;> cases h
      exact ⟨⟨rfl, rfl, rfl, rfl, rfl, rfl, rfl⟩, rfl⟩
  all_goals cases h <;> exact ⟨⟨rfl, rfl, rfl, rfl, rfl, rfl, rfl⟩, rfl⟩

theorem stepLoad_chats {i : ℕ} {l : LoadJob} {r : LLMInference.LoadAnswer}
    (h : a.stepLoad i l r = some a') :
    a'.db = a.db ∧ a'.currChat = a.currChat ∧ a'.imports = a.imports := by
  unfold stepLoad at h
  split at h
  case h_7 =>
      split at h <;> cases h
      exact ⟨rfl, rfl, rfl⟩
  all_goals cases h <;> exact ⟨rfl, rfl, rfl⟩

theorem throwLoad_eq {i : ℕ} {l : LoadJob} (h : a.throwLoad i l = some a') :
    a' = a.setLoad i { l with phase := .failed } := by
  unfold throwLoad at h
  split at h <;> cases h <;> rfl

theorem throwWorker_eq {i : ℕ} {w : Worker} (h : a.throwWorker i w = some a') :
    a' = a.setWorker i { w with phase := .catching } ∧
      (w.phase = .starting ∨ w.phase = .looping ∨ w.phase = .ending ∨ w.phase = .stopping) := by
  unfold throwWorker at h
  split at h <;> cases h <;> exact ⟨rfl, by simp [*]⟩

theorem step_generation {e : Event} (h : a.step e = some a') :
    SameGeneration a a' ∨
      (∃ i rest a₁ code, e = .main ∧ a.main = i :: rest ∧ a.execMain i = some (a₁, code) ∧
        a' = { a₁ with main := code ++ rest }) ∨
      (∃ i w, a.workers[i]? = some w ∧ ((∃ d, e = .worker i d ∧ a.stepWorker i w d = some a') ∨
        (e = .workerThrows i ∧ a.throwWorker i w = some a'))) := by
  cases step_cases h with
  | main hnext hexec => exact .inr (.inl ⟨_, _, _, _, rfl, hnext, hexec, rfl⟩)
  | worker here hstep => exact .inr (.inr ⟨_, _, here, .inl ⟨_, rfl, hstep⟩⟩)
  | workerThrows here hstep => exact .inr (.inr ⟨_, _, here, .inr ⟨rfl, hstep⟩⟩)
  | load here hstep => exact .inl (stepLoad_sameGeneration hstep).1
  | loadThrows here hstep =>
      obtain rfl := throwLoad_eq hstep
      exact .inl ⟨rfl, rfl, rfl, rfl, rfl, rfl, rfl⟩
  | importRuns here hexec =>
      have hsame := (exec_sameGeneration hexec).1
      exact .inl ⟨hsame.messages, hsame.nextMessage, hsame.partialResponse, hsame.workers,
        hsame.responseGenerationJob, hsame.cycleCalls, hsame.deletedChats⟩
  | _ => exact .inl ⟨rfl, rfl, rfl, rfl, rfl, rfl, rfl⟩

/-! ## Workers -/

theorem setWorker_getElem? {i : ℕ} {w w' : Worker} (h : a.workers[i]? = some w) (j : ℕ) :
    (a.setWorker i w').workers[j]? = if j = i then some w' else a.workers[j]? := by
  have hi : i < a.workers.length := (List.getElem?_eq_some_iff.mp h).1
  simp only [setWorker, List.getElem?_set]
  split
  · rename_i hij
    simp [← hij]
  · rename_i hij
    simp [Ne.symm hij]

theorem modify_workers {i : ℕ} {w : Worker} (h : a.workers[i]? = some w) (f : Worker → Worker) :
    a.workers.modify i f = (a.setWorker i (f w)).workers := by
  apply List.ext_getElem?
  intro j
  rw [List.getElem?_modify, setWorker_getElem? h]
  by_cases hj : j = i
  · simp [hj, h]
  · simp [hj, Ne.symm hj]

theorem setLoad_getElem? {i : ℕ} {l l' : LoadJob} (h : a.loads[i]? = some l) (j : ℕ) :
    (a.setLoad i l').loads[j]? = if j = i then some l' else a.loads[j]? := by
  have hi : i < a.loads.length := (List.getElem?_eq_some_iff.mp h).1
  simp only [setLoad, List.getElem?_set]
  split
  · rename_i hij
    simp [← hij]
  · rename_i hij
    simp [Ne.symm hij]

inductive WorkerStep (a : ViewModel) (i : ℕ) (w : Worker) (d : Draw) : ViewModel → Prop where
  | dropped (phase : w.phase = .created) (cancelled : w.cancelled = true) :
      WorkerStep a i w d (a.setWorker i { w with phase := .done })
  | begins (phase : w.phase = .created) (active : w.cancelled = false) :
      WorkerStep a i w d (a.setWorker i { w with phase := .resetting })
  | resets (phase : w.phase = .resetting) :
      WorkerStep a i w d { a.setWorker i { w with phase := .starting } with
        partialResponse := .empty }
  | starts (phase : w.phase = .starting)
      (ok : (a.smollai.startCompletion w.query).1 = .ok ()) :
      WorkerStep a i w d { (a.logCall i .startCompletion).setWorker i
          { w with phase := .looping } with
        smollai := (a.smollai.startCompletion w.query).2 }
  | aborts (phase : w.phase = .starting)
      (throws : (a.smollai.startCompletion w.query).1 ≠ .ok ()) :
      WorkerStep a i w d { (a.logCall i .startCompletion).setWorker i
          { w with phase := .looping } with
        smollai := (a.smollai.startCompletion w.query).2
        aborted := true }
  | ends (phase : w.phase = .looping) (eog : (a.smollai.loopResult d).toKotlin = eogMarker) :
      WorkerStep a i w d { (a.logCall i .completionLoop).setWorker i
          { w with phase := .ending } with
        smollai := (a.smollai.completionLoop d).2 }
  | receives {piece} (phase : w.phase = .looping)
      (result : (a.smollai.loopResult d).toKotlin = piece) (text : piece ≠ eogMarker) :
      WorkerStep a i w d { (a.logCall i .completionLoop).setWorker i
          { w with phase := .emitting piece, generated := w.generated ++ [piece] } with
        smollai := (a.smollai.completionLoop d).2 }
  | emits {piece} (phase : w.phase = .emitting piece) (active : w.cancelled = false) :
      WorkerStep a i w d (a.setWorker i { w with phase := .appending piece })
  | stops {piece} (phase : w.phase = .emitting piece) (cancelled : w.cancelled = true) :
      WorkerStep a i w d (a.setWorker i { w with phase := .catching })
  | appends {piece} (phase : w.phase = .appending piece) :
      WorkerStep a i w d { a.setWorker i
          { w with phase := .looping, appended := w.appended ++ [piece] } with
        partialResponse := a.partialResponse ++ piece }
  | finishes (phase : w.phase = .ending) :
      WorkerStep a i w d { (a.logCall i .stopCompletionInternal).setWorker i
          { w with phase := .stopping } with
        smollai := a.smollai.stopCompletion }
  | stopsAgain (phase : w.phase = .stopping) :
      WorkerStep a i w d { (a.logCall i .stopCompletionInternal).setWorker i
          { w with phase := .checking } with
        smollai := a.smollai.stopCompletion }
  | cancels (phase : w.phase = .catching) :
      WorkerStep a i w d { (a.logCall i .cancelCompletionInternal).setWorker i
          { w with phase := .checking } with
        smollai := a.smollai.cancelCompletion }
  | empty (phase : w.phase = .checking) (isEmpty : a.partialResponse = .empty) :
      WorkerStep a i w d (a.setWorker i { w with phase := .finishing })
  | nonempty (phase : w.phase = .checking) (isNotEmpty : a.partialResponse ≠ .empty) :
      WorkerStep a i w d (a.setWorker i { w with phase := .reading })
  | reads (phase : w.phase = .reading) :
      WorkerStep a i w d (a.setWorker i { w with phase := .saving a.partialResponse })
  | saves {text} (phase : w.phase = .saving text) :
      WorkerStep a i w d { a.setWorker i { w with phase := .finishing } with
        db := a.db.addAssistantMessage w.chat.id text }
  | posts (phase : w.phase = .finishing) (active : w.cancelled = false) :
      WorkerStep a i w d (a.setWorker i { w with phase := .posted })
  | leaves (phase : w.phase = .finishing ∨ w.phase = .posted) (cancelled : w.cancelled = true) :
      WorkerStep a i w d (a.setWorker i { w with phase := .done })
  | resumes (phase : w.phase = .posted) (idle : a.main = []) :
      WorkerStep a i w d { a.setWorker i { w with phase := .returning } with
        isGeneratingResponse := false }
  | returns (phase : w.phase = .returning) :
      WorkerStep a i w d (a.setWorker i { w with phase := .done })

theorem stepWorker_cases {i : ℕ} {w : Worker} {d : Draw} (h : a.stepWorker i w d = some a') :
    WorkerStep a i w d a' := by
  unfold stepWorker at h
  split at h
  case h_1 hphase =>
      cases h
      by_cases hc : w.cancelled = true
      · rw [if_pos hc]
        exact .dropped hphase hc
      · rw [if_neg hc]
        exact .begins hphase (by simpa using hc)
  case h_2 hphase =>
      cases h
      exact .resets hphase
  case h_3 hphase =>
      simp only at h
      split at h
      · rename_i hr
        cases h
        exact .starts hphase hr
      · rename_i e hr
        cases h
        exact .aborts hphase (by simp [hr])
  case h_4 hphase =>
      cases h
      by_cases heog : (a.smollai.loopResult d).toKotlin = eogMarker
      · simpa [SmollAI.completionLoop, heog] using WorkerStep.ends hphase heog
      · simpa [SmollAI.completionLoop, heog] using WorkerStep.receives hphase rfl heog
  case h_5 piece hphase =>
      cases h
      by_cases hc : w.cancelled = true
      · rw [if_pos hc]
        exact .stops hphase hc
      · rw [if_neg hc]
        exact .emits hphase (by simpa using hc)
  case h_6 piece hphase =>
      cases h
      exact .appends hphase
  case h_7 hphase =>
      cases h
      exact .finishes hphase
  case h_8 hphase =>
      cases h
      exact .stopsAgain hphase
  case h_9 hphase =>
      cases h
      exact .cancels hphase
  case h_10 hphase =>
      cases h
      by_cases hempty : a.partialResponse = .empty
      · simpa [hempty] using WorkerStep.empty hphase hempty
      · simpa [hempty] using WorkerStep.nonempty hphase hempty
  case h_11 hphase =>
      cases h
      exact .reads hphase
  case h_12 text hphase =>
      cases h
      exact .saves hphase
  case h_13 hphase =>
      cases h
      by_cases hc : w.cancelled = true
      · rw [if_pos hc]
        exact .leaves (.inl hphase) hc
      · rw [if_neg hc]
        exact .posts hphase (by simpa using hc)
  case h_14 hphase =>
      split at h
      · rename_i hc
        cases h
        exact .leaves (.inr hphase) hc
      split at h
      · rename_i hidle
        cases h
        exact .resumes hphase hidle
      · cases h
  case h_15 hphase =>
      cases h
      exact .returns hphase
  case h_16 => cases h

/-- A worker's step keeps its chat and its being settled, stores at most a message of its
chat, and leaves the chats, the imports and the main thread alone. -/
theorem stepWorker_settled {i : ℕ} {w : Worker} {d : Draw} (h : a.stepWorker i w d = some a') :
    (∃ w', a'.workers = (a.setWorker i w').workers ∧ w'.chat = w.chat ∧
      (w.isSettled = true → w'.isSettled = true)) ∧
    (∀ m ∈ a'.db.messages, m ∈ a.db.messages ∨ (w.isSettled = false ∧ m.chatId = w.chat.id)) ∧
    a'.db.chats = a.db.chats ∧ a'.db.nextChat = a.db.nextChat ∧ a'.currChat = a.currChat ∧
    a'.imports = a.imports ∧ a'.main = a.main ∧ a'.deletedChats = a.deletedChats := by
  cases stepWorker_cases h with
  | saves hphase =>
      refine ⟨⟨_, rfl, rfl, fun _ => rfl⟩, ?_, rfl, rfl, rfl, rfl, rfl, rfl⟩
      intro m hm
      rcases List.mem_append.mp hm with hm | hm
      · exact .inl hm
      · obtain rfl := List.mem_singleton.mp hm
        exact .inr ⟨w.isSettled_eq_false hphase rfl (by simp), rfl⟩
  | dropped | leaves | returns | posts | resumes | empty =>
      exact ⟨⟨_, rfl, rfl, fun _ => rfl⟩, fun m hm => .inl hm, rfl, rfl, rfl, rfl, rfl, rfl⟩
  | begins hphase hactive =>
      refine ⟨⟨_, rfl, rfl, ?_⟩, fun m hm => .inl hm, rfl, rfl, rfl, rfl, rfl, rfl⟩
      simp [Worker.isSettled, hphase, WorkerPhase.isSaved, hactive]
  | resets hphase | starts hphase _ | aborts hphase _ | ends hphase _ | receives hphase _ _
  | emits hphase _ | stops hphase _ | appends hphase | finishes hphase | stopsAgain hphase
  | cancels hphase | nonempty hphase _ | reads hphase =>
      refine ⟨⟨_, rfl, rfl, ?_⟩, fun m hm => .inl hm, rfl, rfl, rfl, rfl, rfl, rfl⟩
      rw [w.isSettled_eq_false hphase rfl (by simp)]
      simp

end ViewModel

end SmollChat
