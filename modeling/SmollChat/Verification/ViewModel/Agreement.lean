import SmollChat.Model.ByteEngine
import SmollChat.Verification.ViewModel.Records

/-! # The current chat agrees with its row

An operation either writes both sides or replaces one by the other, except two: a new chat
is built from two prompts, and the deletion of a model unsets it in memory only. -/

namespace SmollChat

/-- The same chat, up to the date of its last use. -/
def Chat.Agrees (row chat : Chat) : Prop :=
  row.id = chat.id ∧ row.name = chat.name ∧ row.systemPrompt = chat.systemPrompt ∧
    row.llmModelId = chat.llmModelId ∧ row.minP = chat.minP ∧
    row.temperature = chat.temperature ∧ row.isTask = chat.isTask

instance (row chat : Chat) : Decidable (row.Agrees chat) := inferInstanceAs (Decidable (_ ∧ _))

theorem Chat.Agrees.refl (chat : Chat) : chat.Agrees chat := ⟨rfl, rfl, rfl, rfl, rfl, rfl, rfl⟩

/-- The current chat agrees with one of the rows. -/
def Records.Agreed (r : Records) : Prop :=
  ∀ chat, r.currChat = some chat → ∃ row ∈ r.chats, row.Agrees chat

namespace Records

variable {r : Records}

theorem agreed_of_mem {chat : Chat} (hcurr : r.currChat = some chat) (h : chat ∈ r.chats) :
    r.Agreed := by
  intro c hc
  obtain rfl := Option.some.inj (hcurr.symm.trans hc)
  exact ⟨chat, h, .refl chat⟩

theorem agreed_of_none (hcurr : r.currChat = none) : r.Agreed := by
  intro chat hchat
  cases hcurr.symm.trans hchat

theorem mem_put (r : Records) (chat : Chat) : chat ∈ (r.put chat).chats := by
  simp only [put]
  split
  · rename_i hrow
    obtain ⟨row, hmem, hid⟩ := List.any_eq_true.mp hrow
    exact List.mem_map.mpr ⟨row, hmem, if_pos (by simpa using hid)⟩
  · simp

theorem putCurrChat_agreed (r : Records) : r.putCurrChat.Agreed := by
  cases hcurr : r.currChat with
  | none => exact agreed_of_none (by simp [putCurrChat, hcurr])
  | some chat =>
      have hput : r.putCurrChat = r.put chat := by simp [putCurrChat, hcurr]
      rw [hput]
      exact agreed_of_mem hcurr (mem_put r chat)

theorem unsetModel_agreed (h : r.Agreed) {modelId : ℤ}
    (hother : ∀ chat, r.currChat = some chat → chat.llmModelId ≠ modelId) :
    (r.unsetModel modelId).Agreed := by
  have hsame : r.unsetModel modelId = r := by
    cases hcurr : r.currChat with
    | none => simp [unsetModel, hcurr]
    | some chat => simp [unsetModel, hcurr, hother chat hcurr]
  rwa [hsame]

end Records

namespace ViewModel

variable {a a' : ViewModel}

/-! ## Operations one after the other -/

/-- No operation begins while an import is inside its `updateChatLLM`, and no import begins one
while an operation is under way. -/
def Apart (a : ViewModel) : Event → Prop
  | .sendUserQuery _ _ | .switchChat _ | .newChat _ _ _ | .updateChat _ | .deleteChat _
  | .selectModel _ | .deleteModel _ => ∀ job ∈ a.imports, job.inside = false
  | e => ImportsApart a false e

instance (a : ViewModel) (e : Event) : Decidable (Apart a e) := by
  rcases e with _ | _ <;> dsimp only [Apart] <;> infer_instance

theorem Apart.imports {e : Event} (h : Apart a e) (hbeside : e.isBeside = true) :
    ImportsApart a false e := by
  cases e with
  | importModel _ _ | worker _ _ | workerThrows _ | load _ _ | loadThrows _ | importJob _
  | importThrows _ => exact h
  | _ => cases hbeside

theorem finished_of_idle (hapart : ∀ job ∈ a.imports, job.inside = false) (hidle : a.main = []) :
    a.finished false = a.records := by
  rw [finished_of_quiet hapart, mainCode, if_neg (by simp), hidle]
  rfl

theorem finished_start {ops : List RecordOp} (hapart : ∀ job ∈ a.imports, job.inside = false)
    (hidle : a.main = []) (himports : a'.imports = a.imports)
    (hops : a'.main.foldl MainInstr.effect a'.records = ops.foldl RecordOp.apply a.records) :
    a'.finished false = ops.foldl RecordOp.apply (a.finished false) := by
  rw [finished_of_quiet (himports ▸ hapart), finished_of_idle hapart hidle, ← hops]
  rfl

/-- A run of operations called one after the other: each step keeps them apart, and the code
under way leaves the records as the operations called so far do in this order. -/
theorem step_finished (hex : Exclusive a false) {e : Event} (hapart : Apart a e)
    (picks : List (Option ℕ)) (h : a.step e = some a') :
    Exclusive a' false ∧
      a'.finished false = (opsBegun a picks e).foldl RecordOp.apply (a.finished false) := by
  cases step_cases h with
  | sendUserQuery hidle hcurr _ _ _ =>
      refine ⟨hex.start rfl hapart, finished_start hapart hidle rfl ?_⟩
      simp [opsBegun, RecordOp.apply, records, Records.setDate, Records.putCurrChat, hcurr,
        ViewModel.sendUserQuery, MainInstr.effect, Instr.effect]
  | newChat hidle | switchChat hidle _ | updateChat hidle _ _ | deleteChat hidle _ _
  | selectModel hidle | deleteModel hidle =>
      exact ⟨hex.start rfl hapart, finished_start hapart hidle rfl rfl⟩
  | launchedEffect hidle _ | stopGeneration hidle _ | changeModel hidle
  | dismissModelList hidle =>
      refine ⟨hex.congr rfl fun _ => by simp [mainCode, loadModel, ViewModel.stopGeneration,
        MainInstr.touches, Instr.touches], ?_⟩
      simp only [finished, begunCode, records, mainCode, hidle]
      rfl
  | main hnext hexec =>
      have himports := execMain_imports hexec
      refine ⟨hex.congr himports ?_, finished_main hnext hexec rfl rfl rfl⟩
      intro hquiet
      have hquiet : ∀ k ∈ a.main, k.touches = false := hquiet
      exact main_untouched_next hnext hexec hquiet
  | mainThrows _ _ => exact ⟨hex.congr rfl id, finished_congr rfl rfl rfl⟩
  | _ => exact (beside_finished hex rfl (hapart.imports rfl) picks h).1

/-! ## Agreement -/

/-- A new chat is shown with the prompt that its row gets, and the model of the current chat
is not deleted. -/
def WritesBoth (a : ViewModel) : Event → Prop
  | .newChat _ systemPrompt _ => systemPrompt = Database.defaultSystemPrompt
  | .deleteModel modelId => ∀ chat ∈ a.currChat, chat.llmModelId ≠ modelId
  | _ => True

instance (a : ViewModel) (e : Event) : Decidable (WritesBoth a e) := by
  rcases e with _ | _ <;> dsimp only [WritesBoth] <;> infer_instance

/-- Run to their end, the operations an event begins keep the agreement. -/
theorem opsBegun_agreed (h : (a.finished false).Agreed) {e : Event} (hapart : Apart a e)
    (hboth : WritesBoth a e) (picks : List (Option ℕ)) (hstep : a.step e = some a') :
    ((opsBegun a picks e).foldl RecordOp.apply (a.finished false)).Agreed := by
  cases step_cases hstep with
  | sendUserQuery _ _ _ _ _ | selectModel _ => exact Records.putCurrChat_agreed _
  | @newChat chatName systemPrompt date _ =>
      simp only [WritesBoth] at hboth
      rw [hboth]
      exact Records.agreed_of_mem rfl (by simp [opsBegun, RecordOp.apply])
  | @switchChat chat hidle hlisted =>
      rw [finished_of_idle hapart hidle]
      exact Records.agreed_of_mem rfl hlisted
  | @updateChat chat _ _ _ _ => exact Records.agreed_of_mem rfl (Records.mem_put _ chat)
  | deleteChat _ _ _ => exact Records.agreed_of_none rfl
  | deleteModel hidle =>
      apply Records.unsetModel_agreed h
      rw [finished_of_idle hapart hidle]
      exact hboth
  | importAdds _ | importRuns _ _ | importEnds _ _ =>
      rcases opsBegun_importJob picks _ with hops | ⟨modelId, code, -, hops⟩
      · rw [hops]
        exact h
      · rw [hops]
        exact Records.putCurrChat_agreed _
  | _ => exact h

/-- In every run of operations one after the other that write both sides, the current chat
agrees with its row whenever no operation is under way. -/
theorem agrees_with_row (db : Database) (untitled : CString) (date : ℕ) (smollai : SmollAI)
    (h : Transition.Reach step (fun a e => Apart a e ∧ WritesBoth a e)
      (· = opened (db.loadDefaultChat untitled date).2 smollai
        (db.loadDefaultChat untitled date).1) a)
    (hrest : RecordsAtRest a) :
    ∀ chat, a.currChat = some chat → ∃ row ∈ a.db.chats, row.Agrees chat := by
  have hinv : Exclusive a false ∧ (a.finished false).Agreed := by
    apply h.invariant
    · rintro s rfl
      refine ⟨exclusive_opened _ _ _, ?_⟩
      intro chat hcurr
      have hmem : chat ∈ (db.loadDefaultChat untitled date).2.chats := List.argmax_mem hcurr
      exact ⟨chat, hmem, .refl chat⟩
    · intro s e s' hs hallowed hstep
      obtain ⟨hex, hfinished⟩ := step_finished hs.1 hallowed.1 [] hstep
      rw [hfinished]
      exact ⟨hex, opsBegun_agreed hs.2 hallowed.1 hallowed.2 [] hstep⟩
  rw [hrest.finished false] at hinv
  exact hinv.2

def defaultScreen (db : Database) : ViewModel :=
  opened (db.loadDefaultChat (.lit "Untitled") 1).2 .new (db.loadDefaultChat (.lit "Untitled") 1).1

def noChats : Database := ⟨[], [], [⟨1, .lit "model", .lit "model.gguf"⟩], 1, 1, 2⟩

def twoChats : List Event :=
  .launchedEffect :: mainSteps 2 ++ .selectModel 1 :: mainSteps 9 ++
    .updateChat ⟨1, .lit "First", .lit "Be brief.", 1, 1, 1 / 20, 1 / 2, false⟩ :: mainSteps 6 ++
    .newChat (.lit "Untitled 2") Database.defaultSystemPrompt 2 :: mainSteps 3

theorem agrees_with_row_twoChats :
    ∃ s, Transition.exec step (defaultScreen noChats) twoChats = some s ∧
      s.currChat.map Chat.id = some 2 ∧
      ∀ chat, s.currChat = some chat → ∃ row ∈ s.db.chats, row.Agrees chat := by
  have hrun : ∃ s, Transition.exec step (defaultScreen noChats) twoChats = some s ∧
      s.currChat.map Chat.id = some 2 ∧ RecordsAtRest s :=
    Transition.exec_of_decide (by decide +kernel)
  obtain ⟨s, hs, hcurr, hrest⟩ := hrun
  refine ⟨s, hs, hcurr, ?_⟩
  exact agrees_with_row noChats (.lit "Untitled") 1 .new
    (.of_exec (.start rfl) (by decide +kernel) hs) hrest

def spanishPrompt : CString := .lit "Eres un asistente útil."

def createdInSpanish : List Event := .newChat (.lit "Sin nombre 3") spanishPrompt 1 :: mainSteps 3

def deletedModel : List Event := .changeModel :: mainSteps 1 ++ .deleteModel 1 :: mainSteps 4

def Disagrees (a : ViewModel) : Prop := ∃ chat ∈ a.currChat, ∀ row ∈ a.db.chats, ¬row.Agrees chat

instance (a : ViewModel) : Decidable (Disagrees a) := by
  unfold Disagrees
  infer_instance

theorem row_disagrees :
    (∃ s, Transition.Reach step Apart (· = defaultScreen byteDatabase) s ∧
      Transition.exec step (defaultScreen byteDatabase) createdInSpanish = some s ∧
      RecordsAtRest s ∧ Disagrees s) ∧
    ∃ s, Transition.Reach step Apart (· = defaultScreen byteDatabase) s ∧
      Transition.exec step (defaultScreen byteDatabase) deletedModel = some s ∧
      RecordsAtRest s ∧ Disagrees s := by
  constructor
  · have hrun : ∃ s, Transition.exec step (defaultScreen byteDatabase) createdInSpanish = some s ∧
        RecordsAtRest s ∧ Disagrees s := Transition.exec_of_decide (by decide +kernel)
    obtain ⟨s, hs, hgoal⟩ := hrun
    exact ⟨s, .of_exec (.start rfl) (by decide +kernel) hs, hs, hgoal⟩
  · have hrun : ∃ s, Transition.exec step (defaultScreen byteDatabase) deletedModel = some s ∧
        RecordsAtRest s ∧ Disagrees s := Transition.exec_of_decide (by decide +kernel)
    obtain ⟨s, hs, hgoal⟩ := hrun
    exact ⟨s, .of_exec (.start rfl) (by decide +kernel) hs, hs, hgoal⟩

end ViewModel

end SmollChat
