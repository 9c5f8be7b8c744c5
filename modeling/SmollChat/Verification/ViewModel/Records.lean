import SmollChat.Verification.ViewModel.Deletion

/-! # The current chat and the chat rows

The same chat is held by `currChatState` and by a row. Each operation of the screen changes
the two in several steps; run to its end and by itself, it has one effect on both. -/

namespace SmollChat

/-- The current chat and the rows of the chats box. -/
structure Records where
  currChat : Option Chat
  chats : List Chat
  deriving DecidableEq

namespace Records

def put (r : Records) (chat : Chat) : Records :=
  { r with
    chats := if r.chats.any (·.id = chat.id) then
        r.chats.map fun row => if row.id = chat.id then chat else row
      else r.chats ++ [chat] }

/-- `chatsDB.updateChat(currChatState.value!!)`, which throws where there is no chat. -/
def putCurrChat (r : Records) : Records :=
  match r.currChat with
  | none => r
  | some chat => r.put chat

def setDate (r : Records) (date : ℕ) : Records :=
  { r with currChat := r.currChat.map fun chat => { chat with dateUsed := date } }

def setModel (r : Records) (modelId : ℤ) : Records :=
  { r with currChat := r.currChat.map fun chat => { chat with llmModelId := modelId } }

/-- The test of `deleteModel` and what follows it. -/
def unsetModel (r : Records) (modelId : ℤ) : Records :=
  match r.currChat with
  | none => r
  | some chat =>
      if chat.llmModelId = modelId then { r with currChat := some { chat with llmModelId := -1 } }
      else r

end Records

/-! ## Operations -/

/-- What an operation does to the records as a whole; a new chat is added and then switched
to. An `updateChatLLM` carries the id of the chat that was current when the user chose the
model. -/
inductive RecordOp where
  | sendUserQuery (date : ℕ)
  | switchChat (chat : Chat)
  | addChat (row : Chat)
  | updateChat (chat : Chat)
  | deleteChat (chatId : ℕ)
  | updateChatLLM (modelId : ℤ) (picked : Option ℕ)
  | deleteModel (modelId : ℤ)

def RecordOp.apply (r : Records) : RecordOp → Records
  | .sendUserQuery date => (r.setDate date).putCurrChat
  | .switchChat chat => { r with currChat := some chat }
  | .addChat row => { r with chats := r.chats ++ [row] }
  | .updateChat chat => ({ r with currChat := some chat }).put chat
  | .deleteChat chatId => ⟨none, r.chats.filter (·.id ≠ chatId)⟩
  | .updateChatLLM modelId _ => (r.setModel modelId).putCurrChat
  | .deleteModel modelId => r.unsetModel modelId

/-! ## Effects of code -/

/-- What an instruction does to the records, with the instructions it leads to. -/
def Instr.effect (r : Records) : Instr → Records
  | .copyChat modelId => (r.setModel modelId).putCurrChat
  | .setCurrChat chat => { r with currChat := chat }
  | .readChat => r.putCurrChat
  | .putChat chat => r.put chat
  | _ => r

def MainInstr.effect (r : Records) : MainInstr → Records
  | .code i => i.effect r
  | .deleteChatRow chatId => { r with chats := r.chats.filter (·.id ≠ chatId) }
  | .dropCurrChat _ => { r with currChat := none }
  | .checkModel modelId => r.unsetModel modelId
  | _ => r

/-- The instructions that have an effect on the records, or lead to one that has. -/
def Instr.touches : Instr → Bool
  | .copyChat _ | .setCurrChat _ | .readChat | .putChat _ => true
  | _ => false

def MainInstr.touches : MainInstr → Bool
  | .code i => i.touches
  | .deleteChatRow _ | .dropCurrChat _ | .checkModel _ => true
  | _ => false

theorem Instr.effect_of_not_touches {i : Instr} (h : i.touches = false) (r : Records) :
    i.effect r = r := by
  cases i <;> first | rfl | cases h

theorem MainInstr.effect_of_not_touches {i : MainInstr} (h : i.touches = false) (r : Records) :
    i.effect r = r := by
  cases i with
  | code k => exact Instr.effect_of_not_touches h r
  | deleteChatRow _ | dropCurrChat _ | checkModel _ => cases h
  | _ => rfl

/-- The code of an import from the first step of its `updateChatLLM` on. -/
def ImportJob.begun (job : ImportJob) : List Instr :=
  match job.code with
  | .copyChat _ :: _ => []
  | code => code

/-- The import is between the first read of its `updateChatLLM` and the put. -/
def ImportJob.inside (job : ImportJob) : Bool := job.begun.any Instr.touches

theorem foldl_effect {ι : Type*} {effect : Records → ι → Records} {touches : ι → Bool}
    (heffect : ∀ i r, touches i = false → effect r i = r) {code : List ι}
    (h : ∀ i ∈ code, touches i = false) (r : Records) : code.foldl effect r = r := by
  induction code generalizing r with
  | nil => rfl
  | cons i code ih =>
      rw [List.foldl_cons, heffect i r (h i List.mem_cons_self)]
      exact ih (fun k hk => h k (List.mem_cons_of_mem i hk)) r

namespace ViewModel

variable {a a' : ViewModel} {r : Records}

def records (a : ViewModel) : Records := ⟨a.currChat, a.db.chats⟩

/-- What remains of the imports that have begun their `updateChatLLM`. -/
def begunCode (a : ViewModel) : List Instr := a.imports.flatMap ImportJob.begun

/-- What the main thread has left of an operation, unless the operation is held back before
its first access. -/
def mainCode (a : ViewModel) (held : Bool) : List MainInstr := if held then [] else a.main

/-- The records once the code under way has run. -/
def finished (a : ViewModel) (held : Bool) : Records :=
  a.begunCode.foldl Instr.effect ((a.mainCode held).foldl MainInstr.effect a.records)

/-- No code that is under way will touch the records. -/
def RecordsAtRest (a : ViewModel) : Prop :=
  (∀ i ∈ a.main, i.touches = false) ∧ ∀ job ∈ a.imports, job.inside = false

instance (a : ViewModel) : Decidable (RecordsAtRest a) := inferInstanceAs (Decidable (_ ∧ _))

theorem main_untouched {code : List MainInstr} (h : ∀ i ∈ code, i.touches = false) (r : Records) :
    code.foldl MainInstr.effect r = r :=
  foldl_effect (fun _ _ hi => MainInstr.effect_of_not_touches hi _) h r

theorem code_untouched {code : List Instr} (h : ∀ i ∈ code, i.touches = false) (r : Records) :
    code.foldl Instr.effect r = r :=
  foldl_effect (fun _ _ hi => Instr.effect_of_not_touches hi _) h r

theorem inside_eq_false {job : ImportJob} :
    job.inside = false ↔ ∀ i ∈ job.begun, i.touches = false := by
  simp [ImportJob.inside]

theorem imports_untouched {imports : List ImportJob} (h : ∀ job ∈ imports, job.inside = false)
    (r : Records) : (imports.flatMap ImportJob.begun).foldl Instr.effect r = r := by
  apply code_untouched
  intro i hi
  obtain ⟨job, hjob, hmem⟩ := List.mem_flatMap.mp hi
  exact inside_eq_false.mp (h job hjob) i hmem

theorem inside_of_quiet {code : List Instr} (h : ∀ i ∈ code, i.touches = false) :
    (ImportJob.running code).inside = false := by
  rw [inside_eq_false]
  intro i hi
  simp only [ImportJob.begun, ImportJob.code] at hi
  split at hi
  · cases hi
  · exact h i hi

theorem mainCode_untouched (h : ∀ i ∈ a.main, i.touches = false) (held : Bool) :
    ∀ i ∈ a.mainCode held, i.touches = false := by
  cases held
  · exact h
  · simp [mainCode]

theorem finished_of_untouched {held : Bool} (hmain : ∀ i ∈ a.mainCode held, i.touches = false)
    (himports : ∀ job ∈ a.imports, job.inside = false) : a.finished held = a.records := by
  rw [finished, main_untouched hmain]
  exact imports_untouched himports _

/-- At rest the records are what the code under way leaves. -/
theorem RecordsAtRest.finished (h : RecordsAtRest a) (held : Bool) : a.finished held = a.records :=
  finished_of_untouched (mainCode_untouched h.1 held) h.2

/-- Beside imports that do not touch the records, one import's code decides. -/
theorem imports_single {imports : List ImportJob} {i : ℕ} {job : ImportJob}
    (here : imports[i]? = some job)
    (hothers : ∀ (j : ℕ) (job' : ImportJob), imports[j]? = some job' → job'.inside = true →
      j = i) (r : Records) :
    (imports.flatMap ImportJob.begun).foldl Instr.effect r = job.begun.foldl Instr.effect r := by
  induction imports generalizing i r with
  | nil => simp at here
  | cons job₀ imports ih =>
      rw [List.flatMap_cons, List.foldl_append]
      cases i with
      | zero =>
          obtain rfl : job₀ = job := by simpa using here
          apply imports_untouched
          intro job' hjob'
          obtain ⟨j, hj⟩ := List.mem_iff_getElem?.mp hjob'
          by_contra hinside
          have hzero := hothers (j + 1) job' hj (by simpa using hinside)
          omega
      | succ i =>
          have hquiet : job₀.inside = false := by
            by_contra hinside
            have hsucc := hothers 0 job₀ rfl (by simpa using hinside)
            omega
          rw [code_untouched (inside_eq_false.mp hquiet)]
          apply ih (by simpa using here)
          intro j job' hj hinside
          have hsucc := hothers (j + 1) job' hj hinside
          omega

/-! ## Instructions -/

theorem exec_effect {i : Instr} {code : List Instr} (h : a.exec i = some (a', code)) :
    code.foldl Instr.effect a'.records = i.effect a.records := by
  cases exec_cases h with
  | readChat hcurr => simp [Instr.effect, records, Records.putCurrChat, hcurr]
  | _ => rfl

theorem exec_untouched {i : Instr} {code : List Instr} (h : a.exec i = some (a', code))
    (hi : i.touches = false) :
    a'.records = a.records ∧ ∀ k ∈ code, k.touches = false := by
  cases exec_cases h with
  | copyChat | setCurrChat | readChat | putChat => cases hi
  | _ => exact ⟨rfl, by simp [Instr.touches]⟩

theorem foldl_code (code : List Instr) (r : Records) :
    (code.map MainInstr.code).foldl MainInstr.effect r = code.foldl Instr.effect r := by
  rw [List.foldl_map]
  rfl

theorem execMain_effect {i : MainInstr} {code : List MainInstr}
    (h : a.execMain i = some (a', code)) :
    code.foldl MainInstr.effect a'.records = i.effect a.records := by
  cases i with
  | code k =>
      cases execMain_cases h with
      | code hexec =>
          rw [foldl_code]
          exact exec_effect hexec
  | checkModel modelId =>
      simp only [execMain] at h
      split at h
      · rename_i hcurr
        cases h
        simp [MainInstr.effect, records, Records.unsetModel, hcurr]
      · rename_i chat hcurr
        split at h
        · rename_i hsame
          cases h
          simp [MainInstr.effect, Instr.effect, records, Records.unsetModel, hcurr, hsame]
        · rename_i hother
          cases h
          simp [MainInstr.effect, records, Records.unsetModel, hcurr, hother]
  | _ => cases execMain_cases h <;> rfl

theorem execMain_untouched {i : MainInstr} {code : List MainInstr}
    (h : a.execMain i = some (a', code)) (hi : i.touches = false) :
    ∀ k ∈ code, k.touches = false := by
  cases execMain_cases h with
  | code hexec => simpa [MainInstr.touches] using (exec_untouched hexec hi).2
  | otherModel | checkModel => cases hi
  | _ => simp [MainInstr.touches]

theorem main_untouched_next {i : MainInstr} {rest code : List MainInstr}
    (hnext : a.main = i :: rest) (hexec : a.execMain i = some (a', code))
    (hquiet : ∀ k ∈ a.main, k.touches = false) : ∀ k ∈ code ++ rest, k.touches = false := by
  rw [hnext] at hquiet
  intro k hk
  rcases List.mem_append.mp hk with hk | hk
  · exact execMain_untouched hexec (hquiet _ List.mem_cons_self) k hk
  · exact hquiet k (List.mem_cons_of_mem _ hk)

theorem execMain_imports {i : MainInstr} {code : List MainInstr}
    (h : a.execMain i = some (a', code)) : a'.imports = a.imports := by
  cases execMain_cases h with
  | code hexec => cases exec_cases hexec <;> rfl
  | _ => rfl

theorem exec_eq_none {i : Instr} (h : a.exec i = none) : i = .readChat ∧ a.currChat = none := by
  cases i with
  | readChat => exact ⟨rfl, by simpa [exec] using h⟩
  | checkChat =>
      simp only [exec] at h
      split at h
      · cases h
      · split at h <;> cases h
  | getModel _ =>
      simp only [exec] at h
      split at h <;> cases h
  | _ => cases h

theorem execMain_eq_none {i : MainInstr} (h : a.execMain i = none) : i = .code .readChat := by
  cases i with
  | code k => rw [(exec_eq_none (Option.map_eq_none_iff.mp h)).1]
  | checkJob =>
      simp only [execMain] at h
      split at h
      · cases h
      · split at h <;> cases h
  | checkModel _ =>
      simp only [execMain] at h
      split at h
      · cases h
      · split at h <;> cases h
  | _ => cases h

/-! ## One operation at a time -/

/-- What an import can have left: the steps of `updateChatLLM` before a test of the current
chat, or the code of `loadModel`. -/
inductive ImportCode : List Instr → Prop where
  | copying (modelId : ℤ) : ImportCode [.copyChat modelId, .checkChat]
  | setting (chat : Option Chat) : ImportCode [.setCurrChat chat, .readChat, .checkChat]
  | rereading : ImportCode [.readChat, .checkChat]
  | putting (chat : Chat) : ImportCode [.putChat chat, .checkChat]
  | loading {code : List Instr} (quiet : ∀ i ∈ code, i.touches = false) : ImportCode code

theorem importCode_updateChatLLM (modelId : ℤ) :
    ImportCode (ImportJob.running (updateChatLLM modelId ++ loadModel)).code :=
  .copying modelId

/-- While an import is inside its `updateChatLLM`, nothing else that has begun touches the
records. -/
structure Exclusive (a : ViewModel) (held : Bool) : Prop where
  shape : ∀ job ∈ a.imports, ImportCode job.code
  alone : ∀ (i : ℕ) (job : ImportJob), a.imports[i]? = some job → job.inside = true →
    (∀ k ∈ a.mainCode held, k.touches = false) ∧
      ∀ (j : ℕ) (job' : ImportJob), a.imports[j]? = some job' → job'.inside = true → j = i

/-- An import begins its `updateChatLLM` while nothing else that has begun touches the
records, and does not break off inside. -/
def ImportsApart (a : ViewModel) (held : Bool) : Event → Prop
  | .importJob i =>
      match a.imports[i]? with
      | some (.running (.copyChat _ :: _)) =>
          (∀ k ∈ a.mainCode held, k.touches = false) ∧ ∀ job ∈ a.imports, job.inside = false
      | _ => True
  | .importThrows i => ∀ job ∈ a.imports[i]?, job.inside = false
  | _ => True

instance (a : ViewModel) (held : Bool) (e : Event) : Decidable (ImportsApart a held e) := by
  rcases e with _ | _ <;> dsimp only [ImportsApart]
  case importJob i =>
    rcases a.imports[i]? with _ | _ | _ | ⟨_ | _, _⟩ <;> infer_instance
  all_goals infer_instance

/-- The operations an event calls. `picks` are the chats that were current when the imports
were asked for. -/
def opsBegun (a : ViewModel) (picks : List (Option ℕ)) : Event → List RecordOp
  | .sendUserQuery _ date => [.sendUserQuery date]
  | .switchChat chat => [.switchChat chat]
  | .newChat chatName systemPrompt date =>
      [.addChat ⟨a.db.nextChat, chatName, Database.defaultSystemPrompt, date, -1, 1 / 20, 1, false⟩,
        .switchChat ⟨a.db.nextChat, chatName, systemPrompt, date, -1, 1 / 20, 1, false⟩]
  | .updateChat chat => [.updateChat chat]
  | .deleteChat chat => [.deleteChat chat.id]
  | .selectModel modelId => [.updateChatLLM modelId (a.currChat.map Chat.id)]
  | .deleteModel modelId => [.deleteModel modelId]
  | .importJob i =>
      match a.imports[i]? with
      | some (.running (.copyChat modelId :: _)) => [.updateChatLLM modelId picks[i]?.join]
      | _ => []
  | _ => []

/-- An import calls nothing but `updateChatLLM`. -/
theorem opsBegun_importJob (picks : List (Option ℕ)) (i : ℕ) :
    opsBegun a picks (.importJob i) = [] ∨
      ∃ modelId code, a.imports[i]? = some (.running (.copyChat modelId :: code)) ∧
        opsBegun a picks (.importJob i) = [.updateChatLLM modelId picks[i]?.join] := by
  simp only [opsBegun]
  split
  · rename_i modelId code hjob
    exact .inr ⟨modelId, code, hjob, rfl⟩
  · exact .inl rfl

variable {held held' : Bool}

theorem begun_adding (name path : CString) : (ImportJob.adding name path).begun = [] := rfl

theorem exclusive_opened (db : Database) (smollai : SmollAI) (currChat : Option Chat) :
    Exclusive (opened db smollai currChat) held :=
  ⟨by simp [opened], by simp [opened]⟩

theorem Exclusive.congr (h : Exclusive a held) (himports : a'.imports = a.imports)
    (hmain : (∀ k ∈ a.mainCode held, k.touches = false) →
      ∀ k ∈ a'.mainCode held', k.touches = false) : Exclusive a' held' := by
  constructor
  · rw [himports]
    exact h.shape
  · intro i job hi hinside
    rw [himports] at hi ⊢
    obtain ⟨hquiet, honly⟩ := h.alone i job hi hinside
    exact ⟨hmain hquiet, honly⟩

theorem Exclusive.start (h : Exclusive a held) (himports : a'.imports = a.imports)
    (hapart : ∀ job ∈ a.imports, job.inside = false) : Exclusive a' held' := by
  constructor
  · rw [himports]
    exact h.shape
  · intro i job hi hinside
    rw [himports] at hi
    rw [hapart job (List.mem_of_getElem? hi)] at hinside
    cases hinside

theorem mainCode_congr (hmain : a'.main = a.main) : a'.mainCode held = a.mainCode held := by
  simp only [mainCode, hmain]

/-- An import moves on, into its `updateChatLLM` only if it is alone. -/
theorem Exclusive.setImport (h : Exclusive a held) {i : ℕ} {job job' : ImportJob}
    (here : a.imports[i]? = some job) (hshape : ImportCode job'.code)
    (hmain : a'.main = a.main) (himports : a'.imports = a.imports.set i job')
    (halone : job'.inside = true → (∀ k ∈ a.mainCode held, k.touches = false) ∧
      ∀ (j : ℕ) (job' : ImportJob), a.imports[j]? = some job' → job'.inside = true → j = i) :
    Exclusive a' held := by
  have hlt : i < a.imports.length := (List.getElem?_eq_some_iff.mp here).1
  have hget (j : ℕ) : a'.imports[j]? = if i = j then some job' else a.imports[j]? := by
    rw [himports, List.getElem?_set]
    simp [hlt]
  constructor
  · intro k hk
    rw [himports] at hk
    rcases List.mem_or_eq_of_mem_set hk with hold | rfl
    · exact h.shape k hold
    · exact hshape
  · intro j k hj hinside
    rw [hget] at hj
    rw [mainCode_congr hmain]
    split at hj
    · rename_i hij
      obtain rfl := Option.some.inj hj
      refine ⟨(halone hinside).1, ?_⟩
      intro l job'' hl hinside''
      rw [hget] at hl
      split at hl
      · rename_i hil
        exact hil.symm.trans hij
      · exact ((halone hinside).2 l job'' hl hinside'').trans hij
    · rename_i hij
      obtain ⟨hquiet, honly⟩ := h.alone j k hj hinside
      refine ⟨hquiet, ?_⟩
      intro l job'' hl hinside''
      rw [hget] at hl
      split at hl
      · obtain rfl := Option.some.inj hl
        exact absurd ((halone hinside'').2 j k hj hinside).symm hij
      · exact honly l job'' hl hinside''

theorem Exclusive.add (h : Exclusive a held) (name path : CString)
    (hmain : a'.main = a.main) (himports : a'.imports = a.imports ++ [.adding name path]) :
    Exclusive a' held := by
  have hget {j : ℕ} {job : ImportJob} (hj : a'.imports[j]? = some job)
      (hinside : job.inside = true) : a.imports[j]? = some job := by
    rw [himports] at hj
    rcases Nat.lt_or_ge j a.imports.length with hlt | hge
    · rwa [List.getElem?_append_left hlt] at hj
    · rw [List.getElem?_append_right hge] at hj
      have hmem := List.mem_of_getElem? hj
      rw [List.mem_singleton.mp hmem] at hinside
      cases hinside
  constructor
  · intro job hjob
    rw [himports] at hjob
    rcases List.mem_append.mp hjob with hold | hnew
    · exact h.shape job hold
    · rw [List.mem_singleton.mp hnew]
      exact .loading (by simp [ImportJob.code])
  · intro i job hi hinside
    obtain ⟨hquiet, honly⟩ := h.alone i job (hget hi hinside) hinside
    rw [mainCode_congr hmain]
    exact ⟨hquiet, fun j job' hj hin => honly j job' (hget hj hin) hin⟩

/-! ## What a step does to the finished records -/

theorem finished_of_quiet (h : ∀ job ∈ a.imports, job.inside = false) :
    a.finished held = (a.mainCode held).foldl MainInstr.effect a.records :=
  imports_untouched h _

theorem finished_congr (hrecords : a'.records = a.records)
    (hmain : a'.mainCode held' = a.mainCode held) (himports : a'.imports = a.imports) :
    a'.finished held' = a.finished held := by
  simp only [finished, begunCode, hrecords, hmain, himports]

theorem imports_set {imports : List ImportJob} {i : ℕ} {job job' : ImportJob}
    (here : imports[i]? = some job)
    (heffect : ∀ r, job'.begun.foldl Instr.effect r = job.begun.foldl Instr.effect r)
    (r : Records) :
    ((imports.set i job').flatMap ImportJob.begun).foldl Instr.effect r =
      (imports.flatMap ImportJob.begun).foldl Instr.effect r := by
  induction imports generalizing i r with
  | nil => rfl
  | cons job₀ imports ih =>
      cases i with
      | zero =>
          obtain rfl : job₀ = job := by simpa using here
          simp [List.foldl_append, heffect]
      | succ i =>
          rw [List.set_cons_succ, List.flatMap_cons, List.flatMap_cons, List.foldl_append,
            List.foldl_append]
          exact ih (by simpa using here) _

theorem finished_setImport {i : ℕ} {job job' : ImportJob} (here : a.imports[i]? = some job)
    (hjob : job.inside = false) (hjob' : job'.inside = false)
    (hrecords : a'.records = a.records) (hmain : a'.main = a.main)
    (himports : a'.imports = a.imports.set i job') : a'.finished held = a.finished held := by
  simp only [finished, begunCode, hrecords, mainCode_congr hmain, himports]
  apply imports_set here
  intro r
  rw [code_untouched (inside_eq_false.mp hjob), code_untouched (inside_eq_false.mp hjob')]

/-- An import that is inside its `updateChatLLM` decides alone. -/
theorem finished_of_inside {i : ℕ} {job : ImportJob} (here : a.imports[i]? = some job)
    (hmain : ∀ k ∈ a.mainCode held, k.touches = false)
    (honly : ∀ (j : ℕ) (job' : ImportJob), a.imports[j]? = some job' → job'.inside = true →
      j = i) :
    a.finished held = job.begun.foldl Instr.effect a.records := by
  rw [finished, main_untouched hmain]
  exact imports_single here honly _

/-- The main thread moves on in an operation that has begun. -/
theorem finished_main {i : MainInstr} {rest code : List MainInstr} {a₁ : ViewModel}
    (hnext : a.main = i :: rest) (hexec : a.execMain i = some (a₁, code))
    (hrecords : a'.records = a₁.records) (hmain : a'.main = code ++ rest)
    (himports : a'.imports = a₁.imports) : a'.finished false = a.finished false := by
  have hcode : a.mainCode false = i :: rest := hnext
  have hcode' : a'.mainCode false = code ++ rest := hmain
  simp only [finished, begunCode, himports, execMain_imports hexec, hcode, hcode', hrecords,
    List.foldl_append, List.foldl_cons, execMain_effect hexec]

/-! ## Imports -/

theorem importRuns_begins (hex : Exclusive a held)
    (hmain : ∀ k ∈ a.mainCode held, k.touches = false)
    (himports : ∀ job ∈ a.imports, job.inside = false) {i : ℕ} {modelId : ℤ}
    (hjob : a.imports[i]? = some (.running [.copyChat modelId, .checkChat]))
    {code : List Instr} (hcode : code =
      [.setCurrChat (a.currChat.map fun chat => { chat with llmModelId := modelId }), .readChat,
        .checkChat]) :
    Exclusive (a.setImport i (.running code)) held ∧
      (a.setImport i (.running code)).finished held =
        (a.records.setModel modelId).putCurrChat := by
  have hlt : i < a.imports.length := (List.getElem?_eq_some_iff.mp hjob).1
  have hnone (j : ℕ) (job' : ImportJob) (hj : a.imports[j]? = some job')
      (hinside : job'.inside = true) : j = i := by
    rw [himports job' (List.mem_of_getElem? hj)] at hinside
    cases hinside
  have hnew : Exclusive (a.setImport i (.running code)) held :=
    hex.setImport hjob (hcode ▸ .setting _) rfl rfl fun _ => ⟨hmain, hnone⟩
  refine ⟨hnew, ?_⟩
  have hinside : (ImportJob.running code).inside = true := by
    rw [hcode]
    rfl
  have here : (a.setImport i (.running code)).imports[i]? = some (.running code) := by
    simp [setImport, hlt]
  obtain ⟨hquiet, honly⟩ := hnew.alone i _ here hinside
  rw [finished_of_inside here hquiet honly, hcode]
  rfl

theorem import_inside (hex : Exclusive a held) {i : ℕ} {job job' : ImportJob}
    (hjob : a.imports[i]? = some job) (hinside : job.inside = true) (hshape : ImportCode job'.code)
    (hmain : a'.main = a.main) (himports : a'.imports = a.imports.set i job')
    (heffect : job'.begun.foldl Instr.effect a'.records =
      job.begun.foldl Instr.effect a.records) :
    Exclusive a' held ∧ a'.finished held = a.finished held := by
  have hlt : i < a.imports.length := (List.getElem?_eq_some_iff.mp hjob).1
  obtain ⟨hquiet, honly⟩ := hex.alone i _ hjob hinside
  refine ⟨hex.setImport hjob hshape hmain himports fun _ => ⟨hquiet, honly⟩, ?_⟩
  have here : a'.imports[i]? = some job' := by simp [himports, hlt]
  have hquiet' : ∀ k ∈ a'.mainCode held, k.touches = false := by
    rw [mainCode_congr hmain]
    exact hquiet
  have honly' (j : ℕ) (k : ImportJob) (hj : a'.imports[j]? = some k) (hin : k.inside = true) :
      j = i := by
    by_contra hne
    rw [himports, List.getElem?_set_ne (Ne.symm hne)] at hj
    exact hne (honly j k hj hin)
  rw [finished_of_inside here hquiet' honly', finished_of_inside hjob hquiet honly, heffect]

/-- An import outside its `updateChatLLM` moves on and stays outside. -/
theorem import_outside (hex : Exclusive a held) {i : ℕ} {job job' : ImportJob}
    (hjob : a.imports[i]? = some job) (hout : job.inside = false) (hout' : job'.inside = false)
    (hshape : ImportCode job'.code) (hrecords : a'.records = a.records) (hmain : a'.main = a.main)
    (himports : a'.imports = a.imports.set i job') :
    Exclusive a' held ∧ a'.finished held = a.finished held := by
  refine ⟨hex.setImport hjob hshape hmain himports fun hinside => ?_, ?_⟩
  · rw [hout'] at hinside
    cases hinside
  · exact finished_setImport hjob hout hout' hrecords hmain himports

theorem importRuns_inside (hex : Exclusive a held) {a₁ : ViewModel} {i : ℕ} {c : Instr}
    {code more : List Instr} (hjob : a.imports[i]? = some (.running (c :: code)))
    (hexec : a.exec c = some (a₁, more))
    (hbegun : (ImportJob.running (c :: code)).begun = c :: code)
    (hbegun' : (ImportJob.running (more ++ code)).begun = more ++ code)
    (hinside : (ImportJob.running (c :: code)).inside = true)
    (hshape : ImportCode (ImportJob.running (more ++ code)).code) :
    Exclusive (a₁.setImport i (.running (more ++ code))) held ∧
      (a₁.setImport i (.running (more ++ code))).finished held = a.finished held := by
  refine import_inside hex hjob hinside hshape (exec_sameGeneration hexec).2.1 ?_ ?_
  · simp [setImport, (exec_imports hexec).1]
  · have hrecords : (a₁.setImport i (.running (more ++ code))).records = a₁.records := rfl
    rw [hbegun, hbegun', List.foldl_append, List.foldl_cons, hrecords, exec_effect hexec]

theorem importRuns_outside (hex : Exclusive a held) {a₁ : ViewModel} {i : ℕ} {c : Instr}
    {code more : List Instr} (hjob : a.imports[i]? = some (.running (c :: code)))
    (hexec : a.exec c = some (a₁, more)) (hquiet : ∀ k ∈ c :: code, k.touches = false) :
    Exclusive (a₁.setImport i (.running (more ++ code))) held ∧
      (a₁.setImport i (.running (more ++ code))).finished held = a.finished held := by
  obtain ⟨hrecords, hmore⟩ := exec_untouched hexec (hquiet c List.mem_cons_self)
  have hcode (k : Instr) (hk : k ∈ more ++ code) : k.touches = false := by
    rcases List.mem_append.mp hk with hk | hk
    · exact hmore k hk
    · exact hquiet k (List.mem_cons_of_mem c hk)
  have hshape : ImportCode (ImportJob.running (more ++ code)).code := .loading hcode
  refine import_outside hex hjob (inside_of_quiet hquiet) (inside_of_quiet hcode) hshape hrecords
    (exec_sameGeneration hexec).2.1 ?_
  simp [setImport, (exec_imports hexec).1]

theorem importThrows_outside (hex : Exclusive a held) {i : ℕ}
    (hapart : ∀ job ∈ a.imports[i]?, job.inside = false) :
    Exclusive (a.setImport i (.running [])) held ∧
      (a.setImport i (.running [])).finished held = a.finished held := by
  cases hjob : a.imports[i]? with
  | none =>
      have himports : (a.setImport i (.running [])).imports = a.imports :=
        List.set_eq_of_length_le (List.getElem?_eq_none_iff.mp hjob)
      exact ⟨hex.congr himports id, finished_congr rfl rfl himports⟩
  | some job =>
      exact import_outside hex hjob (hapart job hjob) (inside_of_quiet (by simp))
        (.loading (by simp [ImportJob.code])) rfl rfl rfl

/-- One step of an import that is apart from what else has begun. -/
theorem import_finished (hex : Exclusive a held) {i : ℕ}
    (hapart : ImportsApart a held (.importJob i)) (picks : List (Option ℕ))
    (h : a.step (.importJob i) = some a') :
    Exclusive a' held ∧ a'.finished held =
      (opsBegun a picks (.importJob i)).foldl RecordOp.apply (a.finished held) := by
  cases step_cases h with
  | importAdds hjob =>
      simp only [opsBegun, hjob]
      exact import_outside hex hjob rfl rfl (importCode_updateChatLLM _) rfl rfl rfl
  | importRuns hjob hexec =>
      have hshape : ImportCode (_ :: _) := hex.shape _ (List.mem_of_getElem? hjob)
      simp only [ImportsApart, hjob] at hapart
      simp only [opsBegun, hjob]
      cases hshape with
      | copying modelId =>
          cases exec_cases hexec
          obtain ⟨hnew, hfinished⟩ := importRuns_begins hex hapart.1 hapart.2 hjob rfl
          rw [finished_of_untouched hapart.1 hapart.2]
          exact ⟨hnew, hfinished⟩
      | setting chat =>
          cases exec_cases hexec
          exact importRuns_inside hex hjob hexec rfl rfl rfl .rereading
      | rereading =>
          cases exec_cases hexec
          exact importRuns_inside hex hjob hexec rfl rfl rfl (.putting _)
      | putting chat =>
          cases exec_cases hexec
          exact importRuns_inside hex hjob hexec rfl rfl rfl
            (.loading (by simp [ImportJob.code, Instr.touches]))
      | loading hquiet =>
          obtain ⟨hnew, hfinished⟩ := importRuns_outside hex hjob hexec hquiet
          refine ⟨hnew, ?_⟩
          rw [hfinished]
          split
          · rename_i hcopy
            cases hcopy
            cases hquiet _ List.mem_cons_self
          · rfl
  | importEnds hjob hexec =>
      obtain ⟨rfl, hcurr⟩ := exec_eq_none hexec
      have hshape : ImportCode (_ :: _) := hex.shape _ (List.mem_of_getElem? hjob)
      simp only [opsBegun, hjob]
      cases hshape with
      | rereading =>
          have hempty : ImportCode (ImportJob.running []).code :=
            .loading (by simp [ImportJob.code])
          refine import_inside hex hjob rfl hempty rfl rfl ?_
          simp [setImport, ImportJob.begun, ImportJob.code, Instr.effect, records,
            Records.putCurrChat, hcurr]
      | loading hquiet => cases hquiet _ List.mem_cons_self

/-! ## Beside the main thread -/

def Event.isBeside : Event → Bool
  | .importModel _ _ | .worker _ _ | .workerThrows _ | .load _ _ | .loadThrows _ | .importJob _
  | .importThrows _ => true
  | _ => false

theorem opsBegun_beside {e : Event} (hbeside : e.isBeside = true) (picks : List (Option ℕ)) :
    opsBegun a picks e = [] ∨ ∃ i modelId code, e = .importJob i ∧
      a.imports[i]? = some (.running (.copyChat modelId :: code)) ∧
      opsBegun a picks e = [.updateChatLLM modelId picks[i]?.join] := by
  cases e with
  | importJob i =>
      rcases opsBegun_importJob picks i with hops | ⟨modelId, code, hjob, hops⟩
      · exact .inl hops
      · exact .inr ⟨i, modelId, code, rfl, hjob, hops⟩
  | importModel _ _ | worker _ _ | workerThrows _ | load _ _ | loadThrows _ | importThrows _ =>
      exact .inl rfl
  | _ => cases hbeside

theorem beside_finished (hex : Exclusive a held) {e : Event} (hbeside : e.isBeside = true)
    (hapart : ImportsApart a held e) (picks : List (Option ℕ)) (h : a.step e = some a') :
    (Exclusive a' held ∧ a'.finished held =
      (opsBegun a picks e).foldl RecordOp.apply (a.finished held)) ∧ a'.main = a.main := by
  cases step_cases h with
  | importModel _ =>
      refine ⟨⟨hex.add _ _ rfl rfl, ?_⟩, rfl⟩
      simp [opsBegun, finished, begunCode, begun_adding, records, mainCode]
  | worker _ hmove =>
      obtain ⟨-, -, hchats, -, hcurr, himports, hmain, -⟩ := stepWorker_settled hmove
      have hcode : a'.mainCode held = a.mainCode held := mainCode_congr hmain
      refine ⟨⟨hex.congr himports fun hquiet => hcode ▸ hquiet, ?_⟩, hmain⟩
      exact finished_congr (by simp [records, hchats, hcurr]) hcode himports
  | workerThrows _ hthrow =>
      obtain ⟨rfl, -⟩ := throwWorker_eq hthrow
      exact ⟨⟨hex.congr rfl id, finished_congr rfl rfl rfl⟩, rfl⟩
  | load _ hload =>
      obtain ⟨hdb, hcurr, himports⟩ := stepLoad_chats hload
      have hmain := (stepLoad_sameGeneration hload).2
      have hcode : a'.mainCode held = a.mainCode held := mainCode_congr hmain
      refine ⟨⟨hex.congr himports fun hquiet => hcode ▸ hquiet, ?_⟩, hmain⟩
      exact finished_congr (by simp [records, hdb, hcurr]) hcode himports
  | loadThrows _ hthrow =>
      obtain rfl := throwLoad_eq hthrow
      exact ⟨⟨hex.congr rfl id, finished_congr rfl rfl rfl⟩, rfl⟩
  | importAdds _ => exact ⟨import_finished hex hapart picks h, rfl⟩
  | importEnds _ _ => exact ⟨import_finished hex hapart picks h, rfl⟩
  | importRuns _ hexec =>
      exact ⟨import_finished hex hapart picks h, (exec_sameGeneration hexec).2.1⟩
  | importThrows => exact ⟨importThrows_outside hex hapart, rfl⟩
  | _ => cases hbeside

end ViewModel

end SmollChat
