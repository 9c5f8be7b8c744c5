import SmollChat.Verification.ViewModel.Ownership

/-! # Chats and the one instance

The screen asks whichever instance is current. With one operation after the other, that is
the chat's own instance as long as `loadModel` finds the model of each chat it is called for;
where it does not, the instance of the chat before stays. -/

namespace SmollChat

/-- The instruction is part of a `loadModel` that has not launched its job yet. -/
def MainInstr.reloads : MainInstr → Bool
  | .code .checkChat | .code (.getModel _) | .code .setInitializing => true
  | _ => false

/-- Instructions of the operations that start no job and close nothing. -/
def MainInstr.isTame : MainInstr → Bool
  | .code (.copyChat _) | .code (.setCurrChat _) | .code .readChat | .code (.putChat _)
  | .setGenerating _ | .checkJob | .deleteChatRow _ | .deleteMessages _ | .dropCurrChat _
  | .deleteModelRow _ | .hideSelectModelList => true
  | _ => false

/-- What `sendUserQuery` does before it launches its worker. -/
def MainInstr.isRecord : MainInstr → Bool
  | .code (.putChat _) | .addUserMessage _ _ | .setGenerating _ => true
  | _ => false

def MainInstr.sends : MainInstr → Bool
  | .launchWorker _ _ => true
  | i => i.isRecord

/-- An instruction of `loadModel` for the current chat, or one that closes a dialog. -/
def MainInstr.LoadsFor (curr : Option Chat) : MainInstr → Prop
  | .code .checkChat | .code .setInitializing | .code .showSelectModelList
  | .hideSelectModelList => True
  | .code (.getModel chat) | .code (.launchLoad chat _) => curr.map Chat.id = some chat.id
  | _ => False

namespace ViewModel

variable {a a' a₁ : ViewModel} {c : ℕ} {own : Instance} {owner : Option ℕ}

/-! ## Runs -/

structure Settled (a : ViewModel) : Prop where
  main : a.main = []
  effect : a.effectPending = false
  loads : ∀ l ∈ a.loads, l.phase.isEnded = true
  workers : ∀ w ∈ a.workers, w.phase = .done

instance (a : ViewModel) : Decidable (Settled a) :=
  decidable_of_iff (a.main = [] ∧ a.effectPending = false ∧
      (∀ l ∈ a.loads, l.phase.isEnded = true) ∧ ∀ w ∈ a.workers, w.phase = .done)
    ⟨fun h => ⟨h.1, h.2.1, h.2.2.1, h.2.2.2⟩, fun h => ⟨h.main, h.effect, h.loads, h.workers⟩⟩

/-- Each operation runs to completion before the next one begins. -/
def Serial (a : ViewModel) : Event → Prop
  | .importModel _ _ => False
  | .launchedEffect | .main | .worker _ _ | .workerThrows _ | .load _ _ | .loadThrows _
  | .importJob _ | .importThrows _ => True
  | _ => Settled a

/-- `loadModel` finds the model it looks up. -/
def ModelFound (a : ViewModel) : Event → Prop
  | .main =>
      match a.main with
      | .code (.getModel chat) :: _ => (a.db.getModel chat.llmModelId).isSome = true
      | _ => True
  | _ => True

instance (a : ViewModel) (e : Event) : Decidable (Serial a e) := by
  rcases e with _ | _ <;> dsimp only [Serial] <;> infer_instance

instance (a : ViewModel) (e : Event) : Decidable (ModelFound a e) := by
  rcases e with _ | _ <;> dsimp only [ModelFound]
  case main =>
    rcases a.main with _ | ⟨k | _, rest⟩
    case cons.code => rcases k with _ | _ <;> infer_instance
    all_goals infer_instance
  all_goals infer_instance

/-! ## Stages of an operation -/

/-- The code of an operation before a load. -/
inductive Tame : List MainInstr → Prop where
  | done : Tame []
  | load {rest} (hides : ∀ i ∈ rest, i = MainInstr.hideSelectModelList) :
      Tame (.code .checkChat :: rest)
  | checkModel {modelId} : Tame [.checkModel modelId]
  | step {i rest} (head : i.isTame = true) (tail : Tame rest) : Tame (i :: rest)

structure NoJobs (loads : List LoadJob) (workers : List Worker) : Prop where
  loads : ∀ l ∈ loads, l.phase.isEnded = true
  workers : ∀ w ∈ workers, w.phase = .done

/-- What is running, when the current instance is the `owner`'s. -/
inductive Activity (a : ViewModel) (owner : Option ℕ) : Prop where
  | code (idle : NoJobs a.loads a.workers) (tame : Tame a.main)
  | closing {chat} (idle : NoJobs a.loads a.workers)
      (main : a.main = [.code (.setCurrChat (some chat)), .close]) (unset : chat.llmModelId = -1)
  | closes (idle : NoJobs a.loads a.workers) (main : a.main = [.close])
      (unset : ∀ chat ∈ a.currChat, chat.llmModelId = -1)
  | sending {before chat query} (idle : NoJobs a.loads a.workers)
      (main : a.main = before ++ [.launchWorker chat query])
      (records : ∀ i ∈ before, MainInstr.isRecord i = true) (effect : a.effectPending = false)
      (owned : owner = some chat.id)
  | loading (workers : ∀ w ∈ a.workers, w.phase = .done)
      (main : ∀ i ∈ a.main, i.LoadsFor a.currChat)
      (loads : ∀ l ∈ a.loads, l.phase.isEnded = false → a.currChat.map Chat.id = some l.chat.id ∧
        (l.phase.hasAssigned = true → owner = some l.chat.id))
  | generating (loads : ∀ l ∈ a.loads, l.phase.isEnded = true) (main : a.main = [])
      (effect : a.effectPending = false)
      (workers : ∀ w ∈ a.workers, w.phase ≠ .done → owner = some w.chat.id)

/-- A `loadModel` for the current chat is due or under way. -/
def WillReload (a : ViewModel) : Prop :=
  a.effectPending = true ∨ ∃ i ∈ a.main, MainInstr.reloads i = true

/-- The current instance is the one that its owner has for itself; `own` is what the chat `c`
has. A chat with a model is the owner, or it will be before a query can be sent. -/
structure Owned (c : ℕ) (own : Instance) (a : ViewModel) (owner : Option ℕ) : Prop where
  imports : a.imports = []
  handles : Handles a.smollai a.loads
  rows : ∀ l ∈ a.loads, ∀ rest, l.phase = .adding rest → ∀ m ∈ rest, m.chatId = l.chat.id
  native : owner = some c → a.smollai.native = own
  reload : ∀ chat ∈ a.currChat, chat.llmModelId ≠ -1 → a.isInitializingModel = false →
    WillReload a ∨ owner = some chat.id
  stage : Activity a owner

theorem opened_owned (c : ℕ) (db : Database) (currChat : Option Chat) :
    Owned c none (opened db .new currChat) none where
  imports := rfl
  handles := ⟨Nat.le_refl 0, fun _ _ _ hl => by simp [opened] at hl,
    fun _ _ _ _ _ hl => by simp [opened] at hl⟩
  rows := by simp [opened]
  native := by simp
  reload := fun _ _ _ _ => .inl (.inl rfl)
  stage := .code ⟨by simp [opened], by simp [opened]⟩ .done

/-! ## Frames -/

/-- The step leaves the jobs and the instances alone. -/
structure SameJobs (a a' : ViewModel) : Prop where
  imports : a'.imports = a.imports
  smollai : a'.smollai = a.smollai
  loads : a'.loads = a.loads
  workers : a'.workers = a.workers

theorem SameJobs.noJobs (h : SameJobs a a') (hidle : NoJobs a.loads a.workers) :
    NoJobs a'.loads a'.workers := by
  rw [h.loads, h.workers]
  exact hidle

/-- What `Owned` says of the next query. -/
def Reloads (a : ViewModel) (owner : Option ℕ) : Prop :=
  ∀ chat ∈ a.currChat, chat.llmModelId ≠ -1 → a.isInitializingModel = false →
    WillReload a ∨ owner = some chat.id

theorem Owned.frame (h : Owned c own a owner) (hsame : SameJobs a a') (hstage : Activity a' owner)
    (hreload : Reloads a' owner) : Owned c own a' owner where
  imports := hsame.imports.trans h.imports
  handles := by
    rw [hsame.smollai, hsame.loads]
    exact h.handles
  rows := hsame.loads ▸ h.rows
  native := by
    rw [hsame.smollai]
    exact h.native
  reload := hreload
  stage := hstage

/-- A step that only the database or the record sees. -/
theorem Owned.aside (h : Owned c own a owner) (hsame : SameJobs a a') (hmain : a'.main = a.main)
    (hcurr : a'.currChat = a.currChat) (heffect : a'.effectPending = a.effectPending)
    (hflag : a'.isInitializingModel = a.isInitializingModel) : Owned c own a' owner := by
  obtain ⟨hloads, hworkers⟩ := And.intro hsame.loads hsame.workers
  apply h.frame hsame
  · cases h.stage with
    | code hidle htame => exact .code (hsame.noJobs hidle) (hmain ▸ htame)
    | closing hidle hcloses => exact .closing (hsame.noJobs hidle) (hmain.trans hcloses) ‹_›
    | closes hidle hcloses hunset =>
        exact .closes (hsame.noJobs hidle) (hmain.trans hcloses) (hcurr ▸ hunset)
    | sending hidle hsends hrecords hnone howner =>
        exact .sending (hsame.noJobs hidle) (hmain.trans hsends) hrecords (heffect.trans hnone)
          howner
    | loading hdone hfor hjobs =>
        refine .loading (hworkers ▸ hdone) ?_ ?_
        · rw [hmain, hcurr]
          exact hfor
        · rw [hloads, hcurr]
          exact hjobs
    | generating hended hidle hnone hjobs =>
        exact .generating (hloads ▸ hended) (hmain.trans hidle) (heffect.trans hnone)
          (hworkers ▸ hjobs)
  · intro chat hchat hset hfree
    rw [hcurr] at hchat
    rw [hflag] at hfree
    unfold WillReload
    rw [heffect, hmain]
    exact h.reload chat hchat hset hfree

theorem Owned.reloads (h : Owned c own a owner) (hcurr : a'.currChat = a.currChat)
    (hflag : a'.isInitializingModel = a.isInitializingModel)
    (hwill : WillReload a → WillReload a') : Reloads a' owner := by
  intro chat hchat hset hfree
  rw [hcurr] at hchat
  rw [hflag] at hfree
  exact (h.reload chat hchat hset hfree).imp_left hwill

/-- An instruction that is not of `loadModel` goes, and the loads that are due stay so. -/
theorem WillReload.pop (h : WillReload a) (code : List MainInstr) {i : MainInstr}
    {rest : List MainInstr} (hmain : a.main = i :: rest) (hi : i.reloads = false)
    (heffect : a'.effectPending = a.effectPending) (hmain' : a'.main = code ++ rest) :
    WillReload a' := by
  rcases h with hpending | ⟨k, hk, hreloads⟩
  · exact .inl (heffect.trans hpending)
  · right
    rw [hmain] at hk
    rcases List.mem_cons.mp hk with rfl | hk
    · rw [hi] at hreloads
      cases hreloads
    · exact ⟨k, hmain' ▸ List.mem_append_right code hk, hreloads⟩

/-- An instruction that changes neither the current chat nor its flag goes. -/
theorem Owned.reloads_pop (h : Owned c own a owner) (code : List MainInstr) {i : MainInstr}
    {rest : List MainInstr} (hmain : a.main = i :: rest) (hi : i.reloads = false)
    (hcurr : a'.currChat = a.currChat) (hflag : a'.isInitializingModel = a.isInitializingModel)
    (heffect : a'.effectPending = a.effectPending) (hmain' : a'.main = code ++ rest) :
    Reloads a' owner :=
  h.reloads hcurr hflag fun hwill => hwill.pop code hmain hi heffect hmain'

/-! ## The main thread before a load -/

theorem Tame.append {code rest : List MainInstr} (hcode : ∀ i ∈ code, i.isTame = true)
    (hrest : Tame rest) : Tame (code ++ rest) := by
  induction code with
  | nil => exact hrest
  | cons i code ih =>
      exact .step (hcode i List.mem_cons_self)
        (ih fun k hk => hcode k (List.mem_cons_of_mem i hk))

theorem reloads_of_tame {i : MainInstr} (h : i.isTame = true) : i.reloads = false := by
  cases i with
  | code k => cases k <;> first | rfl | cases h
  | _ => rfl

theorem execMain_checkJob (h : ∀ w ∈ a.workers, w.phase = .done) :
    a.execMain .checkJob = some (a, []) := by
  simp only [execMain]
  split
  · rfl
  · rename_i job hjob
    cases hw : a.workers[job]? with
    | none => simp
    | some w =>
        have hdone := h w (List.mem_of_getElem? hw)
        simp [Worker.isActive, hdone]

/-- A tame instruction changes at most the current chat, for which a load is due then. -/
theorem execMain_tame (hidle : NoJobs a.loads a.workers) {i : MainInstr} {code : List MainInstr}
    (hi : i.isTame = true) (hexec : a.execMain i = some (a₁, code)) :
    SameJobs a a₁ ∧ (∀ k ∈ code, MainInstr.isTame k = true) ∧
      a₁.isInitializingModel = a.isInitializingModel ∧
      (a₁.currChat = a.currChat ∧ a₁.effectPending = a.effectPending ∨
        a₁.effectPending = true) := by
  have hjobs : SameJobs a a := ⟨rfl, rfl, rfl, rfl⟩
  cases i with
  | code k =>
      obtain ⟨⟨a₂, more⟩, hk, heq⟩ := Option.map_eq_some_iff.mp hexec
      cases heq
      cases k with
      | copyChat modelId =>
          cases hk
          exact ⟨hjobs, by simp [MainInstr.isTame], rfl, .inl ⟨rfl, rfl⟩⟩
      | setCurrChat chat =>
          cases hk
          refine ⟨⟨rfl, rfl, rfl, rfl⟩, by simp, rfl, ?_⟩
          by_cases hsame : a.currChat = chat
          · exact .inl ⟨hsame.symm, by simp [setCurrChat, hsame]⟩
          · exact .inr (by simp [setCurrChat, hsame])
      | readChat =>
          obtain ⟨chat, hcurr, heq⟩ := Option.map_eq_some_iff.mp hk
          cases heq
          exact ⟨hjobs, by simp [MainInstr.isTame], rfl, .inl ⟨rfl, rfl⟩⟩
      | putChat chat =>
          cases hk
          exact ⟨⟨rfl, rfl, rfl, rfl⟩, by simp, rfl, .inl ⟨rfl, rfl⟩⟩
      | _ => cases hi
  | checkJob =>
      rw [execMain_checkJob hidle.workers] at hexec
      cases hexec
      exact ⟨hjobs, by simp, rfl, .inl ⟨rfl, rfl⟩⟩
  | dropCurrChat chatId =>
      cases hexec
      refine ⟨⟨rfl, rfl, rfl, rfl⟩, by simp, rfl, ?_⟩
      by_cases hsame : a.currChat = none
      · exact .inl ⟨hsame.symm, by simp [setCurrChat, hsame]⟩
      · exact .inr (by simp [setCurrChat, hsame])
  | setGenerating _ | deleteChatRow _ | deleteMessages _ | deleteModelRow _
  | hideSelectModelList =>
      cases hexec
      exact ⟨⟨rfl, rfl, rfl, rfl⟩, by simp, rfl, .inl ⟨rfl, rfl⟩⟩
  | _ => cases hi

theorem Owned.tame_step (h : Owned c own a owner) (hidle : NoJobs a.loads a.workers) {i : MainInstr}
    {rest code : List MainInstr} (hmain : a.main = i :: rest) (hi : i.isTame = true)
    (hrest : Tame rest) (hexec : a.execMain i = some (a₁, code)) :
    Owned c own { a₁ with main := code ++ rest } owner := by
  obtain ⟨hsame, hcode, hflag, hcurr⟩ := execMain_tame hidle hi hexec
  refine h.frame ⟨hsame.imports, hsame.smollai, hsame.loads, hsame.workers⟩ ?_ ?_
  · exact .code (hsame.noJobs hidle) (.append hcode hrest)
  · rcases hcurr with ⟨hcurr, heffect⟩ | heffect
    · exact h.reloads_pop code hmain (reloads_of_tame hi) hcurr hflag heffect rfl
    · exact fun _ _ _ _ => .inl (.inl heffect)

/-! ## The main thread during a load -/

/-- The load jobs that are running are the current chat's, whose instance is the current one
once a job has assigned it. -/
def LoadsOwned (a : ViewModel) (owner : Option ℕ) : Prop :=
  ∀ l ∈ a.loads, l.phase.isEnded = false → a.currChat.map Chat.id = some l.chat.id ∧
    (l.phase.hasAssigned = true → owner = some l.chat.id)

theorem Owned.launch (h : Owned c own a owner) (hworkers : ∀ w ∈ a.workers, w.phase = .done)
    (hloads : LoadsOwned a owner) {chat : Chat} {model : LLMModel} {rest : List MainInstr}
    (hmain : a.main = .code (.launchLoad chat model) :: rest)
    (hfor : ∀ i ∈ a.main, i.LoadsFor a.currChat) :
    Owned c own { a with main := rest, loads := a.loads ++ [⟨chat, model, .loading⟩] } owner where
  imports := h.imports
  handles := h.handles.launch chat model
  rows := by
    intro l hl
    rcases List.mem_append.mp hl with hl | hl
    · exact h.rows l hl
    · rw [List.mem_singleton.mp hl]
      simp
  native := h.native
  reload := h.reloads_pop [] hmain rfl (by rfl) (by rfl) (by rfl) (by rfl)
  stage := by
    rw [hmain] at hfor
    refine .loading hworkers (fun i hi => hfor i (List.mem_cons_of_mem _ hi)) ?_
    intro l hl hrunning
    rcases List.mem_append.mp hl with hl | hl
    · exact hloads l hl hrunning
    · rw [List.mem_singleton.mp hl]
      exact ⟨hfor _ List.mem_cons_self, by simp [LoadPhase.hasAssigned]⟩

theorem Owned.load_step (h : Owned c own a owner) (hworkers : ∀ w ∈ a.workers, w.phase = .done)
    (hloads : LoadsOwned a owner) {i : MainInstr} {rest code : List MainInstr}
    (hmain : a.main = i :: rest) (hfor : ∀ i ∈ a.main, i.LoadsFor a.currChat)
    (hfound : ModelFound a .main) (hexec : a.execMain i = some (a₁, code)) :
    Owned c own { a₁ with main := code ++ rest } owner := by
  have hi : i.LoadsFor a.currChat := hfor i (hmain ▸ List.mem_cons_self)
  have hrest : ∀ k ∈ rest, k.LoadsFor a.currChat :=
    fun k hk => hfor k (hmain ▸ List.mem_cons_of_mem i hk)
  have hsame : ∀ code : List MainInstr, SameJobs a { a with main := code } :=
    fun _ => ⟨rfl, rfl, rfl, rfl⟩
  cases execMain_cases hexec with
  | code hk =>
      cases exec_cases hk with
      | noChat hcurr =>
          refine h.frame (hsame _) (.loading hworkers hrest hloads) ?_
          intro chat hchat
          cases hcurr.symm.trans hchat
      | unset hcurr hunset =>
          refine h.frame (hsame _) (.loading hworkers ?_ hloads) ?_
          · exact List.forall_mem_cons.mpr ⟨trivial, hrest⟩
          · intro chat hchat hset
            obtain rfl := Option.some.inj (hcurr.symm.trans hchat)
            exact absurd hunset hset
      | checkChat hcurr hset =>
          refine h.frame (hsame _) (.loading hworkers ?_ hloads) ?_
          · exact List.forall_mem_cons.mpr ⟨congrArg (Option.map Chat.id) hcurr, hrest⟩
          · exact fun _ _ _ _ => .inl (.inr ⟨_, List.mem_cons_self, rfl⟩)
      | noModel hmodel =>
          simp [ModelFound, hmain, hmodel] at hfound
      | getModel hmodel =>
          refine h.frame (hsame _) (.loading hworkers ?_ hloads) ?_
          · exact List.forall_mem_cons.mpr ⟨trivial, List.forall_mem_cons.mpr ⟨hi, hrest⟩⟩
          · exact fun _ _ _ _ => .inl (.inr ⟨_, List.mem_cons_self, rfl⟩)
      | setInitializing =>
          refine h.frame ⟨rfl, rfl, rfl, rfl⟩ (.loading hworkers hrest hloads) ?_
          exact fun _ _ _ hfree => absurd hfree (by simp)
      | launchLoad => exact h.launch hworkers hloads hmain hfor
      | showSelectModelList =>
          refine h.frame ⟨rfl, rfl, rfl, rfl⟩ (.loading hworkers hrest hloads) ?_
          exact h.reloads_pop [] hmain rfl rfl rfl rfl rfl
      | _ => cases hi
  | hideSelectModelList =>
      refine h.frame ⟨rfl, rfl, rfl, rfl⟩ (.loading hworkers hrest hloads) ?_
      exact h.reloads_pop [] hmain rfl rfl rfl rfl rfl
  | _ => cases hi

/-! ## The main thread before a completion -/

theorem send_head {before : List MainInstr} {chat : Chat} {query : CString} {i : MainInstr}
    {rest : List MainInstr} (hsends : a.main = before ++ [.launchWorker chat query])
    (hrecords : ∀ i ∈ before, MainInstr.isRecord i = true) (hmain : a.main = i :: rest) :
    i.sends = true := by
  cases before with
  | nil =>
      obtain ⟨rfl, -⟩ := List.cons.inj (hmain.symm.trans hsends)
      rfl
  | cons k before =>
      obtain ⟨rfl, -⟩ := List.cons.inj (hmain.symm.trans hsends)
      have hi := hrecords i List.mem_cons_self
      unfold MainInstr.sends
      split <;> first | rfl | exact hi

theorem Owned.send_step (h : Owned c own a owner) (hidle : NoJobs a.loads a.workers)
    {before : List MainInstr} {chat : Chat} {query : CString} {i : MainInstr}
    {rest code : List MainInstr}
    (hsends : a.main = before ++ [.launchWorker chat query])
    (hrecords : ∀ i ∈ before, MainInstr.isRecord i = true) (heffect : a.effectPending = false)
    (howner : owner = some chat.id) (hmain : a.main = i :: rest)
    (hexec : a.execMain i = some (a₁, code)) :
    Owned c own { a₁ with main := code ++ rest } owner := by
  cases before with
  | nil =>
      obtain ⟨rfl, rfl⟩ := List.cons.inj (hmain.symm.trans hsends)
      cases hexec
      refine ⟨h.imports, h.handles, h.rows, h.native, ?_, ?_⟩
      · exact h.reloads_pop [] hmain rfl rfl rfl rfl rfl
      · refine .generating hidle.loads rfl heffect ?_
        intro w hw hrunning
        rcases List.mem_append.mp hw with hw | hw
        · exact absurd (hidle.workers w hw) hrunning
        · rw [List.mem_singleton.mp hw]
          exact howner
  | cons k before =>
      obtain ⟨rfl, rfl⟩ := List.cons.inj (hmain.symm.trans hsends)
      have hi := hrecords i List.mem_cons_self
      have hbefore : ∀ k ∈ before, MainInstr.isRecord k = true :=
        fun k hk => hrecords k (List.mem_cons_of_mem i hk)
      have hkeep : ∀ a₁ : ViewModel, SameJobs a a₁ → a₁.currChat = a.currChat →
          a₁.effectPending = a.effectPending →
          a₁.isInitializingModel = a.isInitializingModel → i.reloads = false →
          Owned c own { a₁ with main := before ++ [.launchWorker chat query] } owner := by
        intro a₁ hsame hcurr hpending hflag hreloads
        refine h.frame ⟨hsame.imports, hsame.smollai, hsame.loads, hsame.workers⟩ ?_ ?_
        · exact .sending (hsame.noJobs hidle) rfl hbefore (hpending.trans heffect) howner
        · exact h.reloads_pop [] hmain hreloads hcurr hflag hpending rfl
      cases execMain_cases hexec with
      | code hk =>
          cases exec_cases hk with
          | putChat => exact hkeep _ ⟨rfl, rfl, rfl, rfl⟩ rfl rfl rfl rfl
          | _ => cases hi
      | addUserMessage => exact hkeep _ ⟨rfl, rfl, rfl, rfl⟩ rfl rfl rfl rfl
      | setGenerating => exact hkeep _ ⟨rfl, rfl, rfl, rfl⟩ rfl rfl rfl rfl
      | _ => cases hi

/-! ## The main thread -/

/-- Closing the current instance leaves no owner; the current chat has no model then. -/
theorem Owned.close (h : Owned c own a owner) (own' : Instance) (hidle : NoJobs a.loads a.workers)
    (hunset : ∀ chat ∈ a.currChat, chat.llmModelId = -1) :
    Owned c own' { a with smollai := a.smollai.close, main := [] } none where
  imports := h.imports
  handles := h.handles.calls (SmollAI.invoke_addsOnly _ _ _)
  rows := h.rows
  native := by simp
  reload := fun chat hchat hset => absurd (hunset chat hchat) hset
  stage := .code hidle .done

theorem chatOp_main {i : MainInstr} {rest : List MainInstr} (hmain : a.main = i :: rest)
    (hclose : i ≠ .close) (hcancel : ∀ job, i ≠ .cancelCompletion job) :
    a.chatOp .main = none := by
  unfold chatOp
  rw [hmain]
  cases i with
  | close => exact absurd rfl hclose
  | cancelCompletion job => exact absurd rfl (hcancel job)
  | _ => rfl

theorem step_main (h : Owned c own a owner) {i : MainInstr} {rest code : List MainInstr}
    (hfound : ModelFound a .main) (hmain : a.main = i :: rest)
    (hexec : a.execMain i = some (a₁, code)) :
    ∃ owner', Owned c (ownStep c own (a.chatOp .main)) { a₁ with main := code ++ rest } owner' := by
  cases h.stage with
  | code hidle htame =>
      rw [hmain] at htame
      cases htame with
      | load hhides =>
          rw [chatOp_main hmain (by simp) (by simp)]
          refine ⟨owner, h.load_step hidle.workers ?_ hmain ?_ hfound hexec⟩
          · exact fun l hl hrunning => absurd (hidle.loads l hl) (by simp [hrunning])
          · intro k hk
            rw [hmain] at hk
            rcases List.mem_cons.mp hk with rfl | hk
            · trivial
            · rw [hhides k hk]
              trivial
      | checkModel =>
          rw [chatOp_main hmain (by simp) (by simp)]
          refine ⟨owner, ?_⟩
          cases execMain_cases hexec with
          | otherModel =>
              refine h.frame ⟨rfl, rfl, rfl, rfl⟩ (.code hidle .done) ?_
              exact h.reloads_pop [] hmain rfl rfl rfl rfl rfl
          | checkModel hcurr =>
              refine h.frame ⟨rfl, rfl, rfl, rfl⟩ (.closing hidle rfl rfl) ?_
              exact h.reloads_pop _ hmain rfl rfl rfl rfl rfl
      | step hhead htail =>
          have hclose : i ≠ .close := by
            rintro rfl
            cases hhead
          have hcancel : ∀ job, i ≠ .cancelCompletion job := by
            rintro job rfl
            cases hhead
          rw [chatOp_main hmain hclose hcancel]
          exact ⟨owner, h.tame_step hidle hmain hhead htail hexec⟩
  | closing hidle hcloses hunset =>
      obtain ⟨rfl, rfl⟩ := List.cons.inj (hmain.symm.trans hcloses)
      rw [chatOp_main hmain (by simp) (by simp)]
      cases hexec
      refine ⟨owner, h.frame ⟨rfl, rfl, rfl, rfl⟩ (.closes hidle rfl ?_) ?_⟩
      · intro chat hchat
        rw [← Option.some.inj hchat]
        exact hunset
      · intro chat hchat hset
        rw [← Option.some.inj hchat] at hset
        exact absurd hunset hset
  | closes hidle hcloses hunset =>
      obtain ⟨rfl, rfl⟩ := List.cons.inj (hmain.symm.trans hcloses)
      cases hexec
      exact ⟨none, h.close _ hidle hunset⟩
  | sending hidle hsends hrecords heffect howner =>
      have hop : a.chatOp .main = none := by
        have hi := send_head hsends hrecords hmain
        apply chatOp_main hmain
        · rintro rfl
          cases hi
        · rintro job rfl
          cases hi
      rw [hop]
      exact ⟨owner, h.send_step hidle hsends hrecords heffect howner hmain hexec⟩
  | loading hworkers hfor hloads =>
      have hi : i.LoadsFor a.currChat := hfor i (hmain ▸ List.mem_cons_self)
      have hop : a.chatOp .main = none := by
        apply chatOp_main hmain
        · rintro rfl
          cases hi
        · rintro job rfl
          cases hi
      rw [hop]
      exact ⟨owner, h.load_step hworkers hloads hmain hfor hfound hexec⟩
  | generating hloads hidle heffect hworkers =>
      cases hmain.symm.trans hidle

/-! ## Load jobs -/

/-- What the owner's jobs do to the current instance, they do to the owner's. -/
theorem Owned.native_op (h : Owned c own a owner) {id : ℕ} {op : ChatOp} {smollai : SmollAI}
    (howner : owner = some id) (hnative : smollai.native = op.apply a.smollai.native) :
    owner = some c → smollai.native = ownStep c own (some (id, op)) := by
  intro hc
  obtain rfl : id = c := Option.some.inj (howner.symm.trans hc)
  rw [hnative, h.native hc, ownStep, if_pos rfl]

theorem Owned.loading (h : Owned c own a owner) {l : LoadJob} (hl : l ∈ a.loads)
    (hrunning : l.phase.isEnded = false) :
    (∀ w ∈ a.workers, w.phase = .done) ∧ (∀ i ∈ a.main, i.LoadsFor a.currChat) ∧
      LoadsOwned a owner := by
  have hidle : ¬∀ l ∈ a.loads, l.phase.isEnded = true := by
    intro hall
    have hended := hall l hl
    rw [hrunning] at hended
    cases hended
  cases h.stage with
  | loading hworkers hmain hloads => exact ⟨hworkers, hmain, hloads⟩
  | code hjobs | closing hjobs | closes hjobs | sending hjobs => exact absurd hjobs.loads hidle
  | generating hloads => exact absurd hloads hidle

theorem Owned.owner_of_assigned (h : Owned c own a owner) {i : ℕ} {l : LoadJob}
    (hl : a.loads[i]? = some l) (hrunning : l.phase.isEnded = false)
    (hassigned : l.phase.hasAssigned = true) : owner = some l.chat.id :=
  ((h.loading (List.mem_of_getElem? hl) hrunning).2.2 l (List.mem_of_getElem? hl) hrunning).2
    hassigned

structure LoadMoved (a a' : ViewModel) (i : ℕ) (l' : LoadJob) : Prop where
  loads : a'.loads = (a.setLoad i l').loads
  imports : a'.imports = a.imports
  workers : a'.workers = a.workers
  currChat : a'.currChat = a.currChat
  effectPending : a'.effectPending = a.effectPending
  main : a'.main = a.main

/-- A job moves on: the owner stays, or it is the job's chat now. -/
theorem Owned.moved (h : Owned c own a owner) {owner' : Option ℕ} {own' : Instance} {i : ℕ}
    {l l' : LoadJob} (hl : a.loads[i]? = some l) (hrunning : l.phase.isEnded = false)
    (hmoved : LoadMoved a a' i l') (hchat : l'.chat = l.chat)
    (howner : (owner' = owner ∧ a'.isInitializingModel = a.isInitializingModel) ∨
      owner' = some l.chat.id)
    (hassigned : l'.phase.hasAssigned = true → owner' = some l.chat.id)
    (hhandles : Handles a'.smollai (a.setLoad i l').loads)
    (hnative : owner' = some c → a'.smollai.native = own')
    (hrows : ∀ rest, l'.phase = .adding rest → ∀ m ∈ rest, m.chatId = l.chat.id) :
    Owned c own' a' owner' := by
  obtain ⟨hworkers, hmain, hloads⟩ := h.loading (List.mem_of_getElem? hl) hrunning
  have hcurr := (hloads l (List.mem_of_getElem? hl) hrunning).1
  have hmem : ∀ v ∈ a'.loads, v = l' ∨ v ∈ a.loads := by
    intro v hv
    rw [hmoved.loads] at hv
    exact (List.mem_or_eq_of_mem_set hv).symm
  refine ⟨hmoved.imports.trans h.imports, ?_, ?_, hnative, ?_, ?_⟩
  · rw [hmoved.loads]
    exact hhandles
  · intro v hv rest hphase
    rcases hmem v hv with rfl | hv
    · rw [hchat]
      exact hrows rest hphase
    · exact h.rows v hv rest hphase
  · rcases howner with ⟨rfl, hflag⟩ | howner
    · exact h.reloads hmoved.currChat hflag fun hwill => by
        unfold WillReload
        rw [hmoved.effectPending, hmoved.main]
        exact hwill
    · intro chat hchat' _ _
      rw [hmoved.currChat] at hchat'
      rw [hchat'] at hcurr
      exact .inr (howner.trans hcurr.symm)
  · refine .loading (hmoved.workers ▸ hworkers) ?_ ?_
    · rw [hmoved.main, hmoved.currChat]
      exact hmain
    · intro v hv hvrunning
      rw [hmoved.currChat]
      rcases hmem v hv with rfl | hv
      · rw [hchat]
        exact ⟨hcurr, hassigned⟩
      · refine ⟨(hloads v hv hvrunning).1, fun hvassigned => ?_⟩
        rcases howner with ⟨rfl, -⟩ | howner
        · exact (hloads v hv hvrunning).2 hvassigned
        · exact howner.trans (hcurr.symm.trans (hloads v hv hvrunning).1)

theorem step_load (h : Owned c own a owner) {i : ℕ} {l : LoadJob} {r : LLMInference.LoadAnswer}
    (hl : a.loads[i]? = some l) (hstep : a.stepLoad i l r = some a') :
    ∃ owner', Owned c (ownStep c own (a.chatOp (.load i r))) a' owner' := by
  have hop : a.chatOp (.load i r) = (l.nextOp a.smollai).map (l.chat.id, ·) := by
    rw [chatOp, hl, Option.bind_some]
  rw [hop]
  obtain ⟨chat, model, phase⟩ := l
  cases phase with
  | loading =>
      cases hstep
      obtain ⟨hhandles, hnative⟩ := h.handles.load hl
        (r := ⟨model.path, chat.minP, chat.temperature, true⟩) rfl r
      refine ⟨owner, h.moved hl rfl ⟨rfl, rfl, rfl, rfl, rfl, rfl⟩ rfl (.inl ⟨rfl, rfl⟩)
        (by simp [LoadPhase.hasAssigned]) hhandles ?_ (by simp)⟩
      exact fun hc => hnative.trans (h.native hc)
  | assigning ptr =>
      cases hstep
      refine ⟨some chat.id, h.moved hl rfl ⟨rfl, rfl, rfl, rfl, rfl, rfl⟩ rfl (.inr rfl)
        (fun _ => rfl) (h.handles.assign hl rfl).1 ?_ (by simp)⟩
      intro hc
      rw [LoadJob.nextOp, Option.map_some, ownStep, if_pos (Option.some.inj hc)]
      rfl
  | prompting =>
      cases hstep
      have howner := h.owner_of_assigned hl rfl rfl
      refine ⟨owner, h.moved hl rfl ⟨rfl, rfl, rfl, rfl, rfl, rfl⟩ rfl (.inl ⟨rfl, rfl⟩)
        (fun _ => howner) ?_ (h.native_op howner ?_) (by simp)⟩
      · refine (h.handles.calls ?_).moves hl (by simp)
        split
        · exact .refl _ _
        · exact .add _ _ _
      · rw [ChatOp.apply_prompt]
        split
        · rfl
        · exact SmollAI.invokeNative_map _ _
  | reading =>
      cases hstep
      refine ⟨owner, h.moved hl rfl ⟨rfl, rfl, rfl, rfl, rfl, rfl⟩ rfl (.inl ⟨rfl, rfl⟩)
        (fun _ => h.owner_of_assigned hl rfl rfl) (h.handles.moves hl (by simp)) h.native ?_⟩
      intro rest hrest m hm
      obtain rfl : a.db.getMessagesForModel chat.id = rest := by simpa using hrest
      simpa using (List.mem_filter.mp hm).2
  | adding rest =>
      have howner := h.owner_of_assigned hl rfl rfl
      have hrows := h.rows _ (List.mem_of_getElem? hl) rest rfl
      cases rest with
      | nil =>
          cases hstep
          exact ⟨owner, h.moved hl rfl ⟨rfl, rfl, rfl, rfl, rfl, rfl⟩ rfl (.inl ⟨rfl, rfl⟩)
            (fun _ => howner) (h.handles.moves hl (by simp)) h.native (by simp)⟩
      | cons m rest =>
          cases hstep
          refine ⟨owner, h.moved hl rfl ⟨rfl, rfl, rfl, rfl, rfl, rfl⟩ rfl (.inl ⟨rfl, rfl⟩)
            (fun _ => howner) ?_ (h.native_op howner (SmollAI.addStored_map _ _)) ?_⟩
          · refine (h.handles.calls ?_).moves hl (by simp)
            unfold addStored
            split
            · exact .add _ _ _
            · exact .add _ _ _
          · intro rest' hrest' k hk
            obtain rfl : rest = rest' := by simpa using hrest'
            exact hrows k (List.mem_cons_of_mem m hk)
  | finishing =>
      have howner := h.owner_of_assigned hl rfl rfl
      simp only [stepLoad] at hstep
      split at hstep
      · cases hstep
        exact ⟨owner, h.moved hl rfl ⟨rfl, rfl, rfl, rfl, rfl, rfl⟩ rfl (.inr howner)
          (fun _ => howner) (h.handles.moves hl (by simp)) h.native (by simp)⟩
      · cases hstep
  | done => cases hstep
  | failed => cases hstep

theorem step_loadThrows (h : Owned c own a owner) {i : ℕ} {l : LoadJob}
    (hl : a.loads[i]? = some l) (hstep : a.throwLoad i l = some a') : Owned c own a' owner := by
  have hrunning : l.phase.isEnded = false := by
    unfold throwLoad at hstep
    split at hstep
    · rename_i hphase
      rw [hphase]
      rfl
    · rename_i hphase
      rw [hphase]
      rfl
    · cases hstep
  rw [throwLoad_eq hstep]
  exact h.moved hl hrunning ⟨rfl, rfl, rfl, rfl, rfl, rfl⟩ rfl (.inl ⟨rfl, rfl⟩)
    (by simp [LoadPhase.hasAssigned]) (h.handles.moves hl (by simp)) h.native (by simp)

/-! ## Workers -/

/-- What a worker's step does to the screen and to the current instance. -/
structure WorkerMoved (a a' : ViewModel) (i : ℕ) (w : Worker) (op : Option ChatOp) : Prop where
  workers : ∃ w', a'.workers = (a.setWorker i w').workers ∧ w'.chat = w.chat
  imports : a'.imports = a.imports
  loads : a'.loads = a.loads
  currChat : a'.currChat = a.currChat
  effectPending : a'.effectPending = a.effectPending
  isInitializingModel : a'.isInitializingModel = a.isInitializingModel
  main : a'.main = a.main
  calls : AddsOnly a.smollai a'.smollai false
  native : a'.smollai.native = (op.elim a.smollai.native fun op => op.apply a.smollai.native)

theorem stepWorker_moved {i : ℕ} {w : Worker} {d : Draw} (h : a.stepWorker i w d = some a') :
    WorkerMoved a a' i w (w.nextOp d) := by
  have hquiet (hop : w.nextOp d = none) : AddsOnly a.smollai a.smollai false ∧
      a.smollai.native = (w.nextOp d).elim a.smollai.native fun op =>
        op.apply a.smollai.native := by
    rw [hop]
    exact ⟨.refl _ _, rfl⟩
  cases stepWorker_cases h with
  | starts hphase | aborts hphase | ends hphase | receives hphase | finishes hphase
  | stopsAgain hphase | cancels hphase =>
      refine ⟨⟨_, rfl, rfl⟩, rfl, rfl, rfl, rfl, rfl, rfl, SmollAI.invoke_addsOnly _ _ _, ?_⟩
      simp only [Worker.nextOp, hphase]
      exact SmollAI.invokeNative_map _ _
  | dropped hphase | begins hphase | resets hphase | emits hphase | stops hphase | appends hphase
  | empty hphase | nonempty hphase | reads hphase | saves hphase | posts hphase | resumes hphase
  | returns hphase =>
      obtain ⟨hcalls, hnative⟩ := hquiet (by simp only [Worker.nextOp, hphase])
      exact ⟨⟨_, rfl, rfl⟩, rfl, rfl, rfl, rfl, rfl, rfl, hcalls, hnative⟩
  | leaves hphase =>
      obtain ⟨hcalls, hnative⟩ :=
        hquiet (by rcases hphase with hphase | hphase <;> simp only [Worker.nextOp, hphase])
      exact ⟨⟨_, rfl, rfl⟩, rfl, rfl, rfl, rfl, rfl, rfl, hcalls, hnative⟩

/-- Nothing runs beside a worker, and the current instance is its chat's. -/
theorem Owned.generating (h : Owned c own a owner) {w : Worker} (hw : w ∈ a.workers)
    (hrunning : w.phase ≠ .done) : (∀ l ∈ a.loads, l.phase.isEnded = true) ∧ a.main = [] ∧
      a.effectPending = false ∧ ∀ w ∈ a.workers, w.phase ≠ .done → owner = some w.chat.id := by
  have hidle : ¬∀ w ∈ a.workers, w.phase = .done := fun hall => hrunning (hall w hw)
  cases h.stage with
  | generating hloads hmain heffect hworkers => exact ⟨hloads, hmain, heffect, hworkers⟩
  | code hjobs | closing hjobs | closes hjobs | sending hjobs =>
      exact absurd hjobs.workers hidle
  | loading hworkers => exact absurd hworkers hidle

theorem Owned.worked (h : Owned c own a owner) {i : ℕ} {w : Worker} {op : Option ChatOp}
    (hw : a.workers[i]? = some w) (hrunning : w.phase ≠ .done)
    (hmoved : WorkerMoved a a' i w op) :
    Owned c (ownStep c own (op.map (w.chat.id, ·))) a' owner := by
  obtain ⟨hloads, hmain, heffect, hworkers⟩ := h.generating (List.mem_of_getElem? hw) hrunning
  have howner := hworkers w (List.mem_of_getElem? hw) hrunning
  refine ⟨hmoved.imports.trans h.imports, ?_, hmoved.loads ▸ h.rows, ?_, ?_, ?_⟩
  · rw [hmoved.loads]
    exact h.handles.calls hmoved.calls
  · cases op with
    | none => exact fun hc => hmoved.native.trans (h.native hc)
    | some op => exact h.native_op howner hmoved.native
  · exact h.reloads hmoved.currChat hmoved.isInitializingModel fun hwill => by
      unfold WillReload
      rw [hmoved.effectPending, hmoved.main]
      exact hwill
  · refine .generating (hmoved.loads ▸ hloads) (hmoved.main.trans hmain)
      (hmoved.effectPending.trans heffect) ?_
    obtain ⟨w', hset, hchat⟩ := hmoved.workers
    intro v hv hvrunning
    rw [hset] at hv
    rcases List.mem_or_eq_of_mem_set hv with hv | rfl
    · exact hworkers v hv hvrunning
    · rw [hchat]
      exact howner

/-! ## Operations -/

theorem Settled.noJobs (h : Settled a) : NoJobs a.loads a.workers := ⟨h.loads, h.workers⟩

theorem Settled.not_willReload (h : Settled a) : ¬WillReload a := by
  rintro (hpending | ⟨i, hi, -⟩)
  · rw [h.effect] at hpending
    cases hpending
  · rw [h.main] at hi
    cases hi

theorem Owned.begin (h : Owned c own a owner) (hsettled : Settled a) (hsame : SameJobs a a')
    (hcurr : a'.currChat = a.currChat) (hflag : a'.isInitializingModel = a.isInitializingModel)
    (htame : Tame a'.main) : Owned c own a' owner :=
  h.frame hsame (.code (hsame.noJobs hsettled.noJobs) htame)
    (h.reloads hcurr hflag fun hwill => absurd hwill hsettled.not_willReload)

theorem send_not_initializing {query : CString} {date : ℕ}
    (h : a.step (.sendUserQuery query date) = some a') : a.isInitializingModel = false := by
  unfold step at h
  split at h
  · cases h
  · obtain ⟨chat, -, hstart⟩ := Option.bind_eq_some_iff.mp h
    have henabled := (start_eq_some hstart).1
    simp only [Bool.and_eq_true, Bool.not_eq_true'] at henabled
    exact henabled.1.2

theorem Owned.send (h : Owned c own a owner) (hsettled : Settled a) {chat : Chat} {date : ℕ}
    {query : CString} (hcurr : a.currChat = some chat) (hmodel : a.hasModel = true)
    (hfree : a.isInitializingModel = false) :
    Owned c own { a with
      currChat := some { chat with dateUsed := date }
      main := ViewModel.sendUserQuery { chat with dateUsed := date } query } owner := by
  have hset : chat.llmModelId ≠ -1 := by simpa [hasModel, hcurr] using hmodel
  have howner : owner = some chat.id :=
    (h.reload chat hcurr hset hfree).resolve_left hsettled.not_willReload
  refine h.frame ⟨rfl, rfl, rfl, rfl⟩ ?_ ?_
  · have hsends : ViewModel.sendUserQuery { chat with dateUsed := date } query =
        [.code (.putChat { chat with dateUsed := date }), .addUserMessage chat.id query,
          .setGenerating true] ++ [.launchWorker { chat with dateUsed := date } query] := rfl
    exact .sending hsettled.noJobs hsends (by simp [MainInstr.isRecord]) hsettled.effect howner
  · intro chat' hchat' _ _
    right
    rw [howner, ← Option.some.inj hchat']

theorem Owned.effect (h : Owned c own a owner) (hidle : a.main = [])
    (heffect : a.effectPending = true) :
    Owned c own { a with effectPending := false, main := loadModel.map .code } owner := by
  have hreload : Reloads { a with effectPending := false, main := loadModel.map .code } owner :=
    fun _ _ _ _ => .inl (.inr ⟨_, List.mem_cons_self, rfl⟩)
  have hfor : ∀ i ∈ loadModel.map MainInstr.code, i.LoadsFor a.currChat := by
    simp [loadModel, MainInstr.LoadsFor]
  refine h.frame ⟨rfl, rfl, rfl, rfl⟩ ?_ hreload
  cases h.stage with
  | code hjobs =>
      refine .loading hjobs.workers hfor ?_
      exact fun l hl hrunning => absurd (hjobs.loads l hl) (by simp [hrunning])
  | loading hworkers hmain hloads => exact .loading hworkers hfor hloads
  | closing hjobs hmain => cases hidle.symm.trans hmain
  | closes hjobs hmain => cases hidle.symm.trans hmain
  | sending hjobs hmain => simp [hidle] at hmain
  | generating hloads hmain hnone => cases heffect.symm.trans hnone

theorem Owned.changeModel (h : Owned c own a owner) (hsettled : Settled a) :
    Owned c own { a with main := [.code .showSelectModelList] } owner := by
  have hsame : SameJobs a { a with main := [.code .showSelectModelList] } := ⟨rfl, rfl, rfl, rfl⟩
  refine h.frame hsame (.loading hsettled.workers (by simp [MainInstr.LoadsFor]) ?_) ?_
  · intro l hl hrunning
    rw [hsettled.loads l hl] at hrunning
    cases hrunning
  · exact h.reloads rfl rfl fun hwill => absurd hwill hsettled.not_willReload

theorem step_owned (h : Owned c own a owner) {e : Event} (hserial : Serial a e)
    (hfound : ModelFound a e) (hstep : a.step e = some a') :
    ∃ owner', Owned c (ownStep c own (a.chatOp e)) a' owner' := by
  cases step_cases hstep with
  | sendUserQuery hidle hcurr hmodel =>
      exact ⟨owner, h.send hserial hcurr hmodel (send_not_initializing hstep)⟩
  | newChat =>
      exact ⟨owner, h.begin hserial ⟨rfl, rfl, rfl, rfl⟩ rfl rfl
        (.append (by simp [stopGeneration, MainInstr.isTame]) (.step rfl .done))⟩
  | importModel => cases hserial
  | launchedEffect hidle heffect => exact ⟨owner, h.effect hidle heffect⟩
  | stopGeneration =>
      exact ⟨owner, h.begin hserial ⟨rfl, rfl, rfl, rfl⟩ rfl rfl (.step rfl (.step rfl .done))⟩
  | switchChat =>
      exact ⟨owner, h.begin hserial ⟨rfl, rfl, rfl, rfl⟩ rfl rfl
        (.append (by simp [stopGeneration, MainInstr.isTame]) (.step rfl .done))⟩
  | updateChat =>
      exact ⟨owner, h.begin hserial ⟨rfl, rfl, rfl, rfl⟩ rfl rfl
        (.step rfl (.step rfl (.load (by simp))))⟩
  | deleteChat =>
      exact ⟨owner, h.begin hserial ⟨rfl, rfl, rfl, rfl⟩ rfl rfl
        (.append (by simp [stopGeneration, MainInstr.isTame])
          (.step rfl (.step rfl (.step rfl .done))))⟩
  | selectModel =>
      exact ⟨owner, h.begin hserial ⟨rfl, rfl, rfl, rfl⟩ rfl rfl
        (.step rfl (.load (by simp)))⟩
  | deleteModel =>
      exact ⟨owner, h.begin hserial ⟨rfl, rfl, rfl, rfl⟩ rfl rfl (.step rfl .checkModel)⟩
  | changeModel => exact ⟨owner, h.changeModel hserial⟩
  | dismissModelList =>
      exact ⟨owner, h.begin hserial ⟨rfl, rfl, rfl, rfl⟩ rfl rfl (.step rfl .done)⟩
  | main hmain hexec => exact step_main h hfound hmain hexec
  | mainThrows hmain hexec =>
      have hop : a.chatOp .main = none := by
        apply chatOp_main hmain
        · rintro rfl
          cases hexec
        · rintro job rfl
          cases hexec
      rw [hop]
      exact ⟨owner, h.aside ⟨rfl, rfl, rfl, rfl⟩ rfl rfl rfl rfl⟩
  | worker hw hwstep =>
      rename_i i d w
      have hrunning : w.phase ≠ .done := by
        intro hdone
        simp [stepWorker, hdone] at hwstep
      have hop : a.chatOp (.worker i d) = (w.nextOp d).map (w.chat.id, ·) := by
        rw [chatOp, hw, Option.bind_some]
      rw [hop]
      exact ⟨owner, h.worked hw hrunning (stepWorker_moved hwstep)⟩
  | workerThrows hw hthrow =>
      obtain ⟨rfl, hphase⟩ := throwWorker_eq hthrow
      rename_i i w
      have hrunning : w.phase ≠ .done := by
        intro hdone
        simp [hdone] at hphase
      have hmoved : WorkerMoved a (a.setWorker i { w with phase := .catching }) i w none :=
        ⟨⟨_, rfl, rfl⟩, rfl, rfl, rfl, rfl, rfl, rfl, .refl _ _, rfl⟩
      exact ⟨owner, h.worked hw hrunning hmoved⟩
  | load hl hlstep => exact step_load h hl hlstep
  | loadThrows hl hthrow => exact ⟨owner, step_loadThrows h hl hthrow⟩
  | importAdds hjob => simp [h.imports] at hjob
  | importRuns hjob => simp [h.imports] at hjob
  | importEnds hjob => simp [h.imports] at hjob
  | importThrows =>
      refine ⟨owner, h.aside ⟨?_, rfl, rfl, rfl⟩ rfl rfl rfl rfl⟩
      simp [setImport, h.imports]

/-! ## What a query is given -/

theorem Owned.chatOp_own (h : Owned c own a owner) {e : Event} {id : ℕ} {op : ChatOp}
    (hop : a.chatOp e = some (id, op)) : op.Own id := by
  cases e with
  | load i r =>
      obtain ⟨l, hl, hmap⟩ := Option.bind_eq_some_iff.mp hop
      obtain ⟨op', hnext, heq⟩ := Option.map_eq_some_iff.mp hmap
      obtain ⟨rfl, rfl⟩ := Prod.mk.inj heq
      unfold LoadJob.nextOp at hnext
      split at hnext
      · rename_i ptr hphase
        cases hnext
        exact (h.handles.assign hl hphase).2
      · cases hnext
        rfl
      · rename_i m rest hphase
        cases hnext
        exact h.rows l (List.mem_of_getElem? hl) _ hphase m List.mem_cons_self
      · cases hnext
  | worker i d =>
      obtain ⟨w, hw, hmap⟩ := Option.bind_eq_some_iff.mp hop
      obtain ⟨op', hnext, heq⟩ := Option.map_eq_some_iff.mp hmap
      obtain ⟨rfl, rfl⟩ := Prod.mk.inj heq
      unfold Worker.nextOp at hnext
      split at hnext <;> cases hnext <;> trivial
  | main =>
      simp only [chatOp] at hop
      split at hop
      · obtain ⟨w, -, heq⟩ := Option.map_eq_some_iff.mp hop
        obtain ⟨rfl, rfl⟩ := Prod.mk.inj heq
        trivial
      · obtain ⟨chat, -, heq⟩ := Option.map_eq_some_iff.mp hop
        obtain ⟨rfl, rfl⟩ := Prod.mk.inj heq
        simp [ChatOp.Own]
      · cases hop
  | _ => cases hop

theorem run_owned {es : List Event} (h : Owned c own a owner)
    (hallowed : Transition.AllowedAlong step (fun a e => Serial a e ∧ ModelFound a e) a es)
    (hexec : Transition.exec step a es = some a') :
    (∃ owner', Owned c ((ownOps c a es).foldl ChatOp.apply own) a' owner') ∧
      ∀ op ∈ chatOps a es, op.2.Own op.1 := by
  induction es generalizing a own owner with
  | nil =>
      obtain rfl : a = a' := by simpa [Transition.exec] using hexec
      exact ⟨⟨owner, h⟩, by simp [chatOps]⟩
  | cons e es ih =>
      obtain ⟨a₁, hstep, hrest⟩ := Option.bind_eq_some_iff.mp hexec
      obtain ⟨⟨hserial, hfound⟩, hallowed'⟩ := hallowed
      obtain ⟨owner₁, h₁⟩ := step_owned h hserial hfound hstep
      obtain ⟨hend, hops⟩ := ih h₁ (hallowed' a₁ hstep) hrest
      constructor
      · rw [ownOps_cons c hstep]
        exact hend
      · intro op hop
        rw [chatOps, hstep] at hop
        rcases List.mem_append.mp hop with hop | hop
        · exact h.chatOp_own (Option.mem_toList.mp hop)
        · exact hops op hop

/-- A run of operations one after the other, in which every model looked up is found, that
ends where a worker is about to start its completion. -/
structure Asks (a₀ : ViewModel) (es : List Event) (a : ViewModel) (w : Worker) : Prop where
  allowed : Transition.AllowedAlong step (fun a e => Serial a e ∧ ModelFound a e) a₀ es
  exec : Transition.exec step a₀ es = some a
  here : w ∈ a.workers
  starting : w.phase = .starting

theorem Asks.native {db : Database} {currChat : Option Chat} {es : List Event} {w : Worker}
    (h : Asks (opened db .new currChat) es a w) :
    (∀ op ∈ ownOps w.chat.id (opened db .new currChat) es, op.Own w.chat.id) ∧
      a.smollai.native =
        (ownOps w.chat.id (opened db .new currChat) es).foldl ChatOp.apply none := by
  obtain ⟨⟨owner, howned⟩, hops⟩ :=
    run_owned (opened_owned w.chat.id db currChat) h.allowed h.exec
  have hrunning : w.phase ≠ .done := by
    rw [h.starting]
    simp
  obtain ⟨-, -, -, hworkers⟩ := howned.generating h.here hrunning
  refine ⟨?_, howned.native (hworkers w h.here hrunning)⟩
  intro op hop
  obtain ⟨⟨id, op⟩, hmem, rfl⟩ := List.mem_map.mp hop
  obtain ⟨hmem, hid⟩ := List.mem_filter.mp hmem
  obtain rfl : id = w.chat.id := by simpa using hid
  exact hops _ hmem

/-- A query is given to an instance on which its chat alone has worked, with the chat's own
texts. What it is given is the same in any other run in which the chat has done the same,
whatever other chats have done. -/
theorem chats_isolated {db db' : Database} {currChat currChat' : Option Chat}
    {es es' : List Event} {w w' : Worker} (h : Asks (opened db .new currChat) es a w)
    (h' : Asks (opened db' .new currChat') es' a' w') (hchat : w'.chat.id = w.chat.id) :
    (∀ op ∈ ownOps w.chat.id (opened db .new currChat) es, op.Own w.chat.id) ∧
      a.smollai.native =
        (ownOps w.chat.id (opened db .new currChat) es).foldl ChatOp.apply none ∧
      (ownOps w.chat.id (opened db' .new currChat') es' =
          ownOps w.chat.id (opened db .new currChat) es →
        a'.smollai.native = a.smollai.native) := by
  obtain ⟨hown, hnative⟩ := h.native
  refine ⟨hown, hnative, fun hsame => ?_⟩
  rw [h'.native.2, hchat, hsame, hnative]

def asked (job : ℕ) (query : CString) : List Event :=
  .launchedEffect :: mainSteps 4 ++ loadSteps job 6 ++ .sendUserQuery query 5 :: mainSteps 4 ++
    workerSteps job [0, 0]

def switched : List Event :=
  asked 0 (.lit "hi") ++
    workerSteps 0 [0, 72, 0, 0, 257, 0, 0, 0, 0, 0, 0, 0, 0] ++
    .switchChat (byteChat 2) :: mainSteps 3 ++ asked 1 (.lit "yo")

theorem chats_isolated_switched :
    ∃ a a', Transition.exec step (opened byteDatabase .new (some (byteChat 1))) switched = some a ∧
      Transition.exec step (opened byteDatabase .new (some (byteChat 2))) (asked 0 (.lit "yo")) =
        some a' ∧
      a.smollai.native = (ownOps 2 (opened byteDatabase .new (some (byteChat 1))) switched).foldl
        ChatOp.apply none ∧
      (ownOps 2 (opened byteDatabase .new (some (byteChat 2))) (asked 0 (.lit "yo")) =
          ownOps 2 (opened byteDatabase .new (some (byteChat 1))) switched →
        a'.smollai.native = a.smollai.native) := by
  obtain ⟨a, ha, w, hw, hstarting, hchat⟩ : ∃ a, Transition.exec step
      (opened byteDatabase .new (some (byteChat 1))) switched = some a ∧
      ∃ w ∈ a.workers, w.phase = .starting ∧ w.chat.id = 2 :=
    Transition.exec_of_decide (by decide +kernel)
  obtain ⟨a', ha', w', hw', hstarting', hchat'⟩ : ∃ a', Transition.exec step
      (opened byteDatabase .new (some (byteChat 2))) (asked 0 (.lit "yo")) = some a' ∧
      ∃ w ∈ a'.workers, w.phase = .starting ∧ w.chat.id = 2 :=
    Transition.exec_of_decide (by decide +kernel)
  have hisolated := chats_isolated ⟨by decide +kernel, ha, hw, hstarting⟩
    ⟨by decide +kernel, ha', hw', hstarting'⟩ (hchat'.trans hchat.symm)
  rw [hchat] at hisolated
  exact ⟨a, a', ha, ha', hisolated.2⟩

/-! ## A model that is gone -/

/-- Two chats, each with a model of its own, and a message in the first. -/
def twoModels (text : CString) : Database :=
  ⟨[byteChat 1, { byteChat 2 with llmModelId := 2 }], [⟨1, 1, text, true⟩],
    [⟨1, .lit "model", .lit "model.gguf"⟩, ⟨2, .lit "other", .lit "other.gguf"⟩], 3, 2, 3⟩

/-- The second chat's model is deleted while another chat is shown. Then the second chat is
opened, its dialog is dismissed and a query is sent. -/
def modelDeleted : List Event :=
  .launchedEffect :: mainSteps 4 ++ loadSteps 0 7 ++
    .newChat (.lit "new") .empty 5 :: mainSteps 3 ++ .launchedEffect :: mainSteps 2 ++
    .deleteModel 2 :: mainSteps 2 ++ .dismissModelList :: mainSteps 1 ++
    .switchChat { byteChat 2 with llmModelId := 2 } :: mainSteps 3 ++
    .launchedEffect :: mainSteps 3 ++ .dismissModelList :: mainSteps 1 ++
    .sendUserQuery (.lit "hi") 6 :: mainSteps 4 ++ workerSteps 0 [0, 0]

/-- The worker that starts next, by its chat, and what the current instance holds. -/
def given (text : CString) : Option (List (ℕ × WorkerPhase) × Option (List Message)) :=
  (Transition.exec step (opened (twoModels text) .new (some (byteChat 1))) modelDeleted).map
    fun a => (a.workers.map fun w => (w.chat.id, w.phase), a.smollai.messages)

/-- The query in the second chat is given the first chat's history, whatever that is. -/
theorem chats_leak :
    Transition.AllowedAlong step Serial (opened (twoModels (.lit "one")) .new (some (byteChat 1)))
        modelDeleted ∧
      given (.lit "one") = some ([(2, .starting)], some [⟨.lit "user", .lit "one"⟩]) ∧
      given (.lit "two") = some ([(2, .starting)], some [⟨.lit "user", .lit "two"⟩]) := by
  decide +kernel

end ViewModel

end SmollChat
