import Mathlib.Logic.Function.Basic
import SmollChat.Verification.ViewModel.Isolation

/-! # Other chats' texts

What a chat does, apart from the texts its load jobs find in the database. Together with the
chat's own stored texts this determines what its queries are given: two runs in which the chat
does the same, from databases that differ in the rows and messages of other chats, give them
the same. -/

namespace SmollChat

/-- The text of a stored message, and whether it is the user's. -/
def ChatMessage.text (m : ChatMessage) : CString × Bool := (m.message, m.isUserMessage)

def Database.chatTexts (db : Database) (chatId : ℕ) : List (CString × Bool) :=
  (db.getMessagesForModel chatId).map ChatMessage.text

/-! ## The view of a chat -/

/-- What a chat has: its instance, its stored texts and those that a load job has read and not
added yet. -/
structure View where
  own : Instance
  texts : List (CString × Bool)
  due : ℕ → List (CString × Bool)

/-- What a chat does. Texts that are read from the database are not named. -/
inductive Act where
  | op (op : ChatOp)
  /-- a message is stored -/
  | put (text : CString × Bool)
  /-- the messages are deleted -/
  | clear
  /-- a load job reads the messages -/
  | read (job : ℕ)
  /-- a load job adds the next of them -/
  | add (job : ℕ)

namespace View

def message (own : Instance) (text : CString × Bool) : Instance :=
  ChatOp.apply own (.message ⟨0, 0, text.1, text.2⟩)

def act (v : View) : Act → View
  | .op op => { v with own := op.apply v.own }
  | .put text => { v with texts := v.texts ++ [text] }
  | .clear => { v with texts := [] }
  | .read job => { v with due := Function.update v.due job v.texts }
  | .add job =>
      { v with
        own := (v.due job).head?.elim v.own (message v.own)
        due := Function.update v.due job (v.due job).tail }

def step (v : View) (act : Option Act) : View := act.elim v v.act

theorem message_text (own : Instance) (m : ChatMessage) :
    message own m.text = ChatOp.apply own (.message m) := rfl

end View

def LoadJob.act (smollai : SmollAI) (job : ℕ) (l : LoadJob) : Option Act :=
  match l.phase with
  | .reading => some (.read job)
  | .adding (_ :: _) => some (.add job)
  | _ => (l.nextOp smollai).map .op

def Worker.act (w : Worker) (d : Draw) : Option Act :=
  match w.phase with
  | .saving text => some (.put (text, false))
  | _ => (w.nextOp d).map .op

namespace ViewModel

variable {a a' : ViewModel} {c : ℕ} {v : View}

def act (c : ℕ) (a : ViewModel) (e : Event) : Option Act :=
  match e with
  | .load i _ => a.loads[i]?.bind fun l => if l.chat.id = c then l.act a.smollai i else none
  | .worker i d => a.workers[i]?.bind fun w => if w.chat.id = c then w.act d else none
  | .main =>
      match a.main with
      | .addUserMessage chatId query :: _ =>
          if chatId = c then some (.put (query, true)) else none
      | .deleteMessages chatId :: _ => if chatId = c then some .clear else none
      | _ => (a.chatOp .main).bind fun op => if op.1 = c then some (.op op.2) else none
  | _ => none

def acts (c : ℕ) : ViewModel → List Event → List Act
  | _, [] => []
  | a, e :: es => (act c a e).toList ++ ((a.step e).map fun a' => acts c a' es).getD []

/-- The view has the chat's stored texts and what its load jobs still have to add. -/
structure Sees (c : ℕ) (v : View) (a : ViewModel) : Prop where
  texts : v.texts = a.db.chatTexts c
  due : ∀ (i : ℕ) l rest, a.loads[i]? = some l → l.chat.id = c → l.phase = .adding rest →
    v.due i = rest.map ChatMessage.text

theorem opened_sees (c : ℕ) (db : Database) (smollai : SmollAI) (currChat : Option Chat) :
    Sees c ⟨none, db.chatTexts c, fun _ => []⟩ (opened db smollai currChat) :=
  ⟨rfl, fun _ _ _ hl => by simp [opened] at hl⟩

/-! ## The instance of the view -/

theorem ownStep_load {i : ℕ} {l : LoadJob} {r : LLMInference.LoadAnswer}
    (hl : a.loads[i]? = some l) (hchat : l.chat.id = c) (own : Instance) :
    ownStep c own (a.chatOp (.load i r)) =
      (l.nextOp a.smollai).elim own fun op => op.apply own := by
  rw [chatOp, hl, Option.bind_some]
  cases l.nextOp a.smollai with
  | none => rfl
  | some op => exact if_pos hchat

theorem ownStep_worker {i : ℕ} {w : Worker} {d : Draw} (hw : a.workers[i]? = some w)
    (hchat : w.chat.id = c) (own : Instance) :
    ownStep c own (a.chatOp (.worker i d)) = (w.nextOp d).elim own fun op => op.apply own := by
  rw [chatOp, hw, Option.bind_some]
  cases w.nextOp d with
  | none => rfl
  | some op => exact if_pos hchat

theorem ownStep_other {o : Option ChatOp} {id : ℕ} (hne : id ≠ c) (own : Instance) :
    ownStep c own (o.map (id, ·)) = own := by
  cases o with
  | none => rfl
  | some op => exact if_neg hne

theorem step_op (v : View) (o : Option ChatOp) :
    (v.step (o.map .op)).own = o.elim v.own fun op => op.apply v.own := by
  cases o <;> rfl

/-- A load job that is due to add a text has it from the view. -/
theorem load_own (h : Sees c v a) {i : ℕ} {l : LoadJob} (hl : a.loads[i]? = some l)
    (hchat : l.chat.id = c) :
    (v.step (l.act a.smollai i)).own =
      (l.nextOp a.smollai).elim v.own fun op => op.apply v.own := by
  unfold LoadJob.act
  split
  · rename_i hphase
    simp [LoadJob.nextOp, hphase, View.step, View.act]
  · rename_i m rest hphase
    have hdue := h.due i l _ hl hchat hphase
    simp [LoadJob.nextOp, hphase, View.step, View.act, hdue, View.message_text]
  · exact step_op v _

theorem worker_own (v : View) (w : Worker) (d : Draw) :
    (v.step (w.act d)).own = (w.nextOp d).elim v.own fun op => op.apply v.own := by
  unfold Worker.act
  split
  · rename_i hphase
    simp [Worker.nextOp, hphase, View.step, View.act]
  · exact step_op v _

theorem main_own (v : View) :
    (v.step (act c a .main)).own = ownStep c v.own (a.chatOp .main) := by
  have hop : (v.step ((a.chatOp .main).bind fun op =>
      if op.1 = c then some (.op op.2) else none)).own = ownStep c v.own (a.chatOp .main) := by
    cases a.chatOp .main with
    | none => rfl
    | some op =>
        simp only [Option.bind_some, ownStep]
        split <;> rfl
  simp only [act]
  split
  · rename_i hmain
    rw [chatOp_main hmain (by simp) (by simp)]
    split <;> rfl
  · rename_i hmain
    rw [chatOp_main hmain (by simp) (by simp)]
    split <;> rfl
  · exact hop

theorem act_own (h : Sees c v a) (e : Event) :
    (v.step (act c a e)).own = ownStep c v.own (a.chatOp e) := by
  cases e with
  | load i r =>
      cases hl : a.loads[i]? with
      | none => simp [act, chatOp, hl, View.step, ownStep]
      | some l =>
          by_cases hchat : l.chat.id = c
          · rw [ownStep_load hl hchat, ← load_own h hl hchat]
            simp [act, hl, hchat]
          · have hnone : act c a (.load i r) = none := by simp [act, hl, hchat]
            rw [hnone, chatOp, hl, Option.bind_some, ownStep_other hchat]
            rfl
  | worker i d =>
      cases hw : a.workers[i]? with
      | none => simp [act, chatOp, hw, View.step, ownStep]
      | some w =>
          by_cases hchat : w.chat.id = c
          · rw [ownStep_worker hw hchat, ← worker_own]
            simp [act, hw, hchat]
          · have hnone : act c a (.worker i d) = none := by simp [act, hw, hchat]
            rw [hnone, chatOp, hw, Option.bind_some, ownStep_other hchat]
            rfl
  | main => exact main_own v
  | _ => rfl

/-! ## The texts of the view -/

/-- A step that leaves the messages alone and starts or moves a load job. -/
theorem Sees.frame (h : Sees c v a) (hmessages : a'.db.messages = a.db.messages)
    (hloads : ∀ (i : ℕ) l rest, a'.loads[i]? = some l → l.phase = .adding rest →
      a.loads[i]? = some l) : Sees c v a' where
  texts := by
    rw [h.texts, Database.chatTexts, Database.chatTexts, Database.getMessagesForModel,
      Database.getMessagesForModel, hmessages]
  due i l rest hl hchat hphase := h.due i l rest (hloads i l rest hl hphase) hchat hphase

/-- The operations on the instance leave the rest of the view alone. -/
theorem Sees.op (h : Sees c v a) (o : Option ChatOp) : Sees c (v.step (o.map .op)) a := by
  cases o with
  | none => exact h
  | some op => exact ⟨h.texts, h.due⟩

theorem loads_append {loads : List LoadJob} {job l : LoadJob} {i : ℕ} {rest : List ChatMessage}
    (hjob : job.phase = .loading) (hl : (loads ++ [job])[i]? = some l)
    (hphase : l.phase = .adding rest) : loads[i]? = some l := by
  rw [List.getElem?_append] at hl
  split at hl
  · exact hl
  · obtain rfl := List.mem_singleton.mp (List.mem_of_getElem? hl)
    rw [hjob] at hphase
    cases hphase

theorem exec_sees (h : Sees c v a) {k : Instr} {code : List Instr}
    (hexec : a.exec k = some (a', code)) : Sees c v a' := by
  cases exec_cases hexec with
  | launchLoad => exact h.frame rfl fun i l rest hl hphase => loads_append rfl hl hphase
  | _ => exact h.frame rfl fun i l rest hl _ => hl

theorem chatTexts_addMessage (db : Database) (chatId : ℕ) (message : CString) (isUser : Bool) :
    (db.addMessage chatId message isUser).chatTexts c =
      db.chatTexts c ++ if chatId = c then [(message, isUser)] else [] := by
  by_cases hid : chatId = c <;>
    simp [Database.chatTexts, Database.getMessagesForModel, Database.addMessage, hid,
      ChatMessage.text]

theorem chatTexts_deleteMessages (db : Database) (chatId : ℕ) :
    (db.deleteMessages chatId).chatTexts c = if chatId = c then [] else db.chatTexts c := by
  unfold Database.chatTexts Database.getMessagesForModel Database.deleteMessages
  rw [List.filter_filter]
  split
  · rename_i hid
    simp [hid]
  · rename_i hid
    congr 1
    apply List.filter_congr
    intro m _
    by_cases hm : m.chatId = c <;> simp [hm, Ne.symm hid]

/-- A message is stored for a chat, in its view if it is the chat's. -/
theorem Sees.put (h : Sees c v a) {chatId : ℕ} {message : CString} {isUser : Bool}
    (hdb : a'.db = a.db.addMessage chatId message isUser) (hloads : a'.loads = a.loads) :
    Sees c (v.step (if chatId = c then some (.put (message, isUser)) else none)) a' := by
  constructor
  · rw [hdb, chatTexts_addMessage, ← h.texts]
    split
    · rfl
    · simp [View.step]
  · intro i l rest hl
    rw [hloads] at hl
    split <;> exact h.due i l rest hl

theorem Sees.clear (h : Sees c v a) {chatId : ℕ} (hdb : a'.db = a.db.deleteMessages chatId)
    (hloads : a'.loads = a.loads) :
    Sees c (v.step (if chatId = c then some .clear else none)) a' := by
  constructor
  · rw [hdb, chatTexts_deleteMessages, ← h.texts]
    split <;> rfl
  · intro i l rest hl
    rw [hloads] at hl
    split <;> exact h.due i l rest hl

theorem Sees.moved (h : Sees c v a) {v' : View} {i : ℕ} {l l' : LoadJob}
    (hl : a.loads[i]? = some l) (htexts : v'.texts = v.texts)
    (hmessages : a'.db.messages = a.db.messages) (hloads : a'.loads = (a.setLoad i l').loads)
    (hothers : ∀ k, k ≠ i → v'.due k = v.due k)
    (hdue : l'.chat.id = c → ∀ rest, l'.phase = .adding rest →
      v'.due i = rest.map ChatMessage.text) : Sees c v' a' := by
  constructor
  · rw [htexts, h.texts, Database.chatTexts, Database.chatTexts, Database.getMessagesForModel,
      Database.getMessagesForModel, hmessages]
  · intro k u rest hk hchat hphase
    rw [hloads, setLoad_getElem? hl] at hk
    split at hk
    · rename_i hki
      obtain rfl := Option.some.inj hk
      rw [hki]
      exact hdue hchat rest hphase
    · rename_i hki
      rw [hothers k hki]
      exact h.due k u rest hk hchat hphase

theorem stepLoad_sees (h : Sees c v a) {i : ℕ} {l : LoadJob} {r : LLMInference.LoadAnswer}
    (hl : a.loads[i]? = some l) (hchat : l.chat.id = c) (hstep : a.stepLoad i l r = some a') :
    Sees c (v.step (l.act a.smollai i)) a' := by
  obtain ⟨chat, model, phase⟩ := l
  obtain rfl : chat.id = c := hchat
  cases phase with
  | loading =>
      cases hstep
      exact h.moved hl rfl rfl rfl (fun _ _ => rfl) (by simp)
  | assigning ptr =>
      cases hstep
      exact h.moved hl rfl rfl rfl (fun _ _ => rfl) (by simp)
  | prompting =>
      cases hstep
      exact h.moved hl rfl rfl rfl (fun _ _ => rfl) (by simp)
  | reading =>
      cases hstep
      refine h.moved hl rfl rfl rfl (fun k hk => Function.update_of_ne hk _ _) ?_
      intro _ rest hrest
      obtain rfl : a.db.getMessagesForModel chat.id = rest := by simpa using hrest
      exact (Function.update_self _ _ _).trans h.texts
  | adding rest =>
      cases rest with
      | nil =>
          cases hstep
          exact h.moved hl rfl rfl rfl (fun _ _ => rfl) (by simp)
      | cons m rest =>
          cases hstep
          refine h.moved hl rfl rfl rfl (fun k hk => Function.update_of_ne hk _ _) ?_
          intro _ rest' hrest
          obtain rfl : rest = rest' := by simpa using hrest
          exact (Function.update_self _ _ _).trans (by rw [h.due i _ _ hl rfl rfl]; rfl)
  | finishing =>
      simp only [stepLoad] at hstep
      split at hstep
      · cases hstep
        exact h.moved hl rfl rfl rfl (fun _ _ => rfl) (by simp)
      · cases hstep
  | done => cases hstep
  | failed => cases hstep

theorem stepLoad_unseen (h : Sees c v a) {i : ℕ} {l : LoadJob} {r : LLMInference.LoadAnswer}
    (hl : a.loads[i]? = some l) (hchat : l.chat.id ≠ c) (hstep : a.stepLoad i l r = some a') :
    Sees c v a' := by
  obtain ⟨l', hloads, hsame⟩ : ∃ l', a'.loads = (a.setLoad i l').loads ∧ l'.chat = l.chat := by
    unfold stepLoad at hstep
    split at hstep
    case h_7 =>
      split at hstep <;> cases hstep
      exact ⟨_, rfl, rfl⟩
    all_goals cases hstep <;> exact ⟨_, rfl, rfl⟩
  refine h.moved hl rfl (stepLoad_sameGeneration hstep).1.messages hloads (fun _ _ => rfl) ?_
  intro hid
  rw [hsame] at hid
  exact absurd hid hchat

theorem stepWorker_sees (h : Sees c v a) {i : ℕ} {w : Worker} {d : Draw}
    (hstep : a.stepWorker i w d = some a') :
    Sees c (v.step (if w.chat.id = c then w.act d else none)) a' := by
  by_cases hsaving : ∃ text, w.phase = .saving text
  · obtain ⟨text, hphase⟩ := hsaving
    have hact : w.act d = some (.put (text, false)) := by
      unfold Worker.act
      rw [hphase]
    simp only [stepWorker, hphase, Option.some.injEq] at hstep
    subst hstep
    rw [hact]
    exact h.put rfl rfl
  · have hmessages : a'.db.messages = a.db.messages := by
      cases stepWorker_cases hstep with
      | saves hphase => exact absurd ⟨_, hphase⟩ hsaving
      | _ => rfl
    have hact : w.act d = (w.nextOp d).map .op := by
      unfold Worker.act
      split
      · rename_i hphase
        exact absurd ⟨_, hphase⟩ hsaving
      · rfl
    have hsame : Sees c v a' :=
      h.frame hmessages fun _ _ _ hl _ => (stepWorker_moved hstep).loads ▸ hl
    rw [hact]
    split
    · exact hsame.op _
    · exact hsame

/-- The instructions that the view takes for operations on the instance, or for none. -/
theorem act_main_op {i : MainInstr} {rest : List MainInstr} (hmain : a.main = i :: rest)
    (hadd : ∀ chatId query, i ≠ .addUserMessage chatId query)
    (hdelete : ∀ chatId, i ≠ .deleteMessages chatId) :
    ∃ o : Option ChatOp, act c a .main = o.map .op := by
  refine ⟨(a.chatOp .main).bind fun op => if op.1 = c then some op.2 else none, ?_⟩
  simp only [act, hmain]
  split
  · rename_i heq
    exact absurd (List.cons.inj heq).1 (hadd _ _)
  · rename_i heq
    exact absurd (List.cons.inj heq).1 (hdelete _)
  · cases a.chatOp .main with
    | none => rfl
    | some op =>
        simp only [Option.bind_some]
        split <;> rfl

theorem main_sees (h : Sees c v a) {i : MainInstr} {rest code : List MainInstr} {a₁ : ViewModel}
    (hmain : a.main = i :: rest) (hexec : a.execMain i = some (a₁, code)) :
    Sees c (v.step (act c a .main)) { a₁ with main := code ++ rest } := by
  have hop (hadd : ∀ chatId query, i ≠ .addUserMessage chatId query)
      (hdelete : ∀ chatId, i ≠ .deleteMessages chatId)
      (hsame : Sees c v { a₁ with main := code ++ rest }) :
      Sees c (v.step (act c a .main)) { a₁ with main := code ++ rest } := by
    obtain ⟨o, ho⟩ := act_main_op (c := c) hmain hadd hdelete
    rw [ho]
    exact hsame.op o
  cases execMain_cases hexec with
  | code hk =>
      apply hop (by simp) (by simp)
      exact (exec_sees h hk).frame rfl fun _ _ _ hl _ => hl
  | addUserMessage =>
      simp only [act, hmain]
      exact h.put rfl rfl
  | deleteMessages =>
      simp only [act, hmain]
      exact h.clear rfl rfl
  | _ => exact hop (by simp) (by simp) (h.frame rfl fun _ _ _ hl _ => hl)

theorem step_sees (h : Sees c v a) {e : Event} (hstep : a.step e = some a') :
    Sees c (v.step (act c a e)) a' := by
  cases step_cases hstep with
  | main hmain hexec => exact main_sees h hmain hexec
  | mainThrows hmain hexec =>
      obtain ⟨o, ho⟩ := act_main_op (c := c) hmain (by rintro _ _ rfl; cases hexec)
        (by rintro _ rfl; cases hexec)
      have hsame : Sees c v { a with aborted := true } := h.frame rfl fun _ _ _ hl _ => hl
      rw [ho]
      exact hsame.op o
  | worker hw hwstep =>
      simp only [act, hw, Option.bind_some]
      exact stepWorker_sees h hwstep
  | workerThrows hw hthrow =>
      obtain ⟨rfl, -⟩ := throwWorker_eq hthrow
      exact h.frame rfl fun _ _ _ hl _ => hl
  | load hl hlstep =>
      simp only [act, hl, Option.bind_some]
      split
      · rename_i hchat
        exact stepLoad_sees h hl hchat hlstep
      · rename_i hchat
        exact stepLoad_unseen h hl hchat hlstep
  | loadThrows hl hthrow =>
      obtain rfl := throwLoad_eq hthrow
      exact h.moved hl rfl rfl rfl (fun _ _ => rfl) (by simp)
  | importRuns hjob hexec =>
      exact (exec_sees h hexec).frame rfl fun _ _ _ hl _ => hl
  | _ => exact h.frame rfl fun _ _ _ hl _ => hl

/-! ## Two runs -/

theorem step_acts (v : View) {e : Event} (hstep : a.step e = some a') (es : List Event) :
    (acts c a (e :: es)).foldl View.act v =
      (acts c a' es).foldl View.act (v.step (act c a e)) := by
  rw [acts, hstep, List.foldl_append]
  cases act c a e <;> rfl

/-- In a run the view's instance is what the chat's operations make of it. -/
theorem run_sees {es : List Event} (h : Sees c v a) (hexec : Transition.exec step a es = some a') :
    (ownOps c a es).foldl ChatOp.apply v.own = ((acts c a es).foldl View.act v).own := by
  induction es generalizing a v with
  | nil => rfl
  | cons e es ih =>
      obtain ⟨a₁, hstep, hrest⟩ := Option.bind_eq_some_iff.mp hexec
      rw [ownOps_cons c hstep, step_acts v hstep, ← act_own h]
      exact ih (step_sees h hstep) hrest

/-- Noninterference. Two runs from databases with the same stored texts of a chat, in which the
chat does the same, give its query the same. Rows and messages of other chats may differ, and
anything may be done in these. -/
theorem asks_noninterference {db db' : Database} {currChat currChat' : Option Chat}
    {es es' : List Event} {w w' : Worker} (h : Asks (opened db .new currChat) es a w)
    (h' : Asks (opened db' .new currChat') es' a' w') (hchat : w'.chat.id = w.chat.id)
    (htexts : db'.chatTexts w.chat.id = db.chatTexts w.chat.id)
    (hacts : acts w.chat.id (opened db' .new currChat') es' =
      acts w.chat.id (opened db .new currChat) es) :
    a'.smollai.native = a.smollai.native := by
  have hown := run_sees (opened_sees w.chat.id db .new currChat) h.exec
  have hown' := run_sees (opened_sees w.chat.id db' .new currChat') h'.exec
  rw [h.native.2, h'.native.2, hchat, hown, hown', htexts, hacts]

end ViewModel

end SmollChat
