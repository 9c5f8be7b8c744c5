import SmollChat.Model.ByteEngine
import SmollChat.Verification.ViewModel.Equations

/-! # Deleted chats

`deleteChat` removes what the database holds of a chat. The chat comes back if a worker of
it still has a reply to store, or if an import has read it as the current chat and not
written it back yet. -/

namespace SmollChat

/-- The instruction writes the chat to the database or to `currChatState`. -/
def Instr.holds (c : ℕ) : Instr → Bool
  | .setCurrChat (some chat) | .putChat chat => chat.id = c
  | _ => false

/-- The instruction takes up the current chat in order to write it back. -/
def Instr.reads : Instr → Bool
  | .copyChat _ | .readChat => true
  | _ => false

def MainInstr.holds (c : ℕ) : MainInstr → Bool
  | .code i => i.holds c
  | .addUserMessage chatId _ => chatId = c
  | .launchWorker chat _ => chat.id = c
  | _ => false

def MainInstr.stops : MainInstr → Bool
  | .setGenerating _ | .checkJob | .cancelJob _ | .cancelCompletion _ => true
  | _ => false

def ImportJob.code : ImportJob → List Instr
  | .adding _ _ => []
  | .running code => code

def ImportJob.holds (c : ℕ) (job : ImportJob) : Bool := job.code.any (Instr.holds c)

namespace ViewModel

variable {a a' : ViewModel} {c : ℕ}

/-! ## The property -/

/-- No deleted chat has a row or a message, and none is the current chat. -/
def StaysDeleted (a : ViewModel) : Prop :=
  ∀ c ∈ a.deletedChats, (∀ chat ∈ a.db.chats, chat.id ≠ c) ∧
    (∀ m ∈ a.db.messages, m.chatId ≠ c) ∧ ∀ chat, a.currChat = some chat → chat.id ≠ c

def isDeleting (a : ViewModel) : Bool :=
  a.main.any fun i => match i with
    | .dropCurrChat _ => true
    | _ => false

/-- The chat's row is removed while no import holds the chat, its messages once all its
workers are settled; and no import reads the current chat during a deletion. -/
def DeletesSettled (a : ViewModel) : Event → Prop
  | .main =>
      match a.main with
      | .deleteChatRow c :: _ => ∀ job ∈ a.imports, job.holds c = false
      | .deleteMessages c :: _ => ∀ w ∈ a.workers, w.chat.id = c → w.isSettled = true
      | _ => True
  | .importJob i =>
      match a.imports[i]? with
      | some (.running (k :: _)) => k.reads = true → a.isDeleting = false
      | _ => True
  | _ => True

instance (a : ViewModel) (e : Event) : Decidable (DeletesSettled a e) := by
  rcases e with _ | _ <;> dsimp only [DeletesSettled]
  case main =>
    rcases a.main with _ | ⟨_ | _, _⟩ <;> infer_instance
  case importJob i =>
    rcases a.imports[i]? with _ | _ | _ | _ <;> infer_instance
  all_goals infer_instance

/-! ## The invariant -/

/-- The chat has no row, and no import is about to write it. -/
structure Absent (c : ℕ) (a : ViewModel) : Prop where
  rows : ∀ chat ∈ a.db.chats, chat.id ≠ c
  imports : ∀ job ∈ a.imports, ∀ k ∈ job.code, k.holds c = false

/-- Neither is the main thread, and the chat is not the current one. -/
structure Gone (c : ℕ) (a : ViewModel) : Prop extends Absent c a where
  main : ∀ i ∈ a.main, i.holds c = false
  curr : ∀ chat, a.currChat = some chat → chat.id ≠ c

/-- The chat has no message, and none of its workers is about to store one. -/
structure Silent (c : ℕ) (a : ViewModel) : Prop where
  messages : ∀ m ∈ a.db.messages, m.chatId ≠ c
  workers : ∀ w ∈ a.workers, w.chat.id = c → w.isSettled = true

/-- How far a `deleteChat` on the main thread has come. -/
inductive Stage (a : ViewModel) : Prop where
  | idle (none : a.isDeleting = false)
  | stopping {c : ℕ} {p : List MainInstr}
      (main : a.main = p ++ [.deleteChatRow c, .deleteMessages c, .dropCurrChat c])
      (issued : c < a.db.nextChat) (stops : ∀ i ∈ p, i.stops = true)
  | row {c : ℕ} (main : a.main = [.deleteMessages c, .dropCurrChat c]) (issued : c < a.db.nextChat)
      (absent : Absent c a)
  | messages {c : ℕ} (main : a.main = [.dropCurrChat c]) (issued : c < a.db.nextChat)
      (absent : Absent c a) (silent : Silent c a)

/-- A deleted chat is gone and silent. A chat whose id has not been handed out yet is gone
as well, so that a new chat is never a deleted one. -/
structure DeletionInv (a : ViewModel) : Prop where
  gone : ∀ c, c ∈ a.deletedChats ∨ a.db.nextChat ≤ c → Gone c a
  deleted : ∀ c ∈ a.deletedChats, c < a.db.nextChat ∧ Silent c a
  stage : Stage a

/-! ## Imports -/

/-- An instruction that neither holds the chat nor takes it up does not bring it back. -/
theorem exec_absent {k : Instr} {code : List Instr} (h : a.exec k = some (a', code))
    (hrows : ∀ chat ∈ a.db.chats, chat.id ≠ c) (hk : k.holds c = false)
    (hreads : k.reads = true → ∀ chat, a.currChat = some chat → chat.id ≠ c) :
    (∀ chat ∈ a'.db.chats, chat.id ≠ c) ∧ ∀ j ∈ code, j.holds c = false := by
  cases exec_cases h with
  | copyChat =>
      refine ⟨hrows, ?_⟩
      cases hcurr : a.currChat with
      | none => simp [Instr.holds]
      | some chat => simpa [Instr.holds] using hreads rfl chat hcurr
  | readChat hcurr => exact ⟨hrows, by simpa [Instr.holds] using hreads rfl _ hcurr⟩
  | @putChat chat =>
      have hid : chat.id ≠ c := by simpa [Instr.holds] using hk
      refine ⟨?_, by simp⟩
      intro row hrow
      simp only [Database.updateChat] at hrow
      split at hrow
      · obtain ⟨old, hold, rfl⟩ := List.mem_map.mp hrow
        split
        · exact hid
        · exact hrows old hold
      · rcases List.mem_append.mp hrow with hrow | hrow
        · exact hrows row hrow
        · exact List.mem_singleton.mp hrow ▸ hid
  | _ => exact ⟨hrows, by simp [Instr.holds]⟩

theorem exec_curr {k : Instr} {code : List Instr} (h : a.exec k = some (a', code))
    (hk : k.holds c = false) (hcurr : ∀ chat, a.currChat = some chat → chat.id ≠ c) :
    ∀ chat, a'.currChat = some chat → chat.id ≠ c := by
  cases exec_cases h with
  | setCurrChat =>
      rintro chat rfl
      simpa [Instr.holds] using hk
  | _ => exact hcurr

theorem exec_imports {k : Instr} {code : List Instr} (h : a.exec k = some (a', code)) :
    a'.imports = a.imports ∧ a'.db.nextChat = a.db.nextChat := by
  cases exec_cases h <;> exact ⟨rfl, rfl⟩

/-! ## Steps of the jobs -/

theorem Absent.congr (h : Absent c a) (hchats : a'.db.chats = a.db.chats)
    (himports : a'.imports = a.imports) : Absent c a' :=
  ⟨hchats ▸ h.rows, himports ▸ h.imports⟩

theorem Gone.congr (h : Gone c a) (hchats : a'.db.chats = a.db.chats)
    (himports : a'.imports = a.imports) (hmain : a'.main = a.main)
    (hcurr : a'.currChat = a.currChat) : Gone c a' :=
  ⟨h.toAbsent.congr hchats himports, hmain ▸ h.main, hcurr ▸ h.curr⟩

theorem Silent.congr (h : Silent c a) (hmessages : a'.db.messages = a.db.messages)
    (hworkers : a'.workers = a.workers) : Silent c a' :=
  ⟨hmessages ▸ h.messages, hworkers ▸ h.workers⟩

/-- A step beside the main thread keeps the stage if it brings no chat under deletion back. -/
theorem Stage.beside (h : Stage a) (hmain : a'.main = a.main)
    (hnext : a'.db.nextChat = a.db.nextChat)
    (habsent : a.isDeleting = true → ∀ c, Absent c a → Absent c a')
    (hsilent : ∀ c, Silent c a → Silent c a') : Stage a' := by
  cases h with
  | idle hnone => exact .idle (by rw [isDeleting, hmain]; exact hnone)
  | stopping hcode hissued hstops => exact .stopping (hmain.trans hcode) (hnext ▸ hissued) hstops
  | row hcode hissued habs =>
      exact .row (hmain.trans hcode) (hnext ▸ hissued)
        (habsent (by simp [isDeleting, hcode]) _ habs)
  | messages hcode hissued habs hsil =>
      exact .messages (hmain.trans hcode) (hnext ▸ hissued)
        (habsent (by simp [isDeleting, hcode]) _ habs) (hsilent _ hsil)

/-- A step beside the main thread that keeps what is gone and what is silent. -/
theorem DeletionInv.beside (h : DeletionInv a) (hmain : a'.main = a.main)
    (hnext : a'.db.nextChat = a.db.nextChat) (hdeleted : a'.deletedChats = a.deletedChats)
    (hgone : ∀ c, Gone c a → Gone c a')
    (habsent : a.isDeleting = true → ∀ c, Absent c a → Absent c a')
    (hsilent : ∀ c, Silent c a → Silent c a') : DeletionInv a' where
  gone c hc := hgone c (h.gone c (by rwa [hdeleted, hnext] at hc))
  deleted c hc := by
    obtain ⟨hissued, hsil⟩ := h.deleted c (hdeleted ▸ hc)
    exact ⟨hnext ▸ hissued, hsilent c hsil⟩
  stage := h.stage.beside hmain hnext habsent hsilent

/-- A worker that is settled stores nothing, and the others store for their own chat. -/
theorem stepWorker_silent {i : ℕ} {w : Worker} {d : Draw} (h : Silent c a)
    (hw : a.workers[i]? = some w) (hstep : a.stepWorker i w d = some a') : Silent c a' := by
  obtain ⟨⟨w', hworkers, hchat, hsettled⟩, hmessages, -⟩ := stepWorker_settled hstep
  constructor
  · intro m hm
    rcases hmessages m hm with hold | ⟨hunsettled, hid⟩
    · exact h.messages m hold
    · rw [hid]
      intro hc
      have := h.workers w (List.mem_of_getElem? hw) hc
      simp [hunsettled] at this
  · intro v hv hc
    rw [hworkers] at hv
    rcases List.mem_or_eq_of_mem_set hv with hv | rfl
    · exact h.workers v hv hc
    · exact hsettled (h.workers w (List.mem_of_getElem? hw) (hchat ▸ hc))

theorem throwWorker_silent {i : ℕ} {w : Worker} (h : Silent c a) (hw : a.workers[i]? = some w)
    (hthrow : a.throwWorker i w = some a') : Silent c a' := by
  obtain ⟨rfl, hphase⟩ := throwWorker_eq hthrow
  refine ⟨h.messages, ?_⟩
  intro v hv hc
  rcases List.mem_or_eq_of_mem_set hv with hv | rfl
  · exact h.workers v hv hc
  · have := h.workers w (List.mem_of_getElem? hw) hc
    rcases hphase with hphase | hphase | hphase | hphase <;>
      rw [w.isSettled_eq_false hphase rfl (by simp)] at this <;> cases this

theorem Absent.setImport {i : ℕ} {job : ImportJob} (h : Absent c a)
    (hjob : ∀ k ∈ job.code, k.holds c = false) : Absent c (a.setImport i job) := by
  refine ⟨h.rows, ?_⟩
  intro job' hmem
  rcases List.mem_or_eq_of_mem_set hmem with hmem | rfl
  · exact h.imports job' hmem
  · exact hjob

theorem importRuns_absent {i : ℕ} {k : Instr} {code more : List Instr} (h : Absent c a)
    (hjob : a.imports[i]? = some (.running (k :: code))) (hexec : a.exec k = some (a', more))
    (hreads : k.reads = true → ∀ chat, a.currChat = some chat → chat.id ≠ c) :
    Absent c (a'.setImport i (.running (more ++ code))) := by
  have hcode := h.imports _ (List.mem_of_getElem? hjob)
  obtain ⟨hrows, hmore⟩ := exec_absent hexec h.rows (hcode k (by simp [ImportJob.code])) hreads
  have habsent : Absent c a' := ⟨hrows, (exec_imports hexec).1 ▸ h.imports⟩
  refine habsent.setImport ?_
  intro j hj
  rcases List.mem_append.mp hj with hj | hj
  · exact hmore j hj
  · exact hcode j (by simp [ImportJob.code, hj])

/-! ## The main thread -/

theorem execMain_gone {i : MainInstr} {rest code : List MainInstr} (h : Gone c a)
    (hmain : a.main = i :: rest) (hstep : MainStep a i a' code) :
    Gone c { a' with main := code ++ rest } := by
  have hi : i.holds c = false := h.main i (hmain ▸ List.mem_cons_self)
  have hrest : ∀ j ∈ rest, j.holds c = false :=
    fun j hj => h.main j (hmain ▸ List.mem_cons_of_mem _ hj)
  cases hstep with
  | code hexec =>
      obtain ⟨hrows, hmore⟩ := exec_absent hexec h.rows hi fun _ => h.curr
      have hcurr := exec_curr hexec hi h.curr
      refine ⟨⟨hrows, (exec_imports hexec).1 ▸ h.imports⟩, ?_, hcurr⟩
      intro j hj
      rcases List.mem_append.mp hj with hj | hj
      · obtain ⟨k, hk, rfl⟩ := List.mem_map.mp hj
        exact hmore k hk
      · exact hrest j hj
  | checkJob _ _ => exact ⟨h.toAbsent.congr rfl rfl, by simpa [MainInstr.holds] using hrest, h.curr⟩
  | checkModel hcurr =>
      refine ⟨h.toAbsent.congr rfl rfl, ?_, h.curr⟩
      have hid := h.curr _ hcurr
      simpa [MainInstr.holds, Instr.holds, hid] using hrest
  | deleteChatRow =>
      exact ⟨⟨fun chat hchat => h.rows chat (List.mem_filter.mp hchat).1, h.imports⟩, hrest, h.curr⟩
  | dropCurrChat => exact ⟨h.toAbsent.congr rfl rfl, hrest, by simp [setCurrChat]⟩
  | _ => exact ⟨h.toAbsent.congr rfl rfl, hrest, h.curr⟩

theorem execMain_silent {i : MainInstr} {code : List MainInstr} (h : Silent c a)
    (hi : i.holds c = false) (hstep : MainStep a i a' code) : Silent c a' := by
  cases hstep with
  | code hexec =>
      have hsame := (exec_sameGeneration hexec).1
      exact h.congr hsame.messages hsame.workers
  | addUserMessage =>
      refine ⟨?_, h.workers⟩
      intro m hm
      rcases List.mem_append.mp hm with hm | hm
      · exact h.messages m hm
      · obtain rfl := List.mem_singleton.mp hm
        simpa [MainInstr.holds] using hi
  | launchWorker =>
      refine ⟨h.messages, ?_⟩
      intro w hw hc
      rcases List.mem_append.mp hw with hw | hw
      · exact h.workers w hw hc
      · obtain rfl := List.mem_singleton.mp hw
        exact absurd hc (by simpa [MainInstr.holds] using hi)
  | @cancelJob job =>
      refine ⟨h.messages, ?_⟩
      intro w hw hc
      obtain ⟨j, hj⟩ := List.mem_iff_getElem?.mp hw
      rw [List.getElem?_modify] at hj
      split at hj
      · obtain ⟨v, hv, rfl⟩ := Option.map_eq_some_iff.mp hj
        have hsettled := h.workers v (List.mem_of_getElem? hv) hc
        simp only [Worker.isSettled, Bool.or_eq_true, Bool.and_eq_true] at hsettled ⊢
        exact hsettled.imp id fun hcreated => ⟨hcreated.1, trivial⟩
      · exact h.workers w (List.mem_of_getElem? (by simpa using hj)) hc
  | deleteMessages => exact ⟨fun m hm => h.messages m (List.mem_filter.mp hm).1, h.workers⟩
  | _ => exact h.congr rfl rfl

theorem execMain_noDrop {i : MainInstr} {code : List MainInstr} (hstep : MainStep a i a' code) :
    (∀ c, .dropCurrChat c ∉ code) ∧ a'.db.nextChat = a.db.nextChat := by
  cases hstep with
  | code hexec => exact ⟨by simp, (exec_imports hexec).2⟩
  | _ => exact ⟨by simp, rfl⟩

theorem isDeleting_iff : a.isDeleting = true ↔ ∃ c, .dropCurrChat c ∈ a.main := by
  simp only [isDeleting, List.any_eq_true]
  constructor
  · rintro ⟨i, hi, hdrop⟩
    cases i <;> simp_all
    exact ⟨_, hi⟩
  · rintro ⟨c, hc⟩
    exact ⟨_, hc, rfl⟩

theorem execMain_stops {i : MainInstr} {code : List MainInstr} (hi : i.stops = true)
    (hstep : MainStep a i a' code) :
    (∀ j ∈ code, j.stops = true) ∧ a'.db = a.db ∧ a'.imports = a.imports := by
  cases hstep with
  | checkJob _ _ => exact ⟨by simp [MainInstr.stops], rfl, rfl⟩
  | setGenerating | noJob | cancelJob | cancelCompletion => exact ⟨by simp, rfl, rfl⟩
  | _ => cases hi

/-- The next instruction of the main thread and the deletion it may belong to. -/
theorem execMain_stage {i : MainInstr} {rest code : List MainInstr} (h : Stage a)
    (hmain : a.main = i :: rest) (hallowed : DeletesSettled a .main)
    (hstep : MainStep a i a' code) : Stage { a' with main := code ++ rest } := by
  cases h with
  | idle hnone =>
      refine .idle ?_
      rw [Bool.eq_false_iff, Ne, isDeleting_iff]
      rintro ⟨c, hc⟩
      rcases List.mem_append.mp hc with hc | hc
      · exact (execMain_noDrop hstep).1 c hc
      · rw [isDeleting_iff.mpr ⟨c, hmain ▸ List.mem_cons_of_mem _ hc⟩] at hnone
        cases hnone
  | @stopping c p hcode hissued hstops =>
      rw [hmain] at hcode
      cases p with
      | nil =>
          obtain ⟨rfl, rfl⟩ := List.cons.inj hcode
          simp only [DeletesSettled, hmain] at hallowed
          cases hstep
          refine .row rfl hissued ⟨?_, ?_⟩
          · intro chat hchat
            simpa using (List.mem_filter.mp hchat).2
          · intro job hjob k hk
            have hfree := hallowed job hjob
            simp only [ImportJob.holds, List.any_eq_false] at hfree
            exact Bool.eq_false_iff.mpr (hfree k hk)
      | cons j p =>
          obtain ⟨rfl, rfl⟩ := List.cons.inj hcode
          obtain ⟨hcode', hdb, -⟩ := execMain_stops (hstops i List.mem_cons_self) hstep
          refine .stopping (c := c) (p := code ++ p) (by simp) (by rw [hdb]; exact hissued) ?_
          intro j hj
          rcases List.mem_append.mp hj with hj | hj
          · exact hcode' j hj
          · exact hstops j (List.mem_cons_of_mem _ hj)
  | row hcode hissued habsent =>
      rw [hmain] at hcode
      obtain ⟨rfl, rfl⟩ := List.cons.inj hcode
      simp only [DeletesSettled, hmain] at hallowed
      cases hstep
      refine .messages rfl hissued (habsent.congr rfl rfl) ⟨?_, hallowed⟩
      intro m hm
      simpa using (List.mem_filter.mp hm).2
  | messages hcode _ _ _ =>
      rw [hmain] at hcode
      obtain ⟨rfl, rfl⟩ := List.cons.inj hcode
      cases hstep
      exact .idle rfl

theorem Stage.returns (h : Stage a) {d : ℕ} {rest : List MainInstr}
    (hmain : a.main = .dropCurrChat d :: rest) :
    rest = [] ∧ d < a.db.nextChat ∧ Absent d a ∧ Silent d a := by
  cases h with
  | idle hnone =>
      rw [isDeleting_iff.mpr ⟨d, hmain ▸ List.mem_cons_self⟩] at hnone
      cases hnone
  | @stopping c p hcode _ hstops =>
      rw [hmain] at hcode
      cases p with
      | nil => cases hcode
      | cons j p =>
          obtain ⟨rfl, -⟩ := List.cons.inj hcode
          cases hstops _ List.mem_cons_self
  | row hcode _ _ => cases hmain.symm.trans hcode
  | messages hcode hissued habsent hsilent =>
      cases hmain.symm.trans hcode
      exact ⟨rfl, hissued, habsent, hsilent⟩

theorem main_deletion (h : DeletionInv a) {i : MainInstr} {rest code : List MainInstr}
    (hmain : a.main = i :: rest) (hallowed : DeletesSettled a .main)
    (hexec : a.execMain i = some (a', code)) : DeletionInv { a' with main := code ++ rest } := by
  have hstep := execMain_cases hexec
  have hstage := execMain_stage h.stage hmain hallowed hstep
  have hnext := (execMain_noDrop hstep).2
  have hgone : ∀ c, c ∈ a.deletedChats ∨ a.db.nextChat ≤ c →
      Gone c { a' with main := code ++ rest } :=
    fun c hc => execMain_gone (h.gone c hc) hmain hstep
  have hold : ∀ c ∈ a.deletedChats, c < a'.db.nextChat ∧ Silent c a' := by
    intro c hc
    obtain ⟨hissued, hsilent⟩ := h.deleted c hc
    have hi := (h.gone c (.inl hc)).main i (hmain ▸ List.mem_cons_self)
    exact ⟨hnext ▸ hissued, execMain_silent hsilent hi hstep⟩
  by_cases hdrop : ∃ d, i = .dropCurrChat d
  · obtain ⟨d, rfl⟩ := hdrop
    obtain ⟨rfl, hissued, habsent, hsilent⟩ := h.stage.returns hmain
    cases hstep
    refine ⟨?_, ?_, hstage⟩
    · rintro c (hc | hc)
      · rcases List.mem_append.mp hc with hc | hc
        · exact hgone c (.inl hc)
        · obtain rfl := List.mem_singleton.mp hc
          exact ⟨habsent.congr rfl rfl, by simp, by simp [setCurrChat]⟩
      · exact hgone c (.inr hc)
    · intro c hc
      rcases List.mem_append.mp hc with hc | hc
      · exact ⟨(hold c hc).1, (hold c hc).2.congr rfl rfl⟩
      · obtain rfl := List.mem_singleton.mp hc
        exact ⟨hissued, hsilent.congr rfl rfl⟩
  · have hdeleted : a'.deletedChats = a.deletedChats := by
      cases hstep with
      | code hk => exact (exec_sameGeneration hk).1.deletedChats
      | dropCurrChat => exact absurd ⟨_, rfl⟩ hdrop
      | _ => rfl
    refine ⟨?_, ?_, hstage⟩
    · intro c hc
      exact hgone c (by rwa [hdeleted, hnext] at hc)
    · intro c hc
      exact ⟨(hold c (hdeleted ▸ hc)).1, (hold c (hdeleted ▸ hc)).2.congr rfl rfl⟩

/-! ## Every step -/

theorem DeletionInv.start (h : DeletionInv a) (hdb : a'.db = a.db)
    (hworkers : a'.workers = a.workers) (himports : a'.imports = a.imports)
    (hdeleted : a'.deletedChats = a.deletedChats)
    (hcurr : ∀ c, Gone c a → ∀ chat, a'.currChat = some chat → chat.id ≠ c)
    (hmain : ∀ c, Gone c a → ∀ i ∈ a'.main, i.holds c = false) (hstage : Stage a') :
    DeletionInv a' where
  gone c hc := by
    have hgone := h.gone c (by rwa [hdeleted, hdb] at hc)
    exact ⟨hgone.toAbsent.congr (congrArg _ hdb) himports, hmain c hgone, hcurr c hgone⟩
  deleted c hc := by
    obtain ⟨hissued, hsilent⟩ := h.deleted c (hdeleted ▸ hc)
    exact ⟨hdb ▸ hissued, hsilent.congr (congrArg _ hdb) hworkers⟩
  stage := hstage

/-- An import's step keeps the invariant if it brings no chat back that the import does not
hold. -/
theorem DeletionInv.importStep (h : DeletionInv a) (hmain : a'.main = a.main)
    (hnext : a'.db.nextChat = a.db.nextChat) (hsame : SameGeneration a a')
    (hcurr : ∀ c, Gone c a → ∀ chat, a'.currChat = some chat → chat.id ≠ c)
    (habsent : ∀ c, Absent c a → (a.isDeleting = true ∨ Gone c a) → Absent c a') :
    DeletionInv a' := by
  refine h.beside hmain hnext hsame.deletedChats ?_ ?_ ?_
  · exact fun c hg => ⟨habsent c hg.toAbsent (.inr hg), hmain ▸ hg.main, hcurr c hg⟩
  · exact fun hdeleting c ha => habsent c ha (.inl hdeleting)
  · exact fun c hs => hs.congr hsame.messages hsame.workers

theorem newChat_deletion (h : DeletionInv a) {chatName systemPrompt : CString} {date : ℕ} :
    DeletionInv { a with
      db := (a.db.addChat chatName date).2
      main := ViewModel.switchChat
        ⟨a.db.nextChat, chatName, systemPrompt, date, -1, 1 / 20, 1, false⟩ } where
  gone c hc := by
    have hold : c ∈ a.deletedChats ∨ a.db.nextChat ≤ c :=
      hc.imp id fun hle => (Nat.le_succ _).trans hle
    have hne : a.db.nextChat ≠ c := by
      rcases hc with hc | hc
      · exact (h.deleted c hc).1.ne'
      · exact (Nat.lt_of_succ_le hc).ne
    have hgone := h.gone c hold
    refine ⟨⟨?_, hgone.imports⟩, ?_, hgone.curr⟩
    · intro chat hchat
      rcases List.mem_append.mp hchat with hchat | hchat
      · exact hgone.rows chat hchat
      · exact List.mem_singleton.mp hchat ▸ hne
    · simpa [ViewModel.switchChat, ViewModel.stopGeneration, MainInstr.holds, Instr.holds] using hne
  deleted c hc := ⟨(h.deleted c hc).1.trans (Nat.lt_succ_self _), (h.deleted c hc).2.congr rfl rfl⟩
  stage := .idle (by simp [isDeleting, ViewModel.switchChat, ViewModel.stopGeneration])

theorem step_deletion (h : DeletionInv a) {e : Event} (hallowed : DeletesSettled a e)
    (hstep : a.step e = some a') : DeletionInv a' := by
  cases step_cases hstep with
  | main hnext hexec => exact main_deletion h hnext hallowed hexec
  | mainThrows _ _ =>
      exact h.beside rfl rfl rfl (fun c hg => hg.congr rfl rfl rfl rfl)
        (fun _ c ha => ha.congr rfl rfl) fun c hs => hs.congr rfl rfl
  | worker hw hmove =>
      obtain ⟨-, -, hchats, hnext, hcurr, himports, hmain, hdeleted⟩ := stepWorker_settled hmove
      exact h.beside hmain hnext hdeleted (fun c hg => hg.congr hchats himports hmain hcurr)
        (fun _ c ha => ha.congr hchats himports) fun c hs => stepWorker_silent hs hw hmove
  | workerThrows hw hthrow =>
      obtain ⟨rfl, -⟩ := throwWorker_eq hthrow
      exact h.beside rfl rfl rfl (fun c hg => hg.congr rfl rfl rfl rfl)
        (fun _ c ha => ha.congr rfl rfl) fun c hs => throwWorker_silent hs hw hthrow
  | load _ hload =>
      obtain ⟨hsame, hmain⟩ := stepLoad_sameGeneration hload
      obtain ⟨hdb, hcurr, himports⟩ := stepLoad_chats hload
      exact h.importStep hmain (congrArg _ hdb) hsame (fun c hg => hcurr ▸ hg.curr)
        fun c ha _ => ha.congr (congrArg _ hdb) himports
  | loadThrows _ hthrow =>
      obtain rfl := throwLoad_eq hthrow
      exact h.beside rfl rfl rfl (fun c hg => hg.congr rfl rfl rfl rfl)
        (fun _ c ha => ha.congr rfl rfl) fun c hs => hs.congr rfl rfl
  | importAdds _ =>
      refine h.importStep rfl rfl ⟨rfl, rfl, rfl, rfl, rfl, rfl, rfl⟩ (fun c hg => hg.curr) ?_
      intro c ha _
      refine (ha.setImport ?_).congr rfl rfl
      simp [ImportJob.code, updateChatLLM, loadModel, Instr.holds]
  | importRuns hjob hexec =>
      simp only [DeletesSettled, hjob] at hallowed
      obtain ⟨hsame, hmain, -⟩ := exec_sameGeneration hexec
      have hcode := List.mem_of_getElem? hjob
      refine h.importStep hmain (exec_imports hexec).2
        ⟨hsame.messages, hsame.nextMessage, hsame.partialResponse, hsame.workers,
          hsame.responseGenerationJob, hsame.cycleCalls, hsame.deletedChats⟩ ?_ ?_
      · intro c hg
        have hcurr := exec_curr hexec (hg.imports _ hcode _ List.mem_cons_self) hg.curr
        exact hcurr
      · intro c ha hwhy
        refine importRuns_absent ha hjob hexec fun hreads => ?_
        rcases hwhy with hdeleting | hg
        · rw [hallowed hreads] at hdeleting
          cases hdeleting
        · exact hg.curr
  | importEnds _ _ | importThrows =>
      refine h.importStep rfl rfl ⟨rfl, rfl, rfl, rfl, rfl, rfl, rfl⟩ (fun c hg => hg.curr) ?_
      exact fun c ha _ => ha.setImport (by simp [ImportJob.code])
  | importModel _ =>
      refine h.importStep rfl rfl ⟨rfl, rfl, rfl, rfl, rfl, rfl, rfl⟩ (fun c hg => hg.curr) ?_
      refine fun c ha _ => ⟨ha.rows, ?_⟩
      intro job hjob
      rcases List.mem_append.mp hjob with hjob | hjob
      · exact ha.imports job hjob
      · obtain rfl := List.mem_singleton.mp hjob
        simp [ImportJob.code]
  | @sendUserQuery query date chat _ hcurr _ _ _ =>
      refine h.start rfl rfl rfl rfl ?_ ?_ (.idle (by simp [isDeleting, ViewModel.sendUserQuery]))
      · intro c hg next hnext
        obtain rfl := Option.some.inj hnext
        exact hg.curr chat hcurr
      · intro c hg
        have hid := hg.curr chat hcurr
        simpa [ViewModel.sendUserQuery, MainInstr.holds, Instr.holds] using hid
  | newChat _ => exact newChat_deletion h
  | switchChat _ hlisted =>
      refine h.start rfl rfl rfl rfl (fun c hg => hg.curr) ?_
        (.idle (by simp [isDeleting, ViewModel.switchChat, ViewModel.stopGeneration]))
      intro c hg
      have hid := hg.rows _ hlisted
      simpa [ViewModel.switchChat, ViewModel.stopGeneration, MainInstr.holds, Instr.holds] using hid
  | updateChat _ hcurr hsame =>
      refine h.start rfl rfl rfl rfl (fun c hg => hg.curr) ?_
        (.idle (by simp [isDeleting, ViewModel.updateChat, loadModel]))
      intro c hg
      have hid := hsame ▸ hg.curr _ hcurr
      simpa [ViewModel.updateChat, loadModel, MainInstr.holds, Instr.holds] using hid
  | @deleteChat chat old _ hcurr hsame =>
      have hissued : chat.id < a.db.nextChat := by
        by_contra hle
        exact (h.gone old.id (.inr (by omega))).curr old hcurr rfl
      refine h.start rfl rfl rfl rfl (fun c hg => hg.curr) ?_
        (.stopping (c := chat.id) (p := ViewModel.stopGeneration) rfl hissued
          (by simp [ViewModel.stopGeneration, MainInstr.stops]))
      intro c _
      simp [ViewModel.deleteChat, ViewModel.stopGeneration, MainInstr.holds]
  | stopGeneration _ _ | selectModel _ | deleteModel _ | changeModel _ | dismissModelList _
  | launchedEffect _ _ =>
      refine h.start rfl rfl rfl rfl (fun c hg => hg.curr) ?_ (.idle ?_)
      · intro c _
        simp [ViewModel.stopGeneration, ViewModel.selectModel, ViewModel.deleteModel,
          updateChatLLM, loadModel, MainInstr.holds, Instr.holds]
      · simp [isDeleting, ViewModel.stopGeneration, ViewModel.selectModel, ViewModel.deleteModel,
          updateChatLLM, loadModel]

/-- In every run in which a chat is deleted only after its workers have settled and apart
from imports, a deleted chat stays deleted. -/
theorem stays_deleted (db : Database) (smollai : SmollAI) (currChat : Option Chat)
    (hids : ∀ chat, chat ∈ db.chats ∨ currChat = some chat → chat.id < db.nextChat)
    (h : Transition.Reach step DeletesSettled (· = opened db smollai currChat) a) :
    StaysDeleted a := by
  have hinv : DeletionInv a := by
    apply h.invariant
    · rintro s rfl
      refine ⟨?_, by simp [opened], .idle rfl⟩
      rintro c (hc | hc)
      · cases hc
      · refine ⟨⟨?_, by simp [opened]⟩, by simp [opened], ?_⟩
        · exact fun chat hchat => ((hids chat (.inl hchat)).trans_le hc).ne
        · exact fun chat hcurr => ((hids chat (.inr hcurr)).trans_le hc).ne
    · exact fun s e s' hs hallowed hstep => step_deletion hs hallowed hstep
  intro c hc
  have hgone := hinv.gone c (.inl hc)
  exact ⟨hgone.rows, (hinv.deleted c hc).2.messages, hgone.curr⟩

def deletedAfterwards : List Event :=
  .sendUserQuery (.lit "hi") 1 :: mainSteps 4 ++
    workerSteps 0 [0, 0, 0, 72, 0, 0, 257, 0, 0, 0, 0, 0] ++
    .deleteChat (byteChat 1) :: mainSteps 7

theorem stays_deleted_afterwards :
    ∃ s, Transition.exec step byteScreen deletedAfterwards = some s ∧ s.deletedChats = [1] ∧
      StaysDeleted s := by
  have hrun : ∃ s, Transition.exec step byteScreen deletedAfterwards = some s ∧
      s.deletedChats = [1] := Transition.exec_of_decide (by decide +kernel)
  obtain ⟨s, hs, hdeleted⟩ := hrun
  refine ⟨s, hs, hdeleted, ?_⟩
  exact stays_deleted byteDatabase SmollAI.byteSmollAI (some (byteChat 1))
    (by
      rintro chat (hmem | hcurr)
      · revert chat
        decide
      · obtain rfl := Option.some.inj hcurr
        decide)
    (.of_exec (.start rfl) (by decide +kernel) hs)

/-- The chat is deleted while its cancelled worker still has its partial reply to store. -/
def deletedWhileGenerating : List Event :=
  .sendUserQuery (.lit "hi") 1 :: mainSteps 4 ++ workerSteps 0 [0, 0, 0, 72, 0, 0, 105] ++
    .deleteChat (byteChat 1) :: mainSteps 7 ++ workerSteps 0 [0, 0, 0, 0, 0]

/-- The chat is deleted while an import that has read it has not written it back. -/
def deletedWhileImporting : List Event :=
  .importModel (.lit "new") (.lit "new.gguf") :: List.replicate 2 (.importJob 0) ++
    .deleteChat (byteChat 1) :: mainSteps 5 ++ List.replicate 3 (.importJob 0)

theorem deleted_comes_back :
    (∃ s, Transition.exec step byteScreen deletedWhileGenerating = some s ∧ ¬StaysDeleted s) ∧
      ∃ s, Transition.exec step byteScreen deletedWhileImporting = some s ∧ ¬StaysDeleted s := by
  constructor
  · have hrun : ∃ s, Transition.exec step byteScreen deletedWhileGenerating = some s ∧
        ∃ c ∈ s.deletedChats, ∃ m ∈ s.db.messages, m.chatId = c :=
      Transition.exec_of_decide (by decide +kernel)
    obtain ⟨s, hs, c, hc, m, hm, hid⟩ := hrun
    exact ⟨s, hs, fun h => (h c hc).2.1 m hm hid⟩
  · have hrun : ∃ s, Transition.exec step byteScreen deletedWhileImporting = some s ∧
        ∃ c ∈ s.deletedChats, ∃ chat ∈ s.db.chats, chat.id = c :=
      Transition.exec_of_decide (by decide +kernel)
    obtain ⟨s, hs, c, hc, chat, hchat, hid⟩ := hrun
    exact ⟨s, hs, fun h => (h c hc).1 chat hchat hid⟩

end ViewModel

end SmollChat
