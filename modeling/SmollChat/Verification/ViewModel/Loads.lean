import SmollChat.Model.ByteEngine
import SmollChat.Verification.ViewModel.History

/-! # Load jobs

Every load job writes `nativePtr` and then adds to whatever it points to. The history is
replayed once as long as no job assigns the pointer while another one is still adding or
after a later load of another chat, and an import launches no load for a former chat after
the one for the current chat. -/

namespace SmollChat

def LoadPhase.hasAssigned : LoadPhase → Bool
  | .prompting | .reading | .adding _ | .finishing | .done => true
  | _ => false

def LoadPhase.hasAdded : LoadPhase → Bool
  | .adding [] | .finishing | .done => true
  | _ => false

/-- The instruction leads to a load of the chat, if it is the current one. -/
def MainInstr.leadsToLoad (chat : Chat) : MainInstr → Bool
  | .code .checkChat => true
  | .code (.getModel chat') | .code (.launchLoad chat' _) => chat' = chat
  | _ => false

/-- The instructions of the operations that may run beside load jobs here. -/
def MainInstr.loadOnly : MainInstr → Bool
  | .code _ | .setGenerating _ | .checkJob | .hideSelectModelList => true
  | _ => false

namespace ViewModel

open LLMInference (storedMessage)
open Database (entries)

variable {a a' : ViewModel}

/-! ## The property -/

/-- No load job is running, and none is about to be started for a changed chat. -/
structure LoadsQuiet (a : ViewModel) : Prop where
  loads : ∀ l ∈ a.loads, l.phase.hasAdded = true
  main : a.main = []
  effect : a.effectPending = false

instance (a : ViewModel) : Decidable (LoadsQuiet a) :=
  decidable_of_iff ((∀ l ∈ a.loads, l.phase.hasAdded = true) ∧ a.main = [] ∧
    a.effectPending = false) ⟨fun h => ⟨h.1, h.2.1, h.2.2⟩, fun h => ⟨h.loads, h.main, h.effect⟩⟩

def Replayed (a : ViewModel) : Prop :=
  ∀ chat, a.currChat = some chat → a.smollai.messages = some (a.db.history chat)

/-- Runs of load jobs and of the operations that start them: every native load succeeds,
and the main thread finds the model of the current chat. -/
def LoadScenario (a : ViewModel) : Event → Prop
  | .sendUserQuery _ _ | .deleteChat _ | .deleteModel _ | .loadThrows _ => False
  | .main =>
      match a.main with
      | .code .checkChat :: _ => (a.currChat.all fun chat => chat.llmModelId ≠ -1) = true
      | .code (.getModel chat) :: _ => (a.db.getModel chat.llmModelId).isSome = true
      | _ => True
  | .load i r =>
      match a.loads[i]? with
      | some l => l.phase = .loading → LLMInference.loads
          ⟨l.model.path, l.chat.minP, l.chat.temperature, true⟩ r = true
      | none => True
  | _ => True

def WillLoad (code : List MainInstr) (chat : Chat) : Prop :=
  ∃ i ∈ code, i.leadsToLoad chat = true

instance (code : List MainInstr) (chat : Chat) : Decidable (WillLoad code chat) := by
  unfold WillLoad
  infer_instance

/-- A job assigns `nativePtr` while no other one is between its assignment and its last add,
and not over a later load of another chat. An import launches a load for the current chat,
or before the one for the current chat. -/
def LoadsSeparate (a : ViewModel) : Event → Prop
  | .load i _ =>
      match a.loads[i]? with
      | some ⟨chat, _, .assigning _⟩ => ∀ p ∈ a.loads.zipIdx, p.2 ≠ i →
          p.1.phase.hasAssigned = true → p.1.phase.hasAdded = true ∧ (i < p.2 → p.1.chat = chat)
      | _ => True
  | .importJob i =>
      match a.imports[i]? with
      | some (.running (.launchLoad chat _ :: _)) =>
          a.effectPending = true ∨ ∀ curr ∈ a.currChat, curr = chat ∨ WillLoad a.main curr
      | _ => True
  | _ => True

instance (a : ViewModel) (e : Event) : Decidable (LoadScenario a e) := by
  rcases e with _ | _ <;> dsimp only [LoadScenario]
  case main =>
    rcases a.main with _ | ⟨k | _, rest⟩
    case cons.code => rcases k with _ | _ <;> infer_instance
    all_goals infer_instance
  case load i r =>
    rcases a.loads[i]? with _ | _ <;> infer_instance
  all_goals infer_instance

instance (a : ViewModel) (e : Event) : Decidable (LoadsSeparate a e) := by
  rcases e with _ | _ <;> dsimp only [LoadsSeparate]
  case load i _ =>
    rcases a.loads[i]? with _ | ⟨chat, model, phase⟩
    case some => rcases phase with _ | _ <;> infer_instance
    all_goals infer_instance
  case importJob i =>
    rcases a.imports[i]? with _ | _ | _ | ⟨k, code⟩
    case some.running.cons => rcases k with _ | _ <;> infer_instance
    all_goals infer_instance
  all_goals infer_instance

/-! ## The invariant -/

/-- The instance a job has loaded and not made current yet. -/
structure Fresh (smollai : SmollAI) (ptr : ℕ) : Prop where
  other : ptr ≠ smollai.nativePtr
  loaded : ∃ E, smollai.deref ptr = some ⟨some E, LLMInference.loaded E true, false⟩

/-- What is in the current instance's list when its job has reached a phase. -/
def Progress (a : ViewModel) (l : LoadJob) : Prop :=
  ∃ E n, a.smollai.native = some (E, n) ∧
    match l.phase with
    | .prompting => n.messages = []
    | .reading => n.messages = storedMessage l.chat.systemPrompt (.lit "system")
    | .adding rest => n.messages ++ entries rest = a.db.history l.chat
    | _ => n.messages = a.db.history l.chat

def LastLoad (loads : List LoadJob) (chat : Chat) : Prop :=
  ∃ (k : ℕ) (l : LoadJob), k + 1 = loads.length ∧ loads[k]? = some l ∧ l.chat = chat

/-- The `m`-th job is the last one to have assigned `nativePtr`. The others that have
assigned it are through with their adds, and the later ones loaded the same chat. -/
structure Replaying (a : ViewModel) (m : ℕ) (l : LoadJob) : Prop where
  here : a.loads[m]? = some l
  assigned : l.phase.hasAssigned = true
  progress : Progress a l
  others : ∀ (j : ℕ) l', a.loads[j]? = some l' → j ≠ m → l'.phase.hasAssigned = true →
    l'.phase.hasAdded = true ∧ (m < j → l'.chat = l.chat)

structure LoadInv (a : ViewModel) : Prop where
  bound : a.smollai.nativePtr ≤ a.smollai.objects.length
  fresh : ∀ (k : ℕ) l ptr, a.loads[k]? = some l → l.phase = .assigning ptr →
    Fresh a.smollai ptr
  distinct : ∀ (j k : ℕ) l l' ptr, a.loads[j]? = some l → a.loads[k]? = some l' →
    l.phase = .assigning ptr → l'.phase = .assigning ptr → j = k
  replay : ∀ (k : ℕ) l, a.loads[k]? = some l → l.phase.hasAssigned = true →
    ∃ m v, Replaying a m v
  target : ∀ chat, a.currChat = some chat →
    a.effectPending = true ∨ WillLoad a.main chat ∨ LastLoad a.loads chat
  current : ∀ chat, .code (.getModel chat) ∈ a.main ∨ (∃ m, .code (.launchLoad chat m) ∈ a.main) →
    a.effectPending = true ∨ a.currChat = some chat
  main : ∀ i ∈ a.main, i.loadOnly = true
  workers : a.workers = []

theorem hasAssigned_of_hasAdded {phase : LoadPhase} (h : phase.hasAdded = true) :
    phase.hasAssigned = true := by
  unfold LoadPhase.hasAdded at h
  split at h
  · rfl
  · rfl
  · rfl
  · cases h

/-- A job that has made all its adds leaves the whole history. -/
theorem Progress.added {l : LoadJob} (h : Progress a l) (hadded : l.phase.hasAdded = true) :
    a.smollai.messages = some (a.db.history l.chat) := by
  obtain ⟨E, n, hnative, hmessages⟩ := h
  have hn : n.messages = a.db.history l.chat := by
    unfold LoadPhase.hasAdded at hadded
    split at hadded
    · rename_i hphase
      simpa [hphase] using hmessages
    · rename_i hphase
      simpa [hphase] using hmessages
    · rename_i hphase
      simpa [hphase] using hmessages
    · cases hadded
  simp [SmollAI.messages, hnative, hn]

theorem LoadInv.replayed (h : LoadInv a) (hquiet : LoadsQuiet a) : Replayed a := by
  intro chat hcurr
  rcases h.target chat hcurr with hpending | hwill | ⟨k, l, hlast, hl, rfl⟩
  · rw [hquiet.effect] at hpending
    cases hpending
  · simp [WillLoad, hquiet.main] at hwill
  · have hadded : ∀ (j : ℕ) v, a.loads[j]? = some v → v.phase.hasAdded = true :=
      fun j v hv => hquiet.loads v (List.mem_of_getElem? hv)
    have hassigned := hasAssigned_of_hasAdded (hadded k l hl)
    obtain ⟨m, v, hreplaying⟩ := h.replay k l hl hassigned
    have hmessages := hreplaying.progress.added (hadded m v hreplaying.here)
    by_cases hkm : k = m
    · subst hkm
      obtain rfl := Option.some.inj (hl.symm.trans hreplaying.here)
      exact hmessages
    · have hlt := (List.getElem?_eq_some_iff.mp hreplaying.here).1
      rw [(hreplaying.others k l hl hkm hassigned).2 (by omega)]
      exact hmessages

theorem opened_loads (db : Database) (currChat : Option Chat) :
    LoadInv (opened db .new currChat) := by
  have hnone : ∀ (k : ℕ) (l : LoadJob), ¬(opened db .new currChat).loads[k]? = some l := by
    simp [opened]
  refine ⟨Nat.le_refl 0, ?_, ?_, ?_, fun _ _ => .inl rfl, fun _ _ => .inl rfl, by simp [opened],
    rfl⟩
  · exact fun k l _ hl => absurd hl (hnone k l)
  · exact fun j _ l _ _ hl => absurd hl (hnone j l)
  · exact fun k l hl => absurd hl (hnone k l)

/-! ## Steps of the jobs -/

theorem Progress.congr {l : LoadJob} (h : Progress a l)
    (hnative : a'.smollai.native = a.smollai.native)
    (hmessages : a'.db.messages = a.db.messages) : Progress a' l := by
  have hhistory : a'.db.history l.chat = a.db.history l.chat := by
    simp [Database.history_eq, Database.getMessagesForModel, hmessages]
  unfold Progress
  rw [hnative, hhistory]
  exact h

theorem LastLoad.setLoad {i : ℕ} {l l' : LoadJob} {chat : Chat} (h : LastLoad a.loads chat)
    (hl : a.loads[i]? = some l) (hchat : l'.chat = l.chat) :
    LastLoad (a.setLoad i l').loads chat := by
  obtain ⟨k, v, hk, hv, rfl⟩ := h
  refine ⟨k, if k = i then l' else v, by simpa [ViewModel.setLoad] using hk, ?_, ?_⟩
  · rw [setLoad_getElem? hl]
    split
    · rfl
    · exact hv
  · split
    · rename_i hki
      subst hki
      rw [hl] at hv
      exact hchat.trans (congrArg _ (Option.some.inj hv))
    · rfl

theorem LoadInv.target_setLoad (h : LoadInv a) {i : ℕ} {l l' : LoadJob}
    (hl : a.loads[i]? = some l) (hchat : l'.chat = l.chat) :
    ∀ chat, a.currChat = some chat →
      a.effectPending = true ∨ WillLoad a.main chat ∨ LastLoad (a.setLoad i l').loads chat := by
  intro chat hcurr
  rcases h.target chat hcurr with hpending | hwill | hlast
  · exact .inl hpending
  · exact .inr (.inl hwill)
  · exact .inr (.inr (hlast.setLoad hl hchat))

/-- The native load of a job: its instance is new, and nobody else's. -/
theorem LoadInv.load (h : LoadInv a) {i : ℕ} {l : LoadJob} (hl : a.loads[i]? = some l)
    (hphase : l.phase = .loading) {o : NativeObject} {E : Engine}
    (ho : o = ⟨some E, LLMInference.loaded E true, false⟩) :
    LoadInv { a.setLoad i { l with phase := .assigning (a.smollai.objects.length + 1) } with
      smollai := { a.smollai with objects := a.smollai.objects ++ [o] } } := by
  have hold : ∀ (j : ℕ) l' ptr, a.loads[j]? = some l' → l'.phase = .assigning ptr →
      ptr ≤ a.smollai.objects.length := by
    intro j l' ptr hj hphase'
    obtain ⟨E', hE'⟩ := (h.fresh j l' ptr hj hphase').loaded
    exact (SmollAI.deref_le hE').2
  refine ⟨?_, ?_, ?_, ?_, h.target_setLoad hl rfl, h.current, h.main, h.workers⟩
  · exact h.bound.trans (by simp)
  · intro k v ptr hv hassigning
    rw [setLoad_getElem? hl] at hv
    split at hv
    · obtain rfl := Option.some.inj hv
      cases hassigning
      refine ⟨(Nat.lt_succ_of_le h.bound).ne', E, ?_⟩
      rw [SmollAI.deref_new rfl, ho]
    · obtain ⟨hother, E', hE'⟩ := h.fresh k v ptr hv hassigning
      refine ⟨hother, E', ?_⟩
      rw [SmollAI.deref_append (hold k v ptr hv hassigning) rfl]
      exact hE'
  · intro j k v v' ptr hj hk hv hv'
    rw [setLoad_getElem? hl] at hj hk
    split at hj <;> split at hk
    · omega
    · obtain rfl := Option.some.inj hj
      cases hv
      have := hold k v' _ hk hv'
      omega
    · obtain rfl := Option.some.inj hk
      cases hv'
      have := hold j v _ hj hv
      omega
    · exact h.distinct j k v v' ptr hj hk hv hv'
  · intro k v hk hassigned
    rw [setLoad_getElem? hl] at hk
    split at hk
    · obtain rfl := Option.some.inj hk
      cases hassigned
    obtain ⟨m, u, hreplaying⟩ := h.replay k v hk hassigned
    have hmi : m ≠ i := by
      rintro rfl
      obtain rfl := Option.some.inj (hl.symm.trans hreplaying.here)
      simpa [hphase, LoadPhase.hasAssigned] using hreplaying.assigned
    refine ⟨m, u, ?_, hreplaying.assigned, hreplaying.progress.congr ?_ rfl, ?_⟩
    · rw [setLoad_getElem? hl, if_neg hmi]
      exact hreplaying.here
    · unfold SmollAI.native
      rw [SmollAI.deref_append h.bound rfl]
    · intro j l' hj hne hassigned'
      rw [setLoad_getElem? hl] at hj
      split at hj
      · obtain rfl := Option.some.inj hj
        cases hassigned'
      · exact hreplaying.others j l' hj hne hassigned'

/-- A job's instance becomes the current one, while no other job is adding. -/
theorem LoadInv.assign (h : LoadInv a) {i ptr : ℕ} {l : LoadJob} (hl : a.loads[i]? = some l)
    (hphase : l.phase = .assigning ptr)
    (hothers : ∀ (j : ℕ) l', a.loads[j]? = some l' → j ≠ i → l'.phase.hasAssigned = true →
      l'.phase.hasAdded = true ∧ (i < j → l'.chat = l.chat)) :
    LoadInv { a.setLoad i { l with phase := .prompting } with
      smollai := { a.smollai with nativePtr := ptr } } := by
  obtain ⟨-, E, hE⟩ := h.fresh i l ptr hl hphase
  have hderef : ∀ p, ({ a.smollai with nativePtr := ptr } : SmollAI).deref p = a.smollai.deref p :=
    fun p => rfl
  refine ⟨(SmollAI.deref_le hE).2, ?_, ?_, ?_, h.target_setLoad hl rfl, h.current, h.main,
    h.workers⟩
  · intro k v p hk hv
    rw [setLoad_getElem? hl] at hk
    split at hk
    · obtain rfl := Option.some.inj hk
      cases hv
    rename_i hki
    obtain ⟨-, hloaded⟩ := h.fresh k v p hk hv
    refine ⟨?_, hloaded⟩
    rintro rfl
    exact hki (h.distinct k i v l _ hk hl hv hphase)
  · intro j k v v' p hj hk hv hv'
    rw [setLoad_getElem? hl] at hj hk
    split at hj
    · obtain rfl := Option.some.inj hj
      cases hv
    split at hk
    · obtain rfl := Option.some.inj hk
      cases hv'
    exact h.distinct j k v v' p hj hk hv hv'
  · intro _ _ _ _
    refine ⟨i, { l with phase := .prompting }, ?_, rfl, ?_, ?_⟩
    · rw [setLoad_getElem? hl, if_pos rfl]
    · exact ⟨E, LLMInference.loaded E true, by simp [SmollAI.native, hderef, hE], rfl⟩
    · intro j l' hj hne
      rw [setLoad_getElem? hl, if_neg hne] at hj
      exact hothers j l' hj hne

/-- What a job does to the objects between its assignment and its end: it adds to the
current instance, and nothing once it has made all its adds. -/
structure AddsOnly (smollai smollai' : SmollAI) (added : Bool) : Prop where
  nativePtr : smollai'.nativePtr = smollai.nativePtr
  length : smollai'.objects.length = smollai.objects.length
  deref : ∀ p, p ≠ smollai.nativePtr → smollai'.deref p = smollai.deref p
  same : added = true → smollai' = smollai

theorem LoadInv.advance (h : LoadInv a) {i : ℕ} {l l' : LoadJob} (hl : a.loads[i]? = some l)
    (hloads : a'.loads = (a.setLoad i l').loads) (hchat : l'.chat = l.chat)
    (hfrom : l.phase.hasAssigned = true) (hto : l'.phase.hasAssigned = true)
    (hadded : l.phase.hasAdded = true → l'.phase.hasAdded = true)
    (hsmollai : AddsOnly a.smollai a'.smollai l.phase.hasAdded)
    (hprogress : Progress a l → Progress a' l') (hdb : a'.db = a.db)
    (hmain : a'.main = a.main) (hcurr : a'.currChat = a.currChat)
    (heffect : a'.effectPending = a.effectPending) (hworkers : a'.workers = a.workers) :
    LoadInv a' := by
  refine ⟨?_, ?_, ?_, ?_, ?_, ?_, hmain ▸ h.main, hworkers ▸ h.workers⟩
  · rw [hsmollai.nativePtr, hsmollai.length]
    exact h.bound
  · intro k v p hk hv
    rw [hloads, setLoad_getElem? hl] at hk
    split at hk
    · obtain rfl := Option.some.inj hk
      simp [hv, LoadPhase.hasAssigned] at hto
    obtain ⟨hother, hloaded⟩ := h.fresh k v p hk hv
    refine ⟨hsmollai.nativePtr ▸ hother, ?_⟩
    rw [hsmollai.deref p hother]
    exact hloaded
  · intro j k v v' p hj hk hv hv'
    rw [hloads, setLoad_getElem? hl] at hj hk
    split at hj
    · obtain rfl := Option.some.inj hj
      simp [hv, LoadPhase.hasAssigned] at hto
    split at hk
    · obtain rfl := Option.some.inj hk
      simp [hv', LoadPhase.hasAssigned] at hto
    exact h.distinct j k v v' p hj hk hv hv'
  · intro _ _ _ _
    obtain ⟨m, v, hreplaying⟩ := h.replay i l hl hfrom
    by_cases him : i = m
    · subst him
      obtain rfl := Option.some.inj (hl.symm.trans hreplaying.here)
      refine ⟨i, l', ?_, hto, hprogress hreplaying.progress, ?_⟩
      · rw [hloads, setLoad_getElem? hl, if_pos rfl]
      · intro j u hj hne hassigned
        rw [hloads, setLoad_getElem? hl, if_neg hne] at hj
        rw [hchat]
        exact hreplaying.others j u hj hne hassigned
    · -- only the last step of a job that is through with its adds is left
      obtain ⟨hthrough, hlater⟩ := hreplaying.others i l hl him hfrom
      refine ⟨m, v, ?_, hreplaying.assigned, ?_, ?_⟩
      · rw [hloads, setLoad_getElem? hl, if_neg (Ne.symm him)]
        exact hreplaying.here
      · exact hreplaying.progress.congr (by rw [hsmollai.same hthrough]) (by rw [hdb])
      · intro j u hj hne hassigned
        rw [hloads, setLoad_getElem? hl] at hj
        split at hj
        · rename_i hji
          obtain rfl := Option.some.inj hj
          subst hji
          exact ⟨hadded hthrough, fun hlt => hchat.trans (hlater hlt)⟩
        · exact hreplaying.others j u hj hne hassigned
  · rw [hcurr, heffect, hmain, hloads]
    exact h.target_setLoad hl hchat
  · rw [hcurr, heffect, hmain]
    exact h.current

theorem AddsOnly.refl (smollai : SmollAI) (added : Bool) : AddsOnly smollai smollai added :=
  ⟨rfl, rfl, fun _ _ => rfl, fun _ => rfl⟩

theorem AddsOnly.add (smollai : SmollAI) (message role : CString) :
    AddsOnly smollai (smollai.addChatMessage message role) false :=
  ⟨rfl, SmollAI.invoke_length _ _, fun _ hp => SmollAI.invokeNative_deref hp _ _, by simp⟩

theorem stepLoad_inv (h : LoadInv a) {i : ℕ} {l : LoadJob} {r : LLMInference.LoadAnswer}
    (hl : a.loads[i]? = some l) (hscenario : LoadScenario a (.load i r))
    (hseparate : LoadsSeparate a (.load i r)) (hstep : a.stepLoad i l r = some a') :
    LoadInv a' := by
  obtain ⟨chat, model, phase⟩ := l
  unfold stepLoad at hstep
  cases phase with
  | loading =>
      simp only [LoadScenario, hl, true_imp_iff] at hscenario
      obtain ⟨E, hload⟩ := SmollAI.loadModel_loads (s := a.smollai) hscenario
      simp only [hload] at hstep
      cases hstep
      exact h.load hl rfl rfl
  | assigning ptr =>
      simp only [LoadsSeparate, hl] at hseparate
      cases hstep
      refine h.assign hl rfl fun j l' hj => ?_
      exact hseparate (l', j) (List.mem_zipIdx_iff_getElem?.mpr hj)
  | prompting =>
      cases hstep
      refine h.advance hl rfl rfl rfl rfl (by simp [LoadPhase.hasAdded]) ?_ ?_ rfl rfl rfl rfl rfl
      · simp only
        split
        · exact .refl _ _
        · exact .add _ _ _
      · rintro ⟨E, n, hnative, hmessages⟩
        simp only at hmessages
        by_cases hempty : chat.systemPrompt.isEmpty = true
        · refine ⟨E, n, by simp [hempty, hnative], ?_⟩
          simp [hmessages, storedMessage, hempty]
        · refine ⟨E, _, by
            simp only [hempty, Bool.false_eq_true, if_false]
            exact SmollAI.addChatMessage_native hnative _ _, ?_⟩
          simp [hmessages]
  | reading =>
      cases hstep
      refine h.advance hl rfl rfl rfl rfl (by simp [LoadPhase.hasAdded]) (.refl _ _) ?_ rfl rfl rfl
        rfl rfl
      rintro ⟨E, n, hnative, hmessages⟩
      refine ⟨E, n, hnative, ?_⟩
      simp only at hmessages
      simp only [hmessages, Database.history_eq]
      rfl
  | adding rest =>
      cases rest with
      | nil =>
          cases hstep
          refine h.advance hl rfl rfl rfl rfl (fun _ => rfl) (.refl _ _) ?_ rfl rfl rfl rfl rfl
          rintro ⟨E, n, hnative, hmessages⟩
          refine ⟨E, n, hnative, ?_⟩
          change n.messages = a.db.history chat
          simpa using hmessages
      | cons m rest =>
          cases hstep
          refine h.advance hl rfl rfl rfl rfl (by simp [LoadPhase.hasAdded]) ?_ ?_ rfl rfl rfl rfl
            rfl
          · simp only [addStored]
            split
            · exact .add _ _ _
            · exact .add _ _ _
          · rintro ⟨E, n, hnative, hmessages⟩
            refine ⟨E, _, addStored_native hnative m, ?_⟩
            change n.messages ++ storedMessage m.message m.role ++ entries rest = a.db.history chat
            rw [List.append_assoc]
            exact hmessages
  | finishing =>
      simp only at hstep
      split at hstep
      · cases hstep
        refine h.advance hl rfl rfl rfl rfl (fun _ => rfl) (.refl _ _) ?_ rfl rfl rfl rfl rfl
        exact id
      · cases hstep
  | done | failed => cases hstep

/-! ## Steps of the code -/

/-- The jobs and the current instance stay; no job is added but one that has not begun. -/
theorem LoadInv.frame (h : LoadInv a) (hsmollai : a'.smollai = a.smollai)
    (hmessages : a'.db.messages = a.db.messages)
    (hloads : a'.loads = a.loads ∨ ∃ chat model, a'.loads = a.loads ++ [⟨chat, model, .loading⟩])
    (hworkers : a'.workers = a.workers)
    (htarget : ∀ chat, a'.currChat = some chat →
      a'.effectPending = true ∨ WillLoad a'.main chat ∨ LastLoad a'.loads chat)
    (hcurrent : ∀ chat, .code (.getModel chat) ∈ a'.main ∨
      (∃ m, .code (.launchLoad chat m) ∈ a'.main) →
      a'.effectPending = true ∨ a'.currChat = some chat)
    (hmain : ∀ i ∈ a'.main, i.loadOnly = true) : LoadInv a' := by
  have hold : ∀ (k : ℕ) l, a'.loads[k]? = some l → l.phase ≠ .loading → a.loads[k]? = some l := by
    intro k l hl hphase
    rcases hloads with heq | ⟨chat, model, heq⟩
    · rwa [heq] at hl
    · rw [heq, List.getElem?_append] at hl
      split at hl
      · exact hl
      · have hmem := List.mem_of_getElem? hl
        obtain rfl := List.mem_singleton.mp hmem
        exact absurd rfl hphase
  have hkeep : ∀ (k : ℕ) l, a.loads[k]? = some l → a'.loads[k]? = some l := by
    intro k l hl
    rcases hloads with heq | ⟨chat, model, heq⟩
    · rwa [heq]
    · rw [heq, List.getElem?_append_left (List.getElem?_eq_some_iff.mp hl).1, hl]
  have hassigned : ∀ l : LoadJob, l.phase.hasAssigned = true → l.phase ≠ .loading := by
    rintro l hassigned hphase
    simp [hphase, LoadPhase.hasAssigned] at hassigned
  refine ⟨hsmollai ▸ h.bound, ?_, ?_, ?_, htarget, hcurrent, hmain, hworkers ▸ h.workers⟩
  · intro k l ptr hl hphase
    rw [hsmollai]
    exact h.fresh k l ptr (hold k l hl (by simp [hphase])) hphase
  · intro j k l l' ptr hj hk hphase hphase'
    exact h.distinct j k l l' ptr (hold j l hj (by simp [hphase]))
      (hold k l' hk (by simp [hphase'])) hphase hphase'
  · intro k l hl hl'
    obtain ⟨m, v, hreplaying⟩ := h.replay k l (hold k l hl (hassigned l hl')) hl'
    refine ⟨m, v, hkeep m v hreplaying.here, hreplaying.assigned,
      hreplaying.progress.congr (by rw [hsmollai]) hmessages, ?_⟩
    intro j u hj hne hu
    exact hreplaying.others j u (hold j u hj (hassigned u hu)) hne hu

/-- An instruction changes the current chat only together with a pending effect. -/
theorem exec_target {k : Instr} {code : List Instr} (h : a.exec k = some (a', code)) :
    (a'.effectPending = true ∨ (a'.currChat = a.currChat ∧ a'.effectPending = a.effectPending)) ∧
      a'.db.messages = a.db.messages ∧ a'.workers = a.workers ∧ a'.smollai = a.smollai ∧
      (a'.loads = a.loads ∨ ∃ chat model, k = .launchLoad chat model ∧
        a'.loads = a.loads ++ [⟨chat, model, .loading⟩]) := by
  cases exec_cases h with
  | @setCurrChat chat =>
      refine ⟨?_, rfl, rfl, rfl, .inl rfl⟩
      by_cases hcurr : a.currChat = chat
      · exact .inr ⟨hcurr.symm, by simp [ViewModel.setCurrChat, hcurr]⟩
      · exact .inl (by simp [ViewModel.setCurrChat, hcurr])
  | launchLoad => exact ⟨.inr ⟨rfl, rfl⟩, rfl, rfl, rfl, .inr ⟨_, _, rfl, rfl⟩⟩
  | _ => exact ⟨.inr ⟨rfl, rfl⟩, rfl, rfl, rfl, .inl rfl⟩

theorem LastLoad.launched {loads : List LoadJob} (chat : Chat) (model : LLMModel) :
    LastLoad (loads ++ [⟨chat, model, .loading⟩]) chat :=
  ⟨loads.length, ⟨chat, model, .loading⟩, by simp, by simp, rfl⟩

/-- An instruction of an import keeps the invariant if a load is launched for the current
chat or before the one for the current chat. -/
theorem importRuns_loads (h : LoadInv a) {k : Instr} {code : List Instr}
    (hexec : a.exec k = some (a', code))
    (hlaunch : ∀ chat model, k = .launchLoad chat model →
      a.effectPending = true ∨ ∀ curr ∈ a.currChat, curr = chat ∨ WillLoad a.main curr) :
    LoadInv a' := by
  obtain ⟨hcurr, hmessages, hworkers, hsmollai, hloads⟩ := exec_target hexec
  have hmain : a'.main = a.main := (exec_sameGeneration hexec).2.1
  refine h.frame hsmollai hmessages
    (hloads.imp_right fun ⟨chat, model, _, heq⟩ => ⟨chat, model, heq⟩) hworkers ?_ ?_
    (hmain ▸ h.main)
  · intro chat hchat
    rcases hcurr with hpending | ⟨hsame, heffect⟩
    · exact .inl hpending
    rw [hsame] at hchat
    rw [heffect, hmain]
    rcases h.target chat hchat with hpending | hwill | hlast
    · exact .inl hpending
    · exact .inr (.inl hwill)
    rcases hloads with heq | ⟨chat', model, rfl, heq⟩
    · exact .inr (.inr (heq ▸ hlast))
    rcases hlaunch chat' model rfl with hpending | hnow
    · exact .inl hpending
    rcases hnow chat hchat with rfl | hwill
    · exact .inr (.inr (heq ▸ LastLoad.launched chat model))
    · exact .inr (.inl hwill)
  · intro chat hchat
    rw [hmain] at hchat
    rcases hcurr with hpending | ⟨hsame, heffect⟩
    · exact .inl hpending
    · rw [hsame, heffect]
      exact h.current chat hchat

/-- The main thread's load comes one instruction closer, or is launched. -/
theorem WillLoad.step {k : Instr} {code : List Instr} {rest : List MainInstr} {chat : Chat}
    (h : WillLoad (.code k :: rest) chat) (hcurr : a.currChat = some chat)
    (hcheck : k = .checkChat → chat.llmModelId ≠ -1)
    (hmodel : k = .getModel chat → (a.db.getModel chat.llmModelId).isSome = true)
    (hexec : a.exec k = some (a', code)) :
    WillLoad (code.map .code ++ rest) chat ∨ LastLoad a'.loads chat := by
  obtain ⟨i, hi, hleads⟩ := h
  rcases List.mem_cons.mp hi with rfl | hi
  · cases exec_cases hexec with
    | noChat hnone => cases hnone.symm.trans hcurr
    | unset hsome hunset =>
        obtain rfl := Option.some.inj (hsome.symm.trans hcurr)
        exact absurd hunset (hcheck rfl)
    | @checkChat chat' hsome =>
        obtain rfl := Option.some.inj (hsome.symm.trans hcurr)
        exact .inl ⟨.code (.getModel chat'), by simp, by simp [MainInstr.leadsToLoad]⟩
    | @noModel chat' hnone =>
        obtain rfl : chat' = chat := by simpa [MainInstr.leadsToLoad] using hleads
        simp [hnone] at hmodel
    | @getModel chat' m hsome =>
        exact .inl ⟨.code (.launchLoad chat' m), by simp, hleads⟩
    | @launchLoad chat' m =>
        obtain rfl : chat' = chat := by simpa [MainInstr.leadsToLoad] using hleads
        exact .inr (LastLoad.launched chat' m)
    | _ => cases hleads
  · exact .inl ⟨i, List.mem_append_right _ hi, hleads⟩

/-- An instruction fetches a model only for the current chat, and launches a load only for a
chat whose model it has fetched. -/
theorem exec_current {k : Instr} {code : List Instr} (hexec : a.exec k = some (a', code))
    {chat : Chat} (hcode : .getModel chat ∈ code ∨ ∃ m, .launchLoad chat m ∈ code) :
    a.currChat = some chat ∨ k = .getModel chat := by
  cases exec_cases hexec with
  | checkChat hsome _ =>
      obtain rfl : chat = _ := by simpa using hcode
      exact .inl hsome
  | getModel hmodel =>
      obtain rfl : chat = _ := by simpa using hcode
      exact .inr rfl
  | _ => simp at hcode

/-- An instruction of `updateChatLLM` or `loadModel` on the main thread. -/
theorem mainCode_loads (h : LoadInv a) {k : Instr} {code : List Instr} {rest : List MainInstr}
    (hmain : a.main = .code k :: rest) (hscenario : LoadScenario a .main)
    (hexec : a.exec k = some (a', code)) :
    LoadInv { a' with main := code.map .code ++ rest } := by
  obtain ⟨hcurr, hmessages, hworkers, hsmollai, hloads⟩ := exec_target hexec
  simp only [LoadScenario, hmain] at hscenario
  have hhead : .code k ∈ a.main := hmain ▸ List.mem_cons_self
  have htail : ∀ i ∈ rest, i ∈ a.main := fun i hi => hmain ▸ List.mem_cons_of_mem _ hi
  refine h.frame hsmollai hmessages
    (hloads.imp_right fun ⟨chat, model, _, heq⟩ => ⟨chat, model, heq⟩) hworkers ?_ ?_ ?_
  · intro chat hchat
    rcases hcurr with hpending | ⟨hsame, heffect⟩
    · exact .inl hpending
    change a'.currChat = some chat at hchat
    rw [hsame] at hchat
    rcases h.target chat hchat with hpending | hwill | hlast
    · exact .inl (heffect.trans hpending)
    · have hnext : WillLoad (code.map .code ++ rest) chat ∨ LastLoad a'.loads chat := by
        refine WillLoad.step (hmain ▸ hwill) hchat ?_ ?_ hexec
        · rintro rfl
          simpa [hchat] using hscenario
        · rintro rfl
          simpa using hscenario
      exact .inr hnext
    · rcases hloads with heq | ⟨chat', model, rfl, heq⟩
      · exact .inr (.inr (heq ▸ hlast))
      · rcases h.current chat' (.inr ⟨model, hhead⟩) with hpending | hchat'
        · exact .inl (heffect.trans hpending)
        · obtain rfl := Option.some.inj (hchat.symm.trans hchat')
          exact .inr (.inr (heq ▸ LastLoad.launched chat model))
  · intro chat hchat
    rcases hcurr with hpending | ⟨hsame, heffect⟩
    · exact .inl hpending
    change a'.effectPending = true ∨ a'.currChat = some chat
    rw [hsame, heffect]
    have hnew : (.getModel chat ∈ code ∨ ∃ m, .launchLoad chat m ∈ code) →
        a.effectPending = true ∨ a.currChat = some chat := by
      intro hcode
      rcases exec_current hexec hcode with hsome | rfl
      · exact .inr hsome
      · exact h.current chat (.inl hhead)
    rcases hchat with hmem | ⟨m, hmem⟩
    · rcases List.mem_append.mp hmem with hmem | hmem
      · obtain ⟨k', hk', heq⟩ := List.mem_map.mp hmem
        cases heq
        exact hnew (.inl hk')
      · exact h.current chat (.inl (htail _ hmem))
    · rcases List.mem_append.mp hmem with hmem | hmem
      · obtain ⟨k', hk', heq⟩ := List.mem_map.mp hmem
        cases heq
        exact hnew (.inr ⟨m, hk'⟩)
      · exact h.current chat (.inr ⟨m, htail _ hmem⟩)
  · intro i hi
    rcases List.mem_append.mp hi with hi | hi
    · obtain ⟨k', -, rfl⟩ := List.mem_map.mp hi
      rfl
    · exact h.main i (htail i hi)

/-- An instruction that is no code of a load is taken off the main thread. -/
theorem LoadInv.skip (h : LoadInv a) {i : MainInstr} {rest : List MainInstr}
    (hmain : a.main = i :: rest) (hcode : ∀ k, i ≠ .code k) (hmain' : a'.main = rest)
    (hdb : a'.db = a.db) (hsmollai : a'.smollai = a.smollai) (hloads : a'.loads = a.loads)
    (hworkers : a'.workers = a.workers) (hcurr : a'.currChat = a.currChat)
    (heffect : a'.effectPending = a.effectPending) : LoadInv a' := by
  have hmem : ∀ k, .code k ∈ a.main ↔ .code k ∈ a'.main := by
    intro k
    rw [hmain, hmain', List.mem_cons]
    exact or_iff_right (hcode k).symm
  have hleads : ∀ chat, WillLoad a.main chat → WillLoad a'.main chat := by
    rintro chat ⟨j, hj, hleads⟩
    cases j with
    | code k => exact ⟨.code k, (hmem k).mp hj, hleads⟩
    | _ => cases hleads
  refine h.frame hsmollai (by rw [hdb]) (.inl hloads) hworkers ?_ ?_ ?_
  · intro chat hchat
    rw [hcurr] at hchat
    rw [heffect, hloads]
    exact (h.target chat hchat).imp_right (Or.imp_left (hleads chat))
  · intro chat
    simp only [hcurr, heffect, ← hmem]
    exact h.current chat
  · intro j hj
    exact h.main j (hmain ▸ List.mem_cons_of_mem _ (hmain' ▸ hj))

theorem execMain_loads (h : LoadInv a) {i : MainInstr} {rest code : List MainInstr}
    (hmain : a.main = i :: rest) (hscenario : LoadScenario a .main)
    (hexec : a.execMain i = some (a', code)) : LoadInv { a' with main := code ++ rest } := by
  have honly := h.main i (hmain ▸ List.mem_cons_self)
  cases execMain_cases hexec with
  | code hk => exact mainCode_loads h hmain hscenario hk
  | setGenerating | noJob | hideSelectModelList =>
      exact h.skip hmain (by simp) rfl rfl rfl rfl rfl rfl rfl
  | checkJob _ hw => simp [h.workers] at hw
  | _ => cases honly

theorem LoadInv.start (h : LoadInv a) (hidle : a.main = []) {code : List MainInstr}
    (hmain : a'.main = code) (honly : ∀ i ∈ code, i.loadOnly = true)
    (hcode : ∀ chat, .code (.getModel chat) ∉ code ∧ ∀ m, .code (.launchLoad chat m) ∉ code)
    (hmessages : a'.db.messages = a.db.messages) (hsmollai : a'.smollai = a.smollai)
    (hloads : a'.loads = a.loads) (hworkers : a'.workers = a.workers)
    (hcurr : a'.currChat = a.currChat)
    (heffect : a'.effectPending = a.effectPending ∨ .code .checkChat ∈ code) : LoadInv a' := by
  refine h.frame hsmollai hmessages (.inl hloads) hworkers ?_ ?_ (hmain ▸ honly)
  · intro chat hchat
    rw [hcurr] at hchat
    rw [hmain, hloads]
    rcases heffect with heffect | hcheck
    · rw [heffect]
      rcases h.target chat hchat with hpending | hwill | hlast
      · exact .inl hpending
      · simp [WillLoad, hidle] at hwill
      · exact .inr (.inr hlast)
    · exact .inr (.inl ⟨_, hcheck, rfl⟩)
  · rw [hmain]
    rintro chat (hmem | ⟨m, hmem⟩)
    · exact absurd hmem (hcode chat).1
    · exact absurd hmem ((hcode chat).2 m)

theorem step_loads (h : LoadInv a) {e : Event} (hscenario : LoadScenario a e)
    (hseparate : LoadsSeparate a e) (hstep : a.step e = some a') : LoadInv a' := by
  have hsame : ∀ a' : ViewModel, a'.smollai = a.smollai → a'.db.messages = a.db.messages →
      a'.loads = a.loads → a'.workers = a.workers → a'.currChat = a.currChat →
      a'.effectPending = a.effectPending → a'.main = a.main → LoadInv a' := by
    intro a' hsmollai hmessages hloads hworkers hcurr heffect hmain
    refine h.frame hsmollai hmessages (.inl hloads) hworkers ?_ ?_ (hmain ▸ h.main)
    · rw [hcurr, heffect, hmain, hloads]
      exact h.target
    · rw [hcurr, heffect, hmain]
      exact h.current
  cases step_cases hstep with
  | sendUserQuery | deleteChat | deleteModel | loadThrows => exact hscenario.elim
  | stopGeneration hidle | changeModel hidle | dismissModelList hidle | updateChat hidle
  | newChat hidle | switchChat hidle | selectModel hidle =>
      refine h.start hidle rfl ?_ ?_ rfl rfl rfl rfl rfl (.inl rfl)
      · simp [ViewModel.stopGeneration, ViewModel.switchChat, ViewModel.updateChat,
          ViewModel.selectModel, updateChatLLM, loadModel, MainInstr.loadOnly]
      · simp [ViewModel.stopGeneration, ViewModel.switchChat, ViewModel.updateChat,
          ViewModel.selectModel, updateChatLLM, loadModel]
  | launchedEffect hidle =>
      refine h.start hidle rfl ?_ ?_ rfl rfl rfl rfl rfl (.inr ?_)
      · simp [loadModel, MainInstr.loadOnly]
      · simp [loadModel]
      · simp [loadModel]
  | main hnext hexec => exact execMain_loads h hnext hscenario hexec
  | worker hw => simp [h.workers] at hw
  | workerThrows hw => simp [h.workers] at hw
  | load hl hmove => exact stepLoad_inv h hl hscenario hseparate hmove
  | @importRuns i k code a₁ more hjob hexec =>
      have hnext : LoadInv a₁ := by
        refine importRuns_loads h hexec fun chat model heq => ?_
        simpa [LoadsSeparate, hjob, heq] using hseparate
      exact hnext.frame rfl rfl (.inl rfl) rfl hnext.target hnext.current hnext.main
  | mainThrows | importModel | importAdds | importEnds | importThrows =>
      exact hsame _ rfl rfl rfl rfl rfl rfl rfl

/-- Once the jobs are quiet, the current instance holds the current chat's history, each
message once. -/
theorem replayed_once (db : Database) (currChat : Option Chat)
    (h : Transition.Reach step (fun a e => LoadScenario a e ∧ LoadsSeparate a e)
      (· = opened db .new currChat) a) (hquiet : LoadsQuiet a) : Replayed a := by
  have hinv : LoadInv a := by
    apply h.invariant
    · rintro s rfl
      exact opened_loads db currChat
    · exact fun s e s' hs hallowed hstep => step_loads hs hallowed.1 hallowed.2 hstep
  exact hinv.replayed hquiet

/-! ## One user action, two loads -/

def promptedChat : Chat := { byteChat 1 with systemPrompt := .lit "Be brief." }

def promptedDatabase : Database :=
  ⟨[promptedChat], [⟨1, 1, .lit "hello", true⟩], [⟨1, .lit "model", .lit "model.gguf"⟩], 2, 2, 2⟩

def promptedScreen : ViewModel := opened promptedDatabase .new (some promptedChat)

def loadSteps (i n : ℕ) : List Event := List.replicate n (.load i SmollAI.byteAnswer)

/-- The first load, and then an update of the chat, which launches two more. -/
def updatedOnce : List Event :=
  .launchedEffect :: mainSteps 4 ++ loadSteps 0 7 ++
    .updateChat { promptedChat with temperature := 1 / 2 } :: mainSteps 6 ++
    .launchedEffect :: mainSteps 4

theorem replayed_once_updated :
    ∃ s, Transition.exec step promptedScreen (updatedOnce ++ loadSteps 1 7 ++ loadSteps 2 7) =
      some s ∧ s.loads.length = 3 ∧ Replayed s := by
  have hrun : ∃ s, Transition.exec step promptedScreen
      (updatedOnce ++ loadSteps 1 7 ++ loadSteps 2 7) = some s ∧
      s.loads.length = 3 ∧ LoadsQuiet s := Transition.exec_of_decide (by decide +kernel)
  obtain ⟨s, hs, hlen, hquiet⟩ := hrun
  refine ⟨s, hs, hlen, ?_⟩
  exact replayed_once promptedDatabase (some promptedChat)
    (.of_exec (.start rfl) (by decide +kernel) hs) hquiet

/-- Both loads assign before either adds: the second one's instance gets every text twice. -/
def bothAssigned : List Event :=
  updatedOnce ++ loadSteps 1 2 ++ loadSteps 2 2 ++ loadSteps 1 5 ++ loadSteps 2 5

theorem replayed_twice :
    ∃ s, Transition.exec step promptedScreen bothAssigned = some s ∧
      Transition.AllowedAlong step LoadScenario promptedScreen bothAssigned ∧
      LoadsQuiet s ∧ ¬Replayed s := by
  have hrun : ∃ s, Transition.exec step promptedScreen bothAssigned = some s ∧ LoadsQuiet s ∧
      ∃ chat ∈ s.currChat, s.smollai.messages ≠ some (s.db.history chat) :=
    Transition.exec_of_decide (by decide +kernel)
  obtain ⟨s, hs, hquiet, chat, hcurr, hne⟩ := hrun
  exact ⟨s, hs, by decide +kernel, hquiet, fun hreplayed => hne (hreplayed chat hcurr)⟩

end ViewModel

end SmollChat
