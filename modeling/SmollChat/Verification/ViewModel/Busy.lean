import SmollChat.Verification.ViewModel.Loads

/-! # The busy flag

`loadModel` sets `isInitializingModel` and each load job resets it at its end, unless an
exception ends the job. One flag stands for all jobs, so it is right as long as the job
that resets it is the last one and the last one resets it. -/

namespace SmollChat

def LoadPhase.isEnded : LoadPhase → Bool
  | .done => true
  | .failed => true
  | _ => false

def MainInstr.isQuiet : MainInstr → Bool
  | .code .setInitializing => false
  | .code (.launchLoad _ _) => false
  | _ => true

/-- The load for which `loadModel` has set the flag is launched next. -/
def startsLoad : List MainInstr → Bool
  | .code (.launchLoad _ _) :: _ => true
  | _ => false

def ImportJob.upcoming : ImportJob → List MainInstr
  | .adding _ _ => []
  | .running code => code.map .code

def underway (loads : List LoadJob) (main : List MainInstr) (imports : List ImportJob) : Bool :=
  loads.any (fun l => !l.phase.isEnded) || startsLoad main ||
    imports.any fun job => startsLoad job.upcoming

namespace ViewModel

variable {a a' : ViewModel}

def loadUnderway (a : ViewModel) : Bool := underway a.loads a.main a.imports

/-- The flag is set while a load is under way, so that no query can be sent, and not set
while none is. -/
structure Covered (a : ViewModel) : Prop where
  busy : a.loadUnderway = true → a.isInitializingModel = true ∧
    ∀ query date, a.step (.sendUserQuery query date) = none
  free : a.loadUnderway = false → a.isInitializingModel = false

/-- A load job that reaches its end is the only one under way, and one that an exception
ends is not. An import job is not broken off between setting the flag and its launch. -/
def FlagKept (a : ViewModel) : Event → Prop
  | .load i _ => ∀ l ∈ a.loads[i]?, l.phase = .finishing →
      underway (a.loads.eraseIdx i) a.main a.imports = false
  | .loadThrows i => underway (a.loads.eraseIdx i) a.main a.imports = true
  | .importThrows i => ∀ job ∈ a.imports[i]?, startsLoad job.upcoming = true →
      underway a.loads a.main (a.imports.eraseIdx i) = true
  | _ => True

instance (a : ViewModel) (e : Event) : Decidable (FlagKept a e) := by
  rcases e with _ | _ <;> dsimp only [FlagKept] <;> infer_instance

theorem covered_iff : Covered a ↔ a.isInitializingModel = a.loadUnderway := by
  constructor
  · intro h
    cases hunder : a.loadUnderway with
    | true => exact (h.busy hunder).1
    | false => exact h.free hunder
  · intro h
    refine ⟨fun hunder => ⟨h.trans hunder, ?_⟩, fun hunder => h.trans hunder⟩
    intro query date
    have hflag : a.isInitializingModel = true := h.trans hunder
    unfold step
    split
    · rfl
    · cases a.currChat <;> simp [start, hflag]

/-! ## Lists with one element changed -/

theorem any_set {α : Type*} {l : List α} {i : ℕ} (hi : i < l.length) (x : α) (p : α → Bool) :
    (l.set i x).any p = (p x || (l.eraseIdx i).any p) := by
  induction l generalizing i with
  | nil => simp at hi
  | cons y l ih =>
      cases i with
      | zero => rfl
      | succ i =>
          simp only [List.set_cons_succ, List.eraseIdx_cons_succ, List.any_cons]
          rw [ih (by simpa using hi), Bool.or_left_comm]

theorem any_of_getElem? {α : Type*} {l : List α} {i : ℕ} {x : α} (h : l[i]? = some x)
    (p : α → Bool) : l.any p = (p x || (l.eraseIdx i).any p) := by
  obtain ⟨hi, hx⟩ := List.getElem?_eq_some_iff.mp h
  rw [← any_set hi, ← hx, List.set_getElem_self]

theorem underway_loads {l : LoadJob} {i : ℕ} (h : a.loads[i]? = some l) :
    a.loadUnderway = (!l.phase.isEnded || underway (a.loads.eraseIdx i) a.main a.imports) := by
  rw [loadUnderway, underway, underway, any_of_getElem? h, Bool.or_assoc, Bool.or_assoc,
    Bool.or_assoc]

theorem underway_setLoad {l l' : LoadJob} {i : ℕ} (h : a.loads[i]? = some l) :
    (a.setLoad i l').loadUnderway =
      (!l'.phase.isEnded || underway (a.loads.eraseIdx i) a.main a.imports) := by
  have hi := (List.getElem?_eq_some_iff.mp h).1
  simp only [loadUnderway, underway, setLoad, any_set hi, Bool.or_assoc]

theorem underway_imports {job : ImportJob} {i : ℕ} (h : a.imports[i]? = some job) :
    a.loadUnderway =
      (startsLoad job.upcoming || underway a.loads a.main (a.imports.eraseIdx i)) := by
  rw [loadUnderway, underway, underway, any_of_getElem? h, Bool.or_left_comm]

theorem underway_setImport {job job' : ImportJob} {i : ℕ} (h : a.imports[i]? = some job) :
    (a.setImport i job').loadUnderway =
      (startsLoad job'.upcoming || underway a.loads a.main (a.imports.eraseIdx i)) := by
  have hi := (List.getElem?_eq_some_iff.mp h).1
  simp only [loadUnderway, underway, setImport, any_set hi, Bool.or_left_comm]

/-! ## The order of the two writes -/

/-- A launch comes first, or right after the write of the flag that comes first. -/
def Orderly (code : List MainInstr) : Prop :=
  (∀ i ∈ code, i.isQuiet = true) ∨ ∃ chat m rest, (∀ i ∈ rest, MainInstr.isQuiet i = true) ∧
    (code = .code (.launchLoad chat m) :: rest ∨
      code = .code .setInitializing :: .code (.launchLoad chat m) :: rest)

structure LaunchesOrdered (a : ViewModel) : Prop where
  main : Orderly a.main
  imports : ∀ job ∈ a.imports, Orderly job.upcoming

theorem startsLoad_of_quiet {code : List MainInstr} (h : ∀ i ∈ code, i.isQuiet = true) :
    startsLoad code = false := by
  cases code with
  | nil => rfl
  | cons i rest =>
      have hi := h i List.mem_cons_self
      unfold startsLoad
      split
      · rename_i heq
        obtain ⟨rfl, -⟩ := List.cons.inj heq
        cases hi
      · rfl

/-- What an instruction at the head of some code does to the loads and the flag: it is the
launch, the write of the flag before a launch, or neither. -/
inductive HeadStep (a a' : ViewModel) (before after : Bool) : Prop where
  | launch {l : LoadJob} (before : before = true) (after : after = false)
      (loads : a'.loads = a.loads ++ [l]) (phase : l.phase.isEnded = false)
      (flag : a'.isInitializingModel = a.isInitializingModel)
  | flag (before : before = false) (after : after = true) (loads : a'.loads = a.loads)
      (flag : a'.isInitializingModel = true)
  | quiet (before : before = false) (after : after = false) (loads : a'.loads = a.loads)
      (flag : a'.isInitializingModel = a.isInitializingModel)

theorem orderly_quiet {i : MainInstr} {rest : List MainInstr} (h : Orderly (i :: rest))
    (hi : i.isQuiet = true) : ∀ j ∈ rest, j.isQuiet = true := by
  rcases h with hquiet | ⟨chat, m, rest', hrest, heq | heq⟩
  · exact fun j hj => hquiet j (List.mem_cons_of_mem i hj)
  · obtain ⟨rfl, rfl⟩ := List.cons.inj heq
    exact hrest
  · obtain ⟨rfl, rfl⟩ := List.cons.inj heq
    cases hi

theorem headStep_quiet {i : MainInstr} {rest code : List MainInstr} (h : Orderly (i :: rest))
    (hi : i.isQuiet = true) (hcode : ∀ j ∈ code, j.isQuiet = true)
    (hloads : a'.loads = a.loads) (hflag : a'.isInitializingModel = a.isInitializingModel) :
    Orderly (code ++ rest) ∧
      HeadStep a a' (startsLoad (i :: rest)) (startsLoad (code ++ rest)) := by
  have hrest := orderly_quiet h hi
  have hbefore : ∀ j ∈ i :: rest, j.isQuiet = true := List.forall_mem_cons.mpr ⟨hi, hrest⟩
  have hafter : ∀ j ∈ code ++ rest, j.isQuiet = true := List.forall_mem_append.mpr ⟨hcode, hrest⟩
  exact ⟨.inl hafter,
    .quiet (startsLoad_of_quiet hbefore) (startsLoad_of_quiet hafter) hloads hflag⟩

theorem exec_head {c : Instr} {more : List Instr} {rest : List MainInstr}
    (hexec : a.exec c = some (a', more)) (h : Orderly (.code c :: rest)) :
    Orderly (more.map .code ++ rest) ∧
      HeadStep a a' (startsLoad (.code c :: rest)) (startsLoad (more.map .code ++ rest)) ∧
      a'.imports = a.imports := by
  cases exec_cases hexec with
  | setInitializing =>
      rcases h with hquiet | ⟨chat, m, rest', hrest, heq | heq⟩
      · cases hquiet _ List.mem_cons_self
      · cases heq
      · obtain ⟨-, rfl⟩ := List.cons.inj heq
        exact ⟨.inr ⟨chat, m, rest', hrest, .inl rfl⟩, .flag rfl rfl rfl rfl, rfl⟩
  | launchLoad =>
      rcases h with hquiet | ⟨chat, m, rest', hrest, heq | heq⟩
      · cases hquiet _ List.mem_cons_self
      · obtain ⟨-, rfl⟩ := List.cons.inj heq
        exact ⟨.inl hrest, .launch rfl (startsLoad_of_quiet hrest) rfl rfl rfl, rfl⟩
      · cases heq
  | @getModel chat m _ =>
      have hrest := orderly_quiet h rfl
      exact ⟨.inr ⟨chat, m, rest, hrest, .inr rfl⟩, .quiet rfl rfl rfl rfl, rfl⟩
  | copyChat | setCurrChat | readChat | putChat | noChat | unset | checkChat | noModel
  | showSelectModelList =>
      rw [← and_assoc]
      refine ⟨headStep_quiet h rfl ?_ rfl rfl, rfl⟩
      simp [MainInstr.isQuiet]

theorem execMain_head {i : MainInstr} {rest code : List MainInstr}
    (hexec : a.execMain i = some (a', code)) (h : Orderly (i :: rest)) :
    Orderly (code ++ rest) ∧ HeadStep a a' (startsLoad (i :: rest)) (startsLoad (code ++ rest)) ∧
      a'.imports = a.imports := by
  cases execMain_cases hexec with
  | code hcode => exact exec_head hcode h
  | addUserMessage | setGenerating | launchWorker | noJob | checkJob | cancelJob
  | cancelCompletion | deleteChatRow | deleteMessages | dropCurrChat | deleteModelRow | otherModel
  | checkModel | close | hideSelectModelList =>
      rw [← and_assoc]
      refine ⟨headStep_quiet h rfl ?_ rfl rfl, rfl⟩
      simp [MainInstr.isQuiet]

/-! ## Steps -/

/-- A step that neither touches the loads nor the flag. -/
structure SameBusy (a a' : ViewModel) : Prop where
  loads : a'.loads = a.loads
  main : a'.main = a.main
  imports : a'.imports = a.imports
  flag : a'.isInitializingModel = a.isInitializingModel

theorem stepWorker_sameBusy {i : ℕ} {w : Worker} {d : Draw} (h : a.stepWorker i w d = some a') :
    SameBusy a a' := by
  cases stepWorker_cases h <;> exact ⟨rfl, rfl, rfl, rfl⟩

theorem throwWorker_sameBusy {i : ℕ} {w : Worker} (h : a.throwWorker i w = some a') :
    SameBusy a a' := by
  obtain ⟨rfl, -⟩ := throwWorker_eq h
  exact ⟨rfl, rfl, rfl, rfl⟩

theorem SameBusy.loadUnderway (h : SameBusy a a') : a'.loadUnderway = a.loadUnderway := by
  rw [ViewModel.loadUnderway, ViewModel.loadUnderway, h.loads, h.main, h.imports]

theorem SameBusy.ordered (h : SameBusy a a') (ho : LaunchesOrdered a) : LaunchesOrdered a' where
  main := h.main ▸ ho.main
  imports := h.imports ▸ ho.imports

/-- A load job's step: its last one resets the flag, the others leave it. -/
theorem stepLoad_busy {i : ℕ} {l : LoadJob} {r : LLMInference.LoadAnswer}
    (h : a.stepLoad i l r = some a') :
    ∃ l', a'.loads = (a.setLoad i l').loads ∧ a'.main = a.main ∧ a'.imports = a.imports ∧
      l.phase.isEnded = false ∧
      ((l.phase = .finishing ∧ l'.phase.isEnded = true ∧ a'.isInitializingModel = false) ∨
        (l.phase ≠ .finishing ∧ l'.phase.isEnded = false ∧
          a'.isInitializingModel = a.isInitializingModel)) := by
  unfold stepLoad at h
  split at h
  case h_7 hphase =>
      split at h
      · cases h
        exact ⟨_, rfl, rfl, rfl, by rw [hphase]; rfl, .inl ⟨hphase, rfl, rfl⟩⟩
      · cases h
  case h_8 => cases h
  case h_9 => cases h
  all_goals
    rename_i hphase
    cases h
    exact ⟨_, rfl, rfl, rfl, by rw [hphase]; rfl, .inr ⟨by rw [hphase]; simp, rfl, rfl⟩⟩

theorem throwLoad_isEnded {i : ℕ} {l : LoadJob} (h : a.throwLoad i l = some a') :
    l.phase.isEnded = false := by
  unfold throwLoad at h
  split at h
  · rename_i hphase
    rw [hphase]
    rfl
  · rename_i hphase
    rw [hphase]
    rfl
  · cases h

theorem LaunchesOrdered.setImport (ho : LaunchesOrdered a) {i : ℕ} {job : ImportJob}
    (hjob : Orderly job.upcoming) : ∀ j ∈ (a.setImport i job).imports, Orderly j.upcoming := by
  intro j hj
  rcases List.mem_or_eq_of_mem_set hj with hj | rfl
  · exact ho.imports j hj
  · exact hjob

theorem orderly_of_quiet {code : List MainInstr} (h : ∀ i ∈ code, i.isQuiet = true) :
    Orderly code :=
  .inl h

theorem step_ordered {e : Event} (ho : LaunchesOrdered a) (h : a.step e = some a') :
    LaunchesOrdered a' := by
  cases step_cases h with
  | main hnext hexec =>
      obtain ⟨hcode, -, himports⟩ := execMain_head hexec (hnext ▸ ho.main)
      exact ⟨hcode, himports ▸ ho.imports⟩
  | mainThrows => exact ⟨ho.main, ho.imports⟩
  | worker _ hstep => exact (stepWorker_sameBusy hstep).ordered ho
  | workerThrows _ hstep => exact (throwWorker_sameBusy hstep).ordered ho
  | load _ hstep =>
      obtain ⟨l', -, hmain, himports, -⟩ := stepLoad_busy hstep
      exact ⟨hmain ▸ ho.main, himports ▸ ho.imports⟩
  | loadThrows _ hstep =>
      obtain rfl := throwLoad_eq hstep
      exact ⟨ho.main, ho.imports⟩
  | importModel =>
      refine ⟨ho.main, ?_⟩
      intro job hjob
      rcases List.mem_append.mp hjob with hold | hnew
      · exact ho.imports job hold
      · obtain rfl := List.mem_singleton.mp hnew
        exact orderly_of_quiet (by simp [ImportJob.upcoming])
  | importAdds =>
      refine ⟨ho.main, ho.setImport (orderly_of_quiet ?_)⟩
      simp [ImportJob.upcoming, updateChatLLM, loadModel, MainInstr.isQuiet]
  | importRuns here hexec =>
      have hhead := ho.imports _ (List.mem_of_getElem? here)
      obtain ⟨hcode, -, himports⟩ := exec_head hexec hhead
      have hmain := (exec_sameGeneration hexec).2.1
      rw [← List.map_append] at hcode
      have ho₁ : LaunchesOrdered _ := ⟨hmain ▸ ho.main, himports ▸ ho.imports⟩
      exact ⟨ho₁.main, ho₁.setImport hcode⟩
  | importEnds => exact ⟨ho.main, ho.setImport (orderly_of_quiet (by simp [ImportJob.upcoming]))⟩
  | importThrows => exact ⟨ho.main, ho.setImport (orderly_of_quiet (by simp [ImportJob.upcoming]))⟩
  | sendUserQuery | newChat | launchedEffect | stopGeneration | switchChat | updateChat | deleteChat
  | selectModel | deleteModel | changeModel | dismissModelList =>
      refine ⟨orderly_of_quiet ?_, ho.imports⟩
      simp [MainInstr.isQuiet, ViewModel.sendUserQuery, ViewModel.switchChat, loadModel,
        ViewModel.stopGeneration, ViewModel.updateChat, ViewModel.deleteChat,
        ViewModel.selectModel, ViewModel.deleteModel, updateChatLLM]

theorem startsLoad_of_throws {c : Instr} {code : List Instr} (hexec : a.exec c = none) :
    startsLoad (ImportJob.running (c :: code)).upcoming = false := by
  cases c with
  | launchLoad => cases hexec
  | _ => rfl

/-- The flag stays right over the head instruction of some code. -/
theorem HeadStep.flag_eq {before after rest : Bool} (h : HeadStep a a' before after)
    (hflag : a.isInitializingModel =
      (a.loads.any (fun l => !l.phase.isEnded) || before || rest)) :
    a'.isInitializingModel = (a'.loads.any (fun l => !l.phase.isEnded) || after || rest) := by
  cases h with
  | launch hbefore hafter hloads hphase hsame => simp [hsame, hflag, hbefore, hloads, hphase]
  | flag hbefore hafter hloads hset => simp [hset, hafter]
  | quiet hbefore hafter hloads hsame => rw [hsame, hflag, hbefore, hafter, hloads]

/-- A step of a screen whose flag is right keeps it right exactly if it is one of those. -/
theorem step_flag {e : Event} (ho : LaunchesOrdered a)
    (hflag : a.isInitializingModel = a.loadUnderway) (h : a.step e = some a') :
    a'.isInitializingModel = a'.loadUnderway ↔ FlagKept a e := by
  cases step_cases h with
  | main hnext hexec =>
      rw [loadUnderway, underway, hnext] at hflag
      obtain ⟨-, hhead, himports⟩ := execMain_head hexec (hnext ▸ ho.main)
      have hafter := hhead.flag_eq hflag
      rw [← himports] at hafter
      exact iff_of_true hafter trivial
  | mainThrows => exact iff_of_true hflag trivial
  | worker _ hstep =>
      have hsame := stepWorker_sameBusy hstep
      exact iff_of_true (by rw [hsame.flag, hsame.loadUnderway, hflag]) trivial
  | workerThrows _ hstep =>
      have hsame := throwWorker_sameBusy hstep
      exact iff_of_true (by rw [hsame.flag, hsame.loadUnderway, hflag]) trivial
  | @load i r l _ here hstep =>
      obtain ⟨l', hloads, hmain, himports, hrunning, hcases⟩ := stepLoad_busy hstep
      have hunder : a'.loadUnderway = (!l'.phase.isEnded ||
          underway (a.loads.eraseIdx i) a.main a.imports) := by
        rw [← underway_setLoad here, loadUnderway, loadUnderway, hloads, hmain, himports]
        rfl
      rw [underway_loads here, hrunning, Bool.not_false, Bool.true_or] at hflag
      have hkept : FlagKept a (.load i r) ↔ (l.phase = .finishing →
          underway (a.loads.eraseIdx i) a.main a.imports = false) := by
        simp [FlagKept, here]
      rw [hunder, hkept]
      rcases hcases with ⟨hphase, hended, hreset⟩ | ⟨hphase, hended, hsame⟩
      · rw [hreset, hended, Bool.not_true, Bool.false_or, eq_comm]
        simp [hphase]
      · rw [hsame, hended, hflag]
        simp [hphase]
  | @loadThrows i l _ here hstep =>
      rw [underway_loads here, throwLoad_isEnded hstep, Bool.not_false, Bool.true_or] at hflag
      obtain rfl := throwLoad_eq hstep
      rw [underway_setLoad here]
      have hsame : (a.setLoad i { l with phase := .failed }).isInitializingModel = true := hflag
      rw [hsame, eq_comm]
      rfl
  | importModel =>
      refine iff_of_true ?_ trivial
      rw [loadUnderway, underway] at hflag ⊢
      simpa [startsLoad, ImportJob.upcoming] using hflag
  | @importAdds i name path here =>
      have hset : (a.setImport i (.running (updateChatLLM (a.db.addModel name path).1 ++
          loadModel))).loadUnderway = _ := underway_setImport here
      rw [underway_imports here] at hflag
      exact iff_of_true (hflag.trans hset.symm) trivial
  | @importRuns i c code a₁ more here hexec =>
      have hhead := ho.imports _ (List.mem_of_getElem? here)
      obtain ⟨-, hstep, himports⟩ := exec_head hexec hhead
      have hmain := (exec_sameGeneration hexec).2.1
      have here₁ : a₁.imports[i]? = some (.running (c :: code)) := himports ▸ here
      refine iff_of_true ?_ trivial
      rw [underway_imports here, underway, Bool.or_assoc, Bool.or_left_comm, ← Bool.or_assoc]
        at hflag
      have hafter := hstep.flag_eq hflag
      rw [underway_setImport here₁, underway, Bool.or_assoc, Bool.or_left_comm, ← Bool.or_assoc,
        hmain, himports]
      rw [← List.map_append] at hafter
      exact hafter
  | importEnds here hexec =>
      refine iff_of_true ?_ trivial
      rw [underway_imports here, startsLoad_of_throws hexec] at hflag
      rw [underway_setImport here]
      exact hflag
  | @importThrows i =>
      cases here : a.imports[i]? with
      | none =>
          have hlength := List.getElem?_eq_none_iff.mp here
          have hsame : a.setImport i (.running []) = a := by
            rw [setImport, List.set_eq_of_length_le hlength]
          rw [hsame]
          exact iff_of_true hflag (by simp [FlagKept, here])
      | some job =>
          have hkept : FlagKept a (.importThrows i) ↔ (startsLoad job.upcoming = true →
              underway a.loads a.main (a.imports.eraseIdx i) = true) := by
            simp [FlagKept, here]
          have hset : (a.setImport i (.running [])).loadUnderway =
              underway a.loads a.main (a.imports.eraseIdx i) := underway_setImport here
          rw [hset, hkept]
          rw [underway_imports here] at hflag
          have hsame : (a.setImport i (.running [])).isInitializingModel = a.isInitializingModel :=
            rfl
          rw [hsame, hflag]
          cases startsLoad job.upcoming <;>
            cases underway a.loads a.main (a.imports.eraseIdx i) <;> simp
  | sendUserQuery idle | newChat idle | launchedEffect idle | stopGeneration idle | switchChat idle
  | updateChat idle | deleteChat idle | selectModel idle | deleteModel idle
  | changeModel idle | dismissModelList idle =>
      refine iff_of_true ?_ trivial
      rw [loadUnderway, underway, idle] at hflag
      exact hflag

/-! ## Runs -/

/-- In every execution from a newly opened screen the flag covers the loads in all states
exactly if every step of the load jobs keeps it right. -/
theorem busyFlag_iff (db : Database) (smollai : SmollAI) (currChat : Option Chat)
    {events : List Event} {a : ViewModel}
    (h : Transition.exec step (opened db smollai currChat) events = some a) :
    (∀ pre u, pre <+: events → Transition.exec step (opened db smollai currChat) pre = some u →
        Covered u) ↔
      Transition.AllowedAlong step FlagKept (opened db smollai currChat) events := by
  simp only [covered_iff]
  apply Transition.allowedAlong_iff (fun s e s' hs => step_ordered hs) (fun s e s' => step_flag)
    _ rfl h
  exact ⟨orderly_of_quiet (by simp [opened]), by simp [opened]⟩

def loadedOnce : List Event := .launchedEffect :: mainSteps 4 ++ loadSteps 0 6

theorem busyFlag_once :
    Transition.AllowedAlong step FlagKept (opened byteDatabase .new (some (byteChat 1)))
        loadedOnce ∧
      ∀ pre u, pre <+: loadedOnce →
        Transition.exec step (opened byteDatabase .new (some (byteChat 1))) pre = some u →
          Covered u := by
  have hkept : Transition.AllowedAlong step FlagKept
      (opened byteDatabase .new (some (byteChat 1))) loadedOnce := by
    decide +kernel
  obtain ⟨a, ha, -⟩ : ∃ a, Transition.exec step
      (opened byteDatabase .new (some (byteChat 1))) loadedOnce = some a ∧
        a.loads.length = 1 := Transition.exec_of_decide (by decide +kernel)
  exact ⟨hkept, (busyFlag_iff byteDatabase .new (some (byteChat 1)) ha).mpr hkept⟩

def switchedWhileLoading : List Event :=
  .launchedEffect :: mainSteps 4 ++ .switchChat (byteChat 2) :: mainSteps 3 ++
    .launchedEffect :: mainSteps 4 ++ loadSteps 0 6

/-- The first of two loads to end resets the flag while the other one is running, and a
load that ends with an exception leaves it set. -/
theorem busyFlag_fails :
    (∃ a, Transition.exec step (opened byteDatabase .new (some (byteChat 1)))
        switchedWhileLoading = some a ∧ ¬Covered a) ∧
      ∃ a, Transition.exec step (opened byteDatabase .new (some (byteChat 1)))
        (.launchedEffect :: mainSteps 4 ++ [.loadThrows 0]) = some a ∧ ¬Covered a := by
  simp only [covered_iff]
  constructor
  · exact Transition.exec_of_decide (by decide +kernel)
  · exact Transition.exec_of_decide (by decide +kernel)

end ViewModel

end SmollChat
