import SmollChat.Library.CallLog
import SmollChat.Model.ByteEngine
import SmollChat.Verification.ViewModel.Equations

/-! # Completion cycles

The native object does not know for which job it is called. As long as a worker is
launched only after every earlier one has made its last native call, the cycles of two
jobs do not meet. -/

namespace SmollChat

/-- The worker has made its last native call. -/
def WorkerPhase.isPastCalls : WorkerPhase → Bool
  | .checking | .reading | .saving _ | .finishing | .posted | .returning | .done => true
  | _ => false

def WorkerPhase.inCycle : WorkerPhase → Bool
  | .looping | .emitting _ | .appending _ | .ending | .stopping | .catching => true
  | _ => false

def Worker.isQuiet (w : Worker) : Bool :=
  w.phase.isPastCalls || (w.phase == .created && w.cancelled)

theorem Worker.isQuiet_eq_false {w : Worker} {phase : WorkerPhase} (hphase : w.phase = phase)
    (hpast : phase.isPastCalls = false) (hbegun : phase ≠ .created) : w.isQuiet = false := by
  simp [isQuiet, hphase, hpast, hbegun]

namespace CycleCall

def starts (c : CycleCall) : Prop := c.fn = .startCompletion

def ends (c : CycleCall) : Prop :=
  c.fn = .stopCompletionInternal ∨ c.fn = .cancelCompletionInternal

end CycleCall

namespace ViewModel

variable {a a' : ViewModel}

/-! ## The property -/

/-- The job has started a completion on the instance and neither stopped nor cancelled it. -/
abbrev OpenCycle (log : List CycleCall) (job ptr : ℕ) : Prop :=
  CallLog.Open CycleCall.job CycleCall.ptr CycleCall.starts CycleCall.ends log job ptr

/-- No call reaches an instance on behalf of one job while another's cycle is open on it. -/
abbrev CyclesSeparate (log : List CycleCall) : Prop :=
  CallLog.Separate CycleCall.job CycleCall.ptr CycleCall.starts CycleCall.ends log

/-- A worker is launched only when all earlier workers are quiet. -/
def LaunchesQuiet (a : ViewModel) : Event → Prop
  | .main =>
      match a.main with
      | .launchWorker _ _ :: _ => ∀ w ∈ a.workers, w.isQuiet = true
      | _ => True
  | _ => True

instance (a : ViewModel) (e : Event) : Decidable (LaunchesQuiet a e) := by
  rcases e with _ | _ <;> dsimp only [LaunchesQuiet]
  case main =>
    rcases a.main with _ | ⟨_ | _, _⟩ <;> infer_instance
  all_goals infer_instance

/-! ## The invariant -/

/-- The main thread is either about to launch a worker or about to cancel one, not both. -/
def MainShape (code : List MainInstr) : Prop :=
  (∀ chat query, .launchWorker chat query ∉ code) ∨
    (.checkJob ∉ code ∧ ∀ job, .cancelCompletion job ∉ code)

structure CyclesInv (a : ViewModel) : Prop where
  separate : CyclesSeparate a.cycleCalls
  bound : ∀ job ptr, OpenCycle a.cycleCalls job ptr → job < a.workers.length
  quiet : ∀ i w, a.workers[i]? = some w → i + 1 < a.workers.length → w.isQuiet = true
  closed : ∀ i w, a.workers[i]? = some w → w.phase.inCycle = false →
    ∀ ptr, ¬OpenCycle a.cycleCalls i ptr
  job : ∀ job, a.responseGenerationJob = some job → job + 1 = a.workers.length
  pending : ∀ job, .cancelCompletion job ∈ a.main → job + 1 = a.workers.length
  shape : MainShape a.main

theorem CyclesInv.last (h : CyclesInv a) {i : ℕ} {w : Worker} (hw : a.workers[i]? = some w)
    (hphase : w.isQuiet = false) : i + 1 = a.workers.length := by
  by_contra hne
  have hi := (List.getElem?_eq_some_iff.mp hw).1
  have := h.quiet i w hw (by omega)
  simp [hphase] at this

theorem inCycle_of_quiet {w : Worker} (h : w.isQuiet = true) : w.phase.inCycle = false := by
  unfold Worker.isQuiet at h
  cases hphase : w.phase <;> simp_all [WorkerPhase.isPastCalls, WorkerPhase.inCycle]

theorem CyclesInv.open_last (h : CyclesInv a) {job ptr : ℕ}
    (hopen : OpenCycle a.cycleCalls job ptr) : job + 1 = a.workers.length := by
  have hlt := h.bound job ptr hopen
  have hw := List.getElem?_eq_getElem hlt
  by_contra hne
  have hquiet := h.quiet job _ hw (by omega)
  exact h.closed job _ hw (inCycle_of_quiet hquiet) ptr hopen

theorem CyclesInv.frame (h : CyclesInv a) (hcalls : a'.cycleCalls = a.cycleCalls)
    (hworkers : a'.workers = a.workers)
    (hjob : a'.responseGenerationJob = a.responseGenerationJob)
    (hpending : ∀ job, .cancelCompletion job ∈ a'.main → .cancelCompletion job ∈ a.main)
    (hshape : MainShape a'.main) : CyclesInv a' where
  separate := hcalls ▸ h.separate
  bound := by rw [hcalls, hworkers]; exact h.bound
  quiet := by rw [hworkers]; exact h.quiet
  closed := by rw [hcalls, hworkers]; exact h.closed
  job := by rw [hjob, hworkers]; exact h.job
  pending job hmem := by rw [hworkers]; exact h.pending job (hpending job hmem)
  shape := hshape

theorem CyclesInv.move (h : CyclesInv a) {i : ℕ} {w w' : Worker} (hw : a.workers[i]? = some w)
    (hcalls : a'.cycleCalls = a.cycleCalls) (hworkers : a'.workers = (a.setWorker i w').workers)
    (hjob : a'.responseGenerationJob = a.responseGenerationJob) (hmain : a'.main = a.main)
    (hquiet : w.isQuiet = true → w'.isQuiet = true)
    (hcycle : w'.phase.inCycle = false → w.phase.inCycle = false) : CyclesInv a' := by
  have hlen : a'.workers.length = a.workers.length := by rw [hworkers]; simp [setWorker]
  refine ⟨hcalls ▸ h.separate, ?_, ?_, ?_, ?_, ?_, hmain ▸ h.shape⟩
  · rw [hcalls, hlen]
    exact h.bound
  · intro j v hv hlt
    rw [hlen] at hlt
    rw [hworkers, setWorker_getElem? hw] at hv
    split at hv
    · rename_i hj
      obtain rfl := Option.some.inj hv
      exact hquiet (h.quiet i w hw (hj ▸ hlt))
    · exact h.quiet j v hv hlt
  · intro j v hv hphase
    rw [hcalls]
    rw [hworkers, setWorker_getElem? hw] at hv
    split at hv
    · rename_i hj
      obtain rfl := Option.some.inj hv
      rw [hj]
      exact h.closed i w hw (hcycle hphase)
    · exact h.closed j v hv hphase
  · rw [hjob, hlen]
    exact h.job
  · rw [hmain, hlen]
    exact h.pending

/-- A call on behalf of the last worker keeps the cycles separate. -/
theorem CyclesInv.log (h : CyclesInv a) {i : ℕ} (hi : i + 1 = a.workers.length) (fn : NativeFn)
    (ptr : ℕ) :
    CyclesSeparate (a.cycleCalls ++ [⟨i, fn, ptr⟩]) ∧
      (∀ job p, OpenCycle (a.cycleCalls ++ [⟨i, fn, ptr⟩]) job p → job = i) := by
  have hlast : ∀ job p, OpenCycle a.cycleCalls job p → job = i := by
    intro job p hopen
    have := h.open_last hopen
    omega
  refine ⟨CallLog.separate_append h.separate fun job => hlast job ptr, ?_⟩
  intro job p hopen
  rcases CallLog.open_append hopen with ⟨howner, -⟩ | ⟨hold, -⟩
  · exact howner.symm
  · exact hlast job p hold

/-- A worker's native call. Unless the call ends the cycle, the worker stays in it. -/
theorem CyclesInv.call (h : CyclesInv a) {i : ℕ} {w w' : Worker} {fn : NativeFn} {ptr : ℕ}
    (hw : a.workers[i]? = some w) (hphase : w.isQuiet = false)
    (hcalls : a'.cycleCalls = a.cycleCalls ++ [⟨i, fn, ptr⟩])
    (hworkers : a'.workers = (a.setWorker i w').workers)
    (hjob : a'.responseGenerationJob = a.responseGenerationJob) (hmain : a'.main = a.main)
    (hcycle : w'.phase.inCycle = false →
      fn = .stopCompletionInternal ∨ fn = .cancelCompletionInternal) : CyclesInv a' := by
  have hi := h.last hw hphase
  have hlen : a'.workers.length = a.workers.length := by rw [hworkers]; simp [setWorker]
  obtain ⟨hseparate, hopen⟩ := h.log hi fn ptr
  refine ⟨hcalls ▸ hseparate, ?_, ?_, ?_, ?_, ?_, hmain ▸ h.shape⟩
  · intro job p hp
    obtain rfl := hopen job p (hcalls ▸ hp)
    omega
  · intro j v hv hlt
    rw [hlen] at hlt
    rw [hworkers, setWorker_getElem? hw] at hv
    split at hv
    · omega
    · exact h.quiet j v hv hlt
  · intro j v hv hv' p hp
    rw [hcalls] at hp
    obtain rfl := hopen j p hp
    rw [hworkers, setWorker_getElem? hw, if_pos rfl] at hv
    obtain rfl := Option.some.inj hv
    refine absurd hp (CallLog.not_open_of_ends rfl (hcycle hv') ?_)
    intro hstarts
    rcases hcycle hv' with hfn | hfn <;> cases hfn.symm.trans hstarts
  · rw [hjob, hlen]
    exact h.job
  · rw [hmain, hlen]
    exact h.pending

theorem stepWorker_cycles (h : CyclesInv a) {i : ℕ} {w : Worker} {d : Draw}
    (hw : a.workers[i]? = some w) (hstep : a.stepWorker i w d = some a') : CyclesInv a' := by
  cases stepWorker_cases hstep with
  | starts hphase _ | aborts hphase _ | ends hphase _ | receives hphase _ _ =>
      exact h.call hw (w.isQuiet_eq_false hphase rfl (by simp)) rfl rfl rfl rfl
        (by simp [WorkerPhase.inCycle])
  | finishes hphase | stopsAgain hphase =>
      exact h.call hw (w.isQuiet_eq_false hphase rfl (by simp)) rfl rfl rfl rfl fun _ => .inl rfl
  | cancels hphase =>
      exact h.call hw (w.isQuiet_eq_false hphase rfl (by simp)) rfl rfl rfl rfl fun _ => .inr rfl
  | dropped hphase _ | empty hphase _ | nonempty hphase _ | reads hphase | saves hphase
  | posts hphase _ | resumes hphase _ | returns hphase =>
      refine h.move hw rfl rfl rfl rfl (fun _ => rfl) fun _ => ?_
      simp [hphase, WorkerPhase.inCycle]
  | leaves hphase _ =>
      refine h.move hw rfl rfl rfl rfl (fun _ => rfl) fun _ => ?_
      rcases hphase with hphase | hphase <;> simp [hphase, WorkerPhase.inCycle]
  | begins hphase hactive =>
      refine h.move hw rfl rfl rfl rfl ?_ fun _ => ?_
      · simp [Worker.isQuiet, hphase, WorkerPhase.isPastCalls, hactive]
      · simp [hphase, WorkerPhase.inCycle]
  | resets hphase =>
      refine h.move hw rfl rfl rfl rfl ?_ fun _ => ?_
      · rw [w.isQuiet_eq_false hphase rfl (by simp)]
        simp
      · simp [hphase, WorkerPhase.inCycle]
  | emits hphase _ | stops hphase _ | appends hphase =>
      refine h.move hw rfl rfl rfl rfl ?_ (by simp [WorkerPhase.inCycle])
      rw [w.isQuiet_eq_false hphase rfl (by simp)]
      simp

/-! ## The main thread -/

theorem MainShape.mono {code code' : List MainInstr} (h : MainShape code)
    (hsub : ∀ i ∈ code', i ∈ code) : MainShape code' := by
  rcases h with hlaunch | ⟨hcheck, hcancel⟩
  · exact .inl fun chat query hmem => hlaunch chat query (hsub _ hmem)
  · exact .inr ⟨fun hmem => hcheck (hsub _ hmem), fun job hmem => hcancel job (hsub _ hmem)⟩

theorem MainShape.code {rest : List MainInstr} (h : MainShape rest) (more : List Instr) :
    MainShape (more.map .code ++ rest) := by
  rcases h with hlaunch | ⟨hcheck, hcancel⟩
  · exact .inl fun chat query hmem => hlaunch chat query (by simpa using hmem)
  · exact .inr ⟨fun hmem => hcheck (by simpa using hmem),
      fun job hmem => hcancel job (by simpa using hmem)⟩

theorem CyclesInv.start (h : CyclesInv a) (hcalls : a'.cycleCalls = a.cycleCalls)
    (hworkers : a'.workers = a.workers)
    (hjob : a'.responseGenerationJob = a.responseGenerationJob) (hshape : MainShape a'.main)
    (hpending : ∀ job, .cancelCompletion job ∉ a'.main) : CyclesInv a' :=
  h.frame hcalls hworkers hjob (fun job hmem => absurd hmem (hpending job)) hshape

theorem CyclesInv.launch (h : CyclesInv a) {chat : Chat} {query : CString}
    {rest : List MainInstr} (hmain : a.main = .launchWorker chat query :: rest)
    (hquiet : ∀ w ∈ a.workers, w.isQuiet = true) :
    CyclesInv { a with
      workers := a.workers ++ [⟨chat, query, .created, false, [], []⟩]
      responseGenerationJob := some a.workers.length
      main := rest } := by
  have hclosed : ∀ job ptr, ¬OpenCycle a.cycleCalls job ptr := by
    intro job ptr hopen
    have hw := List.getElem?_eq_getElem (h.bound job ptr hopen)
    exact h.closed job _ hw (inCycle_of_quiet (hquiet _ (List.mem_of_getElem? hw))) ptr hopen
  have hnone : ∀ job, .cancelCompletion job ∉ rest := by
    have hshape := h.shape
    rw [hmain] at hshape
    rcases hshape with hlaunch | ⟨-, hcancel⟩
    · exact absurd (List.mem_cons_self) (hlaunch chat query)
    · exact fun job hmem => hcancel job (List.mem_cons_of_mem _ hmem)
  refine ⟨h.separate, fun job ptr hopen => absurd hopen (hclosed job ptr), ?_,
    fun i _ _ _ ptr => hclosed i ptr, ?_, fun job hmem => absurd hmem (hnone job), ?_⟩
  · intro i w hw hlt
    simp only [List.length_append, List.length_singleton] at hlt
    rw [List.getElem?_append_left (by omega)] at hw
    exact hquiet w (List.mem_of_getElem? hw)
  · intro job hjob
    obtain rfl := Option.some.inj hjob
    simp
  · exact h.shape.mono fun i hi => hmain ▸ List.mem_cons_of_mem _ hi

theorem CyclesInv.cancelJob (h : CyclesInv a) (job : ℕ) :
    CyclesInv { a with workers := a.workers.modify job fun w => { w with cancelled := true } } := by
  cases hjob : a.workers[job]? with
  | none =>
      have hlen : a.workers.length ≤ job := List.getElem?_eq_none_iff.mp hjob
      exact h.frame rfl (List.modify_eq_self hlen) rfl (fun job hmem => hmem) h.shape
  | some w =>
      refine h.move hjob rfl (modify_workers hjob _) rfl rfl ?_ fun hphase => hphase
      intro hquiet
      simp only [Worker.isQuiet, Bool.or_eq_true, Bool.and_eq_true] at hquiet ⊢
      exact hquiet.imp id fun hcreated => ⟨hcreated.1, trivial⟩

/-- The cancellation of the last worker's completion by the main thread. -/
theorem CyclesInv.cancelCompletion (h : CyclesInv a) {job : ℕ}
    (hjob : job + 1 = a.workers.length) :
    CyclesInv { a.logCall job .cancelCompletionInternal with
      smollai := a.smollai.cancelCompletion } := by
  obtain ⟨hseparate, hopen⟩ := h.log hjob .cancelCompletionInternal a.smollai.nativePtr
  refine ⟨hseparate, ?_, h.quiet, ?_, h.job, h.pending, h.shape⟩
  · intro i p hp
    obtain rfl := hopen i p hp
    exact (Nat.lt_succ_self i).trans_eq hjob
  · intro i w hw hphase p hp
    obtain rfl := hopen i p hp
    exact CallLog.not_open_of_ends rfl (.inr rfl) (by simp [CycleCall.starts]) hp

theorem execMain_cycles (h : CyclesInv a) {i : MainInstr} {rest code : List MainInstr}
    (hmain : a.main = i :: rest) (hlaunch : LaunchesQuiet a .main)
    (hexec : a.execMain i = some (a', code)) : CyclesInv { a' with main := code ++ rest } := by
  have hrest : MainShape rest := h.shape.mono fun i hi => hmain ▸ List.mem_cons_of_mem _ hi
  have hpending : ∀ job, .cancelCompletion job ∈ rest → .cancelCompletion job ∈ a.main :=
    fun job hmem => hmain ▸ List.mem_cons_of_mem _ hmem
  cases execMain_cases hexec with
  | @code _ _ more hc =>
      have hsame := (exec_sameGeneration hc).1
      exact h.frame hsame.cycleCalls hsame.workers hsame.responseGenerationJob
        (fun job hmem => hpending job (by simpa using hmem)) (hrest.code more)
  | launchWorker =>
      simp only [LaunchesQuiet, hmain] at hlaunch
      exact h.launch hmain hlaunch
  | @checkJob job _ hjob _ =>
      have hnolaunch : ∀ chat query, .launchWorker chat query ∉ a.main := by
        rcases h.shape with hlaunch | ⟨hcheck, -⟩
        · exact hlaunch
        · exact absurd (hmain ▸ List.mem_cons_self) hcheck
      have hshape : MainShape ([.cancelJob job, .cancelCompletion job] ++ rest) := by
        refine .inl fun chat query hmem => hnolaunch chat query ?_
        rw [hmain]
        simpa using hmem
      refine ⟨h.separate, h.bound, h.quiet, h.closed, h.job, ?_, hshape⟩
      intro j hmem
      simp only [List.cons_append, List.nil_append, List.mem_cons, reduceCtorEq, false_or,
        MainInstr.cancelCompletion.injEq] at hmem
      rcases hmem with rfl | hmem
      · exact h.job j hjob
      · exact h.pending j (hpending j hmem)
  | cancelJob =>
      have h' : CyclesInv { a with main := rest } := h.frame rfl rfl rfl hpending hrest
      exact h'.cancelJob _
  | @cancelCompletion job =>
      have h' : CyclesInv { a with main := rest } := h.frame rfl rfl rfl hpending hrest
      exact h'.cancelCompletion (h.pending job (hmain ▸ List.mem_cons_self))
  | checkModel _ =>
      refine h.frame rfl rfl rfl (fun job hmem => hpending job (by simpa using hmem)) ?_
      rcases hrest with hlaunch | ⟨hcheck, hcancel⟩
      · exact .inl (by simpa using hlaunch)
      · exact .inr (by simpa using ⟨hcheck, hcancel⟩)
  | _ => exact h.frame rfl rfl rfl hpending hrest

theorem step_cycles (h : CyclesInv a) {e : Event} (hlaunch : LaunchesQuiet a e)
    (hstep : a.step e = some a') : CyclesInv a' := by
  cases step_cases hstep with
  | main hnext hexec => exact execMain_cycles h hnext hlaunch hexec
  | worker hw hmove => exact stepWorker_cycles h hw hmove
  | workerThrows hw hthrow =>
      obtain ⟨rfl, hphase⟩ := throwWorker_eq hthrow
      refine h.move hw rfl rfl rfl rfl ?_ (by simp [WorkerPhase.inCycle])
      rcases hphase with hphase | hphase | hphase | hphase <;>
        simp [Worker.isQuiet, hphase, WorkerPhase.isPastCalls]
  | load _ hload =>
      obtain ⟨hsame, hmain⟩ := stepLoad_sameGeneration hload
      exact h.frame hsame.cycleCalls hsame.workers hsame.responseGenerationJob
        (fun job hmem => hmain ▸ hmem) (hmain ▸ h.shape)
  | loadThrows _ hthrow =>
      obtain rfl := throwLoad_eq hthrow
      exact h.frame rfl rfl rfl (fun job hmem => hmem) h.shape
  | importRuns _ hexec =>
      obtain ⟨hsame, hmain, -⟩ := exec_sameGeneration hexec
      exact h.frame hsame.cycleCalls hsame.workers hsame.responseGenerationJob
        (fun job hmem => hmain ▸ hmem) (hmain ▸ h.shape)
  | importAdds _ | importEnds _ _ | importThrows | mainThrows _ _ =>
      exact h.frame rfl rfl rfl (fun job hmem => hmem) h.shape
  | importModel _ => exact h.frame rfl rfl rfl (fun job hmem => hmem) h.shape
  | sendUserQuery =>
      refine h.start rfl rfl rfl (.inr ?_) ?_ <;> simp [ViewModel.sendUserQuery]
  | stopGeneration _ _ =>
      refine h.start rfl rfl rfl (.inl ?_) ?_ <;> simp [ViewModel.stopGeneration]
  | newChat _ | switchChat _ _ =>
      refine h.start rfl rfl rfl (.inl ?_) ?_ <;>
        simp [ViewModel.switchChat, ViewModel.stopGeneration]
  | updateChat _ _ _ =>
      refine h.start rfl rfl rfl (.inl ?_) ?_ <;> simp [ViewModel.updateChat, loadModel]
  | deleteChat _ _ _ =>
      refine h.start rfl rfl rfl (.inl ?_) ?_ <;>
        simp [ViewModel.deleteChat, ViewModel.stopGeneration]
  | selectModel _ =>
      refine h.start rfl rfl rfl (.inl ?_) ?_ <;>
        simp [ViewModel.selectModel, updateChatLLM, loadModel]
  | deleteModel _ => refine h.start rfl rfl rfl (.inl ?_) ?_ <;> simp [ViewModel.deleteModel]
  | changeModel _ | dismissModelList _ => refine h.start rfl rfl rfl (.inl ?_) ?_ <;> simp
  | launchedEffect _ _ => refine h.start rfl rfl rfl (.inl ?_) ?_ <;> simp [loadModel]

theorem opened_cycles (db : Database) (smollai : SmollAI) (currChat : Option Chat) :
    CyclesInv (opened db smollai currChat) where
  separate := CallLog.separate_nil
  bound _ _ hopen := absurd hopen CallLog.not_open_nil
  quiet := by simp [opened]
  closed := by simp [opened]
  job := by simp [opened]
  pending := by simp [opened]
  shape := .inl (by simp [opened])

/-- In every run in which workers are launched only after all earlier ones have made their
last native call, no call of another job meets an open completion cycle. -/
theorem cycles_separate (db : Database) (smollai : SmollAI) (currChat : Option Chat)
    (h : Transition.Reach step LaunchesQuiet (· = opened db smollai currChat) a) :
    CyclesSeparate a.cycleCalls := by
  have hinv : CyclesInv a := by
    apply h.invariant
    · rintro s rfl
      exact opened_cycles db smollai currChat
    · exact fun s e s' hs hlaunch hstep => step_cycles hs hlaunch hstep
  exact hinv.separate

/-- A query stopped after its first piece; the second one is sent when the worker of the
first has cancelled its completion. -/
def sentAfterCleanUp : List Event :=
  .sendUserQuery (.lit "hi") 1 :: mainSteps 4 ++ workerSteps 0 [0, 0, 0, 72, 0, 0, 105] ++
    .stopGeneration :: mainSteps 4 ++ workerSteps 0 [0, 0] ++
    .sendUserQuery (.lit "ok") 2 :: mainSteps 4 ++ workerSteps 1 [0, 0, 0, 89]

theorem cycles_separate_stopped :
    ∃ s, Transition.exec step byteScreen sentAfterCleanUp = some s ∧
      CyclesSeparate s.cycleCalls := by
  obtain ⟨s, hs⟩ := Option.isSome_iff_exists.mp
    (by decide +kernel : (Transition.exec step byteScreen sentAfterCleanUp).isSome)
  refine ⟨s, hs, ?_⟩
  exact cycles_separate byteDatabase SmollAI.byteSmollAI (some (byteChat 1))
    (.of_exec (.start rfl) (by decide +kernel) hs)

/-- The second query is sent before the first worker notices that it is cancelled. The
cancellation of its `catch` block then reaches the second completion. -/
def sentBeforeCleanUp : List Event :=
  .sendUserQuery (.lit "hi") 1 :: mainSteps 4 ++ workerSteps 0 [0, 0, 0, 72] ++
    .stopGeneration :: mainSteps 4 ++
    .sendUserQuery (.lit "ok") 2 :: mainSteps 4 ++ workerSteps 1 [0, 0, 0] ++ workerSteps 0 [0, 0]

theorem cycles_meet :
    ∃ s, Transition.exec step byteScreen sentBeforeCleanUp = some s ∧
      ¬CyclesSeparate s.cycleCalls := by
  have hrun : ∃ s, Transition.exec step byteScreen sentBeforeCleanUp = some s ∧ s.cycleCalls =
      [⟨0, .startCompletion, 1⟩, ⟨0, .completionLoop, 1⟩, ⟨0, .cancelCompletionInternal, 1⟩,
        ⟨1, .startCompletion, 1⟩, ⟨0, .cancelCompletionInternal, 1⟩] :=
    Transition.exec_of_decide (by decide +kernel)
  obtain ⟨s, hs, hcalls⟩ := hrun
  refine ⟨s, hs, ?_⟩
  intro hseparate
  have hopen : OpenCycle (s.cycleCalls.take 4) 1 1 :=
    ⟨s.cycleCalls.take 3, ⟨1, .startCompletion, 1⟩, [], by simp [hcalls], rfl, rfl, rfl, by simp⟩
  have := hseparate (s.cycleCalls.take 4) ⟨0, .cancelCompletionInternal, 1⟩ [] (by simp [hcalls]) 1
    hopen
  cases this

end ViewModel

end SmollChat
