import SmollChat.Model.ByteEngine
import SmollChat.Verification.ViewModel.Equations

/-! # One reply for one generation

A worker that overlaps with no other one stores its reply once, however it ends, and leaves
`isGeneratingResponse` unset. -/

namespace SmollChat

def Worker.LeavesFlag (w : Worker) : Prop :=
  w.cancelled = true ∨ w.phase = .returning ∨ w.phase = .done

namespace ViewModel

variable {a a' : ViewModel} {n : ℕ} {chat : Chat} {saved : List (ℕ × CString)}

/-! ## The replies a run adds -/

def addedReplies (a a' : ViewModel) : List (ℕ × CString) :=
  ((a'.db.messages.drop a.db.messages.length).filter fun m => !m.isUserMessage).map fun m =>
    (m.chatId, m.message)

def savedReplies : ViewModel → List Event → List (ℕ × CString)
  | _, [] => []
  | a, e :: es =>
      match a.step e with
      | none => []
      | some a' => addedReplies a a' ++ savedReplies a' es

def replyOf (chatId : ℕ) (pieces : List CString) : List (ℕ × CString) :=
  if CString.concat pieces = .empty then [] else [(chatId, .concat pieces)]

def Event.isSendUserQuery : Event → Bool
  | .sendUserQuery _ _ => true
  | _ => false

theorem addedReplies_of_messages (h : a'.db.messages = a.db.messages) :
    addedReplies a a' = [] := by
  simp [addedReplies, h]

/-! ## The code beside the worker -/

/-- Code that launches no worker, does not set the flag, and cancels a worker only after it has
reset the flag. -/
def Quiet : Bool → List MainInstr → Prop
  | _, [] => True
  | flag, i :: rest =>
      match i with
      | .setGenerating value => value = false ∧ Quiet false rest
      | .launchWorker _ _ => False
      | .checkJob | .cancelJob _ => flag = false ∧ Quiet flag rest
      | _ => Quiet flag rest

theorem Quiet.reset {flag : Bool} {code : List MainInstr} (h : Quiet flag code) :
    Quiet false code := by
  induction code with
  | nil => trivial
  | cons i code ih =>
      cases i with
      | setGenerating value => exact h
      | launchWorker chat query => exact h
      | checkJob | cancelJob _ => exact ⟨rfl, ih h.2⟩
      | _ => exact ih h

theorem quiet_code {flag : Bool} {rest : List MainInstr} (h : Quiet flag rest)
    (code : List Instr) : Quiet flag (code.map .code ++ rest) := by
  induction code with
  | nil => exact h
  | cons i code ih => exact ih

/-! ## The invariant -/

/-- What the worker has collected and what has been saved for it. -/
def SavedFor (saved : List (ℕ × CString)) (text : CString) (w : Worker) : Prop :=
  match w.phase with
  | .created | .resetting => saved = [] ∧ w.appended = []
  | .starting | .looping | .emitting _ | .appending _ | .ending | .stopping | .catching
  | .checking => saved = [] ∧ text = .concat w.appended
  | .reading => saved = [] ∧ text = .concat w.appended ∧ text ≠ .empty
  | .saving read => saved = [] ∧ read = .concat w.appended ∧ read ≠ .empty
  | .finishing | .posted | .returning | .done => saved = replyOf w.chat.id w.appended

def Collects (w : Worker) : Prop :=
  match w.phase with
  | .created | .resetting | .starting | .looping => w.generated = w.appended
  | .emitting piece | .appending piece => w.generated = w.appended ++ [piece]
  | _ => w.appended <+: w.generated

/-- The `n`-th worker is at work beside ended ones. -/
structure Launched (n : ℕ) (chat : Chat) (a : ViewModel) (saved : List (ℕ × CString)) (w : Worker) :
    Prop where
  here : a.workers[n]? = some w
  last : a.workers.length = n + 1
  others : ∀ i v, i < n → a.workers[i]? = some v → v.phase = .done
  chat : w.chat = chat
  quiet : Quiet a.isGeneratingResponse a.main
  reply : SavedFor saved a.partialResponse w
  collects : Collects w
  flag : w.LeavesFlag → a.isGeneratingResponse = false

/-- `sendUserQuery` is under way, or the worker it launches. -/
inductive Generation (n : ℕ) (chat : Chat) (a : ViewModel) (saved : List (ℕ × CString)) : Prop where
  | sending (query : CString) (k : ℕ) (main : a.main = (ViewModel.sendUserQuery chat query).drop k)
      (before : k < 4) (last : a.workers.length = n) (others : ∀ v ∈ a.workers, v.phase = .done)
      (none : saved = [])
  | launched {w} (launched : Launched n chat a saved w)

/-! ## Steps beside the worker -/

theorem exec_flag {c : Instr} {code : List Instr} (h : a.exec c = some (a', code)) :
    a'.isGeneratingResponse = a.isGeneratingResponse := by
  cases exec_cases h <;> rfl

theorem stepLoad_flag {i : ℕ} {l : LoadJob} {r : LLMInference.LoadAnswer}
    (h : a.stepLoad i l r = some a') : a'.isGeneratingResponse = a.isGeneratingResponse := by
  unfold stepLoad at h
  split at h
  case h_7 =>
      split at h <;> cases h
      rfl
  all_goals cases h <;> rfl

theorem sendUserQuery_drop_ne_nil {query : CString} {k : ℕ} (h : k < 4) :
    (ViewModel.sendUserQuery chat query).drop k ≠ [] := by
  rw [ne_eq, List.drop_eq_nil_iff, Nat.not_le]
  exact h

/-- What a step beside the generation leaves alone: it runs no code of the main thread, or
starts an operation that launches no worker. -/
structure Beside (a a' : ViewModel) : Prop where
  workers : a'.workers = a.workers
  partialResponse : a'.partialResponse = a.partialResponse
  flag : a'.isGeneratingResponse = a.isGeneratingResponse
  messages : a'.db.messages = a.db.messages
  main : a'.main = a.main ∨ a.main = [] ∧ ∀ flag, Quiet flag a'.main

theorem Generation.beside (h : Generation n chat a saved) (hstep : Beside a a') :
    Generation n chat a' (saved ++ addedReplies a a') := by
  rw [addedReplies_of_messages hstep.messages, List.append_nil]
  cases h with
  | sending query k hmain hk hlast hothers hnone =>
      have hsame : a'.main = a.main := by
        rcases hstep.main with hsame | ⟨hidle, -⟩
        · exact hsame
        · exact absurd (hmain.symm.trans hidle) (sendUserQuery_drop_ne_nil hk)
      exact .sending query k (hsame.trans hmain) hk (hstep.workers ▸ hlast)
        (hstep.workers ▸ hothers) hnone
  | launched h =>
      refine .launched ⟨hstep.workers ▸ h.here, hstep.workers ▸ h.last, hstep.workers ▸ h.others,
        h.chat, ?_, hstep.partialResponse ▸ h.reply, h.collects, hstep.flag ▸ h.flag⟩
      rcases hstep.main with hsame | ⟨-, hquiet⟩
      · rw [hsame, hstep.flag]
        exact h.quiet
      · exact hquiet _

theorem step_beside {e : Event} (h : a.step e = some a') (hquery : e.isSendUserQuery = false) :
    Beside a a' ∨ e = .main ∨
      ∃ i w, a.workers[i]? = some w ∧ ((∃ d, e = .worker i d ∧ a.stepWorker i w d = some a') ∨
        (e = .workerThrows i ∧ a.throwWorker i w = some a')) := by
  cases step_cases h with
  | sendUserQuery => cases hquery
  | main hnext hexec => exact .inr (.inl rfl)
  | mainThrows hnext hexec => exact .inr (.inl rfl)
  | worker here hstep => exact .inr (.inr ⟨_, _, here, .inl ⟨_, rfl, hstep⟩⟩)
  | workerThrows here hstep => exact .inr (.inr ⟨_, _, here, .inr ⟨rfl, hstep⟩⟩)
  | load here hstep =>
      obtain ⟨hsame, hmain⟩ := stepLoad_sameGeneration hstep
      exact .inl ⟨hsame.workers, hsame.partialResponse, stepLoad_flag hstep, hsame.messages,
        .inl hmain⟩
  | loadThrows here hstep =>
      obtain rfl := throwLoad_eq hstep
      exact .inl ⟨rfl, rfl, rfl, rfl, .inl rfl⟩
  | importRuns here hexec =>
      obtain ⟨hsame, hmain, -⟩ := exec_sameGeneration hexec
      have hflag := exec_flag hexec
      exact .inl ⟨hsame.workers, hsame.partialResponse, hflag, hsame.messages, .inl hmain⟩
  | importAdds | importEnds | importThrows => exact .inl ⟨rfl, rfl, rfl, rfl, .inl rfl⟩
  | importModel => exact .inl ⟨rfl, rfl, rfl, rfl, .inl rfl⟩
  | newChat hidle | launchedEffect hidle _ | stopGeneration hidle _ | switchChat hidle _
  | updateChat hidle _ _ | deleteChat hidle _ _ | selectModel hidle | deleteModel hidle
  | changeModel hidle | dismissModelList hidle =>
      refine .inl ⟨rfl, rfl, rfl, rfl, .inr ⟨hidle, fun flag => ?_⟩⟩
      simp [Quiet, ViewModel.switchChat, ViewModel.stopGeneration, ViewModel.updateChat,
        ViewModel.deleteChat, ViewModel.selectModel, ViewModel.deleteModel, loadModel,
        updateChatLLM]

/-! ## Steps of the main thread -/

/-- The main thread adds no replies: it adds the user's messages and removes messages. -/
theorem execMain_addedReplies {i : MainInstr} {code : List MainInstr}
    (h : a.execMain i = some (a', code)) : addedReplies a a' = [] := by
  cases execMain_cases h with
  | code hexec => exact addedReplies_of_messages (exec_sameGeneration hexec).1.messages
  | addUserMessage =>
      simp [addedReplies, Database.addUserMessage, Database.addMessage]
  | @deleteMessages chatId =>
      have hle : (a.db.deleteMessages chatId).messages.length ≤ a.db.messages.length :=
        List.length_filter_le _ _
      simp [addedReplies, List.drop_eq_nil_of_le hle]
  | _ => exact addedReplies_of_messages rfl

theorem Launched.next {w : Worker} (h : Launched n chat a saved w)
    (hworkers : a'.workers = a.workers) (hresponse : a'.partialResponse = a.partialResponse)
    (hquiet : Quiet a'.isGeneratingResponse a'.main)
    (hflag : a.isGeneratingResponse = false → a'.isGeneratingResponse = false) :
    Launched n chat a' saved w :=
  ⟨hworkers ▸ h.here, hworkers ▸ h.last, hworkers ▸ h.others, h.chat, hquiet,
    hresponse ▸ h.reply, h.collects, fun hleaves => hflag (h.flag hleaves)⟩

theorem Launched.cancel {w : Worker} {job : ℕ} {rest : List MainInstr}
    (h : Launched n chat a saved w) (hflag : a.isGeneratingResponse = false)
    (hquiet : Quiet a.isGeneratingResponse rest) :
    ∃ w', Launched n chat { a with
      workers := a.workers.modify job fun w => { w with cancelled := true }
      main := rest } saved w' := by
  have hworkers (j : ℕ) : (a.workers.modify job fun w => { w with cancelled := true })[j]? =
      a.workers[j]?.map fun w => if job = j then { w with cancelled := true } else w := by
    rw [List.getElem?_modify]
    split <;> simp
  have hothers : ∀ i v, i < n →
      (a.workers.modify job fun w => { w with cancelled := true })[i]? = some v →
        v.phase = .done := by
    intro i v hi hv
    obtain ⟨u, hu, rfl⟩ := Option.map_eq_some_iff.mp ((hworkers i).symm.trans hv)
    have hdone := h.others i u hi hu
    split <;> exact hdone
  have hhere := hworkers n
  rw [h.here] at hhere
  refine ⟨_, hhere, (List.length_modify _ _ _).trans h.last, hothers, ?_, hquiet, ?_, ?_,
    fun _ => hflag⟩
  · split <;> exact h.chat
  · split <;> exact h.reply
  · split <;> exact h.collects

theorem Launched.main {w : Worker} {i : MainInstr} {rest code : List MainInstr}
    (h : Launched n chat a saved w) (hnext : a.main = i :: rest)
    (hexec : a.execMain i = some (a', code)) :
    ∃ w', Launched n chat { a' with main := code ++ rest } saved w' := by
  have hquiet := h.quiet
  rw [hnext] at hquiet
  cases execMain_cases hexec with
  | code hc =>
      obtain ⟨hsame, -, -⟩ := exec_sameGeneration hc
      have hflag := exec_flag hc
      refine ⟨w, h.next hsame.workers hsame.partialResponse ?_ hflag.trans⟩
      exact quiet_code (hflag.symm ▸ hquiet) _
  | setGenerating =>
      obtain ⟨rfl, hquiet⟩ := hquiet
      exact ⟨w, h.next rfl rfl hquiet fun _ => rfl⟩
  | launchWorker => exact hquiet.elim
  | noJob => exact ⟨w, h.next rfl rfl hquiet.2 id⟩
  | checkJob => exact ⟨w, h.next rfl rfl ⟨hquiet.1, hquiet.2⟩ id⟩
  | cancelJob => exact h.cancel hquiet.1 hquiet.2
  | _ => exact ⟨w, h.next rfl rfl hquiet id⟩

theorem Launched.launch {query : CString} (hlast : a.workers.length = n)
    (hothers : ∀ v ∈ a.workers, v.phase = .done) :
    Launched n chat { a with
      workers := a.workers ++ [⟨chat, query, .created, false, [], []⟩]
      responseGenerationJob := some a.workers.length
      main := [] } [] ⟨chat, query, .created, false, [], []⟩ where
  here := by rw [← hlast]; exact List.getElem?_concat_length
  last := by simp [hlast]
  others i v hi hv := by
    rw [List.getElem?_append_left (by omega)] at hv
    exact hothers v (List.mem_of_getElem? hv)
  chat := rfl
  quiet := trivial
  reply := ⟨rfl, rfl⟩
  collects := rfl
  flag h := by
    rcases h with h | h | h <;> cases h

theorem Generation.main (h : Generation n chat a saved) (hstep : a.step .main = some a') :
    Generation n chat a' (saved ++ addedReplies a a') := by
  cases step_cases hstep with
  | mainThrows hnext hexec => exact h.beside ⟨rfl, rfl, rfl, rfl, .inl rfl⟩
  | @main i rest a₁ code hnext hexec =>
      have hadded := execMain_addedReplies hexec
      change Generation n chat _ (saved ++ addedReplies a a₁)
      rw [hadded, List.append_nil]
      cases h with
      | sending query k hmain hk hlast hothers hnone =>
          rw [hnext] at hmain
          match k, hk with
          | 0, _ =>
              cases hmain
              cases hexec
              exact .sending query 1 rfl (by omega) hlast hothers hnone
          | 1, _ =>
              cases hmain
              cases hexec
              exact .sending query 2 rfl (by omega) hlast hothers hnone
          | 2, _ =>
              cases hmain
              cases hexec
              exact .sending query 3 rfl (by omega) hlast hothers hnone
          | 3, _ =>
              subst hnone
              cases hmain
              cases hexec
              exact .launched (Launched.launch hlast hothers)
      | launched h =>
          obtain ⟨w', h'⟩ := h.main hnext hexec
          exact .launched h'

/-! ## Steps of the worker -/

theorem Launched.advance {w w' : Worker} {saved' : List (ℕ × CString)}
    (h : Launched n chat a saved w) (hworkers : a'.workers = (a.setWorker n w').workers)
    (hchat : w'.chat = w.chat) (hmain : a'.main = a.main)
    (hflag : a'.isGeneratingResponse = a.isGeneratingResponse ∨ a'.isGeneratingResponse = false)
    (hreply : SavedFor saved' a'.partialResponse w') (hcollects : Collects w')
    (hleaves : w'.LeavesFlag → w.LeavesFlag ∨ a'.isGeneratingResponse = false) :
    Launched n chat a' saved' w' where
  here := by rw [hworkers, setWorker_getElem? h.here, if_pos rfl]
  last := by simp [hworkers, ViewModel.setWorker, h.last]
  others i v hi hv := by
    rw [hworkers, setWorker_getElem? h.here, if_neg (by omega)] at hv
    exact h.others i v hi hv
  chat := hchat.trans h.chat
  quiet := by
    rw [hmain]
    rcases hflag with hsame | hreset
    · rw [hsame]
      exact h.quiet
    · rw [hreset]
      exact h.quiet.reset
  reply := hreply
  collects := hcollects
  flag hleaves' := by
    rcases hleaves hleaves' with hleft | hreset
    · rcases hflag with hsame | hreset
      · rw [hsame]
        exact h.flag hleft
      · exact hreset
    · exact hreset

/-- A step that saves nothing and leaves the flag alone. -/
theorem Launched.move {w w' : Worker} (h : Launched n chat a saved w)
    (hworkers : a'.workers = (a.setWorker n w').workers) (hchat : w'.chat = w.chat)
    (hmain : a'.main = a.main) (hflag : a'.isGeneratingResponse = a.isGeneratingResponse)
    (hmessages : a'.db.messages = a.db.messages)
    (hleaves : w'.LeavesFlag → w.LeavesFlag)
    (hreply : SavedFor saved a.partialResponse w → SavedFor saved a'.partialResponse w')
    (hcollects : Collects w → Collects w') :
    Launched n chat a' (saved ++ addedReplies a a') w' := by
  rw [addedReplies_of_messages hmessages, List.append_nil]
  exact h.advance hworkers hchat hmain (.inl hflag) (hreply h.reply) (hcollects h.collects)
    fun hleaves' => .inl (hleaves hleaves')

theorem Launched.pass {w w' : Worker} (h : Launched n chat a saved w)
    (hworkers : a'.workers = (a.setWorker n w').workers) (hchat : w'.chat = w.chat)
    (hmain : a'.main = a.main) (hflag : a'.isGeneratingResponse = a.isGeneratingResponse)
    (hmessages : a'.db.messages = a.db.messages) (hcancelled : w'.cancelled = w.cancelled)
    (hgoes : w'.phase ≠ .returning ∧ w'.phase ≠ .done)
    (hreply : SavedFor saved a.partialResponse w → SavedFor saved a'.partialResponse w')
    (hcollects : Collects w → Collects w') :
    Launched n chat a' (saved ++ addedReplies a a') w' := by
  refine h.move hworkers hchat hmain hflag hmessages ?_ hreply hcollects
  rintro (hleaves | hreturning | hdone)
  · exact .inl (hcancelled.symm.trans hleaves)
  · exact absurd hreturning hgoes.1
  · exact absurd hdone hgoes.2

/-- The one step that adds a reply. -/
theorem Launched.saves {w : Worker} {text : CString} (h : Launched n chat a saved w)
    (hphase : w.phase = .saving text) :
    Launched n chat
      { a.setWorker n { w with phase := .finishing } with
        db := a.db.addAssistantMessage w.chat.id text }
      (saved ++ addedReplies a { a.setWorker n { w with phase := .finishing } with
        db := a.db.addAssistantMessage w.chat.id text })
      { w with phase := .finishing } := by
  have hreply := h.reply
  have hcollects := h.collects
  simp only [SavedFor, Collects, hphase] at hreply hcollects
  obtain ⟨hsaved, htext, hne⟩ := hreply
  have hadded : addedReplies a { a.setWorker n { w with phase := .finishing } with
      db := a.db.addAssistantMessage w.chat.id text } = replyOf w.chat.id w.appended := by
    rw [replyOf, if_neg (htext ▸ hne)]
    simp [addedReplies, Database.addAssistantMessage, Database.addMessage, htext]
  rw [hadded, hsaved, List.nil_append]
  refine h.advance rfl rfl rfl (.inl rfl) rfl hcollects fun hleaves => .inl (.inl ?_)
  simpa [Worker.LeavesFlag] using hleaves

/-- The one step that resets the flag. -/
theorem Launched.resumes {w : Worker} (h : Launched n chat a saved w)
    (hphase : w.phase = .posted) :
    Launched n chat
      { a.setWorker n { w with phase := .returning } with isGeneratingResponse := false }
      (saved ++ addedReplies a
        { a.setWorker n { w with phase := .returning } with isGeneratingResponse := false })
      { w with phase := .returning } := by
  have hreply := h.reply
  have hcollects := h.collects
  simp only [SavedFor, Collects, hphase] at hreply hcollects
  have hadded : addedReplies a { a.setWorker n { w with phase := .returning } with
      isGeneratingResponse := false } = [] := addedReplies_of_messages rfl
  rw [hadded, List.append_nil]
  exact h.advance rfl rfl rfl (.inr rfl) hreply hcollects fun _ => .inr rfl

theorem Launched.worker {w : Worker} {d : Draw} (h : Launched n chat a saved w)
    (hstep : a.stepWorker n w d = some a') :
    ∃ w', Launched n chat a' (saved ++ addedReplies a a') w' := by
  cases stepWorker_cases hstep with
  | dropped hphase hcancelled =>
      refine ⟨_, h.move rfl rfl rfl rfl rfl (fun _ => .inl hcancelled) ?_ ?_⟩
      · simp only [SavedFor, hphase]
        rintro ⟨rfl, hnone⟩
        simp [hnone, replyOf]
      · simp only [Collects, hphase]
        exact fun hsame => hsame ▸ List.prefix_rfl
  | starts hphase _ | aborts hphase _ | emits hphase _ | begins hphase _ | finishes hphase
  | stopsAgain hphase | cancels hphase | reads hphase | posts hphase _ =>
      refine ⟨_, h.pass rfl rfl rfl rfl rfl rfl (by simp) ?_ ?_⟩
      · simp only [SavedFor, hphase]
        exact id
      · simp only [Collects, hphase]
        exact id
  | resets hphase =>
      refine ⟨_, h.pass rfl rfl rfl rfl rfl rfl (by simp) ?_ ?_⟩
      · simp only [SavedFor, hphase]
        rintro ⟨hsaved, hnone⟩
        simp [hsaved, hnone]
      · simp only [Collects, hphase]
        exact id
  | ends hphase _ =>
      refine ⟨_, h.pass rfl rfl rfl rfl rfl rfl (by simp) ?_ ?_⟩
      · simp only [SavedFor, hphase]
        exact id
      · simp only [Collects, hphase]
        exact fun hsame => hsame ▸ List.prefix_rfl
  | receives hphase _ _ =>
      refine ⟨_, h.pass rfl rfl rfl rfl rfl rfl (by simp) ?_ ?_⟩
      · simp only [SavedFor, hphase]
        exact id
      · simp only [Collects, hphase]
        exact fun hsame => by rw [hsame]
  | stops hphase _ =>
      refine ⟨_, h.pass rfl rfl rfl rfl rfl rfl (by simp) ?_ ?_⟩
      · simp only [SavedFor, hphase]
        exact id
      · simp only [Collects, hphase]
        exact fun hsame => hsame ▸ List.prefix_append _ _
  | appends hphase =>
      refine ⟨_, h.pass rfl rfl rfl rfl rfl rfl (by simp) ?_ ?_⟩
      · simp only [SavedFor, hphase]
        rintro ⟨hsaved, htext⟩
        simp [hsaved, htext]
      · simp only [Collects, hphase]
        exact id
  | empty hphase hempty =>
      refine ⟨_, h.pass rfl rfl rfl rfl rfl rfl (by simp) ?_ ?_⟩
      · simp only [SavedFor, hphase]
        rintro ⟨hsaved, htext⟩
        rw [replyOf, if_pos (htext.symm.trans hempty), hsaved]
      · simp only [Collects, hphase]
        exact id
  | nonempty hphase hne =>
      refine ⟨_, h.pass rfl rfl rfl rfl rfl rfl (by simp) ?_ ?_⟩
      · simp only [SavedFor, hphase]
        exact fun ⟨hsaved, htext⟩ => ⟨hsaved, htext, hne⟩
      · simp only [Collects, hphase]
        exact id
  | saves hphase => exact ⟨_, h.saves hphase⟩
  | leaves hphase hcancelled =>
      refine ⟨_, h.move rfl rfl rfl rfl rfl (fun _ => .inl hcancelled) ?_ ?_⟩
      · rcases hphase with hphase | hphase <;> simp only [SavedFor, hphase] <;> exact id
      · rcases hphase with hphase | hphase <;> simp only [Collects, hphase] <;> exact id
  | resumes hphase _ => exact ⟨_, h.resumes hphase⟩
  | returns hphase =>
      refine ⟨_, h.move rfl rfl rfl rfl rfl (fun _ => .inr (.inl hphase)) ?_ ?_⟩
      · simp only [SavedFor, hphase]
        exact id
      · simp only [Collects, hphase]
        exact id

theorem Launched.throws {w : Worker} (h : Launched n chat a saved w)
    (hstep : a.throwWorker n w = some a') :
    ∃ w', Launched n chat a' (saved ++ addedReplies a a') w' := by
  obtain ⟨rfl, hphase⟩ := throwWorker_eq hstep
  rcases hphase with hphase | hphase | hphase | hphase
  all_goals
    refine ⟨_, h.pass rfl rfl rfl rfl rfl rfl (by simp) ?_ ?_⟩
    · simp only [SavedFor, hphase]
      exact id
  · simp only [Collects, hphase]
    exact fun hsame => hsame ▸ List.prefix_rfl
  · simp only [Collects, hphase]
    exact fun hsame => hsame ▸ List.prefix_rfl
  · simp only [Collects, hphase]
    exact id
  · simp only [Collects, hphase]
    exact id

theorem Generation.worker {e : Event} {i : ℕ} {w : Worker} (h : Generation n chat a saved)
    (here : a.workers[i]? = some w)
    (hstep : (∃ d, e = .worker i d ∧ a.stepWorker i w d = some a') ∨
      (e = .workerThrows i ∧ a.throwWorker i w = some a')) :
    Generation n chat a' (saved ++ addedReplies a a') := by
  -- an ended worker makes no step
  have hnotDone : w.phase ≠ .done := by
    intro hdone
    rcases hstep with ⟨d, -, hstep⟩ | ⟨-, hthrow⟩
    · simp [stepWorker, hdone] at hstep
    · simp [throwWorker, hdone] at hthrow
  cases h with
  | sending _ _ _ _ _ hothers => exact absurd (hothers w (List.mem_of_getElem? here)) hnotDone
  | @launched v h =>
      have hlt : i < n + 1 := h.last ▸ (List.getElem?_eq_some_iff.mp here).1
      obtain rfl : i = n := by
        by_contra hne
        exact hnotDone (h.others i w (by omega) here)
      obtain rfl : v = w := Option.some.inj (h.here.symm.trans here)
      rcases hstep with ⟨d, -, hstep⟩ | ⟨-, hthrow⟩
      · obtain ⟨w', h'⟩ := h.worker hstep
        exact .launched h'
      · obtain ⟨w', h'⟩ := h.throws hthrow
        exact .launched h'

/-! ## Runs -/

theorem Generation.step {e : Event} (h : Generation n chat a saved)
    (hquery : e.isSendUserQuery = false) (hstep : a.step e = some a') :
    Generation n chat a' (saved ++ addedReplies a a') := by
  rcases step_beside hstep hquery with hbeside | rfl | ⟨i, w, here, hworker⟩
  · exact h.beside hbeside
  · exact h.main hstep
  · exact h.worker here hworker

theorem Generation.run {es : List Event} (h : Generation n chat a saved)
    (hquery : ∀ e ∈ es, e.isSendUserQuery = false)
    (hexec : Transition.exec ViewModel.step a es = some a') :
    Generation n chat a' (saved ++ savedReplies a es) := by
  induction es generalizing a saved with
  | nil =>
      obtain rfl : a = a' := by simpa [Transition.exec] using hexec
      rw [savedReplies, List.append_nil]
      exact h
  | cons e es ih =>
      obtain ⟨a₁, hstep, hrest⟩ := Option.bind_eq_some_iff.mp hexec
      have hnext := ih (h.step (hquery e List.mem_cons_self) hstep)
        (fun e' he' => hquery e' (List.mem_cons_of_mem e he')) hrest
      rw [savedReplies, hstep, ← List.append_assoc]
      exact hnext

/-- The worker's pieces have been saved as one reply in the chat, or not at all where they are
empty, and the flag is unset. -/
structure SavedOnce (chatId : Option ℕ) (saved : List (ℕ × CString)) (w : Worker)
    (a : ViewModel) : Prop where
  chat : chatId = some w.chat.id
  reply : saved = replyOf w.chat.id w.appended
  pieces : w.appended <+: w.generated
  flag : a.isGeneratingResponse = false

/-- However the worker of a query ends that overlaps with no other generation, its reply has
been saved once. -/
theorem reply_saved_once (a₀ : ViewModel) (query : CString) (date : ℕ) (es : List Event)
    (a : ViewModel) (w : Worker) (hothers : ∀ v ∈ a₀.workers, v.phase = .done)
    (hquery : ∀ e ∈ es, e.isSendUserQuery = false)
    (hexec : Transition.exec ViewModel.step a₀ (.sendUserQuery query date :: es) = some a)
    (here : a.workers[a₀.workers.length]? = some w) (hdone : w.phase = .done) :
    SavedOnce (a₀.currChat.map Chat.id)
      (savedReplies a₀ (.sendUserQuery query date :: es)) w a := by
  obtain ⟨a₁, hstep, hrest⟩ := Option.bind_eq_some_iff.mp hexec
  rw [savedReplies, hstep]
  cases step_cases hstep with
  | @sendUserQuery _ _ chat hidle hcurr _ _ _ =>
      have hstart : Generation a₀.workers.length { chat with dateUsed := date }
          { a₀ with
            currChat := some { chat with dateUsed := date }
            main := ViewModel.sendUserQuery { chat with dateUsed := date } query } [] :=
        .sending query 0 rfl (by omega) rfl hothers rfl
      have hadded : addedReplies a₀ { a₀ with
          currChat := some { chat with dateUsed := date }
          main := ViewModel.sendUserQuery { chat with dateUsed := date } query } = [] :=
        addedReplies_of_messages rfl
      rw [hcurr]
      simp only [hadded, List.nil_append]
      cases hstart.run hquery hrest with
      | sending _ _ _ _ hlast _ _ =>
          have hlt := (List.getElem?_eq_some_iff.mp here).1
          omega
      | launched h =>
          obtain rfl := Option.some.inj (h.here.symm.trans here)
          have hreply := h.reply
          have hcollects := h.collects
          simp only [SavedFor, Collects, hdone, List.nil_append] at hreply hcollects
          refine ⟨?_, hreply, hcollects, h.flag (.inr (.inr hdone))⟩
          rw [h.chat]
          rfl

def stoppedQuery : List Event :=
  mainSteps 4 ++ workerSteps 0 [0, 0, 0, 72, 0, 0, 105] ++ .stopGeneration :: mainSteps 4 ++
    workerSteps 0 [0, 0, 0, 0, 0, 0]

theorem reply_saved_stopped : ∃ a w,
    Transition.exec ViewModel.step byteScreen (.sendUserQuery (.lit "hi") 1 :: stoppedQuery) =
      some a ∧ w.appended.length = 1 ∧
      SavedOnce (some 1) (savedReplies byteScreen (.sendUserQuery (.lit "hi") 1 :: stoppedQuery))
        w a := by
  have hrun : ∃ a, Transition.exec ViewModel.step byteScreen
      (.sendUserQuery (.lit "hi") 1 :: stoppedQuery) = some a ∧
      (a.workers[0]?.any fun w => w.phase = .done && w.appended.length = 1) = true :=
    Transition.exec_of_decide (by decide +kernel)
  obtain ⟨a, hexec, hany⟩ := hrun
  obtain ⟨w, here, hw⟩ := Option.any_eq_true _ _ |>.mp hany
  simp only [Bool.and_eq_true, decide_eq_true_eq] at hw
  exact ⟨a, w, hexec, hw.2, reply_saved_once byteScreen (.lit "hi") 1 stoppedQuery a w
    (by decide) (by decide) hexec here hw.1⟩

end ViewModel

end SmollChat
