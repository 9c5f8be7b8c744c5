import Mathlib.Data.List.Forall2
import SmollChat.Library.Segments
import SmollChat.Model.ByteEngine
import SmollChat.Verification.SmollAI.Record
import SmollChat.Verification.ViewModel.History

/-! # Turns

A turn is recorded twice: the native instance keeps the query and the cleaned response of a
generation that ended, the database the query and the text that was streamed. The two
records agree where every turn leaves the same entries in both. -/

namespace SmollChat

open LLMInference (storedMessage storedReply)

/-! ## One turn -/

/-- What became of a turn's response in the native instance. -/
inductive Outcome where
  /-- the generation ended and the response was cleaned and kept -/
  | ended
  /-- a cancellation discarded the response -/
  | discarded
  /-- the coroutine was cancelled before it began -/
  | dropped

/-- A turn: the query and the text that reached `partialResponse`. -/
structure Turn where
  query : CString
  streamed : CString
  outcome : Outcome

namespace Turn

def asked (t : Turn) : List Message := storedMessage t.query (.lit "user")

/-- The entries a turn leaves in the native list. -/
def live (t : Turn) : List Message :=
  match t.outcome with
  | .ended => t.asked ++ storedReply true t.streamed.bytes
  | .discarded => t.asked
  | .dropped => []

/-- The entries of the messages a turn leaves in the database. -/
def stored (t : Turn) : List Message := t.asked ++ storedMessage t.streamed (.lit "assistant")

/-- Cleaning makes no difference to the entry of the reply, or there is no reply. -/
def Agrees (t : Turn) : Prop :=
  match t.outcome with
  | .ended => storedReply true t.streamed.bytes = storedMessage t.streamed (.lit "assistant")
  | .discarded => t.streamed = .empty
  | .dropped => False

theorem storedMessage_assistant (text : CString) :
    ∀ m ∈ storedMessage text (.lit "assistant"), (m.role == .lit "user") = false := by
  unfold storedMessage
  split
  · simp
  · intro m hm
    obtain rfl := List.mem_singleton.mp hm
    exact (by decide : ((CString.lit "assistant") == .lit "user") = false)

theorem asked_eq {t : Turn} (h : t.query ≠ .empty) :
    t.asked = [⟨.lit "user", t.query.take LLMInference.maxMessageLength⟩] :=
  LLMInference.storedMessage_user h

theorem asked_append_isSegment {t : Turn} (h : t.query ≠ .empty) {replies : List Message}
    (hreplies : ∀ m ∈ replies, (m.role == .lit "user") = false) :
    Segments.IsSegment (·.role == .lit "user") (t.asked ++ replies) :=
  ⟨_, replies, by rw [asked_eq h, List.singleton_append], by simp, hreplies⟩

theorem live_segment {t : Turn} (h : t.query ≠ .empty) :
    t.live = [] ∨ Segments.IsSegment (·.role == .lit "user") t.live := by
  unfold live
  split
  · refine .inr (asked_append_isSegment h ?_)
    unfold storedReply
    split
    · exact storedMessage_assistant _
    · simp
  · refine .inr ?_
    have hsegment := asked_append_isSegment h (List.forall_mem_nil _)
    rwa [List.append_nil] at hsegment
  · exact .inl rfl

theorem storedMessage_assistant_nil {text : CString} :
    storedMessage text (.lit "assistant") = [] ↔ text = .empty := by
  have hrole : (CString.lit "assistant").isEmpty = false := by decide
  unfold storedMessage
  rw [hrole, Bool.or_false]
  cases hempty : text.isEmpty with
  | true => exact iff_of_true rfl (CString.isEmpty_iff.mp hempty)
  | false =>
      refine iff_of_false (List.cons_ne_nil _ _) ?_
      rintro rfl
      cases hempty

theorem live_eq_stored_iff {t : Turn} (h : t.query ≠ .empty) : t.live = t.stored ↔ t.Agrees := by
  cases houtcome : t.outcome with
  | ended => simp only [live, stored, Agrees, houtcome, List.append_cancel_left_eq]
  | discarded =>
      simp only [live, stored, Agrees, houtcome, List.self_eq_append_right]
      exact storedMessage_assistant_nil
  | dropped =>
      simp only [live, stored, Agrees, houtcome, iff_false]
      rw [asked_eq h]
      exact (List.cons_ne_nil _ _).symm

theorem flatMap_live_eq_iff {ts : List Turn} (h : ∀ t ∈ ts, t.query ≠ .empty) :
    ts.flatMap live = ts.flatMap stored ↔ ∀ t ∈ ts, t.Agrees := by
  rw [Segments.flatMap_eq_iff (p := (·.role == .lit "user"))
    (fun t ht => asked_append_isSegment (h t ht) (storedMessage_assistant t.streamed))
    (fun t ht => live_segment (h t ht))]
  exact forall₂_congr fun t ht => live_eq_stored_iff (h t ht)

end Turn

namespace ViewModel

variable {a a' : ViewModel} {chat : Chat} {before : List Message}

/-! ## Turns one after the other -/

/-- A chat is open, its history has been replayed and nothing is running. -/
structure LoadedChat (chat : Chat) (a : ViewModel) : Prop where
  currChat : a.currChat = some chat
  main : a.main = []
  workers : a.workers = []
  isGeneratingResponse : a.isGeneratingResponse = false
  responseGenerationJob : a.responseGenerationJob = none
  records : a.smollai.Records (a.db.history chat) []

/-- Turns of which each is over before the next one begins, without the over-length branch
and with plain results of the native loop. -/
def TurnScenario (a : ViewModel) : Event → Prop
  | .sendUserQuery _ _ => ∀ w ∈ a.workers, w.phase = .done
  | .stopGeneration | .main => True
  | .worker i d =>
      match a.workers[i]? with
      | some w =>
          (w.phase = .starting →
            (a.smollai.startCompletion w.query).2.truncations = a.smollai.truncations) ∧
          (w.phase = .looping → (a.smollai.loopResult d).isPlain = true)
      | none => True
  | _ => False

instance (a : ViewModel) (e : Event) : Decidable (TurnScenario a e) := by
  rcases e with _ | _ <;> dsimp only [TurnScenario]
  case worker i d =>
    rcases a.workers[i]? with _ | _ <;> infer_instance
  all_goals infer_instance

structure AtRest (a : ViewModel) : Prop where
  alive : a.aborted = false
  main : a.main = []
  done : ∀ w ∈ a.workers, w.phase = .done

instance (a : ViewModel) : Decidable (AtRest a) :=
  decidable_of_iff (a.aborted = false ∧ a.main = [] ∧ ∀ w ∈ a.workers, w.phase = .done)
    ⟨fun h => ⟨h.1, h.2.1, h.2.2⟩, fun h => ⟨h.alive, h.main, h.done⟩⟩

/-- The turn of a worker. A turn that was not stopped has ended, one that has ended has
streamed all its pieces, and one that was dropped has none. -/
structure TurnOf (w : Worker) (t : Turn) : Prop where
  query : t.query = w.query
  asks : t.query ≠ .empty
  streamed : t.streamed = .concat w.appended
  ended : w.cancelled = false → t.outcome = .ended
  complete : t.outcome = .ended → w.appended = w.generated
  dropped : t.outcome = .dropped → w.generated = []

/-! ## The invariant -/

def Closed : List Worker → List Turn → Prop :=
  List.Forall₂ fun w t => w.phase = .done ∧ TurnOf w t

/-- The native response is all that was generated, or a cancellation has cleared it. -/
def Held (response : Bytes) (w : Worker) : Prop :=
  response = (CString.concat w.generated).bytes ∨ (w.cancelled = true ∧ response = [])

/-- What the turn of a worker has left in the native list and in the database so far, with
the partial response and the native response that go with it. -/
def Recorded (cell : CString) (response : Bytes) (w : Worker) (live stored : List Message) : Prop :=
  match w.phase with
  | .created | .resetting =>
      w.generated = [] ∧ w.appended = [] ∧ response = [] ∧ live = [] ∧
        stored = storedMessage w.query (.lit "user")
  | .starting =>
      w.generated = [] ∧ w.appended = [] ∧ response = [] ∧ live = [] ∧
        stored = storedMessage w.query (.lit "user") ∧ cell = .empty
  | .looping | .ending =>
      w.generated = w.appended ∧ Held response w ∧ live = storedMessage w.query (.lit "user") ∧
        stored = storedMessage w.query (.lit "user") ∧ cell = .concat w.appended
  | .emitting piece =>
      w.generated = w.appended ++ [piece] ∧
        (response = (CString.concat w.generated).bytes ∨ w.cancelled = true) ∧
        live = storedMessage w.query (.lit "user") ∧
        stored = storedMessage w.query (.lit "user") ∧ cell = .concat w.appended
  | .appending piece =>
      w.generated = w.appended ++ [piece] ∧ Held response w ∧
        live = storedMessage w.query (.lit "user") ∧
        stored = storedMessage w.query (.lit "user") ∧ cell = .concat w.appended
  | .catching =>
      w.cancelled = true ∧ live = storedMessage w.query (.lit "user") ∧
        stored = storedMessage w.query (.lit "user") ∧ cell = .concat w.appended
  | .stopping | .checking | .reading =>
      ∃ t, TurnOf w t ∧ response = [] ∧ live = t.live ∧ stored = t.asked ∧ cell = t.streamed
  | .saving text =>
      ∃ t, TurnOf w t ∧ response = [] ∧ live = t.live ∧ stored = t.asked ∧ text = t.streamed
  | .finishing | .posted | .returning | .done =>
      ∃ t, TurnOf w t ∧ response = [] ∧ live = t.live ∧ stored = t.stored

/-- The code of `stopGeneration` that may be left on the main thread during a turn. -/
inductive StopCode (job : ℕ) (cancelled : Bool) : List MainInstr → Prop where
  | idle : StopCode job cancelled []
  | stop : StopCode job cancelled [.setGenerating false, .checkJob]
  | check : StopCode job cancelled [.checkJob]
  | cancel : StopCode job cancelled [.cancelJob job, .cancelCompletion job]
  | clear (stopped : cancelled = true) : StopCode job cancelled [.cancelCompletion job]

/-- The last worker's turn is on, after those of the other workers. -/
structure InTurn (chat : Chat) (before : List Message) (a : ViewModel) (ts : List Turn)
    (ws : List Worker) (w : Worker) : Prop where
  workers : a.workers = ws ++ [w]
  closed : Closed ws ts
  here : w.chat.id = chat.id
  asks : w.query ≠ .empty
  code : StopCode ws.length w.cancelled a.main
  recorded : ∃ live stored response,
    a.smollai.Records (before ++ ts.flatMap Turn.live ++ live) response ∧
    a.db.history chat = before ++ ts.flatMap Turn.stored ++ stored ∧
    Recorded a.partialResponse response w live stored

/-- Where the screen is between two turns or in one. -/
inductive TurnStage (chat : Chat) (before : List Message) (a : ViewModel) : Prop where
  | waiting (workers : a.workers = []) (main : a.main = [])
      (idle : a.isGeneratingResponse = false) (records : a.smollai.Records before [])
      (history : a.db.history chat = before)
  | sending {c query ts} (main : a.main = ViewModel.sendUserQuery c query ∨
        a.main = (ViewModel.sendUserQuery c query).drop 1)
      (here : c.id = chat.id) (asks : query ≠ .empty) (closed : Closed a.workers ts)
      (records : a.smollai.Records (before ++ ts.flatMap Turn.live) [])
      (history : a.db.history chat = before ++ ts.flatMap Turn.stored)
  | asked {c query ts} (main : a.main = (ViewModel.sendUserQuery c query).drop 2 ∨
        a.main = (ViewModel.sendUserQuery c query).drop 3)
      (here : c.id = chat.id) (asks : query ≠ .empty) (closed : Closed a.workers ts)
      (records : a.smollai.Records (before ++ ts.flatMap Turn.live) [])
      (history : a.db.history chat =
        before ++ ts.flatMap Turn.stored ++ storedMessage query (.lit "user"))
  | turn {ts ws w} (inTurn : InTurn chat before a ts ws w)

structure TurnInv (chat : Chat) (before : List Message) (a : ViewModel) : Prop where
  currChat : ∃ c, a.currChat = some c ∧ c.id = chat.id
  job : ∀ j, a.responseGenerationJob = some j → j + 1 = a.workers.length
  stage : a.aborted = true ∨ TurnStage chat before a

theorem LoadedChat.turnInv (h : LoadedChat chat a) : TurnInv chat (a.db.history chat) a where
  currChat := ⟨chat, h.currChat, rfl⟩
  job j hj := by rw [h.responseGenerationJob] at hj; cases hj
  stage := .inr (.waiting h.workers h.main h.isGeneratingResponse h.records rfl)

/-! ## Steps of the worker -/

theorem TurnOf.setPhase {w : Worker} {t : Turn} (h : TurnOf w t) (phase : WorkerPhase) :
    TurnOf { w with phase := phase } t :=
  ⟨h.query, h.asks, h.streamed, h.ended, h.complete, h.dropped⟩

theorem InTurn.last {ts : List Turn} {ws : List Worker} {w : Worker}
    (h : InTurn chat before a ts ws w) : a.workers[ws.length]? = some w := by
  simp [h.workers]

theorem InTurn.advance {ts : List Turn} {ws : List Worker} {w w' : Worker}
    (h : InTurn chat before a ts ws w) (hworkers : a'.workers = (a.setWorker ws.length w').workers)
    (hchat : w'.chat = w.chat) (hquery : w'.query = w.query)
    (hcancelled : w'.cancelled = w.cancelled) (hmain : a'.main = a.main)
    (hrecorded : ∀ live stored response,
      a.smollai.Records (before ++ ts.flatMap Turn.live ++ live) response →
      a.db.history chat = before ++ ts.flatMap Turn.stored ++ stored →
      Recorded a.partialResponse response w live stored → ∃ live' stored' response',
        a'.smollai.Records (before ++ ts.flatMap Turn.live ++ live') response' ∧
        a'.db.history chat = before ++ ts.flatMap Turn.stored ++ stored' ∧
        Recorded a'.partialResponse response' w' live' stored') :
    InTurn chat before a' ts ws w' where
  workers := by simp [hworkers, ViewModel.setWorker, h.workers]
  closed := h.closed
  here := by rw [hchat, h.here]
  asks := hquery ▸ h.asks
  code := by rw [hcancelled, hmain]; exact h.code
  recorded := by
    obtain ⟨live, stored, response, hrecords, hhistory, hrec⟩ := h.recorded
    exact hrecorded live stored response hrecords hhistory hrec

theorem InTurn.keep {ts : List Turn} {ws : List Worker} {w w' : Worker}
    (h : InTurn chat before a ts ws w) (hworkers : a'.workers = (a.setWorker ws.length w').workers)
    (hchat : w'.chat = w.chat) (hquery : w'.query = w.query)
    (hcancelled : w'.cancelled = w.cancelled) (hmain : a'.main = a.main)
    (hsmollai : a'.smollai = a.smollai) (hdb : a'.db = a.db)
    (hrecorded : ∀ live stored response, Recorded a.partialResponse response w live stored →
      Recorded a'.partialResponse response w' live stored) :
    InTurn chat before a' ts ws w' := by
  refine h.advance hworkers hchat hquery hcancelled hmain ?_
  intro live stored response hrecords hhistory hrec
  exact ⟨live, stored, response, hsmollai ▸ hrecords, hdb ▸ hhistory,
    hrecorded live stored response hrec⟩

/-- A cancellation of the worker leaves the record of its turn. -/
theorem Recorded.cancel {cell : CString} {response : Bytes} {w : Worker}
    {live stored : List Message} (h : Recorded cell response w live stored) :
    Recorded cell response { w with cancelled := true } live stored := by
  have hheld : Held response w → Held response { w with cancelled := true } :=
    Or.imp_right fun hclear => ⟨rfl, hclear.2⟩
  unfold Recorded at h ⊢
  cases hphase : w.phase <;> simp only [hphase] at h ⊢
  case created | resetting | starting => exact h
  case looping | ending | appending => exact ⟨h.1, hheld h.2.1, h.2.2⟩
  case emitting => exact ⟨h.1, .inr trivial, h.2.2⟩
  case catching => exact ⟨trivial, h.2⟩
  all_goals
    obtain ⟨t, ht, hrest⟩ := h
    exact ⟨t, ⟨ht.query, ht.asks, ht.streamed, by simp, ht.complete, ht.dropped⟩, hrest⟩

theorem Recorded.clear {cell : CString} {response : Bytes} {w : Worker}
    {live stored : List Message} (h : Recorded cell response w live stored)
    (hcancelled : w.cancelled = true) :
    Recorded cell [] w live stored := by
  have hheld : Held [] w := .inr ⟨hcancelled, rfl⟩
  unfold Recorded at h ⊢
  cases hphase : w.phase <;> simp only [hphase] at h ⊢
  case created | resetting => exact ⟨h.1, h.2.1, trivial, h.2.2.2⟩
  case starting => exact ⟨h.1, h.2.1, trivial, h.2.2.2⟩
  case looping | ending | appending => exact ⟨h.1, hheld, h.2.2⟩
  case emitting => exact ⟨h.1, .inr hcancelled, h.2.2⟩
  case catching => exact h
  all_goals
    obtain ⟨t, ht, -, hrest⟩ := h
    exact ⟨t, ht, trivial, hrest⟩

/-- The first call that ends a generation keeps the response, unless it has been cleared. -/
theorem InTurn.finish {ts : List Turn} {ws : List Worker} {w : Worker}
    (h : InTurn chat before a ts ws w) (hphase : w.phase = .ending) :
    InTurn chat before { (a.logCall ws.length .stopCompletionInternal).setWorker ws.length
      { w with phase := .stopping } with smollai := a.smollai.stopCompletion } ts ws
      { w with phase := .stopping } := by
  refine h.advance rfl rfl rfl rfl rfl ?_
  intro live stored response hrecords hhistory hrec
  simp only [Recorded, hphase] at hrec
  obtain ⟨hgenerated, hheld, rfl, rfl, hcell⟩ := hrec
  rcases hheld with hfull | ⟨hcancelled, hclear⟩
  · let t : Turn := ⟨w.query, .concat w.appended, .ended⟩
    have hturn : TurnOf { w with phase := .stopping } t :=
      ⟨rfl, h.asks, rfl, fun _ => rfl, fun _ => hgenerated.symm, by simp⟩
    refine ⟨t.live, _, [], ?_, hhistory, t, hturn, rfl, rfl, rfl, hcell⟩
    have hlive : t.live = storedMessage w.query (.lit "user") ++ storedReply true response := by
      rw [hfull, hgenerated]
      rfl
    rw [hlive, ← List.append_assoc]
    exact hrecords.stopCompletion
  · let t : Turn := ⟨w.query, .concat w.appended, .discarded⟩
    have hturn : TurnOf { w with phase := .stopping } t :=
      ⟨rfl, h.asks, rfl, by simp [hcancelled], by simp, by simp⟩
    refine ⟨t.live, _, [], ?_, hhistory, t, hturn, rfl, rfl, rfl, hcell⟩
    have hstop := hrecords.stopCompletion
    rw [hclear, LLMInference.storedReply_nil, List.append_nil] at hstop
    exact hstop

theorem stepWorker_turn {ts : List Turn} {ws : List Worker} {w : Worker} {d : Draw}
    (h : InTurn chat before a ts ws w) (hscenario : TurnScenario a (.worker ws.length d))
    (hstep : a.stepWorker ws.length w d = some a') :
    a'.aborted = true ∨ ∃ w', InTurn chat before a' ts ws w' := by
  simp only [TurnScenario, h.last] at hscenario
  cases stepWorker_cases hstep with
  | dropped hphase hcancelled =>
      refine .inr ⟨_, h.keep rfl rfl rfl rfl rfl rfl rfl ?_⟩
      intro live stored response hrec
      simp only [Recorded, hphase] at hrec
      obtain ⟨hgenerated, happended, hresponse, rfl, rfl⟩ := hrec
      let t : Turn := ⟨w.query, .empty, .dropped⟩
      have hturn : TurnOf { w with phase := .done } t :=
        ⟨rfl, h.asks, by simp [t, happended], by simp [hcancelled], by simp, fun _ => hgenerated⟩
      refine ⟨t, hturn, hresponse, rfl, ?_⟩
      simp [t, Turn.stored, Turn.asked, storedMessage]
  | begins hphase _ =>
      refine .inr ⟨_, h.keep rfl rfl rfl rfl rfl rfl rfl ?_⟩
      intro live stored response hrec
      simp only [Recorded, hphase] at hrec
      exact hrec
  | resets hphase =>
      refine .inr ⟨_, h.keep rfl rfl rfl rfl rfl rfl rfl ?_⟩
      intro live stored response hrec
      simp only [Recorded, hphase] at hrec
      exact ⟨hrec.1, hrec.2.1, hrec.2.2.1, hrec.2.2.2.1, hrec.2.2.2.2, rfl⟩
  | starts hphase hok =>
      refine .inr ⟨{ w with phase := .looping }, h.advance rfl rfl rfl rfl rfl ?_⟩
      intro live stored response hrecords hhistory hrec
      simp only [Recorded, hphase] at hrec
      obtain ⟨hgenerated, happended, rfl, rfl, rfl, hcell⟩ := hrec
      refine ⟨storedMessage w.query (.lit "user"), _, [], ?_, hhistory, ?_⟩
      · simpa using hrecords.startCompletion hok (hscenario.1 hphase)
      · exact ⟨by simp [hgenerated, happended], .inl (by simp [hgenerated]), rfl, rfl,
          by rw [happended]; exact hcell⟩
  | aborts => exact .inl rfl
  | ends hphase heog =>
      refine .inr ⟨_, h.advance rfl rfl rfl rfl rfl ?_⟩
      intro live stored response hrecords hhistory hrec
      simp only [Recorded, hphase] at hrec
      have hresult := (LoopResult.isPlain_toKotlin (hscenario.2 hphase)).1 heog
      exact ⟨live, stored, response, hrecords.completionLoop_eog hresult, hhistory, hrec⟩
  | @receives piece hphase hresult htext =>
      refine .inr ⟨_, h.advance rfl rfl rfl rfl rfl ?_⟩
      intro live stored response hrecords hhistory hrec
      simp only [Recorded, hphase] at hrec
      obtain ⟨hgenerated, hheld, rfl, rfl, hcell⟩ := hrec
      have heog : a.smollai.loopResult d ≠ .eog := by
        intro heog
        rw [heog] at hresult
        exact htext hresult.symm
      refine ⟨_, _, _, hrecords.completionLoop (hscenario.2 hphase) heog, hhistory, ?_⟩
      refine ⟨by simp [hgenerated], ?_, rfl, rfl, hcell⟩
      rcases hheld with hfull | ⟨hcancelled, -⟩
      · exact .inl (by simp [hfull, hresult])
      · exact .inr hcancelled
  | @emits piece hphase hactive =>
      refine .inr ⟨_, h.keep rfl rfl rfl rfl rfl rfl rfl ?_⟩
      intro live stored response hrec
      simp only [Recorded, hphase, hactive, Bool.false_eq_true, or_false] at hrec
      exact ⟨hrec.1, .inl hrec.2.1, hrec.2.2⟩
  | stops hphase hcancelled =>
      refine .inr ⟨_, h.keep rfl rfl rfl rfl rfl rfl rfl ?_⟩
      intro live stored response hrec
      simp only [Recorded, hphase] at hrec
      exact ⟨hcancelled, hrec.2.2⟩
  | appends hphase =>
      refine .inr ⟨_, h.keep rfl rfl rfl rfl rfl rfl rfl ?_⟩
      intro live stored response hrec
      simp only [Recorded, hphase] at hrec
      exact ⟨hrec.1, hrec.2.1, hrec.2.2.1, hrec.2.2.2.1, by simp [hrec.2.2.2.2]⟩
  | finishes hphase => exact .inr ⟨_, h.finish hphase⟩
  | stopsAgain hphase =>
      refine .inr ⟨_, h.advance rfl rfl rfl rfl rfl ?_⟩
      intro live stored response hrecords hhistory hrec
      simp only [Recorded, hphase] at hrec
      obtain ⟨t, ht, rfl, hrest⟩ := hrec
      have hstop := hrecords.stopCompletion
      rw [LLMInference.storedReply_nil, List.append_nil] at hstop
      exact ⟨live, stored, [], hstop, hhistory, t, ht.setPhase _, rfl,
        hrest⟩
  | cancels hphase =>
      refine .inr ⟨_, h.advance rfl rfl rfl rfl rfl ?_⟩
      intro live stored response hrecords hhistory hrec
      simp only [Recorded, hphase] at hrec
      obtain ⟨hcancelled, rfl, rfl, hcell⟩ := hrec
      let t : Turn := ⟨w.query, .concat w.appended, .discarded⟩
      have hturn : TurnOf { w with phase := .checking } t :=
        ⟨rfl, h.asks, rfl, by simp [hcancelled], by simp, by simp⟩
      exact ⟨_, _, [], hrecords.cancelCompletion, hhistory, t, hturn, rfl, rfl, rfl, hcell⟩
  | empty hphase hempty =>
      refine .inr ⟨_, h.keep rfl rfl rfl rfl rfl rfl rfl ?_⟩
      intro live stored response hrec
      simp only [Recorded, hphase] at hrec
      obtain ⟨t, ht, hresponse, hlive, rfl, hcell⟩ := hrec
      refine ⟨t, ht.setPhase _, hresponse, hlive, ?_⟩
      rw [Turn.stored, ← hcell, hempty, Turn.storedMessage_assistant_nil.mpr rfl, List.append_nil]
  | nonempty hphase _ | reads hphase | posts hphase _ | resumes hphase _ | returns hphase =>
      refine .inr ⟨_, h.keep rfl rfl rfl rfl rfl rfl rfl ?_⟩
      intro live stored response hrec
      simp only [Recorded, hphase] at hrec
      obtain ⟨t, ht, hrest⟩ := hrec
      exact ⟨t, ht.setPhase _, hrest⟩
  | @saves text hphase =>
      refine .inr ⟨_, h.advance rfl rfl rfl rfl rfl ?_⟩
      intro live stored response hrecords hhistory hrec
      simp only [Recorded, hphase] at hrec
      obtain ⟨t, ht, hresponse, hlive, rfl, rfl⟩ := hrec
      refine ⟨live, t.stored, response, hrecords, ?_, t,
        ht.setPhase _, hresponse, hlive, rfl⟩
      simp only [h.here, Database.addAssistantMessage]
      rw [Database.history_addMessage, hhistory, Turn.stored, List.append_assoc]
      rfl
  | leaves hphase _ =>
      refine .inr ⟨_, h.keep rfl rfl rfl rfl rfl rfl rfl ?_⟩
      intro live stored response hrec
      rcases hphase with hphase | hphase <;> simp only [Recorded, hphase] at hrec
      all_goals
        obtain ⟨t, ht, hrest⟩ := hrec
        exact ⟨t, ht.setPhase _, hrest⟩

/-! ## Steps of the main thread -/

theorem InTurn.stop {ts : List Turn} {ws : List Worker} {w : Worker}
    (h : InTurn chat before a ts ws w)
    (hjob : ∀ j, a.responseGenerationJob = some j → j + 1 = a.workers.length)
    {i : MainInstr} {rest code : List MainInstr} (hmain : a.main = i :: rest)
    (hexec : a.execMain i = some (a', code)) :
    (∃ w', InTurn chat before { a' with main := code ++ rest } ts ws w') ∧
      a'.currChat = a.currChat ∧
      ∀ j, a'.responseGenerationJob = some j → j + 1 = a'.workers.length := by
  have hcode := h.code
  rw [hmain] at hcode
  cases hcode with
  | stop =>
      cases execMain_cases hexec
      exact ⟨⟨w, h.workers, h.closed, h.here, h.asks, .check, h.recorded⟩, rfl, hjob⟩
  | check =>
      cases execMain_cases hexec with
      | noJob => exact ⟨⟨w, h.workers, h.closed, h.here, h.asks, .idle, h.recorded⟩, rfl, hjob⟩
      | @checkJob job _ hcurrent _ =>
          have hlast := hjob job hcurrent
          rw [h.workers, List.length_append, List.length_singleton] at hlast
          obtain rfl : job = ws.length := by omega
          exact ⟨⟨w, h.workers, h.closed, h.here, h.asks, .cancel, h.recorded⟩, rfl, hjob⟩
  | cancel =>
      cases execMain_cases hexec
      obtain ⟨live, stored, response, hrecords, hhistory, hrec⟩ := h.recorded
      refine ⟨⟨{ w with cancelled := true }, ?_, h.closed, h.here, h.asks, .clear rfl,
        live, stored, response, hrecords, hhistory, hrec.cancel⟩, rfl, ?_⟩
      · simp only [modify_workers h.last, ViewModel.setWorker]
        simp [h.workers]
      · intro j hj
        rw [hjob j hj, List.length_modify]
  | clear hcancelled =>
      cases execMain_cases hexec
      obtain ⟨live, stored, response, hrecords, hhistory, hrec⟩ := h.recorded
      exact ⟨⟨w, h.workers, h.closed, h.here, h.asks, .idle, live, stored, [],
        hrecords.cancelCompletion, hhistory, hrec.clear hcancelled⟩, rfl, hjob⟩

theorem execMain_turn (h : TurnStage chat before a)
    (hjob : ∀ j, a.responseGenerationJob = some j → j + 1 = a.workers.length)
    {i : MainInstr} {rest code : List MainInstr} (hmain : a.main = i :: rest)
    (hexec : a.execMain i = some (a', code)) :
    TurnStage chat before { a' with main := code ++ rest } ∧ a'.currChat = a.currChat ∧
      ∀ j, a'.responseGenerationJob = some j → j + 1 = a'.workers.length := by
  cases h with
  | waiting _ hidle => cases hmain.symm.trans hidle
  | sending hcode hhere hasks hclosed hrecords hhistory =>
      rcases hcode with hcode | hcode
      · cases hmain.symm.trans hcode
        cases execMain_cases hexec with
        | code hk =>
            cases exec_cases hk
            exact ⟨.sending (.inr rfl) hhere hasks hclosed hrecords hhistory, rfl, hjob⟩
      · cases hmain.symm.trans hcode
        cases execMain_cases hexec
        refine ⟨.asked (.inl rfl) hhere hasks hclosed hrecords ?_, rfl, hjob⟩
        simp only [hhere, Database.addUserMessage]
        rw [Database.history_addMessage, hhistory]
        rfl
  | @asked c query ts hcode hhere hasks hclosed hrecords hhistory =>
      rcases hcode with hcode | hcode
      · cases hmain.symm.trans hcode
        cases execMain_cases hexec
        exact ⟨.asked (.inr rfl) hhere hasks hclosed hrecords hhistory, rfl, hjob⟩
      · cases hmain.symm.trans hcode
        cases execMain_cases hexec
        have hnow : a.smollai.Records (before ++ ts.flatMap Turn.live ++ []) [] := by
          simpa using hrecords
        refine ⟨.turn ⟨rfl, hclosed, hhere, hasks, .idle, [], storedMessage query (.lit "user"), [],
          hnow, hhistory, rfl, rfl, rfl, rfl, rfl⟩, rfl, ?_⟩
        intro j hj
        cases hj
        rw [List.length_append, List.length_singleton]
  | turn h =>
      obtain ⟨⟨w', hturn⟩, hrest⟩ := h.stop hjob hmain hexec
      exact ⟨.turn hturn, hrest⟩

/-! ## Runs -/

theorem Closed.done {ws : List Worker} {ts : List Turn} (h : Closed ws ts) :
    ∀ w ∈ ws, w.phase = .done := by
  induction h with
  | nil => simp
  | cons hw _ ih => exact List.forall_mem_cons.mpr ⟨hw.1, ih⟩

theorem asks_of_turns {ws : List Worker} {ts : List Turn} (h : List.Forall₂ TurnOf ws ts) :
    ∀ t ∈ ts, t.query ≠ .empty := by
  induction h with
  | nil => simp
  | cons ht _ ih => exact List.forall_mem_cons.mpr ⟨ht.asks, ih⟩

theorem InTurn.closes {ts : List Turn} {ws : List Worker} {w : Worker}
    (h : InTurn chat before a ts ws w) (hdone : w.phase = .done) :
    ∃ ts, Closed a.workers ts ∧ a.smollai.Records (before ++ ts.flatMap Turn.live) [] ∧
      a.db.history chat = before ++ ts.flatMap Turn.stored := by
  obtain ⟨live, stored, response, hrecords, hhistory, hrec⟩ := h.recorded
  simp only [Recorded, hdone] at hrec
  obtain ⟨t, ht, rfl, rfl, rfl⟩ := hrec
  refine ⟨ts ++ [t], ?_, ?_, ?_⟩
  · rw [h.workers]
    exact List.rel_append h.closed (.cons ⟨hdone, ht⟩ .nil)
  · simpa using hrecords
  · simpa using hhistory

theorem TurnStage.closes (h : TurnStage chat before a) (hmain : a.main = [])
    (hdone : ∀ w ∈ a.workers, w.phase = .done) :
    ∃ ts, Closed a.workers ts ∧ a.smollai.Records (before ++ ts.flatMap Turn.live) [] ∧
      a.db.history chat = before ++ ts.flatMap Turn.stored := by
  cases h with
  | waiting hworkers _ _ hrecords hhistory =>
      refine ⟨[], hworkers ▸ .nil, ?_, ?_⟩
      · simpa using hrecords
      · simpa using hhistory
  | sending hcode => rcases hcode with hcode | hcode <;> cases hmain.symm.trans hcode
  | asked hcode => rcases hcode with hcode | hcode <;> cases hmain.symm.trans hcode
  | turn h => exact h.closes (hdone _ (by simp [h.workers]))

theorem stepWorker_job {i : ℕ} {w : Worker} {d : Draw} (h : a.stepWorker i w d = some a') :
    a'.responseGenerationJob = a.responseGenerationJob := by
  cases stepWorker_cases h <;> rfl

theorem step_turns (h : TurnInv chat before a) {e : Event} (hscenario : TurnScenario a e)
    (hstep : a.step e = some a') : TurnInv chat before a' := by
  have hstage : TurnStage chat before a := by
    refine h.stage.resolve_left fun haborted => ?_
    simp [step, haborted] at hstep
  obtain ⟨c, hcurr, hid⟩ := h.currChat
  cases step_cases hstep with
  | sendUserQuery hidle hcurr' _ _ hasks =>
      obtain rfl := Option.some.inj (hcurr.symm.trans hcurr')
      obtain ⟨ts, hclosed, hrecords, hhistory⟩ := hstage.closes hidle hscenario
      exact ⟨⟨_, rfl, hid⟩, h.job, .inr (.sending (.inl rfl) hid hasks hclosed hrecords hhistory)⟩
  | stopGeneration hidle hgenerating =>
      refine ⟨⟨c, hcurr, hid⟩, h.job, .inr ?_⟩
      cases hstage with
      | waiting _ _ hnot =>
          rw [hnot] at hgenerating
          cases hgenerating
      | sending hcode => rcases hcode with hcode | hcode <;> cases hidle.symm.trans hcode
      | asked hcode => rcases hcode with hcode | hcode <;> cases hidle.symm.trans hcode
      | turn h => exact .turn ⟨h.workers, h.closed, h.here, h.asks, .stop, h.recorded⟩
  | main hnext hexec =>
      obtain ⟨hstage', hcurr', hjob'⟩ := execMain_turn hstage h.job hnext hexec
      exact ⟨⟨c, hcurr'.trans hcurr, hid⟩, hjob', .inr hstage'⟩
  | mainThrows => exact ⟨⟨c, hcurr, hid⟩, h.job, .inl rfl⟩
  | @worker i d w _ hw hmove =>
      have hnotDone : w.phase ≠ .done := by
        intro hdone
        simp [stepWorker, hdone] at hmove
      obtain ⟨⟨_, hworkers, -⟩, -, -, -, hcurr', -⟩ := stepWorker_settled hmove
      have hjob' : ∀ j, a'.responseGenerationJob = some j → j + 1 = a'.workers.length := by
        intro j hj
        rw [stepWorker_job hmove] at hj
        rw [h.job j hj, hworkers, ViewModel.setWorker, List.length_set]
      refine ⟨⟨c, hcurr'.trans hcurr, hid⟩, hjob', ?_⟩
      cases hstage with
      | waiting hnone => simp [hnone] at hw
      | sending _ _ _ hclosed =>
          exact absurd (hclosed.done w (List.mem_of_getElem? hw)) hnotDone
      | asked _ _ _ hclosed =>
          exact absurd (hclosed.done w (List.mem_of_getElem? hw)) hnotDone
      | @turn ts ws w₀ h =>
          rw [h.workers, List.getElem?_append] at hw
          split at hw
          · exact absurd (h.closed.done w (List.mem_of_getElem? hw)) hnotDone
          · obtain ⟨hlt, rfl⟩ := List.getElem?_eq_some_iff.mp hw
            rw [List.length_singleton] at hlt
            obtain rfl : i = ws.length := by omega
            rcases stepWorker_turn h hscenario (by simpa using hmove) with haborted | ⟨w', hturn⟩
            · exact .inl haborted
            · exact .inr (.turn hturn)
  | _ => exact hscenario.elim

/-- After turns that came one after the other, the native list holds their live entries and
the database their stored ones. A replay of the database into a fresh instance gives the
same list exactly where every turn agrees. -/
theorem turns_recorded {a₀ : ViewModel} (hloaded : LoadedChat chat a₀)
    (h : Transition.Reach step TurnScenario (· = a₀) a) (hrest : AtRest a) :
    ∃ ts, List.Forall₂ TurnOf a.workers ts ∧
      a.smollai.messages = some (a₀.db.history chat ++ ts.flatMap Turn.live) ∧
      a.db.history chat = a₀.db.history chat ++ ts.flatMap Turn.stored ∧
      ∀ (s : SmollAI) r answer, LLMInference.loads r answer = true →
        (a.smollai.messages =
            (replay (s.create r answer) chat (a.db.getMessagesForModel chat.id)).messages ↔
          ∀ t ∈ ts, t.Agrees) := by
  have hinv : TurnInv chat (a₀.db.history chat) a := by
    apply h.invariant
    · rintro s rfl
      exact hloaded.turnInv
    · exact fun s e s' hs hscenario hstep => step_turns hs hscenario hstep
  have hstage : TurnStage chat (a₀.db.history chat) a := by
    refine hinv.stage.resolve_left ?_
    rw [hrest.alive]
    exact Bool.false_ne_true
  obtain ⟨ts, hclosed, hrecords, hhistory⟩ := hstage.closes hrest.main hrest.done
  have hturns : List.Forall₂ TurnOf a.workers ts := List.Forall₂.imp (fun _ _ h => h.2) hclosed
  refine ⟨ts, hturns, hrecords.messages_eq, hhistory, ?_⟩
  intro s r answer hloads
  rw [hrecords.messages_eq, replay_messages s hloads, hhistory, Option.some.injEq,
    List.append_cancel_left_eq]
  exact Turn.flatMap_live_eq_iff (asks_of_turns hturns)

theorem byteScreen_loaded : LoadedChat (byteChat 1) byteScreen := by
  have hhistory : byteScreen.db.history (byteChat 1) = [] := by decide +kernel
  obtain ⟨E, hnative⟩ := SmollAI.create_native (s := .new) (r := SmollAI.byteRequest)
    (a := SmollAI.byteAnswer) (by decide +kernel)
  refine ⟨rfl, rfl, rfl, rfl, rfl, ?_⟩
  rw [hhistory]
  exact ⟨E, _, hnative, rfl, rfl, rfl, rfl, rfl⟩

def endedThenStopped : List Event :=
  .sendUserQuery (.lit "hi") 1 :: mainSteps 4 ++
    workerSteps 0 [0, 0, 0, 72, 0, 0, 105, 0, 0, 257, 0, 0, 0, 0, 0, 0, 0, 0] ++
    .sendUserQuery (.lit "ok") 2 :: mainSteps 4 ++ workerSteps 1 [0, 0, 0, 89] ++
    .stopGeneration :: mainSteps 4 ++ workerSteps 1 [0, 0, 0, 0]

theorem turns_recorded_stopped :
    ∃ s, Transition.exec step byteScreen endedThenStopped = some s ∧ s.workers.length = 2 ∧
      ∃ ts, List.Forall₂ TurnOf s.workers ts ∧
        s.smollai.messages = some (byteDatabase.history (byteChat 1) ++ ts.flatMap Turn.live) ∧
        s.db.history (byteChat 1) =
          byteDatabase.history (byteChat 1) ++ ts.flatMap Turn.stored := by
  have hrun : ∃ s, Transition.exec step byteScreen endedThenStopped = some s ∧
      s.workers.length = 2 ∧ AtRest s := Transition.exec_of_decide (by decide +kernel)
  obtain ⟨s, hs, hlen, hrest⟩ := hrun
  obtain ⟨ts, hturns, hlive, hstored, -⟩ := turns_recorded byteScreen_loaded
    (.of_exec (.start rfl) (by decide +kernel) hs) hrest
  exact ⟨s, hs, hlen, ts, hturns, hlive, hstored⟩

def stoppedOnce : List Event :=
  .sendUserQuery (.lit "hi") 1 :: mainSteps 4 ++ workerSteps 0 [0, 0, 0, 72, 0, 0] ++
    .stopGeneration :: mainSteps 4 ++ workerSteps 0 [105, 0, 0, 0, 0, 0, 0]

def blankFirst : List Event :=
  .sendUserQuery (.lit "hi") 1 :: mainSteps 4 ++
    workerSteps 0 [0, 0, 0, 32, 0, 0, 72, 0, 0, 257, 0, 0, 0, 0, 0, 0, 0, 0]

def ReplayDiffers (es : List Event) : Prop :=
  Transition.AllowedAlong step TurnScenario byteScreen es ∧
    ∃ s ∈ Transition.exec step byteScreen es, AtRest s ∧
      s.smollai.messages ≠ (replay (SmollAI.new.create SmollAI.byteRequest SmollAI.byteAnswer)
        (byteChat 1) (s.db.getMessagesForModel 1)).messages

instance (es : List Event) : Decidable (ReplayDiffers es) := by
  unfold ReplayDiffers
  infer_instance

/-- The database keeps a reply that was stopped and the blanks around one that ended. -/
theorem turns_differ : ReplayDiffers stoppedOnce ∧ ReplayDiffers blankFirst := by
  decide +kernel

end ViewModel

end SmollChat
