import Mathlib.Data.List.Infix
import SmollChat.Model.ByteEngine
import SmollChat.Verification.ViewModel.Equations

/-! # Stored replies

All generation workers write one `partialResponse`. As long as a worker is launched only
after every earlier one has stored its reply, each stored reply is made of the pieces of
one worker. -/

namespace SmollChat.ViewModel

variable {a a' : ViewModel} {before : List ChatMessage}

/-! ## The property -/

/-- The assistant messages stored since the screen was opened with `before`. -/
def NewReply (before : List ChatMessage) (a : ViewModel) (m : ChatMessage) : Prop :=
  m ∈ a.db.messages ∧ m.isUserMessage = false ∧ m ∉ before

/-- A stored reply belongs to a worker of its chat and consists of the worker's first
pieces. -/
def ReplyOf (m : ChatMessage) (w : Worker) : Prop :=
  w.chat.id = m.chatId ∧ ∃ pieces, pieces <+: w.generated ∧ m.message = .concat pieces

/-- Every new reply has a worker of its own. -/
def RepliesBelong (before : List ChatMessage) (a : ViewModel) : Prop :=
  ∃ owner : ℕ → ℕ,
    (∀ m, NewReply before a m → ∃ w, a.workers[owner m.id]? = some w ∧ ReplyOf m w) ∧
    ∀ m m', NewReply before a m → NewReply before a m' → owner m.id = owner m'.id → m = m'

/-- A worker is launched only when all earlier workers are settled. -/
def LaunchesSettled (a : ViewModel) : Event → Prop
  | .main =>
      match a.main with
      | .launchWorker _ _ :: _ => ∀ w ∈ a.workers, w.isSettled = true
      | _ => True
  | _ => True

instance (a : ViewModel) (e : Event) : Decidable (LaunchesSettled a e) := by
  rcases e with _ | _ <;> dsimp only [LaunchesSettled]
  case main =>
    rcases a.main with _ | ⟨_ | _, _⟩ <;> infer_instance
  all_goals infer_instance

/-! ## The invariant -/

/-- What the partial response holds for the worker that may write it. -/
def CellOf (text : CString) (w : Worker) : Prop :=
  match w.phase with
  | .created | .resetting => w.generated = [] ∧ w.appended = []
  | .starting | .looping => w.generated = w.appended ∧ text = .concat w.appended
  | .emitting piece | .appending piece =>
      w.generated = w.appended ++ [piece] ∧ text = .concat w.appended
  | .ending | .stopping | .catching | .checking | .reading =>
      w.appended <+: w.generated ∧ text = .concat w.appended
  | .saving saved => w.appended <+: w.generated ∧ saved = .concat w.appended
  | .finishing | .posted | .returning | .done => True

/-- The worker whose id the owner function gives to a new reply has stored it. -/
structure Owns (before : List ChatMessage) (a : ViewModel) (owner : ℕ → ℕ) : Prop where
  reply : ∀ m, NewReply before a m →
    ∃ w, a.workers[owner m.id]? = some w ∧ w.phase.isSaved = true ∧ ReplyOf m w
  injective : ∀ m m', NewReply before a m → NewReply before a m' →
    owner m.id = owner m'.id → m = m'

structure RepliesInv (before : List ChatMessage) (a : ViewModel) : Prop where
  ids : ∀ m, NewReply before a m → m.id < a.db.nextMessage
  settled : ∀ i w, a.workers[i]? = some w → i + 1 < a.workers.length → w.isSettled = true
  cell : ∀ i w, a.workers[i]? = some w → i + 1 = a.workers.length → CellOf a.partialResponse w
  owned : ∃ owner, Owns before a owner

/-- A step that keeps the messages, or loses some, and the workers keeps the invariant. -/
theorem RepliesInv.frame (h : RepliesInv before a)
    (hmessages : ∀ m, NewReply before a' m → NewReply before a m)
    (hnext : a.db.nextMessage ≤ a'.db.nextMessage)
    (hcell : a'.partialResponse = a.partialResponse) (hworkers : a'.workers = a.workers) :
    RepliesInv before a' where
  ids m hm := (h.ids m (hmessages m hm)).trans_le hnext
  settled := by rw [hworkers]; exact h.settled
  cell := by rw [hworkers, hcell]; exact h.cell
  owned := by
    obtain ⟨owner, howns⟩ := h.owned
    refine ⟨owner, ?_, ?_⟩
    · rw [hworkers]
      exact fun m hm => howns.reply m (hmessages m hm)
    · exact fun m m' hm hm' => howns.injective m m' (hmessages m hm) (hmessages m' hm')

theorem Owns.setWorker {owner : ℕ → ℕ} (h : Owns before a owner) {i : ℕ} {w w' : Worker}
    (hw : a.workers[i]? = some w) (hchat : w'.chat = w.chat)
    (hsaved : w.phase.isSaved = true → w'.phase.isSaved = true ∧ w'.generated = w.generated) :
    Owns before (a.setWorker i w') owner where
  reply m hm := by
    obtain ⟨v, hv, hphase, hreply⟩ := h.reply m hm
    rw [setWorker_getElem? hw]
    split
    · rename_i hi
      obtain rfl : w = v := by rw [hi, hw] at hv; exact Option.some.inj hv
      obtain ⟨hsaved', hgenerated⟩ := hsaved hphase
      refine ⟨w', rfl, hsaved', ?_⟩
      unfold ReplyOf
      rw [hchat, hgenerated]
      exact hreply
    · exact ⟨v, hv, hphase, hreply⟩
  injective := h.injective

/-- A worker's step that stores nothing keeps the invariant if it keeps what the cell holds
for the worker and, once the worker is settled, the cell itself. -/
theorem RepliesInv.move (h : RepliesInv before a) {i : ℕ} {w w' : Worker}
    (hw : a.workers[i]? = some w) (hmessages : a'.db.messages = a.db.messages)
    (hnext : a'.db.nextMessage = a.db.nextMessage)
    (hworkers : a'.workers = (a.setWorker i w').workers) (hchat : w'.chat = w.chat)
    (hsaved : w.phase.isSaved = true → w'.phase.isSaved = true ∧ w'.generated = w.generated)
    (hsettled : w.isSettled = true →
      w'.isSettled = true ∧ a'.partialResponse = a.partialResponse)
    (hcell : CellOf a.partialResponse w → CellOf a'.partialResponse w') :
    RepliesInv before a' where
  ids m hm := by
    rw [hnext]
    exact h.ids m ⟨hmessages ▸ hm.1, hm.2⟩
  settled j v hv hlt := by
    have hlen : a'.workers.length = a.workers.length := by rw [hworkers]; simp [ViewModel.setWorker]
    rw [hworkers, setWorker_getElem? hw] at hv
    rw [hlen] at hlt
    split at hv
    · rename_i hj
      obtain rfl := Option.some.inj hv
      exact (hsettled (h.settled i w hw (hj ▸ hlt))).1
    · exact h.settled j v hv hlt
  cell j v hv hlast := by
    have hlen : a'.workers.length = a.workers.length := by rw [hworkers]; simp [ViewModel.setWorker]
    rw [hworkers, setWorker_getElem? hw] at hv
    rw [hlen] at hlast
    split at hv
    · rename_i hj
      obtain rfl := Option.some.inj hv
      exact hcell (h.cell i w hw (hj ▸ hlast))
    · rename_i hj
      have hi : i + 1 < a.workers.length := by
        have := (List.getElem?_eq_some_iff.mp hw).1
        omega
      rw [(hsettled (h.settled i w hw hi)).2]
      exact h.cell j v hv hlast
  owned := by
    obtain ⟨owner, howns⟩ := h.owned
    have hmove := howns.setWorker hw hchat hsaved
    refine ⟨owner, ?_, ?_⟩
    · intro m hm
      rw [hworkers]
      exact hmove.reply m ⟨hmessages ▸ hm.1, hm.2⟩
    · intro m m' hm hm'
      exact hmove.injective m m' ⟨hmessages ▸ hm.1, hm.2⟩ ⟨hmessages ▸ hm'.1, hm'.2⟩

theorem RepliesInv.save (h : RepliesInv before a) {i : ℕ} {w : Worker} {text : CString}
    (hw : a.workers[i]? = some w) (hphase : w.phase = .saving text) :
    RepliesInv before { a.setWorker i { w with phase := .finishing } with
      db := a.db.addAssistantMessage w.chat.id text } := by
  have hlen : (a.setWorker i { w with phase := .finishing }).workers.length = a.workers.length := by
    simp [ViewModel.setWorker]
  have hlast : i + 1 = a.workers.length := by
    by_contra hne
    have hi := (List.getElem?_eq_some_iff.mp hw).1
    have := h.settled i w hw (by omega)
    rw [w.isSettled_eq_false hphase rfl (by simp)] at this
    cases this
  have hcell := h.cell i w hw hlast
  simp only [CellOf, hphase] at hcell
  refine ⟨?_, ?_, ?_, ?_⟩
  · rintro m ⟨hmem, huser, hnew⟩
    simp only [Database.addAssistantMessage, Database.addMessage, List.mem_append,
      List.mem_singleton] at hmem ⊢
    rcases hmem with hmem | rfl
    · exact (h.ids m ⟨hmem, huser, hnew⟩).trans (Nat.lt_succ_self _)
    · exact Nat.lt_succ_self _
  · intro j v hv hlt
    simp only [hlen] at hlt
    rw [setWorker_getElem? hw] at hv
    split at hv
    · obtain rfl := Option.some.inj hv
      rfl
    · exact h.settled j v hv hlt
  · intro j v hv hj
    simp only [hlen] at hj
    obtain rfl : j = i := by omega
    rw [setWorker_getElem? hw, if_pos rfl] at hv
    obtain rfl := Option.some.inj hv
    trivial
  · obtain ⟨owner, howns⟩ := h.owned
    have hmove : Owns before (a.setWorker i { w with phase := .finishing }) owner :=
      howns.setWorker hw rfl fun _ => ⟨rfl, rfl⟩
    have hfree : ∀ m, NewReply before a m → owner m.id ≠ i := by
      intro m hm hi
      obtain ⟨v, hv, hsaved, -⟩ := howns.reply m hm
      obtain rfl : w = v := by rw [hi, hw] at hv; exact Option.some.inj hv
      simp [hphase, WorkerPhase.isSaved] at hsaved
    have hrow : ∀ m, NewReply before { a.setWorker i { w with phase := .finishing } with
        db := a.db.addAssistantMessage w.chat.id text } m →
        NewReply before a m ∧ m.id ≠ a.db.nextMessage ∨
          m = ⟨a.db.nextMessage, w.chat.id, text, false⟩ := by
      rintro m ⟨hmem, huser, hnew⟩
      rcases List.mem_append.mp hmem with hmem | hmem
      · exact .inl ⟨⟨hmem, huser, hnew⟩, (h.ids m ⟨hmem, huser, hnew⟩).ne⟩
      · exact .inr (List.mem_singleton.mp hmem)
    refine ⟨fun id => if id = a.db.nextMessage then i else owner id, ?_, ?_⟩
    · intro m hm
      rcases hrow m hm with ⟨hold, hne⟩ | rfl
      · simpa only [if_neg hne] using hmove.reply m hold
      · simp only [if_pos]
        exact ⟨_, (setWorker_getElem? hw i).trans (if_pos rfl), rfl, rfl, w.appended,
          hcell.1, hcell.2⟩
    · intro m m' hm hm' heq
      rcases hrow m hm with ⟨hold, hne⟩ | rfl <;> rcases hrow m' hm' with ⟨hold', hne'⟩ | rfl
      · exact howns.injective m m' hold hold' (by simpa only [if_neg hne, if_neg hne'] using heq)
      · simp only [if_neg hne, if_pos] at heq
        exact absurd heq (hfree m hold)
      · simp only [if_neg hne', if_pos] at heq
        exact absurd heq.symm (hfree m' hold')
      · rfl

theorem RepliesInv.advance (h : RepliesInv before a) {i : ℕ} {w w' : Worker}
    (hw : a.workers[i]? = some w) {phase : WorkerPhase} (hphase : w.phase = phase)
    (hsaved : phase.isSaved = false) (hbegun : phase ≠ .created)
    (hmessages : a'.db.messages = a.db.messages) (hnext : a'.db.nextMessage = a.db.nextMessage)
    (hworkers : a'.workers = (a.setWorker i w').workers) (hchat : w'.chat = w.chat)
    (hcell : CellOf a.partialResponse w → CellOf a'.partialResponse w') :
    RepliesInv before a' := by
  refine h.move hw hmessages hnext hworkers hchat ?_ ?_ hcell
  · rw [hphase, hsaved]
    simp
  · rw [w.isSettled_eq_false hphase hsaved hbegun]
    simp

theorem stepWorker_replies (h : RepliesInv before a) {i : ℕ} {w : Worker} {d : Draw}
    (hw : a.workers[i]? = some w) (hstep : a.stepWorker i w d = some a') :
    RepliesInv before a' := by
  cases stepWorker_cases hstep with
  | dropped | leaves | posts | resumes | returns =>
      refine h.move hw rfl rfl rfl rfl ?_ ?_ ?_
      · exact fun _ => ⟨rfl, rfl⟩
      · exact fun _ => ⟨rfl, rfl⟩
      · exact fun _ => trivial
  | saves hphase => exact h.save hw hphase
  | begins hphase hactive =>
      refine h.move hw rfl rfl rfl rfl ?_ ?_ ?_
      · simp [hphase, WorkerPhase.isSaved]
      · simp [Worker.isSettled, hphase, WorkerPhase.isSaved, hactive]
      · simp only [CellOf, hphase]
        exact id
  | resets hphase =>
      refine h.advance hw hphase rfl (by simp) rfl rfl rfl rfl ?_
      simp only [CellOf, hphase]
      rintro ⟨hgenerated, happended⟩
      simp [hgenerated, happended]
  | ends hphase _ =>
      refine h.advance hw hphase rfl (by simp) rfl rfl rfl rfl ?_
      simp only [CellOf, hphase]
      rintro ⟨hgenerated, htext⟩
      exact ⟨hgenerated ▸ List.prefix_rfl, htext⟩
  | receives hphase hresult _ =>
      refine h.advance hw hphase rfl (by simp) rfl rfl rfl rfl ?_
      simp only [CellOf, hphase]
      rintro ⟨hgenerated, htext⟩
      exact ⟨by rw [hgenerated], htext⟩
  | stops hphase _ =>
      refine h.advance hw hphase rfl (by simp) rfl rfl rfl rfl ?_
      simp only [CellOf, hphase]
      rintro ⟨hgenerated, htext⟩
      exact ⟨hgenerated ▸ List.prefix_append _ _, htext⟩
  | appends hphase =>
      refine h.advance hw hphase rfl (by simp) rfl rfl rfl rfl ?_
      simp only [CellOf, hphase]
      rintro ⟨hgenerated, htext⟩
      exact ⟨hgenerated, by simp [htext]⟩
  | empty hphase _ =>
      refine h.advance hw hphase rfl (by simp) rfl rfl rfl rfl ?_
      exact fun _ => trivial
  | starts hphase _ | aborts hphase _ | emits hphase _ | finishes hphase | stopsAgain hphase
  | cancels hphase | nonempty hphase _ | reads hphase =>
      refine h.advance hw hphase rfl (by simp) rfl rfl rfl rfl ?_
      simp only [CellOf, hphase]
      exact id

/-- A launch that finds all workers settled adds one with no pieces. -/
theorem RepliesInv.launch (h : RepliesInv before a)
    (hsettled : ∀ w ∈ a.workers, w.isSettled = true) (chat : Chat) (query : CString)
    (hmessages : a'.db = a.db)
    (hworkers : a'.workers = a.workers ++ [⟨chat, query, .created, false, [], []⟩]) :
    RepliesInv before a' where
  ids m hm := by
    rw [hmessages]
    exact h.ids m ⟨hmessages ▸ hm.1, hm.2⟩
  settled i w hw hlt := by
    rw [hworkers, List.length_append, List.length_singleton] at hlt
    rw [hworkers, List.getElem?_append_left (by omega)] at hw
    exact hsettled w (List.mem_of_getElem? hw)
  cell i w hw hlast := by
    rw [hworkers, List.length_append, List.length_singleton] at hlast
    obtain rfl : i = a.workers.length := by omega
    rw [hworkers, List.getElem?_concat_length] at hw
    obtain rfl := Option.some.inj hw
    exact ⟨rfl, rfl⟩
  owned := by
    obtain ⟨owner, howns⟩ := h.owned
    refine ⟨owner, ?_, ?_⟩
    · intro m hm
      obtain ⟨w, hw, hreply⟩ := howns.reply m ⟨hmessages ▸ hm.1, hm.2⟩
      rw [hworkers]
      exact ⟨w, by rw [List.getElem?_append_left (List.getElem?_eq_some_iff.mp hw).1, hw], hreply⟩
    · intro m m' hm hm'
      exact howns.injective m m' ⟨hmessages ▸ hm.1, hm.2⟩ ⟨hmessages ▸ hm'.1, hm'.2⟩

theorem RepliesInv.cancel (h : RepliesInv before a) (job : ℕ) :
    RepliesInv before
      { a with workers := a.workers.modify job fun w => { w with cancelled := true } } := by
  cases hjob : a.workers[job]? with
  | none =>
      have hlen : a.workers.length ≤ job := List.getElem?_eq_none_iff.mp hjob
      exact h.frame (fun m hm => hm) le_rfl rfl (List.modify_eq_self hlen)
  | some w =>
      refine h.move hjob rfl rfl (modify_workers hjob _) rfl ?_ ?_ ?_
      · exact fun hsaved => ⟨hsaved, rfl⟩
      · intro hsettled
        refine ⟨?_, rfl⟩
        simp only [Worker.isSettled, Bool.or_eq_true, Bool.and_eq_true] at hsettled ⊢
        exact hsettled.imp id fun hcreated => ⟨hcreated.1, trivial⟩
      · exact id

theorem execMain_replies (h : RepliesInv before a) {i : MainInstr} {rest code : List MainInstr}
    (hmain : a.main = i :: rest) (hlaunch : LaunchesSettled a .main)
    (hexec : a.execMain i = some (a', code)) : RepliesInv before a' := by
  cases execMain_cases hexec with
  | code hc =>
      have hsame := (exec_sameGeneration hc).1
      exact h.frame (fun m hm => ⟨hsame.messages ▸ hm.1, hm.2⟩) hsame.nextMessage.ge
        hsame.partialResponse hsame.workers
  | addUserMessage =>
      refine h.frame ?_ (Nat.le_succ _) rfl rfl
      rintro m ⟨hmem, huser, hnew⟩
      rcases List.mem_append.mp hmem with hmem | hmem
      · exact ⟨hmem, huser, hnew⟩
      · obtain rfl := List.mem_singleton.mp hmem
        cases huser
  | launchWorker =>
      simp only [LaunchesSettled, hmain] at hlaunch
      exact h.launch hlaunch _ _ rfl rfl
  | cancelJob => exact h.cancel _
  | deleteMessages =>
      refine h.frame ?_ le_rfl rfl rfl
      exact fun m hm => ⟨(List.mem_filter.mp hm.1).1, hm.2⟩
  | _ => exact h.frame (fun m hm => hm) le_rfl rfl rfl

theorem step_replies (h : RepliesInv before a) {e : Event} (hlaunch : LaunchesSettled a e)
    (hstep : a.step e = some a') : RepliesInv before a' := by
  rcases step_generation hstep with hsame | ⟨i, rest, a₁, code, rfl, hmain, hexec, rfl⟩ |
    ⟨i, w, hw, ⟨d, rfl, hmove⟩ | ⟨rfl, hthrow⟩⟩
  · exact h.frame (fun m hm => ⟨hsame.messages ▸ hm.1, hm.2⟩) hsame.nextMessage.ge
      hsame.partialResponse hsame.workers
  · exact (execMain_replies h hmain hlaunch hexec).frame (fun m hm => hm) le_rfl rfl rfl
  · exact stepWorker_replies h hw hmove
  · obtain ⟨rfl, hphase⟩ := throwWorker_eq hthrow
    rcases hphase with hphase | hphase | hphase | hphase <;>
      refine h.advance hw hphase rfl (by simp) rfl rfl rfl rfl fun hcell => ?_ <;>
      simp only [CellOf, hphase] at hcell
    · exact ⟨hcell.1 ▸ List.prefix_rfl, hcell.2⟩
    · exact ⟨hcell.1 ▸ List.prefix_rfl, hcell.2⟩
    · exact hcell
    · exact hcell

theorem opened_replies (db : Database) (smollai : SmollAI) (currChat : Option Chat) :
    RepliesInv db.messages (opened db smollai currChat) where
  ids _ hm := absurd hm.1 hm.2.2
  settled := by simp [opened]
  cell := by simp [opened]
  owned := ⟨id, fun _ hm => absurd hm.1 hm.2.2, fun _ _ hm => absurd hm.1 hm.2.2⟩

/-- In every run in which workers are launched only after all earlier ones have settled,
every stored reply belongs to one query of its chat, and no two to the same. -/
theorem replies_belong (db : Database) (smollai : SmollAI) (currChat : Option Chat)
    (h : Transition.Reach step LaunchesSettled (· = opened db smollai currChat) a) :
    RepliesBelong db.messages a := by
  have hinv : RepliesInv db.messages a := by
    apply h.invariant
    · rintro s rfl
      exact opened_replies db smollai currChat
    · exact fun s e s' hs hlaunch hstep => step_replies hs hlaunch hstep
  obtain ⟨owner, howns⟩ := hinv.owned
  refine ⟨owner, ?_, howns.injective⟩
  intro m hm
  obtain ⟨w, hw, -, hreply⟩ := howns.reply m hm
  exact ⟨w, hw, hreply⟩

def stoppedThenSent : List Event :=
  .sendUserQuery (.lit "hi") 1 :: mainSteps 4 ++ workerSteps 0 [0, 0, 0, 72, 0, 0, 105] ++
    .stopGeneration :: mainSteps 4 ++ workerSteps 0 [0, 0, 0, 0, 0] ++
    .sendUserQuery (.lit "ok") 2 :: mainSteps 4 ++
    workerSteps 1 [0, 0, 0, 89, 0, 0, 257, 0, 0, 0, 0, 0]

theorem replies_belong_stopped :
    ∃ s, Transition.exec step byteScreen stoppedThenSent = some s ∧ s.db.messages.length = 4 ∧
      RepliesBelong byteDatabase.messages s := by
  have hrun : ∃ s, Transition.exec step byteScreen stoppedThenSent = some s ∧
      s.db.messages.length = 4 := Transition.exec_of_decide (by decide +kernel)
  obtain ⟨s, hs, hlen⟩ := hrun
  refine ⟨s, hs, hlen, ?_⟩
  exact replies_belong byteDatabase SmollAI.byteSmollAI (some (byteChat 1))
    (.of_exec (.start rfl) (by decide +kernel) hs)

/-- The second query is sent while the first worker, though cancelled, is about to append
its piece, which then follows the first piece of the second reply. -/
def sentTooEarly : List Event :=
  .sendUserQuery (.lit "hi") 1 :: mainSteps 4 ++ workerSteps 0 [0, 0, 0, 72, 0] ++
    .stopGeneration :: mainSteps 4 ++
    .sendUserQuery (.lit "ok") 2 :: mainSteps 4 ++ workerSteps 1 [0, 0, 0, 89, 0, 0] ++
    workerSteps 0 [0, 105, 0, 0, 0, 0, 0]

theorem replies_mixed :
    ∃ s, Transition.exec step byteScreen sentTooEarly = some s ∧
      ¬RepliesBelong byteDatabase.messages s := by
  have hrun : ∃ s, Transition.exec step byteScreen sentTooEarly = some s ∧
      ∃ m ∈ s.db.messages, m.isUserMessage = false ∧
        ∀ w ∈ s.workers, ∀ pieces ∈ w.generated.inits, m.message ≠ .concat pieces :=
    Transition.exec_of_decide (by decide +kernel)
  obtain ⟨s, hs, m, hm, huser, hnone⟩ := hrun
  refine ⟨s, hs, ?_⟩
  rintro ⟨owner, hbelong, -⟩
  obtain ⟨w, hw, -, pieces, hfront, htext⟩ := hbelong m ⟨hm, huser, List.not_mem_nil⟩
  exact hnone w (List.mem_of_getElem? hw) pieces ((List.mem_inits _ _).mpr hfront) htext

end SmollChat.ViewModel
