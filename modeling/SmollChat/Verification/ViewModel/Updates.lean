import Mathlib.Data.List.Permutation
import SmollChat.Model.ByteEngine
import SmollChat.Verification.ViewModel.Records

/-! # Changing the model beside other updates

`updateChatLLM` of an import runs on a thread of its own. As long as no access of an
operation to the records falls between the accesses of another one, the operations take
effect in the order of their first accesses. -/

namespace SmollChat

/-- An `updateChatLLM` gives its model to the chat it was asked for. -/
def RecordOp.placed (r : Records) : RecordOp → Prop
  | .updateChatLLM _ picked => ∀ chat ∈ r.currChat, picked = some chat.id
  | _ => True

instance (r : Records) (op : RecordOp) : Decidable (op.placed r) := by
  rcases op with _ | _ <;> dsimp only [RecordOp.placed] <;> infer_instance

/-- Every `updateChatLLM` of the list does, when they run one after the other. -/
def Placed : Records → List RecordOp → Prop
  | _, [] => True
  | r, op :: ops => op.placed r ∧ Placed (op.apply r) ops

instance Placed.decidable : ∀ (r : Records) (ops : List RecordOp), Decidable (Placed r ops)
  | _, [] => isTrue trivial
  | r, op :: ops =>
      have := Placed.decidable (op.apply r) ops
      inferInstanceAs (Decidable (_ ∧ _))

theorem placed_concat {r : Records} {ops : List RecordOp} {op : RecordOp} :
    Placed r (ops ++ [op]) ↔ Placed r ops ∧ op.placed (ops.foldl RecordOp.apply r) := by
  induction ops generalizing r with
  | nil => simp [Placed]
  | cons op' ops ih => simp [Placed, ih, and_assoc]

namespace ViewModel

/-- The screen with the operations called so far, the chats that were current when the
imports were asked for, and the main thread's operation until its first access. -/
structure Logged where
  screen : ViewModel
  ops : List RecordOp
  picks : List (Option ℕ)
  waiting : Option RecordOp

namespace Logged

variable {l l' : Logged} {start : Records}

def opened (db : Database) (smollai : SmollAI) (currChat : Option Chat) : Logged :=
  ⟨ViewModel.opened db smollai currChat, [], [], none⟩

def accesses (l : Logged) : Bool := l.screen.main.head?.any MainInstr.touches

/-- The operation that waits for its first access after the event. A new chat is added at
once. -/
def waits (l : Logged) (e : Event) : Option RecordOp :=
  match e with
  | .switchChat _ | .newChat _ _ _ | .updateChat _ | .deleteChat _ | .selectModel _
  | .deleteModel _ => (opsBegun l.screen l.picks e).getLast?
  | .main => if l.accesses then none else l.waiting
  | _ => l.waiting

def step (l : Logged) (e : Event) : Option Logged :=
  (l.screen.step e).map fun screen =>
    { screen := screen
      ops := l.ops ++ opsBegun l.screen l.picks e
      picks := match e with
        | .importModel _ _ => l.picks ++ [l.screen.currChat.map Chat.id]
        | _ => l.picks
      waiting := l.waits e }

/-- The records are those of some serial order of the operations called, in which each
`updateChatLLM` gives its model to the chat it was asked for. -/
def Serializes (start : Records) (l : Logged) : Prop :=
  ∃ order : List RecordOp, order.Perm l.ops ∧
    order.foldl RecordOp.apply start = l.screen.records ∧ Placed start order

instance (start : Records) (l : Logged) : Decidable (Serializes start l) :=
  decidable_of_iff (∃ order ∈ l.ops.permutations', order.foldl RecordOp.apply start =
      l.screen.records ∧ Placed start order) (by simp only [Serializes, List.mem_permutations'])

/-- No import is between the first read of its `updateChatLLM` and the put. -/
def NoneInside (l : Logged) : Prop := ∀ job ∈ l.screen.imports, job.inside = false

/-- No access of an operation falls between the accesses of another one, and an
`updateChatLLM` makes its first one while the chat it was asked for is the current chat. -/
def Contiguous (l : Logged) (e : Event) : Prop :=
  match e with
  | .sendUserQuery _ _ | .newChat _ _ _ => l.NoneInside
  | .main => ∀ op ∈ l.waiting, l.accesses = true → l.NoneInside ∧ op.placed l.screen.records
  | .importJob _ => ImportsApart l.screen l.waiting.isSome e ∧
      ∀ op ∈ opsBegun l.screen l.picks e, op.placed l.screen.records
  | .importThrows _ => ImportsApart l.screen l.waiting.isSome e
  | _ => True

instance (l : Logged) : Decidable l.NoneInside := by
  unfold NoneInside
  infer_instance

instance (l : Logged) (e : Event) : Decidable (Contiguous l e) := by
  rcases e with _ | _ <;> dsimp only [Contiguous] <;> infer_instance

/-! ## The invariant -/

/-- The operations that have begun take effect in the order of their first accesses; the one
that waits will do what it is called for. -/
structure Ordered (start : Records) (l : Logged) : Prop where
  exclusive : Exclusive l.screen l.waiting.isSome
  waits : ∀ op, l.waiting = some op → (∃ i ∈ l.screen.main, i.touches = true) ∧
    ∀ r, l.screen.main.foldl MainInstr.effect r = op.apply r
  begun : ∃ order : List RecordOp, (order ++ l.waiting.toList).Perm l.ops ∧
    order.foldl RecordOp.apply start = l.screen.finished l.waiting.isSome ∧ Placed start order

theorem opened_ordered (db : Database) (smollai : SmollAI) (currChat : Option Chat) :
    Ordered ⟨currChat, db.chats⟩ (opened db smollai currChat) where
  exclusive := exclusive_opened db smollai currChat
  waits := by simp [opened]
  begun := ⟨[], .nil, rfl, trivial⟩

theorem Ordered.waiting_eq_none (h : Ordered start l) (hidle : l.screen.main = []) :
    l.waiting = none := by
  cases hwaiting : l.waiting with
  | none => rfl
  | some op =>
      obtain ⟨⟨i, hi, -⟩, -⟩ := h.waits op hwaiting
      rw [hidle] at hi
      cases hi

theorem Ordered.serializes (h : Ordered start l) (hrest : RecordsAtRest l.screen) :
    Serializes start l := by
  obtain ⟨order, hperm, hfold, hplaced⟩ := h.begun
  rw [hrest.finished] at hfold
  cases hwaiting : l.waiting with
  | none => exact ⟨order, by simpa [hwaiting] using hperm, hfold, hplaced⟩
  | some op =>
      obtain ⟨⟨i, hi, htouches⟩, -⟩ := h.waits op hwaiting
      rw [hrest.1 i hi] at htouches
      cases htouches

/-- The order in which the operations have begun, with one more. -/
theorem Ordered.begin (h : Ordered start l) (op : RecordOp) {r : Records}
    (hr : l.screen.finished l.waiting.isSome = r) (hop : op.placed r) :
    ∃ order : List RecordOp, (order ++ l.waiting.toList).Perm (l.ops ++ [op]) ∧
      order.foldl RecordOp.apply start = op.apply r ∧ Placed start order := by
  obtain ⟨order, hperm, hfold, hplaced⟩ := h.begun
  refine ⟨order ++ [op], ?_, ?_, ?_⟩
  · rw [List.append_assoc]
    exact (List.perm_append_comm.append_left order).trans
      (by simpa using hperm.append_right [op])
  · rw [List.foldl_append, hfold, hr]
    rfl
  · exact placed_concat.mpr ⟨hplaced, by rwa [hfold, hr]⟩

/-! ## Steps -/

variable {a' : ViewModel} {picks : List (Option ℕ)}

theorem Ordered.call (h : Ordered start l) {op : RecordOp} (hidle : l.screen.main = [])
    (hrecords : a'.records = l.screen.records) (himports : a'.imports = l.screen.imports)
    (htouches : ∃ i ∈ a'.main, i.touches = true)
    (hcode : ∀ r, a'.main.foldl MainInstr.effect r = op.apply r) :
    Ordered start ⟨a', l.ops ++ [op], picks, some op⟩ where
  exclusive := h.exclusive.congr himports fun _ => by simp [mainCode]
  waits := by
    intro op' hop'
    obtain rfl := Option.some.inj hop'
    exact ⟨htouches, hcode⟩
  begun := by
    obtain ⟨order, hperm, hfold, hplaced⟩ := h.begun
    simp only [h.waiting_eq_none hidle, Option.toList_none, List.append_nil] at hperm
    refine ⟨order, hperm.append_right [op], ?_, hplaced⟩
    rw [hfold]
    exact (finished_congr hrecords (by simp [mainCode, hidle]) himports).symm

theorem finished_of_noneInside (hidle : l.screen.main = []) (hnone : l.NoneInside) (held : Bool) :
    l.screen.finished held = l.screen.records :=
  finished_of_untouched (mainCode_untouched (by simp [hidle]) held) hnone

theorem Ordered.send (h : Ordered start l) {date : ℕ} (hidle : l.screen.main = [])
    (hnone : l.NoneInside) (himports : a'.imports = l.screen.imports)
    (hcode : a'.main.foldl MainInstr.effect a'.records =
      (RecordOp.sendUserQuery date).apply l.screen.records) :
    Ordered start ⟨a', l.ops ++ [.sendUserQuery date], picks, none⟩ where
  exclusive := h.exclusive.start himports hnone
  waits := by simp
  begun := by
    have hbegin := h.begin (.sendUserQuery date) (finished_of_noneInside hidle hnone _) trivial
    rw [h.waiting_eq_none hidle, ← hcode] at hbegin
    rw [show a'.finished (none : Option RecordOp).isSome = _ from
      finished_of_quiet (himports ▸ hnone)]
    exact hbegin

/-- The row of a new chat is added at once; the switch to it waits. -/
theorem Ordered.newChat (h : Ordered start l) {row chat : Chat} (hidle : l.screen.main = [])
    (hnone : l.NoneInside) (himports : a'.imports = l.screen.imports)
    (hrecords : a'.records = (RecordOp.addChat row).apply l.screen.records)
    (htouches : ∃ i ∈ a'.main, i.touches = true)
    (hcode : ∀ r, a'.main.foldl MainInstr.effect r = (RecordOp.switchChat chat).apply r) :
    Ordered start ⟨a', l.ops ++ [.addChat row, .switchChat chat], picks,
      some (.switchChat chat)⟩ where
  exclusive := h.exclusive.start himports hnone
  waits := by
    intro op' hop'
    obtain rfl := Option.some.inj hop'
    exact ⟨htouches, hcode⟩
  begun := by
    obtain ⟨order, hperm, hfold, hplaced⟩ :=
      h.begin (.addChat row) (finished_of_noneInside hidle hnone _) trivial
    simp only [h.waiting_eq_none hidle, Option.toList_none, List.append_nil] at hperm
    refine ⟨order, ?_, ?_, hplaced⟩
    · simpa using hperm.append_right [.switchChat chat]
    · rw [hfold, ← hrecords]
      exact (finished_of_untouched (by simp [mainCode]) (himports ▸ hnone)).symm

theorem Ordered.quiet (h : Ordered start l) (hidle : l.screen.main = [])
    (hrecords : a'.records = l.screen.records) (himports : a'.imports = l.screen.imports)
    (hmain : ∀ i ∈ a'.main, i.touches = false) :
    Ordered start ⟨a', l.ops, picks, l.waiting⟩ where
  exclusive := h.exclusive.congr himports fun _ => mainCode_untouched hmain _
  waits := by simp [h.waiting_eq_none hidle]
  begun := by
    obtain ⟨order, hperm, hfold, hplaced⟩ := h.begun
    refine ⟨order, hperm, ?_, hplaced⟩
    have hbefore := main_untouched (mainCode_untouched (a := l.screen) (by simp [hidle])
      l.waiting.isSome) l.screen.records
    have hafter := main_untouched (mainCode_untouched hmain l.waiting.isSome) l.screen.records
    rw [hfold]
    simp only [finished, begunCode, himports, hrecords, hbefore, hafter]

theorem Contiguous.imports {e : Event} (h : Contiguous l e) (hbeside : e.isBeside = true) :
    ImportsApart l.screen l.waiting.isSome e := by
  cases e with
  | importJob _ => exact h.1
  | importThrows _ => exact h
  | importModel _ _ | worker _ _ | workerThrows _ | load _ _ | loadThrows _ => trivial
  | _ => cases hbeside

/-- A step beside the main thread, which may begin an import's `updateChatLLM`. -/
theorem Ordered.beside (h : Ordered start l) {e : Event} (hbeside : e.isBeside = true)
    (hallowed : Contiguous l e) (hstep : l.screen.step e = some a') :
    Ordered start ⟨a', l.ops ++ opsBegun l.screen l.picks e, picks, l.waiting⟩ := by
  obtain ⟨⟨hex, hfinished⟩, hmain⟩ :=
    beside_finished h.exclusive hbeside (hallowed.imports hbeside) l.picks hstep
  refine ⟨hex, fun op hop => hmain ▸ h.waits op hop, ?_⟩
  rw [hfinished]
  rcases opsBegun_beside hbeside (a := l.screen) l.picks with
    hops | ⟨i, modelId, code, rfl, hjob, hops⟩
  · rw [hops, List.append_nil]
    exact h.begun
  · obtain ⟨hapart, hplaced⟩ := hallowed
    simp only [ImportsApart, hjob] at hapart
    rw [hops] at hplaced ⊢
    rw [finished_of_untouched hapart.1 hapart.2]
    exact h.begin _ (finished_of_untouched hapart.1 hapart.2) (hplaced _ List.mem_cons_self)

theorem Ordered.goesOn (h : Ordered start l) (hwaiting : l.waiting = none)
    (hex : Exclusive l.screen false → Exclusive a' false)
    (hfinished : a'.finished false = l.screen.finished false) :
    Ordered start ⟨a', l.ops, picks, none⟩ where
  exclusive := by
    have hold := h.exclusive
    rw [hwaiting] at hold
    exact hex hold
  waits := by simp
  begun := by
    have hold := h.begun
    rw [hwaiting, Option.isSome_none, ← hfinished] at hold
    exact hold

theorem Ordered.begins (h : Ordered start l) {op : RecordOp} (hwaiting : l.waiting = some op)
    (hnone : l.NoneInside) (hplaced : op.placed l.screen.records)
    (himports : a'.imports = l.screen.imports)
    (hfinished : a'.finished false = l.screen.finished false) :
    Ordered start ⟨a', l.ops, picks, none⟩ where
  exclusive := h.exclusive.start himports hnone
  waits := by simp
  begun := by
    have hr : l.screen.finished l.waiting.isSome = l.screen.records := by
      rw [hwaiting]
      exact finished_of_untouched (by simp [mainCode]) hnone
    obtain ⟨order, hperm, hfold, hall⟩ := h.begin op hr hplaced
    rw [hwaiting, Option.toList_some, List.perm_append_right_iff] at hperm
    refine ⟨order, by simpa using hperm, ?_, hall⟩
    have hcode : l.screen.finished false = op.apply l.screen.records :=
      (finished_of_quiet hnone).trans ((h.waits op hwaiting).2 _)
    rw [hfold, ← hcode, ← hfinished]
    rfl

theorem Ordered.stillWaits (h : Ordered start l) {op : RecordOp} (hwaiting : l.waiting = some op)
    {i : MainInstr} {rest code : List MainInstr} {a₁ : ViewModel}
    (hnext : l.screen.main = i :: rest) (hexec : l.screen.execMain i = some (a₁, code))
    (hquiet : i.touches = false) :
    Ordered start ⟨{ a₁ with main := code ++ rest }, l.ops, picks, some op⟩ where
  exclusive := by
    have himports := execMain_imports hexec
    exact h.exclusive.congr himports fun _ => by simp [mainCode]
  waits := by
    intro op' hop'
    obtain rfl := Option.some.inj hop'
    obtain ⟨⟨k, hk, htouches⟩, hcode⟩ := h.waits op hwaiting
    rw [hnext] at hk hcode
    constructor
    · rcases List.mem_cons.mp hk with rfl | hrest
      · rw [hquiet] at htouches
        cases htouches
      · exact ⟨k, List.mem_append_right code hrest, htouches⟩
    · intro r
      rw [← hcode, List.foldl_append, main_untouched (execMain_untouched hexec hquiet),
        List.foldl_cons, MainInstr.effect_of_not_touches hquiet]
  begun := by
    have hold := h.begun
    rw [hwaiting] at hold
    have hrecords : a₁.records = l.screen.records := by
      have heffect := execMain_effect hexec
      rwa [main_untouched (execMain_untouched hexec hquiet),
        MainInstr.effect_of_not_touches hquiet] at heffect
    have himports := execMain_imports hexec
    have hfinished : ({ a₁ with main := code ++ rest } : ViewModel).finished true =
        l.screen.finished true := finished_congr hrecords (by simp [mainCode]) himports
    rw [Option.isSome_some, ← hfinished] at hold
    exact hold

theorem Ordered.main (h : Ordered start l) (hallowed : Contiguous l .main)
    (hstep : l.screen.step .main = some a') :
    Ordered start ⟨a', l.ops, picks, if l.accesses then none else l.waiting⟩ := by
  cases step_cases hstep with
  | @main i rest a₁ code hnext hexec =>
      have haccesses : l.accesses = i.touches := by simp [accesses, hnext]
      have himports := execMain_imports hexec
      have hfinished : ({ a₁ with main := code ++ rest } : ViewModel).finished false =
          l.screen.finished false := finished_main hnext hexec rfl rfl rfl
      cases hwaiting : l.waiting with
      | none =>
          rw [ite_self]
          refine h.goesOn hwaiting (fun hex => hex.congr himports ?_) hfinished
          exact main_untouched_next hnext hexec
      | some op =>
          cases htouches : i.touches with
          | false =>
              rw [haccesses, htouches]
              exact h.stillWaits hwaiting hnext hexec htouches
          | true =>
              rw [haccesses, htouches]
              obtain ⟨hnone, hplaced⟩ := hallowed op hwaiting (haccesses.trans htouches)
              exact h.begins hwaiting hnone hplaced himports hfinished
  | @mainThrows i rest hnext hexec =>
      have hfinished : ({ l.screen with aborted := true } : ViewModel).finished false =
          l.screen.finished false := finished_congr rfl rfl rfl
      cases hwaiting : l.waiting with
      | none =>
          rw [ite_self]
          exact h.goesOn hwaiting (fun hex => hex.congr rfl id) hfinished
      | some op =>
          have haccesses : l.accesses = true := by
            simp [accesses, hnext, execMain_eq_none hexec, MainInstr.touches, Instr.touches]
          obtain ⟨hnone, hplaced⟩ := hallowed op hwaiting haccesses
          rw [haccesses]
          exact h.begins hwaiting hnone hplaced rfl hfinished

theorem Ordered.step (h : Ordered start l) {e : Event} (hallowed : Contiguous l e)
    (hstep : l.step e = some l') : Ordered start l' := by
  obtain ⟨a', hscreen, rfl⟩ := Option.map_eq_some_iff.mp hstep
  cases step_cases hscreen with
  | @sendUserQuery query date chat hidle hcurr _ _ _ =>
      have hwaits : l.waits (.sendUserQuery query date) = none := h.waiting_eq_none hidle
      rw [hwaits]
      refine h.send hidle hallowed rfl ?_
      simp [RecordOp.apply, records, Records.setDate, Records.putCurrChat, hcurr,
        ViewModel.sendUserQuery, MainInstr.effect, Instr.effect]
  | newChat hidle =>
      exact h.newChat hidle hallowed rfl rfl ⟨_, .tail _ (.tail _ (.head _)), rfl⟩ fun _ => rfl
  | switchChat hidle _ =>
      exact h.call hidle rfl rfl ⟨_, .tail _ (.tail _ (.head _)), rfl⟩ fun _ => rfl
  | updateChat hidle _ _ | selectModel hidle =>
      exact h.call hidle rfl rfl ⟨_, .head _, rfl⟩ fun _ => rfl
  | deleteChat hidle _ _ =>
      exact h.call hidle rfl rfl ⟨_, .tail _ (.tail _ (.head _)), rfl⟩ fun _ => rfl
  | deleteModel hidle =>
      exact h.call hidle rfl rfl ⟨_, .tail _ (.head _), rfl⟩ fun _ => rfl
  | launchedEffect hidle _ | stopGeneration hidle _ | changeModel hidle | dismissModelList hidle =>
      simp only [opsBegun, List.append_nil]
      exact h.quiet hidle rfl rfl (by simp [loadModel, ViewModel.stopGeneration,
        MainInstr.touches, Instr.touches])
  | main _ _ | mainThrows _ _ =>
      simp only [opsBegun, List.append_nil]
      exact h.main hallowed hscreen
  | _ => exact h.beside rfl hallowed hscreen

/-- In every run in which the operations access the records one after the other, and an
import's `updateChatLLM` begins in the chat it was asked for, the records are those of a
serial order whenever no operation is under way. -/
theorem updates_serialize (db : Database) (smollai : SmollAI) (currChat : Option Chat)
    (h : Transition.Reach step Contiguous (· = opened db smollai currChat) l)
    (hrest : RecordsAtRest l.screen) : Serializes ⟨currChat, db.chats⟩ l := by
  have hordered : Ordered ⟨currChat, db.chats⟩ l := by
    apply h.invariant
    · rintro s rfl
      exact opened_ordered db smollai currChat
    · exact fun s e s' hs hallowed hstep => hs.step hallowed hstep
  exact hordered.serializes hrest

def byteLogged : Logged := opened byteDatabase SmollAI.byteSmollAI (some (byteChat 1))

def importSteps (n : ℕ) : List Event := List.replicate n (.importJob 0)

/-- A switch is called while the import changes the model, and takes effect afterwards. -/
def switchedAfterwards : List Event :=
  .importModel (.lit "new") (.lit "new.gguf") :: importSteps 2 ++
    .switchChat (byteChat 2) :: mainSteps 2 ++ importSteps 3 ++ mainSteps 1

theorem updates_serialize_afterwards :
    ∃ l, Transition.exec step byteLogged switchedAfterwards = some l ∧
      l.screen.currChat.map Chat.id = some 2 ∧ l.ops.length = 2 ∧
      Serializes ⟨some (byteChat 1), byteDatabase.chats⟩ l := by
  have hrun : ∃ l, Transition.exec step byteLogged switchedAfterwards = some l ∧
      l.screen.currChat.map Chat.id = some 2 ∧ l.ops.length = 2 ∧ RecordsAtRest l.screen :=
    Transition.exec_of_decide (by decide +kernel)
  obtain ⟨l, hl, hcurr, hops, hrest⟩ := hrun
  refine ⟨l, hl, hcurr, hops, ?_⟩
  exact updates_serialize byteDatabase SmollAI.byteSmollAI (some (byteChat 1))
    (.of_exec (.start rfl) (by decide +kernel) hl) hrest

/-- The user switches to the second chat between the import's read and its write. -/
def switchedBetween : List Event :=
  .importModel (.lit "new") (.lit "new.gguf") :: importSteps 2 ++
    .switchChat (byteChat 2) :: mainSteps 3 ++ importSteps 3

def editedBetween : List Event :=
  .importModel (.lit "new") (.lit "new.gguf") :: importSteps 2 ++
    .updateChat { byteChat 1 with temperature := 1 / 2 } :: mainSteps 3 ++ importSteps 3

/-- The user switches to the second chat before the import has copied its file. -/
def switchedBefore : List Event :=
  .importModel (.lit "new") (.lit "new.gguf") :: .switchChat (byteChat 2) :: mainSteps 3 ++
    importSteps 5

def Loses (run : List Event) : Prop :=
  ∃ l, Transition.exec step byteLogged run = some l ∧ RecordsAtRest l.screen ∧
    ¬Serializes ⟨some (byteChat 1), byteDatabase.chats⟩ l

theorem updates_lost : Loses switchedBetween ∧ Loses editedBetween ∧ Loses switchedBefore :=
  ⟨Transition.exec_of_decide (by decide +kernel), Transition.exec_of_decide (by decide +kernel),
    Transition.exec_of_decide (by decide +kernel)⟩

end Logged

end ViewModel

end SmollChat
