import SmollChat.Model.ByteEngine
import SmollChat.Verification.LLMInference.Responses
import SmollChat.Verification.SmollAI.Record

/-! # Collections of the response stream, one after another

A collection that is abandoned stops nothing: the flow just is not resumed. What it has
generated stays in the native response and comes before the text of the next one. -/

namespace SmollChat

open LLMInference (storedReply generated loaded transcript OwnReply Unmixed)

/-- A collection of `getResponse`: its query and the engine's answers to the loop calls
made before the collector gives up, if the flow has not ended by then. -/
structure Collection where
  query : CString
  draws : List Draw

def ResponseFlow.text : ResponseFlow → List Draw → Bytes
  | _, [] => []
  | f, d :: draws =>
      if f.finished then [] else generated (f.smollai.loopResult d) ++ text (f.step d) draws

namespace SmollAI

def collect (s : SmollAI) (c : Collection) : ResponseFlow :=
  c.draws.foldl ResponseFlow.step (s.getResponse c.query)

def collectAll (s : SmollAI) (cs : List Collection) : SmollAI :=
  cs.foldl (fun s c => (s.collect c).smollai) s

def response (s : SmollAI) : Option Bytes := s.native.map fun n => n.2.response

def prepared (r : LLMInference.LoadRequest) (a : LLMInference.LoadAnswer)
    (texts : List Message) : SmollAI :=
  texts.foldl (fun s m => s.addChatMessage m.content m.role) (new.create r a)

/-! ## One collection -/

variable {s : SmollAI} {messages : List Message} {response : Bytes}

theorem Records.response_eq (h : s.Records messages response) : s.response = some response := by
  obtain ⟨E, n, hnative, -, -, -, -, rfl⟩ := h
  simp [SmollAI.response, hnative]

theorem Records.getResponse (h : s.Records messages response) (query : CString) :
    ∃ messages', (s.getResponse query).smollai.Records messages' response := by
  obtain ⟨E, n, hnative, hmodel, hctx, hstore, rfl, rfl⟩ := h
  have hafter : (s.startCompletion query).2.native = some (E, (n.startCompletion E query).2) :=
    invokeNative_native hnative _ fun E n => (n.startCompletion E query).2
  have hframe := LLMInference.startCompletion_frame E n query
  exact ⟨_, E, _, hafter, hframe.model.trans hmodel, hframe.ctx.trans hctx,
    hframe.storeChats.trans hstore, rfl, hframe.response⟩

/-- Whatever a loop call returns, the response grows by the text it generates. -/
theorem Records.loop (h : s.Records messages response) (d : Draw) :
    (s.completionLoop d).2.Records messages (response ++ generated (s.loopResult d)) := by
  obtain ⟨E, n, hnative, hmodel, hctx, hstore, rfl, rfl⟩ := h
  obtain ⟨hresult, hafter⟩ := completionLoop_native hnative d
  have hframe := LLMInference.completionLoop_frame E n d
  rw [hresult]
  exact ⟨E, _, hafter, hframe.model.trans hmodel, hframe.ctx.trans hctx,
    hframe.storeChats.trans hstore, hframe.messages, hframe.response⟩

theorem foldl_step_finished (f : ResponseFlow) (hf : f.finished = true) (draws : List Draw) :
    draws.foldl ResponseFlow.step f = f := by
  induction draws with
  | nil => rfl
  | cons d draws ih =>
      have hstep : f.step d = f := if_pos hf
      rw [List.foldl_cons, hstep, ih]

/-- Where a flow leads: it is still open and has added its text to the response, or it has
ended and the response with its text is stored. -/
theorem foldl_step_records {f : ResponseFlow} (hf : f.finished = false)
    (h : f.smollai.Records messages response) (draws : List Draw) :
    ((draws.foldl ResponseFlow.step f).finished = false ∧
        (draws.foldl ResponseFlow.step f).smollai.Records messages
          (response ++ f.text draws)) ∨
      ((draws.foldl ResponseFlow.step f).finished = true ∧
        (draws.foldl ResponseFlow.step f).smollai.Records
          (messages ++ storedReply true (response ++ f.text draws)) []) := by
  induction draws generalizing f response with
  | nil =>
      left
      simpa [ResponseFlow.text, hf] using h
  | cons d draws ih =>
      have hloop := h.loop d
      have htext : f.text (d :: draws) =
          generated (f.smollai.loopResult d) ++ (f.step d).text draws := by
        simp [ResponseFlow.text, hf]
      rw [List.foldl_cons, htext, ← List.append_assoc]
      by_cases hmarker : (f.smollai.loopResult d).toKotlin = eogMarker
      · have hstep : f.step d =
            ⟨(f.smollai.completionLoop d).2.stopCompletion, f.emitted, true⟩ := by
          rw [ResponseFlow.step, hf]
          exact if_pos hmarker
        have hrest : (f.step d).text draws = [] := by
          rw [hstep]
          cases draws <;> rfl
        right
        rw [hrest, List.append_nil, hstep, foldl_step_finished _ rfl]
        exact ⟨rfl, hloop.stopCompletion⟩
      · have hstep : f.step d = ⟨(f.smollai.completionLoop d).2,
            f.emitted ++ [(f.smollai.loopResult d).toKotlin], false⟩ := by
          rw [ResponseFlow.step, hf]
          exact if_neg hmarker
        apply ih
        · rw [hstep]
        · rw [hstep]
          exact hloop

/-! ## Sequences of collections -/

/-- The reply a collection stores, if its flow ends, is computed from its own pieces. -/
def RepliesOwn (s : SmollAI) (c : Collection) : Prop :=
  (s.collect c).finished = true → (s.collect c).smollai.messages =
    (s.getResponse c.query).smollai.messages.map
      (· ++ storedReply true ((s.getResponse c.query).text c.draws))

/-- After an abandoned collection the next one begins with an empty response. -/
def LeavesNothing (s : SmollAI) (c next : Collection) : Prop :=
  (s.collect c).finished = false →
    ((s.collect c).smollai.getResponse next.query).smollai.response = some []

instance (s : SmollAI) (c next : Collection) : Decidable (LeavesNothing s c next) :=
  inferInstanceAs (Decidable (_ → _))

theorem Records.prepared {r : LLMInference.LoadRequest} {a : LLMInference.LoadAnswer}
    (h : LLMInference.loads r a = true) (hstore : r.storeChats = true) (texts : List Message) :
    ∃ messages, (prepared r a texts).Records messages [] := by
  suffices hadd : ∀ (s : SmollAI) (messages : List Message), s.Records messages [] →
      ∃ messages', (texts.foldl (fun s m => s.addChatMessage m.content m.role) s).Records
        messages' [] by
    obtain ⟨E, hnative⟩ := create_native (s := new) h
    exact hadd _ [] ⟨E, _, hnative, rfl, rfl, hstore, rfl, rfl⟩
  induction texts with
  | nil => exact fun s messages hs => ⟨messages, hs⟩
  | cons m texts ih =>
      rintro s messages ⟨E, n, hnative, hmodel, hctx, hchats, -, hresponse⟩
      apply ih _ _ ⟨E, _, addChatMessage_native hnative m.content m.role, hmodel, hctx, hchats,
        rfl, hresponse⟩

theorem Records.collectAll (h : s.Records messages response) (cs : List Collection) :
    ∃ messages' response', (s.collectAll cs).Records messages' response' := by
  induction cs generalizing s messages response with
  | nil => exact ⟨messages, response, h⟩
  | cons c cs ih =>
      obtain ⟨messages', hstart⟩ := h.getResponse c.query
      rcases foldl_step_records rfl hstart c.draws with ⟨-, hcollect⟩ | ⟨-, hcollect⟩
      · exact ih hcollect
      · exact ih hcollect

theorem Records.repliesOwn (h : s.Records messages []) (c : Collection) : s.RepliesOwn c := by
  intro hfinished
  obtain ⟨messages', hstart⟩ := h.getResponse c.query
  rcases foldl_step_records rfl hstart c.draws with ⟨hopen, -⟩ | ⟨-, hcollect⟩
  · exact absurd hfinished (by rw [collect, hopen]; simp)
  · rw [List.nil_append] at hcollect
    rw [hstart.messages_eq]
    exact hcollect.messages_eq

/-- What an abandoned collection leaves to the next one. -/
theorem Records.leaves (h : s.Records messages response) (c next : Collection)
    (hopen : (s.collect c).finished = false) :
    ((s.collect c).smollai.getResponse next.query).smollai.response =
      some (response ++ (s.getResponse c.query).text c.draws) := by
  obtain ⟨messages', hstart⟩ := h.getResponse c.query
  rcases foldl_step_records rfl hstart c.draws with ⟨-, hcollect⟩ | ⟨hfinished, -⟩
  · obtain ⟨messages'', hnext⟩ := Records.getResponse hcollect next.query
    exact hnext.response_eq
  · exact absurd hopen (by rw [collect, hfinished]; simp)

/-- No collection that is abandoned and followed by another one has generated text. -/
def AbandonedSilent (s : SmollAI) (cs : List Collection) : Prop :=
  ∀ before c after, cs = before ++ c :: after → after ≠ [] →
    ((s.collectAll before).collect c).finished = false →
      ((s.collectAll before).getResponse c.query).text c.draws = []

theorem Records.collectAll_silent (h : s.Records messages []) {cs before after : List Collection}
    (hsilent : s.AbandonedSilent cs) (hcs : cs = before ++ after) (hafter : after ≠ []) :
    ∃ messages', (s.collectAll before).Records messages' [] := by
  induction before using List.reverseRecOn generalizing after with
  | nil => exact ⟨messages, h⟩
  | append_singleton before c ih =>
      have hsplit : cs = before ++ c :: after := by rw [hcs, List.append_assoc]; rfl
      obtain ⟨messages₁, hbefore⟩ := ih hsplit (List.cons_ne_nil c after)
      obtain ⟨messages₂, hstart⟩ := hbefore.getResponse c.query
      have hall : s.collectAll (before ++ [c]) = ((s.collectAll before).collect c).smollai := by
        simp [SmollAI.collectAll]
      rw [hall]
      rcases foldl_step_records rfl hstart c.draws with ⟨hopen, hcollect⟩ | ⟨-, hcollect⟩
      · rw [hsilent before c after hsplit hafter hopen] at hcollect
        exact ⟨messages₂, hcollect⟩
      · exact ⟨_, hcollect⟩

theorem collections_own_iff (h : s.Records messages []) (cs : List Collection) :
    (∀ before c after, cs = before ++ c :: after → (s.collectAll before).RepliesOwn c ∧
        ∀ next ∈ after.head?, (s.collectAll before).LeavesNothing c next) ↔
      s.AbandonedSilent cs := by
  constructor
  · intro hown before c after hcs hafter hopen
    obtain ⟨next, rest, rfl⟩ := List.exists_cons_of_ne_nil hafter
    obtain ⟨messages', response', hbefore⟩ := h.collectAll before
    have hnothing := (hown before c (next :: rest) hcs).2 next rfl hopen
    rw [hbefore.leaves c next hopen, Option.some.injEq] at hnothing
    exact (List.append_eq_nil_iff.mp hnothing).2
  · intro hsilent before c after hcs
    obtain ⟨messages', hbefore⟩ := h.collectAll_silent hsilent hcs (List.cons_ne_nil c after)
    refine ⟨hbefore.repliesOwn c, fun next hnext hopen => ?_⟩
    have hafter : after ≠ [] := by
      rintro rfl
      cases hnext
    rw [hbefore.leaves c next hopen, hsilent before c after hcs hafter hopen]
    rfl

/-- Among native calls, the replies that are stored are the completions' own exactly when
none of them is stored after text generated between the most recent start and the most
recent stop or cancel. Among collections, the replies are their own and an abandoned one
leaves an empty response exactly when abandoned collections that another one follows have
generated no text. -/
theorem replies_own_iff (E : Engine) (calls : List LLMInference.Call)
    (r : LLMInference.LoadRequest) (a : LLMInference.LoadAnswer) (texts : List Message)
    (cs : List Collection) (h : LLMInference.loads r a = true) (hstore : r.storeChats = true) :
    ((∀ before after, calls = before ++ .stopCompletion :: after →
          OwnReply E (loaded E true) before) ↔
        ∀ before after, calls = before ++ .stopCompletion :: after →
          storedReply ((loaded E true).run E before).storeChats
              ((loaded E true).run E before).response ≠ [] →
            Unmixed (transcript E (loaded E true) before)) ∧
      ((∀ before c after, cs = before ++ c :: after →
          ((prepared r a texts).collectAll before).RepliesOwn c ∧
            ∀ next ∈ after.head?, ((prepared r a texts).collectAll before).LeavesNothing c next) ↔
        (prepared r a texts).AbandonedSilent cs) := by
  obtain ⟨messages, hprepared⟩ := Records.prepared h hstore texts
  refine ⟨?_, collections_own_iff hprepared cs⟩
  constructor
  · intro hown before after hcalls
    exact (LLMInference.ownReply_iff E true before).mp (hown before after hcalls)
  · intro hunmixed before after hcalls
    exact (LLMInference.ownReply_iff E true before).mpr (hunmixed before after hcalls)

def endedThenAbandoned : List Collection :=
  [⟨.lit "hi", [.ok 72, .ok 257]⟩, ⟨.lit "yo", [.ok 73]⟩]

theorem replies_own_ended :
    (prepared byteRequest byteAnswer []).RepliesOwn ⟨.lit "hi", [.ok 72, .ok 257]⟩ := by
  have hsilent : (prepared byteRequest byteAnswer []).AbandonedSilent endedThenAbandoned := by
    intro before c after hcs hafter hopen
    cases before with
    | nil =>
        obtain ⟨rfl, -⟩ := List.cons.inj hcs
        revert hopen
        decide +kernel
    | cons c' before =>
        have hlength := congrArg List.length hcs
        have hpos := List.length_pos_of_ne_nil hafter
        simp only [endedThenAbandoned, List.length_append, List.length_cons, List.length_nil]
          at hlength
        omega
  exact ((replies_own_iff (ByteEngine.engine 1024) [] byteRequest byteAnswer []
    endedThenAbandoned (by decide +kernel) rfl).2.mpr hsilent [] _ _ rfl).1

/-- A second start keeps the text of the first completion, and so does an abandoned
collection. -/
theorem replies_mixed_up :
    ¬OwnReply (ByteEngine.engine 1024) (loaded (ByteEngine.engine 1024) true)
        [.startCompletion (.lit "hi"), .completionLoop (.ok 72), .startCompletion (.lit "yo"),
          .completionLoop (.ok 73)] ∧
      ¬(prepared byteRequest byteAnswer []).LeavesNothing ⟨.lit "hi", [.ok 72]⟩
        ⟨.lit "yo", [.ok 73]⟩ := by
  decide +kernel

end SmollAI

end SmollChat
