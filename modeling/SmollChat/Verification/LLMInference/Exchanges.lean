import SmollChat.Model.ByteEngine
import SmollChat.Verification.LLMInference.Context
import SmollChat.Verification.LLMInference.Messages

/-! # Exchanges in a shortened list

The erasure counts from the end of the list, where the query already stands, and spares the
first entry whatever its role. So the four entries it keeps at the end begin with an answer,
or the first entry is kept without being a system message. -/

namespace SmollChat.LLMInference

/-! ## Dialogues -/

structure Exchange where
  question : CString
  answer : CString

def systemMessage (content : CString) : Message := ⟨.lit "system", content⟩

def userMessage (content : CString) : Message := ⟨.lit "user", content⟩

def assistantMessage (content : CString) : Message := ⟨.lit "assistant", content⟩

def Exchange.messages (e : Exchange) : List Message :=
  [userMessage e.question, assistantMessage e.answer]

/-- A system message, if there is one, and exchanges in order. -/
def dialogue (system : Option CString) (exchanges : List Exchange) : List Message :=
  system.toList.map systemMessage ++ exchanges.flatMap Exchange.messages

theorem dialogue_length (system : Option CString) (exchanges : List Exchange) :
    (dialogue system exchanges).length = system.toList.length + 2 * exchanges.length := by
  simp [dialogue, List.length_flatMap, Exchange.messages, Nat.mul_comm]

theorem flatMap_answer? (exchanges : List Exchange) (i : ℕ) :
    (exchanges.flatMap Exchange.messages)[2 * i + 1]? =
      exchanges[i]?.map fun e => assistantMessage e.answer := by
  induction exchanges generalizing i with
  | nil => simp
  | cons e exchanges ih =>
      cases i with
      | zero => rfl
      | succ i =>
          have hpos : 2 * (i + 1) + 1 = 2 * i + 1 + 2 := by omega
          rw [hpos]
          exact ih i

/-- Behind a system message the answers stand at the even positions. -/
theorem dialogue_answer? (content : CString) {exchanges : List Exchange} {i : ℕ}
    (hi : i < exchanges.length) : ∃ answer,
      (dialogue (some content) exchanges)[2 * i + 2]? = some (assistantMessage answer) := by
  refine ⟨exchanges[i].answer, ?_⟩
  have hanswer := flatMap_answer? exchanges i
  rw [List.getElem?_eq_getElem hi, Option.map_some] at hanswer
  exact hanswer

theorem dialogue_getLast?_role (system : Option CString) (exchanges : List Exchange) {m : Message}
    (h : (dialogue system exchanges).getLast? = some m) : m.role ≠ .lit "user" := by
  rcases exchanges.eq_nil_or_concat with rfl | ⟨front, e, rfl⟩
  · cases system with
    | none => cases h
    | some content =>
        obtain rfl : systemMessage content = m := by simpa [dialogue] using h
        simp only [systemMessage]
        decide
  · obtain rfl : assistantMessage e.answer = m := by
      simpa [dialogue, Exchange.messages, List.getLast?_append] using h
    simp only [assistantMessage]
    decide

/-! ## Positions -/

/-- The positions the erasure leaves of a list of `n` messages. -/
def keptPositions (n : ℕ) : List ℕ :=
  if n > messagesToKeep then 0 :: List.range' (n - messagesToKeep + 1) (messagesToKeep - 1)
  else List.range' 0 n

theorem filterMap_range' {α : Type*} (xs : List α) (start count : ℕ) :
    (List.range' start count).filterMap (fun i => xs[i]?) = (xs.drop start).take count := by
  induction count generalizing start with
  | zero => rfl
  | succ count ih =>
      rw [List.range'_succ, List.filterMap_cons, ih]
      rcases Nat.lt_or_ge start xs.length with hlt | hge
      · rw [List.getElem?_eq_getElem hlt, List.drop_eq_getElem_cons hlt]
        rfl
      · rw [List.getElem?_eq_none hge, List.drop_eq_nil_of_le hge,
          List.drop_eq_nil_of_le (by omega), List.take_nil, List.take_nil]

theorem truncateMessages_eq_kept (messages : List Message) :
    truncateMessages messages =
      (keptPositions messages.length).filterMap fun i => messages[i]? := by
  unfold keptPositions
  split
  · rename_i hgt
    have hhead : (List.range' 0 1).filterMap (fun i => messages[i]?) = messages.take 1 :=
      filterMap_range' messages 0 1
    have htail := filterMap_range' messages (messages.length - messagesToKeep + 1)
      (messagesToKeep - 1)
    rw [List.take_of_length_le] at htail
    · calc
        truncateMessages messages =
            messages.take 1 ++ messages.drop (messages.length - messagesToKeep + 1) :=
          truncateMessages_of_gt hgt
        _ = _ := by
          rw [← hhead, ← htail, ← List.filterMap_append]
          rfl
    · rw [List.length_drop]
      unfold messagesToKeep at hgt ⊢
      omega
  · rename_i hle
    rw [filterMap_range', List.drop_zero, List.take_length, truncateMessages_of_le (by omega)]

/-! ## Keeping whole exchanges -/

/-- What is kept of a list is a dialogue before the query; an answer is kept behind its
question only, and the first message only as a system message. -/
structure WholeExchanges (messages kept : List Message) (positions : List ℕ) (query : Message) :
    Prop where
  roles : ∃ system exchanges, kept = dialogue system exchanges ++ [query]
  answered : ∀ before p after, positions = before ++ p :: after →
    (messages[p]?.map Message.role) = some (.lit "assistant") → before.getLast? = some (p - 1)
  head : messages.head?.map Message.role ≠ some (.lit "system") → 0 ∉ positions

/-- What is asked of a `start_completion` whose over-length branch shortens the list. -/
def KeepsExchanges (E : Engine) (s : LLMInference) (query : CString) : Prop :=
  overLength E s query = true →
    messagesToKeep < (s.messages ++ storedMessage query (.lit "user")).length →
    WholeExchanges (s.messages ++ storedMessage query (.lit "user"))
      (s.startCompletion E query).2.messages
      (keptPositions (s.messages ++ storedMessage query (.lit "user")).length)
      (userMessage (query.take maxMessageLength))

theorem keptPositions_of_gt {n : ℕ} (h : messagesToKeep < n) :
    keptPositions n = [0, n - 4, n - 3, n - 2, n - 1] := by
  rw [keptPositions, if_pos h]
  unfold messagesToKeep at h ⊢
  simp only [List.range'_succ, List.range'_zero, List.cons.injEq, true_and, and_true]
  omega

/-- Without a system message the erasure keeps the first question in its place. -/
theorem not_whole_of_no_system {exchanges : List Exchange} {rest kept : List Message}
    {query : Message} (hrest : rest.length ≤ 2)
    (hlong : messagesToKeep < (dialogue none exchanges ++ rest).length) :
    ¬WholeExchanges (dialogue none exchanges ++ rest) kept
      (keptPositions (dialogue none exchanges ++ rest).length) query := by
  intro h
  cases exchanges with
  | nil =>
      simp only [dialogue, messagesToKeep, Option.toList_none, List.map_nil, List.flatMap_nil,
        List.append_nil, List.nil_append] at hlong
      omega
  | cons e exchanges =>
      refine h.head ?_ ?_
      · simp only [dialogue, Exchange.messages, userMessage, Option.toList_none, List.map_nil,
          List.nil_append, List.flatMap_cons, List.cons_append, List.head?_cons, Option.map_some]
        decide
      · rw [keptPositions_of_gt hlong]
        exact List.mem_cons_self

/-- With a system message the four entries at the end begin with an answer. -/
theorem not_whole_of_system {content : CString} {exchanges : List Exchange} {kept : List Message}
    {query : Message}
    (hlong : messagesToKeep < (dialogue (some content) exchanges ++ [query]).length) :
    ¬WholeExchanges (dialogue (some content) exchanges ++ [query]) kept
      (keptPositions (dialogue (some content) exchanges ++ [query]).length) query := by
  intro h
  have hlen : (dialogue (some content) exchanges ++ [query]).length =
      2 * exchanges.length + 2 := by
    rw [List.length_append, dialogue_length]
    simp only [Option.toList_some, List.length_singleton]
    omega
  rw [hlen] at hlong h
  have hmany : 2 ≤ exchanges.length := by
    unfold messagesToKeep at hlong
    omega
  have hlast : exchanges.length - 2 < exchanges.length := by omega
  obtain ⟨answer, hanswer⟩ := dialogue_answer? content hlast
  have hpos : 2 * (exchanges.length - 2) + 2 = 2 * exchanges.length + 2 - 4 := by omega
  rw [hpos] at hanswer
  rw [keptPositions_of_gt hlong] at h
  have hbefore := h.answered [0] _ _ rfl (by
    rw [List.getElem?_append_left (by rw [dialogue_length]; simp; omega), hanswer]
    rfl)
  simp only [List.getLast?_singleton, Option.some.injEq] at hbefore
  omega

/-- A question without an answer before the query is kept next to it. -/
theorem not_whole_of_pending {front kept : List Message} {question : CString} {query : Message}
    {positions : List ℕ}
    (hkept : ∃ left, kept = left ++ [userMessage question, query]) :
    ¬WholeExchanges (front ++ [userMessage question, query]) kept positions query := by
  intro h
  obtain ⟨system, exchanges, hroles⟩ := h.roles
  obtain ⟨left, hleft⟩ := hkept
  have hsplit : left ++ [userMessage question] = dialogue system exchanges := by
    apply (List.append_left_inj [query]).mp
    rw [← hroles, hleft, List.append_assoc]
    rfl
  refine dialogue_getLast?_role system exchanges (m := userMessage question) ?_ rfl
  rw [← hsplit, List.getLast?_concat]

theorem storedMessage_query {query : CString} (hquery : query.isEmpty = false) :
    storedMessage query (.lit "user") = [userMessage (query.take maxMessageLength)] :=
  storedMessage_user (CString.isEmpty_eq_false_iff.mp hquery)

theorem truncateMessages_last_two (front : List Message) (m query : Message)
    (hlong : messagesToKeep < (front ++ [m, query]).length) :
    ∃ left, truncateMessages (front ++ [m, query]) = left ++ [m, query] := by
  rw [truncateMessages_of_gt hlong, List.drop_append_of_le_length]
  · exact ⟨_, (List.append_assoc _ _ _).symm⟩
  · rw [List.length_append] at hlong ⊢
    unfold messagesToKeep at hlong ⊢
    simp only [List.length_cons, List.length_nil] at hlong ⊢
    omega

/-- A dialogue with the query, and perhaps a question without an answer before it, loses an
exchange wherever the erasure shortens it. -/
theorem not_whole_of_shortened (system : Option CString) (exchanges : List Exchange)
    (pending : Option CString) (query : Message)
    (hlong : messagesToKeep <
      (dialogue system exchanges ++ pending.toList.map userMessage ++ [query]).length) :
    ¬WholeExchanges (dialogue system exchanges ++ pending.toList.map userMessage ++ [query])
      (truncateMessages
        (dialogue system exchanges ++ pending.toList.map userMessage ++ [query]))
      (keptPositions
        (dialogue system exchanges ++ pending.toList.map userMessage ++ [query]).length)
      query := by
  cases pending with
  | none =>
      simp only [Option.toList_none, List.map_nil, List.append_nil] at hlong ⊢
      cases system with
      | none => exact not_whole_of_no_system (by simp) hlong
      | some content => exact not_whole_of_system hlong
  | some question =>
      simp only [Option.toList_some, List.map_cons, List.map_nil, List.append_assoc,
        List.cons_append, List.nil_append] at hlong ⊢
      exact not_whole_of_pending (truncateMessages_last_two _ _ _ hlong)

/-- In every state of a run on a loaded instance whose list is a dialogue, with or without
a last question left unanswered, a `start_completion` keeps whole exchanges exactly when
its over-length branch is not taken or has nothing to erase. -/
theorem keepsExchanges_iff (E : Engine) (storeChats : Bool) (calls : List Call)
    (query : CString) (system : Option CString) (exchanges : List Exchange)
    (pending : Option CString)
    (hlist : ((loaded E storeChats).run E calls).messages =
      dialogue system exchanges ++ pending.toList.map userMessage)
    (hquery : query.isEmpty = false) :
    KeepsExchanges E ((loaded E storeChats).run E calls) query ↔
      overLength E ((loaded E storeChats).run E calls) query = false ∨
        ((loaded E storeChats).run E calls).messages.length < messagesToKeep := by
  have hacc := run_accounted (loaded_accounted E storeChats) E calls
  have hresult := startCompletion_messages E ((loaded E storeChats).run E calls) query hquery
    hacc.model hacc.ctx hacc.sampler
  unfold KeepsExchanges
  rw [storedMessage_query hquery] at hresult ⊢
  constructor
  · intro h
    cases hover : overLength E ((loaded E storeChats).run E calls) query with
    | false => exact .inl rfl
    | true =>
        right
        by_contra hmany
        rw [Nat.not_lt] at hmany
        have hlong : messagesToKeep < (((loaded E storeChats).run E calls).messages ++
            [userMessage (query.take maxMessageLength)]).length := by
          rw [List.length_append, List.length_singleton]
          omega
        have hwhole := h hover hlong
        rw [hresult, hover, if_pos rfl, hlist] at hwhole
        rw [hlist] at hlong
        exact not_whole_of_shortened system exchanges pending _ hlong hwhole
  · intro h hover hlong
    rw [List.length_append, List.length_singleton] at hlong
    rcases h with hfalse | hfew
    · rw [hfalse] at hover
      cases hover
    · omega

def oneExchange : List Call :=
  [.addChatMessage (.lit "Be brief.") (.lit "system"),
    .addChatMessage (letters 60) (.lit "user"), .addChatMessage (letters 60) (.lit "assistant")]

/-- An over-long query behind one exchange: nothing is erased. -/
theorem keepsExchanges_one_exchange :
    KeepsExchanges (ByteEngine.engine 1024)
      ((loaded (ByteEngine.engine 1024) true).run (ByteEngine.engine 1024) oneExchange)
      (letters 900) := by
  have hlist : ((loaded (ByteEngine.engine 1024) true).run (ByteEngine.engine 1024)
      oneExchange).messages = dialogue (some (.lit "Be brief.")) [⟨letters 60, letters 60⟩] ++
        (none : Option CString).toList.map userMessage := by decide +kernel
  refine (keepsExchanges_iff (ByteEngine.engine 1024) true oneExchange (letters 900)
    (some (.lit "Be brief.")) [⟨letters 60, letters 60⟩] none hlist (by decide +kernel)).mpr ?_
  right
  rw [hlist]
  decide

def longDialogue : List Call :=
  [.addChatMessage (.lit "Be brief.") (.lit "system"),
    .addChatMessage (letters 60) (.lit "user"), .addChatMessage (letters 60) (.lit "assistant"),
    .addChatMessage (letters 60) (.lit "user"), .addChatMessage (letters 60) (.lit "assistant")]

/-- Of a system message, two exchanges and a query the erasure takes the first question. -/
theorem keepsExchanges_loses_question :
    ((loaded (ByteEngine.engine 1024) true).run (ByteEngine.engine 1024) longDialogue).messages =
        dialogue (some (.lit "Be brief."))
          [⟨letters 60, letters 60⟩, ⟨letters 60, letters 60⟩] ∧
      ¬KeepsExchanges (ByteEngine.engine 1024)
        ((loaded (ByteEngine.engine 1024) true).run (ByteEngine.engine 1024) longDialogue)
        (.lit "hi") := by
  have hlist : ((loaded (ByteEngine.engine 1024) true).run (ByteEngine.engine 1024)
      longDialogue).messages = dialogue (some (.lit "Be brief."))
        [⟨letters 60, letters 60⟩, ⟨letters 60, letters 60⟩] := by decide +kernel
  refine ⟨hlist, fun h => ?_⟩
  have hwhole := h (by decide +kernel) (by decide +kernel)
  have hbefore := hwhole.answered [0] 2 [3, 4, 5] (by decide +kernel) (by decide +kernel)
  simp at hbefore

end SmollChat.LLMInference
