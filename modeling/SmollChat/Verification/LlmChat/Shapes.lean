import SmollChat.Verification.LlmChat.Rendering

/-! # Renderings of shortened conversations

The branches keep at most one variable from message to message: whether a turn is open, the
system prompt collected so far, or whether a message was written. For none of them does
leaving out messages behind the first one make the rendering longer. -/

namespace SmollChat

open Mealy

theorem user_ne_system : (.lit "user" : CString) ≠ .lit "system" := by decide

namespace Branch

def size (s : CString) : ℕ := s.bytes.length

@[simp] theorem size_append (s t : CString) : size (s ++ t) = size s + size t := by
  simp [size]

@[simp] theorem size_empty : size .empty = 0 := rfl

theorem size_concat_outputs (step : ChatLocals → Message → ChatLocals × CString) (l : ChatLocals)
    (chat : List Message) :
    size (CString.concat (outputs step l chat)) = cost step size l chat := by
  induction chat generalizing l with
  | nil => rfl
  | cons m chat ih => rw [outputs, CString.concat_cons, size_append, ih, cost_cons]

/-! ## The shapes of the branches -/

variable {B : Branch}

/-- The loop keeps nothing. -/
def Plain (B : Branch) : Prop := ∃ chunk : Message → CString, ∀ l m, B.step l m = (l, chunk m)

/-- The loop writes `turn` where a message finds no turn open. -/
def Turns (B : Branch) : Prop :=
  ∃ (turn : CString) (chunk : Message → CString) (next : Message → Bool), ∀ l m,
    B.step l m = ({ l with isInsideTurn := next m },
      (if !l.isInsideTurn then turn else .empty) ++ chunk m)

/-- What a loop that collects the system prompt does with a message. -/
inductive Part where
  | collected (text : CString)
  | flushed (before after : CString)
  | plain (text : CString)

def Part.step (l : ChatLocals) : Part → ChatLocals × CString
  | .collected text => ({ l with systemPrompt := l.systemPrompt ++ text }, .empty)
  | .flushed before after =>
      ({ l with systemPrompt := .empty }, before ++ (merged l.systemPrompt ++ after))
  | .plain text => (l, text)

/-- The loop puts the system prompt it has collected in front of the next user message. -/
def Collects (B : Branch) : Prop := ∃ part : Message → Part, ∀ l m, B.step l m = (part m).step l

def Leads (B : Branch) : Prop :=
  ∃ lead chunk : Message → CString, ∀ l m,
    B.step l m = ({ l with first := false }, if l.first then lead m else chunk m)

theorem plain_each (opening : CString) (chunk : Message → CString) (header : CString) :
    (each opening chunk header).Plain := ⟨chunk, fun _ _ => rfl⟩

theorem turns_mistral (leadingSpace trailingSpace : CString) (trimAssistantMessage : Bool) :
    (mistral leadingSpace trailingSpace trimAssistantMessage).Turns := by
  refine ⟨leadingSpace ++ .lit "[INST]" ++ trailingSpace, fun m =>
    if m.role = .lit "system" then m.content ++ .lit "\n\n"
    else if m.role = .lit "user" then m.content ++ leadingSpace ++ .lit "[/INST]"
    else trailingSpace ++ (if trimAssistantMessage then m.content.trim else m.content) ++
      .lit "</s>", fun m => m.role = .lit "system" ∨ m.role = .lit "user", fun l m => ?_⟩
  by_cases hs : m.role = .lit "system"
  · simp [mistral, hs]
  by_cases hu : m.role = .lit "user" <;> simp [mistral, hs, hu, user_ne_system]

theorem turns_llama2 (supportSystemMessage addBosInsideHistory stripMessage : Bool) :
    (llama2 supportSystemMessage addBosInsideHistory stripMessage).Turns := by
  refine ⟨if addBosInsideHistory then .lit "<s>[INST] " else .lit "[INST] ", fun m =>
    let content := if stripMessage then m.content.trim else m.content
    if m.role = .lit "system" then
      if supportSystemMessage then .lit "<<SYS>>\n" ++ content ++ .lit "\n<</SYS>>\n\n"
      else content ++ .lit "\n"
    else if m.role = .lit "user" then content ++ .lit " [/INST]"
    else content ++ .lit "</s>", fun m => m.role = .lit "system" ∨ m.role = .lit "user",
    fun l m => ?_⟩
  by_cases hs : m.role = .lit "system"
  · simp [llama2, hs]
  by_cases hu : m.role = .lit "user" <;> simp [llama2, hs, hu, user_ne_system]

theorem leads_monarch : monarch.Leads := by
  refine ⟨fun m => m.role ++ .lit "\n" ++ m.content ++ .lit "</s>\n", fun m =>
    .lit "<s>" ++ (m.role ++ .lit "\n" ++ m.content ++ .lit "</s>\n"), fun l m => ?_⟩
  cases hl : l.first <;> simp [monarch, hl]

theorem leads_gigachat : gigachat.Leads := by
  refine ⟨fun m => (gigachat.step { initial with first := true } m).2, fun m =>
    (gigachat.step { initial with first := false } m).2, fun l m => ?_⟩
  cases hl : l.first <;> simp [gigachat, hl]

theorem collects_gemma : gemma.Collects := by
  refine ⟨fun m =>
    if m.role = .lit "system" then .collected m.content.trim
    else
      let role := if m.role = .lit "assistant" then .lit "model" else m.role
      let open_ := .lit "<start_of_turn>" ++ role ++ .lit "\n"
      if role = .lit "model" then .plain (open_ ++ (m.content.trim ++ .lit "<end_of_turn>\n"))
      else .flushed open_ (m.content.trim ++ .lit "<end_of_turn>\n"), fun l m => ?_⟩
  simp only [gemma]
  split_ifs <;> rfl

theorem collects_orion : orion.Collects := by
  refine ⟨fun m =>
    if m.role = .lit "system" then .collected m.content
    else if m.role = .lit "user" then
      .flushed (.lit "Human: ") (m.content ++ .lit "\n\nAssistant: </s>")
    else .plain (m.content ++ .lit "</s>"), fun l m => ?_⟩
  simp only [orion]
  split_ifs <;> rfl

/-! ## Shorter conversations -/

/-- No variable of the loop makes up for a message that is left out. -/
def Shrinks (B : Branch) : Prop :=
  ∀ (m : Message) (as bs : List Message) (addAss : Bool),
    size (B.render (m :: bs) addAss) ≤ size (B.render (m :: (as ++ bs)) addAss)

/-- A branch shrinks where a run does, from the state after the first message on. -/
theorem shrinks_of_cost (h : ∀ l m as bs,
    cost B.step size (B.step l m).1 bs ≤ cost B.step size (B.step l m).1 (as ++ bs)) :
    B.Shrinks := by
  intro m as bs addAss
  have hsize : ∀ chat, size (B.render chat addAss) =
      size B.opening + cost B.step size B.locals chat +
        size (if addAss then B.header else .empty) := fun chat => by
    rw [render, size_append, size_append, size_concat_outputs]
  have hle := h B.locals m as bs
  rw [hsize, hsize, cost_cons, cost_cons]
  omega

theorem Plain.shrinks (h : B.Plain) : B.Shrinks := by
  obtain ⟨chunk, hstep⟩ := h
  have hD : Bounds B.step size (fun _ => True) fun _ _ => 0 :=
    ⟨fun _ _ _ => trivial, fun s t a _ _ => by simp [hstep]⟩
  exact shrinks_of_cost fun l m as bs =>
    hD.cost_drop_le (fun _ _ _ => Nat.zero_le _) trivial as bs

theorem Turns.shrinks (h : B.Turns) : B.Shrinks := by
  obtain ⟨turn, chunk, next, hstep⟩ := h
  let D : ChatLocals → ChatLocals → ℕ := fun l l' =>
    if !l.isInsideTurn ∧ l'.isInsideTurn then size turn else 0
  have hD : Bounds B.step size (fun _ => True) D := by
    refine ⟨fun _ _ _ => trivial, fun l l' m _ _ => ?_⟩
    rw [hstep, hstep]
    cases hl : l.isInsideTurn <;> cases hl' : l'.isInsideTurn <;> simp [D, hl, hl']
  have hdrop : ∀ l m, True → D l (B.step l m).1 ≤ size (B.step l m).2 := by
    intro l m _
    rw [hstep]
    cases hl : l.isInsideTurn <;> simp [D, hl]
    split_ifs <;> omega
  exact shrinks_of_cost fun l m as bs => hD.cost_drop_le hdrop trivial as bs

theorem size_merged (p : CString) : size (merged p) = if size p = 0 then 0 else size p + 2 := by
  have hiff : p.isEmpty = true ↔ size p = 0 := by
    rw [CString.isEmpty, List.isEmpty_iff, size, List.length_eq_zero_iff]
  simp only [merged, hiff]
  split_ifs
  · rfl
  · rw [size_append]
    rfl

theorem Collects.shrinks (h : B.Collects) : B.Shrinks := by
  obtain ⟨part, hstep⟩ := h
  let D : ChatLocals → ChatLocals → ℕ := fun l l' =>
    size (merged l.systemPrompt) - size (merged l'.systemPrompt)
  have hD : Bounds B.step size (fun _ => True) D := by
    refine ⟨fun _ _ _ => trivial, fun l l' m _ _ => ?_⟩
    rw [hstep, hstep]
    cases part m with
    | collected text =>
        simp only [Part.step, D, size_merged, size_append, size_empty]
        split_ifs <;> omega
    | flushed before after => simp only [Part.step, D, size_append]; omega
    | plain text => simp only [Part.step, D]; omega
  have hdrop : ∀ l m, True → D l (B.step l m).1 ≤ size (B.step l m).2 := by
    intro l m _
    rw [hstep]
    cases part m with
    | collected text =>
        simp only [Part.step, D, size_merged, size_append, size_empty]
        split_ifs <;> omega
    | flushed before after => simp only [Part.step, D, size_append]; omega
    | plain text => simp only [Part.step, D]; omega
  exact shrinks_of_cost fun l m as bs => hD.cost_drop_le hdrop trivial as bs

theorem Leads.shrinks (h : B.Leads) : B.Shrinks := by
  obtain ⟨lead, chunk, hstep⟩ := h
  have hD : Bounds B.step size (fun l => l.first = false) fun _ _ => 0 :=
    ⟨fun l m _ => by rw [hstep], fun l l' m hl hl' => by simp [hstep, hl, hl']⟩
  exact shrinks_of_cost fun l m as bs =>
    hD.cost_drop_le (fun _ _ _ => Nat.zero_le _) (by rw [hstep]) as bs

end Branch

open Branch in
/-- The branch of every kind has one of the four shapes. -/
theorem LlmChatTemplate.branch_shape {kind : LlmChatTemplate} {B : Branch}
    (h : kind.branch = some B) : B.Plain ∨ B.Turns ∨ B.Collects ∨ B.Leads := by
  cases kind <;> first
    | contradiction
    | (obtain rfl := Option.some.inj h
       first
       | exact .inl (plain_each _ _ _)
       | exact .inr (.inl (turns_mistral _ _ _))
       | exact .inr (.inl (turns_llama2 _ _ _))
       | exact .inr (.inr (.inl collects_gemma))
       | exact .inr (.inr (.inl collects_orion))
       | exact .inr (.inr (.inr leads_monarch))
       | exact .inr (.inr (.inr leads_gigachat)))

namespace LlmChatTemplate

open Branch

variable {kind : LlmChatTemplate}

theorem branch_shrinks {B : Branch} (h : kind.branch = some B) : B.Shrinks := by
  rcases branch_shape h with h | h | h | h
  · exact h.shrinks
  · exact h.shrinks
  · exact h.shrinks
  · exact h.shrinks

theorem rwkvWorld_shrinks (m : Message) (as : List Message) {bs : List Message} (hbs : bs ≠ []) :
    size (renderRwkvWorld (m :: bs)) ≤ size (renderRwkvWorld (m :: (as ++ bs))) := by
  have hshort := renderRwkvWorld_append [m] hbs
  have hlong := renderRwkvWorld_append (m :: as) hbs
  rw [List.singleton_append] at hshort
  rw [List.cons_append] at hlong
  rw [hshort, hlong, size_append, size_append, List.map_cons, List.map_cons, CString.concat_cons,
    CString.concat_cons, size_append, size_append, List.map_nil, CString.concat_nil, size_empty]
  omega

/-- Leaving out messages between the first one and a last part makes no rendering longer. -/
theorem apply_shrinks (m : Message) (as : List Message) {bs : List Message} (hbs : bs ≠ [])
    {addAss : Bool} {short long : CString} (hshort : kind.apply (m :: bs) addAss = some short)
    (hlong : kind.apply (m :: (as ++ bs)) addAss = some long) : size short ≤ size long := by
  by_cases hr : kind = rwkvWorld
  · subst hr
    obtain rfl := Option.some.inj hshort
    obtain rfl := Option.some.inj hlong
    exact rwkvWorld_shrinks m as hbs
  · rw [apply, if_neg hr] at hshort hlong
    obtain ⟨B, hB, rfl⟩ := Option.map_eq_some_iff.mp hshort
    rw [hB] at hlong
    obtain rfl := Option.some.inj hlong
    exact branch_shrinks hB m as bs addAss

end LlmChatTemplate

end SmollChat
