import SmollChat.Model.LlmChat

/-! # Renderings of growing conversations

`LLMInference` sends the part of a rendering behind the length of an earlier one. For every
kind but `rwkvWorld` that is the text of the messages added since: a rendering without the
header of the reply goes on where the rendering of the messages before ended. -/

namespace SmollChat

open Mealy

namespace Branch

variable (B : Branch)

theorem render_append (chat rest : List Message) (addAss : Bool) :
    B.render (chat ++ rest) addAss = B.render chat false ++
      (CString.concat (outputs B.step (final B.step B.locals chat) rest) ++
        if addAss then B.header else .empty) := by
  simp only [render, outputs_append, CString.concat_append, Bool.false_eq_true, if_false,
    CString.append_empty, CString.append_assoc]

theorem render_prefix (chat rest : List Message) (addAss : Bool) :
    (B.render chat false).bytes <+: (B.render (chat ++ rest) addAss).bytes := by
  rw [render_append, CString.bytes_append]
  exact List.prefix_append _ _

end Branch

namespace LlmChatTemplate

variable {kind : LlmChatTemplate} {chat rest : List Message}

/-! ## The kind that looks ahead -/

/-- What `rwkvWorld` writes for a message that is not the last one. -/
def rwkvChunk : Message → CString :=
  Branch.byRole (Branch.wrapTrim (.lit "System: ") (.lit "\n\n"))
    (Branch.wrapTrim (.lit "User: ") (.lit "\n\n"))
    (Branch.wrapTrim (.lit "Assistant: ") (.lit "\n\n")) Branch.skip

def EndsWithUser (chat : List Message) : Prop :=
  (chat.getLast?.map Message.role) = some (.lit "user")

instance (chat : List Message) : Decidable (EndsWithUser chat) :=
  inferInstanceAs (Decidable (_ = _))

theorem renderRwkvWorld_cons (m : Message) (rest : List Message) :
    renderRwkvWorld (m :: rest) = rwkvChunk m ++
      ((if rest = [] ∧ m.role = .lit "user" then .lit "Assistant:" else .empty) ++
        renderRwkvWorld rest) := by
  have hroles : (.lit "system" : CString) ≠ .lit "user" := by decide
  by_cases hs : m.role = .lit "system"
  · simp [renderRwkvWorld, rwkvChunk, Branch.byRole, hs, hroles]
  by_cases hu : m.role = .lit "user"
  · simp [renderRwkvWorld, rwkvChunk, Branch.byRole, hu, hroles.symm, CString.append_assoc]
  · simp [renderRwkvWorld, rwkvChunk, Branch.byRole, hs, hu]

theorem renderRwkvWorld_eq (chat : List Message) :
    renderRwkvWorld chat = CString.concat (chat.map rwkvChunk) ++
      if EndsWithUser chat then .lit "Assistant:" else .empty := by
  induction chat with
  | nil => rfl
  | cons m chat ih =>
      rw [renderRwkvWorld_cons, ih, List.map_cons, CString.concat_cons, CString.append_assoc]
      congr 1
      cases chat with
      | nil => simp [EndsWithUser]
      | cons m' chat => simp [EndsWithUser]

theorem renderRwkvWorld_append (chat : List Message) (hrest : rest ≠ []) :
    renderRwkvWorld (chat ++ rest) =
      CString.concat (chat.map rwkvChunk) ++ renderRwkvWorld rest := by
  have hends : EndsWithUser (chat ++ rest) ↔ EndsWithUser rest := by
    rw [EndsWithUser, EndsWithUser, List.getLast?_append_of_ne_nil chat hrest]
  rw [renderRwkvWorld_eq, renderRwkvWorld_eq rest, List.map_append, CString.concat_append,
    CString.append_assoc]
  simp only [hends]

/-- The first message that `rwkvWorld` writes is the assistant's. -/
def OpensReply (rest : List Message) : Prop :=
  ((rest.find? fun m => m.role ∈ [.lit "system", .lit "user", .lit "assistant"]).map
    Message.role) = some (.lit "assistant")

theorem header_not_opening {b : UInt8} {tail : Bytes} (hb : b ≠ 65) :
    ¬(CString.lit "Assistant:").bytes <+: b :: tail := by
  obtain ⟨t, ht⟩ : ∃ t, (CString.lit "Assistant:").bytes = 65 :: t := ⟨_, rfl⟩
  rw [ht, List.cons_prefix_cons]
  exact fun h => hb h.1.symm

theorem header_prefix_iff (rest : List Message) :
    (CString.lit "Assistant:").bytes <+: (renderRwkvWorld rest).bytes ↔ OpensReply rest := by
  induction rest with
  | nil => exact iff_of_false (by decide) (by simp [OpensReply])
  | cons m rest ih =>
      rw [renderRwkvWorld_cons, CString.bytes_append, rwkvChunk, Branch.byRole]
      by_cases hs : m.role = .lit "system"
      · obtain ⟨t, ht⟩ : ∃ t, (CString.lit "System: ").bytes = 83 :: t := ⟨_, rfl⟩
        rw [if_pos hs, Branch.wrapTrim, Branch.wrap, CString.bytes_append, CString.bytes_append, ht]
        exact iff_of_false (header_not_opening (by decide)) (by simp [OpensReply, hs]; decide)
      by_cases hu : m.role = .lit "user"
      · obtain ⟨t, ht⟩ : ∃ t, (CString.lit "User: ").bytes = 85 :: t := ⟨_, rfl⟩
        rw [if_neg hs, if_pos hu, Branch.wrapTrim, Branch.wrap, CString.bytes_append,
          CString.bytes_append, ht]
        exact iff_of_false (header_not_opening (by decide)) (by simp [OpensReply, hu]; decide)
      by_cases ha : m.role = .lit "assistant"
      · have hsplit : (CString.lit "Assistant: ").bytes =
            (CString.lit "Assistant:").bytes ++ [32] := rfl
        rw [if_neg hs, if_neg hu, if_pos ha, Branch.wrapTrim, Branch.wrap, CString.bytes_append,
          CString.bytes_append, hsplit]
        refine iff_of_true ?_ (by simp [OpensReply, ha])
        simp only [List.append_assoc]
        exact List.prefix_append _ _
      · rw [if_neg hs, if_neg hu, if_neg ha, Branch.skip, if_neg fun h => hu h.2]
        refine ih.trans ?_
        simp [OpensReply, hs, hu, ha]

theorem rwkvWorld_prefix_iff (chat rest : List Message) :
    (renderRwkvWorld chat).bytes <+: (renderRwkvWorld (chat ++ rest)).bytes ↔
      (EndsWithUser chat → rest = [] ∨ OpensReply rest) := by
  by_cases hrest : rest = []
  · simp [hrest]
  rw [renderRwkvWorld_append chat hrest, renderRwkvWorld_eq, CString.bytes_append,
    CString.bytes_append, List.prefix_append_right_inj]
  by_cases hends : EndsWithUser chat
  · rw [if_pos hends, header_prefix_iff]
    simp [hends, hrest]
  · rw [if_neg hends]
    exact iff_of_true (List.nil_prefix) fun h => absurd h hends

/-! ## All kinds -/

theorem branch_isSome (hk : kind ≠ unknown) (hr : kind ≠ rwkvWorld) :
    ∃ B, kind.branch = some B := by
  cases kind <;> first | exact ⟨_, rfl⟩ | contradiction

theorem apply_of_branch {B : Branch} (h : kind.branch = some B) (chat : List Message)
    (addAss : Bool) : kind.apply chat addAss = some (B.render chat addAss) := by
  have hne : kind ≠ rwkvWorld := by
    rintro rfl
    contradiction
  rw [apply, if_neg hne, h]
  rfl

/-- A conversation is rendered in front of every longer one. `rwkvWorld` opens the reply to a
last message of the user of its own accord, so there the messages that follow must begin with
the assistant's. -/
theorem apply_prefix_iff (hk : kind ≠ unknown) (chat rest : List Message) (addAss : Bool) :
    ∃ short long, kind.apply chat false = some short ∧
      kind.apply (chat ++ rest) addAss = some long ∧
      (short.bytes <+: long.bytes ↔
        (kind = rwkvWorld → EndsWithUser chat → rest = [] ∨ OpensReply rest)) := by
  by_cases hr : kind = rwkvWorld
  · subst hr
    refine ⟨_, _, if_pos rfl, if_pos rfl, ?_⟩
    rw [rwkvWorld_prefix_iff]
    simp
  · obtain ⟨B, hB⟩ := branch_isSome hk hr
    refine ⟨_, _, apply_of_branch hB chat false, apply_of_branch hB (chat ++ rest) addAss, ?_⟩
    exact iff_of_true (B.render_prefix chat rest addAss) fun h => absurd h hr

theorem apply_prefix_iff_rwkvWorld :
    ∃ short long, rwkvWorld.apply [⟨.lit "user", .lit "hi"⟩] false = some short ∧
      rwkvWorld.apply ([⟨.lit "user", .lit "hi"⟩] ++ [⟨.lit "user", .lit "yo"⟩]) true = some long ∧
      (short.bytes <+: long.bytes ↔ (rwkvWorld = rwkvWorld →
        EndsWithUser [⟨.lit "user", .lit "hi"⟩] →
          ([⟨.lit "user", .lit "yo"⟩] : List Message) = [] ∨
            OpensReply [⟨.lit "user", .lit "yo"⟩])) :=
  apply_prefix_iff (by decide) _ _ true

end LlmChatTemplate

end SmollChat
