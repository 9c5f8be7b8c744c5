import SmollChat.Library.Since
import SmollChat.Verification.LLMInference.Context

/-! # The response across completions

`response` grows with every generated piece and is emptied by a stop and by a cancel, but
not by `start_completion`. It holds the text of the current completion only if each piece
that precedes a start also precedes a stop or a cancel, and conversely. -/

namespace SmollChat.LLMInference

open Since

/-! ## Runs with the text they generate -/

def Call.starts : Call → Bool
  | .startCompletion _ => true
  | _ => false

/-- The calls that empty the response. -/
def Call.clears : Call → Bool
  | .stopCompletion => true
  | .cancelCompletion => true
  | _ => false

def textOf (E : Engine) (s : LLMInference) : Call → Bytes
  | .completionLoop d => generated (s.completionLoop E d).1
  | _ => []

structure Utterance where
  call : Call
  text : Bytes

def transcript (E : Engine) : LLMInference → List Call → List Utterance
  | _, [] => []
  | s, c :: calls => ⟨c, textOf E s c⟩ :: transcript E (s.call E c) calls

/-- The pieces produced since the most recent `start_completion`. -/
def producedText (E : Engine) (s : LLMInference) (calls : List Call) : Bytes :=
  since Utterance.text (fun u => u.call.starts) (transcript E s calls)

/-! ## The response -/

variable {E : Engine} {s : LLMInference}

theorem call_response (h : Accounted s) (E : Engine) (c : Call) :
    (s.call E c).response = if c.clears then [] else s.response ++ textOf E s c := by
  cases c with
  | addChatMessage message role => exact (List.append_nil _).symm
  | startCompletion query =>
      calc
        (s.startCompletion E query).2.response = s.response :=
          (startCompletion_frame E s query).response
        _ = s.response ++ [] := (List.append_nil _).symm
  | completionLoop d => exact (completionLoop_frame E s d).response
  | stopCompletion =>
      rw [call, stopCompletion_eq E s h.model h.ctx]
      rfl
  | cancelCompletion =>
      rw [call, cancelCompletion_eq E s h.model h.ctx]
      rfl

/-- After a run the response holds the text since its last stop or cancel. -/
theorem run_response (h : Accounted s) (E : Engine) (calls : List Call) :
    (s.run E calls).response =
      (if (transcript E s calls).any (fun u => u.call.clears) then [] else s.response) ++
        since Utterance.text (fun u => u.call.clears) (transcript E s calls) := by
  induction calls generalizing s with
  | nil => exact (List.append_nil _).symm
  | cons c calls ih =>
      have hcall := call_accounted h E c
      have hrun : s.run E (c :: calls) = (s.call E c).run E calls := rfl
      rw [hrun, ih hcall, transcript, List.any_cons, call_response h]
      cases hany : (transcript E (s.call E c) calls).any (fun u => u.call.clears) with
      | true => simp [since_cons_of_any hany]
      | false =>
          rw [since_cons_of_none hany]
          cases hclears : c.clears with
          | true =>
              have htext : textOf E s c = [] := by
                cases c <;> first | rfl | simp [Call.clears] at hclears
              simp [htext]
          | false => simp

/-- Every call that has generated text is followed by a start exactly if it is followed by
a stop or a cancel. -/
def Unmixed (steps : List Utterance) : Prop :=
  ∀ before u after, steps = before ++ u :: after → u.text ≠ [] →
    (after.any fun u => u.call.starts) = after.any fun u => u.call.clears

theorem response_eq_producedText_iff (E : Engine) (storeChats : Bool) (calls : List Call) :
    ((loaded E storeChats).run E calls).response = producedText E (loaded E storeChats) calls ↔
      Unmixed (transcript E (loaded E storeChats) calls) := by
  have hempty : (loaded E storeChats).response = [] := rfl
  rw [run_response (loaded_accounted E storeChats), hempty, ite_self, List.nil_append,
    producedText, eq_comm]
  exact since_eq_iff

/-! ## Stored replies -/

/-- If a `stop_completion` made after these calls stores a reply, it is computed from the
pieces produced since the most recent start. -/
def OwnReply (E : Engine) (s : LLMInference) (calls : List Call) : Prop :=
  storedReply (s.run E calls).storeChats (s.run E calls).response ≠ [] →
    (s.run E calls).response = producedText E s calls

instance (E : Engine) (s : LLMInference) (calls : List Call) : Decidable (OwnReply E s calls) :=
  inferInstanceAs (Decidable (_ → _))

/-- A reply is the completion's own exactly when no text before it was generated between
the most recent start and the most recent stop or cancel. -/
theorem ownReply_iff (E : Engine) (storeChats : Bool) (calls : List Call) :
    OwnReply E (loaded E storeChats) calls ↔
      (storedReply ((loaded E storeChats).run E calls).storeChats
          ((loaded E storeChats).run E calls).response ≠ [] →
        Unmixed (transcript E (loaded E storeChats) calls)) := by
  unfold OwnReply
  rw [response_eq_producedText_iff]

end SmollChat.LLMInference
