import SmollChat.Library.Occurrences
import SmollChat.Verification.LLMInference.Context

/-! # The filter of the stream

`completion_loop` decides piece by piece what it returns. Markers can be split over pieces,
and a word that belongs to a marker can also stand alone. -/

namespace SmollChat

/-- A token was drawn that does not end the generation. -/
def LoopResult.isToken : LoopResult → Bool
  | .piece _ => true
  | .filtered => true
  | .eog => false
  | .error _ => false

namespace LLMInference

open Occurrences

variable {E : Engine} {s : LLMInference}

/-! ## The stream -/

def chatMarkers : List Bytes :=
  [ascii "<|im_start|>assistant", ascii "<|im_start|>", ascii "<|im_end|>"]

def loopResults (E : Engine) : LLMInference → List Draw → List LoopResult
  | _, [] => []
  | s, d :: draws => (s.completionLoop E d).1 :: loopResults E (s.completionLoop E d).2 draws

def returnedText (E : Engine) (s : LLMInference) (draws : List Draw) : Bytes :=
  ((loopResults E s draws).map LoopResult.text).flatten

def drawnText (E : Engine) (draws : List Draw) : Bytes :=
  (draws.map fun d => E.commonTokenToPiece d.sampled).flatten

/-- At each point of the stream the user has seen the text without its markers. -/
def RemovesMarkers (E : Engine) (s : LLMInference) (draws : List Draw) : Prop :=
  ∀ front, front <+: draws → returnedText E s front = strip chatMarkers (drawnText E front)

/-- A piece that is filtered adds nothing to the text without markers, and no marker ends in
a piece that is shown. -/
def PieceFits (before piece : Bytes) : Prop :=
  if isFormatPiece piece then strip chatMarkers (before ++ piece) = strip chatMarkers before
  else ∀ m ∈ chatMarkers, ¬EndsIn m before piece

instance (before piece : Bytes) : Decidable (PieceFits before piece) :=
  inferInstanceAs (Decidable (if isFormatPiece piece
    then strip chatMarkers (before ++ piece) = strip chatMarkers before
    else ∀ m ∈ chatMarkers, ¬EndsIn m before piece))

/-! ## Results and pieces -/

theorem loopResults_append (E : Engine) (s : LLMInference) (front draws : List Draw) :
    loopResults E s (front ++ draws) =
      loopResults E s front ++ loopResults E (s.run E (front.map .completionLoop)) draws := by
  induction front generalizing s with
  | nil => rfl
  | cons d front ih => exact congrArg _ (ih _)

theorem returnedText_eq {draws : List Draw}
    (h : ∀ r ∈ loopResults E s draws, r.isToken = true) :
    returnedText E s draws = (draws.map fun d => shown E d.sampled).flatten := by
  induction draws generalizing s with
  | nil => rfl
  | cons d draws ih =>
      have hd : (s.completionLoop E d).1.isToken = true := h _ List.mem_cons_self
      have htext : (s.completionLoop E d).1.text = shown E d.sampled := by
        cases hcall : s.completionLoop E d with
        | mk r s' =>
            rw [hcall] at hd
            refine (completionLoop_token hcall ?_ ?_).2.1
            · rintro e rfl
              cases hd
            · rintro rfl
              cases hd
      have hrest := ih fun r hr => h r (List.mem_cons_of_mem _ hr)
      calc
        returnedText E s (d :: draws) =
            (s.completionLoop E d).1.text ++ returnedText E (s.completionLoop E d).2 draws := rfl
        _ = shown E d.sampled ++ (draws.map fun d => shown E d.sampled).flatten := by
          rw [htext, hrest]

theorem strip_piece_iff (E : Engine) (before : Bytes) (token : ℤ) :
    strip chatMarkers before ++ shown E token =
        strip chatMarkers (before ++ E.commonTokenToPiece token) ↔
      PieceFits before (E.commonTokenToPiece token) := by
  have hne : ∀ m ∈ chatMarkers, m ≠ [] := by decide
  unfold PieceFits shown
  split
  · rw [List.append_nil, eq_comm]
  · rw [eq_comm, strip_append_iff hne]

/-- The stream shows the text without its markers exactly if each filtered piece adds nothing
to that text and each marker ends in a filtered piece. -/
theorem removesMarkers_iff (E : Engine) (s : LLMInference) (draws : List Draw)
    (h : ∀ r ∈ loopResults E s draws, r.isToken = true) :
    RemovesMarkers E s draws ↔
      ∀ front d, front ++ [d] <+: draws →
        PieceFits (drawnText E front) (E.commonTokenToPiece d.sampled) := by
  have hreturned : ∀ front, front <+: draws →
      returnedText E s front = (front.map fun d => shown E d.sampled).flatten := by
    rintro front ⟨rest, rfl⟩
    refine returnedText_eq fun r hr => h r ?_
    rw [loopResults_append]
    exact List.mem_append_left _ hr
  have hgrow : ∀ front (d : Draw), drawnText E (front ++ [d]) =
      drawnText E front ++ E.commonTokenToPiece d.sampled := by
    intro front d
    simp [drawnText]
  have hstep : ∀ front d, front ++ [d] <+: draws →
      returnedText E s (front ++ [d]) = returnedText E s front ++ shown E d.sampled := by
    intro front d hfront
    rw [hreturned _ hfront, hreturned front ((List.prefix_append _ _).trans hfront)]
    simp
  constructor
  · intro hall front d hfront
    rw [← strip_piece_iff, ← hgrow, ← hall _ hfront, hstep front d hfront,
      hall front ((List.prefix_append _ _).trans hfront)]
  · intro hfits front
    induction front using List.reverseRecOn with
    | nil => exact fun _ => rfl
    | append_singleton front d ih =>
        intro hfront
        rw [hstep front d hfront, ih ((List.prefix_append _ _).trans hfront), hgrow,
          strip_piece_iff]
        exact hfits front d hfront

def started : LLMInference :=
  ((loaded (ByteEngine.engine 1024) true).startCompletion (ByteEngine.engine 1024) (.lit "hi")).2

theorem removesMarkers_controlToken :
    RemovesMarkers (ByteEngine.engine 1024) started [.ok 72, .ok 256] := by
  refine (removesMarkers_iff (ByteEngine.engine 1024) started [.ok 72, .ok 256]
    (by decide +kernel)).mpr ?_
  rintro (_ | ⟨d₁, _ | ⟨d₂, front⟩⟩) d hfront
  · obtain rfl : d = .ok 72 := by simpa using hfront
    decide +kernel
  · obtain ⟨rfl, rfl⟩ : d₁ = .ok 72 ∧ d = .ok 256 := by simpa using hfront
    decide +kernel
  · simp at hfront

def wordEngine : Engine :=
  { ByteEngine.engine 1024 with
    commonTokenToPiece := fun token =>
      if token = 300 then ascii "assistant" else ByteEngine.piece token
    nTokens := 301 }

/-- Spelled in letters the end marker is shown, and the word alone is not. -/
theorem removesMarkers_fails :
    ¬RemovesMarkers (ByteEngine.engine 1024) started
        ((ascii "<|im_end|>").map fun b => .ok b.toNat) ∧
      ¬RemovesMarkers wordEngine started [.ok 300] := by
  constructor
  · intro h
    exact absurd (h _ (List.prefix_refl _)) (by decide +kernel)
  · intro h
    exact absurd (h _ (List.prefix_refl _)) (by decide +kernel)

end LLMInference

end SmollChat
