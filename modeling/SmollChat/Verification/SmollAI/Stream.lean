import SmollChat.Model.ByteEngine
import SmollChat.Model.SmollAI

/-! # The response stream

`getResponse` compares every result of the native loop with one literal. Its flow ends
at the first result that reads `[EOG]` and emits the text of every result before it. -/

namespace SmollChat

namespace SmollAI

def afterLoops (s : SmollAI) (draws : ℕ → Draw) : ℕ → SmollAI
  | 0 => s
  | n + 1 => (s.afterLoops draws n).completionLoop (draws n) |>.2

def resultAt (s : SmollAI) (draws : ℕ → Draw) (n : ℕ) : LoopResult :=
  (s.afterLoops draws n).loopResult (draws n)

theorem afterLoops_nativePtr (s : SmollAI) (draws : ℕ → Draw) (n : ℕ) :
    (s.afterLoops draws n).nativePtr = s.nativePtr := by
  induction n with
  | zero => rfl
  | succ n ih => exact ih

theorem resultAt_null {s : SmollAI} (h : s.nativePtr = 0) (draws : ℕ → Draw) (n : ℕ) :
    s.resultAt draws n = .error .nullHandle := by
  simp [resultAt, loopResult, afterLoops_nativePtr, h]

end SmollAI

/-- A result that is neither an error nor the end of the generation, and whose text is
not mistaken for the latter. -/
def LoopResult.Continues (r : LoopResult) : Prop :=
  r = .filtered ∨ ∃ text, r = .piece text ∧ r.toKotlin ≠ eogMarker

namespace ResponseFlow

variable {f : ResponseFlow} {draws : ℕ → Draw} {n : ℕ}

theorem filtered_toKotlin : LoopResult.filtered.toKotlin = .empty := by decide

theorem eog_toKotlin : LoopResult.eog.toKotlin = eogMarker := rfl

theorem step_of_ne {s : SmollAI} {d : Draw} (h : (s.loopResult d).toKotlin ≠ eogMarker)
    (emitted : List CString) :
    (⟨s, emitted, false⟩ : ResponseFlow).step d =
      ⟨(s.completionLoop d).2, emitted ++ [(s.loopResult d).toKotlin], false⟩ :=
  if_neg h

theorem step_of_eog {s : SmollAI} {d : Draw} (h : (s.loopResult d).toKotlin = eogMarker)
    (emitted : List CString) :
    (⟨s, emitted, false⟩ : ResponseFlow).step d =
      ⟨(s.completionLoop d).2.stopCompletion, emitted, true⟩ :=
  if_pos h

/-- The flow before its end: it has emitted the text of every result so far. -/
theorem run_of_ne_eog (hf : f.finished = false)
    (h : ∀ i < n, (f.smollai.resultAt draws i).toKotlin ≠ eogMarker) :
    f.run draws n = ⟨f.smollai.afterLoops draws n,
      f.emitted ++ (List.range n).map fun i => (f.smollai.resultAt draws i).toKotlin, false⟩ := by
  induction n with
  | zero =>
      rw [List.range_zero, List.map_nil, List.append_nil, ← hf]
      rfl
  | succ n ih =>
      have hn := h n (Nat.lt_succ_self n)
      rw [run, ih fun i hi => h i (Nat.lt_succ_of_lt hi), step_of_ne hn]
      simp [SmollAI.afterLoops, SmollAI.resultAt, List.range_succ]

theorem run_of_eog (hf : f.finished = false)
    (h : ∀ i < n, (f.smollai.resultAt draws i).toKotlin ≠ eogMarker)
    (hn : (f.smollai.resultAt draws n).toKotlin = eogMarker) :
    f.run draws (n + 1) = ⟨(f.smollai.afterLoops draws (n + 1)).stopCompletion,
      f.emitted ++ (List.range n).map fun i => (f.smollai.resultAt draws i).toKotlin, true⟩ := by
  rw [run, run_of_ne_eog hf h, step_of_eog hn]
  rfl

theorem run_never_finishes (hf : f.finished = false)
    (h : ∀ i, (f.smollai.resultAt draws i).toKotlin ≠ eogMarker) (n : ℕ) :
    (f.run draws n).finished = false := by
  rw [run_of_ne_eog hf fun i _ => h i]

end ResponseFlow

namespace SmollAI

/-- The stream as it was asked for: it ends at the first result that is not generated
text and emits the texts before it. -/
def EndsAtFirstNonText (s : SmollAI) (query : CString) (draws : ℕ → Draw) : Prop :=
  let f := s.getResponse query
  ∀ n, (∀ i < n, ∃ text, f.smollai.resultAt draws i = .piece text) →
    (∀ text, f.smollai.resultAt draws n ≠ .piece text) →
    (∀ k ≤ n, (f.run draws k).finished = false) ∧ (f.run draws (n + 1)).finished = true ∧
      (f.run draws (n + 1)).emitted =
        (List.range n).map fun i => (f.smollai.resultAt draws i).toKotlin

/-- For results that are generated text, other than the literal `[EOG]`, or filtered
tokens and then the end of the generation, the flow ends with the latter, emits the
former in order, an empty string for a filtered token, and stops the completion. -/
theorem getResponse_ends_at_eog (s : SmollAI) (query : CString) (draws : ℕ → Draw) (n : ℕ)
    (htext : ∀ i < n, ((s.getResponse query).smollai.resultAt draws i).Continues)
    (heog : (s.getResponse query).smollai.resultAt draws n = .eog) :
    (∀ k ≤ n, ((s.getResponse query).run draws k).finished = false) ∧
      (s.getResponse query).run draws (n + 1) =
        ⟨((s.getResponse query).smollai.afterLoops draws (n + 1)).stopCompletion,
          (List.range n).map fun i => ((s.getResponse query).smollai.resultAt draws i).toKotlin,
          true⟩ := by
  have hne : ∀ i < n, ((s.getResponse query).smollai.resultAt draws i).toKotlin ≠ eogMarker := by
    intro i hi
    rcases htext i hi with hfiltered | ⟨text, -, hne⟩
    · rw [hfiltered, ResponseFlow.filtered_toKotlin]
      decide
    · exact hne
  constructor
  · intro k hk
    rw [ResponseFlow.run_of_ne_eog rfl fun i hi => hne i (hi.trans_le hk)]
  · exact ResponseFlow.run_of_eog rfl hne (by rw [heog, ResponseFlow.eog_toKotlin])

def markerDraws : ℕ → Draw
  | 0 => .ok 256
  | 1 => .ok 72
  | _ => .ok 257

theorem getResponse_ends_at_eog_marker :
    (∀ k ≤ 2, ((byteSmollAI.getResponse (.lit "hi")).run markerDraws k).finished = false) ∧
      (byteSmollAI.getResponse (.lit "hi")).run markerDraws 3 =
        ⟨((byteSmollAI.getResponse (.lit "hi")).smollai.afterLoops markerDraws 3).stopCompletion,
          (List.range 2).map fun i =>
            ((byteSmollAI.getResponse (.lit "hi")).smollai.resultAt markerDraws i).toKotlin,
          true⟩ :=
  getResponse_ends_at_eog byteSmollAI (.lit "hi") markerDraws 2
    (fun i hi => by
      match i, hi with
      | 0, _ => exact .inl (by decide +kernel)
      | 1, _ => exact .inr ⟨[72], by decide +kernel, by decide +kernel⟩)
    (by decide +kernel)

/-- A filtered token does not end the flow, and neither does an error: with a null
handle it goes on for ever. -/
theorem getResponse_passes_nonText :
    ¬byteSmollAI.EndsAtFirstNonText (.lit "hi") markerDraws ∧
      ¬new.EndsAtFirstNonText (.lit "hi") markerDraws := by
  constructor
  · intro h
    have hfirst : (byteSmollAI.getResponse (.lit "hi")).smollai.resultAt markerDraws 0 =
        .filtered := by decide +kernel
    have hend := (h 0 (by simp) (by simp [hfirst])).2.1
    exact absurd hend (by decide +kernel)
  · intro h
    have hnull := resultAt_null (s := (new.getResponse (.lit "hi")).smollai) rfl markerDraws
    have hend := (h 0 (by simp) (by simp [hnull])).2.1
    have hopen : ((new.getResponse (.lit "hi")).run markerDraws 1).finished = false :=
      ResponseFlow.run_never_finishes rfl
        (fun i => by
          rw [hnull]
          decide) 1
    exact absurd hend (by simp [hopen])

end SmollAI

end SmollChat
